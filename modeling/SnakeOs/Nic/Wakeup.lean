import SnakeOs.Nic.Buffers

namespace SnakeOs.Nic
open Arch

/-- How the kernel and the controller use the driver: `net_rx_action` polls a scheduled
device with some budget and quota left, and stopped DMA stays stopped. -/
def Napi (s : Rx) : RxAct → Prop
  | .poll budget quota => s.sched = true ∧ 0 < budget ∧ 0 < quota
  | .resume => False
  | _ => True

instance (s : Rx) : (a : RxAct) → Decidable (Napi s a)
  | .poll budget quota => inferInstanceAs (Decidable (s.sched = true ∧ 0 < budget ∧ 0 < quota))
  | .resume => .isFalse id
  | .receive _ | .queueFull | .receiveIsr | .rxqfIsr | .work _ => .isTrue trivial

/-- The descriptor at `cur_index` holds a packet or reception has stopped. -/
abbrev Unserved (s : Rx) : Prop := (s.desc s.cur).cown = true ∨ s.dmaOn = false

/-- Nothing is left in the ring. -/
abbrev Drained (s : Rx) : Prop := s.rxsd = s.cur ∧ (s.desc s.cur).cown = false

/-- The poll has found no work and not yet called `netif_rx_complete`. -/
abbrev Leaving (s : Rx) : Prop := s.pc = .decide ∧ s.workDone = 0 ∨ s.pc = .complete

/-- No interrupt is pending and the device is not scheduled. -/
structure Quiescent (s : Rx) : Prop where
  rxrc : s.rxrc = false
  rxqf : s.rxqf = false
  sched : s.sched = false

/-- The interrupt handler that runs while the poll is leaving is not the last one that
could tell of an unserved ring, and a clear `is_qf` is not seen while the DMA stands
still before a drained ring. -/
def SafeWake (s : Rx) : RxAct → Prop
  | .receiveIsr => Leaving s → Unserved s → s.rxqf = true
  | .rxqfIsr => Leaving s → Unserved s → s.rxrc = true
  | .work _ => s.pc = .testQf → s.isQf = false → ¬ (s.dmaOn = false ∧ Drained s)
  | _ => True

instance (s : Rx) : (a : RxAct) → Decidable (SafeWake s a)
  | .receiveIsr => inferInstanceAs (Decidable (Leaving s → Unserved s → s.rxqf = true))
  | .rxqfIsr => inferInstanceAs (Decidable (Leaving s → Unserved s → s.rxrc = true))
  | .work _ => inferInstanceAs
      (Decidable (s.pc = .testQf → s.isQf = false → ¬ (s.dmaOn = false ∧ Drained s)))
  | .receive _ | .queueFull | .resume | .poll _ _ => .isTrue trivial

/-- The places of the poll from which it will still look at `is_qf`. -/
def Pc.testing : Pc → Prop
  | .loop _ _ | .decide | .testQf | .clearQf | .startDma => True
  | _ => False

structure Awake (s : Rx) : Prop where
  resting : s.sched = false → s.pc = .idle
  started : s.pc ≠ .idle → 0 < s.workToDo ∧ 0 ≤ s.workDone
  sampled : s.pc = .count s.cur → Drained s ∨ (s.desc s.cur).cown = true
  looping : ∀ i n, s.pc = .loop i n → s.workDone = 0 → i < n
  worked : s.pc = .testQf ∨ s.pc = .clearQf ∨ s.pc = .startDma → 0 < s.workDone
  stopped : s.dmaOn = false → Drained s → s.pc.testing ∧ 0 < s.workDone
  pending : s.sched = false ∨ Leaving s → Unserved s → s.rxrc = true ∨ s.rxqf = true

theorem bufferAlloc_awake (data : Nat → U32) : Awake (bufferAlloc data) where
  resting := fun _ => rfl
  started := by simp [bufferAlloc]
  sampled := by simp [bufferAlloc]
  looping := by simp [bufferAlloc]
  worked := by simp [bufferAlloc]
  stopped := by simp [bufferAlloc]
  pending := by simp [bufferAlloc]

theorem rxCount_pos {r c n : Nat} {cown : Bool} (hc : c < maxRfdNum)
    (h : rxCount r c cown = some n) : 0 < n := by
  simp only [rxCount] at h
  split at h
  · have := Option.some.inj h
    omega
  · split at h
    · have := Option.some.inj h
      omega
    · split at h
      · exact Option.some.inj h ▸ Nat.zero_lt_succ _
      · cases h

theorem rxCount_none {r c : Nat} {cown : Bool} (h : rxCount r c cown = none) :
    r = c ∧ cown = false := by
  simp only [rxCount] at h
  split at h
  · cases h
  · split at h
    · cases h
    · split at h
      · cases h
      · rename_i hcown
        exact ⟨by omega, by simpa using hcown⟩

theorem receive_awake {s : Rx} (h : Awake s) (hd : s.dmaOn = true) (f : Frame) : Awake { s with
    desc := Function.update s.desc s.rxsd
      { s.desc s.rxsd with frame := f, cown := true, packet := s.received }
    received := s.received + 1
    rxsd := (s.rxsd + 1) % maxRfdNum
    rxrc := true } := by
  refine ⟨h.resting, h.started, ?_, h.looping, h.worked, ?_, fun _ _ => .inl rfl⟩
  · intro hp
    refine .inr ?_
    by_cases hc : s.cur = s.rxsd
    · simp [hc]
    · rcases h.sampled hp with hs | hs
      · exact absurd hs.1.symm hc
      · simpa [hc] using hs
  · intro ho
    exact absurd hd (by simp at ho; simp [ho])

/-- Nothing can be missed while the poll has work behind it and `is_qf` before it. -/
theorem Awake.working {t : Rx} (hs : t.sched = true) (hp : t.pc.testing) (hd : 0 < t.workDone)
    (ht : 0 < t.workToDo) : Awake t := by
  refine ⟨by simp [hs], fun _ => ⟨ht, by omega⟩, ?_, fun _ _ _ h0 => by omega,
    fun _ => hd, fun _ _ => ⟨hp, hd⟩, ?_⟩
  · intro hc
    rw [hc] at hp
    exact hp.elim
  · rintro (hw | ⟨_, hw⟩ | hw)
    · exact absurd hs (by simp [hw])
    · omega
    · rw [hw] at hp
      exact hp.elim

theorem Awake.sched {s : Rx} (h : Awake s) (hp : s.pc ≠ .idle) : s.sched = true := by
  cases hs : s.sched with
  | true => rfl
  | false => exact absurd (h.resting hs) hp

/-- A round leaves the poll with something done. -/
theorem visit_awake {s t : Rx} {i n : Nat} {alloc : Option U32} (h : Awake s)
    (hp : s.pc = .loop i n) (ht : visit s i n alloc = some t) : Awake t := by
  have hsched := h.sched (by simp [hp])
  obtain ⟨htodo, hdone⟩ := h.started (by simp [hp])
  have hdone' : 0 < s.workDone + 1 := by omega
  rcases visit_cases ht with ⟨hend, rfl⟩ | ⟨_, _, ⟨_, data, k, st, hd, _, _, _, rfl⟩ |
    ⟨_, rfl⟩ | ⟨_, rfl⟩⟩
  · have hne : s.workDone ≠ 0 := fun h0 => hend ⟨h.looping i n hp h0, by omega⟩
    exact Awake.working hsched trivial (lt_of_le_of_ne hdone hne.symm) htodo
  · exact Awake.working hsched trivial hdone' htodo
  · exact Awake.working hsched trivial hdone' htodo
  · exact Awake.working hsched trivial hdone' htodo

/-- The places where a poll has not looked at the ring yet or has given up on it. -/
theorem Awake.not_stopped {s : Rx} (h : Awake s) (hp : ¬ s.pc.testing ∨ s.workDone = 0) :
    ¬ (s.dmaOn = false ∧ Drained s) := by
  rintro ⟨hd, hr⟩
  obtain ⟨ht, hw⟩ := h.stopped hd hr
  rcases hp with hp | hp
  · exact hp ht
  · omega

/-- A scheduled device before the poll has decided anything. -/
theorem Awake.undecided {t : Rx} (hs : t.sched = true)
    (hp : t.pc = .idle ∨ t.pc = .sample ∨ ∃ r, t.pc = .count r)
    (hw : t.pc ≠ .idle → 0 < t.workToDo ∧ 0 ≤ t.workDone)
    (hc : t.pc = .count t.cur → Drained t ∨ (t.desc t.cur).cown = true)
    (hd : ¬ (t.dmaOn = false ∧ Drained t)) : Awake t := by
  refine ⟨by simp [hs], hw, hc, ?_, ?_, fun ho hr => absurd ⟨ho, hr⟩ hd, ?_⟩
  · intro i n he
    rcases hp with hp | hp | ⟨r, hp⟩ <;> simp [hp] at he
  · intro he
    rcases hp with hp | hp | ⟨r, hp⟩ <;> simp [hp] at he
  · intro he
    rcases hp with hp | hp | ⟨r, hp⟩ <;> simp [hp, hs, Leaving] at he

theorem stepPoll_awake {s t : Rx} {alloc : Option U32} (h : Awake s) (hr : Rounds s)
    (hok : s.pc = .testQf → s.isQf = false → ¬ (s.dmaOn = false ∧ Drained s))
    (ht : stepPoll s alloc = some t) : Awake t := by
  rcases stepPoll_cases ht with ⟨hp, rfl⟩ | ⟨r, n, hp, hn, rfl⟩ | ⟨r, hp, hn, rfl⟩ |
    ⟨i, n, hp, hv⟩ | ⟨hp, hw, rfl⟩ | ⟨hp, hw, rfl⟩ | ⟨hp, hq, rfl⟩ | ⟨hp, hq, rfl⟩ | ⟨hp, rfl⟩ |
    ⟨hp, rfl⟩ | ⟨hp, rfl⟩
  all_goals have hsched := h.sched (by simp [hp])
  all_goals have hrun := h.started (by simp [hp])
  · refine Awake.undecided hsched (.inr (.inr ⟨_, rfl⟩)) (fun _ => hrun) ?_ ?_
    · intro hc
      by_cases hown : (s.desc s.cur).cown = true
      · exact .inr hown
      · exact .inl ⟨Pc.count.inj hc, by simpa using hown⟩
    · exact h.not_stopped (.inl (by simp [hp, Pc.testing]))
  · have hgo := h.not_stopped (.inl (by simp [hp, Pc.testing]))
    refine ⟨by simp [hsched], fun _ => hrun, by simp, ?_, by simp,
      fun hd hdr => absurd ⟨hd, hdr⟩ hgo, by simp [hsched, Leaving]⟩
    intro i' n' he _
    obtain ⟨rfl, rfl⟩ := Pc.loop.inj he
    exact rxCount_pos hr.cur hn
  · obtain ⟨rfl, hown⟩ := rxCount_none hn
    have hdr : Drained s := by
      rcases h.sampled hp with hs | hs
      · exact hs
      · exact absurd hs (by simp [hown])
    have hon : ¬ s.dmaOn = false := fun hd =>
      h.not_stopped (.inl (by simp [hp, Pc.testing])) ⟨hd, hdr⟩
    refine ⟨by simp [hsched], fun _ => hrun, by simp, by simp, by simp,
      fun hd _ => absurd hd hon, ?_⟩
    rintro - (hu | hu)
    · exact absurd hu (by simp [hown])
    · exact absurd hu hon
  · exact visit_awake h hp hv
  · refine ⟨by simp [hsched], fun _ => hrun, by simp, by simp, by simp, ?_, ?_⟩
    · exact fun hd hdr => absurd ⟨hd, hdr⟩ (h.not_stopped (.inr hw))
    · exact fun _ hu => h.pending (.inr (.inl ⟨hp, hw⟩)) hu
  · exact Awake.working hsched trivial (lt_of_le_of_ne hrun.2 (Ne.symm hw)) hrun.1
  · exact Awake.working hsched trivial (h.worked (.inl hp)) hrun.1
  · exact Awake.undecided hsched (.inl rfl) (by simp) (by simp) (hok hp hq)
  · exact Awake.working hsched trivial (h.worked (.inr (.inl hp))) hrun.1
  · exact Awake.undecided hsched (.inl rfl) (by simp) (by simp) (by simp)
  · have hgo := h.not_stopped (.inl (by simp [hp, Pc.testing]))
    refine ⟨by simp, by simp, by simp, by simp, by simp,
      fun hd hdr => absurd ⟨hd, hdr⟩ hgo, ?_⟩
    exact fun _ hu => h.pending (.inr (.inr hp)) hu

/-- Every step allowed by the condition keeps the receive path awake. -/
theorem rxStep_awake {s t : Rx} {a : RxAct} (h : Awake s) (hr : Rounds s) (hn : Napi s a)
    (hok : SafeWake s a) (ht : rxStep s a = some t) : Awake t := by
  rcases rxStep_cases ht with ⟨f, rfl, hd, _, rfl⟩ | ⟨rfl, _, hown, rfl⟩ | ⟨rfl, rfl⟩ |
    ⟨rfl, _, rfl⟩ | ⟨rfl, _, rfl⟩ | ⟨b, q, rfl, hp, rfl⟩ | ⟨alloc, rfl, hp⟩
  · exact receive_awake h hd f
  · refine { h with stopped := ?_, pending := fun _ _ => .inr rfl }
    rintro - ⟨hc, hf⟩
    exact absurd hown (by simp only at hc hf; simp [hc, hf])
  · exact hn.elim
  · refine { h with resting := by simp, pending := ?_ }
    rintro (hs | hl) hu
    · cases hs
    · exact .inr (hok hl hu)
  · refine { h with resting := by simp, pending := ?_ }
    rintro (hs | hl) hu
    · cases hs
    · exact .inl (hok hl hu)
  · obtain ⟨hs, hb, hq⟩ := hn
    refine Awake.undecided hs (.inr (.inl rfl)) (fun _ => ⟨lt_min hb hq, le_refl _⟩) (by simp) ?_
    exact h.not_stopped (.inl (by simp [hp, Pc.testing]))
  · exact stepPoll_awake h hr hok hp

/-- Every step is one of the kernel's and the controller's, and wakes safely. -/
def NapiSafe (s : Rx) (a : RxAct) : Prop := Napi s a ∧ SafeWake s a

instance (s : Rx) (a : RxAct) : Decidable (NapiSafe s a) :=
  inferInstanceAs (Decidable (Napi s a ∧ SafeWake s a))

theorem safe_never_stalls (data : Nat → U32) {s : Rx}
    (hr : Lib.Reach rxStep NapiSafe (bufferAlloc data) s) (hq : Quiescent s) :
    (s.desc s.cur).cown = false ∧ s.dmaOn = true := by
  have h : Awake s ∧ Rounds s := hr.invariant (I := fun s => Awake s ∧ Rounds s)
    ⟨bufferAlloc_awake data, bufferAlloc_rounds data⟩
    fun _ _ _ hi hok ht => ⟨rxStep_awake hi.1 hi.2 hok.1 hok.2 ht, rxStep_rounds hi.2 ht⟩
  by_contra hu
  have hu : Unserved s := by
    cases hown : (s.desc s.cur).cown with
    | true => exact .inl hown
    | false => exact .inr (by simpa [hown] using hu)
  rcases h.1.pending (.inl hq.sched) hu with hp | hp
  · simp [hq.rxrc] at hp
  · simp [hq.rxqf] at hp

/-- A frame is received and handed up by the first poll; the second one finds nothing. -/
def twoPolls : List RxAct :=
  [.receive { length := 64 }, .receiveIsr, .poll 300 64, .work none, .work none,
    .work (some 0xC0800000), .work none, .work none, .work none, .poll 299 63, .work none,
    .work none]

theorem safe_never_stalls_frame :
    ∃ s, Lib.run rxStep NapiSafe (twoPolls ++ [.work none, .work none]) (bufferAlloc evenly) =
        some s ∧ Quiescent s ∧ (s.desc s.cur).cown = false ∧ s.dmaOn = true := by
  refine ⟨_, rfl, ⟨rfl, rfl, rfl⟩, ?_⟩
  exact safe_never_stalls evenly
    (Lib.Reach.start.run (twoPolls ++ [.work none, .work none]) rfl) ⟨rfl, rfl, rfl⟩

/-- The next frame arrives, and its interrupt is served, after the poll has found nothing
and before it calls `netif_rx_complete`. -/
theorem frame_left_behind :
    ∃ s, Lib.run rxStep Napi
        (twoPolls ++ [.receive { length := 64 }, .receiveIsr, .work none, .work none])
        (bufferAlloc evenly) = some s ∧
      Lib.Reach rxStep Napi (bufferAlloc evenly) s ∧ Quiescent s ∧
      (s.desc s.cur).cown = true := by
  refine ⟨_, rfl, ?_, ⟨rfl, rfl, rfl⟩, rfl⟩
  exact Lib.Reach.start.run
    (twoPolls ++ [.receive { length := 64 }, .receiveIsr, .work none, .work none]) rfl

end SnakeOs.Nic
