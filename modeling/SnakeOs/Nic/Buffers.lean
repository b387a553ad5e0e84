import SnakeOs.Nic.Receive
import Mathlib.Data.List.Basic
import Mathlib.Order.Lattice

namespace SnakeOs.Nic
open Arch

/-- The skbs that are no longer the driver's. -/
def gone (s : Rx) : List Nat := s.handed.map Handed.skb ++ s.freed.map Prod.snd

/-- The slots of the ring and what the descriptors point at. -/
structure Slots (s : Rx) : Prop where
  filled : ∀ i < maxRfdNum, ∃ k, s.skb i = some k ∧ (s.desc i).dataPtr = virtToPhys k.data
  known : ∀ i < maxRfdNum, ∀ k, s.skb i = some k → k.id < s.fresh
  distinct : ∀ i < maxRfdNum, ∀ j < maxRfdNum, ∀ a b, s.skb i = some a → s.skb j = some b →
    a.id = b.id → i = j
  old : ∀ x ∈ gone s, x < s.fresh
  away : ∀ x ∈ gone s, ∀ i < maxRfdNum, ∀ k, s.skb i = some k → k.id ≠ x

/-- The progress of a call of `star_nic_receive_packet`. -/
structure Rounds (s : Rx) : Prop where
  cur : s.cur < maxRfdNum
  rxsd : s.rxsd < maxRfdNum
  entry : s.pc = .sample → s.visited = 0
  sampled : ∀ r, s.pc = .count r → r < maxRfdNum ∧ s.visited = 0
  loop : ∀ i n, s.pc = .loop i n → i = s.visited ∧ n ≤ maxRfdNum
  done : (s.visited : Int) = s.workDone
  budget : s.visited ≤ (min s.workToDo maxRfdNum).toNat

theorem bufferAlloc_slots (data : Nat → U32) : Slots (bufferAlloc data) where
  filled := fun i hi => ⟨⟨i, data i⟩, by simp [bufferAlloc, hi], rfl⟩
  known := by
    intro i hi k hk
    simp only [bufferAlloc, hi, ↓reduceIte, Option.some.injEq] at hk
    exact hk ▸ hi
  distinct := by
    intro i hi j hj a b ha hb hab
    simp only [bufferAlloc, hi, hj, ↓reduceIte, Option.some.injEq] at ha hb
    subst ha hb
    exact hab
  old := by simp [gone, bufferAlloc]
  away := by simp [gone, bufferAlloc]

theorem bufferAlloc_rounds (data : Nat → U32) : Rounds (bufferAlloc data) where
  cur := Nat.zero_lt_succ _
  rxsd := Nat.zero_lt_succ _
  entry := fun _ => rfl
  sampled := by simp [bufferAlloc]
  loop := by simp [bufferAlloc]
  done := rfl
  budget := Nat.zero_le _

/-- Handing up the skb of a slot and refilling it. -/
theorem Slots.refill {s : Rx} {c : Nat} {k : Skb} {hd : Handed} (h : Slots s) (hc : c < maxRfdNum)
    (hk : s.skb c = some k) (hs : hd.skb = k.id) (data : U32) (st : RxStats) :
    Slots (refill { s with stats := st, handed := s.handed ++ [hd] } c data) := by
  have hgone : ∀ x ∈ gone (Nic.refill { s with stats := st, handed := s.handed ++ [hd] } c data),
      x ∈ gone s ∨ x = k.id := by
    intro x hx
    simp only [gone, Nic.refill, List.map_append, List.map_cons, List.map_nil, List.mem_append,
      List.mem_singleton, hs] at hx ⊢
    rcases hx with (hx | hx) | hx
    · exact .inl (.inl hx)
    · exact .inr hx
    · exact .inl (.inr hx)
  have hslot : ∀ i a, (Nic.refill { s with stats := st, handed := s.handed ++ [hd] } c data).skb i =
      some a → i = c ∧ a.id = s.fresh ∨ i ≠ c ∧ s.skb i = some a := by
    intro i a ha
    by_cases hi : i = c
    · subst hi
      simp only [Nic.refill, Function.update_self, Option.some.injEq] at ha
      exact .inl ⟨rfl, ha ▸ rfl⟩
    · simp only [Nic.refill, Function.update_of_ne hi] at ha
      exact .inr ⟨hi, ha⟩
  have hkf := h.known c hc k hk
  refine ⟨?_, ?_, ?_, ?_, ?_⟩
  · intro i hi
    by_cases hic : i = c
    · subst hic
      exact ⟨⟨s.fresh, data⟩, by simp [Nic.refill], by simp [Nic.refill]⟩
    · obtain ⟨a, ha, hp⟩ := h.filled i hi
      exact ⟨a, by simp [Nic.refill, hic, ha], by simp [Nic.refill, hic, hp]⟩
  · intro i hi a ha
    rcases hslot i a ha with ⟨_, hid⟩ | ⟨_, ha⟩
    · exact hid ▸ Nat.lt_succ_self _
    · exact Nat.lt_succ_of_lt (h.known i hi a ha)
  · intro i hi j hj a b ha hb hab
    rcases hslot i a ha with ⟨hic, hid⟩ | ⟨_, ha⟩
    · rcases hslot j b hb with ⟨hjc, _⟩ | ⟨_, hb⟩
      · rw [hic, hjc]
      · have := h.known j hj b hb
        omega
    · rcases hslot j b hb with ⟨_, hid⟩ | ⟨_, hb⟩
      · have := h.known i hi a ha
        omega
      · exact h.distinct i hi j hj a b ha hb hab
  · intro x hx
    rcases hgone x hx with hx | rfl
    · exact Nat.lt_succ_of_lt (h.old x hx)
    · exact Nat.lt_succ_of_lt hkf
  · intro x hx i hi a ha
    rcases hslot i a ha with ⟨_, hid⟩ | ⟨hic, ha⟩
    · rcases hgone x hx with hx | rfl
      · have := h.old x hx
        omega
      · omega
    · rcases hgone x hx with hx | rfl
      · exact h.away x hx i hi a ha
      · exact fun e => hic (h.distinct i hi c hc a k ha hk e)

theorem cyclic_eq {c : Nat} (h : c < maxRfdNum) :
    (if c = maxRfdNum - 1 then 0 else c + 1) = (c + 1) % maxRfdNum := by
  by_cases hc : c = maxRfdNum - 1
  · rw [if_pos hc, show c + 1 = maxRfdNum by omega, Nat.mod_self]
  · rw [if_neg hc, Nat.mod_eq_of_lt (by omega)]

theorem cyclic_lt {c : Nat} (h : c < maxRfdNum) :
    (if c = maxRfdNum - 1 then 0 else c + 1) < maxRfdNum := by
  rw [cyclic_eq h]
  exact Nat.mod_lt _ (by decide)

theorem rxCount_le {r c n : Nat} {cown : Bool} (hr : r < maxRfdNum)
    (h : rxCount r c cown = some n) : n ≤ maxRfdNum := by
  simp only [rxCount] at h
  split at h
  · have := Option.some.inj h
    omega
  · split at h
    · have := Option.some.inj h
      omega
    · split at h
      · exact (Option.some.inj h).symm.le
      · cases h

/-- A step that only changes `pc` to a place outside the loop. -/
theorem Rounds.leave {s t : Rx} (h : Rounds s) (hc : t.cur = s.cur) (hr : t.rxsd < maxRfdNum)
    (hv : t.visited = s.visited) (hd : t.workDone = s.workDone) (hb : t.workToDo = s.workToDo)
    (he : t.pc ≠ .sample) (hs : ∀ r, t.pc ≠ .count r) (hl : ∀ i n, t.pc ≠ .loop i n) :
    Rounds t where
  cur := hc ▸ h.cur
  rxsd := hr
  entry := fun e => absurd e he
  sampled := fun r e => absurd e (hs r)
  loop := fun i n e => absurd e (hl i n)
  done := by rw [hv, hd, h.done]
  budget := by rw [hv, hb]; exact h.budget

/-- A round that is allowed by the budget and the descriptor count. -/
theorem Rounds.visited {s : Rx} {i n : Nat} (h : Rounds s) (hp : s.pc = .loop i n) (hi : i < n)
    (hw : s.workDone < s.workToDo) : i + 1 = s.visited + 1 ∧ n ≤ maxRfdNum ∧
      ((s.visited + 1 : Nat) : Int) = s.workDone + 1 ∧
      s.visited + 1 ≤ (min s.workToDo maxRfdNum).toNat := by
  obtain ⟨rfl, hn⟩ := h.loop i n hp
  have hd := h.done
  refine ⟨rfl, hn, by omega, ?_⟩
  have : ((s.visited + 1 : Nat) : Int) ≤ min s.workToDo maxRfdNum := le_min (by omega) (by omega)
  omega

theorem visit_slots {s t : Rx} {i n : Nat} {alloc : Option U32} (h : Slots s) (hr : Rounds s)
    (ht : visit s i n alloc = some t) : Slots t := by
  rcases visit_cases ht with ⟨_, rfl⟩ | ⟨_, _, ⟨_, data, k, st, hd, hk, _, hs, rfl⟩ |
    ⟨_, rfl⟩ | ⟨_, rfl⟩⟩
  · exact { h with }
  · exact { h.refill hr.cur hk hs data st with }
  · refine { h with filled := ?_ }
    intro j hj
    obtain ⟨a, ha, hp⟩ := h.filled j hj
    refine ⟨a, ha, ?_⟩
    by_cases hjc : j = s.cur
    · subst hjc
      simpa using hp
    · simpa [hjc] using hp
  · exact { h with }

theorem visit_rounds {s t : Rx} {i n : Nat} {alloc : Option U32} (h : Rounds s)
    (hp : s.pc = .loop i n) (ht : visit s i n alloc = some t) : Rounds t := by
  rcases visit_cases ht with ⟨_, rfl⟩ | ⟨hi, hw, ⟨_, data, k, st, hd, hk, _, hs, rfl⟩ |
    ⟨_, rfl⟩ | ⟨_, rfl⟩⟩
  · exact h.leave rfl h.rxsd rfl rfl rfl (by simp) (by simp) (by simp)
  · obtain ⟨hv, hn, hd, hb⟩ := h.visited hp hi hw
    refine ⟨cyclic_lt h.cur, h.rxsd, by simp [advance], by simp [advance], ?_, hd, hb⟩
    intro i' n' he
    obtain ⟨rfl, rfl⟩ := Pc.loop.inj he
    exact ⟨hv, hn⟩
  · obtain ⟨hv, hn, hd, hb⟩ := h.visited hp hi hw
    exact ⟨h.cur, h.rxsd, by simp, by simp, by simp, hd, hb⟩
  · obtain ⟨hv, hn, hd, hb⟩ := h.visited hp hi hw
    refine ⟨cyclic_lt h.cur, h.rxsd, by simp [advance], by simp [advance], ?_, hd, hb⟩
    intro i' n' he
    obtain ⟨rfl, rfl⟩ := Pc.loop.inj he
    exact ⟨hv, hn⟩

theorem stepPoll_slots {s t : Rx} {alloc : Option U32} (h : Slots s) (hr : Rounds s)
    (ht : stepPoll s alloc = some t) : Slots t := by
  rcases stepPoll_cases ht with ⟨_, rfl⟩ | ⟨r, n, _, _, rfl⟩ | ⟨r, _, _, rfl⟩ | ⟨i, n, _, hv⟩ |
    ⟨_, _, rfl⟩ | ⟨_, _, rfl⟩ | ⟨_, _, rfl⟩ | ⟨_, _, rfl⟩ | ⟨_, rfl⟩ | ⟨_, rfl⟩ | ⟨_, rfl⟩
  case inr.inr.inr.inl => exact visit_slots h hr hv
  all_goals exact { h with }

theorem stepPoll_rounds {s t : Rx} {alloc : Option U32} (h : Rounds s)
    (ht : stepPoll s alloc = some t) : Rounds t := by
  rcases stepPoll_cases ht with ⟨hp, rfl⟩ | ⟨r, n, hp, hn, rfl⟩ | ⟨r, _, _, rfl⟩ |
    ⟨i, n, hp, hv⟩ | ⟨_, _, rfl⟩ | ⟨_, _, rfl⟩ | ⟨_, _, rfl⟩ | ⟨_, _, rfl⟩ | ⟨_, rfl⟩ | ⟨_, rfl⟩ |
    ⟨_, rfl⟩
  case inl =>
    refine { h with entry := by simp, sampled := ?_, loop := by simp }
    intro r hr
    obtain rfl := Pc.count.inj hr
    exact ⟨h.rxsd, h.entry hp⟩
  case inr.inl =>
    obtain ⟨hr, hv⟩ := h.sampled r hp
    refine { h with entry := by simp, sampled := by simp, loop := ?_ }
    intro i' n' he
    obtain ⟨rfl, rfl⟩ := Pc.loop.inj he
    exact ⟨hv.symm, rxCount_le hr hn⟩
  case inr.inr.inr.inl => exact visit_rounds h hp hv
  all_goals exact h.leave rfl h.rxsd rfl rfl rfl (by simp) (by simp) (by simp)

/-- A received frame is written through the descriptor the hardware stands at. -/
theorem receive_slots {s : Rx} (h : Slots s) (f : Frame) : Slots { s with
    desc := Function.update s.desc s.rxsd
      { s.desc s.rxsd with frame := f, cown := true, packet := s.received } } := by
  refine { h with filled := ?_ }
  intro i hi
  obtain ⟨k, hk, hp⟩ := h.filled i hi
  refine ⟨k, hk, ?_⟩
  by_cases hir : i = s.rxsd
  · subst hir
    simpa using hp
  · simpa [hir] using hp

theorem rxStep_slots {s t : Rx} {a : RxAct} (h : Slots s) (hr : Rounds s)
    (ht : rxStep s a = some t) : Slots t := by
  rcases rxStep_cases ht with ⟨f, _, _, _, rfl⟩ | ⟨_, _, _, rfl⟩ | ⟨_, rfl⟩ | ⟨_, _, rfl⟩ |
    ⟨_, _, rfl⟩ | ⟨_, _, _, _, rfl⟩ | ⟨alloc, _, hp⟩
  · exact { receive_slots h f with }
  · exact { h with }
  · exact { h with }
  · exact { h with }
  · exact { h with }
  · exact { h with }
  · exact stepPoll_slots h hr hp

theorem rxStep_rounds {s t : Rx} {a : RxAct} (h : Rounds s) (ht : rxStep s a = some t) :
    Rounds t := by
  rcases rxStep_cases ht with ⟨f, _, _, _, rfl⟩ | ⟨_, _, _, rfl⟩ | ⟨_, rfl⟩ | ⟨_, _, rfl⟩ |
    ⟨_, _, rfl⟩ | ⟨_, _, _, _, rfl⟩ | ⟨alloc, _, hp⟩
  · exact { h with rxsd := Nat.mod_lt _ (Nat.zero_lt_succ _) }
  · exact { h with }
  · exact { h with }
  · exact { h with }
  · exact { h with }
  · exact ⟨h.cur, h.rxsd, fun _ => rfl, by simp, by simp, rfl, Nat.zero_le _⟩
  · exact stepPoll_rounds h hp

theorem RxReachable.slots_rounds {s : Rx} (h : RxReachable s) : Slots s ∧ Rounds s := by
  obtain ⟨data, h⟩ := h
  exact h.invariant (I := fun s => Slots s ∧ Rounds s)
    ⟨bufferAlloc_slots data, bufferAlloc_rounds data⟩
    fun _ _ _ hi _ ht => ⟨rxStep_slots hi.1 hi.2 ht, rxStep_rounds hi.2 ht⟩

/-- Every slot holds an skb of its own which the descriptor points at and nobody else
has; a call looks at no more descriptors than its budget and the ring allow
(`work_done` is 0 when it is entered). -/
structure RingOwned (s : Rx) : Prop where
  filled : ∀ i < maxRfdNum, ∃ k, s.skb i = some k ∧ (s.desc i).dataPtr = virtToPhys k.data
  distinct : ∀ i < maxRfdNum, ∀ j < maxRfdNum, i ≠ j → ∀ a b, s.skb i = some a →
    s.skb j = some b → a.id ≠ b.id
  cur : s.cur < maxRfdNum
  away : ∀ x, x ∈ s.handed.map Handed.skb ∨ x ∈ s.freed.map Prod.snd →
    ∀ i < maxRfdNum, ∀ k, s.skb i = some k → k.id ≠ x
  visits : s.visited ≤ (min s.workToDo maxRfdNum).toNat

theorem receive_ring_owned {s : Rx} (h : RxReachable s) : RingOwned s := by
  obtain ⟨hs, hr⟩ := h.slots_rounds
  refine ⟨hs.filled, ?_, hr.cur, ?_, hr.budget⟩
  · intro i hi j hj hne a b ha hb hab
    exact hne (hs.distinct i hi j hj a b ha hb hab)
  · exact fun x hx => hs.away x (List.mem_append.mpr hx)

/-- Buffers of 2 KiB side by side. -/
def evenly (i : Nat) : U32 := BitVec.ofNat 32 (i * 2048)

/-- One frame received, polled and handed up. -/
def oneFrame : List RxAct :=
  [.receive { length := 64 }, .receiveIsr, .poll 300 64, .work none, .work none,
    .work (some 0xC0800000), .work none]

theorem receive_ring_owned_one :
    ∃ s, Lib.run rxStep Lib.anyStep oneFrame (bufferAlloc evenly) = some s ∧
      s.handed.map Handed.skb = [0] ∧ RxReachable s ∧ RingOwned s := by
  refine ⟨_, rfl, rfl, ?_, receive_ring_owned ?_⟩
  · exact ⟨evenly, Lib.Reach.start.run oneFrame rfl⟩
  · exact ⟨evenly, Lib.Reach.start.run oneFrame rfl⟩

end SnakeOs.Nic
