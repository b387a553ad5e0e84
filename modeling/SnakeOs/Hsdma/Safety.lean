import SnakeOs.Hsdma.Accounting

namespace SnakeOs.Hsdma
open Arch

/-- The work item is pending already, or the worker is not on its way to the lock, the
controller is idle and a job waits. -/
abbrev MaySchedule (s : State) : Prop :=
  s.xferPending = true ∨ s.worker ≠ .xferLock ∧ s.busy = false ∧ s.xferQ ≠ []

/-- A call of `schedule_work` in `hsdma_copy` happens only where it may. -/
def SafeSchedule (s : State) : Act → Prop
  | .copy k => ∀ c ∈ s.copies[k]?, c.pc = .schedule → MaySchedule s
  | _ => True

instance (s : State) : (a : Act) → Decidable (SafeSchedule s a)
  | .copy k => inferInstanceAs (Decidable (∀ c ∈ s.copies[k]?, c.pc = .schedule → MaySchedule s))
  | .call _ | .startXfer | .startDone | .work | .complete _ | .isr => .isTrue trivial

/-- Every step of an `hsdma_copy` call that schedules safely keeps the invariant. -/
theorem stepCopy_inv {s : State} {c : Copy} {rest : List Copy} (h : Inv s)
    (hc : s.copies = c :: rest) (hs : c.pc = .schedule → MaySchedule s) :
    Inv (stepCopy s c rest) := by
  obtain ⟨id, vec, pc⟩ := c
  cases pc with
  | entry =>
    simp only [stepCopy]
    split
    · exact h.goes_on hc rfl rfl (by simp) (by simp [Copy.wakes])
    · exact h.goes_on hc rfl rfl (by simp) (by simp [Copy.wakes])
  | alloc =>
    simp only [stepCopy]
    split
    · exact h.goes_on hc rfl rfl (by simp) (by simp [Copy.wakes])
    · rename_i j q hq
      exact alloc_inv h hc hq
  | reject => exact callback_inv h hc (.inl ⟨rfl, rfl⟩)
  | fill j =>
    simp only [stepCopy]
    split
    · exact fill_inv h hc _ (.inr ⟨rfl, rfl⟩)
    · exact fill_inv h hc _ (.inl rfl)
  | refuse j => exact callback_inv h hc (.inr ⟨j, rfl, rfl⟩)
  | release j => exact release_inv h hc
  | enqueue j => exact enqueue_inv h hc
  | test =>
    simp only [stepCopy]
    split
    · rename_i hb
      exact h.returns hc rfl rfl (.inl hb)
    · exact h.goes_on hc rfl rfl (by simp) (by simp [Copy.wakes])
  | schedule =>
    have hp : Inv { s with xferPending := true } := by
      refine { h with ready := ?_, single := ?_, xfer := ?_ }
      · intro _
        rcases hs rfl with hp | hp
        · exact h.ready (.inl hp)
        · exact hp.2
      · intro _
        rcases hs rfl with hp | hp
        · exact h.single hp
        · exact hp.1
      · exact fun _ => .inr (.inl rfl)
    exact hp.returns hc rfl rfl (.inr rfl)

theorem Inv.running_none {s : State} (h : Inv s) (hb : s.busy = false) : s.running = none := by
  have := h.busy
  rw [hb] at this
  exact Option.not_isSome_iff_eq_none.mp (by simp [← this])

/-- The worker starts the first waiting job on an idle controller. -/
theorem hsdmaProcessXferJob_inv {s : State} (h : Inv s) (hw : s.worker = .xferLock) :
    Inv (hsdmaProcessXferJob s) := by
  obtain ⟨hb, hq⟩ := h.ready (.inr hw)
  obtain ⟨j, q, hjq⟩ := List.exists_cons_of_ne_nil hq
  have hrun := h.running_none hb
  have hpend : s.xferPending = false := by
    cases hp : s.xferPending with
    | false => rfl
    | true => exact absurd hw (h.single hp)
  have hengine := h.engine
  simp only [hb, Bool.false_eq_true, ↓reduceIte] at hengine
  have hsaved : s.worker.saved = none := by rw [hw]; rfl
  simp only [hsdmaProcessXferJob, hjq]
  refine { h with places := ?_, owed := ?_, xferLen := ?_, ready := ?_, single := ?_, busy := ?_,
                  engine := ?_, xfer := ?_, done := ?_, walk := ?_ }
  · refine List.Perm.trans ?_ h.places
    simp only [places, hjq, hrun, hw, Worker.holds, Option.toList, List.perm_iff_count,
      List.count_append, List.count_cons, List.count_nil]
    omega
  · refine List.Perm.trans ?_ h.owed
    simp only [owed, hjq, hrun, hw, Worker.owes, Option.toList, List.map_append, List.map_cons,
      List.map_nil, List.perm_iff_count, List.count_append, List.count_cons, List.count_nil]
    omega
  · simp [h.xferLen, hjq]
  · simp [hpend]
  · simp
  · rfl
  · simp only [↓reduceIte]
    omega
  · exact fun _ => .inl rfl
  · intro hd
    have := h.done hd
    simpa [DoneAwake, hw, Worker.saved] using this
  · simp [Worker.saved]

/-- Between work functions and inside the done walk only the place of the worker
changes for the transmit side. -/
theorem Inv.moved {s t : State} (h : Inv s) (hn : s.worker ≠ .xferLock) (hw : t.worker ≠ .xferLock)
    (hb : t.busy = s.busy) (hp : t.xferPending = s.xferPending) (hq : t.xferQ = s.xferQ)
    (hc : t.copies = s.copies) :
    (t.xferPending = true ∨ t.worker = .xferLock → t.busy = false ∧ t.xferQ ≠ []) ∧
      (t.xferQ ≠ [] → XferAwake t) := by
  refine ⟨fun hg => ?_, fun hx => ?_⟩
  · rcases hg with hg | hg
    · rw [hb, hq]
      exact h.ready (.inl (hp ▸ hg))
    · exact absurd hg hw
  · rcases h.xfer (hq ▸ hx) with hg | hg | hg | hg
    · exact .inl (hb.trans hg)
    · exact .inr (.inl (hp.trans hg))
    · exact absurd hg hn
    · exact .inr (.inr (.inr (hc ▸ hg)))

/-- The walk takes the first job off `hsdma_done_q`, or ends. -/
theorem takeDone_inv {s : State} {pos : Option Job} (h : Inv s) (hh : s.worker.holds = [])
    (ho : s.worker.owes = []) (hn : s.worker ≠ .xferLock)
    (hp : pos = s.doneQ.head? ∨ pos = none ∧ s.donePending = true) : Inv (takeDone s pos) := by
  cases pos with
  | none =>
    have hm := h.moved (t := takeDone s none) hn (by simp [takeDone]) rfl rfl rfl rfl
    refine { h with places := ?_, owed := ?_, ready := hm.1, single := ?_, xfer := hm.2,
                    done := ?_, walk := ?_ }
    · have := h.places
      simp only [places, hh] at this
      exact this
    · have := h.owed
      simp only [owed, ho] at this
      exact this
    · simp [takeDone]
    · intro hd
      rcases hp with hp | hp
      · exact absurd (List.head?_eq_none_iff.mp hp.symm) hd
      · exact .inl hp.2
    · simp [takeDone, Worker.saved]
  | some j =>
    have hj : s.doneQ.head? = some j := by
      rcases hp with hp | hp
      · exact hp.symm
      · cases hp.1
    obtain ⟨q, hq⟩ := List.head?_eq_some_iff.mp hj
    have hnext : nextOf j s.doneQ = q.head? := by simp [hq, nextOf]
    have herase : s.doneQ.erase j = q := by simp [hq]
    have hm := h.moved (t := takeDone s (some j)) hn (by simp [takeDone]) rfl rfl rfl rfl
    simp only [takeDone, hnext, herase] at hm ⊢
    refine { h with places := ?_, owed := ?_, ready := hm.1, single := ?_, xfer := hm.2,
                    done := ?_, walk := ?_ }
    · refine List.Perm.trans ?_ h.places
      simp only [places, hq, hh]
      simp only [Worker.holds, List.perm_iff_count, List.count_append, List.count_cons,
        List.count_nil]
      omega
    · refine List.Perm.trans ?_ h.owed
      simp only [owed, hq, ho]
      simp only [Worker.owes, List.map_append, List.map_cons, List.map_nil, List.perm_iff_count,
        List.count_append, List.count_cons, List.count_nil]
      omega
    · simp
    · exact fun _ => .inr (.inr rfl)
    · intro t ht
      exact .inl (Option.some.inj ht).symm

theorem stepWorker_inv {s t : State} (h : Inv s) (ht : stepWorker s = some t) : Inv t := by
  cases hw : s.worker with
  | idle => simp [stepWorker, hw] at ht
  | xferLock =>
    obtain rfl : _ = t := by simpa [stepWorker, hw] using ht
    exact hsdmaProcessXferJob_inv h hw
  | doneEntry =>
    obtain rfl : _ = t := by simpa [stepWorker, hw] using ht
    exact takeDone_inv h (by simp [hw, Worker.holds]) (by simp [hw, Worker.owes]) (by simp [hw])
      (.inl rfl)
  | doneCall j p =>
    obtain rfl : _ = t := by simpa [stepWorker, hw] using ht
    have hm := h.moved (t := { s with worker := .doneFree j p }) (by simp [hw]) (by simp)
      rfl rfl rfl rfl
    refine { h with places := ?_, owed := ?_, ready := hm.1, single := by simp, xfer := hm.2,
                    done := fun _ => .inr (.inr rfl), walk := ?_ }
    · have := h.places
      simp only [places, hw] at this
      exact this
    · refine List.Perm.trans ?_ h.owed
      simp only [owed, hw, Worker.owes, List.map_append, List.map_cons, List.map_nil,
        List.perm_iff_count, List.count_append, List.count_cons, List.count_nil]
      omega
    · simpa [hw, Worker.saved] using h.walk
  | doneFree j p =>
    obtain rfl : _ = t := by simpa [stepWorker, hw] using ht
    have hm := h.moved (t := { s with worker := .doneNext p }) (by simp [hw]) (by simp)
      rfl rfl rfl rfl
    refine { h with places := ?_, owed := ?_, ready := hm.1, single := by simp, xfer := hm.2,
                    done := fun _ => .inr (.inr rfl), walk := ?_ }
    · refine List.Perm.trans ?_ h.places
      simp only [places, hw, Worker.holds, List.perm_iff_count, List.count_append,
        List.count_cons, List.count_nil]
      omega
    · have := h.owed
      simp only [owed, hw] at this
      exact this
    · simpa [hw, Worker.saved] using h.walk
  | doneNext p =>
    obtain rfl : _ = t := by simpa [stepWorker, hw] using ht
    exact takeDone_inv h (by simp [hw, Worker.holds]) (by simp [hw, Worker.owes]) (by simp [hw])
      (h.walk p (by simp [hw, Worker.saved]))

/-- An interrupt finds the job it is for. -/
theorem hsdmaIsr_inv {s : State} (h : Inv s) (hi : s.irq ≠ 0) : Inv (hsdmaIsr s) := by
  have hb : s.busy = true := by
    cases hb : s.busy with
    | true => rfl
    | false =>
      have := h.engine
      simp only [hb, Bool.false_eq_true, ↓reduceIte] at this
      omega
  obtain ⟨j, hj⟩ := Option.isSome_iff_exists.mp (h.busy.symm.trans hb)
  have hw : s.worker ≠ .xferLock := fun hw => absurd (h.ready (.inr hw)).1 (by simp [hb])
  have hengine := h.engine
  simp only [hb, ↓reduceIte] at hengine
  have hxfer : ∀ status k, (Function.update s.jobs j { s.jobs j with doneStatus := status } k).xfer
      = (s.jobs k).xfer := fun status k => by
    by_cases hk : k = j
    · subst hk; simp
    · rw [Function.update_of_ne hk]
  simp only [hsdmaIsr, hj]
  refine { h with places := ?_, owed := ?_, filled := ?_, ready := ?_, single := fun _ => hw,
                  busy := rfl, engine := ?_, xfer := ?_, done := fun _ => .inl rfl, walk := ?_ }
  · refine List.Perm.trans ?_ h.places
    simp only [places, hj, Option.toList, List.perm_iff_count, List.count_append, List.count_cons,
      List.count_nil]
    omega
  · refine List.Perm.trans ?_ h.owed
    simp only [owed, hxfer, hj, Option.toList, List.map_append, List.map_cons, List.map_nil,
      List.perm_iff_count, List.count_append, List.count_cons, List.count_nil]
    omega
  · exact fun c hc k hk => (hxfer _ k).trans (h.filled c hc k hk)
  · intro hp
    refine ⟨rfl, ?_⟩
    rcases hp with hp | hp
    · simp only [Bool.or_eq_true, bne_iff_ne, h.xferLen] at hp
      rcases hp with hp | hp
      · exact (h.ready (.inl hp)).2
      · exact fun e => hp (List.length_eq_zero_iff.mpr e)
    · exact absurd hp hw
  · simp only [Bool.false_eq_true, ↓reduceIte]
    omega
  · intro hq
    have hlen : s.xferQLen ≠ 0 := by
      rw [h.xferLen]
      exact fun e => hq (List.length_eq_zero_iff.mp e)
    exact .inr (.inl (by simp [hlen]))
  · intro t ht
    rcases h.walk t ht with rfl | ⟨rfl, _⟩
    · cases s.doneQ with
      | nil => exact .inr ⟨rfl, rfl⟩
      | cons b q => exact .inl rfl
    · exact .inr ⟨rfl, rfl⟩

theorem call_inv {s : State} (h : Inv s) (vec : List Vec) :
    Inv { s with copies := ⟨s.submitted, vec, .entry⟩ :: s.copies,
                 submitted := s.submitted + 1 } := by
  refine { h with places := ?_, owed := ?_, filled := ?_, xfer := ?_ }
  · have := h.places
    simpa only [places, List.flatMap_cons, CopyPc.holds, List.nil_append] using this
  · have := h.owed.cons s.submitted
    simp only [List.range_succ]
    refine List.Perm.trans ?_ (this.trans (List.perm_append_singleton _ _).symm)
    simp [owed, Copy.waiting]
  · intro c hc j hj
    rcases List.mem_cons.mp hc with rfl | hc
    · cases hj
    · exact h.filled c hc j hj
  · exact fun hq => (h.xfer hq).keep id id rfl fun c hc hw => ⟨c, List.mem_cons_of_mem _ hc, hw⟩

theorem startXfer_inv {s : State} (h : Inv s) (hw : s.worker = .idle)
    (hp : s.xferPending = true) : Inv { s with xferPending := false, worker := .xferLock } := by
  refine { h with places := ?_, owed := ?_, ready := ?_, single := ?_, xfer := ?_, done := ?_,
                  walk := ?_ }
  · have := h.places
    simp only [places, hw] at this
    exact this
  · have := h.owed
    simp only [owed, hw] at this
    exact this
  · exact fun _ => h.ready (.inl hp)
  · simp
  · exact fun _ => .inr (.inr (.inl rfl))
  · intro hq
    have := h.done hq
    simpa [DoneAwake, hw, Worker.saved] using this
  · simp [Worker.saved]

theorem startDone_inv {s : State} (h : Inv s) (hw : s.worker = .idle) :
    Inv { s with donePending := false, worker := .doneEntry } := by
  have hm := h.moved (t := { s with worker := .doneEntry }) (by simp [hw]) (by simp)
    rfl rfl rfl rfl
  refine { h with places := ?_, owed := ?_, ready := hm.1, single := by simp, xfer := hm.2,
                  done := fun _ => .inr (.inl rfl), walk := ?_ }
  · have := h.places
    simp only [places, hw] at this
    exact this
  · have := h.owed
    simp only [owed, hw] at this
    exact this
  · simp [Worker.saved]

theorem complete_inv {s : State} (h : Inv s) (ho : s.outstanding ≠ 0) (r : Regs) :
    Inv { s with outstanding := s.outstanding - 1, irq := s.irq + 1, regs := r } := by
  refine { h with engine := ?_ }
  have := h.engine
  simp only
  omega

/-- Every step that schedules safely keeps the invariant. -/
theorem step_inv {s t : State} {a : Act} (h : Inv s) (hs : SafeSchedule s a)
    (ht : step s a = some t) : Inv t := by
  simp only [step] at ht
  rw [if_neg (by simp [h.sane])] at ht
  cases a with
  | call vec =>
    simp only at ht
    split at ht
    · obtain rfl := Option.some.inj ht
      exact call_inv h vec
    · cases ht
  | copy k =>
    obtain ⟨c, hc, rfl⟩ := Option.map_eq_some_iff.mp ht
    have hsafe := hs c hc
    obtain ⟨hk, rfl⟩ := List.getElem?_eq_some_iff.mp hc
    have hperm := (List.getElem_cons_eraseIdx_perm hk).symm
    have := stepCopy_inv (h.perm hperm) rfl hsafe
    simp only [stepCopy] at this ⊢
    exact this
  | startXfer =>
    simp only at ht
    split at ht
    · rename_i hg
      obtain rfl := Option.some.inj ht
      exact startXfer_inv h hg.1 hg.2
    · cases ht
  | startDone =>
    simp only at ht
    split at ht
    · rename_i hg
      obtain rfl := Option.some.inj ht
      exact startDone_inv h hg.1
    · cases ht
  | work => exact stepWorker_inv h ht
  | complete err =>
    simp only at ht
    split at ht
    · cases ht
    · rename_i ho
      obtain rfl := Option.some.inj ht
      exact complete_inv h ho _
  | isr =>
    simp only at ht
    split at ht
    · cases ht
    · rename_i hi
      obtain rfl := Option.some.inj ht
      exact hsdmaIsr_inv h hi

/-- The states of runs in which every `schedule_work` of `hsdma_copy` is safe. -/
def SafelyReachable (s : State) : Prop := ∃ pool r, Lib.Reach step SafeSchedule (init pool r) s

theorem SafelyReachable.inv {s : State} (h : SafelyReachable s) : Inv s := by
  obtain ⟨pool, r, h⟩ := h
  exact h.invariant (init_inv pool r) fun _ _ _ hi hs ht => step_inv hi hs ht

/-- The jobs in the hands of executing functions, one entry a holder. -/
def hands (s : State) : List Job := s.copies.flatMap (fun c => c.pc.holds) ++ s.worker.holds

/-- Nothing executes, is pending or outstanding. -/
structure Idle (s : State) : Prop where
  copies : s.copies = []
  worker : s.worker = .idle
  xferPending : s.xferPending = false
  donePending : s.donePending = false
  outstanding : s.outstanding = 0
  irq : s.irq = 0

/-- What the scheduler promises in every state. The worker standing at its lock takes
a job there next, and a raised interrupt is served. -/
structure Sound (s : State) : Prop where
  startsFree : s.worker = .xferLock → s.running = none ∧ s.outstanding = 0
  dequeues : s.worker = .xferLock → s.xferQ ≠ []
  serves : s.irq ≠ 0 → s.running ≠ none
  placed : ∀ j : Job, s.jobQ.count j + s.xferQ.count j + s.running.toList.count j +
    s.doneQ.count j + (hands s).count j = 1
  answered : Idle s → ∀ x < s.submitted, (s.ended.map Prod.fst).count x = 1

theorem Inv.placed {s : State} (h : Inv s) (j : Job) : s.jobQ.count j + s.xferQ.count j +
    s.running.toList.count j + s.doneQ.count j + (hands s).count j = 1 := by
  have := h.places.count_eq j
  rw [List.count_eq_one_of_mem (List.nodup_finRange 32) (List.mem_finRange j)] at this
  simp only [Hsdma.places, List.count_append] at this
  simp only [hands, List.count_append]
  omega

/-- In an idle system every queue is empty, so every submitted transfer is answered. -/
theorem Inv.answered {s : State} (h : Inv s) (hi : Idle s) {x : Nat} (hx : x < s.submitted) :
    (s.ended.map Prod.fst).count x = 1 := by
  have hbusy : s.busy = false := by
    cases hb : s.busy with
    | false => rfl
    | true =>
      have := h.engine
      simp only [hb, hi.outstanding, hi.irq, ↓reduceIte] at this
      cases this
  have hrun := h.running_none hbusy
  have hxfer : s.xferQ = [] := by
    by_contra hq
    have := h.xfer hq
    simp [XferAwake, hbusy, hi.xferPending, hi.worker, hi.copies] at this
  have hdone : s.doneQ = [] := by
    by_contra hq
    have := h.done hq
    simp [DoneAwake, hi.donePending, hi.worker, Worker.saved] at this
  have howed : Hsdma.owed s = [] := by
    simp [Hsdma.owed, hi.copies, hxfer, hrun, hdone, hi.worker, Worker.owes]
  have := h.owed.count_eq x
  rw [howed, List.nil_append] at this
  rw [this]
  exact List.count_eq_one_of_mem List.nodup_range (List.mem_range.mpr hx)

theorem safe_runs_sound {s : State} (hr : SafelyReachable s) : Sound s := by
  have h := hr.inv
  refine ⟨?_, fun hw => (h.ready (.inr hw)).2, ?_, h.placed, fun hi x hx => h.answered hi hx⟩
  · intro hw
    have hb := (h.ready (.inr hw)).1
    have hengine := h.engine
    simp only [hb, Bool.false_eq_true, ↓reduceIte] at hengine
    exact ⟨h.running_none hb, by omega⟩
  · intro hi hrun
    have hengine := h.engine
    simp only [h.busy, hrun, Option.isSome_none, Bool.false_eq_true, ↓reduceIte] at hengine
    omega

/-- A register file as found at start-up. -/
def bareRegs : Regs := ⟨0, 0, 0, 0, 0⟩

/-- One aligned transfer of 1 KiB. -/
def oneVec : List Vec := [⟨0, 0xC0001000, 0xC0002000, 1024⟩]

/-- One transfer, submitted, run and answered. -/
def oneRound : List Act :=
  .call oneVec :: [.copy 0, .copy 0, .copy 0, .copy 0, .copy 0, .copy 0, .startXfer, .work,
    .complete false, .isr, .startDone, .work, .work, .work, .work]

theorem safe_runs_sound_round :
    ∃ s, Lib.run step SafeSchedule oneRound (init 0x1000 bareRegs) = some s ∧
      s.ended = [(0, responseOk)] ∧ SafelyReachable s ∧ Sound s := by
  refine ⟨_, rfl, rfl, ?_, safe_runs_sound ?_⟩
  · exact ⟨_, _, Lib.Reach.start.run oneRound rfl⟩
  · exact ⟨_, _, Lib.Reach.start.run oneRound rfl⟩

/-- A second transfer looks at `hsdma_busy` before the worker takes the lock for the
first one and schedules the work item again while it is on its way. -/
def rescheduled : List Act :=
  .call oneVec :: [.copy 0, .copy 0, .copy 0, .copy 0, .copy 0, .copy 0, .call oneVec, .copy 0,
    .copy 0, .copy 0, .copy 0, .copy 0, .startXfer, .copy 0, .work, .startXfer, .work]

theorem rescheduled_loses_job :
    ∃ s, Lib.run step Lib.anyStep rescheduled (init 0x1000 bareRegs) = some s ∧ Reachable s ∧
      ¬ Sound s := by
  refine ⟨_, rfl, ⟨_, _, Lib.Reach.start.run rescheduled rfl⟩, fun h => ?_⟩
  have := h.placed 0
  revert this
  decide

end SnakeOs.Hsdma
