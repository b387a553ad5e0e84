import SnakeOs.Dma.Accounting

namespace SnakeOs.Dma
open Arch

/-- The interrupt handlers read and write the running slot of one channel. -/
theorem serve_inv {s : State} (h : Inv s) (status : Int) (i : Channel) : Inv (serve s status i) := by
  simp only [serve]
  split
  · exact { h with }
  · rename_i j hj
    have hocc := occupied_clear hj
    have hxfer : ∀ k, (Function.update s.jobs j { s.jobs j with doneStatus := status } k).xfer =
        (s.jobs k).xfer := fun k => by
      by_cases hk : k = j
      · subst hk; simp
      · rw [Function.update_of_ne hk]
    refine { h with places := ?_, owed := ?_, doneLen := ?_, busyLen := ?_, busy := ?_,
                    filled := ?_, xfer := ?_, done := ?_, walk := ?_ }
    · refine List.Perm.trans ?_ h.places
      simp only [Dma.places, List.perm_iff_count, List.count_append, List.count_cons,
        List.count_nil]
      intro a
      have := hocc.count_eq a
      simp only [List.count_cons] at this
      omega
    · refine List.Perm.trans ?_ h.owed
      simp only [Dma.owed, hxfer, List.map_append, List.map_cons, List.map_nil,
        List.perm_iff_count, List.count_append, List.count_cons, List.count_nil]
      intro a
      have := (hocc.map fun k => (s.jobs k).xfer).count_eq a
      simp only [List.map_cons, List.count_cons] at this
      omega
    · simp [h.doneLen]
    · simp only [h.busyLen, hocc.length_eq, List.length_cons]
      rfl
    · simp
    · intro c hc k hk
      exact (hxfer k).trans (h.filled c hc k hk)
    · intro hq _
      have hlen : s.xferQLen ≠ 0 := by
        rw [h.xferLen]
        exact fun e => hq (List.length_eq_zero_iff.mp e)
      exact .inl (by simp [hlen])
    · exact fun _ => .inl rfl
    · intro t ht
      rcases h.walk t ht with rfl | ⟨rfl, _⟩
      · cases s.doneQ with
        | nil => exact .inr ⟨rfl, rfl⟩
        | cons b q => exact .inl rfl
      · exact .inr ⟨rfl, rfl⟩

theorem dmaTcIsr_inv {s : State} (h : Inv s) : Inv (dmaTcIsr s) := by
  simp only [dmaTcIsr]
  split
  · exact h
  · exact { serve_inv h responseOk _ with }

theorem dmaErrIsr_inv {s : State} (h : Inv s) : Inv (dmaErrIsr s) := by
  simp only [dmaErrIsr]
  split
  · exact h
  · exact { serve_inv h responseErr _ with }

theorem call_inv {s : State} (h : Inv s) (vec : List Vec) :
    Inv { s with copies := ⟨s.submitted, vec, .entry⟩ :: s.copies,
                 submitted := s.submitted + 1 } := by
  refine { h with places := ?_, owed := ?_, filled := ?_, xfer := ?_ }
  · have := h.places
    simpa only [Dma.places, List.flatMap_cons, CopyPc.holds, List.nil_append] using this
  · have := h.owed.cons s.submitted
    simp only [List.range_succ]
    refine List.Perm.trans ?_ (this.trans (List.perm_append_singleton _ _).symm)
    simp [Dma.owed, Copy.waiting]
  · intro c hc j hj
    rcases List.mem_cons.mp hc with rfl | hc
    · cases hj
    · exact h.filled c hc j hj
  · exact fun hq hb => (h.xfer hq hb).keep (fun h => h) rfl fun c hc hw =>
      ⟨c, List.mem_cons_of_mem _ hc, hw⟩

/-- The worker picks up `dma_xfer_task`. -/
theorem startXfer_inv {s : State} (h : Inv s) (hw : s.worker = .idle) :
    Inv { s with xferPending := false, worker := .xferEntry } := by
  refine { h with places := ?_, owed := ?_, xfer := ?_, done := ?_, walk := ?_ }
  · have := h.places
    simp only [Dma.places, hw] at this
    exact this
  · have := h.owed
    simp only [Dma.owed, hw] at this
    exact this
  · exact fun _ _ => .inr (.inl rfl)
  · intro hq
    have := h.done hq
    simpa [DoneAwake, hw, Worker.saved] using this
  · simp [Worker.saved]

/-- The worker picks up `dma_done_task`. -/
theorem startDone_inv {s : State} (h : Inv s) (hw : s.worker = .idle) :
    Inv { s with donePending := false, worker := .doneEntry } := by
  refine { h with places := ?_, owed := ?_, xfer := ?_, done := ?_, walk := ?_ }
  · have := h.places
    simp only [Dma.places, hw] at this
    exact this
  · have := h.owed
    simp only [Dma.owed, hw] at this
    exact this
  · intro hq hb
    have := h.xfer hq hb
    simpa [XferAwake, hw] using this
  · exact fun _ => .inr (.inl rfl)
  · simp [Worker.saved]

theorem step_inv {s t : State} {a : Act} (h : Inv s) (ht : step s a = some t) : Inv t := by
  cases a with
  | call vec =>
    simp only [step] at ht
    split at ht
    · obtain rfl := Option.some.inj ht
      exact call_inv h vec
    · cases ht
  | copy k =>
    obtain ⟨c, hc, rfl⟩ := Option.map_eq_some_iff.mp ht
    obtain ⟨hk, rfl⟩ := List.getElem?_eq_some_iff.mp hc
    have hperm := (List.getElem_cons_eraseIdx_perm hk).symm
    have := stepCopy_inv (h.perm hperm) rfl
    simp only [stepCopy] at this ⊢
    exact this
  | startXfer =>
    simp only [step] at ht
    split at ht
    · rename_i hg
      obtain rfl := Option.some.inj ht
      exact startXfer_inv h hg.1
    · cases ht
  | startDone =>
    simp only [step] at ht
    split at ht
    · rename_i hg
      obtain rfl := Option.some.inj ht
      exact startDone_inv h hg.1
    · cases ht
  | work => exact stepWorker_inv h ht
  | tcEvent i =>
    simp only [step] at ht
    split at ht
    · obtain rfl := Option.some.inj ht
      exact { h with }
    · cases ht
  | errEvent i =>
    simp only [step] at ht
    split at ht
    · obtain rfl := Option.some.inj ht
      exact { h with }
    · cases ht
  | tcIsr =>
    obtain rfl := Option.some.inj ht
    exact dmaTcIsr_inv h
  | errIsr =>
    obtain rfl := Option.some.inj ht
    exact dmaErrIsr_inv h

theorem Reachable.inv {s : State} (h : Reachable s) : Inv s := by
  obtain ⟨pool, r, h⟩ := h
  exact h.invariant (init_inv pool r) fun _ _ _ hi _ ht => step_inv hi ht

/-- The jobs in the hands of executing functions, one entry a holder. -/
def hands (s : State) : List Job := s.copies.flatMap (fun c => c.pc.holds) ++ s.worker.holds

/-- What the scheduler promises in every state. -/
structure Sound (s : State) : Prop where
  placed : ∀ j : Job, s.jobQ.count j + s.xferQ.count j + (occupied s.running).count j +
    s.doneQ.count j + (hands s).count j = 1
  xferLen : s.xferQLen = s.xferQ.length
  doneLen : s.doneQLen = s.doneQ.length
  busyLen : s.busyQLen = (occupied s.running).length
  busy : s.busy = true → ∀ i, (s.running i).isSome
  endedOnce : ∀ x, (s.ended.map Prod.fst).count x ≤ 1
  xferAwake : s.xferQ ≠ [] → (∃ i, s.running i = none) → XferAwake s
  doneAwake : s.doneQ ≠ [] → DoneAwake s

theorem busyQLen_full {s : State} (h : Inv s) :
    s.busyQLen = dmaBusyMaxQLen ↔ ∀ i, (s.running i).isSome := by
  rw [h.busyLen, occupied, List.length_filterMap_eq_countP]
  have := List.countP_eq_length (p := fun i => (s.running i).isSome) (l := List.finRange 7)
  simpa [dmaBusyMaxQLen] using this

theorem scheduler_sound {s : State} (hr : Reachable s) : Sound s := by
  have h := hr.inv
  refine ⟨?_, h.xferLen, h.doneLen, h.busyLen, ?_, ?_, ?_, h.done⟩
  · intro j
    have := h.places.count_eq j
    rw [List.count_eq_one_of_mem (List.nodup_finRange 32) (List.mem_finRange j)] at this
    simp only [places, List.count_append] at this
    simp only [hands, List.count_append]
    omega
  · exact fun hb => (busyQLen_full h).mp (h.busy hb)
  · intro x
    have hn := List.nodup_range (n := s.submitted)
    have := List.nodup_iff_count_le_one.mp (h.owed.nodup_iff.mpr hn) x
    rw [List.count_append] at this
    omega
  · rintro hq ⟨i, hi⟩
    refine h.xfer hq ?_
    have hle := occupied_le s.running
    rw [← h.busyLen] at hle
    refine lt_of_le_of_ne hle fun hfull => ?_
    have := (busyQLen_full h).mp hfull i
    rw [hi] at this
    cases this

/-- One transfer of 4 bytes submitted and started on channel 0. -/
def oneStarted : List Act :=
  .call [⟨0xC0001000, 0xC0002000, 4, 0, 1, 0, 0, 2, 2⟩] ::
    [.copy 0, .copy 0, .copy 0, .copy 0, .copy 0, .copy 0, .startXfer, .work, .work]

theorem scheduler_sound_started :
    ∃ s, Lib.run step Lib.anyStep oneStarted (init 0x1000 fun _ => ⟨0, 0, 0, 0, 0⟩) = some s ∧
      s.running 0 = some 0 ∧ Reachable s ∧ Sound s := by
  refine ⟨_, rfl, rfl, ?_, scheduler_sound ?_⟩
  · exact ⟨_, _, Lib.Reach.start.run oneStarted rfl⟩
  · exact ⟨_, _, Lib.Reach.start.run oneStarted rfl⟩

end SnakeOs.Dma
