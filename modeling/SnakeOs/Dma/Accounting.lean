import SnakeOs.Dma.Scheduler
import SnakeOs.Lib.Slots
import Mathlib.Data.List.FinRange
import Mathlib.Data.List.Count

namespace SnakeOs.Dma
open Arch

/-- The job a `dma_copy` call has in its hands. -/
def CopyPc.holds : CopyPc → List Job
  | .fill j | .enqueue j => [j]
  | _ => []

/-- The job the worker has in its hands. -/
def Worker.holds : Worker → List Job
  | .doneCall j _ | .doneFree j _ => [j]
  | _ => []

/-- The entry the done walk goes on with, while it runs. -/
def Worker.saved : Worker → Option (Option Job)
  | .doneCall _ t | .doneFree _ t | .doneNext t => some t
  | _ => none

def occupied (f : Channel → Option Job) : List Job := (List.finRange 7).filterMap f

/-- Every place a job can be in, with its content. -/
def places (s : State) : List Job :=
  s.jobQ ++ (s.xferQ ++ (occupied s.running ++ (s.doneQ ++
    (s.copies.flatMap (fun c => c.pc.holds) ++ s.worker.holds))))

/-- The call is still responsible for its transfer. -/
def Copy.waiting (c : Copy) : List Nat :=
  match c.pc with
  | .test | .schedule => []
  | _ => [c.id]

/-- The job whose `dma_end_io` the worker is about to call. -/
def Worker.owes : Worker → List Job
  | .doneCall j _ => [j]
  | _ => []

/-- The transfers whose `dma_end_io` is still to come. -/
def owed (s : State) : List Nat :=
  s.copies.flatMap Copy.waiting ++
    (s.xferQ ++ (occupied s.running ++ (s.doneQ ++ s.worker.owes))).map fun j => (s.jobs j).xfer

def Copy.wakes (c : Copy) : Prop := c.pc = .test ∨ c.pc = .schedule

/-- The work item of `dma_xfer_q` is pending, executing or about to be scheduled. -/
def XferAwake (s : State) : Prop :=
  s.xferPending = true ∨ s.worker = .xferEntry ∨ s.worker = .xferLock ∨ ∃ c ∈ s.copies, c.wakes

/-- The work item of `dma_done_q` is pending or executing. -/
def DoneAwake (s : State) : Prop :=
  s.donePending = true ∨ s.worker = .doneEntry ∨ s.worker.saved.isSome

structure Inv (s : State) : Prop where
  places : (places s).Perm (List.finRange 32)
  owed : (owed s ++ s.ended.map Prod.fst).Perm (List.range s.submitted)
  xferLen : s.xferQLen = s.xferQ.length
  doneLen : s.doneQLen = s.doneQ.length
  busyLen : s.busyQLen = (occupied s.running).length
  busy : s.busy = true → s.busyQLen = dmaBusyMaxQLen
  filled : ∀ c ∈ s.copies, ∀ j, c.pc = .enqueue j → (s.jobs j).xfer = c.id
  xfer : s.xferQ ≠ [] → s.busyQLen < dmaBusyMaxQLen → XferAwake s
  done : s.doneQ ≠ [] → DoneAwake s
  walk : ∀ t, s.worker.saved = some t → t = s.doneQ.head? ∨ t = none ∧ s.donePending = true

theorem occupied_fill {f : Channel → Option Job} {i : Channel} (h : f i = none) (j : Job) :
    (occupied (Function.update f i (some j))).Perm (j :: occupied f) :=
  Lib.filterMap_fill (List.nodup_finRange 7) (List.mem_finRange i) h j

theorem occupied_clear {f : Channel → Option Job} {i : Channel} {j : Job} (h : f i = some j) :
    (occupied f).Perm (j :: occupied (Function.update f i none)) :=
  Lib.filterMap_clear (List.nodup_finRange 7) (List.mem_finRange i) h

theorem occupied_le (f : Channel → Option Job) : (occupied f).length ≤ dmaBusyMaxQLen := by
  have := List.length_filterMap_le f (List.finRange 7)
  simpa [occupied, dmaBusyMaxQLen] using this

theorem occupied_full {s : State} (h : freeChannel s = none) :
    (occupied s.running).length = dmaBusyMaxQLen := by
  have := Lib.length_filterMap_full h
  simpa [occupied, dmaBusyMaxQLen] using this

theorem init_inv (pool : U32) (r : Channel → Regs) : Inv (init pool r) where
  places := by simp [Dma.places, init, occupied, Worker.holds]
  owed := by simp [Dma.owed, init, occupied, Worker.owes]
  xferLen := rfl
  doneLen := rfl
  busyLen := by simp [init, occupied]
  busy := by simp [init]
  filled := by simp [init]
  xfer := by simp [init]
  done := by simp [init]
  walk := by simp [init, Worker.saved]

theorem XferAwake.keep {s t : State} (h : XferAwake s)
    (hp : s.xferPending = true → t.xferPending = true) (hw : t.worker = s.worker)
    (hc : ∀ c ∈ s.copies, c.wakes → ∃ d ∈ t.copies, d.wakes) : XferAwake t := by
  rcases h with h | h | h | ⟨c, hm, h⟩
  · exact .inl (hp h)
  · exact .inr (.inl (hw.trans h))
  · exact .inr (.inr (.inl (hw.trans h)))
  · exact .inr (.inr (.inr (hc c hm h)))

/-- The order in which the executing calls are listed does not matter. -/
theorem Inv.perm {s : State} (h : Inv s) {l : List Copy} (hl : s.copies.Perm l) :
    Inv { s with copies := l } := by
  refine { h with places := ?_, owed := ?_, filled := ?_, xfer := ?_ }
  · refine List.Perm.trans ?_ h.places
    have := hl.flatMap_right (fun c => c.pc.holds)
    simp only [Dma.places]
    gcongr
  · refine List.Perm.trans ?_ h.owed
    have := hl.flatMap_right Copy.waiting
    simp only [Dma.owed]
    gcongr
  · exact fun c hc => h.filled c (hl.mem_iff.mpr hc)
  · exact fun hq hb => (h.xfer hq hb).keep id rfl fun c hc hw => ⟨c, hl.mem_iff.mp hc, hw⟩

section
variable {s : State} {id : Nat} {vec : List Vec} {rest : List Copy}

/-- A call goes on without touching anything but its own place. -/
theorem Inv.goes_on {pc pc' : CopyPc} (h : Inv s) (hc : s.copies = ⟨id, vec, pc⟩ :: rest)
    (hh : pc'.holds = pc.holds)
    (hw : Copy.waiting ⟨id, vec, pc'⟩ = Copy.waiting ⟨id, vec, pc⟩)
    (hf : ∀ j, pc' ≠ .enqueue j) (hk : Copy.wakes ⟨id, vec, pc⟩ → Copy.wakes ⟨id, vec, pc'⟩) :
    Inv { s with copies := ⟨id, vec, pc'⟩ :: rest } := by
  refine { h with places := ?_, owed := ?_, filled := ?_, xfer := ?_ }
  · have := h.places
    simpa only [Dma.places, hc, List.flatMap_cons, hh] using this
  · have := h.owed
    simpa only [Dma.owed, hc, List.flatMap_cons, hw] using this
  · intro d hd j hj
    rcases List.mem_cons.mp hd with rfl | hd
    · exact absurd hj (hf j)
    · exact h.filled d (hc ▸ List.mem_cons_of_mem _ hd) j hj
  · refine fun hq hb => (h.xfer hq hb).keep (fun h => h) rfl fun d hd hw => ?_
    rcases List.mem_cons.mp (hc ▸ hd) with rfl | hd
    · exact ⟨_, List.mem_cons_self, hk hw⟩
    · exact ⟨d, List.mem_cons_of_mem _ hd, hw⟩

/-- A call returns that has nothing left to answer for. -/
theorem Inv.returns {pc : CopyPc} (h : Inv s) (hc : s.copies = ⟨id, vec, pc⟩ :: rest)
    (hh : pc.holds = []) (hw : Copy.waiting ⟨id, vec, pc⟩ = [])
    (hx : s.xferQ ≠ [] → s.busyQLen < dmaBusyMaxQLen → s.xferPending = true) :
    Inv { s with copies := rest } := by
  refine { h with places := ?_, owed := ?_, filled := ?_, xfer := ?_ }
  · have := h.places
    simpa only [Dma.places, hc, List.flatMap_cons, hh, List.nil_append] using this
  · have := h.owed
    simpa only [Dma.owed, hc, List.flatMap_cons, hw, List.nil_append] using this
  · exact fun d hd => h.filled d (hc ▸ List.mem_cons_of_mem _ hd)
  · exact fun hq hb => .inl (hx hq hb)

/-- What the calls other than the first do to the wake-up condition. -/
theorem Inv.others {pc : CopyPc} {t : State} (h : Inv s) (hc : s.copies = ⟨id, vec, pc⟩ :: rest)
    (hn : ¬ Copy.wakes ⟨id, vec, pc⟩) (hp : t.xferPending = s.xferPending)
    (hw : t.worker = s.worker) (hr : ∀ d ∈ rest, d ∈ t.copies) (hq : s.xferQ ≠ [])
    (hb : s.busyQLen < dmaBusyMaxQLen) : XferAwake t := by
  refine (h.xfer hq hb).keep (fun h => hp.trans h) hw fun d hd hk => ?_
  rcases List.mem_cons.mp (hc ▸ hd) with rfl | hd
  · exact absurd hk hn
  · exact ⟨d, hr d hd, hk⟩

theorem alloc_inv {j : Job} {q : List Job} (h : Inv s)
    (hc : s.copies = ⟨id, vec, .alloc⟩ :: rest) (hq : s.jobQ = j :: q) :
    Inv { s with jobQ := q, copies := ⟨id, vec, .fill j⟩ :: rest } := by
  refine { h with places := ?_, owed := ?_, filled := ?_, xfer := ?_ }
  · refine List.Perm.trans ?_ h.places
    simp only [Dma.places, hc, hq, List.flatMap_cons, CopyPc.holds, List.perm_iff_count,
      List.count_append, List.count_cons, List.count_nil]
    omega
  · have := h.owed
    simpa only [Dma.owed, hc, List.flatMap_cons, Copy.waiting] using this
  · intro d hd k hk
    rcases List.mem_cons.mp hd with rfl | hd
    · cases hk
    · exact h.filled d (hc ▸ List.mem_cons_of_mem _ hd) k hk
  · exact h.others hc (by simp [Copy.wakes]) rfl rfl fun d => List.mem_cons_of_mem _

theorem reject_inv (h : Inv s) (hc : s.copies = ⟨id, vec, .reject⟩ :: rest) :
    Inv { s with ended := s.ended ++ [(id, responseErr)], copies := rest } := by
  refine { h with places := ?_, owed := ?_, filled := ?_, xfer := ?_ }
  · have := h.places
    simpa only [Dma.places, hc, List.flatMap_cons, CopyPc.holds, List.nil_append] using this
  · refine List.Perm.trans ?_ h.owed
    simp only [Dma.owed, hc, List.flatMap_cons, Copy.waiting, List.map_append, List.map_cons,
      List.map_nil, List.perm_iff_count, List.count_append, List.count_cons, List.count_nil]
    omega
  · exact fun d hd => h.filled d (hc ▸ List.mem_cons_of_mem _ hd)
  · exact h.others hc (by simp [Copy.wakes]) rfl rfl fun d hd => hd

/-- A job in the hands of a call is nowhere else. -/
theorem Inv.held_once {pc : CopyPc} {j : Job} (h : Inv s)
    (hc : s.copies = ⟨id, vec, pc⟩ :: rest) (hj : pc.holds = [j]) :
    j ∉ s.xferQ ++ (occupied s.running ++ (s.doneQ ++ s.worker.owes)) ∧
      ∀ d ∈ rest, j ∉ d.pc.holds := by
  have hn : (Dma.places s).Nodup := h.places.nodup_iff.mpr (List.nodup_finRange 32)
  have hsplit : Dma.places s = (s.jobQ ++ (s.xferQ ++ (occupied s.running ++ s.doneQ))) ++
      j :: (rest.flatMap (fun c => c.pc.holds) ++ s.worker.holds) := by
    simp [Dma.places, hc, hj]
  have ho : s.worker.owes ⊆ s.worker.holds := by
    cases s.worker <;> simp [Worker.owes, Worker.holds]
  rw [hsplit, List.nodup_middle, List.nodup_cons] at hn
  simp only [List.mem_append, not_or] at hn ⊢
  obtain ⟨⟨⟨-, hx, hr, hd⟩, hrest, hw⟩, -⟩ := hn
  refine ⟨⟨hx, hr, hd, fun hm => hw (ho hm)⟩, fun d hm hj => hrest ?_⟩
  exact List.mem_flatMap.mpr ⟨d, hm, hj⟩

/-- Writing to a job in the hands of a call disturbs no other job. -/
theorem fill_inv {j : Job} (h : Inv s) (hc : s.copies = ⟨id, vec, .fill j⟩ :: rest) (d : JobData)
    (hd : d.xfer = id) :
    Inv { s with jobs := Function.update s.jobs j d,
                 copies := ⟨id, vec, .enqueue j⟩ :: rest } := by
  obtain ⟨hq, hr⟩ := h.held_once hc rfl
  refine { h with places := ?_, owed := ?_, filled := ?_, xfer := ?_ }
  · have := h.places
    simpa only [Dma.places, hc, List.flatMap_cons, CopyPc.holds] using this
  · have hmap : ∀ k ∈ s.xferQ ++ (occupied s.running ++ (s.doneQ ++ s.worker.owes)),
        (Function.update s.jobs j d k).xfer = (s.jobs k).xfer := fun k hk => by
      rw [Function.update_of_ne (fun e : k = j => hq (e ▸ hk))]
    have := h.owed
    simp only [Dma.owed, hc, List.flatMap_cons, Copy.waiting] at this ⊢
    rwa [List.map_congr_left hmap]
  · intro e he k hk
    rcases List.mem_cons.mp he with rfl | he
    · obtain rfl := CopyPc.enqueue.inj hk
      simpa using hd
    · have hne : k ≠ j := fun e' => hr e he (by simp [hk, CopyPc.holds, e'])
      refine (congrArg JobData.xfer (Function.update_of_ne hne _ _)).trans ?_
      exact h.filled e (hc ▸ List.mem_cons_of_mem _ he) k hk
  · exact h.others hc (by simp [Copy.wakes]) rfl rfl fun e => List.mem_cons_of_mem _

theorem enqueue_inv {j : Job} (h : Inv s) (hc : s.copies = ⟨id, vec, .enqueue j⟩ :: rest) :
    Inv { s with xferQ := s.xferQ ++ [j], xferQLen := s.xferQLen + 1,
                 copies := ⟨id, vec, .test⟩ :: rest } := by
  have hid : (s.jobs j).xfer = id := h.filled _ (hc ▸ List.mem_cons_self) j rfl
  refine { h with places := ?_, owed := ?_, xferLen := ?_, filled := ?_, xfer := ?_ }
  · refine List.Perm.trans ?_ h.places
    simp only [Dma.places, hc, List.flatMap_cons, CopyPc.holds, List.perm_iff_count,
      List.count_append, List.count_cons, List.count_nil]
    omega
  · refine List.Perm.trans ?_ h.owed
    simp only [Dma.owed, hc, List.flatMap_cons, Copy.waiting, List.map_append, List.map_cons,
      List.map_nil, hid, List.perm_iff_count, List.count_append, List.count_cons, List.count_nil]
    omega
  · simp [h.xferLen]
  · intro d hd k hk
    rcases List.mem_cons.mp hd with rfl | hd
    · cases hk
    · exact h.filled d (hc ▸ List.mem_cons_of_mem _ hd) k hk
  · exact fun _ _ => .inr (.inr (.inr ⟨_, List.mem_cons_self, .inl rfl⟩))

/-- Every step of a `dma_copy` call keeps the invariant. -/
theorem stepCopy_inv {c : Copy} (h : Inv s) (hc : s.copies = c :: rest) :
    Inv (stepCopy s c rest) := by
  obtain ⟨id, vec, pc⟩ := c
  cases pc with
  | entry =>
    simp only [stepCopy]
    split
    · exact h.goes_on hc rfl rfl (by simp) (by simp [Copy.wakes])
    · exact h.goes_on hc rfl rfl (by simp) (by simp [Copy.wakes])
  | alloc =>
    simp only [stepCopy]
    split
    · exact h.goes_on hc rfl rfl (by simp) (by simp [Copy.wakes])
    · rename_i j q hq
      exact alloc_inv h hc hq
  | reject => exact reject_inv h hc
  | fill j => exact fill_inv h hc _ rfl
  | enqueue j => exact enqueue_inv h hc
  | test =>
    simp only [stepCopy]
    split
    · rename_i hb
      exact h.returns hc rfl rfl fun _ hlt => absurd (h.busy hb) (by omega)
    · exact h.goes_on hc rfl rfl (by simp) (by simp [Copy.wakes])
  | schedule =>
    have hp : Inv { s with xferPending := true } :=
      { h with xfer := fun _ _ => .inl rfl }
    exact hp.returns hc rfl rfl fun _ _ => rfl

end

/-- Starting the first waiting job on a free channel. -/
theorem startJob_inv {s : State} {j : Job} {rest : List Job} {i : Channel} (h : Inv s)
    (hw : s.worker = .xferLock) (hq : s.xferQ = j :: rest) (hi : s.running i = none) :
    Inv (startJob s j i) ∧ (startJob s j i).xferQ = rest := by
  have herase : (startJob s j i).xferQ = rest := by simp [startJob, hq]
  have hocc := occupied_fill hi j
  refine ⟨{ h with places := ?_, owed := ?_, xferLen := ?_, busyLen := ?_, busy := ?_, xfer := ?_ },
    herase⟩
  · refine List.Perm.trans ?_ h.places
    simp only [Dma.places, herase, hq, List.perm_iff_count, List.count_append]
    intro a
    have := hocc.count_eq a
    simp only [startJob, List.count_cons] at this ⊢
    omega
  · refine List.Perm.trans ?_ h.owed
    simp only [Dma.owed, herase, hq, List.map_append, List.perm_iff_count, List.count_append]
    intro a
    have := (hocc.map fun j => (s.jobs j).xfer).count_eq a
    simp only [startJob, List.map_cons, List.count_cons] at this ⊢
    omega
  · rw [herase]
    simp [startJob, h.xferLen, hq]
  · simp only [startJob, hocc.length_eq, h.busyLen, List.length_cons]
  · intro hb
    have hlen := hocc.length_eq
    have hle := occupied_le (Function.update s.running i (some j))
    have hfull := h.busy hb
    rw [h.busyLen] at hfull
    simp only [List.length_cons] at hlen
    omega
  · exact fun _ _ => .inr (.inr (.inl hw))

/-- After the walk no waiting job is left with a free channel. -/
theorem xferLoop_inv {rest : List Job} {s : State} (h : Inv s) (hw : s.worker = .xferLock)
    (hq : s.xferQ = rest) :
    Inv (xferLoop rest s) ∧ (xferLoop rest s).worker = .xferLock ∧
      ((xferLoop rest s).xferQ = [] ∨ (xferLoop rest s).busyQLen = dmaBusyMaxQLen) := by
  induction rest generalizing s with
  | nil => exact ⟨h, hw, .inl hq⟩
  | cons j rest ih =>
    simp only [xferLoop]
    cases hf : freeChannel s with
    | none =>
      have hfull : s.busyQLen = dmaBusyMaxQLen := h.busyLen.trans (occupied_full hf)
      rw [if_pos hfull]
      exact ⟨{ h with busy := fun _ => hfull }, hw, .inr hfull⟩
    | some i =>
      have hi : s.running i = none := by simpa using List.find?_some hf
      obtain ⟨h', hq'⟩ := startJob_inv h hw hq hi
      by_cases hb : (startJob s j i).busyQLen = dmaBusyMaxQLen
      · rw [if_pos hb]
        exact ⟨{ h' with busy := fun _ => hb }, hw, .inr hb⟩
      · rw [if_neg hb]
        exact ih h' hw hq'

/-- Leaving a work function. -/
theorem Inv.rests {s : State} (h : Inv s) (hh : s.worker.holds = []) (ho : s.worker.owes = [])
    (hx : s.xferQ ≠ [] → s.busyQLen < dmaBusyMaxQLen →
      s.xferPending = true ∨ ∃ c ∈ s.copies, c.wakes)
    (hd : s.doneQ ≠ [] → s.donePending = true) : Inv { s with worker := .idle } := by
  refine { h with places := ?_, owed := ?_, xfer := ?_, done := ?_, walk := ?_ }
  · have := h.places
    simp only [Dma.places, hh] at this
    exact this
  · have := h.owed
    simp only [Dma.owed, ho] at this
    exact this
  · intro hq hb
    rcases hx hq hb with hp | hc
    · exact .inl hp
    · exact .inr (.inr (.inr hc))
  · exact fun hq => .inl (hd hq)
  · simp [Worker.saved]

/-- The walk takes the first job off `dma_done_q`. -/
theorem takeDone_inv {s : State} {pos : Option Job} (h : Inv s) (hh : s.worker.holds = [])
    (ho : s.worker.owes = []) (hn : s.worker ≠ .xferEntry ∧ s.worker ≠ .xferLock)
    (hp : pos = s.doneQ.head? ∨ pos = none ∧ s.donePending = true) : Inv (takeDone s pos) := by
  have hx : s.xferQ ≠ [] → s.busyQLen < dmaBusyMaxQLen →
      s.xferPending = true ∨ ∃ c ∈ s.copies, c.wakes := by
    intro hq hb
    rcases h.xfer hq hb with hp | hp | hp | hp
    · exact .inl hp
    · exact absurd hp hn.1
    · exact absurd hp hn.2
    · exact .inr hp
  cases pos with
  | none =>
    refine h.rests hh ho hx fun hd => ?_
    rcases hp with hp | hp
    · exact absurd (List.head?_eq_none_iff.mp hp.symm) hd
    · exact hp.2
  | some j =>
    have hj : s.doneQ.head? = some j := by
      rcases hp with hp | hp
      · exact hp.symm
      · cases hp.1
    obtain ⟨q, hq⟩ := List.head?_eq_some_iff.mp hj
    have hnext : nextOf j s.doneQ = q.head? := by simp [hq, nextOf]
    have herase : s.doneQ.erase j = q := by simp [hq]
    simp only [takeDone, hnext, herase]
    refine { h with places := ?_, owed := ?_, doneLen := ?_, xfer := ?_, done := ?_, walk := ?_ }
    · refine List.Perm.trans ?_ h.places
      simp only [Dma.places, hq, hh]
      simp only [Worker.holds, List.perm_iff_count, List.count_append, List.count_cons,
        List.count_nil]
      omega
    · refine List.Perm.trans ?_ h.owed
      simp only [Dma.owed, hq, ho]
      simp only [Worker.owes, List.map_append, List.map_cons, List.map_nil, List.perm_iff_count,
        List.count_append, List.count_cons, List.count_nil]
      omega
    · simp [h.doneLen, hq]
    · intro hq hb
      rcases hx hq hb with hp | hc
      · exact .inl hp
      · exact .inr (.inr (.inr hc))
    · exact fun _ => .inr (.inr rfl)
    · intro t ht
      exact .inl (Option.some.inj ht).symm

theorem stepWorker_inv {s t : State} (h : Inv s) (ht : stepWorker s = some t) : Inv t := by
  cases hw : s.worker with
  | idle => simp [stepWorker, hw] at ht
  | xferEntry =>
    have hd : s.doneQ ≠ [] → s.donePending = true := fun hq => by
      simpa [DoneAwake, hw, Worker.saved] using h.done hq
    simp only [stepWorker, hw] at ht
    split at ht
    · rename_i hb
      obtain rfl := Option.some.inj ht
      refine h.rests (by simp [hw, Worker.holds]) (by simp [hw, Worker.owes]) ?_ hd
      exact fun _ hlt => absurd (h.busy hb) (by omega)
    · obtain rfl := Option.some.inj ht
      refine { h with places := ?_, owed := ?_, xfer := ?_, done := ?_, walk := ?_ }
      · have := h.places
        simp only [Dma.places, hw] at this
        exact this
      · have := h.owed
        simp only [Dma.owed, hw] at this
        exact this
      · exact fun _ _ => .inr (.inr (.inl rfl))
      · exact fun hq => .inl (hd hq)
      · simp [Worker.saved]
  | xferLock =>
    obtain rfl : _ = t := by simpa [stepWorker, hw] using ht
    obtain ⟨h', hw', hf⟩ := xferLoop_inv h hw rfl
    refine h'.rests (by simp [hw', Worker.holds]) (by simp [hw', Worker.owes]) ?_ fun hq => ?_
    · intro hq hlt
      rcases hf with hf | hf
      · exact absurd hf hq
      · omega
    · simpa [DoneAwake, hw', Worker.saved] using h'.done hq
  | doneEntry =>
    obtain rfl : _ = t := by simpa [stepWorker, hw] using ht
    exact takeDone_inv h (by simp [hw, Worker.holds]) (by simp [hw, Worker.owes]) (by simp [hw])
      (.inl rfl)
  | doneCall j p =>
    obtain rfl : _ = t := by simpa [stepWorker, hw] using ht
    refine { h with places := ?_, owed := ?_, xfer := ?_, done := ?_, walk := ?_ }
    · have := h.places
      simp only [Dma.places, hw] at this
      exact this
    · refine List.Perm.trans ?_ h.owed
      simp only [Dma.owed, hw, Worker.owes, List.map_append, List.map_cons, List.map_nil,
        List.perm_iff_count, List.count_append, List.count_cons, List.count_nil]
      omega
    · intro hq hb
      simpa [XferAwake, hw] using h.xfer hq hb
    · exact fun _ => .inr (.inr rfl)
    · simpa [hw, Worker.saved] using h.walk
  | doneFree j p =>
    obtain rfl : _ = t := by simpa [stepWorker, hw] using ht
    refine { h with places := ?_, owed := ?_, xfer := ?_, done := ?_, walk := ?_ }
    · refine List.Perm.trans ?_ h.places
      simp only [Dma.places, hw, Worker.holds, List.perm_iff_count, List.count_append,
        List.count_cons, List.count_nil]
      omega
    · have := h.owed
      simp only [Dma.owed, hw] at this
      exact this
    · intro hq hb
      simpa [XferAwake, hw] using h.xfer hq hb
    · exact fun _ => .inr (.inr rfl)
    · simpa [hw, Worker.saved] using h.walk
  | doneNext p =>
    obtain rfl : _ = t := by simpa [stepWorker, hw] using ht
    exact takeDone_inv h (by simp [hw, Worker.holds]) (by simp [hw, Worker.owes]) (by simp [hw])
      (h.walk p (by simp [hw, Worker.saved]))

end SnakeOs.Dma
