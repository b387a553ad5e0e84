import SnakeOs.Hsdma.Scheduler
import Mathlib.Data.List.FinRange
import Mathlib.Data.List.Count
import Mathlib.Data.List.Perm.Basic

namespace SnakeOs.Hsdma
open Arch

def CopyPc.holds : CopyPc → List Job
  | .fill j | .refuse j | .release j | .enqueue j => [j]
  | _ => []

def Worker.holds : Worker → List Job
  | .doneCall j _ | .doneFree j _ => [j]
  | _ => []

/-- The entry the done walk goes on with, while it runs. -/
def Worker.saved : Worker → Option (Option Job)
  | .doneCall _ t | .doneFree _ t | .doneNext t => some t
  | _ => none

/-- Every place a job can be in, with its content. -/
def places (s : State) : List Job :=
  s.jobQ ++ (s.xferQ ++ (s.running.toList ++ (s.doneQ ++
    (s.copies.flatMap (fun c => c.pc.holds) ++ s.worker.holds))))

/-- The call has neither queued its transfer nor answered it. -/
def Copy.waiting (c : Copy) : List Nat :=
  match c.pc with
  | .release _ | .test | .schedule => []
  | _ => [c.id]

def Worker.owes : Worker → List Job
  | .doneCall j _ => [j]
  | _ => []

/-- The transfers whose `hsdma_end_io` is still to come. -/
def owed (s : State) : List Nat :=
  s.copies.flatMap Copy.waiting ++
    (s.xferQ ++ (s.running.toList ++ (s.doneQ ++ s.worker.owes))).map fun j => (s.jobs j).xfer

def Copy.wakes (c : Copy) : Prop := c.pc = .test ∨ c.pc = .schedule

/-- A waiting job will be looked at: the controller is busy, or the work item is
pending, executing or about to be scheduled. -/
def XferAwake (s : State) : Prop :=
  s.busy = true ∨ s.xferPending = true ∨ s.worker = .xferLock ∨ ∃ c ∈ s.copies, c.wakes

def DoneAwake (s : State) : Prop :=
  s.donePending = true ∨ s.worker = .doneEntry ∨ s.worker.saved.isSome

/-- `ready` and `single` are what the missing tests in the worker rely on: a work item
on its way means an idle controller and a waiting job, and there is only one. -/
structure Inv (s : State) : Prop where
  places : (places s).Perm (List.finRange 32)
  owed : (owed s ++ s.ended.map Prod.fst).Perm (List.range s.submitted)
  xferLen : s.xferQLen = s.xferQ.length
  filled : ∀ c ∈ s.copies, ∀ j, c.pc = .enqueue j → (s.jobs j).xfer = c.id
  ready : s.xferPending = true ∨ s.worker = .xferLock → s.busy = false ∧ s.xferQ ≠ []
  single : s.xferPending = true → s.worker ≠ .xferLock
  busy : s.busy = s.running.isSome
  engine : s.outstanding + s.irq = if s.busy then 1 else 0
  xfer : s.xferQ ≠ [] → XferAwake s
  done : s.doneQ ≠ [] → DoneAwake s
  walk : ∀ t, s.worker.saved = some t → t = s.doneQ.head? ∨ t = none ∧ s.donePending = true
  sane : s.oops = false

theorem init_inv (pool : U32) (r : Regs) : Inv (init pool r) where
  places := by simp [Hsdma.places, init, Worker.holds]
  owed := by simp [Hsdma.owed, init, Worker.owes]
  xferLen := rfl
  filled := by simp [init]
  ready := by simp [init]
  single := by simp [init]
  busy := rfl
  engine := rfl
  xfer := by simp [init]
  done := by simp [init]
  walk := by simp [init, Worker.saved]
  sane := rfl

theorem XferAwake.keep {s t : State} (h : XferAwake s) (hb : s.busy = true → t.busy = true)
    (hp : s.xferPending = true → t.xferPending = true) (hw : t.worker = s.worker)
    (hc : ∀ c ∈ s.copies, c.wakes → ∃ d ∈ t.copies, d.wakes) : XferAwake t := by
  rcases h with h | h | h | ⟨c, hm, h⟩
  · exact .inl (hb h)
  · exact .inr (.inl (hp h))
  · exact .inr (.inr (.inl (hw.trans h)))
  · exact .inr (.inr (.inr (hc c hm h)))

/-- The order in which the executing calls are listed does not matter. -/
theorem Inv.perm {s : State} (h : Inv s) {l : List Copy} (hl : s.copies.Perm l) :
    Inv { s with copies := l } := by
  refine { h with places := ?_, owed := ?_, filled := ?_, xfer := ?_ }
  · refine List.Perm.trans ?_ h.places
    have := hl.flatMap_right (fun c => c.pc.holds)
    simp only [Hsdma.places]
    gcongr
  · refine List.Perm.trans ?_ h.owed
    have := hl.flatMap_right Copy.waiting
    simp only [Hsdma.owed]
    gcongr
  · exact fun c hc => h.filled c (hl.mem_iff.mpr hc)
  · exact fun hq => (h.xfer hq).keep id id rfl fun c hc hw => ⟨c, hl.mem_iff.mp hc, hw⟩

section
variable {s : State} {id : Nat} {vec : List Vec} {rest : List Copy}

/-- A call goes on without touching anything but its own place. -/
theorem Inv.goes_on {pc pc' : CopyPc} (h : Inv s) (hc : s.copies = ⟨id, vec, pc⟩ :: rest)
    (hh : pc'.holds = pc.holds)
    (hw : Copy.waiting ⟨id, vec, pc'⟩ = Copy.waiting ⟨id, vec, pc⟩)
    (hf : ∀ j, pc' ≠ .enqueue j) (hk : Copy.wakes ⟨id, vec, pc⟩ → Copy.wakes ⟨id, vec, pc'⟩) :
    Inv { s with copies := ⟨id, vec, pc'⟩ :: rest } := by
  refine { h with places := ?_, owed := ?_, filled := ?_, xfer := ?_ }
  · have := h.places
    simpa only [Hsdma.places, hc, List.flatMap_cons, hh] using this
  · have := h.owed
    simpa only [Hsdma.owed, hc, List.flatMap_cons, hw] using this
  · intro d hd j hj
    rcases List.mem_cons.mp hd with rfl | hd
    · exact absurd hj (hf j)
    · exact h.filled d (hc ▸ List.mem_cons_of_mem _ hd) j hj
  · refine fun hq => (h.xfer hq).keep (fun h => h) (fun h => h) rfl fun d hd hw => ?_
    rcases List.mem_cons.mp (hc ▸ hd) with rfl | hd
    · exact ⟨_, List.mem_cons_self, hk hw⟩
    · exact ⟨d, List.mem_cons_of_mem _ hd, hw⟩

/-- A call returns that has nothing left to answer for. -/
theorem Inv.returns {pc : CopyPc} (h : Inv s) (hc : s.copies = ⟨id, vec, pc⟩ :: rest)
    (hh : pc.holds = []) (hw : Copy.waiting ⟨id, vec, pc⟩ = [])
    (hx : s.busy = true ∨ s.xferPending = true) : Inv { s with copies := rest } := by
  refine { h with places := ?_, owed := ?_, filled := ?_, xfer := ?_ }
  · have := h.places
    simpa only [Hsdma.places, hc, List.flatMap_cons, hh, List.nil_append] using this
  · have := h.owed
    simpa only [Hsdma.owed, hc, List.flatMap_cons, hw, List.nil_append] using this
  · exact fun d hd => h.filled d (hc ▸ List.mem_cons_of_mem _ hd)
  · intro _
    rcases hx with hx | hx
    · exact .inl hx
    · exact .inr (.inl hx)

/-- What the calls other than the first do to the wake-up and filling conditions. -/
theorem Inv.others {pc : CopyPc} {t : State} (h : Inv s) (hc : s.copies = ⟨id, vec, pc⟩ :: rest)
    (hn : ¬ Copy.wakes ⟨id, vec, pc⟩) (hb : t.busy = s.busy) (hp : t.xferPending = s.xferPending)
    (hw : t.worker = s.worker) (hr : ∀ d ∈ rest, d ∈ t.copies) (hq : s.xferQ ≠ []) :
    XferAwake t := by
  refine (h.xfer hq).keep (fun h => hb.trans h) (fun h => hp.trans h) hw fun d hd hk => ?_
  rcases List.mem_cons.mp (hc ▸ hd) with rfl | hd
  · exact absurd hk hn
  · exact ⟨d, hr d hd, hk⟩

theorem alloc_inv {j : Job} {q : List Job} (h : Inv s)
    (hc : s.copies = ⟨id, vec, .alloc⟩ :: rest) (hq : s.jobQ = j :: q) :
    Inv { s with jobQ := q, copies := ⟨id, vec, .fill j⟩ :: rest } := by
  refine { h with places := ?_, owed := ?_, filled := ?_, xfer := ?_ }
  · refine List.Perm.trans ?_ h.places
    simp only [Hsdma.places, hc, hq, List.flatMap_cons, CopyPc.holds, List.perm_iff_count,
      List.count_append, List.count_cons, List.count_nil]
    omega
  · have := h.owed
    simpa only [Hsdma.owed, hc, List.flatMap_cons, Copy.waiting] using this
  · intro d hd k hk
    rcases List.mem_cons.mp hd with rfl | hd
    · cases hk
    · exact h.filled d (hc ▸ List.mem_cons_of_mem _ hd) k hk
  · exact h.others hc (by simp [Copy.wakes]) rfl rfl rfl fun d => List.mem_cons_of_mem _

/-- The error callback of a call that holds no job or frees it next. -/
theorem callback_inv {pc : CopyPc} {kept : List Copy} (h : Inv s)
    (hc : s.copies = ⟨id, vec, pc⟩ :: rest)
    (hk : pc = .reject ∧ kept = rest ∨
      ∃ j, pc = .refuse j ∧ kept = ⟨id, vec, .release j⟩ :: rest) :
    Inv { s with ended := s.ended ++ [(id, responseErr)], copies := kept } := by
  have hkept : ∀ d ∈ rest, d ∈ kept := by
    rcases hk with ⟨_, rfl⟩ | ⟨j, _, rfl⟩
    · exact fun d hd => hd
    · exact fun d hd => List.mem_cons_of_mem _ hd
  have hwait : Copy.waiting ⟨id, vec, pc⟩ = [id] ∧ kept.flatMap Copy.waiting =
      rest.flatMap Copy.waiting := by
    rcases hk with ⟨rfl, rfl⟩ | ⟨j, rfl, rfl⟩
    · exact ⟨rfl, rfl⟩
    · exact ⟨rfl, by simp [Copy.waiting]⟩
  have hholds : kept.flatMap (fun c => c.pc.holds) = s.copies.flatMap (fun c => c.pc.holds) := by
    rcases hk with ⟨rfl, rfl⟩ | ⟨j, rfl, rfl⟩
    · simp [hc, CopyPc.holds]
    · simp [hc, CopyPc.holds]
  have hwakes : ¬ Copy.wakes ⟨id, vec, pc⟩ := by
    rcases hk with ⟨rfl, _⟩ | ⟨j, rfl, _⟩ <;> simp [Copy.wakes]
  refine { h with places := ?_, owed := ?_, filled := ?_, xfer := ?_ }
  · have := h.places
    simpa only [Hsdma.places, hholds] using this
  · refine List.Perm.trans ?_ h.owed
    simp only [Hsdma.owed, hc, List.flatMap_cons, hwait, List.map_append, List.map_cons,
      List.map_nil, List.perm_iff_count, List.count_append, List.count_cons, List.count_nil]
    omega
  · intro d hd k hk'
    rcases hk with ⟨_, rfl⟩ | ⟨j, _, rfl⟩
    · exact h.filled d (hc ▸ List.mem_cons_of_mem _ hd) k hk'
    · rcases List.mem_cons.mp hd with rfl | hd
      · cases hk'
      · exact h.filled d (hc ▸ List.mem_cons_of_mem _ hd) k hk'
  · exact h.others hc hwakes rfl rfl rfl hkept

theorem release_inv {j : Job} (h : Inv s) (hc : s.copies = ⟨id, vec, .release j⟩ :: rest) :
    Inv { s with jobQ := j :: s.jobQ, copies := rest } := by
  refine { h with places := ?_, owed := ?_, filled := ?_, xfer := ?_ }
  · refine List.Perm.trans ?_ h.places
    simp only [Hsdma.places, hc, List.flatMap_cons, CopyPc.holds, List.perm_iff_count,
      List.count_append, List.count_cons, List.count_nil]
    omega
  · have := h.owed
    simpa only [Hsdma.owed, hc, List.flatMap_cons, Copy.waiting, List.nil_append] using this
  · exact fun d hd => h.filled d (hc ▸ List.mem_cons_of_mem _ hd)
  · exact h.others hc (by simp [Copy.wakes]) rfl rfl rfl fun d hd => hd

/-- A job in the hands of a call is nowhere else. -/
theorem Inv.held_once {pc : CopyPc} {j : Job} (h : Inv s)
    (hc : s.copies = ⟨id, vec, pc⟩ :: rest) (hj : pc.holds = [j]) :
    j ∉ s.xferQ ++ (s.running.toList ++ (s.doneQ ++ s.worker.owes)) ∧
      ∀ d ∈ rest, j ∉ d.pc.holds := by
  have hn : (Hsdma.places s).Nodup := h.places.nodup_iff.mpr (List.nodup_finRange 32)
  have hsplit : Hsdma.places s = (s.jobQ ++ (s.xferQ ++ (s.running.toList ++ s.doneQ))) ++
      j :: (rest.flatMap (fun c => c.pc.holds) ++ s.worker.holds) := by
    simp [Hsdma.places, hc, hj]
  have ho : s.worker.owes ⊆ s.worker.holds := by
    cases s.worker <;> simp [Worker.owes, Worker.holds]
  rw [hsplit, List.nodup_middle, List.nodup_cons] at hn
  simp only [List.mem_append, not_or] at hn ⊢
  obtain ⟨⟨⟨-, hx, hr, hd⟩, hrest, hw⟩, -⟩ := hn
  refine ⟨⟨hx, hr, hd, fun hm => hw (ho hm)⟩, fun d hm hj => hrest ?_⟩
  exact List.mem_flatMap.mpr ⟨d, hm, hj⟩

/-- Writing to a job in the hands of a call disturbs no other job. -/
theorem fill_inv {j : Job} {pc : CopyPc} (h : Inv s)
    (hc : s.copies = ⟨id, vec, .fill j⟩ :: rest) (d : JobData)
    (hpc : pc = .refuse j ∨ pc = .enqueue j ∧ d.xfer = id) :
    Inv { s with jobs := Function.update s.jobs j d, copies := ⟨id, vec, pc⟩ :: rest } := by
  obtain ⟨hq, hr⟩ := h.held_once hc rfl
  have hholds : pc.holds = [j] ∧ Copy.waiting ⟨id, vec, pc⟩ = [id] := by
    rcases hpc with rfl | ⟨rfl, _⟩
    · exact ⟨rfl, rfl⟩
    · exact ⟨rfl, rfl⟩
  refine { h with places := ?_, owed := ?_, filled := ?_, xfer := ?_ }
  · have := h.places
    simp only [Hsdma.places, hc, List.flatMap_cons, hholds] at this ⊢
    exact this
  · have hmap : ∀ k ∈ s.xferQ ++ (s.running.toList ++ (s.doneQ ++ s.worker.owes)),
        (Function.update s.jobs j d k).xfer = (s.jobs k).xfer := fun k hk => by
      rw [Function.update_of_ne (fun e : k = j => hq (e ▸ hk))]
    have := h.owed
    simp only [Hsdma.owed, hc, List.flatMap_cons, hholds] at this ⊢
    rw [List.map_congr_left hmap]
    exact this
  · intro e he k hk
    rcases List.mem_cons.mp he with rfl | he
    · rcases hpc with rfl | ⟨rfl, hd⟩
      · cases hk
      · obtain rfl := CopyPc.enqueue.inj hk
        simpa using hd
    · have hne : k ≠ j := fun e' => hr e he (by simp [hk, CopyPc.holds, e'])
      refine (congrArg JobData.xfer (Function.update_of_ne hne _ _)).trans ?_
      exact h.filled e (hc ▸ List.mem_cons_of_mem _ he) k hk
  · exact h.others hc (by simp [Copy.wakes]) rfl rfl rfl fun d => List.mem_cons_of_mem _

theorem enqueue_inv {j : Job} (h : Inv s) (hc : s.copies = ⟨id, vec, .enqueue j⟩ :: rest) :
    Inv { s with xferQ := s.xferQ ++ [j], xferQLen := s.xferQLen + 1,
                 copies := ⟨id, vec, .test⟩ :: rest } := by
  have hid : (s.jobs j).xfer = id := h.filled _ (hc ▸ List.mem_cons_self) j rfl
  refine { h with places := ?_, owed := ?_, xferLen := ?_, filled := ?_, ready := ?_, xfer := ?_ }
  · refine List.Perm.trans ?_ h.places
    simp only [Hsdma.places, hc, List.flatMap_cons, CopyPc.holds, List.perm_iff_count,
      List.count_append, List.count_cons, List.count_nil]
    omega
  · refine List.Perm.trans ?_ h.owed
    simp only [Hsdma.owed, hc, List.flatMap_cons, Copy.waiting, List.map_append, List.map_cons,
      List.map_nil, hid, List.perm_iff_count, List.count_append, List.count_cons, List.count_nil]
    omega
  · simp [h.xferLen]
  · intro d hd k hk
    rcases List.mem_cons.mp hd with rfl | hd
    · cases hk
    · exact h.filled d (hc ▸ List.mem_cons_of_mem _ hd) k hk
  · exact fun hw => ⟨(h.ready hw).1, by simp⟩
  · exact fun _ => .inr (.inr (.inr ⟨_, List.mem_cons_self, .inl rfl⟩))

end

end SnakeOs.Hsdma
