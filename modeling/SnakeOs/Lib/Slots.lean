import Mathlib.Data.List.Induction
import Mathlib.Data.List.Perm.Basic
import Mathlib.Logic.Function.Basic

namespace SnakeOs.Lib

variable {ι α : Type}

/-- With no free slot left every slot counts. -/
theorem length_filterMap_full {l : List ι} {f : ι → Option α}
    (h : l.find? (fun i => (f i).isNone) = none) : (l.filterMap f).length = l.length := by
  rw [List.length_filterMap_eq_countP, List.countP_eq_length]
  intro i hi
  simpa [Option.isSome_iff_ne_none] using List.find?_eq_none.mp h i hi

/-- Reading a list place by place. -/
theorem filterMap_getElem? (l : List α) :
    (List.range l.length).filterMap (fun i => l[i]?) = l := by
  induction l using List.reverseRecOn with
  | nil => rfl
  | append_singleton l x ih =>
    have hl : ∀ i ∈ List.range l.length, (l ++ [x])[i]? = l[i]? := fun i hi =>
      List.getElem?_append_left (List.mem_range.mp hi)
    rw [List.length_append, List.length_singleton, List.range_succ, List.filterMap_append,
      List.filterMap_congr hl, ih]
    simp

variable [DecidableEq ι]

/-- A key stands once in an association list without repeated keys. -/
theorem filter_key {l : List (ι × α)} (hd : (l.map Prod.fst).Nodup) {k : ι} {v : α}
    (h : (k, v) ∈ l) : l.filter (fun p => p.1 = k) = [(k, v)] := by
  induction l with
  | nil => cases h
  | cons p l ih =>
    rw [List.map_cons, List.nodup_cons] at hd
    obtain ⟨hp, hd⟩ := hd
    rcases List.mem_cons.mp h with rfl | h
    · have hnone : l.filter (fun p => p.1 = k) = [] := by
        refine List.filter_eq_nil_iff.mpr fun q hq hk => hp ?_
        have hmem : q.1 ∈ l.map Prod.fst := List.mem_map_of_mem hq
        rwa [of_decide_eq_true hk] at hmem
      rw [List.filter_cons_of_pos (by simp), hnone]
    · have hmem : k ∈ l.map Prod.fst := List.mem_map_of_mem h
      have hne : p.1 ≠ k := fun he => hp (he ▸ hmem)
      rw [List.filter_cons_of_neg (by simpa using hne), ih hd h]

theorem filterMap_update_of_not_mem {l : List ι} {i : ι} (hi : i ∉ l) (f : ι → Option α)
    (v : Option α) : l.filterMap (Function.update f i v) = l.filterMap f := by
  apply List.filterMap_congr
  intro k hk
  have hne : k ≠ i := fun h => hi (h ▸ hk)
  exact Function.update_of_ne hne _ _

/-- Filling one slot adds its content to what the slots hold. -/
theorem filterMap_update_perm {l : List ι} (hd : l.Nodup) {i : ι} (hi : i ∈ l)
    (f : ι → Option α) (x : α) :
    (l.filterMap (Function.update f i (some x))).Perm
      (x :: l.filterMap (Function.update f i none)) := by
  induction l with
  | nil => cases hi
  | cons k l ih =>
    obtain ⟨hk, hd⟩ := List.nodup_cons.mp hd
    rcases List.mem_cons.mp hi with rfl | hi
    · simp [filterMap_update_of_not_mem hk]
    · have hne : k ≠ i := fun h => hk (h ▸ hi)
      simp only [List.filterMap_cons, Function.update_of_ne hne]
      cases f k with
      | none => exact ih hd hi
      | some y => exact ((ih hd hi).cons y).trans (List.Perm.swap x y _)

theorem filterMap_fill {l : List ι} (hd : l.Nodup) {i : ι} (hi : i ∈ l) {f : ι → Option α}
    (hf : f i = none) (x : α) :
    (l.filterMap (Function.update f i (some x))).Perm (x :: l.filterMap f) := by
  have h := filterMap_update_perm hd hi f x
  rwa [show Function.update f i none = f from hf ▸ Function.update_eq_self i f] at h

theorem filterMap_clear {l : List ι} (hd : l.Nodup) {i : ι} (hi : i ∈ l) {f : ι → Option α}
    {x : α} (hf : f i = some x) :
    (l.filterMap f).Perm (x :: l.filterMap (Function.update f i none)) := by
  have h := filterMap_update_perm hd hi f x
  rwa [show Function.update f i (some x) = f from hf ▸ Function.update_eq_self i f] at h

end SnakeOs.Lib
