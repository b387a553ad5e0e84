import Mathlib.Logic.Function.Basic
import Mathlib.Data.List.Nodup

namespace SnakeOs.Lib

variable {α : Type} {next : α → Option α} {p : Option α} {x y : α} {xs ys : List α}

/-- The cells from `p` on, along `next` to the end. -/
inductive Chain (next : α → Option α) : Option α → List α → Prop where
  | nil : Chain next none []
  | cons (x : α) (xs : List α) (tail : Chain next (next x) xs) : Chain next (some x) (x :: xs)

theorem chain_none : Chain next none xs ↔ xs = [] := by
  refine ⟨fun h => ?_, fun h => h ▸ .nil⟩
  cases h
  rfl

theorem chain_some : Chain next (some x) xs ↔ ∃ ys, xs = x :: ys ∧ Chain next (next x) ys := by
  refine ⟨fun h => ?_, fun h => ?_⟩
  · cases h with
    | cons _ ys h => exact ⟨ys, rfl, h⟩
  · obtain ⟨ys, rfl, h⟩ := h
    exact .cons x ys h

variable [DecidableEq α]

instance Chain.decidable (next : α → Option α) : (p : Option α) → (xs : List α) →
    Decidable (Chain next p xs)
  | none, xs => decidable_of_iff (xs = []) chain_none.symm
  | some _, [] => .isFalse nofun
  | some x, y :: ys =>
    have := Chain.decidable next (next x) ys
    decidable_of_iff (y = x ∧ Chain next (next x) ys) (by simp [chain_some])

/-- A link outside the chain may change. -/
theorem Chain.update (h : Chain next p xs) (hx : x ∉ xs) (q : Option α) :
    Chain (Function.update next x q) p xs := by
  induction h with
  | nil => exact .nil
  | cons y ys _ ih =>
    simp only [List.mem_cons, not_or] at hx
    refine .cons y ys ?_
    rw [Function.update_of_ne (Ne.symm hx.1)]
    exact ih hx.2

theorem Chain.push (h : Chain next p xs) (hx : x ∉ xs) :
    Chain (Function.update next x p) (some x) (x :: xs) := by
  refine .cons x xs ?_
  rw [Function.update_self]
  exact h.update hx p

/-- A new last cell. -/
theorem Chain.snoc (h : Chain next (some y) (y :: xs)) (hd : (y :: xs).Nodup)
    (hx : x ∉ y :: xs) (hend : next x = none) :
    Chain (Function.update next ((y :: xs).getLast (List.cons_ne_nil y xs)) (some x)) (some y)
      (y :: xs ++ [x]) := by
  induction xs generalizing y with
  | nil =>
    refine .cons y [x] ?_
    rw [List.getLast_singleton, Function.update_self]
    refine .cons x [] ?_
    rw [Function.update_of_ne (by simpa using hx), hend]
    exact .nil
  | cons z zs ih =>
    obtain ⟨_, he, h⟩ := chain_some.mp h
    obtain rfl := (List.cons.inj he).2
    cases hz : next y with
    | none => rw [hz] at h; cases h
    | some w =>
      rw [hz] at h
      obtain ⟨_, he, -⟩ := chain_some.mp h
      obtain rfl := (List.cons.inj he).1
      have hy : y ∉ z :: zs := (List.nodup_cons.mp hd).1
      refine .cons y _ ?_
      have hne : y ≠ (z :: zs).getLast (List.cons_ne_nil z zs) :=
        fun e => hy (e ▸ List.getLast_mem _)
      rw [List.getLast_cons_cons, Function.update_of_ne hne, hz]
      exact ih h (List.nodup_cons.mp hd).2 fun hm => hx (List.mem_cons_of_mem y hm)

end SnakeOs.Lib
