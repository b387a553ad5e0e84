import Mathlib.Logic.Basic

namespace SnakeOs.Lib

variable {σ α : Type}

/-- The states reached from `start` by enabled steps that all meet `ok`. -/
inductive Reach (step : σ → α → Option σ) (ok : σ → α → Prop) (start : σ) : σ → Prop
  | start : Reach step ok start start
  | next {s t : σ} {a : α} : Reach step ok start s → ok s a → step s a = some t →
      Reach step ok start t

/-- Every enabled step is allowed. -/
def anyStep : σ → α → Prop := fun _ _ => True

/-- What holds at the start and survives every allowed step holds throughout. -/
theorem Reach.invariant {step : σ → α → Option σ} {ok : σ → α → Prop} {start s : σ}
    {I : σ → Prop} (h : Reach step ok start s) (h0 : I start)
    (hs : ∀ u a t, I u → ok u a → step u a = some t → I t) : I s := by
  induction h with
  | start => exact h0
  | next _ hok ht ih => exact hs _ _ _ ih hok ht

instance (s : σ) (a : α) : Decidable (anyStep s a) := .isTrue trivial

/-- The state after a list of steps, if each of them is enabled and allowed. -/
def run (step : σ → α → Option σ) (ok : σ → α → Prop) [∀ s a, Decidable (ok s a)] :
    List α → σ → Option σ
  | [], s => some s
  | a :: as, s => if ok s a then (step s a).bind (run step ok as) else none

theorem Reach.run {step : σ → α → Option σ} {ok : σ → α → Prop} [∀ s a, Decidable (ok s a)]
    {start s t : σ} (as : List α) (h : Reach step ok start s) (hr : run step ok as s = some t) :
    Reach step ok start t := by
  induction as generalizing s with
  | nil =>
    obtain rfl := Option.some.inj hr
    exact h
  | cons a as ih =>
    simp only [Lib.run] at hr
    split at hr
    · rename_i hok
      obtain ⟨u, hu, ht⟩ := Option.bind_eq_some_iff.mp hr
      exact ih (h.next hok hu) ht
    · cases hr

end SnakeOs.Lib
