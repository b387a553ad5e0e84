import Mathlib.Data.List.Induction

namespace SnakeOs.Lib

variable {α : Type} {P : List α → α → Prop} {l : List α}

/-- Every entry of a log is justified by what comes before it. -/
def Justified (P : List α → α → Prop) (l : List α) : Prop :=
  ∀ a e c, l = a ++ e :: c → P a e

theorem Justified.nil : Justified P [] := fun a e c h => by simp at h

theorem Justified.snoc {e : α} (h : Justified P l) (he : P l e) : Justified P (l ++ [e]) := by
  intro a e' c heq
  rcases List.eq_nil_or_concat c with rfl | ⟨c', last, rfl⟩
  · obtain ⟨rfl, hf⟩ := List.append_inj' heq rfl
    obtain rfl := (List.cons.inj hf).1
    exact he
  · simp only [List.concat_eq_append, ← List.cons_append, ← List.append_assoc] at heq
    exact h a e' c' (List.append_inj' heq rfl).1

/-- Appending entries that the log justifies, however much is appended before them. -/
theorem Justified.append {es : List α} (h : Justified P l)
    (hmono : ∀ a b e, P a e → P (a ++ b) e) (he : ∀ e ∈ es, P l e) : Justified P (l ++ es) := by
  induction es using List.reverseRecOn with
  | nil => rwa [List.append_nil]
  | append_singleton es e ih =>
    rw [← List.append_assoc]
    refine (ih fun x hx => he x (List.mem_append_left _ hx)).snoc ?_
    exact hmono l es e (he e (List.mem_append_right _ (List.mem_singleton_self e)))

end SnakeOs.Lib
