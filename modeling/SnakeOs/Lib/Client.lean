import Mathlib.Data.List.Basic
import Mathlib.Tactic.Common

namespace SnakeOs.Lib

variable {ι ο σ τ α β : Type}

/-- A program that calls a device and goes on with its replies. -/
inductive Client (ι ο α : Type) : Type
  | done (a : α)
  | call (i : ι) (next : ο → Client ι ο α)

namespace Client

def bind : Client ι ο α → (α → Client ι ο β) → Client ι ο β
  | done a, f => f a
  | call i next, f => call i fun o => (next o).bind f

instance : Monad (Client ι ο) where
  pure := done
  bind := bind

/-- The program on a device with the state `σ`. -/
def run (step : σ → ι → ο × σ) : Client ι ο α → σ → α × σ
  | done a, s => (a, s)
  | call i next, s => (next (step s i).1).run step (step s i).2

/-- The calls the program makes there. -/
def issued (step : σ → ι → ο × σ) : Client ι ο α → σ → List ι
  | done _, _ => []
  | call i next, s => i :: (next (step s i).1).issued step (step s i).2

/-- The replies to a list of calls, and the state behind them. -/
def answers (step : σ → ι → ο × σ) : List ι → σ → List ο × σ
  | [], s => ([], s)
  | i :: is, s =>
    let (o, s) := step s i
    let (os, s) := answers step is s
    (o :: os, s)

variable {step : σ → ι → ο × σ}

@[simp] theorem run_pure (a : α) (s : σ) : (pure a : Client ι ο α).run step s = (a, s) := rfl

@[simp] theorem run_call (i : ι) (next : ο → Client ι ο α) (s : σ) :
    (call i next).run step s = (next (step s i).1).run step (step s i).2 := rfl

@[simp] theorem issued_pure (a : α) (s : σ) : (pure a : Client ι ο α).issued step s = [] := rfl

@[simp] theorem issued_call (i : ι) (next : ο → Client ι ο α) (s : σ) :
    (call i next).issued step s = i :: (next (step s i).1).issued step (step s i).2 := rfl

@[simp] theorem run_bind (p : Client ι ο α) (f : α → Client ι ο β) (s : σ) :
    (p >>= f).run step s = (f (p.run step s).1).run step (p.run step s).2 := by
  induction p generalizing s with
  | done a => rfl
  | call i next ih => exact ih _ _

@[simp] theorem issued_bind (p : Client ι ο α) (f : α → Client ι ο β) (s : σ) :
    (p >>= f).issued step s =
      p.issued step s ++ (f (p.run step s).1).issued step (p.run step s).2 := by
  induction p generalizing s with
  | done a => rfl
  | call i next ih => exact congrArg (i :: ·) (ih _ _)

theorem answers_append (is js : List ι) (s : σ) :
    answers step (is ++ js) s = ((answers step is s).1 ++ (answers step js (answers step is s).2).1,
      (answers step js (answers step is s).2).2) := by
  induction is generalizing s with
  | nil => rfl
  | cons i is ih => simp only [List.cons_append, answers, ih]

/-- A device that answers the program's calls alike is used alike. -/
theorem run_of_answers {step' : τ → ι → ο × τ} (p : Client ι ο α) (s : σ) (t : τ)
    (h : (answers step' (p.issued step s) t).1 = (answers step (p.issued step s) s).1) :
    p.run step' t = ((p.run step s).1, (answers step' (p.issued step s) t).2) ∧
      p.issued step' t = p.issued step s := by
  induction p generalizing s t with
  | done a => exact ⟨rfl, rfl⟩
  | call i next ih =>
    simp only [issued, answers, List.cons.injEq] at h
    obtain ⟨hfirst, hrest⟩ := h
    obtain ⟨hrun, hissued⟩ := ih _ _ _ hrest
    rw [← hfirst] at hrun hissued
    simp only [run, issued, answers, hfirst] at hrun hissued ⊢
    exact ⟨hrun, by rw [hissued]⟩

/-- A run ends in the state behind its calls. -/
theorem run_issued (p : Client ι ο α) (s : σ) :
    (p.run step s).2 = (answers step (p.issued step s) s).2 :=
  congrArg Prod.snd (run_of_answers p s s rfl).1

end Client

end SnakeOs.Lib
