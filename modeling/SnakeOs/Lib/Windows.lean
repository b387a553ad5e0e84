import Mathlib.Data.List.Basic

/-! Lookups in a table of windows, each from one range of numbers to another. -/

namespace SnakeOs.Lib

/-- `size` numbers from `src` on stand for as many from `dst` on. -/
structure Window where
  src : Nat
  dst : Nat
  size : Nat
deriving DecidableEq

def Window.flip (w : Window) : Window := ⟨w.dst, w.src, w.size⟩

def Window.Covers (w : Window) (a : Nat) : Prop := w.src ≤ a ∧ a < w.src + w.size

instance (w : Window) (a : Nat) : Decidable (w.Covers a) := inferInstanceAs (Decidable (_ ∧ _))

def Window.map (w : Window) (a : Nat) : Nat := w.dst + (a - w.src)

/-- The first window decides. -/
def translate (ws : List Window) (a : Nat) : Option Nat := (ws.find? (·.Covers a)).map (·.map a)

/-- No number is in two of the ranges that are mapped to. -/
def KeptApart (ws : List Window) : Prop :=
  ∀ v ∈ ws, ∀ w ∈ ws, v = w ∨ v.dst + v.size ≤ w.dst ∨ w.dst + w.size ≤ v.dst

instance (ws : List Window) : Decidable (KeptApart ws) := inferInstanceAs (Decidable (∀ _ ∈ _, _))

section
variable {ws : List Window} {w : Window} {a b : Nat}

theorem Window.map_covers (h : w.Covers a) : w.flip.Covers (w.map a) ∧ w.flip.map (w.map a) = a := by
  obtain ⟨hlow, hhigh⟩ := h
  simp only [Covers, map, flip]
  omega

theorem translate_eq_none : translate ws a = none ↔ ∀ w ∈ ws, ¬ w.Covers a := by
  simp [translate]

theorem translate_some (h : translate ws a = some b) : ∃ w ∈ ws, w.Covers a ∧ b = w.map a := by
  obtain ⟨w, hw, rfl⟩ := Option.map_eq_some_iff.mp h
  exact ⟨w, List.mem_of_find?_eq_some hw, by simpa using List.find?_some hw, rfl⟩

/-- A search through entries that stand for windows is a translation. -/
theorem find?_translate {α : Type} {f : α → Window} {p : α → Bool} {l : List α}
    (h : ∀ m ∈ l, p m = decide ((f m).Covers a)) :
    (l.find? p).map (fun m => (f m).map a) = translate (l.map f) a := by
  induction l with
  | nil => rfl
  | cons m l ih =>
    have ih' := ih fun m' hm => h m' (List.mem_cons_of_mem m hm)
    have hm := h m List.mem_cons_self
    by_cases hc : (f m).Covers a
    · simp [translate, hm, hc]
    · simpa [translate, List.find?_cons_of_neg, hm, hc] using ih'

/-- Where the ranges that are mapped to are apart, the way back finds the same window. -/
theorem translate_back (hapart : KeptApart ws) (hw : w ∈ ws) (hcovers : w.Covers a) :
    translate (ws.map Window.flip) (w.map a) = some a := by
  obtain ⟨hback, hmap⟩ := Window.map_covers hcovers
  have hfind : (ws.map Window.flip).find? (·.Covers (w.map a)) = some w.flip := by
    cases hf : (ws.map Window.flip).find? (·.Covers (w.map a)) with
    | none =>
      have hnot := List.find?_eq_none.mp hf w.flip (List.mem_map_of_mem hw)
      exact absurd hback (by simpa using hnot)
    | some v =>
      obtain ⟨v, hv, rfl⟩ := List.mem_map.mp (List.mem_of_find?_eq_some hf)
      have hv' : v.flip.Covers (w.map a) := by simpa using List.find?_some hf
      rcases hapart v hv w hw with rfl | h
      · rfl
      · simp only [Window.Covers, Window.flip] at hback hv'
        omega
  rw [translate, hfind, Option.map_some, hmap]

end

end SnakeOs.Lib
