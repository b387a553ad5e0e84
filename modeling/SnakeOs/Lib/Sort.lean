import Mathlib.Data.List.Destutter
import Mathlib.Data.List.Sort

/-! Sorting by a key, with the lines themselves as the last resort, and the first of each key. -/

namespace SnakeOs.Lib

section
variable {α κ : Type} [LinearOrder α] [LinearOrder κ] (key : α → κ)

/-- `b` is printed after `a` in the reversed order: a smaller key, or a smaller line with the key. -/
def After (a b : α) : Prop := key b < key a ∨ key b = key a ∧ b ≤ a

instance : DecidableRel (After key) := fun _ _ => inferInstanceAs (Decidable (_ ∨ _))

/-- `sort -r` by a key. -/
def sortReverse (l : List α) : List α := l.insertionSort (After key)

/-- `sort -ur` by a key: of the lines with one key the first is left. -/
def sortUnique (l : List α) : List α := (sortReverse key l).destutter fun a b => key a ≠ key b

instance : Std.Total (After key) where
  total a b := by
    rcases lt_trichotomy (key a) (key b) with h | h | h
    · exact .inr (.inl h)
    · rcases le_total a b with hab | hba
      · exact .inr (.inr ⟨h, hab⟩)
      · exact .inl (.inr ⟨h.symm, hba⟩)
    · exact .inl (.inl h)

instance : IsTrans α (After key) where
  trans a b c := by
    rintro (hab | ⟨hab, hle⟩) (hbc | ⟨hbc, hle'⟩)
    · exact .inl (hbc.trans hab)
    · exact .inl (hbc ▸ hab)
    · exact .inl (hab ▸ hbc)
    · exact .inr ⟨hbc.trans hab, hle'.trans hle⟩

variable {key}

theorem After.key_le {a b : α} (h : After key a b) : key b ≤ key a := by
  rcases h with h | h
  · exact h.le
  · exact h.1.le

theorem After.le {a b : α} (h : After key a b) (hk : key b = key a) : b ≤ a := by
  rcases h with h | h
  · exact absurd hk h.ne
  · exact h.2

/-- What is left of a sorted list are the greatest lines of their keys. -/
theorem mem_destutter_iff {x a : α} {l : List α} (hs : (a :: l).Pairwise (After key)) :
    x ∈ l.destutter' (fun a b => key a ≠ key b) a ↔
      x ∈ a :: l ∧ ∀ y ∈ a :: l, key y = key x → y ≤ x := by
  induction l generalizing a with
  | nil =>
    simp only [List.destutter'_nil, List.mem_singleton]
    exact ⟨fun h => ⟨h, fun y hy _ => (hy.trans h.symm).le⟩, And.left⟩
  | cons b l ih =>
    obtain ⟨hhead, htail⟩ := List.pairwise_cons.mp hs
    by_cases hk : key a = key b
    · -- the second line goes, and it is below the first
      have hba : b ≤ a := (hhead b List.mem_cons_self).le hk.symm
      have hrest : (a :: l).Pairwise (After key) :=
        List.pairwise_cons.mpr ⟨fun y hy => hhead y (List.mem_cons_of_mem b hy),
          (List.pairwise_cons.mp htail).2⟩
      rw [List.destutter'_cons_neg _ (not_not.mpr hk), ih hrest]
      constructor
      · rintro ⟨hx, hmax⟩
        refine ⟨(List.mem_cons.mp hx).elim (· ▸ List.mem_cons_self) fun h => by simp [h], ?_⟩
        intro y hy hyx
        rcases List.mem_cons.mp hy with rfl | hy
        · exact hmax y List.mem_cons_self hyx
        · rcases List.mem_cons.mp hy with rfl | hy
          · exact hba.trans (hmax a List.mem_cons_self (hk.trans hyx))
          · exact hmax y (List.mem_cons_of_mem a hy) hyx
      · rintro ⟨hx, hmax⟩
        refine ⟨?_, fun y hy => hmax y ?_⟩
        · rcases List.mem_cons.mp hx with rfl | hx
          · exact List.mem_cons_self
          · rcases List.mem_cons.mp hx with rfl | hx
            · rw [le_antisymm hba (hmax a List.mem_cons_self hk)]
              exact List.mem_cons_self
            · exact List.mem_cons_of_mem a hx
        · rcases List.mem_cons.mp hy with rfl | hy
          · exact List.mem_cons_self
          · exact List.mem_cons_of_mem a (List.mem_cons_of_mem b hy)
    · -- the first line is alone with its key
      have hbelow : ∀ y ∈ b :: l, key y < key a := by
        intro y hy
        have hyb : key y ≤ key b := by
          rcases List.mem_cons.mp hy with rfl | hy
          · exact le_rfl
          · exact ((List.pairwise_cons.mp htail).1 y hy).key_le
        exact hyb.trans_lt ((hhead b List.mem_cons_self).key_le.lt_of_ne (Ne.symm hk))
      rw [List.destutter'_cons_pos _ hk, List.mem_cons, ih htail]
      constructor
      · rintro (rfl | ⟨hx, hmax⟩)
        · refine ⟨List.mem_cons_self, fun y hy hyx => ?_⟩
          rcases List.mem_cons.mp hy with rfl | hy
          · exact le_rfl
          · exact absurd hyx (hbelow y hy).ne
        · refine ⟨List.mem_cons_of_mem a hx, fun y hy hyx => ?_⟩
          rcases List.mem_cons.mp hy with rfl | hy
          · exact absurd hyx (hbelow x hx).ne'
          · exact hmax y hy hyx
      · rintro ⟨hx, hmax⟩
        exact (List.mem_cons.mp hx).imp id fun hx =>
          ⟨hx, fun y hy => hmax y (List.mem_cons_of_mem a hy)⟩

theorem mem_sortReverse {x : α} {l : List α} : x ∈ sortReverse key l ↔ x ∈ l :=
  List.mem_insertionSort _

/-- `sort -ur` leaves the greatest line of each key. -/
theorem mem_sortUnique {x : α} {l : List α} :
    x ∈ sortUnique key l ↔ x ∈ l ∧ ∀ y ∈ l, key y = key x → y ≤ x := by
  have hs : (sortReverse key l).Pairwise (After key) := List.pairwise_insertionSort _ l
  have hl (z : α) : z ∈ sortReverse key l ↔ z ∈ l := mem_sortReverse
  rw [← hl x]
  simp only [← hl]
  rw [sortUnique]
  cases hc : sortReverse key l with
  | nil => simp
  | cons a rest => exact mem_destutter_iff (hc ▸ hs)

end

end SnakeOs.Lib
