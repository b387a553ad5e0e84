import Mathlib.Algebra.Group.Nat.Defs

/-! Fields of a word, and words with bits that a one clears. -/

namespace SnakeOs.Lib

/-- Bit `i` is one of the `size` bits from `shift` on. -/
def InField (shift size i : Nat) : Prop := shift ≤ i ∧ i < shift + size

instance (shift size i : Nat) : Decidable (InField shift size i) :=
  inferInstanceAs (Decidable (_ ∧ _))

section
variable {w : Nat} (x mask val w1c : BitVec w)

/-- A word with the bits under the shifted mask replaced. -/
def mergeField (shift : Nat) : BitVec w := (x &&& ~~~(mask <<< shift)) ||| (val <<< shift)

/-- The bits under a mask that is shifted, moved down. -/
def extractField (shift : Nat) : BitVec w := (x >>> shift) &&& mask

/-- What is left of `x` after `val` is written over it, where a one clears a bit of `w1c`. -/
def writeOver : BitVec w := (x &&& w1c &&& ~~~val) ||| (val &&& ~~~w1c)

end

section
variable {w : Nat} {x mask val w1c : BitVec w} {size shift i : Nat}

theorem getLsbD_mask (hmask : mask.toNat = 2 ^ size - 1) : mask.getLsbD i = decide (i < size) := by
  rw [BitVec.getLsbD, hmask, Nat.testBit_two_pow_sub_one]

theorem getLsbD_small (hval : val.toNat < 2 ^ size) (hi : size ≤ i) : val.getLsbD i = false :=
  Nat.testBit_lt_two_pow (Nat.lt_of_lt_of_le hval (Nat.pow_le_pow_right Nat.two_pos hi))

/-- In the field the bits are those of the value, elsewhere they are as they were. -/
theorem getLsbD_mergeField (hmask : mask.toNat = 2 ^ size - 1) (hval : val.toNat < 2 ^ size)
    (hi : i < w) : (mergeField x mask val shift).getLsbD i =
      if InField shift size i then val.getLsbD (i - shift) else x.getLsbD i := by
  simp only [mergeField, BitVec.getLsbD_or, BitVec.getLsbD_and, BitVec.getLsbD_not,
    BitVec.getLsbD_shiftLeft, getLsbD_mask hmask, hi, decide_true, Bool.true_and]
  by_cases hlow : i < shift
  · simp [InField, hlow, Nat.not_le.mpr hlow]
  · by_cases hhigh : i - shift < size
    · have hin : InField shift size i := ⟨by omega, by omega⟩
      simp [hin, hlow, hhigh]
    · have hout : ¬ InField shift size i := fun hin => hhigh (by have := hin.2; omega)
      simp [hout, hlow, hhigh, getLsbD_small hval (Nat.not_lt.mp hhigh)]

theorem getLsbD_extractField (hmask : mask.toNat = 2 ^ size - 1) :
    (extractField x mask shift).getLsbD i = (x.getLsbD (shift + i) && decide (i < size)) := by
  simp only [extractField, BitVec.getLsbD_and, BitVec.getLsbD_ushiftRight, getLsbD_mask hmask]

theorem getLsbD_writeOver (hi : i < w) : (writeOver x val w1c).getLsbD i =
    if w1c.getLsbD i then x.getLsbD i && !val.getLsbD i else val.getLsbD i := by
  simp only [writeOver, BitVec.getLsbD_or, BitVec.getLsbD_and, BitVec.getLsbD_not, hi,
    decide_true, Bool.true_and]
  cases w1c.getLsbD i <;> simp

/-- Outside the field a word that is read, merged and written back loses the ones of `w1c`. -/
theorem writeOver_mergeField_outside (hmask : mask.toNat = 2 ^ size - 1)
    (hval : val.toNat < 2 ^ size) (hi : i < w) (hout : ¬ InField shift size i) :
    (writeOver x (mergeField x mask val shift) w1c).getLsbD i =
      (x.getLsbD i && !w1c.getLsbD i) := by
  rw [getLsbD_writeOver hi, getLsbD_mergeField hmask hval hi, if_neg hout]
  cases w1c.getLsbD i <;> simp

/-- A field of plain bits holds the value that was written to it. -/
theorem extractField_writeOver (hmask : mask.toNat = 2 ^ size - 1) (hval : val.toNat < 2 ^ size)
    (hfit : shift + size ≤ w) (hplain : ∀ i, InField shift size i → w1c.getLsbD i = false) :
    extractField (writeOver x (mergeField x mask val shift) w1c) mask shift = val := by
  apply BitVec.eq_of_getLsbD_eq
  intro j hj
  rw [getLsbD_extractField hmask]
  by_cases hsize : j < size
  · have hin : InField shift size (shift + j) := ⟨by omega, by omega⟩
    have hw : shift + j < w := by omega
    simp [getLsbD_writeOver hw, hplain _ hin, getLsbD_mergeField hmask hval hw, hin, hsize]
  · simp [hsize, getLsbD_small hval (Nat.not_lt.mp hsize)]

end

end SnakeOs.Lib
