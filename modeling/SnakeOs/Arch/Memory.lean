import Mathlib.Algebra.Group.Nat.Defs
import Mathlib.Logic.Function.Basic

namespace SnakeOs.Arch

abbrev U8 := BitVec 8
abbrev U32 := BitVec 32

def pageOffset : U32 := 0xC0000000

/-- The kernel's linear mapping of the DRAM. -/
def virtToPhys (x : U32) : U32 := x - pageOffset

theorem bit_iff (b : BitVec 1) :
    (b.getLsbD 0 = true ↔ b = 1) ∧ (b.getLsbD 0 = false ↔ b = 0) := by
  rcases BitVec.eq_zero_or_eq_one b with rfl | rfl <;> decide

/-- A size in the 12 bits of a descriptor, counted in units of `2 ^ k` bytes. -/
theorem sizeField_toNat (x : U32) (k : Nat) {w : Nat} (hw : 12 ≤ w) :
    (((x >>> k) &&& 0xFFF).setWidth w).toNat = x.toNat / 2 ^ k % 2 ^ 12 := by
  have hmask : (0xFFF : U32).toNat = 2 ^ 12 - 1 := rfl
  have hfits : x.toNat / 2 ^ k % 2 ^ 12 < 2 ^ w :=
    Nat.lt_of_lt_of_le (Nat.mod_lt _ (Nat.two_pow_pos 12)) (Nat.pow_le_pow_right Nat.two_pos hw)
  rw [BitVec.toNat_setWidth, BitVec.toNat_and, BitVec.toNat_ushiftRight, hmask,
    Nat.and_two_pow_sub_one_eq_mod, Nat.shiftRight_eq_div_pow, Nat.mod_eq_of_lt hfits]

end SnakeOs.Arch
