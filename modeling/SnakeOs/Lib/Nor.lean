import Mathlib.Data.BitVec
import Mathlib.Tactic.Common

namespace SnakeOs.Lib

variable {w : Nat}

/-- A NOR flash array: erasing sets every bit of a range, programming clears bits. -/
abbrev Nor (w : Nat) := Nat → BitVec w

def Nor.erase (m : Nor w) (addr len : Nat) : Nor w := fun a =>
  if addr ≤ a ∧ a < addr + len then BitVec.allOnes w else m a

def Nor.program (m : Nor w) (addr len : Nat) (data : Nat → BitVec w) : Nor w := fun a =>
  if addr ≤ a ∧ a < addr + len then m a &&& data (a - addr) else m a

def Nor.read (m : Nor w) (addr len : Nat) : List (BitVec w) :=
  (List.range len).map fun i => m (addr + i)

@[simp] theorem Nor.erase_none (m : Nor w) (addr : Nat) : m.erase addr 0 = m := by
  funext a
  exact if_neg (by omega)

@[simp] theorem Nor.program_none (m : Nor w) (addr : Nat) (data : Nat → BitVec w) :
    m.program addr 0 data = m := by
  funext a
  exact if_neg (by omega)

/-- Two erases one behind the other are one. -/
theorem Nor.erase_append (m : Nor w) (addr n k : Nat) :
    (m.erase addr n).erase (addr + n) k = m.erase addr (n + k) := by
  funext a
  simp only [Nor.erase]
  split_ifs <;> first | rfl | omega

/-- A range programmed in two parts, each from its own place of the buffer. -/
theorem Nor.program_append (m : Nor w) (addr n k : Nat) (data : Nat → BitVec w) :
    (m.program addr n data).program (addr + n) k (fun i => data (n + i)) =
      m.program addr (n + k) data := by
  funext a
  simp only [Nor.program]
  by_cases hk : addr + n ≤ a ∧ a < addr + n + k
  · have hi : n + (a - (addr + n)) = a - addr := by omega
    rw [if_pos hk, if_neg (by omega), if_pos (by omega), hi]
  · rw [if_neg hk]
    by_cases hn : addr ≤ a ∧ a < addr + n
    · rw [if_pos hn, if_pos (by omega)]
    · rw [if_neg hn, if_neg (by omega)]

theorem Nor.erase_of_outside (m : Nor w) {addr len a : Nat} (h : ¬ (addr ≤ a ∧ a < addr + len)) :
    m.erase addr len a = m a := if_neg h

theorem Nor.program_of_outside (m : Nor w) {addr len a : Nat} (data : Nat → BitVec w)
    (h : ¬ (addr ≤ a ∧ a < addr + len)) : m.program addr len data a = m a := if_neg h

/-- Erased cells take whatever is programmed. -/
theorem Nor.program_erased (m : Nor w) {addr len a : Nat} (data : Nat → BitVec w)
    (ha : addr ≤ a ∧ a < addr + len) (he : m a = BitVec.allOnes w) :
    m.program addr len data a = data (a - addr) := by
  rw [Nor.program, if_pos ha, he, BitVec.allOnes_and]

theorem Nor.read_append (m : Nor w) (addr n k : Nat) :
    m.read addr (n + k) = m.read addr n ++ m.read (addr + n) k := by
  simp only [Nor.read, List.range_add, List.map_append, List.map_map, Function.comp_def,
    Nat.add_assoc]

/-- A range of the array as an array of its own. -/
def Nor.window (m : Nor w) (base size : Nat) : Nor w := fun a =>
  if a < size then m (base + a) else 0

theorem Nor.window_congr {m n : Nor w} {base size : Nat}
    (h : ∀ a, base ≤ a → a < base + size → m a = n a) : m.window base size = n.window base size := by
  funext a
  simp only [Nor.window]
  split
  · exact h _ (by omega) (by omega)
  · rfl

theorem Nor.read_window (m : Nor w) {base size addr len : Nat} (h : addr + len ≤ size) :
    m.read (addr + base) len = (m.window base size).read addr len := by
  refine List.map_congr_left fun i hi => ?_
  rw [List.mem_range] at hi
  rw [Nor.window, if_pos (by omega)]
  congr 1
  omega

theorem Nor.erase_window (m : Nor w) {base size addr len : Nat} (h : addr + len ≤ size) :
    (m.erase (addr + base) len).window base size = (m.window base size).erase addr len := by
  funext a
  simp only [Nor.window, Nor.erase]
  split_ifs <;> first | rfl | omega

theorem Nor.program_window (m : Nor w) {base size addr len : Nat} (data : Nat → BitVec w)
    (h : addr + len ≤ size) :
    (m.program (addr + base) len data).window base size =
      (m.window base size).program addr len data := by
  funext a
  simp only [Nor.window, Nor.program]
  by_cases ha : addr ≤ a ∧ a < addr + len
  · have hi : base + a - (addr + base) = a - addr := by omega
    rw [if_pos (by omega), if_pos (by omega), if_pos ha, hi, if_pos (by omega)]
  · rw [if_neg ha]
    split_ifs <;> first | rfl | omega

/-- The cells of a range replaced, as a memory that needs no erase would do it. -/
def Nor.overwrite (m : Nor w) (addr len : Nat) (data : Nat → BitVec w) : Nor w := fun a =>
  if addr ≤ a ∧ a < addr + len then data (a - addr) else m a

@[simp] theorem Nor.overwrite_none (m : Nor w) (addr : Nat) (data : Nat → BitVec w) :
    m.overwrite addr 0 data = m := by
  funext a
  exact if_neg (by omega)

/-- Erasing a range and programming it replaces its cells. -/
theorem Nor.erase_program (m : Nor w) (addr len : Nat) (data : Nat → BitVec w) :
    (m.erase addr len).program addr len data = m.overwrite addr len data := by
  funext a
  by_cases ha : addr ≤ a ∧ a < addr + len
  · have hone : m.erase addr len a = BitVec.allOnes w := if_pos ha
    rw [Nor.program_erased _ data ha hone, Nor.overwrite, if_pos ha]
  · rw [Nor.program_of_outside _ data ha, Nor.erase_of_outside m ha, Nor.overwrite, if_neg ha]

theorem Nor.overwrite_append (m : Nor w) (addr n k : Nat) (data : Nat → BitVec w) :
    (m.overwrite addr n data).overwrite (addr + n) k (fun i => data (n + i)) =
      m.overwrite addr (n + k) data := by
  funext a
  simp only [Nor.overwrite]
  by_cases hk : addr + n ≤ a ∧ a < addr + n + k
  · have hi : n + (a - (addr + n)) = a - addr := by omega
    rw [if_pos hk, if_pos (by omega), hi]
  · rw [if_neg hk]
    split_ifs <;> first | rfl | omega

theorem Nor.overwrite_congr (m : Nor w) {addr len : Nat} {data data' : Nat → BitVec w}
    (h : ∀ i < len, data i = data' i) : m.overwrite addr len data = m.overwrite addr len data' := by
  funext a
  simp only [Nor.overwrite]
  split
  · exact h _ (by omega)
  · rfl

theorem Nor.overwrite_self (m : Nor w) (addr len : Nat) :
    m.overwrite addr len (fun i => m (addr + i)) = m := by
  funext a
  simp only [Nor.overwrite]
  split
  · congr 1
    omega
  · rfl

/-- A part of an overwritten range is replaced in the data as well as in the cells. -/
theorem Nor.overwrite_inside (m : Nor w) {addr len off n : Nat} (data new : Nat → BitVec w)
    (h : off + n ≤ len) :
    m.overwrite addr len (fun i => if off ≤ i ∧ i < off + n then new (i - off) else data i) =
      (m.overwrite addr len data).overwrite (addr + off) n new := by
  funext a
  simp only [Nor.overwrite]
  by_cases ha : addr + off ≤ a ∧ a < addr + off + n
  · have hi : a - addr - off = a - (addr + off) := by omega
    rw [if_pos (by omega), if_pos (by omega), if_pos ha, hi]
  · rw [if_neg ha]
    split_ifs <;> first | rfl | omega

/-- Cells that agree read the same. -/
theorem Nor.read_congr {m n : Nor w} {addr len : Nat}
    (h : ∀ a, addr ≤ a → a < addr + len → m a = n a) : m.read addr len = n.read addr len := by
  refine List.map_congr_left fun i hi => ?_
  rw [List.mem_range] at hi
  exact h _ (by omega) (by omega)

end SnakeOs.Lib
