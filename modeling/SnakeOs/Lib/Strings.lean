import Mathlib.Data.Nat.Digits.Lemmas

/-! Strings of C: `strsep`, numbers read in base 16 and printed with leading zeros. -/

namespace SnakeOs.Lib

/-- `strsep`: the part up to the first separator, and what is left, `none` being `NULL`. -/
def strsep (delims : List Char) : Option (List Char) → Option (List Char) × Option (List Char)
  | none => (none, none)
  | some cs =>
    (some (cs.takeWhile (· ∉ delims)), match cs.dropWhile (· ∉ delims) with
      | [] => none
      | _ :: rest => some rest)

/-- The value of a character for which `isxdigit` holds. -/
def xdigit (c : Char) : Option Nat :=
  if '0' ≤ c ∧ c ≤ '9' then some (c.toNat - '0'.toNat)
  else if 'a' ≤ c ∧ c ≤ 'f' then some (c.toNat - 'a'.toNat + 10)
  else if 'A' ≤ c ∧ c ≤ 'F' then some (c.toNat - 'A'.toNat + 10)
  else none

/-- The loop of `simple_strtoul` in base 16: the number and where it ends. -/
def strtoulLoop {w : Nat} (result : BitVec w) : List Char → BitVec w × List Char
  | [] => (result, [])
  | c :: cs =>
    match xdigit c with
    | some value => strtoulLoop (result * 16 + BitVec.ofNat w value) cs
    | none => (result, c :: cs)

/-- `simple_strtoul` in base 16, for an `unsigned long` of `w` bits. -/
def simpleStrtoul16 (w : Nat) (cp : List Char) : BitVec w × List Char :=
  match cp with
  | '0' :: x :: cs => if x = 'x' ∨ x = 'X' then strtoulLoop 0 cs else strtoulLoop 0 cp
  | _ => strtoulLoop 0 cp

/-- The last `k` digits of a number in base 16, which is `%0kx` of a number that has no more. -/
def hexDigits (k n : Nat) : List Char :=
  (List.range k).reverse.map fun i => Nat.digitChar (n / 16 ^ i % 16)

variable {w : Nat}

theorem strsep_token {delims token rest : List Char} {d : Char} (ht : ∀ c ∈ token, c ∉ delims)
    (hd : d ∈ delims) : strsep delims (some (token ++ d :: rest)) = (some token, some rest) := by
  have hall : ∀ c ∈ token, decide (c ∉ delims) = true := fun c hc => decide_eq_true (ht c hc)
  have hstop : ¬ decide (d ∉ delims) = true := by simpa using hd
  have htake : (d :: rest).takeWhile (· ∉ delims) = [] := List.takeWhile_cons_of_neg hstop
  have hdrop : (d :: rest).dropWhile (· ∉ delims) = d :: rest := List.dropWhile_cons_of_neg hstop
  rw [strsep, List.takeWhile_append_of_pos hall, List.dropWhile_append_of_pos hall, htake, hdrop,
    List.append_nil]

theorem xdigit_digitChar {n : Nat} (h : n < 16) : xdigit (Nat.digitChar n) = some n := by
  have hall : ∀ a : Fin 16, xdigit (Nat.digitChar a) = some a.val := by decide
  exact hall ⟨n, h⟩

theorem hexDigits_succ (k n : Nat) :
    hexDigits (k + 1) n = Nat.digitChar (n / 16 ^ k % 16) :: hexDigits k n := by
  rw [hexDigits, List.range_succ, List.reverse_append]
  rfl

theorem mem_hexDigits {k n : Nat} {c : Char} (h : c ∈ hexDigits k n) :
    ∃ d : Fin 16, c = Nat.digitChar d := by
  obtain ⟨i, _, rfl⟩ := List.mem_map.mp h
  exact ⟨⟨_, Nat.mod_lt _ (by decide)⟩, rfl⟩

/-- Reading the digits, from the first one on. -/
theorem strtoulLoop_hexDigits (k n acc : Nat) : strtoulLoop (BitVec.ofNat w acc) (hexDigits k n) =
    (BitVec.ofNat w (acc * 16 ^ k + n % 16 ^ k), []) := by
  induction k generalizing acc with
  | zero =>
    rw [pow_zero, Nat.mod_one, Nat.mul_one]
    rfl
  | succ k ih =>
    have hdigit := xdigit_digitChar (Nat.mod_lt (n / 16 ^ k) (show 16 > 0 by decide))
    have hnext : BitVec.ofNat w acc * 16 + BitVec.ofNat w (n / 16 ^ k % 16) =
        BitVec.ofNat w (acc * 16 + n / 16 ^ k % 16) := by
      rw [BitVec.ofNat_add, BitVec.ofNat_mul]
      rfl
    have hvalue : (acc * 16 + n / 16 ^ k % 16) * 16 ^ k + n % 16 ^ k =
        acc * 16 ^ (k + 1) + n % 16 ^ (k + 1) := by
      rw [Nat.mod_pow_succ, pow_succ]
      ring
    rw [hexDigits_succ, strtoulLoop, hdigit]
    simp only [hnext, ih, hvalue]

/-- A number printed with all its digits is read back. -/
theorem simpleStrtoul16_printed (k : Nat) (n : BitVec (4 * k)) :
    simpleStrtoul16 (4 * k) ('0' :: 'x' :: hexDigits k n.toNat) = (n, []) := by
  have hlt : n.toNat < 16 ^ k := by
    have h := n.isLt
    rwa [pow_mul] at h
  have hloop := strtoulLoop_hexDigits (w := 4 * k) k n.toNat 0
  rw [Nat.zero_mul, Nat.zero_add, Nat.mod_eq_of_lt hlt, BitVec.ofNat_toNat, BitVec.setWidth_eq]
    at hloop
  rw [simpleStrtoul16, if_pos (Or.inl rfl)]
  exact hloop

end SnakeOs.Lib
