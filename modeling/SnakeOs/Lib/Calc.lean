import SnakeOs.Lib.Text

/-! The desk calculator `dc` as far as numbers, `i` and `p` go, and `awk` with a `%c` of the
whole line. -/

namespace SnakeOs.Lib

/-- `sed 's/../& /g'` -/
def sedPairs : Line → Line
  | a :: b :: rest => a :: b :: ' ' :: sedPairs rest
  | rest => rest

/-- The characters from `a` to `b`, as `tr` expands `a-b`. -/
def charRange (a b : Char) : Line :=
  (List.range (b.toNat + 1 - a.toNat)).map fun i => Char.ofNat (a.toNat + i)

/-- `tr set1 set2` of one character, `set2` going on with its last character. -/
def trChar (set1 set2 : Line) (c : Char) : Char :=
  match set1.idxOf? c with
  | some i => set2.getD i (set2.getLastD c)
  | none => c

/-- The calculator: the number being typed, the input radix, the stack, and what was printed. -/
structure Dc where
  number : Option Nat
  ibase : Nat
  stack : List Nat
  out : List Nat
  deriving DecidableEq, Repr

def Dc.init : Dc := ⟨none, 10, [], []⟩

def dcDigit (c : Char) : Option Nat :=
  if c.isDigit then some (c.toNat - 48)
  else if 65 ≤ c.toNat ∧ c.toNat ≤ 70 then some (c.toNat - 55)
  else none

/-- The number typed so far is pushed. -/
def Dc.enter (d : Dc) : Dc :=
  match d.number with
  | some n => { d with number := none, stack := n :: d.stack }
  | none => d

/-- `i` takes the top as the input radix if it is one, `p` prints the top and leaves it. -/
def Dc.command (d : Dc) (c : Char) : Dc :=
  if c = 'i' then
    match d.stack with
    | n :: stack => if 2 ≤ n ∧ n ≤ 16 then { d with ibase := n, stack } else { d with stack }
    | [] => d
  else if c = 'p' then
    match d.stack with
    | n :: _ => { d with out := d.out ++ [n] }
    | [] => d
  else d

def Dc.step (d : Dc) (c : Char) : Dc :=
  match dcDigit c with
  | some n => { d with number := some (d.number.getD 0 * d.ibase + n) }
  | none => d.enter.command c

def Dc.run (d : Dc) (line : Line) : Dc := line.foldl Dc.step d

/-- What `dc` prints for a line of commands, each number on a line in radix 10. -/
def dc (line : Line) : List Line := (Dc.init.run line).out.map (Nat.toDigits 10)

/-- `LC_ALL=C awk '{printf("%c",$0)}'`: the character a number stands for, else the first. -/
def awkChar (line : Line) : List UInt8 :=
  if line ≠ [] ∧ line.all Char.isDigit then [UInt8.ofNat (Nat.ofDigitChars 10 line 0)]
  else (line.take 1).map fun c => UInt8.ofNat c.toNat

theorem Dc.run_append (d : Dc) (xs ys : Line) : d.run (xs ++ ys) = (d.run xs).run ys :=
  List.foldl_append

theorem Dc.run_cons (d : Dc) (c : Char) (line : Line) : d.run (c :: line) = (d.step c).run line :=
  rfl

@[simp] theorem Dc.run_nil (d : Dc) : d.run [] = d := rfl

theorem Dc.step_digit (d : Dc) {c : Char} {n : Nat} (h : dcDigit c = some n) :
    d.step c = { d with number := some (d.number.getD 0 * d.ibase + n) } := by
  simp only [Dc.step, h]

theorem Dc.step_blank (d : Dc) : d.step ' ' = d.enter := rfl

/-- What `p` prints stays on the stack. -/
theorem Dc.step_print (ibase n : Nat) (stack out : List Nat) :
    Dc.step ⟨none, ibase, n :: stack, out⟩ 'p' = ⟨none, ibase, n :: stack, out ++ [n]⟩ := rfl

/-- A number of two digits, printed. -/
theorem Dc.run_number {x y : Char} {a b : Nat} (hx : dcDigit x = some a) (hy : dcDigit y = some b)
    (ibase : Nat) (stack out : List Nat) :
    Dc.run ⟨none, ibase, stack, out⟩ [x, y, ' ', 'p', ' '] =
      ⟨none, ibase, (a * ibase + b) :: stack, out ++ [a * ibase + b]⟩ := by
  rw [Dc.run_cons, Dc.step_digit _ hx, Dc.run_cons, Dc.step_digit _ hy]
  simp only [Option.getD_none, Option.getD_some, Nat.zero_mul, Nat.zero_add]
  rw [Dc.run_cons, Dc.step_blank, Dc.enter, Dc.run_cons, Dc.step_print, Dc.run_cons, Dc.step_blank,
    Dc.enter, Dc.run_nil]

/-- The printed decimal of a byte is the byte again. -/
theorem awkChar_toDigits (b : UInt8) : awkChar (Nat.toDigits 10 b.toNat) = [b] := by
  have hdigits : (Nat.toDigits 10 b.toNat).all Char.isDigit = true :=
    List.all_eq_true.mpr fun c hc => Nat.isDigit_of_mem_toDigits (by decide) (by decide) hc
  rw [awkChar, if_pos ⟨Nat.toDigits_ne_nil, hdigits⟩,
    Nat.ofDigitChars_toDigits (by decide) (by decide), UInt8.ofNat_toNat]

theorem sedPairs_flatMap {α : Type} (f : α → Line) (hf : ∀ a, ∃ x y, f a = [x, y]) (as : List α) :
    sedPairs (as.flatMap f) = as.flatMap fun a => f a ++ [' '] := by
  induction as with
  | nil => rfl
  | cons a as ih =>
    obtain ⟨x, y, hxy⟩ := hf a
    simp only [List.flatMap_cons, hxy, List.cons_append, List.nil_append, sedPairs, ih]

end SnakeOs.Lib
