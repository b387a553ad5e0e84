import SnakeOs.Lib.Files
import SnakeOs.Lib.Test

/-! Pathname expansion and the tests of files in a working directory. -/

namespace SnakeOs.Lib

/-- The names in a directory. -/
structure Directory where
  names : List Line
  nodup : names.Nodup
  named : [] ∉ names

def Directory.empty : Directory := ⟨[], List.nodup_nil, List.not_mem_nil⟩

def Directory.single (name : Line) (h : name ≠ []) : Directory :=
  ⟨[name], List.nodup_singleton name, by simpa using Ne.symm h⟩

/-- The names that fit a pattern, where `fits` is `fnmatch`. -/
def Directory.matching (d : Directory) (fits : Line → Line → Bool) (w : Line) : List Line :=
  d.names.filter (fits w)

/-- What the shell looks up for a word. -/
def Directory.files (d : Directory) (fits : Line → Line → Bool) : Line → List Line :=
  metaOnly (d.matching fits)

/-- What there is to say about files: which test a name stands when it is there, how two of
them are related, and what the operators say that look at no file. -/
structure FileKinds where
  kind : Line → Line → Bool
  related : Line → Line → Line → Bool
  rest : TestOps

/-- `stat` finds the name. A path with a slash leads out of the directory. -/
def Directory.present (d : Directory) (name : Line) : Bool :=
  name ∈ d.names ∨ '/' ∈ name ∨ name = ['.'] ∨ name = ['.', '.']

/-- What `[` says in a directory: no test of a file holds where the file is not there. -/
def Directory.tests (d : Directory) (k : FileKinds) : TestOps where
  unary op a :=
    if op ∈ testFileOps then some (d.present a && k.kind op a) else k.rest.unary op a
  binary op a b :=
    if op ∈ testFileOps then some (d.present a && d.present b && k.related op a b)
    else k.rest.binary op a b

/-- Only the operators on files look at the directory. -/
theorem Directory.tests_agree {words : List Line} (h : ∀ w ∈ words, w ∉ testFileOps)
    (d d' : Directory) (k : FileKinds) : Agree (d.tests k) (d'.tests k) words := by
  intro op ho
  constructor
  · funext a
    simp only [tests, if_neg (h op ho)]
  · funext a b
    simp only [tests, if_neg (h op ho)]

/-- A word that no name fits but the word itself. -/
def Fixed (fits : Line → Line → Bool) (w : Line) : Prop :=
  w.any (· ∈ metaChars) = true → ∀ name, name ≠ [] → fits w name = true → name = w

section
variable {fits : Line → Line → Bool} {w : Line}

theorem Directory.empty_files : Directory.empty.files fits w = [] := by
  rw [files, metaOnly]
  split <;> rfl

/-- A word without pattern characters. -/
theorem Fixed.of_plain (h : ∀ c ∈ w, c ∉ metaChars) : Fixed fits w := by
  intro hmeta
  have hplain : w.any (· ∈ metaChars) = false := by simpa using h
  rw [hplain] at hmeta
  cases hmeta

theorem Fixed.expand (h : Fixed fits w) (d : Directory) : expandWord (d.files fits) w = [w] := by
  unfold expandWord Directory.files metaOnly
  by_cases hmeta : w.any (· ∈ metaChars) = true
  · rw [if_pos hmeta]
    have hall : ∀ name ∈ d.matching fits w, name = w := fun name hn =>
      h hmeta name (fun he => d.named (he ▸ (List.mem_filter.mp hn).1)) (List.mem_filter.mp hn).2
    have hnodup : (d.matching fits w).Nodup := d.nodup.filter _
    rcases hnames : d.matching fits w with _ | ⟨x, _ | ⟨y, ys⟩⟩ <;> rw [hnames] at hall hnodup
    · rw [hall x List.mem_cons_self]
    · rw [hall x List.mem_cons_self, hall y (by simp)] at hnodup
      simp at hnodup
  · rw [if_neg hmeta]

/-- In a directory with one name every word stays or becomes that name. -/
theorem Directory.single_expand {name : Line} (h : name ≠ []) (w : Line) :
    expandWord ((Directory.single name h).files fits) w =
      [if w.any (· ∈ metaChars) = true ∧ fits w name = true then name else w] := by
  by_cases hmeta : w.any (· ∈ metaChars) = true <;> by_cases hfit : fits w name = true <;>
    simp [expandWord, files, metaOnly, matching, single, hmeta, hfit]

end

/-- The members of a set up to its end; a first `]` is a member. -/
def setMembers : Bool → Line → Option (List (Char × Char) × Line)
  | _, [] => none
  | first, c :: p =>
    if c = ']' ∧ !first then some ([], p)
    else match p with
      | '-' :: d :: q =>
        if d = ']' then (setMembers false ('-' :: d :: q)).map (Prod.map ((c, c) :: ·) id)
        else (setMembers false q).map (Prod.map ((c, d) :: ·) id)
      | p => (setMembers false p).map (Prod.map ((c, c) :: ·) id)

/-- `fnmatch` without character classes and escapes. -/
def fnmatch : Nat → Line → Line → Bool
  | 0, _, _ => false
  | _ + 1, [], name => name.isEmpty
  | fuel + 1, '*' :: p, name => name.tails.any (fnmatch fuel p)
  | _ + 1, _ :: _, [] => false
  | fuel + 1, c :: p, n :: name =>
    if c = '?' then fnmatch fuel p name
    else
      let negated := p.head? == some '!'
      match (if c = '[' then setMembers true (if negated then p.tail else p) else none) with
      | some (members, p) =>
        (members.any fun m => m.1 ≤ n && n ≤ m.2) != negated && fnmatch fuel p name
      | none => c == n && fnmatch fuel p name

/-- `fnmatch` on a whole pattern. -/
def fnmatchAll (pattern name : Line) : Bool := fnmatch (pattern.length + 1) pattern name

end SnakeOs.Lib
