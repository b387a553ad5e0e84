import Mathlib.Data.List.Forall2
import Mathlib.Data.List.Infix
import SnakeOs.Lib.Text

/-! Basic regular expressions as `grep` reads them. Bracket expressions, groups,
intervals and the other backslash operators are not read. -/

namespace SnakeOs.Lib

/-- What one place of a pattern matches. -/
inductive Atom
  | char (c : Char)
  | any
deriving DecidableEq

def Atom.admits : Atom → Char → Bool
  | .char c, d => c == d
  | .any, _ => true

structure Item where
  atom : Atom
  star : Bool
deriving DecidableEq

/-- A pattern read from its end: `star` says that a `*` stands in front of what is read. -/
structure Pattern where
  star : Bool
  items : List Item
  stop : Bool
deriving DecidableEq

def Pattern.push (a : Atom) (p : Pattern) : Pattern := ⟨false, ⟨a, p.star⟩ :: p.items, p.stop⟩

/-- The characters that may follow a backslash as themselves. -/
def escapable (c : Char) : Bool := c ∈ ['.', '*', '[', ']', '^', '$', '\\', '/', '-', '#']

/-- A `*` at the start of the pattern stands for itself. -/
def parsePattern (first : Bool) : Line → Option Pattern
  | [] => some ⟨false, [], false⟩
  | c :: rest =>
    if c = '$' ∧ rest = [] then some ⟨false, [], true⟩
    else if c = '[' then none
    else if c = '\\' then
      match rest with
      | [] => none
      | d :: rest =>
        if escapable d then (parsePattern false rest).map (.push (.char d)) else none
    else if c = '*' ∧ first = false then
      (parsePattern false rest).map fun p => { p with star := true }
    else (parsePattern false rest).map (.push (if c = '.' then .any else .char c))

/-- Any number of characters the atom admits, then the rest of the pattern. -/
def matchStar (a : Atom) (k : Line → Bool) : Line → Bool
  | [] => k []
  | c :: cs => k (c :: cs) || (a.admits c && matchStar a k cs)

def matchItems (stop : Bool) : List Item → Line → Bool
  | [], line => !stop || line.isEmpty
  | ⟨a, true⟩ :: items, line => matchStar a (matchItems stop items) line
  | ⟨_, false⟩ :: _, [] => false
  | ⟨a, false⟩ :: items, c :: cs => a.admits c && matchItems stop items cs

def matchAnywhere (k : Line → Bool) : Line → Bool
  | [] => k []
  | c :: cs => k (c :: cs) || matchAnywhere k cs

/-- `grep pat` on one line. -/
def grep (pat line : Line) : Bool :=
  match pat with
  | '^' :: rest => match parsePattern true rest with
    | some p => matchItems p.stop p.items line
    | none => false
  | _ => match parsePattern true pat with
    | some p => matchAnywhere (matchItems p.stop p.items) line
    | none => false

/-- Characters that stand for themselves everywhere in a pattern. -/
def Plain (c : Char) : Prop := c ∉ ['.', '*', '[', '^', '$', '\\']

instance (c : Char) : Decidable (Plain c) := inferInstanceAs (Decidable (¬ _))

theorem parsePattern_plain {c : Char} (hc : Plain c) (first : Bool) (rest : Line) :
    parsePattern first (c :: rest) = (parsePattern false rest).map (.push (.char c)) := by
  simp only [Plain, List.mem_cons, not_or, List.not_mem_nil, not_false_iff, and_true] at hc
  obtain ⟨hany, hstar, hset, -, hstop, hesc⟩ := hc
  rw [parsePattern.eq_def]
  simp [hany, hstar, hset, hstop, hesc]

/-- Characters that stand for themselves where more of the pattern follows. -/
def Inner (c : Char) : Prop := c ∉ ['.', '*', '[', '\\']

instance (c : Char) : Decidable (Inner c) := inferInstanceAs (Decidable (¬ _))

theorem Plain.inner {c : Char} (h : Plain c) : Inner c := by
  have hs : ['.', '*', '[', '\\'] ⊆ ['.', '*', '[', '^', '$', '\\'] := by decide
  exact fun hc => h (hs hc)

theorem parsePattern_inner {c : Char} (hc : Inner c) (first : Bool) {rest : Line} (hr : rest ≠ []) :
    parsePattern first (c :: rest) = (parsePattern false rest).map (.push (.char c)) := by
  simp only [Inner, List.mem_cons, not_or, List.not_mem_nil, not_false_iff, and_true] at hc
  obtain ⟨hany, hstar, hset, hesc⟩ := hc
  rw [parsePattern.eq_def]
  simp [hany, hstar, hset, hr, hesc]

theorem parsePattern_escape {c : Char} (hc : escapable c = true) (first : Bool) (rest : Line) :
    parsePattern first ('\\' :: c :: rest) =
      (parsePattern false rest).map (.push (.char c)) := by
  simp [parsePattern, hc]

theorem parsePattern_star (rest : Line) : parsePattern false ('*' :: rest) =
    (parsePattern false rest).map fun p => { p with star := true } := by
  rw [parsePattern.eq_def]
  simp

/-- The items of a word of plain characters. -/
def literals (w : Line) : List Item := w.map fun c => ⟨.char c, false⟩

/-- A word of plain characters in front of a pattern that does not start with a `*`. -/
theorem parsePattern_word {w : Line} (hw : ∀ c ∈ w, Plain c) {rest : Line}
    {items : List Item} {stop : Bool} (hp : parsePattern false rest = some ⟨false, items, stop⟩) :
    parsePattern false (w ++ rest) = some ⟨false, literals w ++ items, stop⟩ := by
  induction w with
  | nil => exact hp
  | cons c w ih =>
    rw [List.cons_append, parsePattern_plain (hw c List.mem_cons_self),
      ih fun d hd => hw d (List.mem_cons_of_mem _ hd)]
    simp [Pattern.push, literals]

/-- A word in front of the rest of a pattern. -/
theorem parsePattern_inners {w : Line} (hw : ∀ c ∈ w, Inner c) {rest : Line} (hr : rest ≠ [])
    {items : List Item} {stop : Bool} (hp : parsePattern false rest = some ⟨false, items, stop⟩) :
    parsePattern false (w ++ rest) = some ⟨false, literals w ++ items, stop⟩ := by
  induction w with
  | nil => exact hp
  | cons c w ih =>
    rw [List.cons_append, parsePattern_inner (hw c List.mem_cons_self) false (by simp [hr]),
      ih fun d hd => hw d (List.mem_cons_of_mem _ hd)]
    simp [Pattern.push, literals]

theorem matchItems_literals (stop : Bool) (w : Line) (items : List Item) (line : Line) :
    matchItems stop (literals w ++ items) line = true ↔
      ∃ rest, line = w ++ rest ∧ matchItems stop items rest = true := by
  induction w generalizing line with
  | nil => simp [literals]
  | cons c w ih =>
    cases line with
    | nil => simp [literals, matchItems]
    | cons d line =>
      simp only [literals] at ih
      simp only [literals, List.map_cons, List.cons_append, matchItems, Atom.admits,
        Bool.and_eq_true, beq_iff_eq, ih, List.cons.injEq]
      constructor
      · rintro ⟨rfl, rest, rfl, hr⟩
        exact ⟨rest, ⟨rfl, rfl⟩, hr⟩
      · rintro ⟨rest, ⟨rfl, rfl⟩, hr⟩
        exact ⟨rfl, rest, rfl, hr⟩

theorem matchAnywhere_iff (k : Line → Bool) (line : Line) :
    matchAnywhere k line = true ↔ ∃ a b, line = a ++ b ∧ k b = true := by
  induction line with
  | nil => simp [matchAnywhere]
  | cons c line ih =>
    rw [matchAnywhere, Bool.or_eq_true, ih]
    constructor
    · rintro (h | ⟨a, b, rfl, h⟩)
      · exact ⟨[], c :: line, rfl, h⟩
      · exact ⟨c :: a, b, rfl, h⟩
    · rintro ⟨a, b, he, h⟩
      cases a with
      | nil => exact .inl (he ▸ h)
      | cons d a => exact .inr ⟨a, b, (List.cons.inj he).2, h⟩

/-- `.*` skips any number of characters. -/
theorem matchStar_any_eq (k : Line → Bool) (line : Line) :
    matchStar .any k line = matchAnywhere k line := by
  induction line with
  | nil => rfl
  | cons c line ih => simp [matchStar, matchAnywhere, Atom.admits, ih]

theorem grep_anywhere {pat : Line} {p : Pattern} (hs : pat.head? ≠ some '^')
    (hp : parsePattern true pat = some p) (line : Line) :
    grep pat line = true ↔ ∃ a b, line = a ++ b ∧ matchItems p.stop p.items b = true := by
  rw [← matchAnywhere_iff]
  cases pat with
  | nil => simp only [grep, hp]
  | cons c pat =>
    have hc : c ≠ '^' := fun h => hs (by simp [h])
    simp only [grep, hp]
    split
    · rename_i heq
      exact absurd (List.cons.inj heq).1 hc
    · rfl

/-- A pattern that is read as a word finds it where it stands. -/
theorem grep_literals {pat w : Line} (hs : pat.head? ≠ some '^')
    (hp : parsePattern true pat = some ⟨false, literals w, false⟩) (line : Line) :
    grep pat line = true ↔ w <:+: line := by
  have hm (b : Line) : matchItems false (literals w) b = true ↔ ∃ rest, b = w ++ rest := by
    simpa [matchItems] using matchItems_literals false w [] b
  simp only [grep_anywhere hs hp, hm]
  constructor
  · rintro ⟨a, _, rfl, rest, rfl⟩
    exact ⟨a, rest, by rw [List.append_assoc]⟩
  · rintro ⟨a, rest, rfl⟩
    exact ⟨a, w ++ rest, by rw [List.append_assoc], rest, rfl⟩

theorem Plain.not_start {c : Char} (hc : Plain c) (rest : Line) :
    (c :: rest).head? ≠ some '^' := fun h => hc (by simp [Option.some.inj h])

theorem grep_word {c : Char} {w : Line} (hc : Plain c) (hw : ∀ d ∈ w, Plain d) (line : Line) :
    grep (c :: w) line = true ↔ c :: w <:+: line := by
  refine grep_literals (hc.not_start w) ?_ line
  have hp : parsePattern false (w ++ []) = some ⟨false, literals w ++ [], false⟩ :=
    parsePattern_word hw rfl
  rw [List.append_nil, List.append_nil] at hp
  rw [parsePattern_plain hc, hp]
  simp [Pattern.push, literals]

/-- `^w` asks for the start of the line, and so does `^w.*`. -/
theorem grep_start {w : Line} (hw : ∀ c ∈ w, Plain c) (hne : w ≠ []) (line : Line) :
    (grep ('^' :: w) line = true ↔ w <+: line) ∧
      (grep ('^' :: (w ++ ['.', '*'])) line = true ↔ w <+: line) := by
  obtain ⟨c, w, rfl⟩ := List.exists_cons_of_ne_nil hne
  have hc : Plain c := hw c List.mem_cons_self
  have hw' : ∀ d ∈ w, Plain d := fun d hd => hw d (List.mem_cons_of_mem c hd)
  have hpre (items : List Item) (hall : ∀ rest, matchItems false items rest = true) :
      matchItems false (literals (c :: w) ++ items) line = true ↔ c :: w <+: line := by
    rw [matchItems_literals]
    exact ⟨fun ⟨rest, he, _⟩ => ⟨rest, he.symm⟩, fun ⟨rest, he⟩ => ⟨rest, he.symm, hall rest⟩⟩
  constructor
  · have hp : parsePattern false (w ++ []) = some ⟨false, literals w ++ [], false⟩ :=
      parsePattern_word hw' rfl
    rw [List.append_nil, List.append_nil] at hp
    rw [grep, parsePattern_plain hc, hp, ← hpre [] fun rest => rfl]
    simp [Pattern.push, literals]
  · have hp : parsePattern false (w ++ ['.', '*']) =
        some ⟨false, literals w ++ [⟨.any, true⟩], false⟩ := parsePattern_word hw' (by decide)
    have hall (rest : Line) : matchItems false [⟨.any, true⟩] rest = true := by
      rw [matchItems, matchStar_any_eq, matchAnywhere_iff]
      exact ⟨[], rest, rfl, rfl⟩
    rw [grep, List.cons_append, parsePattern_plain hc, hp, ← hpre _ hall]
    simp [Pattern.push, literals]

/-- `.*w$` asks for the end of the line. -/
theorem grep_ending {w : Line} (hw : ∀ c ∈ w, Inner c) (line : Line) :
    grep ('.' :: '*' :: (w ++ ['$'])) line = true ↔ w <:+ line := by
  have hp : parsePattern false (w ++ ['$']) = some ⟨false, literals w ++ [], true⟩ :=
    parsePattern_inners hw (List.cons_ne_nil _ _) rfl
  have hpat : parsePattern true ('.' :: '*' :: (w ++ ['$'])) =
      some ⟨false, ⟨.any, true⟩ :: literals w, true⟩ := by
    simp [parsePattern, parsePattern_star, hp, Pattern.push]
  have hm (b : Line) : matchItems true (literals w) b = true ↔ b = w := by
    simpa [matchItems] using matchItems_literals true w [] b
  rw [grep_anywhere (by simp) hpat]
  simp only [matchItems, matchStar_any_eq, matchAnywhere_iff, hm]
  constructor
  · rintro ⟨a, _, rfl, b, _, rfl, rfl⟩
    exact ⟨a ++ b, by rw [List.append_assoc]⟩
  · rintro ⟨a, rfl⟩
    exact ⟨[], a ++ w, rfl, a, w, rfl, rfl⟩

/-- `^$` asks for an empty line. -/
theorem grep_empty (line : Line) : grep ['^', '$'] line = true ↔ line = [] := by
  cases line <;> simp [grep, parsePattern, matchItems]

/-- The start of a line that a row of character classes matches. -/
def matchClasses : List (Char → Bool) → Line → Option Line
  | [], _ => some []
  | _ :: _, [] => none
  | p :: ps, c :: cs => if p c then (matchClasses ps cs).map (c :: ·) else none

theorem matchClasses_eq_some {ps : List (Char → Bool)} {line w : Line} :
    matchClasses ps line = some w ↔
      List.Forall₂ (fun p c => p c = true) ps w ∧ w <+: line := by
  induction ps generalizing line w with
  | nil =>
    simp only [matchClasses, Option.some.injEq, List.forall₂_nil_left_iff]
    exact ⟨fun h => h ▸ ⟨rfl, List.nil_prefix⟩, fun h => h.1.symm⟩
  | cons p ps ih =>
    cases line with
    | nil =>
      simp only [matchClasses, List.prefix_nil]
      constructor
      · exact nofun
      · rintro ⟨h, rfl⟩
        cases h
    | cons c cs =>
      by_cases hp : p c = true
      · simp only [matchClasses, if_pos hp, Option.map_eq_some_iff, ih]
        constructor
        · rintro ⟨v, ⟨hv, hpre⟩, rfl⟩
          exact ⟨.cons hp hv, List.cons_prefix_cons.mpr ⟨rfl, hpre⟩⟩
        · rintro ⟨hv, hpre⟩
          cases hv with
          | cons hd htl =>
            obtain ⟨rfl, hrest⟩ := List.cons_prefix_cons.mp hpre
            exact ⟨_, ⟨htl, hrest⟩, rfl⟩
      · rw [matchClasses, if_neg hp]
        constructor
        · exact nofun
        · rintro ⟨hv, hpre⟩
          cases hv with
          | cons hd htl =>
            obtain ⟨rfl, -⟩ := List.cons_prefix_cons.mp hpre
            exact absurd hd hp

/-- A word in front of the classes stands for itself. -/
theorem forall₂_word {w v : Line} {ps : List (Char → Bool)} :
    List.Forall₂ (fun p c => p c = true) (w.map (fun c d => c == d) ++ ps) v ↔
      ∃ u, v = w ++ u ∧ List.Forall₂ (fun p c => p c = true) ps u := by
  induction w generalizing v with
  | nil => simp
  | cons c w ih =>
    simp only [List.map_cons, List.cons_append, List.forall₂_cons_left_iff, ih, beq_iff_eq]
    constructor
    · rintro ⟨d, _, rfl, ⟨u, rfl, hu⟩, rfl⟩
      exact ⟨u, rfl, hu⟩
    · rintro ⟨u, rfl, hu⟩
      exact ⟨c, w ++ u, rfl, ⟨u, rfl, hu⟩, rfl⟩

/-- What a character of a pattern matches when only `.` is special. -/
def dotClass (c : Char) : Char → Bool := if c = '.' then fun _ => true else (· == c)

/-- The line starts with the word, where a `.` of the word stands for any character. -/
def startsDotted (w line : Line) : Bool := (matchClasses (w.map dotClass) line).isSome

/-- The items of a word in which only `.` is special. -/
def dottedItems (w : Line) : List Item :=
  w.map fun c => ⟨if c = '.' then .any else .char c, false⟩

/-- Such a word in front of a pattern that does not start with a `*`. -/
theorem parsePattern_dotted {w : Line} (hw : ∀ c ∈ w, Plain c ∨ c = '.') {rest : Line}
    {items : List Item} {stop : Bool}
    (hp : ∀ first, parsePattern first rest = some ⟨false, items, stop⟩) (first : Bool) :
    parsePattern first (w ++ rest) = some ⟨false, dottedItems w ++ items, stop⟩ := by
  induction w generalizing first with
  | nil => exact hp first
  | cons c w ih =>
    have ih' := ih (fun d hd => hw d (List.mem_cons_of_mem c hd)) false
    rw [List.cons_append]
    rcases hw c List.mem_cons_self with hc | rfl
    · have hdot : c ≠ '.' := fun h => by simp [Plain, h] at hc
      rw [parsePattern_plain hc, ih']
      simp [Pattern.push, dottedItems, hdot]
    · rw [parsePattern.eq_def]
      simp [ih', Pattern.push, dottedItems]

theorem parsePattern_dotted_all {w : Line} (hw : ∀ c ∈ w, Plain c ∨ c = '.') (first : Bool) :
    parsePattern first w = some ⟨false, dottedItems w, false⟩ := by
  have hempty : ∀ first, parsePattern first [] = some ⟨false, [], false⟩ := fun _ => rfl
  have hp := parsePattern_dotted hw hempty first
  rwa [List.append_nil, List.append_nil] at hp

theorem startsDotted_cons (c d : Char) (w line : Line) :
    startsDotted (c :: w) (d :: line) = (dotClass c d && startsDotted w line) := by
  simp only [startsDotted, List.map_cons, matchClasses]
  split
  · rename_i h
    rw [h, Option.isSome_map, Bool.true_and]
  · rename_i h
    rw [Bool.eq_false_iff.mpr h, Bool.false_and]
    rfl

theorem admits_dotted (c d : Char) :
    (if c = '.' then Atom.any else .char c).admits d = dotClass c d := by
  by_cases hc : c = '.'
  · simp [hc, Atom.admits, dotClass]
  · rw [if_neg hc, dotClass, if_neg hc, Atom.admits]
    exact Bool.beq_comm

theorem matchItems_dotted (w line : Line) :
    matchItems false (dottedItems w) line = startsDotted w line := by
  induction w generalizing line with
  | nil => cases line <;> rfl
  | cons c w ih =>
    cases line with
    | nil => rfl
    | cons d line =>
      rw [startsDotted_cons, ← ih line, ← admits_dotted]
      rfl

/-- `^w`, where only `.` is special. -/
theorem grep_dotted {w : Line} (hw : ∀ c ∈ w, Plain c ∨ c = '.') (line : Line) :
    grep ('^' :: w) line = startsDotted w line := by
  rw [grep, parsePattern_dotted_all hw true]
  exact matchItems_dotted w line

theorem prefix_startsDotted {w line : Line} (h : w <+: line) : startsDotted w line = true := by
  refine Option.isSome_iff_exists.mpr ⟨w, matchClasses_eq_some.mpr ⟨?_, h⟩⟩
  rw [List.forall₂_map_left_iff]
  exact List.forall₂_same.mpr fun c _ => by
    simp only [dotClass]
    split <;> simp

/-- Without a `.` the word starts the line. -/
theorem startsDotted_plain {w line : Line} (hw : '.' ∉ w) :
    startsDotted w line = true ↔ w <+: line := by
  refine ⟨fun h => ?_, prefix_startsDotted⟩
  obtain ⟨v, hv⟩ := Option.isSome_iff_exists.mp h
  obtain ⟨hall, hpre⟩ := matchClasses_eq_some.mp hv
  rw [List.forall₂_map_left_iff] at hall
  have hvw : w = v := by
    have heq : List.Forall₂ (· = ·) w v := by
      clear hv hpre h
      induction hall with
      | nil => exact .nil
      | @cons c d w v hd _ ih =>
        have hc : c ≠ '.' := fun h => hw (h ▸ List.mem_cons_self)
        have hd' : d = c := by simpa [dotClass, hc] using hd
        exact .cons hd'.symm (ih fun hm => hw (List.mem_cons_of_mem _ hm))
    exact List.forall₂_eq_eq_eq ▸ heq
  exact hvw ▸ hpre

end SnakeOs.Lib
