import Mathlib.Data.List.MinMax
import SnakeOs.Lib.Regex
import SnakeOs.Lib.Shell

/-! The substitution command of busybox `sed -ri`, from its text to the edited lines. -/

namespace SnakeOs.Lib

/-- Where `index_of_next_unescaped_regexp_delim` stands in the text. -/
inductive Scan
  | plain
  | escaped
  | opened
  | caret
  | bracket
deriving DecidableEq

def Scan.next (brackets : Bool) : Scan → Char → Scan
  | .plain, c => if c = '\\' then .escaped else if brackets && c == '[' then .opened else .plain
  | .escaped, _ => .plain
  | .opened, c => if c = '^' then .caret else .bracket
  | .caret, _ => .bracket
  | .bracket, c => if c = ']' then .plain else .bracket

/-- The text before the next delimiter and the text behind it. -/
def nextDelim (d : Char) (brackets : Bool) : Scan → Line → Option (Line × Line)
  | _, [] => none
  | s, c :: cs =>
    if s = .plain ∧ s.next brackets c = .plain ∧ c = d then some ([], cs)
    else (nextDelim d brackets (s.next brackets c) cs).map (Prod.map (c :: ·) id)

/-- `parse_escapes`: a backslash and `src` make one `dst`. -/
def parseEscapes (src dst : Char) : Line → Line
  | [] => []
  | c :: cs =>
    if c = '\\' then
      match cs with
      | [] => [c]
      | d :: cs => if d = src then dst :: parseEscapes src dst cs else c :: d :: parseEscapes src dst cs
    else c :: parseEscapes src dst cs

def copyParsingEscapes (text : Line) : Line := parseEscapes 't' '\t' (parseEscapes 'n' '\n' text)

/-- How a command is read: sed refuses it, it is outside this model, or it is a value. -/
inductive Reading (α : Type)
  | refused
  | other
  | ok (value : α)
deriving DecidableEq

structure Flags where
  which : Nat
  print : Bool
  icase : Bool
deriving DecidableEq

/-- The flags of a substitution. A match number is followed by one character that is skipped;
at the end of the command the loop then runs past it, as it does behind a file name. -/
def parseFlags (anchored : Bool) (number : Option Nat) (f : Flags) : Line → Reading Flags
  | [] => if number.isSome then .other else .ok f
  | c :: cs =>
    match number with
    | some n =>
      if c.isDigit then parseFlags anchored (some (10 * n + (c.toNat - 48))) f cs
      else parseFlags anchored none { f with which := min n 0x7fffffff } cs
    | none =>
      if c.isDigit then parseFlags anchored (if anchored then none else some (c.toNat - 48)) f cs
      else if isSpace c then parseFlags anchored none f cs
      else if c = 'g' then
        parseFlags anchored none { f with which := if anchored then f.which else 0 } cs
      else if c = 'p' then parseFlags anchored none { f with print := true } cs
      else if c = 'I' then parseFlags anchored none { f with icase := true } cs
      else if c = '#' then .ok f
      else if c = ';' then if cs.all fun d => d == ';' || isSpace d then .ok f else .other
      else if c = 'w' ∨ c = '}' then .other
      else .refused

/-- Extended patterns without groups, sets, counts, alternatives and inner anchors. -/
def ereChar (c : Char) : Bool := c ∉ ['[', '^', '$', '\\', '+', '?', '(', ')', '{', '|']

def parseEre (pat : Line) : Option (List Item) :=
  if pat.all ereChar ∧ pat.head? ≠ some '*' then (parsePattern true pat).map (·.items) else none

structure Subst where
  anchored : Bool
  items : List Item
  replace : Line
  which : Nat
  print : Bool
deriving DecidableEq

/-- `parse_subst_cmd` on the text behind the `s`. -/
def readSubst : Line → Reading Subst
  | [] => .refused
  | d :: text =>
    match nextDelim d true .plain text with
    | none => .refused
    | some (pat, text) =>
      match nextDelim d false .plain text with
      | none => .refused
      | some (replace, flags) =>
        let pat := copyParsingEscapes pat
        let anchored := pat.head? == some '^'
        match parseFlags anchored none ⟨1, false, false⟩ flags with
        | .refused => .refused
        | .other => .other
        | .ok f =>
          match parseEre (if anchored then pat.tail else pat) with
          | none => .other
          | some items =>
            -- an empty pattern stands for the one used before
            if f.icase ∨ pat = [] then .other
            else .ok ⟨anchored, items, copyParsingEscapes replace, f.which, f.print⟩

/-- What can be left of the text behind any number of characters and then the rest. -/
def restsStar (a : Atom) (k : Line → List Line) : Line → List Line
  | [] => k []
  | c :: cs => k (c :: cs) ++ if a.admits c then restsStar a k cs else []

/-- What can be left of the text behind a match that starts here. -/
def rests : List Item → Line → List Line
  | [], line => [line]
  | ⟨a, true⟩ :: items, line => restsStar a (rests items) line
  | ⟨_, false⟩ :: _, [] => []
  | ⟨a, false⟩ :: items, c :: cs => if a.admits c then rests items cs else []

structure Match where
  before : Line
  whole : Line
  after : Line
deriving DecidableEq

/-- The longest match that starts here. -/
def matchHere (items : List Item) (line : Line) : Option Match :=
  ((rests items line).argmin List.length).map fun after =>
    ⟨[], line.take (line.length - after.length), after⟩

/-- The first place with a match. -/
def matchFirst (items : List Item) : Line → Option Match
  | [] => matchHere items []
  | c :: cs =>
    match matchHere items (c :: cs) with
    | some m => some m
    | none => (matchFirst items cs).map fun m => { m with before := c :: m.before }

/-- `regexec`; behind the first match the start of the text is no start of line. -/
def Subst.find (s : Subst) (first : Bool) (line : Line) : Option Match :=
  if s.anchored then if first then matchHere s.items line else none else matchFirst s.items line

/-- `do_subst_w_backrefs`; there are no groups, so `\1` to `\9` are empty. -/
def expandReplace (whole : Line) : Line → Line
  | [] => []
  | c :: cs =>
    if c = '\\' then
      match cs with
      | [] => []
      | d :: cs =>
        if d = '0' then whole ++ expandReplace whole cs
        else if d.isDigit then expandReplace whole cs
        else d :: expandReplace whole cs
    else if c = '&' then whole ++ expandReplace whole cs
    else c :: expandReplace whole cs

/-- The loop of `do_subst_command`: the new text and whether something was replaced. `count`
is the number of matches so far. -/
def Subst.loop (s : Subst) : Nat → Nat → Line → Line × Bool
  | 0, _, line => (line, false)
  | fuel + 1, count, line =>
    let next := fun count rest => if rest = [] then ([], false) else s.loop fuel count rest
    match s.find (count == 0) line with
    | none => (line, false)
    | some m =>
      if m.before = [] ∧ m.whole = [] ∧ count ≠ 0 then
        match line with
        | [] => ([], false)
        | c :: cs => (c :: (next count cs).1, (next count cs).2)
      else if s.which ≠ 0 ∧ s.which ≠ count + 1 then
        (m.before ++ m.whole ++ (next (count + 1) m.after).1, (next (count + 1) m.after).2)
      else if s.which ≠ 0 then (m.before ++ expandReplace m.whole s.replace ++ m.after, true)
      else (m.before ++ expandReplace m.whole s.replace ++ (next (count + 1) m.after).1, true)

/-- One line of the file; every round but the first takes a character. -/
def Subst.line (s : Subst) (line : Line) : List Line :=
  let r := s.loop (line.length + 2) 0 line
  ((if s.print && r.2 then [r.1, r.1] else [r.1]).map (·.splitOn '\n')).flatten

/-- `sed -ri "s<cmd>"` on a file; `other` is what sed does with commands outside this model. -/
def sed (other : Line → List Line → List Line) (cmd : Line) (lines : List Line) : List Line :=
  -- a newline starts another command, an odd backslash at the end asks for one
  if '\n' ∈ cmd ∨ (cmd.rtakeWhile (· = '\\')).length % 2 = 1 then other cmd lines
  else match readSubst cmd with
    | .refused => lines
    | .other => other cmd lines
    | .ok s => lines.flatMap s.line

theorem nextDelim_text {d : Char} {brackets : Bool} {text : Line} (hd : d ≠ '\\' ∧ d ≠ '[')
    (h : ∀ c ∈ text, c ≠ d ∧ c ≠ '\\' ∧ (brackets = true → c ≠ '[')) (rest : Line) :
    nextDelim d brackets .plain (text ++ d :: rest) = some (text, rest) := by
  induction text with
  | nil => simp [nextDelim, Scan.next, hd.1, hd.2]
  | cons c text ih =>
    obtain ⟨hcd, hesc, hset⟩ := h c List.mem_cons_self
    have hnext : Scan.next brackets .plain c = .plain := by
      cases brackets <;> simp_all [Scan.next]
    simp [nextDelim, hnext, hcd, ih fun x hx => h x (List.mem_cons_of_mem c hx)]

theorem parseEscapes_plain {src dst : Char} {text : Line} (h : '\\' ∉ text) :
    parseEscapes src dst text = text := by
  induction text with
  | nil => rfl
  | cons c text ih =>
    obtain ⟨hc, ht⟩ := not_or.mp (List.mem_cons.not.mp h)
    rw [parseEscapes.eq_def]
    simp [Ne.symm hc, ih ht]

theorem copyParsingEscapes_plain {text : Line} (h : '\\' ∉ text) :
    copyParsingEscapes text = text := by
  rw [copyParsingEscapes, parseEscapes_plain h, parseEscapes_plain h]

/-- A replacement that sed prints as it is. -/
def Literal (c : Char) : Prop := c ≠ '\\' ∧ c ≠ '&' ∧ c ≠ '\n'

instance (c : Char) : Decidable (Literal c) := inferInstanceAs (Decidable (_ ∧ _))

theorem expandReplace_literal (whole : Line) {text : Line} (h : ∀ c ∈ text, Literal c) :
    expandReplace whole text = text := by
  induction text with
  | nil => rfl
  | cons c text ih =>
    obtain ⟨hesc, hamp, -⟩ := h c List.mem_cons_self
    rw [expandReplace.eq_def]
    simp [hesc, hamp, ih fun x hx => h x (List.mem_cons_of_mem c hx)]

/-- Characters that stand for themselves in extended patterns. -/
def PlainEre (c : Char) : Prop := Plain c ∧ ereChar c = true

instance (c : Char) : Decidable (PlainEre c) := inferInstanceAs (Decidable (_ ∧ _))

/-- Letters, digits and underscores are plain. -/
theorem not_mem_of_word {c : Char} (h : (c.isAlphanum || c == '_') = true) {cs : List Char}
    (hcs : (cs.all fun d => !(d.isAlphanum || d == '_')) = true) : c ∉ cs := by
  intro hm
  have := List.all_eq_true.mp hcs c hm
  rw [h] at this
  cases this

theorem word_not_mem {w : Line} (hw : ∀ c ∈ w, (c.isAlphanum || c == '_') = true) {c : Char}
    (hc : (c.isAlphanum || c == '_') = false) : c ∉ w := by
  intro hm
  rw [hw c hm] at hc
  cases hc

theorem plainEre_of_word {c : Char} (h : (c.isAlphanum || c == '_') = true) : PlainEre c :=
  ⟨not_mem_of_word h (by decide), decide_eq_true (not_mem_of_word h (by decide))⟩

theorem literal_of_word {c : Char} (h : (c.isAlphanum || c == '_') = true) : Literal c := by
  have hc : c ∉ ['\\', '&', '\n'] := not_mem_of_word h (by decide)
  simpa [Literal] using hc

/-- Characters that stand for themselves, and the dot. -/
def DotEre (c : Char) : Prop := PlainEre c ∨ c = '.'

instance (c : Char) : Decidable (DotEre c) := inferInstanceAs (Decidable (_ ∨ _))

theorem PlainEre.ne_dot {c : Char} (h : PlainEre c) : c ≠ '.' := fun he => h.1 (by simp [he])

theorem plainEre_no_dot {w : Line} (hw : ∀ c ∈ w, PlainEre c) : '.' ∉ w :=
  fun hm => (hw _ hm).ne_dot rfl

theorem DotEre.not_mem {c : Char} (h : DotEre c) {cs : List Char}
    (hcs : ∀ d ∈ cs, d ∈ ['*', '[', '^', '$', '\\']) : c ∉ cs := by
  intro hm
  rcases h with h | rfl
  · exact h.1 (List.mem_cons_of_mem _ (hcs c hm))
  · exact absurd (hcs '.' hm) (by decide)

/-- The items of `w.*`. -/
def wordRest (w : Line) : List Item := dottedItems w ++ [⟨.any, true⟩]

theorem parseEre_wordRest {w : Line} (hw : ∀ c ∈ w, DotEre c) :
    parseEre (w ++ ['.', '*']) = some (wordRest w) := by
  have hall : (w ++ ['.', '*']).all ereChar = true := by
    simp only [List.all_append, List.all_eq_true, Bool.and_eq_true]
    refine ⟨fun c hc => ?_, by decide⟩
    rcases hw c hc with h | rfl
    · exact h.2
    · decide
  have hstar : (w ++ ['.', '*']).head? ≠ some '*' := by
    cases w with
    | nil => decide
    | cons c w =>
      have hc : c ∉ ['*'] := (hw c List.mem_cons_self).not_mem (by decide)
      simpa using hc
  have hrest : ∀ first, parsePattern first ['.', '*'] = some ⟨false, [⟨.any, true⟩], false⟩ := by
    decide
  have hplain : ∀ c ∈ w, Plain c ∨ c = '.' := fun c hc => (hw c hc).imp_left (·.1)
  rw [parseEre, if_pos ⟨hall, hstar⟩, parsePattern_dotted hplain hrest]
  rfl

theorem restsStar_end (k : Line → List Line) (line : Line) :
    k [] ⊆ restsStar .any k line := by
  induction line with
  | nil => exact List.Subset.refl _
  | cons c line ih =>
    rw [restsStar]
    exact fun r hr => List.mem_append_right _ (by simpa [Atom.admits] using ih hr)

theorem rests_wordRest (w line : Line) :
    (startsDotted w line = true ∧ [] ∈ rests (wordRest w) line) ∨
      (startsDotted w line = false ∧ rests (wordRest w) line = []) := by
  induction w generalizing line with
  | nil => exact .inl ⟨by cases line <;> rfl, restsStar_end (rests []) line (by simp [rests])⟩
  | cons c w ih =>
    cases line with
    | nil => exact .inr ⟨rfl, rfl⟩
    | cons d line =>
      have hr : rests (wordRest (c :: w)) (d :: line) =
          if dotClass c d then rests (wordRest w) line else [] := by
        rw [← admits_dotted]
        rfl
      rw [hr, startsDotted_cons]
      by_cases hcd : dotClass c d = true
      · simpa [hcd] using ih line
      · exact .inr ⟨by simp [hcd], if_neg hcd⟩

/-- `w.*` takes the whole line. -/
theorem matchHere_wordRest (w line : Line) : matchHere (wordRest w) line =
    if startsDotted w line then some ⟨[], line, []⟩ else none := by
  rcases rests_wordRest w line with ⟨hp, hm⟩ | ⟨hp, hnil⟩
  · rw [if_pos hp, matchHere]
    cases hmin : (rests (wordRest w) line).argmin List.length with
    | none =>
      rw [List.argmin_eq_none] at hmin
      rw [hmin] at hm
      cases hm
    | some after =>
      have hle := List.le_of_mem_argmin hm hmin
      obtain rfl : after = [] := List.length_eq_zero_iff.mp (Nat.le_zero.mp hle)
      simp
  · rw [hp, matchHere, hnil]
    rfl

/-- Without a dot the word stands for itself. -/
theorem matchHere_plain {w : Line} (hw : '.' ∉ w) (line : Line) : matchHere (wordRest w) line =
    if w <+: line then some ⟨[], line, []⟩ else none := by
  rw [matchHere_wordRest]
  exact if_congr (startsDotted_plain hw) rfl rfl

theorem matchFirst_wordRest {w line : Line} (hw : '.' ∉ w) (h : w <:+: line → w <+: line) :
    matchFirst (wordRest w) line = if w <+: line then some ⟨[], line, []⟩ else none := by
  by_cases hp : w <+: line
  · rw [if_pos hp]
    cases line <;> rw [matchFirst, matchHere_plain hw, if_pos hp]
  · rw [if_neg hp]
    have hin : ¬ w <:+: line := fun hi => hp (h hi)
    clear h hp
    induction line with
    | nil => rw [matchFirst, matchHere_plain hw, if_neg fun hp => hin hp.isInfix]
    | cons c line ih =>
      rw [matchFirst, matchHere_plain hw, if_neg fun hp => hin hp.isInfix,
        ih fun hi => hin (List.infix_cons hi)]
      rfl

/-- The substitution that `s<d>^w.*<d>text<d>g` is read as. -/
def startSubst (w text : Line) : Subst := ⟨true, wordRest w, text, 1, false⟩

/-- The substitution that `s<d>w.*<d>text<d>g` is read as. -/
def anySubst (w text : Line) : Subst := ⟨false, wordRest w, text, 0, false⟩

/-- `s<d><anchor>w.*<d>text<d>g`, without the `s`. -/
def substCmd (d : Char) (anchor w text : Line) : Line :=
  d :: (anchor ++ w ++ ['.', '*'] ++ d :: (text ++ [d, 'g']))

/-- What the delimiter must not meet. -/
structure Delimits (d : Char) (w text : Line) : Prop where
  plain : d ∉ ['\\', '[', '.', '*', '^']
  pat : d ∉ w
  text : d ∉ text

section
variable {d : Char} {w text : Line}

/-- The two texts of a command and its flag. -/
theorem readSubst_eq {pat : Line} (hd : d ≠ '\\' ∧ d ≠ '[')
    (hp : ∀ c ∈ pat, c ≠ d ∧ c ≠ '\\' ∧ c ≠ '[') (htd : d ∉ text) (ht : '\\' ∉ text)
    (hne : pat ≠ []) {items : List Item}
    (hi : parseEre (if pat.head? == some '^' then pat.tail else pat) = some items) :
    readSubst (d :: (pat ++ d :: (text ++ [d, 'g']))) =
      .ok ⟨pat.head? == some '^', items, text, if pat.head? == some '^' then 1 else 0, false⟩ := by
  have hpat : nextDelim d true .plain (pat ++ d :: (text ++ [d, 'g'])) =
      some (pat, text ++ [d, 'g']) :=
    nextDelim_text hd (fun c hc => ⟨(hp c hc).1, (hp c hc).2.1, fun _ => (hp c hc).2.2⟩) _
  have htext : nextDelim d false .plain (text ++ [d, 'g']) = some (text, ['g']) := by
    refine nextDelim_text hd (fun c hc => ⟨fun he => htd (he ▸ hc), fun he => ht (he ▸ hc), ?_⟩) _
    intro h
    cases h
  have hcopy : copyParsingEscapes pat = pat :=
    copyParsingEscapes_plain fun h => (hp _ h).2.1 rfl
  have hflags (anchored : Bool) : parseFlags anchored none ⟨1, false, false⟩ ['g'] =
      .ok ⟨if anchored then 1 else 0, false, false⟩ := by
    cases anchored <;> decide
  simp only [readSubst, hpat, htext, hcopy, hflags, hi, copyParsingEscapes_plain ht]
  rw [if_neg (by simpa using hne)]

theorem Delimits.pattern (hd : Delimits d w text) (hw : ∀ c ∈ w, DotEre c) (anchor : Line)
    (ha : ∀ c ∈ anchor, c = '^') :
    ∀ c ∈ anchor ++ w ++ ['.', '*'], c ≠ d ∧ c ≠ '\\' ∧ c ≠ '[' := by
  obtain ⟨hplain, hdw, -⟩ := hd
  simp only [List.mem_cons, not_or, List.not_mem_nil, not_false_iff, and_true] at hplain
  obtain ⟨-, -, hany, hstar, hcaret⟩ := hplain
  intro c hc
  rcases List.mem_append.mp hc with hc | hc
  · rcases List.mem_append.mp hc with hc | hc
    · rw [ha c hc]
      exact ⟨Ne.symm hcaret, by decide, by decide⟩
    · have hnone : c ∉ ['\\', '['] := (hw c hc).not_mem (by decide)
      simp only [List.mem_cons, List.not_mem_nil, or_false, not_or] at hnone
      exact ⟨fun he => hdw (he ▸ hc), hnone⟩
  · simp only [List.mem_cons, List.not_mem_nil, or_false] at hc
    rcases hc with rfl | rfl
    · exact ⟨Ne.symm hany, by decide, by decide⟩
    · exact ⟨Ne.symm hstar, by decide, by decide⟩

theorem Delimits.char (hd : Delimits d w text) : d ≠ '\\' ∧ d ≠ '[' :=
  ⟨fun he => hd.plain (by simp [he]), fun he => hd.plain (by simp [he])⟩

theorem readSubst_start (hd : Delimits d w text) (hw : ∀ c ∈ w, DotEre c) (ht : '\\' ∉ text) :
    readSubst (substCmd d ['^'] w text) = .ok (startSubst w text) := by
  have hpat := hd.pattern hw ['^'] (by simp)
  have hi : parseEre (if (['^'] ++ w ++ ['.', '*']).head? == some '^' then
      (['^'] ++ w ++ ['.', '*']).tail else ['^'] ++ w ++ ['.', '*']) = some (wordRest w) := by
    simpa using parseEre_wordRest hw
  have h := readSubst_eq hd.char hpat hd.text ht (by simp) hi
  simpa [substCmd, startSubst] using h

theorem readSubst_any (hd : Delimits d w text) (hw : ∀ c ∈ w, DotEre c) (ht : '\\' ∉ text) :
    readSubst (substCmd d [] w text) = .ok (anySubst w text) := by
  have hpat := hd.pattern hw [] (by simp)
  have hhead : ([] ++ w ++ ['.', '*']).head? ≠ some '^' := by
    cases w with
    | nil => decide
    | cons c w =>
      have hc : c ∉ ['^'] := (hw c List.mem_cons_self).not_mem (by decide)
      simpa using hc
  have hfalse : (([] ++ w ++ ['.', '*']).head? == some '^') = false := by simpa using hhead
  have hi : parseEre (if ([] ++ w ++ ['.', '*']).head? == some '^' then
      ([] ++ w ++ ['.', '*']).tail else [] ++ w ++ ['.', '*']) = some (wordRest w) := by
    rw [hfalse]
    exact parseEre_wordRest hw
  have h := readSubst_eq hd.char hpat hd.text ht (by simp) hi
  rw [hfalse] at h
  simpa [substCmd, anySubst] using h

theorem line_splitOn {l : Line} (h : '\n' ∉ l) : l.splitOn '\n' = [l] := by
  rw [List.splitOn, List.splitOnP_eq_singleton]
  intro c hc
  simpa using fun he : c = '\n' => h (he ▸ hc)

theorem Subst.line_none {s : Subst} {line : Line} (hf : s.find true line = none) :
    s.line line = line.splitOn '\n' := by
  simp [Subst.line, Subst.loop, hf]

/-- A first match that reaches the end of the line is the only one. -/
theorem Subst.line_end {s : Subst} {line before whole : Line}
    (hf : s.find true line = some ⟨before, whole, []⟩) (hw : s.which ≤ 1) (hp : s.print = false) :
    s.line line = (before ++ expandReplace whole s.replace).splitOn '\n' := by
  rcases Nat.le_one_iff_eq_zero_or_eq_one.mp hw with h | h <;>
    simp [Subst.line, Subst.loop, hf, hp, h]

theorem Subst.line_whole {s : Subst} {line : Line} {p : Prop} [Decidable p]
    (hf : s.find true line = if p then some ⟨[], line, []⟩ else none)
    (hw : s.which ≤ 1) (hp : s.print = false) (ht : ∀ c ∈ s.replace, Literal c)
    (hn : '\n' ∉ line) : s.line line = if p then [s.replace] else [line] := by
  by_cases hpre : p
  · rw [if_pos hpre] at hf ⊢
    rw [Subst.line_end hf hw hp, List.nil_append, expandReplace_literal line ht,
      line_splitOn fun h => (ht _ h).2.2 rfl]
  · rw [if_neg hpre] at hf ⊢
    rw [Subst.line_none hf, line_splitOn hn]

/-- Every line that starts with the word, its dots any characters, becomes the text. -/
theorem startSubst_line (ht : ∀ c ∈ text, Literal c) {line : Line} (hn : '\n' ∉ line) :
    (startSubst w text).line line = if startsDotted w line then [text] else [line] := by
  have hfind : (startSubst w text).find true line =
      if startsDotted w line then some ⟨[], line, []⟩ else none := matchHere_wordRest w line
  exact Subst.line_whole hfind (Nat.le_refl 1) rfl ht hn

/-- The same without the anchor, where the word stands at the start of lines only. -/
theorem anySubst_line (hw : '.' ∉ w) (ht : ∀ c ∈ text, Literal c) {line : Line}
    (hn : '\n' ∉ line) (h : w <:+: line → w <+: line) :
    (anySubst w text).line line = if w <+: line then [text] else [line] := by
  have hfind : (anySubst w text).find true line =
      if w <+: line then some ⟨[], line, []⟩ else none := matchFirst_wordRest hw h
  exact Subst.line_whole hfind (Nat.zero_le 1) rfl ht hn

theorem sed_read {other : Line → List Line → List Line} {anchor : Line} (hd : d ≠ '\n')
    (ha : '\n' ∉ anchor) (hw : '\n' ∉ w) (ht : '\n' ∉ text) (lines : List Line) :
    sed other (substCmd d anchor w text) lines = match readSubst (substCmd d anchor w text) with
      | .refused => lines
      | .other => other (substCmd d anchor w text) lines
      | .ok s => lines.flatMap s.line := by
  have hend : (substCmd d anchor w text).rtakeWhile (· = '\\') = [] := by
    rw [List.rtakeWhile_eq_nil_iff]
    simp [substCmd]
  rw [sed, if_neg]
  rw [hend]
  simp [substCmd, Ne.symm hd, ha, hw, ht]

/-- Every line that starts with `w` becomes `text`. -/
def setLines (w text : Line) (lines : List Line) : List Line :=
  lines.map fun l => if w <+: l then text else l

/-- `sed -ri "s<d>^w.*<d>text<d>g"`, where the dots of the word are any characters. -/
theorem sed_dotted {other : Line → List Line → List Line} (hd : Delimits d w text)
    (hdn : d ≠ '\n') (hw : ∀ c ∈ w, DotEre c ∧ c ≠ '\n') (ht : ∀ c ∈ text, Literal c)
    {lines : List Line} (hl : ∀ l ∈ lines, '\n' ∉ l) :
    sed other (substCmd d ['^'] w text) lines =
      lines.map fun l => if startsDotted w l then text else l := by
  have hread := readSubst_start hd (fun c hc => (hw c hc).1) fun h => (ht _ h).1 rfl
  rw [sed_read hdn (by decide) (fun h => (hw _ h).2 rfl) (fun h => (ht _ h).2.2 rfl), hread,
    List.map_eq_flatMap]
  refine List.flatMap_congr fun l hm => ?_
  rw [startSubst_line ht (hl l hm)]
  split <;> rfl

/-- `sed -ri "s<d>^w.*<d>text<d>g"`. -/
theorem sed_start {other : Line → List Line → List Line} (hd : Delimits d w text)
    (hdn : d ≠ '\n') (hw : ∀ c ∈ w, PlainEre c ∧ c ≠ '\n') (ht : ∀ c ∈ text, Literal c)
    {lines : List Line} (hl : ∀ l ∈ lines, '\n' ∉ l) :
    sed other (substCmd d ['^'] w text) lines = setLines w text lines := by
  have hdot : '.' ∉ w := plainEre_no_dot fun c hc => (hw c hc).1
  rw [sed_dotted hd hdn (fun c hc => (hw c hc).imp_left .inl) ht hl, setLines]
  exact List.map_congr_left fun l _ => if_congr (startsDotted_plain hdot) rfl rfl

/-- `sed -ri "s<d>w.*<d>text<d>g"`. -/
theorem sed_any {other : Line → List Line → List Line} (hd : Delimits d w text)
    (hdn : d ≠ '\n') (hw : ∀ c ∈ w, PlainEre c ∧ c ≠ '\n') (ht : ∀ c ∈ text, Literal c)
    {lines : List Line} (hl : ∀ l ∈ lines, '\n' ∉ l) (hs : ∀ l ∈ lines, w <:+: l → w <+: l) :
    sed other (substCmd d [] w text) lines = setLines w text lines := by
  have hdot : '.' ∉ w := plainEre_no_dot fun c hc => (hw c hc).1
  have hread := readSubst_any hd (fun c hc => .inl (hw c hc).1) fun h => (ht _ h).1 rfl
  rw [sed_read hdn (by decide) (fun h => (hw _ h).2 rfl) (fun h => (ht _ h).2.2 rfl), hread,
    setLines, List.map_eq_flatMap]
  refine List.flatMap_congr fun l hm => ?_
  rw [anySubst_line hdot ht (hl l hm) (hs l hm)]
  split <;> rfl

theorem mem_setLines {l : Line} {lines : List Line} (h : l ∈ setLines w text lines) :
    l = text ∨ l ∈ lines := by
  obtain ⟨x, hx, rfl⟩ := List.mem_map.mp h
  split
  · exact .inl rfl
  · exact .inr hx

/-- The lines that start with `w`. -/
def keyed (w : Line) (lines : List Line) : List Line := lines.filter (w <+: ·)

theorem keyed_setLines_self (hw : w <+: text) (lines : List Line) :
    keyed w (setLines w text lines) = (keyed w lines).map fun _ => text := by
  induction lines with
  | nil => rfl
  | cons l lines ih =>
    simp only [keyed, setLines, List.map_cons] at ih ⊢
    by_cases h : w <+: l
    · simp [h, hw, ih]
    · simp [h, ih]

/-- Words neither of which starts the other do not meet. -/
theorem keyed_setLines_of_apart {v : Line} (hw : w <+: text) (h1 : ¬ w <+: v) (h2 : ¬ v <+: w)
    (lines : List Line) : keyed v (setLines w text lines) = keyed v lines := by
  have hapart {l : Line} (hl : w <+: l) : ¬ v <+: l := fun hv =>
    (List.prefix_or_prefix_of_prefix hl hv).elim h1 h2
  induction lines with
  | nil => rfl
  | cons l lines ih =>
    simp only [keyed, setLines, List.map_cons] at ih ⊢
    by_cases h : w <+: l
    · simp [h, hapart h, hapart hw, ih]
    · simp only [h, if_false, List.filter_cons, ih]

end

end SnakeOs.Lib
