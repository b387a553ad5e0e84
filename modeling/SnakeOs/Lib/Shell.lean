import Mathlib.Data.Char
import Mathlib.Data.List.DropRight
import Mathlib.Data.List.Lex
import Mathlib.Data.List.Sort
import SnakeOs.Lib.Text

/-! What the shell does to text: `read`, word splitting, pathname expansion and `echo`.
Lines have no newline; what a command prints is a list of characters with newlines. -/

namespace SnakeOs.Lib

/-- The blanks of `$IFS` that can stand inside a line. -/
def isBlank (c : Char) : Bool := c == ' ' || c == '\t'

def trimEnd (line : Line) : Line := line.rdropWhile isBlank

def trim (line : Line) : Line := trimEnd (line.dropWhile isBlank)

/-- What `read` takes from one line of its input. -/
structure ReadPart where
  chars : Line
  startword : Bool
  joined : Bool

/-- Blanks before the first word are skipped, a backslash takes the next character as it
is, and one at the end joins the next line. -/
def readPart (startword : Bool) : Line → ReadPart
  | [] => ⟨[], startword, false⟩
  | c :: rest =>
    if c = '\\' then
      match rest with
      | [] => ⟨[], startword, true⟩
      | d :: rest =>
        let r := readPart startword rest
        { r with chars := d :: r.chars }
    else if startword && isBlank c then readPart startword rest
    else
      let r := readPart false rest
      { r with chars := c :: r.chars }

/-- The values of `LINE` in `while read LINE`; `taken` is what joined lines gave so far. -/
def readLines (startword : Bool) (taken : Line) : List Line → List Line
  | [] => []
  | line :: rest =>
    let r := readPart startword line
    if r.joined then readLines r.startword (taken ++ r.chars) rest
    else trimEnd (taken ++ r.chars) :: readLines true [] rest

/-- Word splitting of an unquoted expansion. -/
def splitWords (value : Line) : List Line := (value.splitOnP isBlank).filter fun w => !w.isEmpty

/-- Pathname expansion, where `files` gives the names of the working directory a word
matches: a word that matches none stays. -/
def expandWord (files : Line → List Line) (word : Line) : List Line :=
  match files word with
  | [] => [word]
  | names => names

/-- The words of unquoted expansions. -/
def unquoted (files : Line → List Line) (values : List Line) : List Line :=
  values.flatMap fun v => (splitWords v).flatMap (expandWord files)

/-- The value of a digit of an escape sequence; 16 and more is no digit. -/
def escapeDigit (c : Char) : Nat :=
  let n := c.toNat ||| 0x20
  if 48 ≤ n ∧ n ≤ 57 then n - 48 else if 97 ≤ n then n - 87 else 16

/-- Up to `k` digits: their value and how many they are. -/
def escapeNumber (base : Nat) : Nat → Nat → Line → Nat × Nat
  | k + 1, n, c :: cs =>
    let r := n * base + escapeDigit c
    if escapeDigit c < base ∧ r ≤ 255 then
      ((escapeNumber base k r cs).1, (escapeNumber base k r cs).2 + 1)
    else (n, 0)
  | _, n, _ => (n, 0)

def escapeLetter : Char → Option Char
  | 'a' => some '\x07'
  | 'b' => some '\x08'
  | 'e' => some '\x1b'
  | 'f' => some '\x0c'
  | 'n' => some '\n'
  | 'r' => some '\r'
  | 't' => some '\t'
  | 'v' => some '\x0b'
  | '\\' => some '\\'
  | _ => none

/-- `bb_process_escape_sequence`: the character and how many characters it is written with. -/
def processEscapeSequence (text : Line) : Char × Nat :=
  let octal := escapeNumber 8 3 0 text
  let hex := escapeNumber 16 2 0 text.tail
  if text.head? = some 'x' then
    if hex.2 = 0 then ('\\', 0) else (Char.ofNat hex.1, hex.2 + 1)
  else if octal.2 ≠ 0 then (Char.ofNat octal.1, octal.2)
  else match text.head?.bind escapeLetter with
    | some c => (c, 1)
    | none => ('\\', 0)

/-- A `0` in front of an octal number that is not one of its three digits. -/
def leadingZero : Line → Bool
  | '0' :: d :: _ => d.toNat < 56
  | _ => false

/-- One word of `echo -e`, and whether a `\c` ends the output; the counter runs down an
escape sequence. -/
def echoEscapes : Nat → Line → Line × Bool
  | _, [] => ([], false)
  | n + 1, _ :: cs => echoEscapes n cs
  | 0, c :: cs =>
    if c = '\\' then
      if cs.head? = some 'c' then ([], true)
      else
        let skipped := if leadingZero cs then 1 else 0
        let e := processEscapeSequence (cs.drop skipped)
        (e.1 :: (echoEscapes (skipped + e.2) cs).1, (echoEscapes (skipped + e.2) cs).2)
    else (c :: (echoEscapes 0 cs).1, (echoEscapes 0 cs).2)

def echoEscapedWords : List Line → Line × Bool
  | [] => ([], false)
  | [w] => echoEscapes 0 w
  | w :: words =>
    if (echoEscapes 0 w).2 then echoEscapes 0 w
    else ((echoEscapes 0 w).1 ++ ' ' :: (echoEscapedWords words).1, (echoEscapedWords words).2)

/-- A word that `echo` takes for options. -/
def isEchoOption : Line → Bool
  | '-' :: c :: cs => (c :: cs).all (· ∈ ['n', 'e', 'E'])
  | _ => false

/-- What `echo` prints after its options. -/
def echoText (newline escapes : Bool) (words : List Line) : List Char :=
  let out := if escapes then echoEscapedWords words else ([' '].intercalate words, false)
  out.1 ++ if newline && !out.2 then ['\n'] else []

def echoFrom (newline escapes : Bool) : List Line → List Char
  | [] => echoText newline escapes []
  | w :: words =>
    if isEchoOption w then echoFrom (newline && 'n' ∉ w) (escapes || 'e' ∈ w) words
    else echoText newline escapes (w :: words)

def echo (words : List Line) : List Char := echoFrom true false words

/-- The lines of a text; the last one may lack its newline. -/
def textLines (line : Line) : List Char → List Line
  | [] => if line = [] then [] else [line]
  | c :: cs => if c = '\n' then line :: textLines [] cs else textLines (line ++ [c]) cs

/-- `$(...)` of a command that prints at most one line. -/
def captured (out : List Char) : Line := out.takeWhile (· ≠ '\n')

def isSpace (c : Char) : Bool := c ∈ [' ', '\t', '\n', '\x0b', '\x0c', '\r']

/-- The order of `sort -b`: without surrounding space first, then as they are. -/
def SortLe (a b : Line) : Prop :=
  let key := fun l : Line => (l.dropWhile isSpace).rdropWhile isSpace
  key a < key b ∨ key a = key b ∧ a ≤ b

instance (a b : Line) : Decidable (SortLe a b) := inferInstanceAs (Decidable (_ ∨ _))

def sortB (lines : List Line) : List Line := lines.insertionSort SortLe

theorem readPart_rest {line : Line} (h : '\\' ∉ line) :
    readPart false line = ⟨line, false, false⟩ := by
  induction line with
  | nil => rfl
  | cons c line ih =>
    obtain ⟨hc, hl⟩ := not_or.mp (List.mem_cons.not.mp h)
    rw [readPart.eq_def]
    simp [Ne.symm hc, ih hl]

theorem readPart_start {line : Line} (h : '\\' ∉ line) :
    (readPart true line).chars = line.dropWhile isBlank ∧
      (readPart true line).joined = false := by
  induction line with
  | nil => exact ⟨rfl, rfl⟩
  | cons c line ih =>
    obtain ⟨hc, hl⟩ := not_or.mp (List.mem_cons.not.mp h)
    rw [readPart.eq_def]
    cases hb : isBlank c with
    | true => simpa [Ne.symm hc, hb] using ih hl
    | false => simp [Ne.symm hc, hb, readPart_rest hl]

/-- The value of `LINE` that `read` takes from one line. -/
def taken (line : Line) : Line := trimEnd (readPart true line).chars

/-- Where no line ends with a backslash that joins it to the next, each is read by itself. -/
theorem readLines_eq_taken {lines : List Line} (h : ∀ l ∈ lines, (readPart true l).joined = false) :
    readLines true [] lines = lines.map taken := by
  induction lines with
  | nil => rfl
  | cons line lines ih =>
    have hj := h line List.mem_cons_self
    simp only [readLines, hj, Bool.false_eq_true, ↓reduceIte, List.nil_append, List.map_cons,
      ih fun l hl => h l (List.mem_cons_of_mem _ hl)]
    rfl

theorem taken_eq_trim {line : Line} (h : '\\' ∉ line) : taken line = trim line := by
  rw [taken, (readPart_start h).1, trim]

/-- Without backslashes `read` trims every line. -/
theorem readLines_eq_trim {lines : List Line} (h : ∀ l ∈ lines, '\\' ∉ l) :
    readLines true [] lines = lines.map trim := by
  rw [readLines_eq_taken fun l hl => (readPart_start (h l hl)).2]
  exact List.map_congr_left fun l hl => taken_eq_trim (h l hl)

theorem readPart_cons {c : Char} (hc : c ≠ '\\') (line : Line) :
    readPart false (c :: line) =
      { readPart false line with chars := c :: (readPart false line).chars } := by
  rw [readPart.eq_def]
  simp [hc]

theorem readPart_word {c : Char} (hb : isBlank c = false) (hc : c ≠ '\\') (line : Line) :
    readPart true (c :: line) = readPart false (c :: line) := by
  rw [readPart_cons hc, readPart.eq_def]
  simp [hc, hb]

theorem readPart_append {a : Line} (h : '\\' ∉ a) (b : Line) : readPart false (a ++ b) =
    { readPart false b with chars := a ++ (readPart false b).chars } := by
  induction a with
  | nil => rfl
  | cons c a ih =>
    obtain ⟨hc, ha⟩ := not_or.mp (List.mem_cons.not.mp h)
    rw [List.cons_append, readPart_cons (Ne.symm hc), ih ha]
    rfl

/-- Backslashes do not take a character across the next `d`: one in front of it takes it as it
is. -/
theorem readPart_until {d : Char} (hd : d ≠ '\\') (b : Line) : ∀ a : Line, d ∉ a →
    ∃ a', d ∉ a' ∧ (∀ c ∈ a', c ∈ a) ∧ readPart false (a ++ d :: b) =
      { readPart false b with chars := a' ++ d :: (readPart false b).chars }
  | [], _ => ⟨[], List.not_mem_nil, fun _ => id, readPart_cons hd b⟩
  | [c], h => by
    by_cases hc : c = '\\'
    · subst hc
      exact ⟨[], List.not_mem_nil, fun _ hm => absurd hm List.not_mem_nil, by
        rw [List.singleton_append, readPart.eq_def]
        simp⟩
    · refine ⟨[c], h, fun _ => id, ?_⟩
      rw [List.singleton_append, readPart_cons hc, readPart_cons hd]
      rfl
  | c :: e :: a, h => by
    obtain ⟨hdc, hde, ha⟩ : d ≠ c ∧ d ≠ e ∧ d ∉ a := by simpa using h
    by_cases hc : c = '\\'
    · obtain ⟨a', ha', hsub, hread⟩ := readPart_until hd b a ha
      refine ⟨e :: a', by simp [hde, ha'], fun x hx => ?_, ?_⟩
      · rcases List.mem_cons.mp hx with rfl | hx
        · simp
        · simp [hsub x hx]
      · rw [List.cons_append, List.cons_append, readPart.eq_def]
        simp [hc, hread]
    · obtain ⟨a', ha', hsub, hread⟩ := readPart_until hd b (e :: a) (by simp [hde, ha])
      refine ⟨c :: a', by simp [hdc, ha'], fun x hx => ?_, ?_⟩
      · rcases List.mem_cons.mp hx with rfl | hx
        · exact List.mem_cons_self
        · exact List.mem_cons_of_mem c (hsub x hx)
      · rw [List.cons_append, readPart_cons hc, hread]
        rfl

theorem trim_infix (line : Line) : trim line <:+: line := by
  obtain ⟨a, ha⟩ := List.dropWhile_suffix (l := line) isBlank
  obtain ⟨b, hb⟩ := List.rdropWhile_prefix (l := line.dropWhile isBlank) isBlank
  refine ⟨a, b, ?_⟩
  rw [List.append_assoc, trim, trimEnd, hb, ha]

/-- Trimming removes blanks only. -/
theorem count_trim {c : Char} (hc : isBlank c = false) (line : Line) :
    (trim line).count c = line.count c := by
  have hnone {l : Line} (h : ∀ d ∈ l, isBlank d = true) : l.count c = 0 := by
    refine List.count_eq_zero.mpr fun hm => ?_
    rw [h c hm] at hc
    cases hc
  have hstart : (line.dropWhile isBlank).count c = line.count c := by
    conv_rhs => rw [← List.takeWhile_append_dropWhile (p := isBlank) (l := line)]
    rw [List.count_append, hnone fun d hd => List.mem_takeWhile_imp hd, Nat.zero_add]
  rw [← hstart, trim, trimEnd]
  conv_rhs => rw [← List.rdropWhile_append_rtakeWhile (p := isBlank) (l := line.dropWhile isBlank)]
  rw [List.count_append, hnone fun d hd => List.mem_rtakeWhile_imp hd, Nat.add_zero]

theorem mem_trim {c : Char} {line : Line} (h : c ∈ line) (hc : isBlank c = false) :
    c ∈ trim line := by
  rw [← List.count_pos_iff, count_trim hc]
  exact List.count_pos_iff.mpr h

/-- A word as splitting leaves it. -/
def Word (w : Line) : Prop := w ≠ [] ∧ ∀ c ∈ w, isBlank c = false

theorem Word.split {w : Line} (hw : Word w) : splitWords w = [w] := by
  rw [splitWords, List.splitOnP_eq_singleton hw.2]
  simp [hw.1]

theorem Word.split_cons {w : Line} (hw : Word w) (rest : Line) :
    splitWords (w ++ ' ' :: rest) = w :: splitWords rest := by
  rw [splitWords, List.splitOnP_append_cons_of_forall_mem hw.2 ' ' rfl]
  simp [hw.1, splitWords]

theorem splitWords_words {ws : List Line} (hw : ∀ w ∈ ws, Word w) :
    splitWords ([' '].intercalate ws) = ws := by
  induction ws with
  | nil => rfl
  | cons w ws ih =>
    have hrest := ih fun v hv => hw v (List.mem_cons_of_mem _ hv)
    cases ws with
    | nil => rw [List.intercalate_singleton, (hw w List.mem_cons_self).split]
    | cons v ws =>
      rw [List.intercalate_cons_cons, List.append_assoc, List.singleton_append,
        (hw w List.mem_cons_self).split_cons, hrest]

theorem unquoted_eq_split {files : Line → List Line} (hf : ∀ w, files w = [])
    (values : List Line) : unquoted files values = values.flatMap splitWords := by
  have he : expandWord files = fun w => [w] := by
    funext w
    simp [expandWord, hf w]
  simp [unquoted, he, List.flatMap_singleton']

theorem isEchoOption_eq_false {w : Line} (hw : w.head? ≠ some '-') : isEchoOption w = false := by
  cases w with
  | nil => rfl
  | cons c w =>
    have hc : c ≠ '-' := fun h => hw (by simp [h])
    unfold isEchoOption
    split
    · rename_i heq
      exact absurd (List.cons.inj heq).1 hc
    · rfl

theorem isEchoOption_chars {o : Line} (h : isEchoOption o = true) :
    ∀ c ∈ o, c ∈ ['-', 'n', 'e', 'E'] := by
  unfold isEchoOption at h
  split at h
  · rename_i c cs
    intro d hd
    rcases List.mem_cons.mp hd with rfl | hd
    · simp
    · have := List.all_eq_true.mp h d hd
      exact List.mem_cons_of_mem _ (of_decide_eq_true this)
  · cases h

theorem echo_text {w : Line} (hw : isEchoOption w = false) (ws : List Line) :
    echo (w :: ws) = [' '].intercalate (w :: ws) ++ ['\n'] := by
  simp [echo, echoFrom, hw, echoText]

theorem echo_words {w : Line} (hw : w.head? ≠ some '-') (ws : List Line) :
    echo (w :: ws) = [' '].intercalate (w :: ws) ++ ['\n'] :=
  echo_text (isEchoOption_eq_false hw) ws

theorem echo_no_newline {w : Line} (hw : isEchoOption w = false) (ws : List Line) :
    echo ("-n".toList :: w :: ws) = [' '].intercalate (w :: ws) := by
  have hn : isEchoOption ['-', 'n'] = true := by decide
  simp [echo, echoFrom, hn, hw, echoText]

/-- A line that the shell prints as it is when it is read and echoed unquoted. -/
structure Tidy (line : Line) : Prop where
  words : [' '].intercalate (splitWords line) = line
  trimmed : trim line = line
  start : line.head? ≠ some '-'
  newline : '\n' ∉ line
  backslash : '\\' ∉ line

theorem Tidy.nil : Tidy [] := ⟨rfl, rfl, by simp, by simp, by simp⟩

theorem Tidy.echo {line : Line} (h : Tidy line) {files : Line → List Line}
    (hf : ∀ w, files w = []) : echo (unquoted files [line]) = line ++ ['\n'] := by
  rw [unquoted_eq_split hf, List.flatMap_singleton]
  have hwords := h.words
  cases hs : splitWords line with
  | nil =>
    rw [hs] at hwords
    rw [← hwords]
    rfl
  | cons w ws =>
    rw [hs] at hwords
    rw [echo_words ?_, hwords]
    intro hw
    -- the first word starts the line
    cases w with
    | nil => cases hw
    | cons c w =>
      refine h.start ?_
      rw [← hwords]
      cases ws with
      | nil => rwa [List.intercalate_singleton]
      | cons v ws => rwa [List.intercalate_cons_cons, List.append_assoc, List.cons_append]

/-- The characters a word of a tidy line may have. -/
def TidyChar (c : Char) : Prop := isBlank c = false ∧ c ≠ '\n' ∧ c ≠ '\\'

theorem intercalate_getLast {ws : List Line} (hw : ∀ w ∈ ws, Word w)
    (hne : [' '].intercalate ws ≠ []) :
    isBlank (([' '].intercalate ws).getLast hne) = false := by
  induction ws with
  | nil => exact absurd rfl hne
  | cons w ws ih =>
    cases ws with
    | nil =>
      simp only [List.intercalate_singleton]
      exact (hw w List.mem_cons_self).2 _ (List.getLast_mem _)
    | cons v ws =>
      have hv : [' '].intercalate (v :: ws) ≠ [] := by
        intro he
        have := splitWords_words fun x hx => hw x (List.mem_cons_of_mem w hx)
        rw [he] at this
        cases this
      simp only [List.intercalate_cons_cons]
      rw [List.getLast_append_of_right_ne_nil _ _ hv]
      exact ih (fun x hx => hw x (List.mem_cons_of_mem w hx)) hv

theorem trim_words {ws : List Line} (hw : ∀ w ∈ ws, Word w) :
    trim ([' '].intercalate ws) = [' '].intercalate ws := by
  have hstart : ([' '].intercalate ws).dropWhile isBlank = [' '].intercalate ws := by
    cases ws with
    | nil => rfl
    | cons w ws =>
      obtain ⟨hne, hb⟩ := hw w List.mem_cons_self
      cases w with
      | nil => exact absurd rfl hne
      | cons c w =>
        have hc := hb c List.mem_cons_self
        cases ws <;>
          simp [hc]
  rw [trim, hstart, trimEnd, List.rdropWhile_eq_self_iff]
  intro hne
  simpa using intercalate_getLast hw hne

theorem trim_word {w : Line} (h : Word w) : trim w = w := by
  have hone : trim ([' '].intercalate [w]) = [' '].intercalate [w] := trim_words (by simpa using h)
  rwa [List.intercalate_singleton] at hone

theorem mem_intercalate {c d : Char} {ws : List Line} (h : c ∈ [d].intercalate ws) :
    c = d ∨ ∃ w ∈ ws, c ∈ w := by
  induction ws with
  | nil => cases h
  | cons w ws ih =>
    cases ws with
    | nil => exact .inr ⟨w, List.mem_cons_self, by simpa using h⟩
    | cons v ws =>
      rw [List.intercalate_cons_cons, List.append_assoc, List.mem_append] at h
      rcases h with h | h
      · exact .inr ⟨w, List.mem_cons_self, h⟩
      · rcases List.mem_cons.mp h with rfl | h
        · exact .inl rfl
        · rcases ih h with h | ⟨x, hx, hc⟩
          · exact .inl h
          · exact .inr ⟨x, List.mem_cons_of_mem _ hx, hc⟩

/-- Words with single blanks between them. -/
theorem tidy_words {ws : List Line} (hw : ∀ w ∈ ws, w ≠ [] ∧ ∀ c ∈ w, TidyChar c)
    (hs : ([' '].intercalate ws).head? ≠ some '-') : Tidy ([' '].intercalate ws) := by
  have hword : ∀ w ∈ ws, Word w := fun w h => ⟨(hw w h).1, fun c hc => ((hw w h).2 c hc).1⟩
  refine ⟨by rw [splitWords_words hword], trim_words hword, hs, fun hn => ?_, fun hn => ?_⟩
  · rcases mem_intercalate hn with hc | ⟨w, h, hc⟩
    · cases hc
    · exact ((hw w h).2 _ hc).2.1 rfl
  · rcases mem_intercalate hn with hc | ⟨w, h, hc⟩
    · cases hc
    · exact ((hw w h).2 _ hc).2.2 rfl

theorem textLines_line {l : Line} (h : '\n' ∉ l) (line : Line) (rest : List Char) :
    textLines line (l ++ '\n' :: rest) = (line ++ l) :: textLines [] rest := by
  induction l generalizing line with
  | nil => simp [textLines]
  | cons c l ih =>
    obtain ⟨hc, hl⟩ := not_or.mp (List.mem_cons.not.mp h)
    simp [textLines, Ne.symm hc, ih hl]

theorem textLines_end {l : Line} (h : '\n' ∉ l) (line : Line) :
    textLines line l = if line ++ l = [] then [] else [line ++ l] := by
  induction l generalizing line with
  | nil => simp [textLines]
  | cons c l ih =>
    obtain ⟨hc, hl⟩ := not_or.mp (List.mem_cons.not.mp h)
    simp [textLines, Ne.symm hc, ih hl]

/-- Printing lines one by one. -/
theorem textLines_flatMap {lines : List Line} (h : ∀ l ∈ lines, '\n' ∉ l) :
    textLines [] (lines.flatMap fun l => l ++ ['\n']) = lines := by
  induction lines with
  | nil => rfl
  | cons l lines ih =>
    rw [List.flatMap_cons, List.append_assoc, List.singleton_append,
      textLines_line (h l List.mem_cons_self), ih fun x hx => h x (List.mem_cons_of_mem _ hx)]
    rfl

end SnakeOs.Lib
