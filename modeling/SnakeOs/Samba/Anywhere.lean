import SnakeOs.Lib.Directory
import SnakeOs.Lib.Echo
import SnakeOs.Samba.Growth

/-! What `smbshare` leaves depends on the directory it runs in: every printed line is a list of
patterns, and every listed value is a test. -/

namespace SnakeOs.Samba
open Lib

/-- A command with word characters for its arguments. -/
inductive WordCommand
  | add (name path write user : Line)
  | remove (name : Line)
  | list

def WordCommand.args : WordCommand → List Line
  | .add name path write user => ["-a".toList, name, path, write, user]
  | .remove name => ["-x".toList, name]
  | .list => ["-list".toList]

/-- Names are words; the other arguments have no blank and no pattern, and may be empty. -/
def WordCommand.Plain : WordCommand → Prop
  | .add name path write user => IsWord name ∧
      ∀ x ∈ [path, write, user], ∀ c ∈ x, isBlank c = false ∧ c ∉ metaChars
  | .remove name => IsWord name
  | .list => True

/-- The lines of the shares, as `sed "1,${SKIP}d"` leaves them. -/
def shareLines (conf : List Line) : List Line :=
  match skip conf with
  | some n => conf.drop n
  | none => []

/-- `ACTUALVALUE`. -/
def actualValue (line : Line) : Line := trDelete ' ' (cutField '=' 2 (captured (echo [line])))

/-- The values that a command prints, where `-a` and `-x` drop the share. -/
def WordCommand.values (conf : List Line) : WordCommand → List Line
  | .add name _ _ _ | .remove name => kept name false (readLines true [] conf)
  | .list => readLines true [] (shareLines conf)

/-- A value that `-list` treats alike everywhere: no word of it, with the bar or without, is a
pattern for another name, and where `[ -z $ACTUALVALUE ]` gets more words than one, none of them
is an operator on files. -/
structure SteadyValue (fits : Line → Line → Bool) (value : Line) : Prop where
  tested : ∀ w ∈ splitWords value, Fixed fits w
  printed : ∀ w ∈ splitWords (value ++ ['|']), Fixed fits w
  operators : (splitWords value).length ≤ 1 ∨ ∀ w ∈ splitWords value, w ∉ testFileOps

/-- No word of what the command prints is a pattern for another name, and no file is tested. -/
def WordCommand.Steady (fits : Line → Line → Bool) (conf : List Line) (c : WordCommand) : Prop :=
  match c with
  | .list => ∀ v ∈ c.values conf, SteadyValue fits (actualValue v)
  | _ => ∀ v ∈ c.values conf, ∀ w ∈ splitWords v, Fixed fits w

/-- The script in a working directory. -/
def smbshareIn (fits : Line → Line → Bool) (k : FileKinds) (d : Directory) (c : WordCommand)
    (conf : List Line) : List Line × List Line :=
  smbshare (d.tests k) (d.files fits) c.args conf

/-- The command does the same in every directory, and prints the headers as it has read them. -/
structure Independent (fits : Line → Line → Bool) (k : FileKinds) (conf : List Line)
    (c : WordCommand) : Prop where
  same : ∀ d d' : Directory, smbshareIn fits k d c conf = smbshareIn fits k d' c conf
  headers : c ≠ .list → ∀ (d : Directory) (name : Line), IsWord name → bracket name ∈ c.values conf →
    echo (unquoted (d.files fits) [bracket name]) = bracket name ++ ['\n']

/-- A value that `echo` prints as words. -/
structure Echoed (v : Line) : Prop where
  dash : ∀ w ∈ (splitWords v).head?, w.head? ≠ some '-'
  backslash : '\\' ∉ v
  newline : '\n' ∉ v

section
variable {fits : Line → Line → Bool} {k : FileKinds} {conf : List Line}

theorem unquoted_fixed {v : Line} (h : ∀ w ∈ splitWords v, Fixed fits w) (d : Directory) :
    unquoted (d.files fits) [v] = splitWords v := by
  rw [unquoted, List.flatMap_singleton]
  rw [List.flatMap_congr (g := fun w => [w]) fun w hw => (h w hw).expand d]
  exact List.flatMap_singleton' _

theorem unquoted_single {name : Line} (h : name ≠ []) (v : Line) :
    unquoted ((Directory.single name h).files fits) [v] =
      (splitWords v).map fun w =>
        if w.any (· ∈ metaChars) = true ∧ fits w name = true then name else w := by
  rw [unquoted, List.flatMap_singleton, List.map_eq_flatMap]
  exact List.flatMap_congr fun w _ => Directory.single_expand h w

/-- Arguments without blanks and patterns are passed on where they are not empty. -/
theorem unquoted_plain_args (d : Directory) {args : List Line}
    (h : ∀ x ∈ args, ∀ c ∈ x, isBlank c = false ∧ c ∉ metaChars) :
    unquoted (d.files fits) args = args.filter (· ≠ []) := by
  induction args with
  | nil => rfl
  | cons x args ih =>
    have hx := h x List.mem_cons_self
    have ih := ih fun y hy => h y (List.mem_cons_of_mem x hy)
    rw [unquoted, List.flatMap_cons, ← unquoted, ih]
    by_cases hnil : x = []
    · simp [hnil, splitWords]
    · have hword : Word x := ⟨hnil, fun c hc => (hx c hc).1⟩
      have hfix : Fixed fits x := .of_plain fun c hc => (hx c hc).2
      rw [hword.split, List.flatMap_singleton, hfix.expand d, List.filter_cons_of_pos (by simpa using hnil)]
      rfl

/-- The text that `-a` and `-x` write before a new share. -/
def rewritten (files : Line → List Line) (vs : List Line) : List Char :=
  (vs.flatMap fun v => echo (unquoted files [v])) ++ ['\n']

theorem delete_eq {name : Line} (hn : IsWord name) (d : Directory) (conf : List Line) :
    delete (d.files fits) [name] conf =
      textLines [] (rewritten (d.files fits) (kept name false (readLines true [] conf))) := by
  have hone : unquoted (d.files fits) [name] = [name] := unquoted_cons_word _ hn []
  have harg : arg [name] 1 = name := rfl
  rw [delete, configRemove, harg, hone, harg, removeLoop_kept]
  rfl

/-- An argument that is not there is empty. -/
theorem arg_chars {args : List Line} {p : Char → Prop} (h : ∀ x ∈ args, ∀ c ∈ x, p c) (i : Nat) :
    ∀ c ∈ arg args i, p c := by
  rw [arg, List.getD_eq_getElem?_getD]
  cases hi : args[i - 1]? with
  | none => simp
  | some x => exact h x (List.mem_of_getElem? hi)

/-- What a command leaves, with what depends on the directory in one place. -/
theorem smbshare_update (fits : Line → Line → Bool) (k : FileKinds) (conf : List Line)
    {c : WordCommand} (hc : c.Plain) (hne : c ≠ .list) : ∃ added,
    ∀ d : Directory, smbshareIn fits k d c conf =
      (textLines [] (rewritten (d.files fits) (c.values conf)) ++ added, []) := by
  cases c with
  | list => exact absurd rfl hne
  | remove name =>
    refine ⟨[], fun d => ?_⟩
    have hone : unquoted (d.files fits) [name] = [name] := unquoted_cons_word _ hc []
    rw [List.append_nil]
    refine Prod.ext ?_ rfl
    rw [smbshareIn, WordCommand.args, smbshare_x, hone, delete_eq hc]
    rfl
  | add name path write user =>
    obtain ⟨hn, hrest⟩ := hc
    have hone (d : Directory) : unquoted (d.files fits) [name] = [name] := unquoted_cons_word _ hn []
    have hargs (d : Directory) (xs : List Line) (h : ∀ x ∈ xs, ∀ c ∈ x, isBlank c = false ∧ c ∉ metaChars) :
        unquoted (d.files fits) (name :: xs) = name :: xs.filter (· ≠ []) := by
      rw [Directory.files, unquoted_cons_word _ hn]
      exact congrArg (name :: ·) (unquoted_plain_args d h)
    have hplain : ∀ x ∈ name :: [path, write, user].filter (· ≠ []),
        ∀ c ∈ x, isBlank c = false ∧ c ∉ metaChars := by
      intro x hx
      rcases List.mem_cons.mp hx with rfl | hx
      · intro c hc
        have hchar : c ∉ [' ', '\t', '*', '?', '['] :=
          not_mem_of_word (List.all_eq_true.mp hn.2 c hc) (by decide)
        simpa [isBlank, metaChars, and_assoc] using hchar
      · exact hrest x (List.mem_filter.mp hx).1
    have harg := arg_chars hplain
    have hname : arg (name :: [path, write, user].filter (· ≠ [])) 1 = name := rfl
    refine ⟨textLines [] (addShare (name :: [arg (name :: [path, write, user].filter (· ≠ [])) 2,
      arg (name :: [path, write, user].filter (· ≠ [])) 3,
      arg (name :: [path, write, user].filter (· ≠ [])) 4].filter (· ≠ []))), fun d => ?_⟩
    have hthree : ∀ x ∈ [arg (name :: [path, write, user].filter (· ≠ [])) 2,
        arg (name :: [path, write, user].filter (· ≠ [])) 3,
        arg (name :: [path, write, user].filter (· ≠ [])) 4],
        ∀ c ∈ x, isBlank c = false ∧ c ∉ metaChars := by
      intro x hx
      simp only [List.mem_cons, List.not_mem_nil, or_false] at hx
      rcases hx with rfl | rfl | rfl
      · exact harg 2
      · exact harg 3
      · exact harg 4
    refine Prod.ext ?_ rfl
    rw [smbshareIn, WordCommand.args, smbshare_a, hargs d _ hrest, setShare, hname, hone, delete_eq hn,
      hargs d _ hthree]
    rfl

/-- The text that `-list` sorts. -/
def unsorted (ops : TestOps) (files : Line → List Line) (conf : List Line) : List Char :=
  (readLines true [] (shareLines conf)).flatMap (listLine ops files)

theorem list_eq (ops : TestOps) (files : Line → List Line) (conf : List Line) :
    list ops files conf =
      (sortB (textLines [] (unsorted ops files conf))).filter fun l => !grep "^$".toList l := rfl

theorem smbshare_list (ops : TestOps) (files : Line → List Line) (conf : List Line) :
    smbshare ops files WordCommand.list.args conf = (conf, list ops files conf) := rfl

/-- At most one word stands behind `-z`. -/
theorem testEmpty_short (ops : TestOps) {ws : List Line} (h : ws.length ≤ 1) :
    testEmpty ops ws = decide (∀ w ∈ ws, w = []) := by
  match ws, h with
  | [], _ => rfl
  | [w], _ => simp [testEmpty, bracket_empty]

theorem listLine_eq (ops : TestOps) (files : Line → List Line) (v : Line) :
    listLine ops files v =
      if testEmpty ops (unquoted files [actualValue v]) then echo [[]]
      else echo ("-n".toList :: unquoted files [actualValue v ++ ['|']]) := rfl

/-- The part of `-list` for one value. -/
theorem listLine_steady {v : Line} (h : SteadyValue fits (actualValue v)) (d d' : Directory) :
    listLine (d.tests k) (d.files fits) v = listLine (d'.tests k) (d'.files fits) v := by
  have htest : testEmpty (d.tests k) (splitWords (actualValue v)) =
      testEmpty (d'.tests k) (splitWords (actualValue v)) := by
    rcases h.operators with hshort | hfiles
    · rw [testEmpty_short _ hshort, testEmpty_short _ hshort]
    · have hall : ∀ w ∈ ['-', 'z'] :: splitWords (actualValue v), w ∉ testFileOps :=
        List.forall_mem_cons.mpr ⟨by decide, hfiles⟩
      rw [testEmpty, testEmpty, bracket_congr (Directory.tests_agree hall d d' k)]
  rw [listLine_eq, listLine_eq, unquoted_fixed h.tested, unquoted_fixed h.tested, unquoted_fixed h.printed,
    unquoted_fixed h.printed, htest]

/-- Where no printed word is a pattern for another name, the directory does not matter. -/
theorem WordCommand.Steady.independent {c : WordCommand} (hc : c.Plain) (h : c.Steady fits conf) :
    Independent fits k conf c := by
  by_cases hlist : c = .list
  · subst hlist
    refine ⟨fun d d' => ?_, fun hne => absurd rfl hne⟩
    have hsame : unsorted (d.tests k) (d.files fits) conf =
        unsorted (d'.tests k) (d'.files fits) conf :=
      List.flatMap_congr fun v hv => listLine_steady (h v hv) d d'
    rw [smbshareIn, smbshareIn, smbshare_list, smbshare_list, list_eq, list_eq, hsame]
  · have hfix : ∀ v ∈ c.values conf, ∀ w ∈ splitWords v, Fixed fits w := by
      cases c with
      | list => exact absurd rfl hlist
      | _ => exact h
    obtain ⟨added, hadded⟩ := smbshare_update fits k conf hc hlist
    refine ⟨fun d d' => ?_, fun _ d name hn hm => ?_⟩
    · have hsame (d : Directory) : rewritten (d.files fits) (c.values conf) =
          ((c.values conf).flatMap fun v => echo (splitWords v)) ++ ['\n'] := by
        rw [rewritten, List.flatMap_congr fun v hv => by rw [unquoted_fixed (hfix v hv) d]]
      rw [hadded, hadded, hsame, hsame]
    · have hb := bracket_tidy hn.safe.sound
      rw [unquoted_fixed (hfix _ hm) d, (bracket_word hn).split, echo_words hb.start,
        List.intercalate_singleton]

/-- The words of a value in a directory with one name. -/
def renamed (fits : Line → Line → Bool) (name w : Line) : Line :=
  if w.any (· ∈ metaChars) = true ∧ fits w name = true then name else w

theorem separators_word {w : Line} (hw : Word w) (hn : '\n' ∉ w) : w.countP isSeparator = 0 := by
  rw [List.countP_eq_zero]
  intro c hc
  have hne : c ≠ '\n' := fun he => hn (he ▸ hc)
  simp [isSeparator, hw.2 c hc, hne]

theorem Echoed.words {v : Line} (h : Echoed v) :
    ∀ w ∈ splitWords v, Word w ∧ '\n' ∉ w ∧ '\\' ∉ w := by
  intro w hw
  obtain ⟨hword, hin⟩ := mem_splitWords w hw
  exact ⟨hword, fun hm => h.newline (hin.subset hm), fun hm => h.backslash (hin.subset hm)⟩

section
variable {ws : List Line}

/-- What a value prints where no word is a pattern. -/
theorem echo_plain_words (hdash : ∀ w ∈ ws.head?, w.head? ≠ some '-') :
    echo ws = [' '].intercalate ws ++ ['\n'] := by
  cases ws with
  | nil => rfl
  | cons w ws => exact echo_words (hdash w rfl) ws

theorem separators_echo (hw : ∀ w ∈ ws, Word w ∧ '\n' ∉ w) (hdash : ∀ w ∈ ws.head?, w.head? ≠ some '-') :
    (echo ws).countP isSeparator = (ws.length - 1) + 1 := by
  have hsum : (ws.map (List.countP isSeparator)).sum = 0 := by
    rw [List.sum_eq_zero]
    intro n hn
    obtain ⟨w, hm, rfl⟩ := List.mem_map.mp hn
    exact separators_word (hw w hm).1 (hw w hm).2
  have hone : List.countP isSeparator ['\n'] = 1 := by decide
  rw [echo_plain_words hdash, List.countP_append, countP_intercalate, hsum, hone, Nat.add_zero]

end

section
variable {name : Line} {ws : List Line}

/-- A name with a separator makes a line longer by its separators. -/
theorem separators_renamed_ge (fits : Line → Line → Bool) (hw : ∀ w ∈ ws, Word w ∧ '\n' ∉ w ∧ '\\' ∉ w)
    (hdash : ∀ w ∈ ws.head?, w.head? ≠ some '-') (hsep : 0 < name.countP isSeparator) :
    (echo ws).countP isSeparator ≤ (echo (ws.map (renamed fits name))).countP isSeparator ∧
      ((echo ws).countP isSeparator = (echo (ws.map (renamed fits name))).countP isSeparator →
        ∀ w ∈ ws, renamed fits name w = w) := by
  have hoption : isEchoOption name = false := by
    by_contra ho
    obtain ⟨c, hc, hs⟩ := List.countP_pos_iff.mp hsep
    have hchars := isEchoOption_chars (by simpa using ho) c hc
    simp only [List.mem_cons, List.not_mem_nil, or_false] at hchars
    rcases hchars with rfl | rfl | rfl | rfl <;> cases hs
  have hfirst : ∀ x ∈ (ws.map (renamed fits name)).head?, isEchoOption x = false := by
    cases ws with
    | nil => simp
    | cons w ws =>
      intro x hx
      obtain rfl : renamed fits name w = x := Option.some.inj hx
      rw [renamed]
      split
      · exact hoption
      · exact isEchoOption_eq_false (hdash w rfl)
  have hone : List.countP isSeparator ['\n'] = 1 := by decide
  have hecho : echo (ws.map (renamed fits name)) =
      [' '].intercalate (ws.map (renamed fits name)) ++ ['\n'] := by
    have hnone : (∃ x ∈ (ws.map (renamed fits name)).head?, isEchoOption x = true) →
        ∀ x ∈ ws.map (renamed fits name), '\\' ∉ x := by
      rintro ⟨x, hx, ho⟩
      rw [hfirst x hx] at ho
      cases ho
    obtain ⟨opts, rest, newline, hws, -, hopts, hnl, he⟩ := echo_rest hnone
    cases opts with
    | nil =>
      rw [he, hnl rfl, hws]
      rfl
    | cons o opts =>
      have := hopts o List.mem_cons_self
      rw [hfirst o (by rw [hws]; rfl)] at this
      cases this
  rw [separators_echo (fun w h => ⟨(hw w h).1, (hw w h).2.1⟩) hdash, hecho, List.countP_append,
    countP_intercalate, hone, List.length_map]
  refine ⟨by omega, fun he w hm => ?_⟩
  have hzero : ((ws.map (renamed fits name)).map (List.countP isSeparator)).sum = 0 := by omega
  have hw0 := List.sum_eq_zero_iff.mp hzero _
    (List.mem_map_of_mem (List.mem_map_of_mem (f := renamed fits name) hm))
  rw [renamed] at hw0 ⊢
  split at hw0
  · omega
  · rename_i hne
    rw [if_neg hne]

/-- A name without separators leaves a line with fewer of them, or the line with other words. -/
theorem separators_renamed_le (fits : Line → Line → Bool) (hw : ∀ w ∈ ws, Word w ∧ '\n' ∉ w ∧ '\\' ∉ w)
    (hdash : ∀ w ∈ ws.head?, w.head? ≠ some '-') (hname : name ≠ [])
    (hsep : ∀ c ∈ name, isSeparator c = false) :
    (echo (ws.map (renamed fits name))).countP isSeparator ≤ (echo ws).countP isSeparator ∧
      ((echo (ws.map (renamed fits name))).countP isSeparator = (echo ws).countP isSeparator →
        ∃ l, echo (ws.map (renamed fits name)) = l ++ ['\n'] ∧ '\n' ∉ l ∧
          (l = [' '].intercalate (ws.map (renamed fits name)) ∨ l = [] ∧ ∃ w, ws = [w])) := by
  have hword : ∀ x ∈ ws.map (renamed fits name), Word x ∧ '\n' ∉ x := by
    intro x hx
    obtain ⟨w, hm, rfl⟩ := List.mem_map.mp hx
    rw [renamed]
    split
    · refine ⟨⟨hname, fun c hc => (Bool.or_eq_false_iff.mp (hsep c hc)).1⟩, fun hc => ?_⟩
      exact absurd (hsep _ hc) (by decide)
    · exact ⟨(hw w hm).1, (hw w hm).2.1⟩
  have hplain : (∃ x ∈ (ws.map (renamed fits name)).head?, isEchoOption x = true) →
      ∀ x ∈ ws.map (renamed fits name), '\\' ∉ x := by
    rintro ⟨y, hy, ho⟩ x hx
    -- only the name can be an option, and options have no backslash
    have hoption : isEchoOption name = true := by
      cases ws with
      | nil => cases hy
      | cons w ws =>
        obtain rfl : renamed fits name w = y := Option.some.inj hy
        rw [renamed] at ho
        split at ho
        · exact ho
        · rw [isEchoOption_eq_false (hdash w rfl)] at ho
          cases ho
    obtain ⟨w, hm, rfl⟩ := List.mem_map.mp hx
    rw [renamed]
    split
    · exact fun hc => absurd (isEchoOption_chars hoption _ hc) (by decide)
    · exact (hw w hm).2.2
  obtain ⟨opts, rest, newline, hsplit, -, -, hnl, hecho⟩ := echo_rest hplain
  have hlen := congrArg List.length hsplit
  rw [List.length_map, List.length_append] at hlen
  have hrest : ([' '].intercalate rest).countP isSeparator = rest.length - 1 := by
    have hsum : (rest.map (List.countP isSeparator)).sum = 0 := by
      rw [List.sum_eq_zero]
      intro n hn
      obtain ⟨x, hx, rfl⟩ := List.mem_map.mp hn
      obtain ⟨hx, hxn⟩ := hword x (hsplit ▸ List.mem_append_right opts hx)
      exact separators_word hx hxn
    rw [countP_intercalate, hsum, Nat.add_zero]
  have hend : (if newline then ['\n'] else []).countP isSeparator = newline.toNat := by
    cases newline <;> decide
  rw [separators_echo (fun w h => ⟨(hw w h).1, (hw w h).2.1⟩) hdash, hecho, List.countP_append,
    hrest, hend]
  have hbit := Bool.toNat_le newline
  cases opts with
  | nil =>
    rw [hnl rfl]
    simp only [List.length_nil, List.nil_append] at hlen hsplit
    refine ⟨by simp [hlen], fun _ => ⟨_, rfl, fun hm => ?_, .inl (by rw [hsplit])⟩⟩
    rcases mem_intercalate hm with hc | ⟨x, hx, hc⟩
    · cases hc
    · exact (hword x (hsplit ▸ hx)).2 hc
  | cons o opts =>
    rw [List.length_cons] at hlen
    refine ⟨by omega, fun he => ?_⟩
    have hnil : rest = [] := by
      rw [← List.length_eq_zero_iff]
      omega
    rw [hnil, List.length_nil] at hlen he
    have hnewline : newline = true := by
      rw [← Bool.toNat_eq_one]
      omega
    refine ⟨[], by simp [hnil, hnewline], List.not_mem_nil, .inr ⟨rfl, ?_⟩⟩
    exact List.length_eq_one_iff.mp (by omega)

end

/-- Where no separator is lost, the texts are equal line by line. -/
theorem lines_renamed {name : Line} {vs : List Line}
    (hle : ∀ v ∈ vs, (echo ((splitWords v).map (renamed fits name))).countP isSeparator ≤
        (echo (splitWords v)).countP isSeparator ∧
      ((echo ((splitWords v).map (renamed fits name))).countP isSeparator =
          (echo (splitWords v)).countP isSeparator →
        ∃ l, echo ((splitWords v).map (renamed fits name)) = l ++ ['\n'] ∧ '\n' ∉ l ∧
          (l = [' '].intercalate ((splitWords v).map (renamed fits name)) ∨
            l = [] ∧ ∃ w, splitWords v = [w])))
    (heq : ∀ v ∈ vs, (echo ((splitWords v).map (renamed fits name))).countP isSeparator =
      (echo (splitWords v)).countP isSeparator)
    (hw : ∀ v ∈ vs, ∀ w ∈ splitWords v, Word w ∧ '\n' ∉ w ∧ '\\' ∉ w)
    (hdash : ∀ v ∈ vs, ∀ w ∈ (splitWords v).head?, w.head? ≠ some '-')
    (htext : (vs.flatMap fun v => echo (splitWords v)) =
      vs.flatMap fun v => echo ((splitWords v).map (renamed fits name))) :
    ∀ v ∈ vs, [' '].intercalate (splitWords v) =
        [' '].intercalate ((splitWords v).map (renamed fits name)) ∨
      [' '].intercalate (splitWords v) = [] ∧ ∃ w, splitWords v = [w] := by
  have hplain : ∀ v ∈ vs, echo (splitWords v) = [' '].intercalate (splitWords v) ++ ['\n'] :=
    fun v hv => echo_plain_words (hdash v hv)
  have hold : ∀ l ∈ vs.map fun v => [' '].intercalate (splitWords v), '\n' ∉ l := by
    intro l hl hm
    obtain ⟨v, hv, rfl⟩ := List.mem_map.mp hl
    rcases mem_intercalate hm with hc | ⟨w, hmem, hc⟩
    · cases hc
    · exact (hw v hv w hmem).2.1 hc
  have hlast : ∀ v ∈ vs, echo ((splitWords v).map (renamed fits name)) =
      (echo ((splitWords v).map (renamed fits name))).dropLast ++ ['\n'] := by
    intro v hv
    obtain ⟨l, hl, -⟩ := (hle v hv).2 (heq v hv)
    rw [hl, List.dropLast_concat]
  have hnew : ∀ l ∈ vs.map fun v => (echo ((splitWords v).map (renamed fits name))).dropLast,
      '\n' ∉ l := by
    intro l hl
    obtain ⟨v, hv, rfl⟩ := List.mem_map.mp hl
    obtain ⟨l, hl, hn, -⟩ := (hle v hv).2 (heq v hv)
    rwa [hl, List.dropLast_concat]
  have hlines : (vs.map fun v => [' '].intercalate (splitWords v)) =
      vs.map fun v => (echo ((splitWords v).map (renamed fits name))).dropLast := by
    rw [← textLines_flatMap hold, ← textLines_flatMap hnew, List.flatMap_map, List.flatMap_map,
      ← List.flatMap_congr hplain, ← List.flatMap_congr hlast, htext]
  intro v hv
  have hv' := List.map_inj_left.mp hlines v hv
  obtain ⟨l, hl, -, hcases⟩ := (hle v hv).2 (heq v hv)
  rw [hl, List.dropLast_concat] at hv'
  rw [hv']
  exact hcases

/-- With one name in the directory the values are printed as with none. -/
theorem Independent.text {c : WordCommand} (h : Independent fits k conf c) (hc : c.Plain)
    (hne : c ≠ .list) {name : Line} (hname : name ≠ []) :
    ((c.values conf).flatMap fun v => echo (splitWords v)) =
      (c.values conf).flatMap fun v => echo ((splitWords v).map (renamed fits name)) := by
  obtain ⟨added, hadded⟩ := smbshare_update fits k conf hc hne
  have hsame := h.same .empty (.single name hname)
  rw [hadded, hadded, Prod.mk.injEq, List.append_cancel_right_eq] at hsame
  have htext := textLines_newline_inj hsame.1
  have hempty : (fun v => echo (unquoted (Directory.empty.files fits) [v])) =
      fun v => echo (splitWords v) := by
    funext x
    rw [unquoted_eq_split fun w => Directory.empty_files, List.flatMap_singleton]
  have hsingle : (fun v => echo (unquoted ((Directory.single name hname).files fits) [v])) =
      fun v => echo ((splitWords v).map (renamed fits name)) := by
    funext x
    rw [unquoted_single hname]
    rfl
  rwa [hempty, hsingle] at htext

/-- One name in the directory that a word fits changes what is written. -/
theorem Independent.steady {c : WordCommand} (hc : c.Plain) (hne : c ≠ .list)
    (he : ∀ v ∈ c.values conf, Echoed v) (h : Independent fits k conf c) : c.Steady fits conf := by
  have hfix : ∀ v ∈ c.values conf, ∀ w ∈ splitWords v, Fixed fits w := by
    intro v hv w hw hmeta name hname hfit
    by_contra hdiffer
    have htext := h.text hc hne hname
    have hcount := congrArg (List.countP isSeparator) htext
    rw [List.countP_flatMap, List.countP_flatMap] at hcount
    have hren : renamed fits name w = name := if_pos ⟨hmeta, hfit⟩
    by_cases hsep : 0 < name.countP isSeparator
    · have hge := fun x (hx : x ∈ c.values conf) =>
        separators_renamed_ge fits (he x hx).words (he x hx).dash hsep
      have heq := eq_of_sum_le (fun x hx => (hge x hx).1) hcount.ge v hv
      exact hdiffer (hren.symm.trans ((hge v hv).2 heq w hw))
    · have hzero : ∀ c ∈ name, isSeparator c = false := by
        simpa [List.countP_pos_iff] using hsep
      have hle := fun x (hx : x ∈ c.values conf) =>
        separators_renamed_le fits (he x hx).words (he x hx).dash hname hzero
      have heq := eq_of_sum_le (fun x hx => (hle x hx).1) hcount.le
      have hline := lines_renamed hle heq (fun x hx => (he x hx).words) (fun x hx => (he x hx).dash)
        htext v hv
      rcases hline with hline | ⟨hnil, x, hone⟩
      · have hwords := congrArg splitWords hline
        have hplain : ∀ x ∈ splitWords v, Word x := fun x hx => ((he v hv).words x hx).1
        have hren' : ∀ x ∈ (splitWords v).map (renamed fits name), Word x := by
          intro x hx
          obtain ⟨y, hy, rfl⟩ := List.mem_map.mp hx
          rw [renamed]
          split
          · exact ⟨hname, fun c hc => (Bool.or_eq_false_iff.mp (hzero c hc)).1⟩
          · exact hplain y hy
        rw [splitWords_words hplain, splitWords_words hren'] at hwords
        have hmap := List.map_inj_left.mp ((List.map_id _).trans hwords) w hw
        exact hdiffer (hren.symm.trans hmap.symm)
      · rw [hone, List.intercalate_singleton] at hnil
        exact ((he v hv).words x (by rw [hone]; exact List.mem_singleton.mpr rfl)).1.1 hnil
  cases c with
  | list => exact absurd rfl hne
  | _ => exact hfix

/-- Splitting a text into lines loses the newlines only. -/
theorem countP_textLines {p : Char → Bool} (hp : p '\n' = false) (text : List Char) (line : Line) :
    ((textLines line text).map (List.countP p)).sum = line.countP p + text.countP p := by
  induction text generalizing line with
  | nil =>
    rw [textLines]
    split
    · rename_i hl
      rw [hl]
      rfl
    · simp
  | cons c text ih =>
    rw [textLines]
    split
    · rename_i hc
      rw [List.map_cons, List.sum_cons, ih, hc, List.countP_cons_of_neg (by simp [hp]),
        List.countP_nil, Nat.zero_add]
    · rw [ih, List.countP_append, List.countP_singleton, List.countP_cons]
      omega

/-- Dropping empty lines loses no character. -/
theorem sum_nonempty (p : Char → Bool) (lines : List Line) :
    ((lines.filter fun l => !grep "^$".toList l).map (List.countP p)).sum =
      (lines.map (List.countP p)).sum := by
  induction lines with
  | nil => rfl
  | cons l lines ih =>
    rw [List.filter_cons]
    split
    · rw [List.map_cons, List.map_cons, List.sum_cons, List.sum_cons, ih]
    · rename_i hl
      have hnil : l = [] := (grep_empty l).mp (by simpa using hl)
      rw [ih, hnil]
      simp

/-- `-list` keeps every character but newlines. -/
theorem countP_list {p : Char → Bool} (hp : p '\n' = false) (ops : TestOps)
    (files : Line → List Line) (conf : List Line) :
    ((list ops files conf).map (List.countP p)).sum = (unsorted ops files conf).countP p := by
  rw [list_eq, sum_nonempty, sortB, ((List.perm_insertionSort _ _).map _).sum_eq,
    countP_textLines hp, List.countP_nil, Nat.zero_add]

/-- A value of one word, in a directory with one name that is no pattern. -/
theorem listLine_single {name : Line} (hname : name ≠ []) {v : Line}
    (hv : ∀ c ∈ actualValue v, isBlank c = false) :
    listLine (Directory.tests (.single name hname) k) (Directory.files (.single name hname) fits) v =
      if actualValue v = [] then ['\n']
      else echo ["-n".toList, renamed fits name (actualValue v ++ ['|'])] := by
  rw [listLine_eq]
  by_cases hnil : actualValue v = []
  · rw [hnil, if_pos rfl]
    rfl
  · have hword : Word (actualValue v) := ⟨hnil, hv⟩
    have hbar : Word (actualValue v ++ ['|']) := by
      refine ⟨by simp, fun c hc => ?_⟩
      rcases List.mem_append.mp hc with hc | hc
      · exact hv c hc
      · rw [List.mem_singleton.mp hc]
        rfl
    have hren : renamed fits name (actualValue v) ≠ [] := by
      rw [renamed]
      split
      · exact hname
      · exact hnil
    rw [unquoted_single, unquoted_single, hword.split, hbar.split, List.map_singleton,
      List.map_singleton, ← renamed, ← renamed, testEmpty_short _ (Nat.le_refl _), if_neg hnil,
      if_neg (by simpa using hren)]

/-- In a directory without names a value of one word is printed as it is. -/
theorem listLine_nowhere {v : Line} (hv : ∀ c ∈ actualValue v, isBlank c = false) :
    listLine (Directory.tests .empty k) (Directory.files .empty fits) v =
      if actualValue v = [] then ['\n'] else actualValue v ++ ['|'] := by
  rw [listLine_eq]
  by_cases hnil : actualValue v = []
  · rw [hnil, if_pos rfl]
    rfl
  · have hword : Word (actualValue v) := ⟨hnil, hv⟩
    have hbar : Word (actualValue v ++ ['|']) := by
      refine ⟨by simp, fun c hc => ?_⟩
      rcases List.mem_append.mp hc with hc | hc
      · exact hv c hc
      · rw [List.mem_singleton.mp hc]
        rfl
    have hoption : isEchoOption (actualValue v ++ ['|']) = false := by
      by_contra ho
      have hchar := isEchoOption_chars (by simpa using ho) '|' (by simp)
      exact absurd hchar (by decide)
    rw [unquoted_eq_split fun _ => Directory.empty_files, unquoted_eq_split fun _ => Directory.empty_files,
      List.flatMap_singleton, List.flatMap_singleton, hword.split, hbar.split,
      testEmpty_short _ (Nat.le_refl _), if_neg hnil, if_neg (by simpa using hnil),
      echo_no_newline hoption, List.intercalate_singleton]

/-- A name that is printed alone shows no character that it has not. -/
theorem countP_echo_name (p : Char → Bool) (name : Line) :
    (echo ["-n".toList, name]).countP p ≤ name.countP p := by
  by_cases ho : isEchoOption name = true
  · have hn : isEchoOption ['-', 'n'] = true := by decide
    have hnone : echo ["-n".toList, name] = [] := by
      have hmiss : (true && decide ('n' ∉ ['-', 'n'])) = false := by decide
      cases he : (false || decide ('e' ∈ ['-', 'n']) || decide ('e' ∈ name)) <;>
        simp [echo, echoFrom, hn, ho, echoText, echoEscapedWords]
    rw [hnone]
    exact Nat.zero_le _
  · rw [echo_no_newline (by simpa using ho), List.intercalate_singleton]

/-- Where every value is one word, a name without pattern characters that a word fits takes the
pattern characters of that word out of the list, and no other word brings them back. -/
theorem Independent.listed {c : WordCommand} (hlist : c = .list)
    (hv : ∀ v ∈ c.values conf, ∀ x ∈ actualValue v, isBlank x = false)
    (h : Independent fits k conf c) : ∀ v ∈ c.values conf, (actualValue v).any (· ∈ metaChars) = true →
      ∀ name ≠ [], (∀ x ∈ name, x ∉ metaChars) → fits (actualValue v ++ ['|']) name = false := by
  subst hlist
  intro v hmem hmeta name hname hplain
  by_contra hfit
  have hfit : fits (actualValue v ++ ['|']) name = true := by simpa using hfit
  have hsame := congrArg Prod.snd (h.same .empty (.single name hname))
  have hcount := congrArg (fun ls => (ls.map (List.countP (· ∈ metaChars))).sum) hsame
  simp only [smbshareIn, smbshare_list] at hcount
  rw [countP_list (by decide), countP_list (by decide), unsorted, unsorted, List.countP_flatMap,
    List.countP_flatMap] at hcount
  have hnone : name.countP (· ∈ metaChars) = 0 :=
    List.countP_eq_zero.mpr fun x hx => by simpa using hplain x hx
  have hle : ∀ u ∈ readLines true [] (shareLines conf),
      (listLine (Directory.tests (.single name hname) k) (Directory.files (.single name hname) fits)
        u).countP (· ∈ metaChars) ≤
      (listLine (Directory.tests .empty k) (Directory.files .empty fits) u).countP
        (· ∈ metaChars) := by
    intro u hu
    rw [listLine_single hname (hv u hu), listLine_nowhere (hv u hu)]
    split
    · exact Nat.le_refl _
    · refine (countP_echo_name _ _).trans ?_
      rw [renamed]
      split
      · rw [hnone]
        exact Nat.zero_le _
      · exact Nat.le_refl _
  have heq := eq_of_sum_le hle hcount.le v hmem
  have hne : actualValue v ≠ [] := by
    intro hnil
    rw [hnil] at hmeta
    cases hmeta
  have hbar : (actualValue v ++ ['|']).any (· ∈ metaChars) = true := by
    rw [List.any_append, hmeta]
    rfl
  have hpos : 0 < (actualValue v ++ ['|']).countP (· ∈ metaChars) := by
    obtain ⟨x, hx, hm⟩ := List.any_eq_true.mp hbar
    exact List.countP_pos_iff.mpr ⟨x, hx, hm⟩
  rw [listLine_single hname (hv v hmem), listLine_nowhere (hv v hmem), if_neg hne, if_neg hne,
    renamed, if_pos ⟨hbar, hfit⟩] at heq
  have hzero := countP_echo_name (· ∈ metaChars) name
  omega

/-- A command does the same in every directory when no word that it prints is a pattern for
another name and no file is tested. For `-a` and `-x` that is also needed where `echo` prints
the words it gets, for `-list` where every value is one word and as far as names without pattern
characters go. -/
theorem independent_iff_steady {c : WordCommand} (hc : c.Plain) :
    (c.Steady fits conf → Independent fits k conf c) ∧
      (c ≠ .list → (∀ v ∈ c.values conf, Echoed v) →
        (Independent fits k conf c ↔ c.Steady fits conf)) ∧
      (c = .list → (∀ v ∈ c.values conf, ∀ x ∈ actualValue v, isBlank x = false) →
        Independent fits k conf c →
          ∀ v ∈ c.values conf, (actualValue v).any (· ∈ metaChars) = true →
            ∀ name ≠ [], (∀ x ∈ name, x ∉ metaChars) →
              fits (actualValue v ++ ['|']) name = false) :=
  ⟨fun h => h.independent hc,
    fun hne he => ⟨fun h => h.steady hc hne he, fun h => h.independent hc⟩,
    fun hlist hv h => h.listed hlist hv⟩

end

/-- Files that stand every test, and no other operators. -/
def noKinds : FileKinds := ⟨fun _ _ => true, fun _ _ _ => true, noOps⟩

/-- A file with a section. -/
def globalConf : List Line := ["[global]".toList, "workgroup = WORKGROUP".toList]

/-- Without a header nothing is a pattern; a header behind the marker is one for `-list`. -/
theorem independent_setting :
    Independent fnmatchAll noKinds ["workgroup = WORKGROUP".toList] (.remove "music".toList) ∧
      Independent fnmatchAll noKinds ["#==".toList, "path = /usb/music".toList] .list ∧
      ¬ Independent fnmatchAll noKinds ["#==".toList, "[music]".toList] .list := by
  have hname : IsWord "music".toList := by decide
  have hc : (WordCommand.remove "music".toList).Plain := hname
  refine ⟨(independent_iff_steady hc).1 fun v hv w hw => .of_plain ?_,
    (independent_iff_steady (c := .list) trivial).1 fun v hv => ?_, fun h => ?_⟩
  · have hvalues : (WordCommand.remove "music".toList).values ["workgroup = WORKGROUP".toList] =
        ["workgroup = WORKGROUP".toList] := by decide +kernel
    rw [hvalues, List.mem_singleton] at hv
    subst hv
    have hwords : ∀ w ∈ splitWords "workgroup = WORKGROUP".toList, ∀ c ∈ w, c ∉ metaChars := by
      decide +kernel
    exact hwords w hw
  · have hall : ∀ v ∈ WordCommand.list.values ["#==".toList, "path = /usb/music".toList],
        (∀ w ∈ splitWords (actualValue v), ∀ c ∈ w, c ∉ metaChars) ∧
        (∀ w ∈ splitWords (actualValue v ++ ['|']), ∀ c ∈ w, c ∉ metaChars) ∧
        (splitWords (actualValue v)).length ≤ 1 := by decide +kernel
    obtain ⟨htested, hprinted, hone⟩ := hall v hv
    exact ⟨fun w hw => .of_plain (htested w hw), fun w hw => .of_plain (hprinted w hw), .inl hone⟩
  · have hwords : ∀ v ∈ WordCommand.list.values ["#==".toList, "[music]".toList],
        ∀ x ∈ actualValue v, isBlank x = false := by decide +kernel
    have hvalue : "[music]".toList ∈ WordCommand.list.values ["#==".toList, "[music]".toList] ∧
        (actualValue "[music]".toList).any (· ∈ metaChars) = true ∧
        (∀ x ∈ "m|".toList, x ∉ metaChars) ∧
        fnmatchAll (actualValue "[music]".toList ++ ['|']) "m|".toList = true := by decide +kernel
    obtain ⟨hmem, hmeta, hplain, hfits⟩ := hvalue
    have hnone := (independent_iff_steady (c := .list) trivial).2.2 rfl hwords h _ hmem hmeta
      "m|".toList (by decide) hplain
    exact Bool.false_ne_true (hnone.symm.trans hfits)

/-- `-list` says whether there is a file `x`. -/
example : (smbshareIn fnmatchAll noKinds .empty .list ["#==".toList, "k = a\t-o\t-e\tx".toList]).2 ≠
    (smbshareIn fnmatchAll noKinds (.single ['x'] (by decide)) .list
      ["#==".toList, "k = a\t-o\t-e\tx".toList]).2 := by decide +kernel

/-- In a directory with a file `g` the header `[global]` becomes `g`. -/
theorem global_renamed : ¬ Independent fnmatchAll noKinds globalConf (.remove "music".toList) := by
  intro h
  have hsame := h.same .empty (.single ['g'] (by decide))
  have hdiffer : (smbshareIn fnmatchAll noKinds .empty (.remove "music".toList) globalConf).1 ≠
      (smbshareIn fnmatchAll noKinds (.single ['g'] (by decide)) (.remove "music".toList)
        globalConf).1 := by decide +kernel
  exact hdiffer (congrArg Prod.fst hsame)

end SnakeOs.Samba
