import SnakeOs.Lib.Files

/-! Lines that are read, split, expanded and printed again: what can change and what cannot. -/

namespace SnakeOs.Lib

theorem mem_readPart (startword : Bool) (line : Line) :
    ∀ c ∈ (readPart startword line).chars, c ∈ line := by
  fun_induction readPart startword line with
  | case1 => simp
  | case2 => simp
  | case3 startword d rest r ih =>
    intro c hc
    rcases List.mem_cons.mp hc with rfl | hc
    · simp
    · simp [ih c hc]
  | case4 startword c rest hc hb ih => exact fun x hx => List.mem_cons_of_mem _ (ih x hx)
  | case5 startword c rest hc hb r ih =>
    intro x hx
    rcases List.mem_cons.mp hx with rfl | hx
    · exact List.mem_cons_self
    · exact List.mem_cons_of_mem _ (ih x hx)

/-- Behind the first character of a word no blank is skipped. -/
theorem readPart_startword (line : Line) : (readPart false line).startword = false := by
  generalize hs : false = startword
  fun_induction readPart startword line with
  | case1 => rfl
  | case2 => rfl
  | case3 startword d rest r ih => exact ih hs
  | case4 startword c rest hc hb ih => exact ih hs
  | case5 startword c rest hc hb r ih => exact (ih rfl).trans hs

/-- A backslash is taken away, and one that joins lines is not seen again. -/
theorem readPart_count (startword : Bool) (line : Line) :
    (readPart startword line).chars.count '\\' + (readPart startword line).joined.toNat ≤
      line.count '\\' := by
  fun_induction readPart startword line with
  | case1 => simp
  | case2 => simp
  | case3 startword d rest r ih =>
    have ih : r.chars.count '\\' + r.joined.toNat ≤ rest.count '\\' := ih
    simp only [List.count_cons, beq_self_eq_true, ↓reduceIte]
    split <;> omega
  | case4 startword c rest hc hb ih =>
    rw [List.count_cons_of_ne hc]
    exact ih
  | case5 startword c rest hc hb r ih =>
    rw [List.count_cons_of_ne hc]
    simp only [List.count_cons_of_ne hc]
    exact ih

/-- The first character that is not blank. -/
def firstChar (line : Line) : Option Char := (line.dropWhile isBlank).head?

/-- A line that is read and printed as one line; a section header has no backslash. -/
structure Ordinary (line : Line) : Prop where
  newline : '\n' ∉ line
  dash : firstChar line ≠ some '-'
  escape : firstChar line ≠ some '\\'
  header : firstChar line = some '[' → '\\' ∉ line

/-- A value read from ordinary lines. -/
structure Value (lines : List Line) (v : Line) : Prop where
  newline : '\n' ∉ v
  trimmed : trim v = v
  dash : v.head? ≠ some '-'
  escape : v.head? ≠ some '\\'
  header : v.head? = some '[' → '\\' ∉ v ∧ ∃ l ∈ lines, v = trim l

/-- The two kinds of lines for `read`. -/
theorem readPart_true (line : Line) (he : firstChar line ≠ some '\\') :
    (firstChar line = none ∧ readPart true line = ⟨[], true, false⟩) ∨
      ∃ c cs, firstChar line = some c ∧ line.dropWhile isBlank = c :: cs ∧ isBlank c = false ∧
        readPart true line = ⟨c :: (readPart false cs).chars, false, (readPart false cs).joined⟩ := by
  induction line with
  | nil => exact .inl ⟨rfl, rfl⟩
  | cons c line ih =>
    cases hb : isBlank c with
    | true =>
      have hfirst : firstChar (c :: line) = firstChar line := by simp [firstChar, hb]
      have hdrop : (c :: line).dropWhile isBlank = line.dropWhile isBlank := by simp [hb]
      have hc : c ≠ '\\' := by
        rintro rfl
        cases hb
      have hread : readPart true (c :: line) = readPart true line := by
        rw [readPart.eq_def]
        simp [hc, hb]
      rw [hfirst] at he ⊢
      rw [hdrop, hread]
      exact ih he
    | false =>
      have hfirst : firstChar (c :: line) = some c := by simp [firstChar, hb]
      have hc : c ≠ '\\' := fun h => he (by rw [hfirst, h])
      refine .inr ⟨c, line, hfirst, by simp [hb], hb, ?_⟩
      rw [readPart.eq_def]
      simp [hc, hb, readPart_startword]

theorem trimEnd_le (line : Line) : trimEnd line <+: line := List.rdropWhile_prefix isBlank line

theorem trimEnd_idem (line : Line) : trimEnd (trimEnd line) = trimEnd line :=
  List.rdropWhile_idempotent isBlank line

/-- Only the end of a text that starts well is trimmed. -/
theorem trim_trimEnd {c : Char} (hc : isBlank c = false) (cs : Line) :
    (trimEnd (c :: cs)).head? = some c ∧ trim (trimEnd (c :: cs)) = trimEnd (c :: cs) := by
  have hne : trimEnd (c :: cs) ≠ [] := by
    intro he
    have := List.rdropWhile_eq_nil_iff.mp he c List.mem_cons_self
    rw [hc] at this
    cases this
  obtain ⟨rest, hrest⟩ := trimEnd_le (c :: cs)
  cases hv : trimEnd (c :: cs) with
  | nil => exact absurd hv hne
  | cons d ds =>
    rw [hv] at hrest
    obtain rfl := (List.cons.inj hrest).1
    refine ⟨rfl, ?_⟩
    have hidem := trimEnd_idem (d :: cs)
    rw [hv] at hidem
    rw [trim, List.dropWhile_cons_of_neg (by simp [hc]), hidem]

theorem firstChar_of_trim {line : Line} {c : Char} (h : (trim line).head? = some c) :
    firstChar line = some c := by
  obtain ⟨rest, hrest⟩ := trimEnd_le (line.dropWhile isBlank)
  obtain ⟨cs, hcs⟩ := List.head?_eq_some_iff.mp h
  have hdrop : line.dropWhile isBlank = c :: (cs ++ rest) := by
    rw [← hrest, ← List.cons_append, ← hcs]
    rfl
  rw [firstChar, hdrop]
  rfl

theorem trim_head {line : Line} {c : Char} (h : firstChar line = some c) :
    (trim line).head? = some c := by
  have hc : isBlank c = false := by
    have := List.head?_dropWhile_not isBlank line
    rw [firstChar] at h
    rw [h] at this
    simpa using this
  obtain ⟨cs, hcs⟩ := List.head?_eq_some_iff.mp h
  rw [trim, hcs]
  exact (trim_trimEnd hc cs).1

/-- What `read` has taken when it goes on with the next line. -/
def Going (startword : Bool) (taken : Line) : Prop :=
  (startword = true ∧ taken = []) ∨ (startword = false ∧ ∃ c cs, taken = c :: cs ∧
    isBlank c = false ∧ c ≠ '-' ∧ c ≠ '\\' ∧ c ≠ '[')

theorem Value.mono {lines lines' : List Line} {v : Line} (h : Value lines v) (hs : lines ⊆ lines') :
    Value lines' v :=
  ⟨h.newline, h.trimmed, h.dash, h.escape, fun hv =>
    ⟨(h.header hv).1, (h.header hv).2.imp fun _ hl => ⟨hs hl.1, hl.2⟩⟩⟩

theorem Value.nil (lines : List Line) : Value lines [] := ⟨by simp, rfl, by simp, by simp, by simp⟩

/-- A text that starts like no header. -/
theorem Value.of_start {lines : List Line} {c : Char} {cs : Line} (hn : '\n' ∉ c :: cs)
    (hc : isBlank c = false ∧ c ≠ '-' ∧ c ≠ '\\' ∧ c ≠ '[') : Value lines (trimEnd (c :: cs)) := by
  obtain ⟨hb, hdash, hesc, hset⟩ := hc
  obtain ⟨hhead, htrim⟩ := trim_trimEnd hb cs
  refine ⟨fun hm => hn ((trimEnd_le _).subset hm), htrim, ?_, ?_, ?_⟩ <;> rw [hhead]
  · simpa using hdash
  · simpa using hesc
  · intro h
    exact absurd (Option.some.inj h) hset

theorem Value.of_header {lines : List Line} {line : Line} (hm : line ∈ lines) (ho : Ordinary line)
    (hset : firstChar line = some '[') : Value lines (trim line) := by
  obtain ⟨cs, hdrop⟩ : ∃ cs, line.dropWhile isBlank = '[' :: cs := by
    rw [firstChar, List.head?_eq_some_iff] at hset
    exact hset
  obtain ⟨hhead, htrim⟩ := trim_trimEnd (c := '[') rfl cs
  rw [← hdrop] at hhead htrim
  have hin := trim_infix line
  refine ⟨fun hc => ho.newline (hin.subset hc), htrim, ?_, ?_, fun _ =>
    ⟨fun hc => ho.header hset (hin.subset hc), line, hm, rfl⟩⟩ <;>
  · rw [trim, hhead]
    decide

/-- The values read from ordinary lines. -/
theorem readLines_value {lines : List Line} (h : ∀ l ∈ lines, Ordinary l) {startword : Bool}
    {taken : Line} (hg : Going startword taken) (hn : '\n' ∉ taken) :
    ∀ v ∈ readLines startword taken lines, Value lines v := by
  induction lines generalizing startword taken with
  | nil => simp [readLines]
  | cons line lines ih =>
    have hline := h line List.mem_cons_self
    have ih {s : Bool} {t : Line} (hg : Going s t) (hn : '\n' ∉ t) :
        ∀ v ∈ readLines s t lines, Value (line :: lines) v := fun v hv =>
      (ih (fun l hl => h l (List.mem_cons_of_mem _ hl)) hg hn v hv).mono (List.subset_cons_self _ _)
    have hstart : Going true [] := .inl ⟨rfl, rfl⟩
    have hmem (s : Bool) : '\n' ∉ (readPart s line).chars := fun hm =>
      hline.newline (mem_readPart s line _ hm)
    rcases hg with ⟨rfl, rfl⟩ | ⟨rfl, c, cs, rfl, hc⟩
    · rcases readPart_true line hline.escape with ⟨-, hr⟩ | ⟨c, cs, hfirst, hdrop, hb, hr⟩
      · simp only [readLines, hr, Bool.false_eq_true, ↓reduceIte, List.append_nil, List.mem_cons]
        rintro v (rfl | hv)
        · exact Value.nil _
        · exact ih hstart (by simp) v hv
      · by_cases hset : c = '['
        · -- the line is a header and is read as it is
          have hesc := hline.header (hset ▸ hfirst)
          obtain ⟨hchars, hjoined⟩ := readPart_start hesc
          have htrim : trimEnd ([] ++ (readPart true line).chars) = trim line := by
            rw [List.nil_append, hchars, trim]
          simp only [readLines, hjoined, Bool.false_eq_true, ↓reduceIte, htrim, List.mem_cons]
          rintro v (rfl | hv)
          · exact Value.of_header List.mem_cons_self hline (hset ▸ hfirst)
          · exact ih hstart (by simp) v hv
        · have hc : isBlank c = false ∧ c ≠ '-' ∧ c ≠ '\\' ∧ c ≠ '[' :=
            ⟨hb, fun he => hline.dash (he ▸ hfirst), fun he => hline.escape (he ▸ hfirst), hset⟩
          have hnew : '\n' ∉ c :: (readPart false cs).chars := by
            have := hmem true
            rwa [hr] at this
          simp only [readLines, hr, List.nil_append]
          split
          · exact ih (.inr ⟨rfl, c, _, rfl, hc⟩) hnew
          · intro v hv
            rcases List.mem_cons.mp hv with rfl | hv
            · exact Value.of_start hnew hc
            · exact ih hstart (by simp) v hv
    · have hnew : '\n' ∉ c :: cs ++ (readPart false line).chars := by
        rw [List.mem_append, not_or]
        exact ⟨hn, hmem false⟩
      simp only [readLines, readPart_startword]
      split
      · exact ih (.inr ⟨rfl, c, _, List.cons_append .., hc⟩) hnew
      · intro v hv
        rcases List.mem_cons.mp hv with rfl | hv
        · exact Value.of_start (by simpa using hnew) hc
        · exact ih hstart (by simp) v hv

/-- Every line that is joined to the next one costs a backslash. -/
theorem readLines_count (lines : List Line) (startword : Bool) (taken : Line) :
    lines.length + (readLines startword taken lines).flatten.count '\\' ≤
      (readLines startword taken lines).length + lines.flatten.count '\\' + taken.count '\\' := by
  induction lines generalizing startword taken with
  | nil => simp [readLines]
  | cons line lines ih =>
    have hpart := readPart_count startword line
    simp only [List.length_cons, List.flatten_cons, List.count_append]
    cases hj : (readPart startword line).joined with
    | true =>
      have hrest := ih (readPart startword line).startword
        (taken ++ (readPart startword line).chars)
      rw [hj] at hpart
      simp only [readLines, hj, ↓reduceIte]
      simp only [List.count_append, Bool.toNat_true] at hrest hpart
      omega
    | false =>
      have hrest := ih true []
      have hend := (trimEnd_le (taken ++ (readPart startword line).chars)).sublist.count_le '\\'
      rw [hj] at hpart
      simp only [readLines, hj, Bool.false_eq_true, ↓reduceIte, List.length_cons,
        List.flatten_cons, List.count_append, List.count_nil, Bool.toNat_false] at hrest hpart hend ⊢
      omega

/-- An empty line ends what is joined. -/
theorem readLines_append_blank (xs ys : List Line) (startword : Bool) (taken : Line) :
    readLines startword taken (xs ++ [] :: ys) =
      readLines startword taken (xs ++ [[]]) ++ readLines true [] ys := by
  induction xs generalizing startword taken with
  | nil => simp [readLines, readPart]
  | cons x xs ih =>
    simp only [List.cons_append, readLines]
    split
    · exact ih _ _
    · rw [ih, List.cons_append]

/-- `cut -c 1` shows the first character of a value. -/
theorem Value.cut {lines : List Line} {v : Line} (h : Value lines v) (c : Char) :
    cutBytes 1 (captured (echo [v])) = [c] ↔ v.head? = some c := by
  have hcap : captured (echo [v]) = v := by
    rw [echo_words h.dash, List.intercalate_singleton, captured,
      List.takeWhile_append_of_pos fun d hd => by
        simpa using fun he : d = '\n' => h.newline (he ▸ hd)]
    simp
  rw [hcap, cutBytes]
  cases v <;> simp

/-- The names a pattern can give have no newline and no backslash, and do not start with a
blank, a dash or a bracket. -/
def PlainNames (files : Line → List Line) : Prop :=
  ∀ w, ∀ n ∈ files w, '\n' ∉ n ∧ '\\' ∉ n ∧
    ∃ c cs, n = c :: cs ∧ isBlank c = false ∧ c ≠ '-' ∧ c ≠ '['

/-- The names of a directory that a pattern matches. -/
theorem metaOnly_plain {files : Line → List Line} (hf : PlainNames files) :
    PlainNames (metaOnly files) := by
  intro w n hn
  unfold Lib.metaOnly at hn
  split at hn
  · exact hf w n hn
  · cases hn

/-- What `echo` prints for the words of a value. -/
def printedLine (files : Line → List Line) (v : Line) : Line := [' '].intercalate (unquoted files [v])

theorem splitWords_blank {b : Char} (hb : isBlank b = true) (v : Line) :
    splitWords (b :: v) = splitWords v := by
  simp [splitWords, List.splitOnP_cons_eq_if_modifyHead, hb]

/-- A text that starts with no blank starts with a word. -/
theorem splitWords_cons {c : Char} (hc : isBlank c = false) (cs : Line) :
    ∃ w, Word (c :: w) ∧ ((cs = w ∧ splitWords (c :: cs) = [c :: w]) ∨
      ∃ b rest, isBlank b = true ∧ cs = w ++ b :: rest ∧
        splitWords (c :: cs) = (c :: w) :: splitWords rest) := by
  have hword : Word (c :: cs.takeWhile fun d => !isBlank d) := by
    refine ⟨List.cons_ne_nil _ _, fun d hd => ?_⟩
    rcases List.mem_cons.mp hd with rfl | hd
    · exact hc
    · simpa using List.mem_takeWhile_imp hd
  have hsplit := List.takeWhile_append_dropWhile (p := fun d => !isBlank d) (l := cs)
  refine ⟨_, hword, ?_⟩
  cases hd : cs.dropWhile fun d => !isBlank d with
  | nil =>
    rw [hd, List.append_nil] at hsplit
    rw [hsplit] at hword ⊢
    exact .inl ⟨rfl, hword.split⟩
  | cons b rest =>
    have hb : isBlank b = true := by
      have := List.head_dropWhile_not (fun d => !isBlank d) (l := cs) (by rw [hd]; simp)
      simpa [hd] using this
    rw [hd] at hsplit
    refine .inr ⟨b, rest, hb, hsplit.symm, ?_⟩
    conv_lhs => rw [← hsplit, ← List.cons_append, splitWords,
      List.splitOnP_append_cons_of_forall_mem hword.2 b hb]
    simp [splitWords]

/-- A text that starts with a word's characters starts with a word. -/
theorem splitWords_start {head : Line} (hne : head ≠ []) (hb : ∀ c ∈ head, isBlank c = false)
    (more : Line) :
    ∃ u ws, splitWords (head ++ more) = (head ++ u) :: ws := by
  obtain ⟨c, head, rfl⟩ := List.exists_cons_of_ne_nil hne
  obtain ⟨w, -, ⟨he, hs⟩ | ⟨b, rest, hblank, he, hs⟩⟩ :=
    splitWords_cons (hb c List.mem_cons_self) (head ++ more)
  · exact ⟨more, [], by rw [List.cons_append, hs, ← he]⟩
  · rcases List.append_eq_append_iff.mp he with ⟨as, hw, -⟩ | ⟨as, hhead, hrest⟩
    · exact ⟨as, splitWords rest, by rw [List.cons_append, hs, hw]; rfl⟩
    · -- the blank behind the word is none of the head's characters
      cases as with
      | nil => exact ⟨[], splitWords rest, by rw [List.cons_append, hs, hhead]; simp⟩
      | cons d as =>
        obtain rfl : b = d := (List.cons.inj hrest).1
        have hmem : b ∈ c :: head := by simp [hhead]
        rw [hb b hmem] at hblank
        cases hblank

/-- A blank ends the words before it. -/
theorem splitWords_append {b : Char} (hb : isBlank b = true) (xs ys : Line) :
    splitWords (xs ++ b :: ys) = splitWords xs ++ splitWords ys := by
  rw [splitWords, List.splitOnP_append_cons xs ys hb, List.filter_append]
  rfl

theorem splitWords_of_blank {v : Line} (h : ∀ c ∈ v, isBlank c = true) : splitWords v = [] := by
  induction v with
  | nil => rfl
  | cons c v ih =>
    rw [splitWords_blank (h c List.mem_cons_self), ih fun d hd => h d (List.mem_cons_of_mem c hd)]

/-- Blanks around a text are no part of its words. -/
theorem splitWords_trim (v : Line) : splitWords (trim v) = splitWords v := by
  have hstart : splitWords (v.dropWhile isBlank) = splitWords v := by
    induction v with
    | nil => rfl
    | cons c v ih =>
      cases hc : isBlank c with
      | true => rw [List.dropWhile_cons_of_pos hc, ih, splitWords_blank hc]
      | false => rw [List.dropWhile_cons_of_neg (by simp [hc])]
  have hend := List.rdropWhile_append_rtakeWhile (p := isBlank) (l := v.dropWhile isBlank)
  have hblank : ∀ c ∈ (v.dropWhile isBlank).rtakeWhile isBlank, isBlank c = true :=
    fun c hc => List.mem_rtakeWhile_imp hc
  rw [← hstart, trim, trimEnd]
  cases ht : (v.dropWhile isBlank).rtakeWhile isBlank with
  | nil =>
    rw [ht, List.append_nil] at hend
    rw [hend]
  | cons b t =>
    rw [ht] at hend hblank
    conv_rhs => rw [← hend, splitWords_append (hblank b List.mem_cons_self)]
    rw [splitWords_of_blank fun c hc => hblank c (List.mem_cons_of_mem b hc), List.append_nil]

theorem mem_splitWords {v : Line} : ∀ w ∈ splitWords v, Word w ∧ w <:+: v := by
  match v with
  | [] => simp [splitWords]
  | c :: cs =>
    cases hc : isBlank c with
    | true =>
      rw [splitWords_blank hc]
      exact fun w hw => ⟨(mem_splitWords w hw).1, List.infix_cons (mem_splitWords w hw).2⟩
    | false =>
      obtain ⟨w, hword, ⟨rfl, hs⟩ | ⟨b, rest, -, rfl, hs⟩⟩ := splitWords_cons hc cs
      · rw [hs]
        simpa using hword
      · rw [hs]
        intro x hx
        rcases List.mem_cons.mp hx with rfl | hx
        · exact ⟨hword, [], b :: rest, by simp⟩
        · have hrest := mem_splitWords x hx
          exact ⟨hrest.1, hrest.2.trans ⟨c :: w ++ [b], [], by simp⟩⟩
  termination_by v.length

/-- A text without pattern characters is only split. -/
theorem unquoted_metaOnly (files : Line → List Line) {v : Line} (h : ∀ c ∈ v, c ∉ metaChars) :
    unquoted (metaOnly files) [v] = splitWords v := by
  have hword : ∀ w ∈ splitWords v, expandWord (metaOnly files) w = [w] := by
    intro w hw
    have hin := (mem_splitWords w hw).2
    have hmeta : w.any (· ∈ metaChars) = false := by simpa using fun c hc => h c (hin.subset hc)
    simp [expandWord, metaOnly, hmeta]
  rw [unquoted, List.flatMap_singleton, List.flatMap_congr hword, List.flatMap_singleton']

/-- Splitting loses blanks only. -/
theorem splitWords_count {c : Char} (hc : isBlank c = false) (v : Line) :
    (splitWords v).flatten.count c = v.count c := by
  have hne {b : Char} (hb : isBlank b = true) : b ≠ c := fun he => by
    rw [he, hc] at hb
    cases hb
  match v with
  | [] => simp [splitWords]
  | d :: ds =>
    cases hd : isBlank d with
    | true => rw [splitWords_blank hd, splitWords_count hc, List.count_cons_of_ne (hne hd)]
    | false =>
      obtain ⟨w, -, ⟨rfl, hs⟩ | ⟨b, rest, hb, rfl, hs⟩⟩ := splitWords_cons hd ds
      · rw [hs]
        simp
      · rw [hs, List.flatten_cons, List.count_append, splitWords_count hc rest, ← List.cons_append,
          List.count_append, List.count_cons_of_ne (hne hb)]
  termination_by v.length

theorem isBlank_of_splitWords {v : Line} (h : splitWords v = []) : ∀ c ∈ v, isBlank c = true := by
  intro c hc
  by_contra hb
  have hcount := splitWords_count (Bool.eq_false_iff.mpr hb) v
  rw [h, List.flatten_nil, List.count_nil] at hcount
  exact absurd hc (List.count_eq_zero.mp hcount.symm)

theorem head_not_blank {c : Char} {cs : Line} (h : trim (c :: cs) = c :: cs) : isBlank c = false := by
  by_contra hb
  have hb : isBlank c = true := by simpa using hb
  have hlen : (trim (c :: cs)).length ≤ cs.length := by
    rw [trim, List.dropWhile_cons_of_pos hb]
    exact (trimEnd_le _).length_le.trans (List.dropWhile_suffix isBlank).length_le
  rw [h, List.length_cons] at hlen
  exact absurd hlen (Nat.not_succ_le_self _)

/-- A trimmed text of one word is the word. -/
theorem eq_of_splitWords {v w : Line} (ht : trim v = v) (h : splitWords v = [w]) : v = w := by
  cases v with
  | nil => simp [splitWords] at h
  | cons c cs =>
    obtain ⟨x, -, ⟨rfl, hs⟩ | ⟨b, rest, hb, rfl, hs⟩⟩ := splitWords_cons (head_not_blank ht) cs
    · rw [hs] at h
      exact (List.cons.inj h).1
    · -- the rest would be blank, and the end trimmed
      rw [hs] at h
      have hblank := isBlank_of_splitWords (List.cons.inj h).2
      have hend : trimEnd (c :: (x ++ b :: rest)) = c :: (x ++ b :: rest) := by
        conv_lhs => rw [← ht, trim, trimEnd_idem]
        exact ht
      have hlast := List.rdropWhile_eq_self_iff.mp hend (List.cons_ne_nil _ _)
      have hmem : (c :: (x ++ b :: rest)).getLast (List.cons_ne_nil _ _) ∈ b :: rest := by
        simp only [← List.cons_append]
        rw [List.getLast_append_of_right_ne_nil _ _ (List.cons_ne_nil b rest)]
        exact List.getLast_mem _
      refine absurd ?_ hlast
      rcases List.mem_cons.mp hmem with he | hm
      · rw [he]
        exact hb
      · exact hblank _ hm

/-- Printing adds blanks only. -/
theorem intercalate_count {c : Char} (hc : c ≠ ' ') (ws : List Line) :
    ([' '].intercalate ws).count c = ws.flatten.count c := by
  induction ws with
  | nil => rfl
  | cons w ws ih =>
    cases ws with
    | nil => simp
    | cons v ws =>
      rw [List.intercalate_cons_cons, List.flatten_cons, List.count_append, List.count_append, ih,
        List.count_append, List.count_singleton, if_neg (by simpa using Ne.symm hc), Nat.add_zero]

theorem mem_expandWord {files : Line → List Line} {w x : Line} (h : x ∈ expandWord files w) :
    x = w ∨ x ∈ files w := by
  unfold expandWord at h
  split at h
  · exact .inl (List.mem_singleton.mp h)
  · exact .inr h

theorem expandWord_ne_nil (files : Line → List Line) (w : Line) : expandWord files w ≠ [] := by
  unfold expandWord
  split <;> simp_all

section
variable {files : Line → List Line} (hf : PlainNames files) {lines : List Line} {v : Line}

include hf

/-- Where a word of an expanded text comes from. -/
theorem mem_unquoted_value {x : Line} (h : x ∈ unquoted files [v]) : (Word x ∧ x <:+: v) ∨
    ('\n' ∉ x ∧ '\\' ∉ x ∧ ∃ c cs, x = c :: cs ∧ isBlank c = false ∧ c ≠ '-' ∧ c ≠ '[') := by
  rw [unquoted, List.flatMap_singleton] at h
  obtain ⟨w, hw, hx⟩ := List.mem_flatMap.mp h
  obtain ⟨hword, hin⟩ := mem_splitWords w hw
  rcases mem_expandWord hx with rfl | hx
  · exact .inl ⟨hword, hin⟩
  · exact .inr (hf w x hx)

theorem expandWord_count (w : Line) : (expandWord files w).flatten.count '\\' ≤ w.count '\\' := by
  unfold expandWord
  split
  · simp
  · have hzero : (files w).flatten.count '\\' = 0 := by
      rw [List.count_eq_zero]
      intro hm
      obtain ⟨n, hn, hc⟩ := List.mem_flatten.mp hm
      exact (hf w n hn).2.1 hc
    rw [hzero]
    exact Nat.zero_le _

/-- Expansion adds no backslash. -/
theorem unquoted_count (v : Line) : (unquoted files [v]).flatten.count '\\' ≤ v.count '\\' := by
  rw [unquoted, List.flatMap_singleton, ← splitWords_count (c := '\\') rfl v]
  induction splitWords v with
  | nil => simp
  | cons w ws ih =>
    simp only [List.flatMap_cons, List.flatten_append, List.flatten_cons, List.count_append]
    exact Nat.add_le_add (expandWord_count hf w) ih

/-- The first word of a text stays or is a name in its place. -/
theorem unquoted_start {c : Char} (hc : isBlank c = false) (cs : Line) :
    (∃ w, Word (c :: w) ∧ ((splitWords (c :: cs) = [c :: w] ∧ unquoted files [c :: cs] = [c :: w]) ∨
        ∃ y ys, unquoted files [c :: cs] = (c :: w) :: y :: ys)) ∨
      ∃ d ds us, unquoted files [c :: cs] = (d :: ds) :: us ∧ isBlank d = false ∧ d ≠ '-' ∧
        d ≠ '\\' ∧ d ≠ '[' := by
  obtain ⟨w, ws, hword, hs⟩ : ∃ w ws, Word (c :: w) ∧ splitWords (c :: cs) = (c :: w) :: ws := by
    obtain ⟨w, hword, ⟨-, hs⟩ | ⟨b, rest, -, -, hs⟩⟩ := splitWords_cons hc cs
    · exact ⟨w, [], hword, hs⟩
    · exact ⟨w, splitWords rest, hword, hs⟩
  have hun : unquoted files [c :: cs] =
      expandWord files (c :: w) ++ ws.flatMap (expandWord files) := by
    rw [unquoted, List.flatMap_singleton, hs, List.flatMap_cons]
  cases hfiles : files (c :: w) with
  | nil =>
    have he : expandWord files (c :: w) = [c :: w] := by rw [expandWord, hfiles]
    rw [he, List.singleton_append] at hun
    refine .inl ⟨w, hword, ?_⟩
    cases ws with
    | nil => exact .inl ⟨hs, hun⟩
    | cons x xs =>
      cases hx : expandWord files x with
      | nil => exact absurd hx (expandWord_ne_nil files x)
      | cons y ys =>
        rw [List.flatMap_cons, hx] at hun
        exact .inr ⟨y, _, hun⟩
  | cons x xs =>
    have he : expandWord files (c :: w) = x :: xs := by rw [expandWord, hfiles]
    obtain ⟨-, hesc, d, ds, rfl, hd, hdash, hset⟩ := hf (c :: w) x (by simp [hfiles])
    rw [he, List.cons_append] at hun
    exact .inr ⟨d, ds, _, hun, hd, hdash, fun hm => hesc (hm ▸ List.mem_cons_self), hset⟩

/-- A value is printed as one ordinary line, with no more backslashes. -/
theorem Value.echo (h : Value lines v) :
    echo (unquoted files [v]) = printedLine files v ++ ['\n'] ∧ Ordinary (printedLine files v) ∧
      (printedLine files v).count '\\' ≤ v.count '\\' := by
  have hcount : (printedLine files v).count '\\' ≤ v.count '\\' := by
    rw [printedLine, intercalate_count (by decide)]
    exact unquoted_count hf v
  have hnewline : '\n' ∉ printedLine files v := by
    intro hm
    rcases mem_intercalate hm with hc | ⟨w, hw, hc⟩
    · cases hc
    · rcases mem_unquoted_value hf hw with ⟨-, hin⟩ | ⟨hn, -⟩
      · exact h.newline (hin.subset hc)
      · exact hn hc
  cases v with
  | nil =>
    have hnil : unquoted files [[]] = [] := rfl
    simp only [printedLine, hnil]
    exact ⟨rfl, ⟨by simp, by simp [firstChar], by simp [firstChar], by simp⟩, by simp⟩
  | cons c cs =>
    have hc := head_not_blank h.trimmed
    obtain ⟨d, ds, us, hun, hd, hor⟩ : ∃ d ds us, unquoted files [c :: cs] = (d :: ds) :: us ∧
        isBlank d = false ∧ (d = c ∨ (d ≠ '-' ∧ d ≠ '\\' ∧ d ≠ '[')) := by
      rcases unquoted_start hf hc cs with ⟨w, -, ⟨-, hun⟩ | ⟨y, ys, hun⟩⟩ | ⟨d, ds, us, hun, hd, hor⟩
      · exact ⟨c, w, [], hun, hc, .inl rfl⟩
      · exact ⟨c, w, y :: ys, hun, hc, .inl rfl⟩
      · exact ⟨d, ds, us, hun, hd, .inr hor⟩
    have hprinted : ∃ rest, printedLine files (c :: cs) = d :: rest := by
      rw [printedLine, hun]
      cases us with
      | nil => exact ⟨ds, by simp⟩
      | cons u us => exact ⟨_, by rw [List.intercalate_cons_cons]; rfl⟩
    obtain ⟨rest, hrest⟩ := hprinted
    have hfirst : firstChar (printedLine files (c :: cs)) = some d := by
      rw [hrest, firstChar, List.dropWhile_cons_of_neg (by simp [hd])]
      rfl
    have hdash : d ≠ '-' := by
      rcases hor with rfl | hor
      · simpa using h.dash
      · exact hor.1
    have hesc : d ≠ '\\' := by
      rcases hor with rfl | hor
      · simpa using h.escape
      · exact hor.2.1
    refine ⟨?_, ⟨hnewline, ?_, ?_, fun hset => ?_⟩, hcount⟩
    · rw [printedLine, hun]
      exact echo_words (by simpa using hdash) us
    · rw [hfirst]
      simpa using hdash
    · rw [hfirst]
      simpa using hesc
    · rw [hfirst] at hset
      obtain rfl := Option.some.inj hset
      rcases hor with rfl | hor
      · have hzero := List.count_eq_zero.mpr (h.header rfl).1
        rw [hzero] at hcount
        exact List.count_eq_zero.mp (Nat.le_zero.mp hcount)
      · exact absurd rfl hor.2.2

/-- What is printed as a header was read as the header. -/
theorem eq_of_printedLine (h : Value lines v) {w : Line} (hw : Word w) (hset : w.head? = some '[')
    (he : trim (printedLine files v) = w) : v = w := by
  have hsplit : splitWords (printedLine files v) = [w] := by
    rw [← splitWords_trim, he, hw.split]
  cases v with
  | nil =>
    have hnil : splitWords (printedLine files []) = [] := rfl
    rw [hnil] at hsplit
    cases hsplit
  | cons c cs =>
    rcases unquoted_start hf (head_not_blank h.trimmed) cs with
      ⟨x, hx, ⟨hs, hun⟩ | ⟨y, ys, hun⟩⟩ | ⟨d, ds, us, hun, hd, -, -, hne⟩
    · rw [printedLine, hun, List.intercalate_singleton, hx.split] at hsplit
      rw [eq_of_splitWords h.trimmed hs]
      exact (List.cons.inj hsplit).1
    · -- the second word would be blank
      rw [printedLine, hun, List.intercalate_cons_cons, List.append_assoc, List.singleton_append,
        splitWords_append rfl, hx.split, List.singleton_append] at hsplit
      have hblank := isBlank_of_splitWords (List.cons.inj hsplit).2
      have hy : y ∈ unquoted files [c :: cs] := by
        rw [hun]
        simp
      obtain ⟨d, hdy, hd⟩ : ∃ d ∈ y, isBlank d = false := by
        rcases mem_unquoted_value hf hy with ⟨hword, -⟩ | ⟨-, -, d, ds, rfl, hd, -⟩
        · exact ⟨_, List.head_mem hword.1, hword.2 _ (List.head_mem hword.1)⟩
        · exact ⟨d, List.mem_cons_self, hd⟩
      rw [hblank d ?_] at hd
      · cases hd
      · cases ys with
        | nil => simpa using hdy
        | cons z zs => simp [List.intercalate_cons_cons, hdy]
    · obtain ⟨rest, hrest⟩ : ∃ rest, printedLine files (c :: cs) = d :: rest := by
        rw [printedLine, hun]
        cases us with
        | nil => exact ⟨ds, by simp⟩
        | cons u us => exact ⟨_, by rw [List.intercalate_cons_cons]; rfl⟩
      have hhead := (trim_trimEnd hd rest).1
      have hdrop : (d :: rest).dropWhile isBlank = d :: rest :=
        List.dropWhile_cons_of_neg (by simp [hd])
      rw [hrest, trim, hdrop] at he
      rw [he, hset] at hhead
      exact absurd (Option.some.inj hhead).symm hne

end

end SnakeOs.Lib
