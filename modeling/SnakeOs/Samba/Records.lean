import SnakeOs.Samba.Rewrite

namespace SnakeOs.Samba
open Lib

theorem grep_marker (line : Line) : grep "#==".toList line = true ↔ "#==".toList <:+: line :=
  grep_word (w := ['=', '=']) (by decide) (by simp [Plain]) line

/-- The last marker is the one no other follows. -/
theorem skip_eq (a : List Line) {x : Line} {b : List Line} (hx : grep "#==".toList x = true)
    (hb : ∀ l ∈ b, grep "#==".toList l = false) : skip (a ++ x :: b) = some (a.length + 1) := by
  have hnone : ((b.zipIdx (1 + a.length + 1)).filter fun l => grep "#==".toList l.1) = [] := by
    refine List.filter_eq_nil_iff.mpr fun p hp => ?_
    rw [hb p.1 (List.fst_mem_of_mem_zipIdx hp)]
    exact Bool.false_ne_true
  rw [skip, List.zipIdx_append, List.zipIdx_cons, List.filter_append, List.filter_cons, if_pos hx,
    hnone, List.getLast?_concat, Option.map_some, Nat.add_comm]

/-- The lines of a share have at most one equals sign. -/
theorem sectionLines_count {name : Line} {s : Share} (hs : SoundShare (name, s)) :
    ∀ l ∈ sectionLines name s, l.count '=' ≤ 1 := by
  have hsound {v : Line} (hv : SoundWord v) : v.count '=' = 0 :=
    List.count_eq_zero.mpr (hv.not_mem (by decide))
  intro l hl
  rcases List.mem_cons.mp hl with rfl | hl
  · simp [bracket, hsound hs.name]
  · obtain ⟨key, v, rfl, hk, hw, hv⟩ := mem_settings hs hl
    have hkey : ([' '].intercalate key).count '=' = 0 := by
      refine List.count_eq_zero.mpr fun h => ?_
      rcases mem_intercalate h with hc | ⟨w, hm, hc⟩
      · cases hc
      · exact (hw w hm).not_mem (c := '=') (by decide) hc
    simp [setting_eq hk, hkey, hsound hv]

/-- What `list` reads. -/
def body (k : Nat) (es : List Entry) : List Line :=
  List.replicate k [] ++ es.flatMap Entry.lines

theorem body_count {k : Nat} {es : List Entry} (h : ∀ p ∈ content es, SoundShare p) :
    ∀ l ∈ body k es, l.count '=' ≤ 1 := by
  intro l hl
  simp only [body, List.mem_append, List.mem_replicate, List.mem_flatMap, Entry.lines] at hl
  rcases hl with ⟨-, rfl⟩ | ⟨e, he, hl | ⟨-, rfl⟩⟩
  · exact Nat.zero_le 1
  · exact sectionLines_count (h _ (mem_content he)) l hl
  · exact Nat.zero_le 1

theorem header_marker : "#==".toList <:+: header.getD 16 [] :=
  ⟨[], (header.getD 16 []).drop 3, by decide +kernel⟩

/-- The lines after the last marker are those of the shares. -/
theorem Holds.skip {conf : List Line} {es : List Entry} (h : Holds conf es) :
    ∃ n k, Samba.skip conf = some n ∧ readLines true [] (conf.drop n) = body k es := by
  obtain ⟨k, hk⟩ := h.lines
  have hhead : header = header.take 16 ++ [header.getD 16 []] := rfl
  rw [laidOut, List.append_assoc, hhead, List.append_assoc, List.singleton_append] at hk
  obtain ⟨a, rest, rfl, ha, hrest⟩ := List.map_eq_append_iff.mp hk
  obtain ⟨x, b, rfl, hx, hb⟩ := List.map_eq_cons_iff.mp hrest
  have hb' : b.map trim = body k es := hb
  have hgrep : grep "#==".toList x = true :=
    (grep_marker x).mpr (header_marker.trans (hx ▸ trim_infix x))
  refine ⟨a.length + 1, k, skip_eq a hgrep fun l hl => ?_, ?_⟩
  · rw [Bool.eq_false_iff, ne_eq, grep_marker]
    intro hi
    -- the marker has two equals signs, and trimming keeps them
    have htwo : 2 ≤ l.count '=' := hi.sublist.count_le '='
    have hone := body_count h.sound _ (hb' ▸ List.mem_map_of_mem hl)
    rw [count_trim rfl] at hone
    omega
  · rw [List.append_cons, List.drop_left' (by simp), readLines_eq_trim, hb']
    exact fun l hl => h.backslash l (List.mem_append_right _ (List.mem_cons_of_mem _ hl))

section Listing

variable {ops : TestOps} {files : Line → List Line} (hf : ∀ w, files w = [])

include hf

/-- The loop of `list` prints the value of a line. -/
theorem listLine_value {line v : Line} (ht : Tidy line)
    (hv : trDelete ' ' (cutField '=' 2 line) = v) (hw : Word v) :
    listLine ops files line = v ++ ['|'] := by
  have hsep : Word (v ++ ['|']) := by
    refine ⟨by simp, fun c hc => ?_⟩
    rcases List.mem_append.mp hc with hc | hc
    · exact hw.2 c hc
    · rw [List.mem_singleton.mp hc]
      rfl
  -- no option of `echo` has a bar in it
  have hoption : isEchoOption (v ++ ['|']) = false := by
    by_contra ho
    have hbar := isEchoOption_chars (by simpa using ho) '|' (by simp)
    exact absurd hbar (by decide)
  have hempty : testEmpty ops [v] = false := by simp [testEmpty, bracket_empty, hw.1]
  simp only [listLine, captured_echo ht, hv, unquoted_eq_split hf, List.flatMap_singleton,
    hw.split, hsep.split, hempty, Bool.false_eq_true, ↓reduceIte]
  rw [echo_no_newline hoption, List.intercalate_singleton]

omit hf in
theorem listLine_nil : listLine ops files [] = ['\n'] := by
  have h : trDelete ' ' (cutField '=' 2 (captured (echo [[]]))) = [] := by decide
  simp only [listLine, h]
  rfl

theorem listLine_bracket {name : Line} (hn : SoundWord name) :
    listLine ops files (bracket name) = bracket name ++ ['|'] := by
  have hmem (c : Char) (hc : c ∈ misread) (h1 : c ≠ '[') (h2 : c ≠ ']') : c ∉ bracket name := by
    simp [bracket, hn.not_mem hc, h1, h2]
  refine listLine_value hf (bracket_tidy hn) ?_ ⟨by simp [bracket], fun c hc => ?_⟩
  · rw [cutField_none (hmem '=' (by decide) (by decide) (by decide)),
      trDelete_self _ _ (hmem ' ' (by decide) (by decide) (by decide))]
  · simp only [bracket, List.mem_cons, List.mem_append, List.not_mem_nil, or_false] at hc
    rcases hc with rfl | hc | rfl
    · rfl
    · exact (hn.tidyChar c hc).1
    · rfl

theorem listLine_setting {key : List Line} (hk : key ≠ []) (hw : ∀ w ∈ key, SafeWord w)
    {v : Line} (hv : SoundWord v) : listLine ops files (setting key v) = v ++ ['|'] := by
  have hkey : '=' ∉ [' '].intercalate key ++ [' '] := by
    intro h
    rcases List.mem_append.mp h with h | h
    · rcases mem_intercalate h with h | ⟨w, hm, hc⟩
      · cases h
      · exact (hw w hm).not_mem (c := '=') (by decide) hc
    · cases List.mem_singleton.mp h
  have hvalue : '=' ∉ ' ' :: v := by simp [hv.not_mem (c := '=') (by decide)]
  refine listLine_value hf (setting_tidy hk hw hv) ?_ hv.word
  have hcut : cutField '=' 2 (setting key v) = ' ' :: v := by
    have h := cutField_second (' ' :: v) hkey
    rw [List.splitOn_eq_singleton hvalue, List.append_assoc] at h
    rw [setting_eq hk]
    exact h
  rw [hcut, ← List.singleton_append, trDelete_append,
    trDelete_self _ v (hv.not_mem (by decide))]
  rfl

theorem list_section {name : Line} {s : Share} (hs : SoundShare (name, s)) :
    (sectionLines name s).flatMap (listLine ops files) = record name s := by
  have hkey (key : List Line) (h : key ∈ [["comment".toList], ["path".toList],
      ["writeable".toList], ["valid".toList, "users".toList]]) (v : Line)
      (hv : v ∈ fields name s) : listLine ops files (setting key v) = v ++ ['|'] :=
    listLine_setting hf (keys_safe key h).1 (keys_safe key h).2 (hs.2 v hv)
  simp only [sectionLines, List.flatMap_cons, listLine_bracket hf hs.name]
  rw [hkey _ (by simp) name (by simp [fields]), hkey _ (by simp) s.path (by simp [fields]),
    hkey _ (by simp) s.write (by simp [fields])]
  cases hu : s.user with
  | none => simp [record, fields, hu]
  | some u =>
    have := hkey ["valid".toList, "users".toList] (by simp) u (by simp [fields, hu])
    simp only [Option.map_some, Option.toList_some, List.flatMap_singleton, this]
    simp [record, fields, hu]

/-- What the loop of `list` prints for a share and the empty lines after it. -/
def stream (e : Entry) : List Char := record e.name e.share ++ List.replicate e.blanks '\n'

omit hf in
theorem list_blanks (n : Nat) :
    (List.replicate n []).flatMap (listLine ops files) = List.replicate n '\n' := by
  induction n with
  | zero => rfl
  | succ n ih =>
    rw [List.replicate_succ, List.flatMap_cons, ih, listLine_nil]
    rfl

theorem list_body {k : Nat} {es : List Entry} (h : ∀ p ∈ content es, SoundShare p) :
    (body k es).flatMap (listLine ops files) = List.replicate k '\n' ++ es.flatMap stream := by
  rw [body, List.flatMap_append, list_blanks]
  congr 1
  induction es with
  | nil => rfl
  | cons e es ih =>
    have hs := h _ (mem_content List.mem_cons_self)
    rw [List.flatMap_cons, List.flatMap_append, List.flatMap_cons,
      ih fun p hp => h p (List.mem_cons_of_mem _ hp), Entry.lines, List.flatMap_append,
      list_section hf hs, list_blanks, stream]

end Listing

theorem textLines_blanks (n : Nat) (rest : List Char) :
    textLines [] (List.replicate n '\n' ++ rest) = List.replicate n [] ++ textLines [] rest := by
  induction n with
  | zero => rfl
  | succ n ih => simp [List.replicate_succ, textLines, ih]

theorem record_no_newline {name : Line} {s : Share} (hs : SoundShare (name, s)) :
    '\n' ∉ record name s := by
  intro h
  obtain ⟨v, hv, hc⟩ := List.mem_flatMap.mp h
  rcases List.mem_append.mp hc with hc | hc
  · rcases List.mem_cons.mp hv with rfl | hv
    · exact (bracket_tidy hs.name).newline hc
    · exact (hs.2 v hv).not_mem (c := '\n') (by decide) hc
  · cases List.mem_singleton.mp hc

theorem record_ne_nil (name : Line) (s : Share) : record name s ≠ [] := by
  simp [record, bracket]

/-- The records of the shares are the lines that are not empty. -/
theorem textLines_stream {es : List Entry} (h : ∀ p ∈ content es, SoundShare p)
    (ha : ∀ e ∈ es.dropLast, 0 < e.blanks) :
    (textLines [] (es.flatMap stream)).filter (fun l => decide (l ≠ [])) =
      (content es).map fun p => record p.1 p.2 := by
  induction es with
  | nil => rfl
  | cons e es ih =>
    have hline := record_no_newline (h _ (mem_content List.mem_cons_self))
    have hne := record_ne_nil e.name e.share
    have hes : ∀ p ∈ content es, SoundShare p := fun p hp => h p (List.mem_cons_of_mem _ hp)
    have hcons : content (e :: es) = (e.name, e.share) :: content es := rfl
    rw [List.flatMap_cons, hcons, List.map_cons]
    cases hb : e.blanks with
    | zero =>
      -- only the last share can lack an empty line
      cases es with
      | nil => simp [stream, hb, textLines_end hline, hne, content]
      | cons d es =>
        have := ha e (by simp)
        omega
    | succ b =>
      have ha' : ∀ d ∈ es.dropLast, 0 < d.blanks := by
        cases es with
        | nil => simp
        | cons d es => exact fun x hx => ha x (List.mem_cons_of_mem _ hx)
      rw [stream, hb, List.replicate_succ, List.append_assoc, List.cons_append,
        textLines_line hline, textLines_blanks, List.nil_append, List.filter_cons_of_pos
          (by simpa using hne), List.filter_append, ih hes ha']
      simp

/-- `-list` prints one record for each share. -/
theorem list_perm {files : Line → List Line} (hf : ∀ w, files w = []) {conf : List Line}
    {es : List Entry} (h : Holds conf es) :
    (list ops files conf).Perm ((content es).map fun p => record p.1 p.2) := by
  obtain ⟨n, k, hskip, hread⟩ := h.skip
  have hgrep : (fun l => !grep "^$".toList l) = fun l => decide (l ≠ []) := by
    funext l
    rw [Bool.eq_iff_iff]
    simpa using not_congr (grep_empty l)
  have hlines : (textLines [] (List.replicate k '\n' ++ es.flatMap stream)).filter
      (fun l => decide (l ≠ [])) = (content es).map fun p => record p.1 p.2 := by
    rw [textLines_blanks, List.filter_append, textLines_stream h.sound h.apart]
    simp
  simp only [list, hskip, hread, list_body hf h.sound, hgrep]
  rw [← hlines]
  exact (List.perm_insertionSort _ _).filter _

theorem record_eq (name : Line) (s : Share) : record name s =
    bracket name ++ '|' :: (fields name s).flatMap (· ++ ['|']) := by
  simp [record]

/-- Behind its header a record has no character that is misread but the separators. -/
theorem fields_special {name : Line} {s : Share} (hs : SoundShare (name, s)) {c : Char}
    (hc : c ∈ misread) (hsep : c ≠ '|') : c ∉ '|' :: (fields name s).flatMap (· ++ ['|']) := by
  intro h
  rcases List.mem_cons.mp h with h | h
  · exact hsep h
  · obtain ⟨v, hv, hm⟩ := List.mem_flatMap.mp h
    rcases List.mem_append.mp hm with hm | hm
    · exact (hs.2 v hv).not_mem hc hm
    · exact hsep (List.mem_singleton.mp hm)

/-- In a record only the header has a bracket. -/
theorem record_bracket {name : Line} {s : Share} (hs : SoundShare (name, s)) {n : Line} :
    bracket n <:+: record name s ↔ name = n := by
  have hrecord : record name s =
      '[' :: (name ++ ']' :: '|' :: (fields name s).flatMap (· ++ ['|'])) := by
    simp [record_eq, bracket]
  constructor
  · rintro ⟨a, b, he⟩
    have hclose : (record name s).count ']' = 1 := by
      have hrest := List.count_eq_zero.mpr (fields_special hs (c := ']') (by decide) (by decide))
      have hname := List.count_eq_zero.mpr (hs.name.not_mem (c := ']') (by decide))
      rw [hrecord, List.count_cons_of_ne (by decide), List.count_append, hname,
        List.count_cons_self, hrest]
    have hopen : '[' ∉ name ++ ']' :: '|' :: (fields name s).flatMap (· ++ ['|']) := by
      intro h
      rcases List.mem_append.mp h with h | h
      · exact hs.name.not_mem (c := '[') (by decide) h
      · rcases List.mem_cons.mp h with h | h
        · cases h
        · exact fields_special hs (by decide) (by decide) h
    -- the bracket of the record is the one of the name
    have hn : ']' ∉ n := by
      intro hm
      have hcount := List.count_pos_iff.mpr hm
      rw [← he] at hclose
      simp only [bracket, List.count_append, List.count_cons, List.count_nil] at hclose
      simp at hclose
      omega
    rw [hrecord] at he
    cases a with
    | nil =>
      simp only [bracket, List.nil_append, List.cons_append, List.append_assoc,
        List.cons.injEq, true_and] at he
      exact first_field_inj (hs.name.not_mem (by decide)) hn he.symm
    | cons c a =>
      -- the bracket would stand behind the first character
      simp only [bracket, List.cons_append, List.append_assoc, List.cons.injEq] at he
      rw [← he.2] at hopen
      exact absurd (by simp) hopen
  · rintro rfl
    exact ⟨[], '|' :: (fields name s).flatMap (· ++ ['|']), by simp [record_eq]⟩

/-- The last field of a record. -/
def lastField (s : Share) : Line := s.user.getD s.write

theorem record_last (name : Line) (s : Share) :
    ∃ a, record name s = a ++ '|' :: (lastField s ++ ['|']) := by
  obtain ⟨path, write, user⟩ := s
  cases user with
  | none => exact ⟨bracket name ++ '|' :: (name ++ '|' :: path), by simp [record, fields, lastField]⟩
  | some u =>
    exact ⟨bracket name ++ '|' :: (name ++ '|' :: (path ++ '|' :: write)),
      by simp [record, fields, lastField]⟩

theorem record_user {name : Line} {s : Share} (hs : SoundShare (name, s)) {u : Line}
    (hu : '|' ∉ u) (hw : s.user = none → s.write ≠ u) :
    '|' :: (u ++ ['|']) <:+ record name s ↔ s.user = some u := by
  obtain ⟨a, ha⟩ := record_last name s
  have hlast : SoundWord (lastField s) := by
    refine hs.2 _ ?_
    cases hsu : s.user <;> simp [lastField, fields, hsu]
  have hsuffix : '|' :: (u ++ ['|']) <:+ record name s ↔ lastField s = u := by
    rw [ha]
    constructor
    · rintro ⟨b, he⟩
      have he := congrArg List.reverse he
      simp only [List.reverse_append, List.reverse_cons, List.reverse_nil, List.nil_append,
        List.cons_append, List.append_assoc, List.cons.injEq, true_and] at he
      have hu' : '|' ∉ u.reverse := by simpa using hu
      have hl' : '|' ∉ (lastField s).reverse := by simpa using hlast.not_mem (c := '|') (by decide)
      exact List.reverse_injective (first_field_inj hl' hu' he.symm)
    · rintro rfl
      exact List.suffix_append _ _
  rw [hsuffix]
  cases hsu : s.user with
  | none => simpa [lastField, hsu] using hw hsu
  | some v => simp [lastField, hsu]

/-- The pattern of `-get`. -/
theorem grep_bracket {n : Line} (hn : ∀ c ∈ n, Inner c) (line : Line) :
    grep ("\\[".toList ++ n ++ "\\]".toList) line = true ↔ bracket n <:+: line := by
  have hend : parsePattern false "\\]".toList = some ⟨false, literals [']'], false⟩ := by decide
  have hword := parsePattern_inners hn (by decide) hend
  refine grep_literals (by simp) ?_ line
  have hsplit : "\\[".toList ++ n ++ "\\]".toList = '\\' :: '[' :: (n ++ "\\]".toList) := by
    simp
  rw [hsplit, parsePattern_escape (by decide), hword]
  simp [Pattern.push, literals, bracket]

/-- The pattern of `-xuser`. -/
theorem grep_user {u : Line} (hu : ∀ c ∈ u, Inner c) (line : Line) :
    grep (".*|".toList ++ u ++ "|$".toList) line = true ↔ '|' :: (u ++ ['|']) <:+ line := by
  have hsplit : ".*|".toList ++ u ++ "|$".toList =
      '.' :: '*' :: ('|' :: (u ++ ['|']) ++ ['$']) := by simp
  rw [hsplit, grep_ending fun c hc => ?_]
  simp only [List.mem_cons, List.mem_append, List.not_mem_nil, or_false] at hc
  rcases hc with rfl | hc | rfl
  · decide
  · exact hu c hc
  · decide

theorem cutField_record {name : Line} (hn : SoundWord name) (s : Share) :
    cutField '|' 2 (record name s) = name := by
  have hname : '|' ∉ name := hn.not_mem (by decide)
  have hbracket : '|' ∉ bracket name := by simp [bracket, hname]
  have hfields : (fields name s).flatMap (· ++ ['|']) =
      name ++ '|' :: (s.path ++ '|' :: (s.write ++ '|' :: s.user.toList.flatMap (· ++ ['|']))) := by
    simp [fields]
  rw [record_eq, cutField_second _ hbracket, hfields,
    List.splitOn_append_cons_self_of_not_mem hname]
  rfl

end SnakeOs.Samba
