import SnakeOs.Disk.Names
import SnakeOs.Lib.Sort

/-! The rows of `diskname.cgi`, and the partitions that their forms remount. -/

namespace SnakeOs.Disk
open Lib

/-- What `/sys/block` says of a disk. -/
structure Sys where
  vendor : Line → Line
  model : Line → Line

/-- `sed 's/[ "]//g' | tr '=' '_'`. -/
def squeeze (line : Line) : Line :=
  (trDelete '"' (trDelete ' ' line)).map fun c => if c = '=' then '_' else c

/-- `$(echo "$LINE" | cut -d ':' -f N)`. -/
def field (n : Nat) (line : Line) : Line :=
  capturedLines ((textLines [] (echo [line])).map (cutField ':' n))

/-- `$(echo "$LINE" | cut -d ':' -f 1 | cut -c FIRST-LAST)`. -/
def columns (first last : Nat) (line : Line) : Line :=
  capturedLines (((textLines [] (echo [line])).map (cutField ':' 1)).map fun l =>
    (l.take last).drop (first - 1))

/-- What stands behind the first colon. -/
def skipField : Line → Line
  | [] => []
  | c :: cs => if c = ':' then cs else skipField cs

/-- The first field, with its colon. -/
def takeField : Line → Line
  | [] => []
  | c :: cs => if c = ':' then [':'] else c :: takeField cs

/-- The key of `sort -t ':' -k N,N`, where `n` fields stand in front of it. -/
def sortKey (n : Nat) (line : Line) : Line := takeField (skipField^[n] line)

/-- `automount $DEV remove` and `automount $DEV add`. -/
def remounts (dev : List Line) : List (List Line) := [dev ++ ["remove".toList], dev ++ ["add".toList]]

section
variable (env : Env) (sys : Sys) (s : Box)

/-- `${VENDOR}-${MODEL}Part${PART}`. -/
def infoText (disk part : Line) : Line :=
  sys.vendor disk ++ '-' :: (sys.model disk ++ "Part".toList ++ part)

/-- `DISKINFO`. -/
def diskinfo (disk part : Line) : Line :=
  capturedLines ((textLines [] (echo (words env (infoText sys disk part)))).map
    (·.map fun c => if c = ' ' then '_' else c))

/-- The lines that `get_names` reads. -/
def blkLines : List Line := readLines true [] (((blkid env).filter (grep "^/dev/sd".toList)).map squeeze)

/-- `${DISKID}:${NAME}:${DISKINFO}:${DISK}${PART}:1`. -/
def rowText (blk : Line) : Line :=
  let disk := columns 6 8 blk
  let part := columns 9 9 blk
  let id := field 2 blk
  id ++ ':' :: (lookup env s id ++ ':' :: (diskinfo env sys disk part ++ ':' :: (disk ++ part ++ ":1".toList)))

def rows : List Line :=
  (blkLines env).flatMap fun blk => textLines [] (echo (words env (rowText env sys s blk)))

def getNames : List Line :=
  sortReverse (sortKey 4) (sortUnique (sortKey 0) (s.diskname.getD [] ++ rows env sys s))

/-- The rows that `show_fields` reads. -/
def shown : List Line := readLines true [] (getNames env sys s)

/-- A hidden field, for which `haserl` runs `echo -n $VALUE`, as the browser sends it back. -/
def hidden (value : Line) : Line := echo ("-n".toList :: words env value)

/-- The arguments of `automount` when a row is saved or removed. -/
def rowCalls (row : Line) : List (List Line) :=
  if formField env (hidden env (field 5 row)) ≠ [] then
    remounts (words env (formField env (hidden env (field 4 row))))
  else []

/-- `blkid` prints the line for the partition. -/
def Listed (d : Part) (line : Line) : Prop :=
  d ∈ env.attached ∧ (env.info d).map ("/dev/".toList ++ d.name ++ ": ".toList ++ ·) = some line

/-- Every listed partition has its row, and what a row calls `automount` for is the one partition
that has the row's id. -/
structure RowsRight : Prop where
  listed : ∀ d line, Listed env d line → ∃ r ∈ shown env sys s, field 1 r = lineId line ∧
    field 4 r = d.name ∧ rowCalls env r = remounts [d.name]
  calls : ∀ r ∈ shown env sys s, ∀ c ∈ rowCalls env r, ∃ d line, Listed env d line ∧
    lineId line = field 1 r ∧ c ∈ remounts [d.name] ∧
    ∀ e line', Listed env e line' → lineId line' = field 1 r → e = d

/-- The line of a row. -/
def entry (blk : Line) : Line := [' '].intercalate (words env (rowText env sys s blk))

/-- The numbers have one digit, no two partitions share an id, and no stored line of a listed id
stands above its row. -/
structure RowsOk : Prop where
  digit : ∀ d line, Listed env d line → d.num ≤ 9
  distinct : ∀ d line e line', Listed env d line → Listed env e line' →
    lineId line = lineId line' → d = e
  stored : ∀ d line, Listed env d line → ∀ l ∈ s.diskname.getD [], lineId line ++ [':'] <+: l →
    l ≤ entry env sys s (squeeze line)

end

/-- The lines of `blkid` and the stored lines have no character that the shell takes for more than
itself, no vendor or model has a colon, no word is the pattern of a file, and `echo` makes no escapes
of a vendor's or a model's backslashes. -/
structure Tame (env : Env) (sys : Sys) (s : Box) : Prop where
  lines : ∀ line ∈ blkid env, ∀ c ∈ line, c ∉ ['\\', '\t', '\n', '\x00']
  names : ∀ disk, ∀ c ∈ sys.vendor disk ++ sys.model disk, c ∉ [':', '\x00']
  stored : ∀ l ∈ s.diskname.getD [], ∃ id name info, l = id ++ ':' :: (name ++ ':' :: info) ∧
    ':' ∉ id ++ name ++ info ∧ ∀ c ∈ l, c ∉ [' ', '\t', '\n', '\\', '\x00']
  infos : ∀ line ∈ blkid env,
    let text := infoText sys (columns 6 8 (squeeze line)) (columns 9 9 (squeeze line))
    (∀ w ∈ textWords text, metaOnly env.files w = []) ∧
      ('\\' ∈ text → ∀ w ∈ (textWords text).head?, isEchoOption w = false)
  rows : ∀ line ∈ blkid env, ∀ w ∈ textWords (rowText env sys s (squeeze line)),
    metaOnly env.files w = []

section
variable {env : Env} {sys : Sys} {s : Box} {d e : Part} {line : Line}

theorem squeeze_append (a b : Line) : squeeze (a ++ b) = squeeze a ++ squeeze b := by
  simp [squeeze, trDelete_append]

theorem squeeze_self {l : Line} (h : ∀ c ∈ l, c ∉ [' ', '"', '=']) : squeeze l = l := by
  have hdel (d : Char) (hd : d ∈ [' ', '"', '=']) : trDelete d l = l :=
    trDelete_self d l fun hm => h d hm hd
  rw [squeeze, hdel ' ' (by simp), hdel '"' (by simp)]
  refine (List.map_congr_left fun c hc => if_neg fun he => h c hc (by simp [he])).trans (List.map_id' l)

theorem mem_squeeze {c : Char} {l : Line} (h : c ∈ squeeze l) : c ≠ ' ' ∧ (c = '_' ∨ c ∈ l) := by
  obtain ⟨d, hd, he⟩ := List.mem_map.mp h
  simp only [trDelete, List.mem_filter, bne_iff_ne] at hd
  split at he
  · exact ⟨by rw [← he]; decide, .inl he.symm⟩
  · exact ⟨he ▸ hd.1.2, .inr (he ▸ hd.1.1)⟩

theorem mem_blkid : line ∈ blkid env ↔ ∃ d, Listed env d line := List.mem_filterMap

theorem Part.name_inj (h : d.name = e.name) : d = e := by
  obtain ⟨x, m, hx, hm⟩ := d
  obtain ⟨y, n, hy, hn⟩ := e
  simp only [Part.name, List.cons.injEq, true_and] at h
  obtain ⟨rfl, h⟩ := h
  have hnum := congrArg (Nat.ofDigitChars 10 · 0) h
  simp only [Nat.ofDigitChars_toDigits (b := 10) (by decide) (by decide)] at hnum
  subst hnum
  rfl

/-- The device of a row. -/
def Part.short (d : Part) : Line := d.name.take 4

theorem Part.short_iff : d.short = d.name ↔ d.num ≤ 9 := by
  have hlength := Nat.length_toDigits_le_iff (n := d.num) (b := 10) (k := 1) (by decide) (by decide)
  rw [Part.short, List.take_eq_self_iff, Part.name]
  simp only [List.length_cons]
  omega

/-- A line of `blkid` starts with the partition's name, and its first colon stands there. -/
theorem Listed.squeezed (h : Listed env d line) :
    ∃ i, squeeze line = "/dev/".toList ++ d.name ++ ':' :: i := by
  obtain ⟨i, -, rfl⟩ := Option.map_eq_some_iff.mp h.2
  have hdev : squeeze ("/dev/".toList ++ d.name) = "/dev/".toList ++ d.name := by
    refine squeeze_self fun c hc => ?_
    rcases List.mem_append.mp hc with hc | hc
    · have hall : ∀ c ∈ "/dev/".toList, c ∉ [' ', '"', '='] := by decide
      exact hall c hc
    · exact not_mem_of_word (d.dirName.2 c hc) (by decide)
  refine ⟨squeeze i, ?_⟩
  rw [squeeze_append, squeeze_append, hdev, List.append_assoc]
  rfl

theorem field_eq {l : Line} {n : Nat} (ho : isEchoOption l = false)
    (h : ∀ c ∈ l, c ≠ '\n' ∧ c ≠ '\x00') : field n l = cutField ':' n l := by
  have hn : '\n' ∉ l := fun hm => (h _ hm).1 rfl
  rw [field, echo_text ho, List.intercalate_singleton, textLines_line hn]
  exact capturedLines_first (fun c hc => h c (mem_of_mem_cutField hc)) 0

theorem columns_eq {l : Line} {first last : Nat} (ho : isEchoOption l = false)
    (h : ∀ c ∈ l, c ≠ '\n' ∧ c ≠ '\x00') :
    columns first last l = ((cutField ':' 1 l).take last).drop (first - 1) := by
  have hn : '\n' ∉ l := fun hm => (h _ hm).1 rfl
  rw [columns, echo_text ho, List.intercalate_singleton, textLines_line hn]
  exact capturedLines_first
    (fun c hc => h c (mem_of_mem_cutField (List.mem_of_mem_take (List.mem_of_mem_drop hc)))) 0

/-- A character that the shell leaves where it is. -/
def Still (c : Char) : Prop := c ∉ [' ', '\t', '\n', '\\', '\x00']

instance (c : Char) : Decidable (Still c) := inferInstanceAs (Decidable (¬ _))

theorem Still.text {l : Line} (h : ∀ c ∈ l, Still c) : ∀ c ∈ l, c ≠ '\n' ∧ c ≠ '\x00' := by
  intro c hc
  have hstill := h c hc
  simp only [Still, List.mem_cons, List.not_mem_nil, or_false, not_or] at hstill
  exact ⟨hstill.2.2.1, hstill.2.2.2.2⟩

theorem Still.separator {c : Char} (h : Still c) : isSeparator c = false := by
  simp only [Still, List.mem_cons, List.not_mem_nil, or_false, not_or] at h
  simp [isSeparator, isBlank, h.1, h.2.1, h.2.2.1]

theorem Still.word {l : Line} (hne : l ≠ []) (h : ∀ c ∈ l, Still c) : Word l :=
  ⟨hne, (not_separator fun c hc => (h c hc).separator).1⟩

/-- A text is only split when no word of it is a file pattern. -/
theorem words_eq_textWords {text : Line} (h : ∀ w ∈ textWords text, metaOnly env.files w = []) :
    words env text = textWords text := by
  refine List.flatMap_congr fun v hv => ?_
  have hone : ∀ w ∈ splitWords v, expandWord (metaOnly env.files) w = [w] := fun w hw => by
    simp [expandWord, h w (List.mem_flatMap.mpr ⟨v, hv, hw⟩)]
  rw [List.flatMap_congr hone, List.flatMap_singleton']

/-- A row that a partition's line gives. -/
structure Entry (id dev row : Line) : Prop where
  shape : ∃ name info, row = id ++ ':' :: (name ++ ':' :: (info ++ ':' :: (dev ++ [':', '1']))) ∧
    ':' ∉ name ∧ '\\' ∉ name ∧ ':' ∉ info
  start : ∀ c ∈ row.head?, isBlank c = false
  chars : ∀ c ∈ row, c ≠ '\n' ∧ c ≠ '\x00'

theorem sortKey_zero {id : Line} (hid : ':' ∉ id) (rest : Line) :
    sortKey 0 (id ++ ':' :: rest) = id ++ [':'] := by
  change takeField (id ++ ':' :: rest) = id ++ [':']
  induction id with
  | nil => rfl
  | cons c id ih =>
    obtain ⟨hc, hid⟩ := not_or.mp (List.mem_cons.not.mp hid)
    rw [List.cons_append, takeField, if_neg (Ne.symm hc), ih hid, List.cons_append]

/-- `read` takes backslashes away, and they take no colon along. -/
theorem Entry.taken {id dev row : Line} (h : Entry id dev row) (hid : '\\' ∉ id) (hdev : '\\' ∉ dev) :
    (readPart true row).joined = false ∧ Entry id dev (Lib.taken row) := by
  obtain ⟨name, info, hrow, hname, hplain, hinfo⟩ := h.shape
  have hfront : '\\' ∉ id ++ ':' :: (name ++ [':']) := by simp [hid, hplain]
  have htail : '\\' ∉ dev ++ [':', '1'] := by simp [hdev]
  obtain ⟨info', hinfo', hsub, huntil⟩ :=
    readPart_until (show ':' ≠ '\\' by decide) (dev ++ [':', '1']) info hinfo
  obtain ⟨c, cs, hcs⟩ := List.exists_cons_of_ne_nil (show id ++ ':' :: (name ++ [':']) ≠ [] by simp)
  have hsplit : row = c :: (cs ++ (info ++ ':' :: (dev ++ [':', '1']))) := by
    rw [← List.cons_append, ← hcs, hrow]
    simp
  have hb : isBlank c = false := h.start c (by rw [hsplit]; rfl)
  have hc : c ≠ '\\' := fun he => hfront (by rw [hcs, he]; exact List.mem_cons_self)
  have hread : readPart true row =
      ⟨id ++ ':' :: (name ++ ':' :: (info' ++ ':' :: (dev ++ [':', '1']))), false, false⟩ := by
    rw [hsplit, readPart_word hb hc, ← List.cons_append, ← hcs, readPart_append hfront, huntil,
      readPart_rest htail]
    simp
  have htaken : Lib.taken row =
      id ++ ':' :: (name ++ ':' :: (info' ++ ':' :: (dev ++ [':', '1']))) := by
    have hlast : id ++ ':' :: (name ++ ':' :: (info' ++ ':' :: (dev ++ [':', '1']))) =
        id ++ ':' :: (name ++ ':' :: (info' ++ ':' :: (dev ++ [':']))) ++ ['1'] := by simp
    rw [Lib.taken, hread, trimEnd, hlast]
    exact List.rdropWhile_concat_neg _ _ _ (by decide)
  refine ⟨by rw [hread], ⟨name, info', htaken, hname, hplain, hinfo'⟩, ?_, fun x hx => ?_⟩
  · intro x hx
    rw [htaken] at hx
    refine h.start x ?_
    rw [hrow]
    cases id with
    | nil => exact hx
    | cons y id => exact hx
  · rw [htaken] at hx
    refine h.chars x ?_
    rw [hrow]
    simp only [List.mem_append, List.mem_cons] at hx ⊢
    rcases hx with hx | hx | hx | hx | hx | hx
    · exact .inl hx
    · exact .inr (.inl hx)
    · exact .inr (.inr (.inl hx))
    · exact .inr (.inr (.inr (.inl hx)))
    · exact .inr (.inr (.inr (.inr (.inl (hsub x hx)))))
    · exact .inr (.inr (.inr (.inr (.inr hx))))

theorem DirName.hidden {w : Line} (h : DirName w) : Disk.hidden env w = w := by
  have hoption : isEchoOption w = false :=
    isEchoOption_eq_false fun he => h.not_mem (c := '-') (by decide) (List.mem_of_mem_head? he)
  rw [Disk.hidden, h.words, echo_no_newline hoption, List.intercalate_singleton]

theorem DirName.formField {w : Line} (h : DirName w) : Disk.formField env w = w := by
  have hoption : isEchoOption w = false :=
    isEchoOption_eq_false fun he => h.not_mem (c := '-') (by decide) (List.mem_of_mem_head? he)
  have hn : '\n' ∉ w := fun hm => (h.text _ hm).1 rfl
  have hblank : ' ' ∉ w := h.not_mem (by decide)
  rw [Disk.formField, h.words, echo_text hoption, List.intercalate_singleton, textLines_line hn]
  change capturedLines [cutField ' ' 1 w] = w
  rw [cutField_none hblank]
  exact capturedLines_first h.text 0

theorem Part.short_dirName (d : Part) : DirName d.short :=
  ⟨by simp [Part.short, Part.name], fun c hc => d.dirName.2 c (List.mem_of_mem_take hc)⟩

/-- What stands behind the name in a row. -/
theorem Part.row_tail (d : Part) {info : Line}
    (h : ∀ c ∈ info, isSeparator c = false ∧ c ≠ '\x00') :
    ∀ c ∈ ':' :: (info ++ ':' :: (d.short ++ [':', '1'])), isSeparator c = false ∧ c ≠ '\x00' := by
  intro c hc
  simp only [List.mem_cons, List.mem_append, List.not_mem_nil, or_false] at hc
  rcases hc with rfl | hc | rfl | hc | rfl | rfl
  · decide
  · exact h c hc
  · decide
  · have hstill : Still c := not_mem_of_word (d.short_dirName.2 c hc) (by decide)
    exact ⟨hstill.separator, (Still.text (l := [c]) (by simpa using hstill) c (by simp)).2⟩
  · decide
  · decide

theorem Entry.colon {id dev row : Line} (h : Entry id dev row) : ':' ∈ row := by
  obtain ⟨name, info, rfl, -⟩ := h.shape
  simp

theorem Entry.field {id dev row : Line} (h : Entry id dev row) (hid : ':' ∉ id) (hdev : ':' ∉ dev)
    (n : Nat) : ∃ name info, Disk.field n row = [id, name, info, dev, ['1']].getD (n - 1) [] := by
  rw [field_eq (not_echoOption h.colon) h.chars, cutField, if_pos h.colon]
  obtain ⟨name, info, rfl, hname, -, hinfo⟩ := h.shape
  refine ⟨name, info, ?_⟩
  rw [List.splitOn_append_cons_self_of_not_mem hid, List.splitOn_append_cons_self_of_not_mem hname,
    List.splitOn_append_cons_self_of_not_mem hinfo, List.splitOn_append_cons_self_of_not_mem hdev]
  rfl

/-- A row of a listed partition names its id and calls `automount` for its device. -/
theorem Entry.calls {id row : Line} (h : Entry id d.short row) (hid : ':' ∉ id) :
    Disk.field 1 row = id ∧ Disk.field 4 row = d.short ∧
      rowCalls env row = remounts [d.short] := by
  have hdev : ':' ∉ d.short := d.short_dirName.not_mem (by decide)
  obtain ⟨_, _, h1⟩ := h.field hid hdev 1
  obtain ⟨_, _, h4⟩ := h.field hid hdev 4
  obtain ⟨_, _, h5⟩ := h.field hid hdev 5
  have hone : DirName ['1'] := ⟨by simp, by decide⟩
  refine ⟨h1, h4, ?_⟩
  rw [rowCalls, h5, h4]
  simp only [List.getD_cons_succ, List.getD_cons_zero, Nat.reduceSub]
  rw [hone.hidden, hone.formField, if_pos (by simp), d.short_dirName.hidden,
    d.short_dirName.formField, d.short_dirName.words]

section
variable (ht : Tame env sys s)
include ht

theorem Listed.still (h : Listed env d line) : ∀ c ∈ squeeze line, Still c := by
  intro c hc
  obtain ⟨hblank, he | hm⟩ := mem_squeeze hc
  · rw [he]
    decide
  · have htame := ht.lines line (mem_blkid.mpr ⟨d, h⟩) c hm
    simp only [Still, List.mem_cons, List.not_mem_nil, or_false, not_or] at htame ⊢
    tauto

theorem blkLines_eq : blkLines env = (blkid env).map squeeze := by
  have hgrep : (blkid env).filter (grep "^/dev/sd".toList) = blkid env := by
    refine List.filter_eq_self.mpr fun line hl => ?_
    obtain ⟨d, -, hd⟩ := mem_blkid.mp hl
    obtain ⟨i, -, rfl⟩ := Option.map_eq_some_iff.mp hd
    exact (grep_start (w := "/dev/sd".toList) (by decide) (by decide) _).1.mpr
      ⟨d.letter :: Nat.toDigits 10 d.num ++ ": ".toList ++ i, by simp [Part.name]⟩
  have hlines : ∀ l ∈ (blkid env).map squeeze, Word l ∧ '\\' ∉ l := by
    intro l hl
    obtain ⟨line, hline, rfl⟩ := List.mem_map.mp hl
    obtain ⟨d, hd⟩ := mem_blkid.mp hline
    obtain ⟨i, hi⟩ := hd.squeezed
    refine ⟨Still.word (by rw [hi]; simp) (hd.still ht), fun hm => ?_⟩
    exact absurd (hd.still ht _ hm) (by decide)
  rw [blkLines, hgrep, readLines_eq_trim fun l hl => (hlines l hl).2]
  exact (List.map_congr_left fun l hl => trim_word (hlines l hl).1).trans (List.map_id' _)

theorem Listed.field_two (h : Listed env d line) : field 2 (squeeze line) = lineId line := by
  obtain ⟨i, hi⟩ := h.squeezed
  have hcolon : ':' ∈ squeeze line := by simp [hi]
  exact field_eq (not_echoOption hcolon) (Still.text (h.still ht))

theorem Listed.columns (h : Listed env d line) : ∃ c, d.short = ['s', 'd', d.letter, c] ∧
    Disk.columns 6 8 (squeeze line) = ['s', 'd', d.letter] ∧
    Disk.columns 9 9 (squeeze line) = [c] ∧ c ∈ d.name := by
  obtain ⟨i, hi⟩ := h.squeezed
  have hcolon : ':' ∈ squeeze line := by simp [hi]
  have hdev : ':' ∉ "/dev/".toList ++ d.name := by
    simpa using d.dirName.not_mem (c := ':') (by decide)
  obtain ⟨c, cs, hc⟩ := List.exists_cons_of_ne_nil (Nat.toDigits_ne_nil (n := d.num) (b := 10))
  have hname : d.name = 's' :: 'd' :: d.letter :: c :: cs := by rw [Part.name, hc]
  have hfirst : cutField ':' 1 (squeeze line) = "/dev/".toList ++ d.name := by
    rw [hi]
    exact cutField_first i hdev
  refine ⟨c, by simp [Part.short, hname], ?_, ?_, by simp [hname]⟩
  · rw [columns_eq (not_echoOption hcolon) (Still.text (h.still ht)), hfirst, hname]
    rfl
  · rw [columns_eq (not_echoOption hcolon) (Still.text (h.still ht)), hfirst, hname]
    rfl

theorem Listed.infoText_chars (h : Listed env d line) :
    ∀ c ∈ infoText sys (Disk.columns 6 8 (squeeze line)) (Disk.columns 9 9 (squeeze line)),
      c ∉ [':', '\x00'] := by
  obtain ⟨p, -, -, hpart, hp⟩ := h.columns ht
  have hall : ∀ c ∈ '-' :: "Part".toList, c ∉ [':', '\x00'] := by decide
  intro c hc
  simp only [infoText, hpart, List.mem_append, List.mem_cons, List.not_mem_nil, or_false] at hc
  rcases hc with hc | rfl | (hc | hc) | rfl
  · exact ht.names _ c (List.mem_append_left _ hc)
  · exact hall _ (by simp)
  · exact ht.names _ c (List.mem_append_right _ hc)
  · exact hall c (List.mem_cons_of_mem _ hc)
  · exact not_mem_of_word (d.dirName.2 _ hp) (by decide)

theorem Listed.info (h : Listed env d line) :
    ∀ c ∈ diskinfo env sys (Disk.columns 6 8 (squeeze line)) (Disk.columns 9 9 (squeeze line)),
      isSeparator c = false ∧ c ≠ ':' ∧ c ≠ '\x00' := by
  obtain ⟨hpattern, hoption⟩ := ht.infos line (mem_blkid.mpr ⟨d, h⟩)
  have hchars := h.infoText_chars ht
  have hwords := words_eq_textWords hpattern
  rw [diskinfo]
  generalize infoText sys (Disk.columns 6 8 (squeeze line)) (Disk.columns 9 9 (squeeze line)) = text
    at hoption hchars hwords
  have hlines : ∀ w ∈ words env text, '\n' ∉ w := fun w hw => (mem_textWords (hwords ▸ hw)).2.1
  have hescapes : (∃ w ∈ (words env text).head?, isEchoOption w = true) →
      ∀ w ∈ words env text, '\\' ∉ w := by
    rintro ⟨w, hw, ho⟩ v hv hm
    have hmem : '\\' ∈ text := (mem_textWords (hwords ▸ hv)).2.2 _ hm
    rw [hoption hmem w (hwords ▸ hw)] at ho
    cases ho
  rcases textLines_echo hlines hescapes with hl | ⟨l, hl, -, hmem⟩
  · rw [hl]
    intro c hc
    cases hc
  · have hline : ∀ c ∈ l.map fun c => if c = ' ' then '_' else c,
        isSeparator c = false ∧ c ≠ ':' ∧ c ≠ '\x00' := by
      intro c hc
      obtain ⟨b, hb, he⟩ := List.mem_map.mp hc
      split at he
      · rw [← he]
        decide
      · rcases hmem b hb with hblank | ⟨w, hw, hbw⟩
        · exact absurd hblank ‹_›
        · obtain ⟨hword, hn, hsub⟩ := mem_textWords (hwords ▸ hw)
          have hb := hchars b (hsub b hbw)
          simp only [List.mem_cons, List.not_mem_nil, or_false, not_or] at hb
          have hnewline : b ≠ '\n' := fun he => hn (he ▸ hbw)
          rw [← he]
          exact ⟨by simp [isSeparator, hword.2 b hbw, hnewline], hb⟩
    have hcaptured := capturedLines_first (fun c hc =>
      ⟨fun he => absurd (hline c hc).1 (by rw [he]; decide), (hline c hc).2.2⟩) 0
    rw [List.replicate_zero] at hcaptured
    rw [hl, List.map_singleton, hcaptured]
    exact hline

theorem lookup_chars (id : Line) :
    ∀ c ∈ lookup env s id, c ≠ ':' ∧ c ≠ '\\' ∧ c ≠ '\x00' := by
  intro c hc
  obtain ⟨h0, hn | ⟨l, hl, hcl⟩⟩ := mem_capturedLines hc
  · rw [hn]
    decide
  · split at hl
    · rename_i lines hs
      obtain ⟨x, hx, rfl⟩ := List.mem_map.mp hl
      obtain ⟨i, n, o, rfl, -, hstill⟩ := ht.stored x (by rw [hs]; exact (List.mem_filter.mp hx).1)
      refine ⟨fun he => ?_, fun he => ?_, h0⟩
      · exact not_mem_cutField (d := ':') (by simp) (he ▸ hcl)
      · exact hstill c (mem_of_mem_cutField hcl) (by simp [he])
    · cases hl

theorem Listed.id (h : Listed env d line) : ':' ∉ lineId line ∧ ∀ c ∈ lineId line, Still c := by
  have hcolon : ':' ∈ line := by
    obtain ⟨i, -, rfl⟩ := Option.map_eq_some_iff.mp h.2
    simp
  exact ⟨(lineId_chars hcolon).1, fun c hc => h.still ht c (mem_of_mem_cutField hc)⟩

theorem Listed.isEntry (h : Listed env d line) :
    Entry (lineId line) d.short (entry env sys s (squeeze line)) ∧
      textLines [] (echo (words env (rowText env sys s (squeeze line)))) =
        [entry env sys s (squeeze line)] := by
  obtain ⟨c, hshort, hdisk, hpart, -⟩ := h.columns ht
  obtain ⟨hcolon, hid⟩ := h.id ht
  have hinfo := h.info ht
  rw [hdisk, hpart] at hinfo
  generalize hin : diskinfo env sys ['s', 'd', d.letter] [c] = info at hinfo
  have htail := d.row_tail fun x hx => ⟨(hinfo x hx).1, (hinfo x hx).2.2⟩
  have hhead : ∀ x ∈ lineId line ++ [':'], Still x := by
    intro x hx
    rcases List.mem_append.mp hx with hx | hx
    · exact hid x hx
    · rw [List.mem_singleton.mp hx]
      decide
  have htext : rowText env sys s (squeeze line) = lineId line ++ [':'] ++ lookup env s (lineId line) ++
      ':' :: (info ++ ':' :: (d.short ++ [':', '1'])) := by
    rw [rowText, h.field_two ht, hdisk, hpart, hin, hshort]
    simp
  have hwords := words_eq_textWords (ht.rows line (mem_blkid.mpr ⟨d, h⟩))
  obtain ⟨u, ws, mid, hfirst, hjoin, hmid⟩ := textWords_around (fun x hx => (hhead x hx).separator)
    (List.cons_ne_nil _ _) (fun x hx => (htail x hx).1) (lookup env s (lineId line))
  rw [← htext, ← hwords] at hfirst hjoin
  have hname : ∀ x ∈ mid, x ≠ ':' ∧ x ≠ '\n' ∧ x ≠ '\\' ∧ x ≠ '\x00' := by
    intro x hx
    rcases hmid x hx with rfl | ⟨hx, hs⟩
    · decide
    · obtain ⟨h1, h2, h3⟩ := lookup_chars ht _ x hx
      exact ⟨h1, fun he => by simp [he, isSeparator] at hs, h2, h3⟩
  have hchars : ∀ x ∈ entry env sys s (squeeze line), x ≠ '\n' ∧ x ≠ '\x00' := by
    intro x hx
    rw [entry, hjoin] at hx
    rcases List.mem_append.mp hx with hx | hx
    · rcases List.mem_append.mp hx with hx | hx
      · exact Still.text hhead x hx
      · exact ⟨(hname x hx).2.1, (hname x hx).2.2.2⟩
    · exact ⟨fun he => absurd (htail x hx).1 (by rw [he]; decide), (htail x hx).2⟩
  have hn : '\n' ∉ entry env sys s (squeeze line) := fun hm => (hchars _ hm).1 rfl
  refine ⟨⟨⟨mid, info, ?_, fun hm => (hname _ hm).1 rfl, fun hm => (hname _ hm).2.2.1 rfl,
    fun hm => (hinfo _ hm).2.1 rfl⟩, fun x hx => ?_, hchars⟩, ?_⟩
  · rw [entry, hjoin]
    simp
  · have hx : x ∈ (lineId line ++ [':']).head? := by
      rw [entry, hjoin, List.append_assoc, List.head?_append_of_ne_nil _ (by simp)] at hx
      exact hx
    have hsep := (hhead x (List.mem_of_mem_head? hx)).separator
    exact (Bool.or_eq_false_iff.mp hsep).1
  · have hoption : isEchoOption (lineId line ++ [':'] ++ u) = false := not_echoOption (by simp)
    rw [entry] at hn
    rw [hfirst] at hn ⊢
    rw [echo_text hoption, textLines_line hn, entry, hfirst]
    rfl

theorem rows_eq : rows env sys s = (blkid env).map fun line => entry env sys s (squeeze line) := by
  rw [rows, blkLines_eq ht, List.flatMap_map, ← List.flatMap_pure_eq_map]
  refine List.flatMap_congr fun line hl => ?_
  obtain ⟨d, hd⟩ := mem_blkid.mp hl
  exact (hd.isEntry ht).2

/-- A stored line is a row without a device, and nothing is called for it. -/
theorem stored_calls {l : Line} (hl : l ∈ s.diskname.getD []) :
    field 4 l = [] ∧ rowCalls env l = [] := by
  obtain ⟨id, name, info, rfl, hcolon, hstill⟩ := ht.stored l hl
  simp only [List.mem_append, not_or] at hcolon
  have hfield (n : Nat) (hn : 4 ≤ n) : field n (id ++ ':' :: (name ++ ':' :: info)) = [] := by
    rw [field_eq (not_echoOption (by simp)) (Still.text hstill), cutField, if_pos (by simp),
      List.splitOn_append_cons_self_of_not_mem hcolon.1.1,
      List.splitOn_append_cons_self_of_not_mem hcolon.1.2, List.splitOn_eq_singleton hcolon.2]
    obtain ⟨k, rfl⟩ := Nat.exists_eq_add_of_le hn
    simp
  refine ⟨hfield 4 (by decide), ?_⟩
  rw [rowCalls, hfield 5 (by decide)]
  rfl

theorem mem_getNames {r : Line} : r ∈ getNames env sys s ↔
    (r ∈ s.diskname.getD [] ∨ ∃ line ∈ blkid env, entry env sys s (squeeze line) = r) ∧
      ∀ y, (y ∈ s.diskname.getD [] ∨ ∃ line ∈ blkid env, entry env sys s (squeeze line) = y) →
        sortKey 0 y = sortKey 0 r → y ≤ r := by
  rw [getNames, mem_sortReverse, mem_sortUnique, rows_eq ht]
  simp only [List.mem_append, List.mem_map]

theorem stored_plain {l : Line} (hl : l ∈ s.diskname.getD []) : '\\' ∉ l ∧ Lib.taken l = l := by
  obtain ⟨id, name, info, rfl, -, hstill⟩ := ht.stored l hl
  have hplain : '\\' ∉ id ++ ':' :: (name ++ ':' :: info) := fun hm =>
    absurd (hstill _ hm) (by decide)
  exact ⟨hplain, (taken_eq_trim hplain).trans (trim_word (Still.word (by simp) hstill))⟩

theorem Listed.taken (h : Listed env d line) :
    (readPart true (entry env sys s (squeeze line))).joined = false ∧
      Entry (lineId line) d.short (Lib.taken (entry env sys s (squeeze line))) :=
  (h.isEntry ht).1.taken (fun hm => absurd ((h.id ht).2 _ hm) (by decide))
    (d.short_dirName.not_mem (by decide))

theorem shown_eq : shown env sys s = (getNames env sys s).map Lib.taken := by
  refine readLines_eq_taken fun l hl => ?_
  rcases ((mem_getNames ht).mp hl).1 with hl | ⟨line, hline, rfl⟩
  · exact (readPart_start (stored_plain ht hl).1).2
  · obtain ⟨d, hd⟩ := mem_blkid.mp hline
    exact (hd.taken ht).1

theorem entry_key (h : Listed env d line) :
    sortKey 0 (entry env sys s (squeeze line)) = lineId line ++ [':'] := by
  obtain ⟨name, info, he, -⟩ := (h.isEntry ht).1.shape
  rw [he, sortKey_zero (h.id ht).1]

theorem stored_key {l id : Line} (hl : l ∈ s.diskname.getD []) (hid : ':' ∉ id) :
    sortKey 0 l = id ++ [':'] ↔ id ++ [':'] <+: l := by
  obtain ⟨id', name, info, rfl, hcolon, -⟩ := ht.stored l hl
  simp only [List.mem_append, not_or] at hcolon
  rw [sortKey_zero hcolon.1.1]
  constructor
  · intro h
    exact ⟨name ++ ':' :: info, by rw [← h]; simp⟩
  · rintro ⟨rest, hrest⟩
    rw [List.append_assoc] at hrest
    rw [first_field_inj hid hcolon.1.1 hrest]

/-- What the rows show of a partition's own row. -/
theorem Listed.calls (h : Listed env d line) :
    let row := Lib.taken (entry env sys s (squeeze line))
    field 1 row = lineId line ∧ field 4 row = d.short ∧ rowCalls env row = remounts [d.short] :=
  (h.taken ht).2.calls (h.id ht).1

/-- A row with a device is a listed partition's. -/
theorem shown_listed {r : Line} (hr : r ∈ shown env sys s) (hdev : field 4 r ≠ [] ∨ rowCalls env r ≠ []) :
    ∃ d line, Listed env d line ∧ entry env sys s (squeeze line) ∈ getNames env sys s ∧
      Lib.taken (entry env sys s (squeeze line)) = r := by
  rw [shown_eq ht] at hr
  obtain ⟨l, hl, rfl⟩ := List.mem_map.mp hr
  rcases ((mem_getNames ht).mp hl).1 with hstored | ⟨line, hline, rfl⟩
  · have hnone := stored_calls ht hstored
    rw [(stored_plain ht hstored).2] at hdev
    simp [hnone] at hdev
  · obtain ⟨d, hd⟩ := mem_blkid.mp hline
    exact ⟨d, line, hd, hl, rfl⟩

theorem rowsRight_of_ok (hok : RowsOk env sys s) : RowsRight env sys s := by
  have hname {d : Part} {line : Line} (h : Listed env d line) : d.short = d.name :=
    Part.short_iff.mpr (hok.digit d line h)
  constructor
  · intro d line h
    obtain ⟨hid, hdev, hcalls⟩ := h.calls ht
    rw [hname h] at hdev hcalls
    have hmem : entry env sys s (squeeze line) ∈ getNames env sys s →
        Lib.taken (entry env sys s (squeeze line)) ∈ shown env sys s := fun hm => by
      rw [shown_eq ht]
      exact List.mem_map_of_mem hm
    refine ⟨_, hmem ((mem_getNames ht).mpr ⟨.inr ⟨line, mem_blkid.mpr ⟨d, h⟩, rfl⟩, ?_⟩), hid, hdev,
      hcalls⟩
    rintro y (hy | ⟨line', hline', rfl⟩) hkey
    · rw [entry_key ht h, stored_key ht hy (h.id ht).1] at hkey
      exact hok.stored d line h y hy hkey
    · obtain ⟨e, he⟩ := mem_blkid.mp hline'
      rw [entry_key ht h, entry_key ht he] at hkey
      obtain rfl := hok.distinct d line e line' h he (List.append_cancel_right hkey).symm
      rw [Option.some.inj (h.2.symm.trans he.2)]
  · intro r hr c hc
    obtain ⟨d, line, h, -, rfl⟩ := shown_listed ht hr (.inr (List.ne_nil_of_mem hc))
    obtain ⟨hid, -, hcalls⟩ := h.calls ht
    rw [hcalls, hname h] at hc
    refine ⟨d, line, h, hid.symm, hc, fun e line' he hsame => ?_⟩
    exact (hok.distinct d line e line' h he (hid.symm.trans hsame.symm)).symm

theorem rowsOk_of_right (hright : RowsRight env sys s) : RowsOk env sys s := by
  -- the row that shows a partition is made of a listed line with its id
  have hrow {d : Part} {line : Line} (h : Listed env d line) : ∃ e line', Listed env e line' ∧
      entry env sys s (squeeze line') ∈ getNames env sys s ∧ lineId line' = lineId line ∧
      e.short = d.name := by
    obtain ⟨r, hr, hid, hdev, -⟩ := hright.listed d line h
    obtain ⟨e, line', he, hin, rfl⟩ := shown_listed ht hr (.inl (by rw [hdev]; exact d.dirName.1))
    obtain ⟨hid', hdev', -⟩ := he.calls ht
    exact ⟨e, line', he, hin, hid'.symm.trans hid, hdev'.symm.trans hdev⟩
  have hdigit : ∀ d line, Listed env d line → d.num ≤ 9 := by
    intro d line h
    obtain ⟨e, -, -, -, -, hdev⟩ := hrow h
    refine Part.short_iff.mp (List.take_eq_self_iff _ |>.mpr ?_)
    rw [← hdev, Part.short]
    exact List.length_take_le 4 e.name
  -- so the partition's own line
  have hown {d : Part} {line : Line} (h : Listed env d line) :
      entry env sys s (squeeze line) ∈ getNames env sys s := by
    obtain ⟨e, line', he, hr, -, hdev⟩ := hrow h
    obtain rfl : e = d := Part.name_inj ((Part.short_iff.mpr (hdigit e line' he)).symm.trans hdev)
    obtain rfl : line' = line := Option.some.inj (he.2.symm.trans h.2)
    exact hr
  refine ⟨hdigit, fun d line e line' h he hid => ?_, fun d line h l hl hpre => ?_⟩
  · have hkey : sortKey 0 (entry env sys s (squeeze line)) =
        sortKey 0 (entry env sys s (squeeze line')) := by
      rw [entry_key ht h, entry_key ht he, hid]
    have hsame : entry env sys s (squeeze line) = entry env sys s (squeeze line') :=
      le_antisymm
        (((mem_getNames ht).mp (hown he)).2 _ ((mem_getNames ht).mp (hown h)).1 hkey)
        (((mem_getNames ht).mp (hown h)).2 _ ((mem_getNames ht).mp (hown he)).1 hkey.symm)
    refine Part.name_inj ?_
    rw [← Part.short_iff.mpr (hdigit d line h), ← Part.short_iff.mpr (hdigit e line' he),
      ← (h.calls ht).2.1, ← (he.calls ht).2.1, hsame]
  · refine ((mem_getNames ht).mp (hown h)).2 l (.inl hl) ?_
    rw [entry_key ht h]
    exact (stored_key ht hl (h.id ht).1).mpr hpre

end

/-- Every listed partition has its row, and the rows remount the partitions that they name, exactly
when the numbers have one digit, the ids differ and no stored line stands above a row. -/
theorem rows_right_iff (env : Env) (sys : Sys) (s : Box) (ht : Tame env sys s) :
    RowsRight env sys s ↔ RowsOk env sys s :=
  ⟨rowsOk_of_right ht, rowsRight_of_ok ht⟩

end

/-- `read` takes the backslash of the model away. -/
def disks : Sys := ⟨fun _ => "ATA     ".toList, fun _ => "WDC*A\\B".toList⟩

/-- Two partitions, of which the first has a name. -/
def twoEnv : Env := { labelEnv with
  attached := [sda1, sdb1]
  info := fun d => some (if d = sda1 then "LABEL=\"a\" UUID=\"12\" ".toList else "UUID=\"7\" ".toList) }

def firstNamed : Box := boot (some ["LABEL_aUUID_12:films:ATA_-WDC*ABPart1".toList])

theorem rows_right_two : RowsRight twoEnv disks firstNamed := by
  have hblkid : ∀ line ∈ blkid twoEnv, (∀ c ∈ line, c ∉ ['\\', '\t', '\n', '\x00']) ∧
      ((∀ w ∈ textWords (infoText disks (columns 6 8 (squeeze line)) (columns 9 9 (squeeze line))),
          metaOnly twoEnv.files w = []) ∧
        ('\\' ∈ infoText disks (columns 6 8 (squeeze line)) (columns 9 9 (squeeze line)) →
          ∀ w ∈ (textWords (infoText disks (columns 6 8 (squeeze line))
            (columns 9 9 (squeeze line)))).head?, isEchoOption w = false)) ∧
      (∀ w ∈ textWords (rowText twoEnv disks firstNamed (squeeze line)),
        metaOnly twoEnv.files w = []) ∧
      ∀ l ∈ firstNamed.diskname.getD [], lineId line ++ [':'] <+: l →
        l ≤ entry twoEnv disks firstNamed (squeeze line) := by decide +kernel
  have hnames : ∀ c ∈ "ATA     ".toList ++ "WDC*A\\B".toList, c ∉ [':', '\x00'] := by decide
  have htame : Tame twoEnv disks firstNamed := by
    refine ⟨fun line hl => (hblkid line hl).1, fun _ => hnames, fun l hl => ?_, fun line hl =>
      (hblkid line hl).2.1, fun line hl => (hblkid line hl).2.2.1⟩
    obtain rfl := List.mem_singleton.mp hl
    exact ⟨"LABEL_aUUID_12".toList, "films".toList, "ATA_-WDC*ABPart1".toList, by decide⟩
  have hok : RowsOk twoEnv disks firstNamed := by
    have hnum : ∀ d ∈ twoEnv.attached, d.num ≤ 9 := by decide
    have hids : ∀ d ∈ twoEnv.attached, ∀ e ∈ twoEnv.attached,
        (twoEnv.info d).map (fun i => lineId ("/dev/".toList ++ d.name ++ ": ".toList ++ i)) =
          (twoEnv.info e).map (fun i => lineId ("/dev/".toList ++ e.name ++ ": ".toList ++ i)) →
        d = e := by decide +kernel
    refine ⟨fun d line h => hnum d h.1, fun d line e line' h he hid => hids d h.1 e he.1 ?_,
      fun d line h => (hblkid line (mem_blkid.mpr ⟨d, h⟩)).2.2.2⟩
    obtain ⟨i, hi, rfl⟩ := Option.map_eq_some_iff.mp h.2
    obtain ⟨j, hj, rfl⟩ := Option.map_eq_some_iff.mp he.2
    rw [hi, hj, Option.map_some, Option.map_some]
    exact congrArg some hid
  exact (rows_right_iff twoEnv disks firstNamed htame).mpr hok

def tenthEnv : Env := { labelEnv with
  attached := [sda10]
  info := fun _ => some "UUID=\"7\" ".toList }

/-- The row of `sda10` has the device `sda1`. -/
theorem tenth_not_right : ¬ RowsRight tenthEnv disks (boot (some [])) := by
  intro h
  obtain ⟨r, hr, -, hdev, -⟩ := h.listed sda10 _ ⟨List.mem_singleton_self _, rfl⟩
  have hnone : ∀ r ∈ shown tenthEnv disks (boot (some [])), field 4 r ≠ sda10.name := by decide +kernel
  exact hnone r hr hdev

end SnakeOs.Disk
