import SnakeOs.Disk.Hotplug
import SnakeOs.Lib.Echo

/-! The file of disk names and its lookups, for every id that a line of `blkid` can give. -/

namespace SnakeOs.Disk
open Lib

/-- The id that the scripts make of a line of `blkid`. -/
def lineId (line : Line) : Line :=
  cutField ':' 2 ((trDelete '"' (trDelete ' ' line)).map fun c => if c = '=' then '_' else c)

/-- `$(grep "^${DISKID}:" /etc/default/diskname | cut -d : -f 2)`, which is `MPOINT` in `automount`
and `NAME` in `get_names`. -/
def lookup (env : Env) (s : Box) (id : Line) : Line :=
  capturedLines (match s.diskname with
    | some lines => (grepLines env ('^' :: (id ++ [':'])) lines).map (cutField ':' 2)
    | none => [])

/-- The lines of an id. -/
def idLines (s : Box) (id : Line) : List Line := keyed (id ++ [':']) (s.diskname.getD [])

/-- What a change of an id is to leave: the name that is looked up, and the other ids. -/
structure Kept (env : Env) (s t : Box) (id name : Line) : Prop where
  lookup : lookup env t id = name
  others : ∀ id', ':' ∉ id' → id' ≠ id → idLines t id' = idLines s id'

/-- A character that neither the shell nor `grep` nor `sed` takes for more than itself or, for the
`.`, any character. -/
def IdChar (c : Char) : Prop := (PlainEre c ∨ c = '.') ∧ c ≠ '/' ∧ c ≠ '\t' ∧ c ≠ '\n'

instance (c : Char) : Decidable (IdChar c) := inferInstanceAs (Decidable (_ ∧ _))

/-- No other id's line matches the id where a `.` stands for any character. -/
def Unmatched (s : Box) (id : Line) : Prop :=
  ∀ l ∈ s.diskname.getD [], startsDotted (id ++ [':']) l = true → id ++ [':'] <+: l

/-- In an address of `sed -r` a `.` stands for any character. -/
def SedDots (env : Env) : Prop :=
  ∀ id lines, (∀ c ∈ id, IdChar c) → '.' ∈ id →
    env.sed ("/^".toList ++ id ++ ":.*/d".toList) lines =
      lines.filter fun l => ¬ startsDotted (id ++ [':']) l

section
variable {env : Env} {s : Box} {id : Line}

theorem IdChar.dotted (hid : ∀ c ∈ id, IdChar c) : ∀ c ∈ id ++ [':'], Plain c ∨ c = '.' := by
  intro c hc
  rcases List.mem_append.mp hc with hc | hc
  · exact (hid c hc).1.imp_left And.left
  · rw [List.mem_singleton.mp hc]
    exact .inl (by decide)

theorem deleteNames_eq (hsed : SedDots env) (hid : ∀ c ∈ id, IdChar c) (lines : List Line) :
    deleteNames env id lines = lines.filter fun l => ¬ startsDotted (id ++ [':']) l := by
  rw [deleteNames]
  by_cases hdot : '.' ∈ id
  · have hnot : ¬ ∀ c ∈ id, PlainEre c ∧ c ≠ '/' ∧ c ≠ '\n' := fun h =>
      absurd (h _ hdot).1 (by decide)
    rw [if_neg hnot, hsed id lines hid hdot]
  · have hplain : ∀ c ∈ id, PlainEre c ∧ c ≠ '/' ∧ c ≠ '\n' := fun c hc =>
      ⟨(hid c hc).1.resolve_right fun h => hdot (h ▸ hc), (hid c hc).2.1, (hid c hc).2.2.2⟩
    rw [if_pos hplain]
    refine List.filter_congr fun l _ => ?_
    simp only [startsDotted_plain (w := id ++ [':']) (by simp [hdot])]

theorem grepLines_id (hid : ∀ c ∈ id, IdChar c) (lines : List Line) :
    grepLines env ('^' :: (id ++ [':'])) lines = lines.filter (startsDotted (id ++ [':'])) := by
  have hdotted := IdChar.dotted hid
  have hn : '\n' ∉ '^' :: (id ++ [':']) := by
    have hid' : '\n' ∉ id := fun hm => (hid _ hm).2.2.2 rfl
    simp [hid']
  refine List.filter_congr fun l _ => ?_
  rw [List.splitOn_eq_singleton hn, List.any_cons, List.any_nil, Bool.or_false]
  simp only [List.head?_cons, ↓reduceIte, List.tail_cons, parsePattern_dotted_all hdotted true,
    Option.isSome_some, grep_dotted hdotted]

theorem lookup_eq (hid : ∀ c ∈ id, IdChar c) : lookup env s id = capturedLines
    (((s.diskname.getD []).filter (startsDotted (id ++ [':']))).map (cutField ':' 2)) := by
  rw [lookup]
  cases s.diskname with
  | none => rfl
  | some lines => simp only [grepLines_id hid, Option.getD_some]

theorem startsDotted_colon {l : Line} (h : startsDotted (id ++ [':']) l = true) : ':' ∈ l := by
  obtain ⟨v, hv⟩ := Option.isSome_iff_exists.mp h
  obtain ⟨hall, hpre⟩ := matchClasses_eq_some.mp hv
  have hlast := List.forall₂_drop id.length hall
  rw [List.map_append, ← List.length_map (f := dotClass), List.drop_left, List.map_singleton,
    List.forall₂_cons_left_iff] at hlast
  obtain ⟨c, rest, hc, -, hdrop⟩ := hlast
  have hmem : c ∈ v := List.mem_of_mem_drop (by rw [hdrop]; exact List.mem_cons_self)
  have hcolon : c = ':' := by simpa [dotClass] using hc
  exact hcolon ▸ hpre.subset hmem

/-- The other ids keep their lines exactly when none of these is taken for the id's. -/
theorem others_iff {t : Box} {extra : List Line} (hid : ':' ∉ id)
    (ht : t.diskname.getD [] =
      ((s.diskname.getD []).filter fun l => ¬ startsDotted (id ++ [':']) l) ++ extra)
    (hextra : ∀ l ∈ extra, id ++ [':'] <+: l) :
    (∀ id', ':' ∉ id' → id' ≠ id → idLines t id' = idLines s id') ↔ Unmatched s id := by
  have hapart {id' : Line} {l : Line} (hid' : ':' ∉ id') (hne : id' ≠ id)
      (h' : id' ++ [':'] <+: l) : ¬ id ++ [':'] <+: l := by
    rintro ⟨b, rfl⟩
    obtain ⟨a, ha⟩ := h'
    rw [List.append_assoc, List.append_assoc] at ha
    exact hne (first_field_inj hid' hid ha)
  have hlines {id' : Line} (hid' : ':' ∉ id') (hne : id' ≠ id) : idLines t id' =
      keyed (id' ++ [':']) ((s.diskname.getD []).filter
        fun l => ¬ startsDotted (id ++ [':']) l) := by
    have hnil : keyed (id' ++ [':']) extra = [] := List.filter_eq_nil_iff.mpr fun l hl h' =>
      hapart hid' hne (of_decide_eq_true h') (hextra l hl)
    rw [idLines, ht, keyed, List.filter_append]
    simp only [keyed] at hnil
    rw [hnil, List.append_nil, keyed]
  constructor
  · intro h l hl hdot
    obtain ⟨id', rest, rfl, hid'⟩ := List.eq_append_cons_of_mem (startsDotted_colon hdot)
    by_cases hne : id' = id
    · exact ⟨rest, by simp [hne]⟩
    · have hmem : id' ++ ':' :: rest ∈ idLines s id' :=
        List.mem_filter.mpr ⟨hl, decide_eq_true ⟨rest, by simp⟩⟩
      rw [← h id' hid' hne, hlines hid' hne] at hmem
      have hkept := (List.mem_filter.mp (List.mem_filter.mp hmem).1).2
      simp [hdot] at hkept
  · intro h id' hid' hne
    rw [hlines hid' hne, keyed, List.filter_filter, idLines, keyed]
    refine List.filter_congr fun l hl => ?_
    by_cases h' : id' ++ [':'] <+: l
    · have hnot : startsDotted (id ++ [':']) l = false := by
        rw [Bool.eq_false_iff]
        exact fun hdot => hapart hid' hne h' (h l hl hdot)
      simp [h', hnot]
    · simp [h']

/-- No line that is kept is found. -/
theorem filter_kept (p : Line → Bool) (lines : List Line) :
    (lines.filter fun l => ¬ p l).filter p = [] := by
  simp

/-- The id of a line has no colon and no blank. -/
theorem lineId_chars {line : Line} (hline : ':' ∈ line) :
    ':' ∉ lineId line ∧ ' ' ∉ lineId line := by
  have hkept {c : Char} (hc : c ≠ '=') (hd : c ≠ '"') (hs : c ≠ ' ') (hm : c ∈ line) :
      c ∈ (trDelete '"' (trDelete ' ' line)).map fun c => if c = '=' then '_' else c := by
    refine List.mem_map.mpr ⟨c, ?_, if_neg hc⟩
    simp [trDelete, hm, hd, hs]
  refine ⟨not_mem_cutField (hkept (by decide) (by decide) (by decide) hline), fun hm => ?_⟩
  obtain ⟨c, hc, he⟩ := List.mem_map.mp (mem_of_mem_cutField hm)
  split at he
  · cases he
  · subst he
    simp [trDelete] at hc

/-- The lookup finds what was appended when nothing else is found. -/
theorem lookup_append {t : Box} {lines : List Line} {name rest : Line} (hid : ∀ c ∈ id, IdChar c)
    (hcolon : ':' ∉ id) (hname : ∀ c ∈ name, c ≠ '\n' ∧ c ≠ '\x00' ∧ c ≠ ':')
    (ht : t.diskname.getD [] = (lines.filter fun l => ¬ startsDotted (id ++ [':']) l) ++
      [id ++ ':' :: (name ++ ':' :: rest)]) : lookup env t id = name := by
  have hnew : startsDotted (id ++ [':']) (id ++ ':' :: (name ++ ':' :: rest)) = true :=
    prefix_startsDotted ⟨name ++ ':' :: rest, by simp⟩
  have hfield : ':' ∉ name := fun hm => (hname _ hm).2.2 rfl
  rw [lookup_eq hid, ht, List.filter_append, filter_kept, List.nil_append, List.filter_singleton,
    hnew, cond_true, List.map_singleton, cutField_second _ hcolon,
    List.splitOn_append_cons_self_of_not_mem hfield]
  exact capturedLines_first (fun c hc => ⟨(hname c hc).1, (hname c hc).2.1⟩) 0

/-- A character of an id needs no quotes where it is no blank. -/
theorem IdChar.quiet {c : Char} (h : IdChar c) (hblank : c ≠ ' ') :
    isBlank c = false ∧ c ≠ '\n' ∧ c ∉ metaChars := by
  refine ⟨by simp [isBlank, hblank, h.2.2.1], h.2.2.2, fun hm => ?_⟩
  rcases h.1 with hplain | rfl
  · simp only [metaChars, List.mem_cons, List.not_mem_nil, or_false] at hm
    rcases hm with rfl | rfl | rfl <;> exact absurd hplain (by decide)
  · exact absurd hm (by decide)

theorem setDiskname_kept_iff (hfiles : Expands env.files) (hsed : SedDots env) (hid : ∀ c ∈ id, IdChar c)
    (hcolon : ':' ∉ id) (hblank : ' ' ∉ id) (name : Name) (info : Line)
    (hinfo : ∀ w ∈ words env (id ++ ':' :: (name.text ++ ':' :: info)), '\n' ∉ w) :
    Kept env s (setDiskname env [id, name.text, info] s) id name.text ↔ Unmatched s id := by
  have hhead : id ++ ':' :: (name.text ++ ':' :: info) =
      (id ++ ':' :: (name.text ++ [':'])) ++ info := by simp
  have hchar : ∀ c ∈ id ++ ':' :: (name.text ++ [':']),
      isBlank c = false ∧ c ≠ '\n' ∧ c ∉ metaChars := by
    intro c hc
    have hall : isBlank ':' = false ∧ ':' ≠ '\n' ∧ ':' ∉ metaChars := by decide
    simp only [List.mem_append, List.mem_cons, List.not_mem_nil, or_false] at hc
    rcases hc with hc | rfl | hc | rfl
    · exact (hid c hc).quiet fun he => hblank (he ▸ hc)
    · exact hall
    · have hword : c ∉ [' ', '\t', '\n', '*', '?', '['] :=
        not_mem_of_word (name.word c hc) (by decide)
      simp only [List.mem_cons, List.not_mem_nil, or_false, not_or] at hword
      simpa [isBlank, metaChars] using ⟨⟨hword.1, hword.2.1⟩, hword.2.2⟩
    · exact hall
  obtain ⟨rest, hrest⟩ := echo_start hfiles info (by simp) (fun c hc => (hchar c hc).1)
    (fun hm => (hchar _ hm).2.1 rfl) (fun c hc => (hchar c hc).2.2) (hhead ▸ hinfo)
  have ht : (setDiskname env [id, name.text, info] s).diskname.getD [] =
      ((s.diskname.getD []).filter fun l => ¬ startsDotted (id ++ [':']) l) ++
        [id ++ ':' :: (name.text ++ ':' :: rest)] := by
    have hkept : (s.diskname.map (deleteNames env id)).getD [] =
        (s.diskname.getD []).filter fun l => ¬ startsDotted (id ++ [':']) l := by
      cases s.diskname with
      | none => rfl
      | some lines => exact deleteNames_eq hsed hid lines
    have hline : (id ++ ':' :: (name.text ++ [':'])) ++ rest =
        id ++ ':' :: (name.text ++ ':' :: rest) := by simp
    rw [← hline, ← hrest, ← hhead, ← hkept]
    rfl
  have hname : ∀ c ∈ name.text, c ≠ '\n' ∧ c ≠ '\x00' ∧ c ≠ ':' := fun c hc => by
    have hword : c ∉ ['\n', '\x00', ':'] := not_mem_of_word (name.word c hc) (by decide)
    simpa using hword
  rw [← others_iff hcolon ht fun l hl => ⟨name.text ++ ':' :: rest, by simp [List.mem_singleton.mp hl]⟩]
  exact ⟨Kept.others, Kept.mk (lookup_append hid hcolon hname ht)⟩

theorem removeDiskname_kept_iff (hsed : SedDots env) (hid : ∀ c ∈ id, IdChar c) (hcolon : ':' ∉ id) :
    Kept env s (removeDiskname env [id] s) id [] ↔ Unmatched s id := by
  have ht : (removeDiskname env [id] s).diskname.getD [] =
      ((s.diskname.getD []).filter fun l => ¬ startsDotted (id ++ [':']) l) ++ [] := by
    rw [List.append_nil, removeDiskname]
    cases s.diskname with
    | none => rfl
    | some lines => exact deleteNames_eq hsed hid lines
  have hlookup : lookup env (removeDiskname env [id] s) id = [] := by
    rw [lookup_eq hid, ht, List.append_nil, filter_kept]
    rfl
  rw [← others_iff hcolon ht nofun]
  exact ⟨Kept.others, Kept.mk hlookup⟩

/-- For an id of such characters, a name is set and removed exactly when no other id's line is taken
for the id's. -/
theorem diskname_kept_iff (env : Env) (hfiles : Expands env.files) (hsed : SedDots env) (s : Box)
    (line : Line) (hline : ':' ∈ line) (hid : ∀ c ∈ lineId line, IdChar c) (name : Name) (info : Line)
    (hinfo : ∀ w ∈ words env (lineId line ++ ':' :: (name.text ++ ':' :: info)), '\n' ∉ w) :
    Kept env s (setDiskname env [lineId line, name.text, info] s) (lineId line) name.text ∧
        Kept env s (removeDiskname env [lineId line] s) (lineId line) [] ↔
      Unmatched s (lineId line) := by
  obtain ⟨hcolon, hblank⟩ := lineId_chars hline
  rw [setDiskname_kept_iff hfiles hsed hid hcolon hblank name info hinfo,
    removeDiskname_kept_iff hsed hid hcolon, and_self_iff]

end

/-- `sed -r` on the script that deletes an id's lines. -/
def deletingSed (cmd : Line) (lines : List Line) : List Line :=
  lines.filter fun l => ¬ startsDotted ((cmd.drop 2).rdrop 4) l

/-- Labels on a device where no word is the pattern of a file. -/
def labelEnv : Env := { sampleEnv with sed := deletingSed }

theorem labelEnv_expands : Expands labelEnv.files := nofun

theorem labelEnv_sed : SedDots labelEnv := by
  intro id lines _ _
  have hcmd : (("/^".toList ++ id ++ ":.*/d".toList).drop 2).rdrop 4 = id ++ [':'] := by
    have htext : ("/^".toList ++ id ++ ":.*/d".toList).drop 2 = (id ++ [':']) ++ ".*/d".toList := by
      simp
    rw [htext, List.rdrop, List.length_append]
    exact List.take_left
  exact congrArg (fun w => lines.filter fun l => ¬ startsDotted w l) hcmd

def songs : Name := ⟨"songs".toList, by decide, by decide⟩

/-- A label with a `.`, and one with a `*`. -/
def dottedLine : Line := "/dev/sda1: LABEL=\"v1.2\" UUID=\"12\"".toList

def starLine : Line := "/dev/sda1: LABEL=\"a*b\" UUID=\"12\"".toList

/-- Another disk has a name. -/
def otherNamed : Box := boot (some ["LABEL_v1UUID_77:films:x".toList])

theorem diskname_kept_dotted :
    Kept labelEnv (otherNamed) (setDiskname labelEnv [lineId dottedLine, songs.text, ['x']] otherNamed)
        (lineId dottedLine) songs.text ∧
      Kept labelEnv otherNamed (removeDiskname labelEnv [lineId dottedLine] otherNamed)
        (lineId dottedLine) [] := by
  have hid : ∀ c ∈ lineId dottedLine, IdChar c := by decide +kernel
  have hwords : ∀ w ∈ words labelEnv (lineId dottedLine ++ ':' :: (songs.text ++ [':', 'x'])),
      '\n' ∉ w := by decide +kernel
  have hother : ∀ l ∈ otherNamed.diskname.getD [],
      startsDotted (lineId dottedLine ++ [':']) l = true → lineId dottedLine ++ [':'] <+: l := by
    decide +kernel
  exact (diskname_kept_iff labelEnv labelEnv_expands labelEnv_sed otherNamed dottedLine (by decide)
    hid songs ['x'] hwords).mpr hother

/-- A `*` in a label repeats the character before it. -/
theorem star_not_kept : ∃ (env : Env) (s : Box) (line : Line) (name : Name) (info : Line),
    Expands env.files ∧ SedDots env ∧ ':' ∈ line ∧
    ¬ (Kept env s (setDiskname env [lineId line, name.text, info] s) (lineId line) name.text ∧
      Kept env s (removeDiskname env [lineId line] s) (lineId line) []) := by
  refine ⟨labelEnv, boot (some []), starLine, songs, ['x'], labelEnv_expands, labelEnv_sed,
    by decide, fun h => ?_⟩
  have hlookup : lookup labelEnv (setDiskname labelEnv [lineId starLine, songs.text, ['x']]
      (boot (some []))) (lineId starLine) = [] := by decide +kernel
  exact absurd (hlookup.symm.trans h.1.lookup) (by decide)

end SnakeOs.Disk
