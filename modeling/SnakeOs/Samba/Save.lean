import SnakeOs.Config.Forms
import SnakeOs.Samba.Growth

/-! Save of `share.cgi`: the share that was submitted, or nothing. -/

namespace SnakeOs.Samba
open Lib
open Config (OneWord formField formField_single formField_nil shellWords shellWords_append
  shellWords_single shellWords_empty blankLines blankLines_newline formField_option mem_fieldWords)

/-- The fields of the form. -/
structure ShareForm where
  sname : Line
  shared : Line
  write : Line
  auser : Line

section
variable (files : Line → List Line)

/-- `$SNAME $SHARED $WRITE $AUSER` behind `smbshare -a`. -/
def saveWords (form : ShareForm) : List Line :=
  shellWords files [formField files form.sname, formField files form.shared,
    formField files form.write, formField files form.auser]

/-- Save of `share.cgi`; `-a` tests no files. -/
def save (form : ShareForm) (conf : List Line) : List Line :=
  (smbshare noOps files ("-a".toList :: saveWords files form) conf).1

end

/-- The sections of the file: the header and the lines up to the next one. -/
def sections : List Line → List (Line × List Line)
  | [] => []
  | l :: lines =>
    if firstChar l = some '[' then
      (trim l, lines.takeWhile (firstChar · ≠ some '[')) :: sections lines
    else sections lines

/-- The value of a line `key = value`. -/
def settingValue (key line : Line) : Option Line :=
  if key ++ " = ".toList <+: line.dropWhile isBlank then
    some ((line.dropWhile isBlank).drop (key.length + 3))
  else none

/-- What a share says; without valid users it is for everyone. -/
structure Setup where
  path : Option Line
  writeable : Option Line
  validUsers : Option Line
deriving DecidableEq

def setup (lines : List Line) : Setup where
  path := (lines.filterMap (settingValue "path".toList)).getLast?
  writeable := (lines.filterMap (settingValue "writeable".toList)).getLast?
  validUsers := (lines.filterMap (settingValue "valid users".toList)).getLast?

/-- The share of a name: its last section. -/
def shareOf (conf : List Line) (name : Line) : Option Setup :=
  ((sections conf).filter (·.1 = bracket name)).getLast?.map fun s => setup s.2

/-- A field that shows nothing. -/
def isEmptyField (value : Line) : Bool := value.all isSeparator

/-- The share that was submitted; an empty user means everyone. -/
def ShareForm.submitted (form : ShareForm) : Setup where
  path := some form.shared
  writeable := some form.write
  validUsers := if isEmptyField form.auser then none else some form.auser

/-- The share is the one that was submitted, or the shares are what they were. -/
def AllOrNothing (form : ShareForm) (conf saved : List Line) : Prop :=
  shareOf saved form.sname = some form.submitted ∨
    ∀ name, name ≠ "global".toList → shareOf saved name = shareOf conf name

/-- The names of the directory are lines. -/
def Plainly (d : Directory) : Prop := ∀ n ∈ d.names, '\n' ∉ n

/-- A field that every directory leaves as it is. -/
structure Literally (fits : Line → Line → Bool) (value : Line) : Prop extends OneWord value where
  option : isEchoOption value = false
  fixed : Fixed (fun w n => fits w n && decide ('\n' ∉ n)) value

/-- A form with words in its fields that the test of `add_share` does not misread. -/
structure Complete (fits : Line → Line → Bool) (form : ShareForm) : Prop where
  sname : Literally fits form.sname ∧ form.sname ∉ testBinops
  shared : Literally fits form.shared ∧ form.shared ∉ testBinops
  write : Literally fits form.write ∧ form.write ≠ ['(']
  auser : isEmptyField form.auser = true ∨ Literally fits form.auser

/-- What follows a header does not go into the sections in front of it. -/
theorem sections_append (a : List Line) {l : Line} (lines : List Line)
    (h : firstChar l = some '[') :
    sections (a ++ l :: lines) = sections a ++ sections (l :: lines) := by
  induction a with
  | nil => rfl
  | cons x a ih =>
    rw [List.cons_append, sections, sections]
    split
    · have hbody : (a ++ l :: lines).takeWhile (firstChar · ≠ some '[') =
          a.takeWhile (firstChar · ≠ some '[') := by
        rw [List.takeWhile_append]
        split
        · rename_i hlen
          rw [(List.takeWhile_prefix _).eq_of_length hlen]
          simp [h]
        · rfl
      rw [hbody, ih, List.cons_append]
    · exact ih

/-- Lines that are no headers make no section. -/
theorem sections_body {lines : List Line} (h : ∀ l ∈ lines, firstChar l ≠ some '[') :
    sections lines = [] := by
  induction lines with
  | nil => rfl
  | cons l lines ih =>
    rw [sections, if_neg (h l List.mem_cons_self), ih fun x hx => h x (List.mem_cons_of_mem l hx)]

theorem bracket_trim (name : Line) : firstChar (bracket name) = some '[' ∧
    trim (bracket name) = bracket name := by
  refine ⟨rfl, ?_⟩
  have hlast : isBlank ']' = false := rfl
  have hend : trimEnd (('[' :: name) ++ [']']) = ('[' :: name) ++ [']'] :=
    List.rdropWhile_concat_neg _ _ _ (by simp [hlast])
  exact hend

/-- The sections of a file that a share was added to. -/
theorem sections_added (a : List Line) {args : List Line} (h : ∀ x ∈ args, '\n' ∉ x) :
    sections (a ++ addedLines args) =
      sections a ++ [(bracket (arg args 1), (addedLines args).tail)] := by
  have hbody : ∀ l ∈ (addedLines args).tail, firstChar l ≠ some '[' :=
    fun l hl => (addedLines_settings h l hl).2
  obtain ⟨hfirst, htrim⟩ := bracket_trim (arg args 1)
  have hhead : addedLines args = bracket (arg args 1) :: (addedLines args).tail := rfl
  rw [hhead, sections_append a _ hfirst, sections, if_pos hfirst, htrim, sections_body hbody,
    List.takeWhile_eq_self_iff.mpr fun l hl => by simpa using hbody l hl]
  rfl

/-- What was added says. -/
theorem setup_added (args : List Line) : setup (addedLines args).tail =
    ⟨some (arg args 2), some (arg args 3), if arg args 4 = [] then none else some (arg args 4)⟩ := by
  by_cases h : arg args 4 = []
  · rw [addedLines, if_neg (not_not.mpr h), if_pos h]
    rfl
  · rw [addedLines, if_pos h, if_neg h]
    rfl

/-- The shares of a file that a share was added to. -/
theorem shareOf_added (a : List Line) {args : List Line} (h : ∀ x ∈ args, '\n' ∉ x) (name : Line) :
    shareOf (a ++ addedLines args) name =
      if arg args 1 = name then some (setup (addedLines args).tail) else shareOf a name := by
  rw [shareOf, shareOf, sections_added a h, List.filter_append]
  by_cases he : arg args 1 = name
  · simp [he]
  · have hne : bracket (arg args 1) ≠ bracket name := fun hb =>
      he (List.append_cancel_right (List.cons.inj hb).2)
    simp [he, hne]

/-- An argument that is there is one of them. -/
theorem mem_of_arg {args : List Line} {i : Nat} {v : Line} (hv : arg args i = v) (hne : v ≠ []) :
    v ∈ args := by
  rw [arg, List.getD_eq_getElem?_getD] at hv
  cases hi : args[i - 1]? with
  | none =>
    rw [hi] at hv
    exact absurd hv.symm hne
  | some x =>
    rw [hi] at hv
    exact hv ▸ List.mem_of_getElem? hi

/-- One unquoted pass of the first four words. -/
def passed (files : Line → List Line) (words : List Line) : List Line :=
  unquoted files [arg words 1, arg words 2, arg words 3, arg words 4]

/-- What `add_share` is called with. -/
def addArgs (files : Line → List Line) (form : ShareForm) : List Line :=
  passed files (passed files (saveWords files form))

theorem smbshare_words {ops : TestOps} (files : Line → List Line) (words conf : List Line) :
    (smbshare ops files ("-a".toList :: words) conf).1 =
      setShare files (passed files words) conf := rfl

theorem save_passed (files : Line → List Line) (form : ShareForm) (conf : List Line) :
    save files form conf = delete files (unquoted files [arg (passed files (saveWords files form)) 1])
      conf ++ textLines [] (addShare (addArgs files form)) := by
  rw [save, smbshare_words]
  rfl

section
variable {fits : Line → Line → Bool} {d : Directory} {value : Line} {form : ShareForm}

theorem newline_passed (hd : Plainly d) {values : List Line} (h : ∀ v ∈ values, '\n' ∉ v) :
    ∀ x ∈ unquoted (d.files fits) values, '\n' ∉ x := by
  intro x hx
  obtain ⟨v, hv, hx⟩ := List.mem_flatMap.mp hx
  obtain ⟨w, hw, hx⟩ := List.mem_flatMap.mp hx
  rcases mem_expandWord hx with rfl | hx
  · exact fun hn => h v hv ((mem_splitWords x hw).2.subset hn)
  · unfold Directory.files metaOnly at hx
    split at hx
    · exact hd x (List.mem_filter.mp hx).1
    · cases hx

theorem newline_addArgs (hd : Plainly d) : ∀ x ∈ addArgs (d.files fits) form, '\n' ∉ x := by
  have hpassed {words : List Line} (h : ∀ x ∈ words, '\n' ∉ x) :
      ∀ x ∈ passed (d.files fits) words, '\n' ∉ x := by
    refine newline_passed hd ?_
    simp only [List.forall_mem_cons]
    exact ⟨newline_arg h 1, newline_arg h 2, newline_arg h 3, newline_arg h 4, by simp⟩
  refine hpassed (hpassed (newline_passed hd fun v hv => ?_))
  obtain ⟨x, -, rfl⟩ := List.mem_map.mp hv
  exact blankLines_newline x

/-- What is saved: a file that `delete` left, and the share if its fields are all there. -/
theorem save_eq (hargs : ∀ x ∈ addArgs (d.files fits) form, '\n' ∉ x) (conf : List Line) : ∃ args,
    save (d.files fits) form conf = delete (d.files fits) args conf ++
      if hasFields (addArgs (d.files fits) form) then addedLines (addArgs (d.files fits) form) else [] := by
  refine ⟨unquoted (d.files fits) [arg (passed (d.files fits) (saveWords (d.files fits) form)) 1], ?_⟩
  rw [save_passed, addShare_printed]
  split
  · have hlines : ∀ l ∈ addedLines (addArgs (d.files fits) form), '\n' ∉ l := by
      refine List.forall_mem_cons.mpr ⟨?_, fun l hl => (addedLines_settings hargs l hl).1.newline⟩
      simp [bracket, newline_arg hargs 1]
    rw [printed, textLines_flatMap hlines]
  · rfl

theorem Literally.expand (h : Literally fits value) (hd : Plainly d) :
    expandWord (d.files fits) value = [value] := by
  have hsame : d.files fits value = d.files (fun w n => fits w n && decide ('\n' ∉ n)) value := by
    unfold Directory.files metaOnly Directory.matching
    split
    · exact List.filter_congr fun n hn => by simp [hd n hn]
    · rfl
  have hfixed := h.fixed.expand d
  unfold expandWord at hfixed ⊢
  rwa [hsame]

theorem Literally.words (h : Literally fits value) (hd : Plainly d) :
    shellWords (d.files fits) [formField (d.files fits) value] = [value] := by
  rw [formField_single h.toOneWord (h.expand hd) h.option,
    shellWords_single h.word h.newline (h.expand hd)]

theorem Literally.pass (h : Literally fits value) (hd : Plainly d) :
    unquoted (d.files fits) [value] = [value] := by
  rw [unquoted, List.flatMap_singleton, h.word.split, List.flatMap_singleton, h.expand hd]

/-- An empty field gives no word. -/
theorem emptyField_words (files : Line → List Line) (h : isEmptyField value = true) :
    shellWords files [formField files value] = [] := by
  have hnone : shellWords files [value] = [] := by
    have hall : ∀ c ∈ blankLines value, isBlank c = true := by
      intro c hc
      obtain ⟨x, hx, rfl⟩ := List.mem_map.mp hc
      have hsep : isSeparator x = true := List.all_eq_true.mp h x hx
      split
      · rfl
      · simpa [isSeparator, *] using hsep
    have hwords : splitWords (blankLines value) = [] := by
      refine List.eq_nil_iff_forall_not_mem.mpr fun w hw => ?_
      obtain ⟨⟨hne, hchars⟩, hin⟩ := mem_splitWords w hw
      obtain ⟨c, hc⟩ := List.exists_mem_of_ne_nil w hne
      have hblank := hall c (hin.subset hc)
      rw [hchars c hc] at hblank
      cases hblank
    rw [shellWords, List.map_singleton, unquoted, List.flatMap_singleton, hwords]
    rfl
  have hfield : formField files value = [] := by
    rw [formField, hnone]
    rfl
  rw [hfield]
  rfl

/-- The words of a form. -/
def ShareForm.words (form : ShareForm) : List Line :=
  [form.sname, form.shared, form.write] ++ if isEmptyField form.auser then [] else [form.auser]

theorem saveWords_eq (files : Line → List Line) (form : ShareForm) : saveWords files form =
    shellWords files [formField files form.sname] ++ (shellWords files [formField files form.shared] ++
      (shellWords files [formField files form.write] ++
        shellWords files [formField files form.auser])) := by
  rw [← shellWords_append, ← shellWords_append, ← shellWords_append]
  rfl

theorem passed_eq (files : Line → List Line) (words : List Line) : passed files words =
    unquoted files [arg words 1] ++ (unquoted files [arg words 2] ++
      (unquoted files [arg words 3] ++ unquoted files [arg words 4])) := by
  simp [passed, unquoted]

/-- Complete fields reach `add_share` as they were submitted. -/
theorem Complete.words_reach (h : Complete fits form) (hd : Plainly d) :
    addArgs (d.files fits) form = form.words := by
  have hwords : saveWords (d.files fits) form = form.words := by
    rw [saveWords_eq, h.sname.1.words hd, h.shared.1.words hd, h.write.1.words hd, ShareForm.words]
    by_cases he : isEmptyField form.auser = true
    · rw [emptyField_words _ he, if_pos he]
      rfl
    · rw [(h.auser.resolve_left he).words hd, if_neg he]
      rfl
  have hpass : passed (d.files fits) form.words = form.words := by
    have h1 : arg form.words 1 = form.sname ∧ arg form.words 2 = form.shared ∧
        arg form.words 3 = form.write := ⟨rfl, rfl, rfl⟩
    rw [passed_eq, h1.1, h1.2.1, h1.2.2, h.sname.1.pass hd, h.shared.1.pass hd, h.write.1.pass hd]
    unfold ShareForm.words arg
    by_cases he : isEmptyField form.auser = true
    · rw [if_pos he]
      rfl
    · rw [if_neg he]
      have hpass := (h.auser.resolve_left he).pass hd
      simpa using hpass
  rw [addArgs, hwords, hpass, hpass]

theorem Complete.tested (h : Complete fits form) : hasFields form.words = true := by
  have h1 : arg form.words 1 = form.sname ∧ arg form.words 2 = form.shared ∧
      arg form.words 3 = form.write := ⟨rfl, rfl, rfl⟩
  rw [hasFields, h1.1, h1.2.1, h1.2.2, decide_eq_true_iff, bracket_nonempty]
  exact ⟨⟨h.sname.1.word.1, h.sname.2⟩, ⟨h.shared.1.word.1, h.shared.2⟩, h.write.1.word.1, h.write.2⟩

theorem words_setup (h : Complete fits form) : setup (addedLines form.words).tail = form.submitted := by
  rw [setup_added]
  have h4 : (if arg form.words 4 = [] then none else some (arg form.words 4)) =
      if isEmptyField form.auser then none else some form.auser := by
    unfold ShareForm.words arg
    by_cases he : isEmptyField form.auser = true
    · simp [he]
    · have hne := (h.auser.resolve_left he).word.1
      simp [he, hne]
  rw [h4]
  rfl

/-- A complete form is saved, whatever the file was. -/
theorem Complete.saved (h : Complete fits form) (hd : Plainly d) (conf : List Line) :
    shareOf (save (d.files fits) form conf) form.sname = some form.submitted := by
  have hargs : ∀ x ∈ addArgs (d.files fits) form, '\n' ∉ x := newline_addArgs hd
  obtain ⟨args, hsave⟩ := save_eq hargs conf
  rw [h.words_reach hd, if_pos h.tested] at hsave
  rw [h.words_reach hd] at hargs
  have hname : arg form.words 1 = form.sname := rfl
  rw [hsave, shareOf_added _ hargs form.sname, if_pos hname, words_setup h]

/-- A share whose path has two blanks in a row: every rewriting changes it. -/
def fragile : List Line := ["[zz]".toList, "path = /usb/a  b".toList]

/-- What rewriting makes of its line. -/
def squeezed : Line := "path = /usb/a b".toList

def squeezedSetup : Setup := ⟨some "/usb/a b".toList, none, none⟩

theorem shareOf_fragile : shareOf fragile "zz".toList = some ⟨some "/usb/a  b".toList, none, none⟩ := by
  decide +kernel

theorem shareOf_squeezed (h name : Line) : shareOf [h, squeezed, []] name = none ∨
    shareOf [h, squeezed, []] name = some squeezedSetup := by
  have hbody : sections [squeezed, []] = [] := by decide +kernel
  have hlines : [squeezed, []].takeWhile (firstChar · ≠ some '[') = [squeezed, []] := by
    decide +kernel
  have hsetup : setup [squeezed, []] = squeezedSetup := by decide +kernel
  rw [shareOf, sections, hbody, hlines]
  split
  · by_cases he : trim h = bracket name
    · exact .inr (by simp [he, hsetup])
    · exact .inl (by simp [he])
  · exact .inl rfl

/-- What `delete` prints of the fragile share. -/
theorem configRemove_fragile {files : Line → List Line} {h : Line}
    (hh : expandWord files "[zz]".toList = [h])
    (hf : ∀ w, (∀ c ∈ w, c ∉ metaChars) → expandWord files w = [w]) (args : List Line) :
    configRemove files args fragile = ['\n'] ∨
      configRemove files args fragile = echo [h] ++ (squeezed ++ ['\n', '\n']) := by
  have hread : readLines true [] fragile = fragile := by decide +kernel
  have hfirst : cutBytes 1 (captured (echo ["[zz]".toList])) = ['['] := by decide +kernel
  have hsecond : cutBytes 1 (captured (echo ["path = /usb/a  b".toList])) ≠ ['['] := by
    decide +kernel
  have hheader : splitWords "[zz]".toList = ["[zz]".toList] := by decide +kernel
  have hpath : splitWords "path = /usb/a  b".toList =
      ["path".toList, ['='], "/usb/a".toList, ['b']] := by decide +kernel
  have hplain : ∀ w ∈ ["path".toList, ['='], "/usb/a".toList, ['b']], ∀ c ∈ w, c ∉ metaChars := by
    decide
  have hwords : unquoted files ["path = /usb/a  b".toList] =
      ["path".toList, ['='], "/usb/a".toList, ['b']] := by
    rw [unquoted, List.flatMap_singleton, hpath, List.flatMap_congr (g := fun w => [w]) fun w hw =>
      hf w (hplain w hw), List.flatMap_singleton']
  have hname : unquoted files ["[zz]".toList] = [h] := by
    rw [unquoted, List.flatMap_singleton, hheader, List.flatMap_singleton, hh]
  have hprint : echo ["path".toList, ['='], "/usb/a".toList, ['b']] = squeezed ++ ['\n'] := by
    decide +kernel
  have hend : echo [[]] = ['\n'] := rfl
  rw [configRemove, hread, fragile, removeLoop, removeLoop, removeLoop, if_pos hfirst, if_neg hsecond,
    hname, hwords, hprint, hend]
  by_cases he : "[zz]".toList = bracket (arg args 1)
  · rw [decide_eq_true he]
    exact .inl (by simp)
  · rw [decide_eq_false he]
    exact .inr (by simp)

/-- The fragile share is gone or not what it was. -/
theorem delete_fragile {files : Line → List Line} {h : Line}
    (hh : expandWord files "[zz]".toList = [h]) (hn : '\n' ∉ h)
    (hf : ∀ w, (∀ c ∈ w, c ∉ metaChars) → expandWord files w = [w]) (args : List Line)
    (name : Line) : shareOf (delete files args fragile) name = none ∨
      shareOf (delete files args fragile) name = some squeezedSetup := by
  have hsqueezed : '\n' ∉ squeezed := by decide
  have hnone : sections [squeezed, []] = [] ∧ sections [[], squeezed, []] = [] := by decide +kernel
  have htail : textLines [] (squeezed ++ ['\n', '\n']) = [squeezed, []] := by decide +kernel
  rw [delete]
  rcases configRemove_fragile hh hf (unquoted files [arg args 1]) with he | he
  · rw [he]
    exact .inl rfl
  · rw [he]
    cases ho : isEchoOption h with
    | true =>
      have hecho : echo [h] = [] ∨ echo [h] = ['\n'] := by
        by_cases hc : 'n' ∈ h <;> by_cases hc' : 'e' ∈ h <;>
          simp [echo, echoFrom, ho, echoText, hc, hc', echoEscapedWords]
      rcases hecho with hecho | hecho
      · rw [hecho, List.nil_append, htail, shareOf, hnone.1]
        exact .inl rfl
      · rw [hecho, List.singleton_append, textLines, if_pos rfl, htail, shareOf, hnone.2]
        exact .inl rfl
    | false =>
      have hecho : echo [h] = h ++ ['\n'] := by simp [echo, echoFrom, ho, echoText]
      rw [hecho, List.append_assoc, List.singleton_append, textLines_line hn, htail]
      exact shareOf_squeezed h name

/-- Over the fragile file the share is the one that was submitted only if `add_share` had it. -/
theorem added_of_fragile {h : Line} (hh : expandWord (d.files fits) "[zz]".toList = [h])
    (hn : '\n' ∉ h) (hd : Plainly d)
    (ho : AllOrNothing form fragile (save (d.files fits) form fragile)) :
    hasFields (addArgs (d.files fits) form) = true ∧
      arg (addArgs (d.files fits) form) 1 = form.sname ∧
        setup (addedLines (addArgs (d.files fits) form)).tail = form.submitted := by
  have hargs : ∀ x ∈ addArgs (d.files fits) form, '\n' ∉ x := newline_addArgs hd
  obtain ⟨args, hsave⟩ := save_eq hargs fragile
  have hf (w : Line) (hw : ∀ c ∈ w, c ∉ metaChars) : expandWord (d.files fits) w = [w] := by
    have hfixed : Fixed fits w := Fixed.of_plain hw
    exact hfixed.expand d
  have hold := delete_fragile hh hn hf args
  rw [hsave] at ho
  generalize addArgs (d.files fits) form = words at *
  have hsubmitted : shareOf (delete (d.files fits) args fragile) form.sname ≠ some form.submitted := by
    rcases hold form.sname with he | he <;> rw [he]
    · simp
    · simp [squeezedSetup, ShareForm.submitted]
  have hsame : shareOf (delete (d.files fits) args fragile) "zz".toList ≠ shareOf fragile "zz".toList := by
    rw [shareOf_fragile]
    rcases hold "zz".toList with he | he <;> rw [he]
    · simp
    · decide
  cases hfields : hasFields words with
  | false =>
    rw [hfields, if_neg Bool.false_ne_true, List.append_nil] at ho
    exact (ho.elim hsubmitted fun h => hsame (h _ (by decide))).elim
  | true =>
    rw [hfields, if_pos rfl] at ho
    rcases ho with ho | ho
    · rw [shareOf_added _ hargs] at ho
      split at ho
      · exact ⟨rfl, ‹_›, Option.some.inj ho⟩
      · exact absurd ho hsubmitted
    · have hz := ho "zz".toList (by decide)
      rw [shareOf_added _ hargs] at hz
      split at hz
      · rw [shareOf_fragile, setup_added] at hz
        simp at hz
      · exact absurd hz hsame

/-- The arguments of `add_share` are the submitted fields. -/
structure Reached (form : ShareForm) (args : List Line) : Prop where
  fields : hasFields args = true
  sname : arg args 1 = form.sname
  shared : arg args 2 = form.shared
  write : arg args 3 = form.write
  auser : isEmptyField form.auser = false → arg args 4 = form.auser

theorem reached_of_fragile {h : Line} (hh : expandWord (d.files fits) "[zz]".toList = [h])
    (hn : '\n' ∉ h) (hd : Plainly d)
    (ho : AllOrNothing form fragile (save (d.files fits) form fragile)) :
    Reached form (addArgs (d.files fits) form) := by
  obtain ⟨hfields, hname, hsetup⟩ := added_of_fragile hh hn hd ho
  rw [setup_added, ShareForm.submitted, Setup.mk.injEq] at hsetup
  obtain ⟨hpath, hwrite, huser⟩ := hsetup
  refine ⟨hfields, hname, Option.some.inj hpath, Option.some.inj hwrite, fun he => ?_⟩
  rw [he, if_neg Bool.false_ne_true] at huser
  split at huser
  · cases huser
  · exact Option.some.inj huser

theorem Reached.ne_nil {args : List Line} (h : Reached form args) :
    (form.sname ≠ [] ∧ form.sname ∉ testBinops) ∧ (form.shared ≠ [] ∧ form.shared ∉ testBinops) ∧
      form.write ≠ [] ∧ form.write ≠ ['('] := by
  have hfields := h.fields
  rwa [hasFields, decide_eq_true_iff, bracket_nonempty, h.sname, h.shared, h.write] at hfields

/-- The words of a field in an empty directory. -/
def fieldWords (value : Line) : List Line :=
  shellWords (fun _ => []) [formField (fun _ => []) value]

/-- A field of one word stays one word, unless `echo` takes it for options. -/
theorem fieldWords_single (h : OneWord value) :
    fieldWords value = if isEchoOption value then [] else [value] := by
  rw [fieldWords]
  split
  · rename_i ho
    rw [formField_option h rfl ho]
    rfl
  · rename_i ho
    rw [formField_single h rfl (by simpa using ho), shellWords_single h.word h.newline rfl]

theorem saveWords_fields (form : ShareForm) : saveWords (fun _ => []) form = fieldWords form.sname ++
    (fieldWords form.shared ++ (fieldWords form.write ++ fieldWords form.auser)) :=
  saveWords_eq _ form

theorem oneWord_saveWords (form : ShareForm) : ∀ w ∈ saveWords (fun _ => []) form, OneWord w := by
  rw [saveWords_fields]
  intro w hw
  simp only [List.mem_append] at hw
  rcases hw with hw | hw | hw | hw <;> exact mem_fieldWords (fun _ => rfl) hw

/-- The submitted fields are the words in their places. -/
theorem fields_in_place (h1 : arg (saveWords (fun _ => []) form) 1 = form.sname)
    (h2 : arg (saveWords (fun _ => []) form) 2 = form.shared)
    (h3 : arg (saveWords (fun _ => []) form) 3 = form.write)
    (h4 : isEmptyField form.auser = false → arg (saveWords (fun _ => []) form) 4 = form.auser)
    (hne : form.sname ≠ [] ∧ form.shared ≠ [] ∧ form.write ≠ []) :
    ∀ v ∈ form.words, OneWord v ∧ isEchoOption v = false := by
  have hwords := oneWord_saveWords form
  have hs := hwords _ (mem_of_arg h1 hne.1)
  have hf := hwords _ (mem_of_arg h2 hne.2.1)
  have hw := hwords _ (mem_of_arg h3 hne.2.2)
  have huser (he : isEmptyField form.auser = false) : form.auser ≠ [] ∧ OneWord form.auser := by
    have hne : form.auser ≠ [] := by
      intro hnil
      rw [hnil] at he
      cases he
    exact ⟨hne, hwords _ (mem_of_arg (h4 he) hne)⟩
  have hlen : (fieldWords form.auser).length ≤ 1 := by
    cases he : isEmptyField form.auser with
    | true =>
      rw [fieldWords, emptyField_words _ he]
      exact Nat.zero_le 1
    | false =>
      rw [fieldWords_single (huser he).2]
      split <;> simp
  rw [saveWords_fields, fieldWords_single hs, fieldWords_single hf, fieldWords_single hw] at h1 h2 h3 h4
  have huserWords (he : isEmptyField form.auser = false) := fieldWords_single (huser he).2
  have hempty (he : isEmptyField form.auser = true) : fieldWords form.auser = [] :=
    emptyField_words _ he
  generalize fieldWords form.auser = ws at h1 h2 h3 h4 hlen huserWords hempty
  have hshort : ws = [] ∨ ∃ x, ws = [x] := by
    rcases ws with _ | ⟨x, _ | ⟨y, ws⟩⟩
    · exact .inl rfl
    · exact .inr ⟨x, rfl⟩
    · simp at hlen
  -- a field that is taken for options leaves its place to the next one, and one is missing
  have hsname : isEchoOption form.sname = false := by
    by_contra ho
    have ho : isEchoOption form.sname = true := by simpa using ho
    rw [if_pos ho, List.nil_append] at h1 h2
    cases hb : isEchoOption form.shared with
    | false =>
      rw [hb, if_neg Bool.false_ne_true] at h1
      have h1 : form.shared = form.sname := h1
      rw [h1, ho] at hb
      cases hb
    | true =>
      rw [if_pos hb, List.nil_append] at h1 h2
      cases hc : isEchoOption form.write with
      | false =>
        rw [hc, if_neg Bool.false_ne_true] at h1
        have h1 : form.write = form.sname := h1
        rw [h1, ho] at hc
        cases hc
      | true =>
        rw [if_pos hc, List.nil_append] at h2
        rcases hshort with rfl | ⟨x, rfl⟩ <;> exact hne.2.1 h2.symm
  rw [hsname, if_neg Bool.false_ne_true] at h2 h3 h4
  have hshared : isEchoOption form.shared = false := by
    by_contra ho
    have ho : isEchoOption form.shared = true := by simpa using ho
    rw [if_pos ho, List.nil_append] at h2 h3
    cases hc : isEchoOption form.write with
    | false =>
      rw [hc, if_neg Bool.false_ne_true] at h2
      have h2 : form.write = form.shared := h2
      rw [h2, ho] at hc
      cases hc
    | true =>
      rw [if_pos hc, List.nil_append] at h3
      rcases hshort with rfl | ⟨x, rfl⟩ <;> exact hne.2.2 h3.symm
  rw [hshared, if_neg Bool.false_ne_true] at h3 h4
  have hwrite : isEchoOption form.write = false := by
    by_contra ho
    have ho : isEchoOption form.write = true := by simpa using ho
    rw [if_pos ho, List.nil_append] at h3 h4
    rcases hshort with rfl | ⟨x, rfl⟩
    · exact hne.2.2 h3.symm
    · cases he : isEmptyField form.auser with
      | false => exact (huser he).1 (h4 he).symm
      | true => exact absurd (hempty he) (List.cons_ne_nil x [])
  rw [hwrite, if_neg Bool.false_ne_true] at h4
  have hauser (he : isEmptyField form.auser = false) : isEchoOption form.auser = false := by
    by_contra ho
    rw [huserWords he, if_pos (by simpa using ho)] at h4
    exact (huser he).1 (h4 he).symm
  intro v hv
  simp only [ShareForm.words, List.mem_append, List.mem_cons, List.not_mem_nil, or_false] at hv
  rcases hv with (rfl | rfl | rfl) | hv
  · exact ⟨hs, hsname⟩
  · exact ⟨hf, hshared⟩
  · exact ⟨hw, hwrite⟩
  · cases he : isEmptyField form.auser with
    | true => simp [he] at hv
    | false =>
      obtain rfl : v = form.auser := by simpa [he] using hv
      exact ⟨(huser he).2, hauser he⟩

/-- In an empty directory the words are passed on as they are. -/
theorem passed_words {words : List Line} (h : ∀ w ∈ words, OneWord w) :
    passed (fun _ => []) words = words.take 4 := by
  have hsingle {w : Line} (hw : OneWord w) : unquoted (fun _ => []) [w] = [w] := by
    rw [unquoted, List.flatMap_singleton, hw.word.split]
    rfl
  rw [passed_eq]
  rcases words with _ | ⟨a, _ | ⟨b, _ | ⟨c, _ | ⟨e, words⟩⟩⟩⟩ <;>
    simp_all [arg, unquoted, splitWords]

theorem arg_take (words : List Line) {i : Nat} (hi : i ≤ 4) : arg (words.take 4) i = arg words i := by
  rw [arg, arg, List.getD_eq_getElem?_getD, List.getD_eq_getElem?_getD, List.getElem?_take,
    if_pos (by omega)]

theorem expand_single {n : Line} (hn : n ≠ []) {w x : Line}
    (h : x ∈ expandWord ((Directory.single n hn).files fits) w) (hx : x ≠ n) :
    ¬ (x.any (· ∈ metaChars) = true ∧ fits x n = true) := by
  rw [Directory.single_expand, List.mem_singleton] at h
  split at h
  · exact absurd h hx
  · rwa [h]

/-- Every field of the form is among the arguments. -/
theorem Reached.mem {args : List Line} (h : Reached form args) :
    ∀ v ∈ form.words, v ≠ [] → v ∈ args := by
  intro v hv
  simp only [ShareForm.words, List.mem_append, List.mem_cons, List.not_mem_nil, or_false] at hv
  rcases hv with (rfl | rfl | rfl) | hv
  · exact mem_of_arg h.sname
  · exact mem_of_arg h.shared
  · exact mem_of_arg h.write
  · cases he : isEmptyField form.auser with
    | true => simp [he] at hv
    | false =>
      obtain rfl : v = form.auser := by simpa [he] using hv
      exact mem_of_arg (h.auser he)

/-- In an empty directory `add_share` gets the first four words. -/
theorem addArgs_empty (form : ShareForm) :
    addArgs (fun _ => []) form = (saveWords (fun _ => []) form).take 4 := by
  have hwords := oneWord_saveWords form
  rw [addArgs, passed_words hwords, passed_words fun w hw => hwords w (List.mem_of_mem_take hw),
    List.take_take, Nat.min_self]

/-- The words of a form that reaches `add_share` in an empty directory. -/
theorem Reached.words (h : Reached form (addArgs (fun _ => []) form)) :
    ∀ v ∈ form.words, OneWord v ∧ isEchoOption v = false := by
  obtain ⟨⟨hs, -⟩, ⟨hf, -⟩, hw, -⟩ := h.ne_nil
  rw [addArgs_empty] at h
  have harg (i : Nat) (hi : i ≤ 4) := arg_take (saveWords (fun _ => []) form) hi
  refine fields_in_place ?_ ?_ ?_ (fun he => ?_) ⟨hs, hf, hw⟩
  · rw [← harg 1 (by decide), h.sname]
  · rw [← harg 2 (by decide), h.shared]
  · rw [← harg 3 (by decide), h.write]
  · rw [← harg 4 (by decide), h.auser he]

/-- A form that is saved over the fragile file in every directory is complete. -/
theorem complete_of_saved (h : ∀ d : Directory, Plainly d →
    AllOrNothing form fragile (save (d.files fits) form fragile)) : Complete fits form := by
  have hfiles : Directory.empty.files fits = fun _ => [] := funext fun _ => Directory.empty_files
  have hempty : Reached form (addArgs (fun _ => []) form) := by
    have hplain : Plainly .empty := fun n hn => absurd hn List.not_mem_nil
    have hzz : expandWord (Directory.empty.files fits) "[zz]".toList = ["[zz]".toList] := by
      rw [hfiles]
      rfl
    rw [← hfiles]
    exact reached_of_fragile hzz (by decide) hplain (h .empty hplain)
  have hwords := hempty.words
  -- with one name in the directory no argument is a pattern for it
  have hliteral (v : Line) (hv : v ∈ form.words) : Literally fits v := by
    refine ⟨(hwords v hv).1, (hwords v hv).2, fun hmeta n hne hfit => ?_⟩
    by_contra hnv
    obtain ⟨hfit, hline⟩ : fits v n = true ∧ '\n' ∉ n := by simpa using hfit
    have hplain : Plainly (.single n hne) := fun x hx => List.mem_singleton.mp hx ▸ hline
    obtain ⟨x, hx, hxline⟩ : ∃ x, expandWord ((Directory.single n hne).files fits) "[zz]".toList = [x] ∧
        '\n' ∉ x := by
      refine ⟨_, Directory.single_expand hne _, ?_⟩
      split
      · exact hline
      · decide
    have hreached := reached_of_fragile hx hxline hplain (h _ hplain)
    obtain ⟨w, -, hw⟩ := List.mem_flatMap.mp (hreached.mem v hv (hwords v hv).1.word.1)
    obtain ⟨u, -, hu⟩ := List.mem_flatMap.mp hw
    exact expand_single hne hu (Ne.symm hnv) ⟨hmeta, hfit⟩
  obtain ⟨⟨-, hs⟩, ⟨-, hf⟩, -, hw⟩ := hempty.ne_nil
  have hmem : form.sname ∈ form.words ∧ form.shared ∈ form.words ∧ form.write ∈ form.words := by
    simp [ShareForm.words]
  refine ⟨⟨hliteral _ hmem.1, hs⟩, ⟨hliteral _ hmem.2.1, hf⟩, ⟨hliteral _ hmem.2.2, hw⟩, ?_⟩
  cases he : isEmptyField form.auser with
  | true => exact .inl rfl
  | false => exact .inr (hliteral _ (by simp [ShareForm.words, he]))

/-- Saving is all or nothing in every state of the file and in every directory if and only if
the form is complete. -/
theorem save_all_or_nothing_iff (fits : Line → Line → Bool) (form : ShareForm) :
    (∀ conf : List Line, (∀ l ∈ conf, '\n' ∉ l) → ∀ d : Directory, Plainly d →
      AllOrNothing form conf (save (d.files fits) form conf)) ↔ Complete fits form :=
  ⟨fun h => complete_of_saved fun d hd => h fragile (by decide) d hd,
    fun h conf _ _ hd => .inl (h.saved hd conf)⟩

end

/-- A file with one share, and a form for it without a folder. -/
def oneShare : List Line :=
  ["[global]".toList, "[music]".toList, "    path = /usb/music".toList, "    writeable = yes".toList]

def noFolder : ShareForm := ⟨"music".toList, [], "yes".toList, []⟩

/-- The share is deleted, and nothing is saved. -/
theorem save_no_folder : ¬ AllOrNothing noFolder oneShare
    (save (Directory.empty.files fnmatchAll) noFolder oneShare) := by
  have hsaved : shareOf (save (Directory.empty.files fnmatchAll) noFolder oneShare) "music".toList =
      none := by decide +kernel
  have hbefore : shareOf oneShare "music".toList ≠ none := by decide +kernel
  rintro (h | h)
  · have hname : noFolder.sname = "music".toList := rfl
    rw [hname, hsaved] at h
    cases h
  · exact hbefore (hsaved ▸ (h _ (by decide)).symm)

end SnakeOs.Samba
