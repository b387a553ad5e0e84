import SnakeOs.Lib.Directory
import SnakeOs.Lib.Echo

/-! How the pages take the fields of a form. -/

namespace SnakeOs.Config
open Lib

/-- A newline in a value splits words as a blank does. -/
def blankLines (value : Line) : Line := value.map fun c => if c = '\n' then ' ' else c

section
variable (files : Line → List Line)

/-- The words of unquoted values. -/
def shellWords (values : List Line) : List Line := unquoted files (values.map blankLines)

/-- `$(echo ${FORM_x} | cut -d ' ' -f 1)`. -/
def formField (value : Line) : Line :=
  cmdSubst ((fileLines (echo (shellWords files [value]))).flatMap fun l => cutField ' ' 1 l ++ ['\n'])

end

/-- A value that is one word for the shell, whatever its characters mean elsewhere. -/
structure OneWord (value : Line) : Prop where
  word : Word value
  newline : '\n' ∉ value
  nul : '\x00' ∉ value

section
variable {files : Line → List Line} {value : Line}

theorem blankLines_eq (h : '\n' ∉ value) : blankLines value = value :=
  (List.map_congr_left fun c hc => if_neg fun he : c = '\n' => h (he ▸ hc)).trans
    (List.map_id value)

theorem blankLines_newline (value : Line) : '\n' ∉ blankLines value := by
  intro h
  obtain ⟨c, -, hc⟩ := List.mem_map.mp h
  split at hc
  · cases hc
  · exact ‹¬ c = '\n'› hc

theorem shellWords_single (hw : Word value) (hn : '\n' ∉ value)
    (hf : expandWord files value = [value]) : shellWords files [value] = [value] := by
  rw [shellWords, List.map_singleton, blankLines_eq hn, unquoted, List.flatMap_singleton, hw.split,
    List.flatMap_singleton, hf]

theorem shellWords_append (values values' : List Line) :
    shellWords files (values ++ values') = shellWords files values ++ shellWords files values' := by
  simp [shellWords, unquoted]

theorem formField_nil : formField files [] = [] := rfl

/-- A value that is one word, no option and no pattern is taken as it is. -/
theorem formField_single (h : OneWord value) (hf : expandWord files value = [value])
    (ho : isEchoOption value = false) : formField files value = value := by
  have hecho : echo [value] = value ++ ['\n'] := by simp [echo, echoFrom, ho, echoText]
  have hnul : '\x00' ∉ value ++ ['\n'] := by simp [h.nul]
  have hspace : ' ' ∉ value := fun hm => absurd (h.word.2 ' ' hm) (by decide)
  rw [formField, shellWords_single h.word h.newline hf, hecho, fileLines_eq hnul,
    textLines_line h.newline, List.nil_append, textLines, if_pos rfl, List.flatMap_singleton, cutField_none hspace]
  exact cmdSubst_newlines h.nul h.newline 1

/-- A word that `echo` takes for options gives nothing. -/
theorem formField_option (h : OneWord value) (hf : expandWord files value = [value])
    (ho : isEchoOption value = true) : formField files value = [] := by
  rw [formField, shellWords_single h.word h.newline hf, echo, echoFrom, if_pos ho]
  by_cases hn : 'n' ∈ value <;> by_cases he : 'e' ∈ value <;>
    simp [echoFrom, echoText, hn, he, echoEscapedWords, fileLines, textLines, cutField, cmdSubst]

theorem formField_nul (value : Line) : '\x00' ∉ formField files value := by
  intro hm
  have hm := (List.rdropWhile_prefix (fun c => decide (c = '\n')) _).subset hm
  simp at hm

/-- A character that is no part of a word. -/
def isHidden (c : Char) : Bool := isSeparator c || c == '\x00'

/-- How many characters of a text are parts of words. -/
def visible (text : List Char) : Nat := text.countP fun c => !isHidden c

theorem visible_append (a b : List Char) : visible (a ++ b) = visible a + visible b :=
  List.countP_append

theorem visible_le (text : List Char) : visible text ≤ text.length := List.countP_le_length

theorem visible_cons_hidden {c : Char} (h : isHidden c = true) (text : List Char) :
    visible (c :: text) = visible text := by
  rw [visible, List.countP_cons_of_neg (by simp [h])]
  rfl

theorem visible_cons_le (c : Char) (text : List Char) :
    visible (c :: text) ≤ visible text + 1 := by
  rw [visible, List.countP_cons]
  split <;> simp [visible]

theorem visible_eq_length {text : List Char} :
    visible text = text.length ↔ ∀ c ∈ text, isHidden c = false := by
  simp [visible, List.countP_eq_length]

/-- A sequence of lines shows what its text shows. -/
theorem visible_textLines (line : Line) (text : List Char) :
    ((textLines line text).map visible).sum = visible line + visible text := by
  induction text generalizing line with
  | nil =>
    rw [textLines]
    split
    · simp [*, visible]
    · simp [visible]
  | cons c text ih =>
    rw [textLines]
    split
    · rename_i hc
      rw [List.map_cons, List.sum_cons, ih, hc, visible_cons_hidden rfl]
      simp [visible]
    · rw [ih, visible_append, Nat.add_assoc, ← visible_append]
      rfl

theorem visible_fileLines (text : List Char) :
    ((fileLines text).map visible).sum = visible text := by
  have hsame : visible (text.map fun c => if c = '\x00' then '\n' else c) = visible text := by
    rw [visible, List.countP_map]
    refine List.countP_congr fun c _ => ?_
    rw [Function.comp_apply]
    split
    · simp [*, isHidden, isSeparator]
    · rfl
  rw [fileLines, visible_textLines, hsame]
  exact Nat.zero_add _

theorem visible_flatMap_le {lines : List Line} {f : Line → Line}
    (h : ∀ l ∈ lines, visible (f l) ≤ visible l) :
    visible (lines.flatMap fun l => f l ++ ['\n']) ≤ (lines.map visible).sum := by
  induction lines with
  | nil => exact Nat.le_refl 0
  | cons l lines ih =>
    have hl := h l List.mem_cons_self
    have ih := ih fun x hx => h x (List.mem_cons_of_mem l hx)
    rw [List.flatMap_cons, visible_append, visible_append, List.map_cons, List.sum_cons,
      visible_cons_hidden rfl]
    exact Nat.add_le_add hl ih

/-- What splitting leaves of a text. -/
theorem visible_splitWords (v : Line) : ((splitWords v).map visible).sum = visible v := by
  have hall : ((v.splitOnP isBlank).map visible).sum = visible v := by
    induction v with
    | nil => rfl
    | cons c v ih =>
      rw [List.splitOnP_cons_eq_if_modifyHead]
      split
      · rename_i hb
        have hhidden : isHidden c = true := by simp [isHidden, isSeparator, hb]
        rw [List.map_cons, List.sum_cons, ih, visible_cons_hidden hhidden]
        exact Nat.zero_add _
      · cases hs : v.splitOnP isBlank with
        | nil => exact absurd hs (List.splitOnP_ne_nil _ _)
        | cons w ws =>
          rw [hs, List.map_cons, List.sum_cons] at ih
          rw [List.modifyHead_cons, List.map_cons, List.sum_cons, ← List.singleton_append (l := w),
            ← List.singleton_append (l := v), visible_append, visible_append, Nat.add_assoc, ih]
  rw [← hall, splitWords]
  generalize v.splitOnP isBlank = ws
  induction ws with
  | nil => rfl
  | cons w ws ih =>
    cases w with
    | nil => simpa [visible] using ih
    | cons c w => simp [ih]

theorem visible_blankLines (v : Line) : visible (blankLines v) = visible v := by
  rw [visible, blankLines, List.countP_map]
  refine List.countP_congr fun c _ => ?_
  rw [Function.comp_apply]
  split
  · simp [*, isHidden, isSeparator, isBlank]
  · rfl

theorem visible_echoEscapes (n : Nat) (w : Line) : visible (echoEscapes n w).1 ≤ visible w := by
  fun_induction echoEscapes n w with
  | case1 => exact Nat.le_refl 0
  | case2 n c cs ih => exact ih.trans (by simp [visible, List.countP_cons])
  | case3 => exact Nat.zero_le _
  | case4 cs _ skipped e ih =>
    have hslash : visible ('\\' :: cs) = visible cs + 1 := by
      simp [visible, isHidden, isSeparator, isBlank]
    exact (visible_cons_le _ _).trans (by rw [hslash]; exact Nat.succ_le_succ ih)
  | case5 c cs _ ih =>
    rw [← List.singleton_append (l := cs), ← List.singleton_append (l := (echoEscapes 0 cs).1),
      visible_append, visible_append]
    exact Nat.add_le_add_left ih _

theorem visible_echoEscapedWords (ws : List Line) :
    visible (echoEscapedWords ws).1 ≤ (ws.map visible).sum := by
  fun_induction echoEscapedWords ws with
  | case1 => exact Nat.le_refl 0
  | case2 w => simpa using visible_echoEscapes 0 w
  | case3 w ws _ _ => exact (visible_echoEscapes 0 w).trans (by simp)
  | case4 w ws _ _ ih =>
    rw [visible_append, visible_cons_hidden rfl, List.map_cons, List.sum_cons]
    exact Nat.add_le_add (visible_echoEscapes 0 w) ih

theorem visible_intercalate (ws : List Line) :
    visible ([' '].intercalate ws) = (ws.map visible).sum := by
  induction ws with
  | nil => rfl
  | cons w ws ih =>
    cases ws with
    | nil => simp
    | cons x ws =>
      rw [List.intercalate_cons_cons, List.append_assoc, visible_append, List.singleton_append,
        visible_cons_hidden rfl, ih]
      rfl

/-- `echo` shows nothing that is not in its words. -/
theorem visible_echo (ws : List Line) : visible (echo ws) ≤ (ws.map visible).sum := by
  obtain ⟨opts, rest, rfl, -, -, hecho⟩ := echoFrom_options ws true false
  have hend (newline escapes : Bool) :
      visible (echoText newline escapes rest) ≤ (rest.map visible).sum := by
    have htail (b : Bool) : visible (if b then ['\n'] else []) = 0 := by cases b <;> rfl
    rw [echoText, visible_append, htail, Nat.add_zero]
    split
    · exact visible_echoEscapedWords rest
    · exact Nat.le_of_eq (visible_intercalate rest)
  rw [echo, hecho, List.map_append, List.sum_append]
  exact (hend _ _).trans (Nat.le_add_left _ _)

theorem visible_sublist {a b : List Char} (h : a.Sublist b) : visible a ≤ visible b :=
  h.countP_le

theorem cmdSubst_sublist (out : List Char) : (cmdSubst out).Sublist out :=
  (List.rdropWhile_prefix (fun c => decide (c = '\n')) _).sublist.trans List.filter_sublist

theorem shellWords_empty (hf : ∀ w, files w = []) (value : Line) :
    shellWords files [value] = splitWords (blankLines value) := by
  rw [shellWords, List.map_singleton, unquoted_eq_split hf, List.flatMap_singleton]

/-- A field shows nothing that the value does not show. -/
theorem visible_formField (hf : ∀ w, files w = []) (value : Line) :
    visible (formField files value) ≤ visible value := by
  calc visible (formField files value)
      ≤ visible ((fileLines (echo (shellWords files [value]))).flatMap fun l =>
          cutField ' ' 1 l ++ ['\n']) := visible_sublist (cmdSubst_sublist _)
    _ ≤ ((fileLines (echo (shellWords files [value]))).map visible).sum :=
        visible_flatMap_le fun l _ => visible_sublist (cutField_first_start ' ' l).sublist
    _ = visible (echo (shellWords files [value])) := visible_fileLines _
    _ ≤ ((shellWords files [value]).map visible).sum := visible_echo _
    _ = visible value := by
        rw [shellWords_empty hf, visible_splitWords, visible_blankLines]

/-- Without pattern matches every word of a field is one. -/
theorem mem_fieldWords (hf : ∀ w, files w = []) {x : Line}
    (hx : x ∈ shellWords files [formField files value]) : OneWord x := by
  rw [shellWords_empty hf] at hx
  obtain ⟨hword, hin⟩ := mem_splitWords x hx
  refine ⟨hword, fun h => blankLines_newline _ (hin.subset h), fun h => ?_⟩
  obtain ⟨c, hc, he⟩ := List.mem_map.mp (hin.subset h)
  split at he
  · cases he
  · exact formField_nul value (he ▸ hc)

/-- A field whose first word is as long as the value was taken as it is. -/
theorem formField_full (hf : ∀ w, files w = []) {x : Line}
    (hx : x ∈ shellWords files [formField files value]) (hlen : value.length ≤ x.length) :
    OneWord value ∧ isEchoOption value = false ∧ x = value := by
  have hfield := mem_fieldWords hf hx
  rw [shellWords_empty hf] at hx
  have hseen : visible x = x.length := by
    refine visible_eq_length.mpr fun c hc => ?_
    have hn : c ≠ '\n' := fun he => hfield.newline (he ▸ hc)
    have h0 : c ≠ '\x00' := fun he => hfield.nul (he ▸ hc)
    simp [isHidden, isSeparator, hfield.word.2 c hc, hn, h0]
  have hle : visible x ≤ ((splitWords (blankLines (formField files value))).map visible).sum :=
    List.le_sum_of_mem (List.mem_map_of_mem hx)
  rw [visible_splitWords, visible_blankLines] at hle
  have hfull : visible value = value.length :=
    Nat.le_antisymm (visible_le value) ((hlen.trans (hseen ▸ hle)).trans (visible_formField hf value))
  have hhidden := visible_eq_length.mp hfull
  have hne : value ≠ [] := by
    rintro rfl
    simp [formField_nil, blankLines, splitWords] at hx
  have hone : OneWord value := by
    refine ⟨⟨hne, fun c hc => ?_⟩, fun hm => ?_, fun hm => ?_⟩
    · have := hhidden c hc
      simp [isHidden, isSeparator] at this
      exact this.1.1
    · exact absurd (hhidden _ hm) (by decide)
    · exact absurd (hhidden _ hm) (by decide)
  have hexpand : expandWord files value = [value] := by simp [expandWord, hf]
  have hoption : isEchoOption value = false := by
    by_contra ho
    have ho : isEchoOption value = true := by simpa using ho
    rw [formField_option hone hexpand ho] at hx
    simp [blankLines, splitWords] at hx
  refine ⟨hone, hoption, ?_⟩
  rw [formField_single hone hexpand hoption, blankLines_eq hone.newline, hone.word.split] at hx
  exact List.mem_singleton.mp hx

end

end SnakeOs.Config
