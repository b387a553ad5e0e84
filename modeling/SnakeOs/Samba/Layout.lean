import SnakeOs.Samba.Smbshare

namespace SnakeOs.Samba
open Lib

def isWordChar (c : Char) : Bool := c.isAlphanum || c == '_'

def IsWord (w : Line) : Prop := w ≠ [] ∧ w.all isWordChar = true

instance (w : Line) : Decidable (IsWord w) := inferInstanceAs (Decidable (_ ∧ _))

def isPathChar (c : Char) : Bool := isWordChar c || c == '/'

/-- What a share says beside its name. -/
structure Share where
  path : Line
  write : Line
  user : Option Line
deriving DecidableEq

def IsUser (u : Line) : Prop := IsWord u ∧ 5 ≤ u.length

instance (u : Line) : Decidable (IsUser u) := inferInstanceAs (Decidable (_ ∧ _))

structure Share.Valid (s : Share) : Prop where
  path : s.path.head? = some '/' ∧ s.path.all isPathChar = true
  write : s.write = "yes".toList ∨ s.write = "no".toList
  user : ∀ u ∈ s.user, IsUser u

instance (s : Share) : Decidable s.Valid :=
  decidable_of_iff ((s.path.head? = some '/' ∧ s.path.all isPathChar = true) ∧
    (s.write = "yes".toList ∨ s.write = "no".toList) ∧ ∀ u ∈ s.user, IsUser u)
    ⟨fun h => ⟨h.1, h.2.1, h.2.2⟩, fun h => ⟨h.1, h.2, h.3⟩⟩

/-- The characters that mean something to the shell or in the file. -/
def special : List Char :=
  [' ', '\t', '\n', '\\', '[', ']', '|', '=', '#', '-', '.', '*', '^', '$']

/-- A word without them. -/
def SafeWord (w : Line) : Prop := w ≠ [] ∧ ∀ c ∈ w, c ∉ special

/-- A fixed word is checked by evaluation. -/
theorem safeWord_of_all {w : Line}
    (h : (!w.isEmpty && w.all fun c => !special.contains c) = true) : SafeWord w := by
  rw [Bool.and_eq_true, List.all_eq_true] at h
  refine ⟨fun he => ?_, fun c hc => ?_⟩
  · rw [he] at h
    cases h.1
  · simpa using h.2 c hc

theorem isPathChar_safe {c : Char} (h : isPathChar c = true) : c ∉ special := by
  have hs : (special.all fun d => !isPathChar d) = true := by decide
  intro hc
  have := List.all_eq_true.mp hs c hc
  rw [h] at this
  cases this

theorem IsWord.safe {w : Line} (h : IsWord w) : SafeWord w := by
  refine ⟨h.1, fun c hc => isPathChar_safe ?_⟩
  simp [isPathChar, List.all_eq_true.mp h.2 c hc]

theorem SafeWord.not_mem {w : Line} (h : SafeWord w) {c : Char} (hc : c ∈ special) : c ∉ w :=
  fun hw => h.2 c hw hc

theorem SafeWord.plain {w : Line} (h : SafeWord w) : ∀ c ∈ w, Plain c := by
  have hs : ['.', '*', '[', '^', '$', '\\'] ⊆ special := by decide
  exact fun c hc hp => h.2 c hc (hs hp)

/-- The characters that the script misreads in the file. -/
def misread : List Char := [' ', '\t', '\n', '\\', '[', ']', '|', '=']

/-- A word that the script reads as it was written. -/
def SoundWord (w : Line) : Prop := w ≠ [] ∧ ∀ c ∈ w, c ∉ misread

instance (w : Line) : Decidable (SoundWord w) := inferInstanceAs (Decidable (_ ∧ _))

theorem SafeWord.sound {w : Line} (h : SafeWord w) : SoundWord w := by
  have hs : misread ⊆ special := by decide
  exact ⟨h.1, fun c hc hm => h.2 c hc (hs hm)⟩

theorem SoundWord.not_mem {w : Line} (h : SoundWord w) {c : Char} (hc : c ∈ misread) : c ∉ w :=
  fun hw => h.2 c hw hc

theorem SoundWord.tidyChar {w : Line} (h : SoundWord w) : ∀ c ∈ w, TidyChar c := by
  have hs : ∀ d : Char, ¬ TidyChar d → d ∈ misread := by
    intro d hd
    simp only [TidyChar, isBlank, Bool.or_eq_false_iff, beq_eq_false_iff_ne] at hd
    simp only [misread, List.mem_cons]
    tauto
  exact fun c hc => by_contra fun hn => h.2 c hc (hs c hn)

theorem SafeWord.tidyChar {w : Line} (h : SafeWord w) : ∀ c ∈ w, TidyChar c := h.sound.tidyChar

theorem SoundWord.word {w : Line} (h : SoundWord w) : Word w :=
  ⟨h.1, fun c hc => (h.tidyChar c hc).1⟩

/-- The values of a share's lines after its header. -/
def fields (name : Line) (s : Share) : List Line := [name, s.path, s.write] ++ s.user.toList

theorem fields_safe {name : Line} {s : Share} (hn : IsWord name) (hs : s.Valid) :
    ∀ v ∈ fields name s, SafeWord v := by
  intro v hv
  simp only [fields, List.cons_append, List.nil_append, List.mem_cons, Option.mem_toList] at hv
  rcases hv with rfl | rfl | rfl | hu
  · exact hn.safe
  · refine ⟨fun he => ?_, fun c hc => isPathChar_safe (List.all_eq_true.mp hs.path.2 c hc)⟩
    have := hs.path.1
    rw [he] at this
    cases this
  · rcases hs.write with hw | hw
    · exact hw ▸ safeWord_of_all (by decide)
    · exact hw ▸ safeWord_of_all (by decide)
  · exact (hs.user v hu).1.safe

/-- What `-list` prints for a share. -/
def record (name : Line) (s : Share) : Line :=
  (bracket name :: fields name s).flatMap (· ++ ['|'])

/-- A line of a section, without surrounding blanks. -/
def setting (key : List Line) (value : Line) : Line := [' '].intercalate (key ++ ["=".toList, value])

/-- The lines of a share without surrounding blanks. -/
def sectionLines (name : Line) (s : Share) : List Line :=
  bracket name :: setting ["comment".toList] name :: setting ["path".toList] s.path ::
    setting ["writeable".toList] s.write ::
    (s.user.map (setting ["valid".toList, "users".toList])).toList

/-- A share in the file and the number of empty lines after it. -/
structure Entry where
  name : Line
  share : Share
  blanks : Nat

def Entry.lines (e : Entry) : List Line :=
  sectionLines e.name e.share ++ List.replicate e.blanks []

/-- The shares of a list of entries. -/
def content (es : List Entry) : List (Line × Share) := es.map fun e => (e.name, e.share)

def ValidShare (p : Line × Share) : Prop := IsWord p.1 ∧ p.1 ≠ "global".toList ∧ p.2.Valid

/-- A share whose values are read as they were written. -/
def SoundShare (p : Line × Share) : Prop := p.1 ≠ "global".toList ∧ ∀ v ∈ fields p.1 p.2, SoundWord v

instance (p : Line × Share) : Decidable (SoundShare p) := inferInstanceAs (Decidable (_ ∧ _))

theorem ValidShare.sound {p : Line × Share} (h : ValidShare p) : SoundShare p :=
  ⟨h.2.1, fun v hv => (fields_safe h.1 h.2.2 v hv).sound⟩

theorem SoundShare.name {p : Line × Share} (h : SoundShare p) : SoundWord p.1 :=
  h.2 p.1 (by simp [fields])

def header : List Line := shipped.map trim

/-- The file without surrounding blanks: header, `k` empty lines, the shares. -/
def laidOut (k : Nat) (es : List Entry) : List Line :=
  header ++ List.replicate k [] ++ es.flatMap Entry.lines

/-- The file holds shares that are read as they were written, with an empty line between any two. -/
structure Holds (conf : List Line) (es : List Entry) : Prop where
  lines : ∃ k, conf.map trim = laidOut k es
  backslash : ∀ l ∈ conf, '\\' ∉ l
  sound : ∀ p ∈ content es, SoundShare p
  apart : ∀ e ∈ es.dropLast, 0 < e.blanks
  names : ((content es).map Prod.fst).Nodup

/-- The file holds the shares `es`, with an empty line between any two. -/
structure Layout (conf : List Line) (es : List Entry) : Prop where
  lines : ∃ k, conf.map trim = laidOut k es
  backslash : ∀ l ∈ conf, '\\' ∉ l
  valid : ∀ p ∈ content es, ValidShare p
  apart : ∀ e ∈ es.dropLast, 0 < e.blanks
  names : ((content es).map Prod.fst).Nodup

theorem Layout.holds {conf : List Line} {es : List Entry} (h : Layout conf es) : Holds conf es :=
  ⟨h.lines, h.backslash, fun p hp => (h.valid p hp).sound, h.apart, h.names⟩

theorem Holds.layout {conf : List Line} {es : List Entry} (h : Holds conf es)
    (hv : ∀ p ∈ content es, ValidShare p) : Layout conf es :=
  ⟨h.lines, h.backslash, hv, h.apart, h.names⟩

theorem setting_eq {key : List Line} (hk : key ≠ []) (value : Line) :
    setting key value = [' '].intercalate key ++ ' ' :: '=' :: ' ' :: value := by
  induction key with
  | nil => exact absurd rfl hk
  | cons w key ih =>
    cases key with
    | nil => simp [setting, List.intercalate_cons_cons]
    | cons v key =>
      have h := ih (List.cons_ne_nil _ _)
      rw [setting, List.cons_append] at h
      rw [setting, List.cons_append, List.cons_append, List.intercalate_cons_cons, h,
        List.intercalate_cons_cons, List.append_assoc, List.append_assoc, List.append_assoc]

/-- A setting starts like its key. -/
theorem setting_head {key : List Line} (hk : key ≠ []) (hw : ∀ w ∈ key, SafeWord w)
    (value : Line) {c : Char} (hc : c ∈ special) : (setting key value).head? ≠ some c := by
  rw [setting_eq hk]
  cases key with
  | nil => exact absurd rfl hk
  | cons w key =>
    obtain ⟨hne, hs⟩ := hw w List.mem_cons_self
    cases w with
    | nil => exact absurd rfl hne
    | cons d w =>
      intro h
      have hd : d = c := by
        cases key with
        | nil => simpa using h
        | cons v key => simpa [List.intercalate_cons_cons] using h
      exact hs d List.mem_cons_self (hd ▸ hc)

theorem setting_tidy {key : List Line} (hk : key ≠ []) (hw : ∀ w ∈ key, SafeWord w)
    {value : Line} (hv : SoundWord value) : Tidy (setting key value) := by
  refine tidy_words (fun w h => ?_) (setting_head hk hw value (by decide))
  rcases List.mem_append.mp h with h | h
  · exact ⟨(hw w h).1, (hw w h).tidyChar⟩
  · simp only [List.mem_cons, List.not_mem_nil, or_false] at h
    rcases h with rfl | rfl
    · simp [TidyChar, isBlank]
    · exact ⟨hv.1, hv.tidyChar⟩

theorem bracket_tidy {name : Line} (hn : SoundWord name) : Tidy (bracket name) := by
  have h : Tidy ([' '].intercalate [bracket name]) := by
    refine tidy_words (fun w h => ?_) (by simp [bracket])
    obtain rfl := List.mem_singleton.mp h
    refine ⟨List.cons_ne_nil _ _, fun c hc => ?_⟩
    simp only [bracket, List.mem_cons, List.mem_append, List.not_mem_nil, or_false] at hc
    rcases hc with rfl | hc | rfl
    · simp only [TidyChar]
      decide
    · exact hn.tidyChar c hc
    · simp only [TidyChar]
      decide
  rwa [List.intercalate_singleton] at h

theorem keys_safe : ∀ key ∈ [["comment".toList], ["path".toList], ["writeable".toList],
    ["valid".toList, "users".toList]], key ≠ [] ∧ ∀ w ∈ key, SafeWord w := by
  have hs : ∀ w ∈ ["comment".toList, "path".toList, "writeable".toList, "valid".toList,
      "users".toList], (!w.isEmpty && w.all fun c => !special.contains c) = true := by decide
  intro key hk
  simp only [List.mem_cons, List.not_mem_nil, or_false] at hk
  rcases hk with rfl | rfl | rfl | rfl <;>
    exact ⟨List.cons_ne_nil _ _, fun w hw => safeWord_of_all (hs w (by simp_all))⟩

/-- The lines of a share after its header are settings. -/
theorem mem_settings {name : Line} {s : Share} (hs : SoundShare (name, s)) {l : Line}
    (h : l ∈ (sectionLines name s).tail) :
    ∃ key v, l = setting key v ∧ key ≠ [] ∧ (∀ w ∈ key, SafeWord w) ∧ SoundWord v := by
  have hf := hs.2
  simp only [fields, List.cons_append, List.nil_append, List.mem_cons, Option.mem_toList,
    forall_eq_or_imp] at hf
  simp only [sectionLines, List.tail_cons, List.mem_cons, Option.mem_toList,
    Option.map_eq_some_iff] at h
  rcases h with rfl | rfl | rfl | ⟨u, hu, rfl⟩
  · exact ⟨_, _, rfl, (keys_safe _ (by simp)).1, (keys_safe _ (by simp)).2, hf.1⟩
  · exact ⟨_, _, rfl, (keys_safe _ (by simp)).1, (keys_safe _ (by simp)).2, hf.2.1⟩
  · exact ⟨_, _, rfl, (keys_safe _ (by simp)).1, (keys_safe _ (by simp)).2, hf.2.2.1⟩
  · exact ⟨_, _, rfl, (keys_safe _ (by simp)).1, (keys_safe _ (by simp)).2, hf.2.2.2 u hu⟩

theorem sectionLines_tidy {name : Line} {s : Share} (hs : SoundShare (name, s)) :
    ∀ l ∈ sectionLines name s, Tidy l := by
  intro l hl
  rcases List.mem_cons.mp hl with rfl | hl
  · exact bracket_tidy hs.name
  · obtain ⟨key, v, rfl, hk, hw, hv⟩ := mem_settings hs hl
    exact setting_tidy hk hw hv

/-- The header is read in one evaluation. -/
theorem header_facts : (∀ l ∈ header, ([' '].intercalate (splitWords l) = l ∧ trim l = l) ∧
      (l.head? ≠ some '-' ∧ '\n' ∉ l ∧ '\\' ∉ l) ∧ l ≠ []) ∧
    header.getD 1 [] = bracket "global".toList ∧
    ∀ l ∈ header.take 1 ++ header.drop 2, l.head? ≠ some '[' := by
  decide +kernel

theorem header_lines : ∀ l ∈ header, Tidy l ∧ l ≠ [] := by
  intro l hl
  obtain ⟨⟨hw, ht⟩, ⟨hs, hn, hb⟩, hne⟩ := header_facts.1 l hl
  exact ⟨⟨hw, ht, hs, hn, hb⟩, hne⟩

theorem header_tidy : ∀ l ∈ header, Tidy l := fun l hl => (header_lines l hl).1

/-- The header has one section. -/
theorem header_split : header = header.take 1 ++ bracket "global".toList :: header.drop 2 := by
  rw [← header_facts.2.1]
  rfl

theorem header_other : ∀ l ∈ header.take 1 ++ header.drop 2, l.head? ≠ some '[' := header_facts.2.2

theorem shipped_layout : Layout shipped [] where
  lines := ⟨0, by simp [laidOut, header]⟩
  backslash := fun l hl hb =>
    (header_tidy _ (List.mem_map_of_mem hl)).backslash (mem_trim hb rfl)
  valid := by simp [content]
  apart := by simp
  names := by simp [content]

theorem laidOut_split (k : Nat) (es : List Entry) : laidOut k es = header.take 1 ++
    bracket "global".toList :: ((header.drop 2 ++ List.replicate k []) ++
      es.flatMap Entry.lines) := by
  rw [laidOut]
  conv_lhs => rw [header_split]
  simp only [List.append_assoc, List.cons_append]

theorem mem_content {e : Entry} {es : List Entry} (h : e ∈ es) :
    (e.name, e.share) ∈ content es := List.mem_map_of_mem h

theorem laidOut_tidy {k : Nat} {es : List Entry} (h : ∀ p ∈ content es, SoundShare p) :
    ∀ l ∈ laidOut k es, Tidy l := by
  intro l hl
  simp only [laidOut, List.mem_append, List.mem_replicate, List.mem_flatMap, Entry.lines] at hl
  rcases hl with (hl | ⟨-, rfl⟩) | ⟨e, he, hl | ⟨-, rfl⟩⟩
  · exact header_tidy l hl
  · exact Tidy.nil
  · exact sectionLines_tidy (h _ (mem_content he)) l hl
  · exact Tidy.nil

theorem captured_echo {line : Line} (h : Tidy line) : captured (echo [line]) = line := by
  rw [echo_words h.start, List.intercalate_singleton, captured,
    List.takeWhile_append_of_pos fun c hc => by
      simpa using fun he : c = '\n' => h.newline (he ▸ hc)]
  simp

end SnakeOs.Samba
