import SnakeOs.Lib.Shell

/-! Texts as commands leave them in files and variables. -/

namespace SnakeOs.Lib

/-- A byte as the character that stands for it. -/
def byteChar (b : UInt8) : Char := Char.ofNat b.toNat

def charByte (c : Char) : UInt8 := UInt8.ofNat c.toNat

/-- `$(...)`: NUL bytes and the final newlines are dropped. -/
def cmdSubst (out : List Char) : Line := (out.filter (· ≠ '\x00')).rdropWhile (· = '\n')

/-- What a pipeline over lines leaves in a variable. -/
def capturedLines (lines : List Line) : Line := cmdSubst (lines.flatMap (· ++ ['\n']))

/-- Only a word with one of these characters goes through pathname expansion. -/
def metaChars : List Char := ['*', '?', '[']

def metaOnly (files : Line → List Line) (w : Line) : List Line :=
  if w.any (· ∈ metaChars) then files w else []

/-- A word without special characters is passed on as it is. -/
theorem unquoted_plain (files : Line → List Line) {v : Line} (hne : v ≠ [])
    (h : ∀ c ∈ v, c ∉ [' ', '\t', '*', '?', '[']) : unquoted (metaOnly files) [v] = [v] := by
  have hword : Word v := by
    refine ⟨hne, fun c hc => ?_⟩
    have hb : c ∉ [' ', '\t'] := fun hm => h c hc (by simp only [List.mem_cons] at hm ⊢; tauto)
    simpa [isBlank] using hb
  have hmeta : ∀ c ∈ v, c ∉ metaChars :=
    fun c hc hm => h c hc (by simp only [metaChars, List.mem_cons] at hm ⊢; tauto)
  have hmeta : v.any (· ∈ metaChars) = false := by simpa using hmeta
  rw [unquoted, List.flatMap_singleton, hword.split, List.flatMap_singleton]
  simp [expandWord, metaOnly, hmeta]

/-- The lines as `xmalloc_fgetline` reads them: a NUL byte ends one too. -/
def fileLines (text : List Char) : List Line :=
  textLines [] (text.map fun c => if c = '\x00' then '\n' else c)

/-- `cut -c first-last`; without a last column to the end of the line. -/
def cutChars (first : Nat) (last : Option Nat) (text : List Char) : List Char :=
  (fileLines text).flatMap fun l => ((l.take (last.getD l.length)).drop (first - 1)) ++ ['\n']

theorem byteChar_charByte {c : Char} (h : c.toNat < 256) : byteChar (charByte c) = c := by
  have hc : (UInt8.ofNat c.toNat).toNat = c.toNat := UInt8.toNat_ofNat_of_lt h
  rw [byteChar, charByte, hc]
  exact Char.ofNat_toNat c

theorem byteChar_eq_nul {b : UInt8} : byteChar b = '\x00' ↔ b = 0 := by
  have hall : ∀ n : Fin 256, Char.ofNat n = '\x00' → n = 0 := by decide +kernel
  refine ⟨fun h => ?_, fun h => h ▸ rfl⟩
  have hb := hall ⟨b.toNat, b.toNat_lt⟩ h
  exact UInt8.toNat_inj.mp (congrArg Fin.val hb)

theorem map_byteChar {text : List Char} (h : ∀ c ∈ text, c.toNat < 256) :
    (text.map charByte).map byteChar = text := by
  rw [List.map_map]
  exact (List.map_congr_left fun c hc => byteChar_charByte (h c hc)).trans (List.map_id' text)

/-- The final newlines of a line are dropped. -/
theorem cmdSubst_newlines {line : Line} (h0 : '\x00' ∉ line) (hn : '\n' ∉ line) (k : Nat) :
    cmdSubst (line ++ List.replicate k '\n') = line := by
  have hfilter : (line ++ List.replicate k '\n').filter (· ≠ '\x00') =
      line ++ List.replicate k '\n' := by
    refine List.filter_eq_self.mpr fun c hc => decide_eq_true fun he => ?_
    rcases List.mem_append.mp hc with hc | hc
    · exact h0 (he ▸ hc)
    · rw [List.eq_of_mem_replicate hc] at he
      cases he
  rw [cmdSubst, hfilter]
  induction k with
  | zero =>
    rw [List.replicate_zero, List.append_nil, List.rdropWhile_eq_self_iff]
    intro hne he
    exact hn (of_decide_eq_true he ▸ List.getLast_mem hne)
  | succ k ih =>
    have hk : '\x00' ∉ List.replicate k '\n' := by simp [List.mem_replicate]
    rw [List.replicate_succ', ← List.append_assoc, List.rdropWhile_concat_pos _ _ _ (by simp)]
    refine ih (List.filter_eq_self.mpr fun c hc => decide_eq_true fun he => ?_)
    rcases List.mem_append.mp hc with hc | hc
    · exact h0 (he ▸ hc)
    · exact hk (he ▸ hc)

/-- A line and empty lines behind it. -/
theorem capturedLines_first {w : Line} (h : ∀ c ∈ w, c ≠ '\n' ∧ c ≠ '\x00') (k : Nat) :
    capturedLines (w :: List.replicate k []) = w := by
  have hflat : (w :: List.replicate k []).flatMap (· ++ ['\n']) =
      w ++ List.replicate (k + 1) '\n' := by
    simp [List.flatMap_replicate, List.replicate_succ]
  rw [capturedLines, hflat]
  exact cmdSubst_newlines (fun hm => (h _ hm).2 rfl) (fun hm => (h _ hm).1 rfl) (k + 1)

theorem mem_capturedLines {c : Char} {lines : List Line} (h : c ∈ capturedLines lines) :
    c ≠ '\x00' ∧ (c = '\n' ∨ ∃ l ∈ lines, c ∈ l) := by
  have hm := List.mem_filter.mp ((List.rdropWhile_prefix _ _).subset h)
  obtain ⟨l, hl, hc⟩ := List.mem_flatMap.mp hm.1
  refine ⟨of_decide_eq_true hm.2, ?_⟩
  rcases List.mem_append.mp hc with hc | hc
  · exact .inr ⟨l, hl, hc⟩
  · exact .inl (List.mem_singleton.mp hc)

theorem capturedLines_empty (k : Nat) : capturedLines (List.replicate k []) = [] := by
  cases k with
  | zero => rfl
  | succ k => exact capturedLines_first (by simp) k

/-- What was substituted, with the newlines that were dropped. -/
theorem eq_cmdSubst_append {out : List Char} (h0 : '\x00' ∉ out) :
    ∃ k, out = cmdSubst out ++ List.replicate k '\n' := by
  have hfilter : out.filter (· ≠ '\x00') = out :=
    List.filter_eq_self.mpr fun c hc => decide_eq_true fun he => h0 (he ▸ hc)
  refine ⟨(out.rtakeWhile (· = '\n')).length, ?_⟩
  rw [cmdSubst, hfilter]
  have hall : out.rtakeWhile (· = '\n') =
      List.replicate (out.rtakeWhile (· = '\n')).length '\n' :=
    List.eq_replicate_of_mem fun c hc => by simpa using List.mem_rtakeWhile_imp hc
  rw [← hall, List.rdropWhile_append_rtakeWhile]

theorem fileLines_eq {text : List Char} (h0 : '\x00' ∉ text) :
    fileLines text = textLines [] text := by
  have hmap : text.map (fun c => if c = '\x00' then '\n' else c) = text :=
    (List.map_congr_left fun c hc => if_neg fun he : c = '\x00' => h0 (he ▸ hc)).trans
      (List.map_id' text)
  rw [fileLines, hmap]

theorem textLines_replicate (k : Nat) :
    textLines [] (List.replicate k '\n') = List.replicate k [] := by
  induction k with
  | zero => rfl
  | succ k ih => simp [List.replicate_succ, textLines, ih]

/-- The lines of a text, from its start. -/
theorem textLines_cases (text : List Char) :
    ('\n' ∉ text ∧ textLines [] text = if text = [] then [] else [text]) ∨
      ∃ line rest, text = line ++ '\n' :: rest ∧ '\n' ∉ line ∧
        textLines [] text = line :: textLines [] rest := by
  by_cases h : '\n' ∈ text
  · obtain ⟨line, rest, rfl, hn⟩ := List.eq_append_cons_of_mem h
    exact .inr ⟨line, rest, rfl, hn, textLines_line hn [] rest⟩
  · exact .inl ⟨h, textLines_end h []⟩

theorem textLines_no_newline (text : List Char) : ∀ l ∈ textLines [] text, '\n' ∉ l := by
  rcases textLines_cases text with ⟨hn, hl⟩ | ⟨line, rest, rfl, hn, hl⟩
  · rw [hl]
    split <;> simp [hn]
  · have ih := textLines_no_newline rest
    rw [hl]
    simpa using ⟨hn, ih⟩
  termination_by text.length

/-- Empty lines only. -/
theorem textLines_blank (text : List Char) (h : ∀ l ∈ textLines [] text, l = []) :
    ∃ k, text = List.replicate k '\n' := by
  rcases textLines_cases text with ⟨-, hl⟩ | ⟨line, rest, rfl, -, hl⟩
  · by_cases hne : text = []
    · exact ⟨0, hne⟩
    · rw [hl, if_neg hne] at h
      exact absurd (h text List.mem_cons_self) hne
  · rw [hl] at h
    obtain ⟨k, hk⟩ := textLines_blank rest fun l hm => h l (List.mem_cons_of_mem _ hm)
    refine ⟨k + 1, ?_⟩
    rw [h line List.mem_cons_self, hk]
    rfl
  termination_by text.length

theorem newlines_inj {a b x : List Char} {k : Nat} (ha : '\n' ∉ a) (hb : '\n' ∉ b)
    (h : a ++ '\n' :: x = b ++ List.replicate k '\n') :
    a = b ∧ ∃ j, x = List.replicate j '\n' := by
  cases k with
  | zero =>
    rw [List.replicate_zero, List.append_nil] at h
    exact absurd (h ▸ List.mem_append_right a List.mem_cons_self) hb
  | succ k =>
    obtain rfl := first_field_inj ha hb h
    exact ⟨rfl, k, (List.cons.inj (List.append_cancel_left h)).2⟩

theorem line_unique {a b : Line} {i j : Nat} (ha : '\n' ∉ a) (hb : '\n' ∉ b)
    (h : a ++ List.replicate i '\n' = b ++ List.replicate j '\n') : a = b := by
  cases i with
  | zero =>
    cases j with
    | zero => simpa using h
    | succ j => exact (newlines_inj (k := 0) hb ha h.symm).1.symm
  | succ i => exact (newlines_inj ha hb h).1

theorem textLines_newlines {line : Line} (hn : '\n' ∉ line) (k : Nat) :
    (line = [] ∧ k = 0 ∧ textLines [] (line ++ List.replicate k '\n') = []) ∨
      ∃ j, textLines [] (line ++ List.replicate k '\n') = line :: List.replicate j [] := by
  cases k with
  | zero =>
    rw [List.replicate_zero, List.append_nil, textLines_end hn, List.nil_append]
    by_cases hl : line = []
    · exact .inl ⟨hl, rfl, if_pos hl⟩
    · exact .inr ⟨0, if_neg hl⟩
  | succ k =>
    rw [List.replicate_succ, textLines_line hn, textLines_replicate]
    exact .inr ⟨k, rfl⟩

/-- The columns of a text of one line. -/
theorem cutChars_line {line : Line} (h0 : '\x00' ∉ line) (hn : '\n' ∉ line) (first : Nat)
    (last : Option Nat) (k : Nat) : ∃ j, cutChars first last (line ++ List.replicate k '\n') =
      ((line.take (last.getD line.length)).drop (first - 1)) ++ List.replicate j '\n' := by
  have hfile : '\x00' ∉ line ++ List.replicate k '\n' := by
    simp [h0, List.mem_replicate]
  rw [cutChars, fileLines_eq hfile]
  rcases textLines_newlines hn k with ⟨rfl, -, hl⟩ | ⟨j, hl⟩
  · rw [hl]
    exact ⟨0, by simp⟩
  · refine ⟨j + 1, ?_⟩
    rw [hl, List.flatMap_cons, List.append_assoc, List.replicate_succ, List.singleton_append]
    congr 2
    clear hl
    induction j with
    | zero => rfl
    | succ j ih => simp [List.replicate_succ, ih]

/-- The columns of one line in a variable. -/
theorem cmdSubst_cutChars {line : Line} (h0 : '\x00' ∉ line) (hn : '\n' ∉ line) (first : Nat)
    (last : Option Nat) (k : Nat) :
    cmdSubst (cutChars first last (line ++ List.replicate k '\n')) =
      (line.take (last.getD line.length)).drop (first - 1) := by
  obtain ⟨j, hj⟩ := cutChars_line h0 hn first last k
  have hsub {c : Char} (hc : c ∈ (line.take (last.getD line.length)).drop (first - 1)) :
      c ∈ line := List.mem_of_mem_take (List.mem_of_mem_drop hc)
  rw [hj, cmdSubst_newlines (fun hm => h0 (hsub hm)) fun hm => hn (hsub hm)]

theorem mem_textLines {text : List Char} {l line : Line} {c : Char} (h : l ∈ textLines line text)
    (hc : c ∈ l) : c ∈ line ∨ c ∈ text := by
  induction text generalizing line with
  | nil =>
    rw [textLines] at h
    split at h
    · cases h
    · exact .inl (List.mem_singleton.mp h ▸ hc)
  | cons d text ih =>
    rw [textLines] at h
    split at h
    · rcases List.mem_cons.mp h with rfl | h
      · exact .inl hc
      · rcases ih h with h | h
        · cases h
        · exact .inr (List.mem_cons_of_mem d h)
    · rcases ih h with h | h
      · rcases List.mem_append.mp h with h | h
        · exact .inl h
        · exact .inr (List.mem_singleton.mp h ▸ List.mem_cons_self)
      · exact .inr (List.mem_cons_of_mem d h)

theorem cutChars_no_nul (first : Nat) (last : Option Nat) (text : List Char) :
    '\x00' ∉ cutChars first last text := by
  intro hm
  obtain ⟨l, hl, hc⟩ := List.mem_flatMap.mp hm
  rcases List.mem_append.mp hc with hc | hc
  · rcases mem_textLines hl (List.mem_of_mem_take (List.mem_of_mem_drop hc)) with h | h
    · cases h
    · obtain ⟨d, -, hd⟩ := List.mem_map.mp h
      split at hd
      · cases hd
      · rename_i hne
        exact hne hd
  · cases List.mem_singleton.mp hc

/-- When the first columns of all lines are one line, so is the text. -/
theorem cutChars_first {text : List Char} {head : Line} {n k : Nat} (h0 : '\x00' ∉ text)
    (hn : '\n' ∉ head) (hne : head ≠ []) (hpos : 0 < n)
    (he : cutChars 1 (some n) text = head ++ List.replicate k '\n') :
    ∃ line j, text = line ++ List.replicate j '\n' ∧ '\n' ∉ line ∧ line.take n = head := by
  rw [cutChars, fileLines_eq h0] at he
  simp only [Option.getD_some, Nat.sub_self, List.drop_zero] at he
  rcases textLines_cases text with ⟨hnl, hl⟩ | ⟨line, rest, rfl, hnl, hl⟩
  · refine ⟨text, 0, by simp, hnl, ?_⟩
    by_cases ht : text = []
    · rw [hl, if_pos ht] at he
      simp [hne] at he
    · rw [hl, if_neg ht, List.flatMap_singleton] at he
      exact (newlines_inj (fun hm => hnl (List.mem_of_mem_take hm)) hn he).1
  · rw [hl, List.flatMap_cons, List.append_assoc, List.singleton_append] at he
    obtain ⟨hhead, j, hj⟩ := newlines_inj (fun hm => hnl (List.mem_of_mem_take hm)) hn he
    have hblank : ∀ l ∈ textLines [] rest, l = [] := by
      intro l hm
      cases l with
      | nil => rfl
      | cons c l =>
        -- what the line shows in its first columns are newlines
        exfalso
        have hc : c ∈ (textLines [] rest).flatMap fun l => l.take n ++ ['\n'] := by
          refine List.mem_flatMap.mpr ⟨c :: l, hm, List.mem_append_left _ ?_⟩
          obtain ⟨m, rfl⟩ : ∃ m, n = m + 1 := ⟨n - 1, by omega⟩
          exact List.mem_cons_self
        rw [hj] at hc
        have hcl : '\n' ∉ c :: l := textLines_no_newline rest _ hm
        exact hcl (List.eq_of_mem_replicate hc ▸ List.mem_cons_self)
    obtain ⟨i, hi⟩ := textLines_blank rest hblank
    exact ⟨line, i + 1, by rw [hi]; rfl, hnl, hhead⟩

/-- Lines that are printed one by one and a last one that is not ended. -/
theorem textLines_lines {lines : List Line} (h : ∀ l ∈ lines, '\n' ∉ l) {last : Line}
    (hlast : '\n' ∉ last) : textLines [] (lines.flatMap (· ++ ['\n']) ++ last) =
      lines ++ if last = [] then [] else [last] := by
  induction lines with
  | nil => exact textLines_end hlast []
  | cons l lines ih =>
    have hcons : (l :: lines).flatMap (· ++ ['\n']) ++ last =
        l ++ '\n' :: (lines.flatMap (· ++ ['\n']) ++ last) := by simp
    rw [hcons, textLines_line (h l List.mem_cons_self), ih fun x hx => h x (List.mem_cons_of_mem _ hx)]
    rfl

/-- Lines that are not empty are the lines of what a variable holds of them. -/
theorem textLines_capturedLines {lines : List Line}
    (h : ∀ l ∈ lines, l ≠ [] ∧ '\n' ∉ l ∧ '\x00' ∉ l) :
    textLines [] (capturedLines lines) = lines := by
  rcases List.eq_nil_or_concat lines with rfl | ⟨lines, last, rfl⟩
  · rfl
  · rw [List.concat_eq_append] at h ⊢
    obtain ⟨hne, hn, h0⟩ := h last (by simp)
    have hlines : ∀ l ∈ lines, '\n' ∉ l ∧ '\x00' ∉ l :=
      fun l hl => (h l (List.mem_append_left _ hl)).2
    have hnul : '\x00' ∉ lines.flatMap (· ++ ['\n']) ++ last ++ ['\n'] := by
      simp only [List.mem_append, List.mem_flatMap, List.mem_singleton, not_or, not_exists, not_and]
      exact ⟨⟨fun l hl => ⟨(hlines l hl).2, by decide⟩, h0⟩, by decide⟩
    have hfilter : (lines.flatMap (· ++ ['\n']) ++ last ++ ['\n']).filter (· ≠ '\x00') =
        lines.flatMap (· ++ ['\n']) ++ last ++ ['\n'] :=
      List.filter_eq_self.mpr fun c hc => decide_eq_true fun he => hnul (he ▸ hc)
    have hcaptured : capturedLines (lines ++ [last]) = lines.flatMap (· ++ ['\n']) ++ last := by
      rw [capturedLines, List.flatMap_append, List.flatMap_singleton, ← List.append_assoc, cmdSubst,
        hfilter, List.rdropWhile_concat_pos _ _ _ (by simp), List.rdropWhile_eq_self_iff]
      intro hne' he
      rw [List.getLast_append_of_ne_nil hne' hne] at he
      exact hn (of_decide_eq_true he ▸ List.getLast_mem hne)
    rw [hcaptured, textLines_lines (fun l hl => (hlines l hl).1) hn, if_neg hne]

/-- Words that are printed one a line are the words of what a variable holds of them. -/
theorem words_capturedLines (files : Line → List Line) {ws : List Line}
    (h : ∀ w ∈ ws, w ≠ [] ∧ ∀ c ∈ w, c ∉ [' ', '\t', '*', '?', '[', '\n', '\x00']) :
    unquoted (metaOnly files) (textLines [] (capturedLines ws)) = ws := by
  have hlines : ∀ w ∈ ws, w ≠ [] ∧ '\n' ∉ w ∧ '\x00' ∉ w := fun w hw =>
    ⟨(h w hw).1, fun hm => (h w hw).2 _ hm (by decide), fun hm => (h w hw).2 _ hm (by decide)⟩
  have hplain : ∀ w ∈ ws, unquoted (metaOnly files) [w] = [w] := by
    intro w hw
    have hsub : [' ', '\t', '*', '?', '['] ⊆ [' ', '\t', '*', '?', '[', '\n', '\x00'] := by decide
    exact unquoted_plain files (h w hw).1 fun c hc hm => (h w hw).2 c hc (hsub hm)
  rw [textLines_capturedLines hlines, unquoted]
  simp only [unquoted, List.flatMap_singleton] at hplain
  rw [List.flatMap_congr hplain, List.flatMap_singleton']

end SnakeOs.Lib
