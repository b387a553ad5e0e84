import Mathlib.Algebra.Order.BigOperators.Group.List
import Mathlib.Algebra.GroupWithZero.Nat
import Mathlib.Algebra.Order.Group.Nat
import SnakeOs.Lib.Reread

/-! What `echo` prints of any words. -/

namespace SnakeOs.Lib

/-- `echo` takes the options from the front. -/
theorem echoFrom_options (ws : List Line) (newline escapes : Bool) : ∃ opts rest, ws = opts ++ rest ∧
    (∀ o ∈ opts, isEchoOption o = true) ∧ (∀ w ∈ rest.head?, isEchoOption w = false) ∧
    echoFrom newline escapes ws =
      echoText (newline && !opts.any ('n' ∈ ·)) (escapes || opts.any ('e' ∈ ·)) rest := by
  induction ws generalizing newline escapes with
  | nil => exact ⟨[], [], rfl, by simp, by simp, by simp [echoFrom]⟩
  | cons w ws ih =>
    by_cases hw : isEchoOption w = true
    · obtain ⟨opts, rest, hws, hopts, hrest, he⟩ := ih (newline && 'n' ∉ w) (escapes || 'e' ∈ w)
      refine ⟨w :: opts, rest, by simp [hws], by simpa using ⟨hw, hopts⟩, hrest, ?_⟩
      rw [echoFrom, if_pos hw, he]
      simp [Bool.or_assoc, Bool.and_assoc]
    · refine ⟨[], w :: ws, rfl, by simp, by simpa using hw, ?_⟩
      rw [echoFrom, if_neg hw]
      simp

/-- The first word of a text, with what stands around it. -/
theorem splitWords_first {v w : Line} {ws : List Line} (h : splitWords v = w :: ws) :
    ∃ a b, v = a ++ w ++ b ∧ (∀ c ∈ a, isBlank c = true) ∧ (∀ c ∈ b.head?, isBlank c = true) ∧
      splitWords b = ws := by
  induction v with
  | nil => simp [splitWords] at h
  | cons c cs ih =>
    cases hc : isBlank c with
    | true =>
      rw [splitWords_blank hc] at h
      obtain ⟨a, b, hcs, ha, hb, hs⟩ := ih h
      exact ⟨c :: a, b, by rw [hcs]; rfl, by simpa using ⟨hc, ha⟩, hb, hs⟩
    | false =>
      obtain ⟨x, -, ⟨rfl, hs⟩ | ⟨b, rest, hb, rfl, hs⟩⟩ := splitWords_cons hc cs
      · rw [hs] at h
        obtain ⟨rfl, rfl⟩ := List.cons.inj h
        exact ⟨[], [], by simp, by simp, by simp, by simp [splitWords]⟩
      · rw [hs] at h
        obtain ⟨rfl, rfl⟩ := List.cons.inj h
        exact ⟨[], b :: rest, by simp, by simp, by simpa using hb, splitWords_blank hb rest⟩

/-- A word of a text, with what stands around it. -/
theorem splitWords_around {ws : List Line} : ∀ {v w : Line} {as : List Line},
    splitWords v = as ++ w :: ws → ∃ a b, v = a ++ w ++ b ∧
      (∀ c ∈ a, isBlank c = true ∨ ∃ x ∈ as, c ∈ x) ∧ (∀ c ∈ b.head?, isBlank c = true) ∧
      (as ≠ [] → ∃ c ∈ a.getLast?, isBlank c = true) := by
  intro v w as
  induction as generalizing v with
  | nil =>
    intro h
    obtain ⟨a, b, hv, ha, hb, -⟩ := splitWords_first h
    exact ⟨a, b, hv, fun c hc => .inl (ha c hc), hb, fun hne => absurd rfl hne⟩
  | cons x as ih =>
    intro h
    obtain ⟨a, b, rfl, ha, hb, hs⟩ := splitWords_first h
    obtain ⟨a', b', rfl, ha', hb', hlast⟩ := ih hs
    have hx : Word x := (mem_splitWords x (by rw [h]; simp)).1
    have hw : Word w := (mem_splitWords w (by rw [h]; simp)).1
    -- a blank ends the first word
    have hne : a' ≠ [] := by
      rintro rfl
      cases w with
      | nil => exact hw.1 rfl
      | cons d w =>
        have hd := hw.2 d List.mem_cons_self
        rw [hb d (by simp)] at hd
        cases hd
    refine ⟨a ++ x ++ a', b', by simp, fun c hc => ?_, hb', fun _ => ?_⟩
    · rcases List.mem_append.mp hc with hc | hc
      · rcases List.mem_append.mp hc with hc | hc
        · exact .inl (ha c hc)
        · exact .inr ⟨x, List.mem_cons_self, hc⟩
      · exact (ha' c hc).imp_right fun ⟨y, hy, hcy⟩ => ⟨y, List.mem_cons_of_mem x hy, hcy⟩
    · rw [List.getLast?_append_of_ne_nil _ hne]
      by_cases hnil : as = []
      · subst hnil
        obtain ⟨c, hc⟩ := Option.ne_none_iff_exists'.mp (mt List.getLast?_eq_none_iff.mp hne)
        refine ⟨c, hc, ?_⟩
        rcases ha' c (List.mem_of_getLast? hc) with h | ⟨y, hy, -⟩
        · exact h
        · cases hy
      · exact hlast hnil

theorem escapeNumber_le (base k n : Nat) (hb : base ≤ 16) (text rest : Line) :
    (escapeNumber base k n (text ++ '=' :: rest)).2 ≤ text.length := by
  induction text generalizing k n with
  | nil =>
    have heq : escapeDigit '=' = 16 := by decide
    cases k with
    | zero => exact Nat.zero_le _
    | succ k => simp [escapeNumber, heq, Nat.not_lt.mpr hb]
  | cons c text ih =>
    cases k with
    | zero => exact Nat.zero_le _
    | succ k =>
      rw [List.cons_append, escapeNumber]
      split
      · exact Nat.succ_le_succ (ih k _)
      · exact Nat.zero_le _

theorem processEscapeSequence_length (text : Line) :
    (processEscapeSequence text).2 = 0 ∨
      (processEscapeSequence text).2 = (escapeNumber 16 2 0 text.tail).2 + 1 ∧ text.head? = some 'x' ∨
      (processEscapeSequence text).2 = (escapeNumber 8 3 0 text).2 ∨
      (processEscapeSequence text).2 = 1 ∧ (text.head?.bind escapeLetter).isSome := by
  unfold processEscapeSequence
  dsimp only
  split
  · split
    · exact .inl rfl
    · exact .inr (.inl ⟨rfl, ‹_›⟩)
  · split
    · exact .inr (.inr (.inl rfl))
    · split
      · rename_i h
        exact .inr (.inr (.inr ⟨rfl, by rw [h]; rfl⟩))
      · exact .inl rfl

/-- No escape sequence goes past an `=`. -/
theorem processEscapeSequence_le (text rest : Line) :
    (processEscapeSequence (text ++ '=' :: rest)).2 ≤ text.length := by
  rcases processEscapeSequence_length (text ++ '=' :: rest) with h | ⟨h, hx⟩ | h | ⟨h, hl⟩ <;> rw [h]
  · exact Nat.zero_le _
  · cases text with
    | nil => cases hx
    | cons c text => exact Nat.succ_le_succ (escapeNumber_le 16 2 0 (by decide) text rest)
  · exact escapeNumber_le 8 3 0 (by decide) text rest
  · cases text with
    | nil => cases hl
    | cons c text => exact Nat.succ_le_succ (Nat.zero_le _)

theorem leadingZero_le (text rest : Line) :
    (if leadingZero (text ++ '=' :: rest) then 1 else 0) ≤ text.length := by
  cases text with
  | nil => simp [leadingZero]
  | cons c text => split <;> simp

theorem echoEscapes_length (n : Nat) (text : Line) :
    (echoEscapes n text).1.length ≤ text.length := by
  fun_induction echoEscapes n text with
  | case1 => exact Nat.le_refl 0
  | case2 n c cs ih => exact Nat.le_succ_of_le ih
  | case3 => exact Nat.zero_le _
  | case4 cs _ skipped e ih => exact Nat.succ_le_succ ih
  | case5 c cs _ ih => exact Nat.succ_le_succ ih

theorem echoEscapes_skip {n : Nat} {x : Line} (h : n ≤ x.length) (rest : Line) :
    echoEscapes n (x ++ rest) = echoEscapes 0 (x.drop n ++ rest) := by
  induction x generalizing n with
  | nil =>
    obtain rfl := Nat.le_zero.mp h
    rfl
  | cons c x ih =>
    cases n with
    | zero => rfl
    | succ n => exact ih (Nat.le_of_succ_le_succ h)

theorem echoEscapes_plain {x : Line} (h : '\\' ∉ x) (rest : Line) :
    (echoEscapes 0 (x ++ rest)).1 = x ++ (echoEscapes 0 rest).1 := by
  induction x with
  | nil => rfl
  | cons c x ih =>
    obtain ⟨hc, hx⟩ := not_or.mp (List.mem_cons.not.mp h)
    rw [List.cons_append, echoEscapes, if_neg (Ne.symm hc), ih hx]
    rfl

/-- An `=` is printed, with what no escape has taken in front of it, if the output gets there. -/
theorem echoEscapes_parts {b : Line} (hb : '\\' ∉ b) (more a : Line) : ∀ {n : Nat},
    n ≤ a.length + b.length →
      (∃ o x tail, (echoEscapes n (a ++ (b ++ '=' :: more))).1 = o ++ (x ++ '=' :: tail) ∧
        o.length ≤ a.length ∧ x <:+ b) ∨
      (echoEscapes n (a ++ (b ++ '=' :: more))).1.length ≤ a.length := by
  induction a with
  | nil =>
    intro n hn
    have hdrop : '\\' ∉ b.drop n := fun hm => hb (List.mem_of_mem_drop hm)
    refine .inl ⟨[], b.drop n, (echoEscapes 0 more).1, ?_, Nat.le_refl 0, List.drop_suffix n b⟩
    rw [List.nil_append, echoEscapes_skip (by simpa using hn), echoEscapes_plain hdrop]
    rfl
  | cons c a ih =>
    intro n hn
    have hnext {m : Nat} (hm : m ≤ a.length + b.length) (e : Line) (he : e.length ≤ 1) :
        (∃ o x tail, e ++ (echoEscapes m (a ++ (b ++ '=' :: more))).1 = o ++ (x ++ '=' :: tail) ∧
          o.length ≤ (c :: a).length ∧ x <:+ b) ∨
        (e ++ (echoEscapes m (a ++ (b ++ '=' :: more))).1).length ≤ (c :: a).length := by
      rcases ih hm with ⟨o, x, tail, hout, ho, hx⟩ | hle
      · refine .inl ⟨e ++ o, x, tail, by rw [hout, List.append_assoc], ?_, hx⟩
        simp only [List.length_append, List.length_cons]
        omega
      · refine .inr ?_
        simp only [List.length_append, List.length_cons]
        omega
    cases n with
    | succ n =>
      exact hnext (by simp only [List.length_cons] at hn; omega) [] (Nat.zero_le 1)
    | zero =>
      rw [List.cons_append, echoEscapes]
      by_cases hc : c = '\\'
      · rw [if_pos hc]
        by_cases hstop : (a ++ (b ++ '=' :: more)).head? = some 'c'
        · rw [if_pos hstop]
          exact .inr (Nat.zero_le _)
        · rw [if_neg hstop]
          -- the sequence ends in front of the `=`
          have hskip := leadingZero_le (a ++ b) more
          have hseq : (processEscapeSequence ((a ++ (b ++ '=' :: more)).drop
              (if leadingZero (a ++ (b ++ '=' :: more)) then 1 else 0))).2 +
              (if leadingZero (a ++ (b ++ '=' :: more)) then 1 else 0) ≤ a.length + b.length := by
            rw [List.append_assoc, List.length_append] at hskip
            have hdrop := processEscapeSequence_le
              ((a ++ b).drop (if leadingZero (a ++ (b ++ '=' :: more)) then 1 else 0)) more
            rw [← List.drop_append_of_le_length (by rw [List.length_append]; exact hskip),
              List.append_assoc, List.length_drop, List.length_append] at hdrop
            omega
          exact hnext (by rw [Nat.add_comm]; exact hseq) [_] (Nat.le_refl 1)
      · rw [if_neg hc]
        exact hnext (Nat.zero_le _) [c] (Nat.le_refl 1)

theorem echoEscapes_none {x : Line} (h : '\\' ∉ x) : echoEscapes 0 x = (x, false) := by
  induction x with
  | nil => rfl
  | cons c x ih =>
    obtain ⟨hc, hx⟩ := not_or.mp (List.mem_cons.not.mp h)
    rw [echoEscapes, if_neg (Ne.symm hc), ih hx]

theorem echoEscapedWords_none {ws : List Line} (h : ∀ w ∈ ws, '\\' ∉ w) :
    echoEscapedWords ws = ([' '].intercalate ws, false) := by
  induction ws with
  | nil => rfl
  | cons w ws ih =>
    have hw := echoEscapes_none (h w List.mem_cons_self)
    cases ws with
    | nil => rw [echoEscapedWords, hw, List.intercalate_singleton]
    | cons x ws =>
      rw [echoEscapedWords.eq_3 w (x :: ws) (List.cons_ne_nil x ws), hw,
        ih fun y hy => h y (List.mem_cons_of_mem w hy), if_neg Bool.false_ne_true,
        List.intercalate_cons_cons]
      simp

/-- The words behind the options are printed with single blanks. -/
theorem echo_rest {ws : List Line} (h : (∃ w ∈ ws.head?, isEchoOption w = true) → ∀ w ∈ ws, '\\' ∉ w) :
    ∃ opts rest newline, ws = opts ++ rest ∧ (∀ w ∈ rest.head?, isEchoOption w = false) ∧
      (∀ o ∈ opts, isEchoOption o = true) ∧ (opts = [] → newline = true) ∧
      echo ws = [' '].intercalate rest ++ if newline then ['\n'] else [] := by
  obtain ⟨opts, rest, rfl, hopts, hrest, hecho⟩ := echoFrom_options ws true false
  refine ⟨opts, rest, !opts.any ('n' ∈ ·), rfl, hrest, hopts, fun he => by simp [he], ?_⟩
  rw [echo, hecho, echoText]
  cases he : opts.any ('e' ∈ ·) with
  | false => simp
  | true =>
    have hplain : ∀ w ∈ rest, '\\' ∉ w := by
      refine fun w hw => h ?_ w (List.mem_append_right _ hw)
      cases opts with
      | nil => cases he
      | cons o opts => exact ⟨o, rfl, hopts o List.mem_cons_self⟩
    rw [Bool.false_or, if_pos rfl, echoEscapedWords_none hplain]
    simp

/-- Blanks and newlines. -/
def isSeparator (c : Char) : Bool := isBlank c || c == '\n'

/-- The words of a text. -/
def textWords (text : List Char) : List Line := (textLines [] text).flatMap splitWords

section
variable {a b : Line}

theorem not_separator (h : ∀ c ∈ a, isSeparator c = false) :
    (∀ c ∈ a, isBlank c = false) ∧ '\n' ∉ a := by
  simp only [isSeparator, Bool.or_eq_false_iff] at h
  exact ⟨fun c hc => (h c hc).1, fun hm => absurd (h _ hm).2 (by decide)⟩

theorem textWords_single (hne : a ≠ []) (h : ∀ c ∈ a, isSeparator c = false) : textWords a = [a] := by
  obtain ⟨hb, hn⟩ := not_separator h
  have hword : Word a := ⟨hne, hb⟩
  rw [textWords, textLines_end hn, List.nil_append, if_neg hne, List.flatMap_singleton, hword.split]

theorem textLines_skip (hn : '\n' ∉ a) (line : Line) (text : List Char) :
    textLines line (a ++ text) = textLines (line ++ a) text := by
  induction a generalizing line with
  | nil => simp
  | cons c a ih =>
    obtain ⟨hc, ha⟩ := not_or.mp (List.mem_cons.not.mp hn)
    rw [List.cons_append, textLines, if_neg (Ne.symm hc), ih ha, List.append_assoc]
    rfl

theorem textLines_cons {text : List Char} (hne : text ≠ []) :
    ∃ v vs, ∀ line, textLines line text = (line ++ v) :: vs := by
  rcases textLines_cases text with ⟨hn, -⟩ | ⟨v, rest, rfl, hn, -⟩
  · exact ⟨text, [], fun line => by rw [textLines_end hn, if_neg (by simp [hne])]⟩
  · exact ⟨v, textLines [] rest, fun line => textLines_line hn line rest⟩

/-- A blank or a newline ends the word before it. -/
theorem textWords_separator {c : Char} (hc : isSeparator c = true) (h : ∀ c ∈ a, isSeparator c = false)
    {text : List Char} (hne : text ≠ []) :
    textWords (a ++ c :: text) = splitWords a ++ textWords text := by
  obtain ⟨-, hn⟩ := not_separator h
  rw [isSeparator, Bool.or_eq_true, beq_iff_eq] at hc
  rcases hc with hc | rfl
  · obtain ⟨v, vs, hv⟩ := textLines_cons hne
    have hline : textLines [] (a ++ c :: text) = (a ++ c :: v) :: vs := by
      have hnc : '\n' ∉ a ++ [c] := by
        simp only [List.mem_append, List.mem_singleton, not_or]
        exact ⟨hn, fun he => by simp [← he, isBlank] at hc⟩
      rw [List.append_cons, textLines_skip hnc, hv]
      simp
    rw [textWords, hline, List.flatMap_cons, splitWords_append hc, textWords, hv, List.append_assoc]
    rfl
  · rw [textWords, textLines_line hn, List.nil_append, List.flatMap_cons]
    rfl

/-- Whatever stands between two words, the first starts and the last ends the words of the text. -/
theorem textWords_around (ha : ∀ c ∈ a, isSeparator c = false) (hne : b ≠ [])
    (hb : ∀ c ∈ b, isSeparator c = false) (mid : List Char) :
    ∃ u ws mid', textWords (a ++ mid ++ b) = (a ++ u) :: ws ∧
      [' '].intercalate (textWords (a ++ mid ++ b)) = a ++ mid' ++ b ∧
      ∀ c ∈ mid', c = ' ' ∨ c ∈ mid ∧ isSeparator c = false := by
  induction mid generalizing a with
  | nil =>
    have hone : textWords (a ++ [] ++ b) = [a ++ b] := by
      rw [List.append_nil]
      refine textWords_single (by simp [hne]) fun c hc => ?_
      exact (List.mem_append.mp hc).elim (ha c) (hb c)
    exact ⟨b, [], [], hone, by rw [hone, List.intercalate_singleton, List.append_nil], by simp⟩
  | cons c mid ih =>
    cases hc : isSeparator c with
    | false =>
      have hac : ∀ d ∈ a ++ [c], isSeparator d = false := by
        intro d hd
        rcases List.mem_append.mp hd with hd | hd
        · exact ha d hd
        · exact List.mem_singleton.mp hd ▸ hc
      obtain ⟨u, ws, mid', hwords, hjoin, hchars⟩ := ih hac
      have htext : a ++ c :: mid ++ b = a ++ [c] ++ mid ++ b := by simp
      refine ⟨c :: u, ws, c :: mid', ?_, ?_, fun d hd => ?_⟩
      · rw [htext, hwords]
        simp
      · rw [htext, hjoin]
        simp
      · rcases List.mem_cons.mp hd with rfl | hd
        · exact .inr ⟨List.mem_cons_self, hc⟩
        · exact (hchars d hd).imp_right fun h => ⟨List.mem_cons_of_mem c h.1, h.2⟩
    | true =>
      obtain ⟨u, ws, mid', hwords, hjoin, hchars⟩ := ih (a := []) nofun
      have htext : a ++ c :: mid ++ b = a ++ c :: ([] ++ mid ++ b) := by simp
      have hrest : [] ++ mid ++ b ≠ [] := by simp [hne]
      have hchars' : ∀ d ∈ mid', d = ' ' ∨ d ∈ c :: mid ∧ isSeparator d = false := fun d hd =>
        (hchars d hd).imp_right fun h => ⟨List.mem_cons_of_mem c h.1, h.2⟩
      rw [htext, textWords_separator hc ha hrest]
      by_cases hnil : a = []
      · subst hnil
        exact ⟨u, ws, mid', by simpa [splitWords] using hwords, by simpa [splitWords] using hjoin, hchars'⟩
      · have hword : Word a := ⟨hnil, (not_separator ha).1⟩
        refine ⟨[], textWords ([] ++ mid ++ b), ' ' :: mid', ?_, ?_, fun d hd => ?_⟩
        · rw [hword.split, List.append_nil]
          rfl
        · rw [hword.split, hwords, List.singleton_append, List.intercalate_cons_cons, ← hwords, hjoin]
          simp
        · rcases List.mem_cons.mp hd with rfl | hd
          · exact .inl rfl
          · exact hchars' d hd

end

theorem mem_textWords {text : List Char} {w : Line} (h : w ∈ textWords text) :
    Word w ∧ '\n' ∉ w ∧ ∀ c ∈ w, c ∈ text := by
  obtain ⟨v, hv, hw⟩ := List.mem_flatMap.mp h
  obtain ⟨hword, hin⟩ := mem_splitWords w hw
  refine ⟨hword, fun hm => textLines_no_newline text v hv (hin.subset hm), fun c hc => ?_⟩
  exact (mem_textLines hv (hin.subset hc)).resolve_left List.not_mem_nil

/-- Words are printed on one line at most, when no option makes escapes of their backslashes. -/
theorem textLines_echo {ws : List Line} (h : ∀ w ∈ ws, '\n' ∉ w)
    (hplain : (∃ w ∈ ws.head?, isEchoOption w = true) → ∀ w ∈ ws, '\\' ∉ w) :
    textLines [] (echo ws) = [] ∨ ∃ l, textLines [] (echo ws) = [l] ∧ '\n' ∉ l ∧
      ∀ c ∈ l, c = ' ' ∨ ∃ w ∈ ws, c ∈ w := by
  obtain ⟨opts, rest, newline, rfl, -, -, -, hecho⟩ := echo_rest hplain
  have hmem : ∀ c ∈ [' '].intercalate rest, c = ' ' ∨ ∃ w ∈ opts ++ rest, c ∈ w := fun c hc =>
    (mem_intercalate hc).imp_right fun ⟨w, hw, hcw⟩ => ⟨w, List.mem_append_right _ hw, hcw⟩
  have hn : '\n' ∉ [' '].intercalate rest := by
    intro hm
    rcases hmem _ hm with hc | ⟨w, hw, hc⟩
    · cases hc
    · exact h w hw hc
  rw [hecho]
  cases newline with
  | true => exact .inr ⟨_, textLines_line hn [] [], hn, hmem⟩
  | false =>
    simp only [Bool.false_eq_true, ↓reduceIte, List.append_nil, textLines_end hn, List.nil_append]
    split
    · exact .inl rfl
    · exact .inr ⟨_, rfl, hn, hmem⟩

theorem countP_intercalate (ws : List Line) : ([' '].intercalate ws).countP isSeparator =
    (ws.length - 1) + (ws.map (List.countP isSeparator)).sum := by
  induction ws with
  | nil => rfl
  | cons w ws ih =>
    cases ws with
    | nil => simp
    | cons x ws =>
      have hblank : List.countP isSeparator [' '] = 1 := by decide
      rw [List.intercalate_cons_cons, List.countP_append, List.countP_append, hblank, ih]
      simp only [List.length_cons, List.map_cons, List.sum_cons]
      omega

/-- Pathname expansion keeps what stands in front of a pattern's first special character. -/
def Expands (files : Line → List Line) : Prop :=
  ∀ w, ∀ f ∈ files w, ∀ head, (∀ c ∈ head, c ∉ metaChars) → head <+: w → head <+: f

section
variable {files : Line → List Line}

theorem mem_expandWord_start (hfiles : Expands files) {head w x : Line}
    (hmeta : ∀ c ∈ head, c ∉ metaChars) (hw : head <+: w)
    (hx : x ∈ expandWord (metaOnly files) w) : head <+: x := by
  rcases mem_expandWord hx with rfl | hx
  · exact hw
  · rw [metaOnly] at hx
    split at hx
    · exact hfiles w x hx head hmeta hw
    · cases hx

/-- The first word of a text starts as the text does. -/
theorem unquoted_text_start (hfiles : Expands files) {head : Line} (info : Line) (hne : head ≠ [])
    (hb : ∀ c ∈ head, isBlank c = false) (hn : '\n' ∉ head) (hmeta : ∀ c ∈ head, c ∉ metaChars) :
    ∃ u ws, unquoted (metaOnly files) (textLines [] (head ++ info)) = (head ++ u) :: ws := by
  obtain ⟨more, lines, hlines⟩ : ∃ more lines, textLines [] (head ++ info) = (head ++ more) :: lines := by
    rcases textLines_cases (head ++ info) with ⟨-, hl⟩ | ⟨line, rest, he, hline, hl⟩
    · exact ⟨info, [], by rw [hl, if_neg (by simp [hne])]⟩
    · rcases List.append_eq_append_iff.mp he with ⟨as, rfl, -⟩ | ⟨as, hhead, hrest⟩
      · exact ⟨as, _, hl⟩
      · cases as with
        | nil => exact ⟨[], _, by rw [hl, hhead, List.append_nil, List.append_nil]⟩
        | cons d as =>
          obtain rfl : '\n' = d := (List.cons.inj hrest).1
          exact absurd (by simp [hhead]) hn
  obtain ⟨v, vs, hsplit⟩ := splitWords_start hne hb more
  obtain ⟨x, xs, hx⟩ := List.exists_cons_of_ne_nil
    (expandWord_ne_nil (metaOnly files) (head ++ v))
  obtain ⟨u, rfl⟩ : head <+: x :=
    mem_expandWord_start hfiles hmeta (List.prefix_append head v) (by simp [hx])
  refine ⟨u, xs ++ vs.flatMap (expandWord (metaOnly files)) ++
    unquoted (metaOnly files) lines, ?_⟩
  rw [hlines, unquoted, List.flatMap_cons, hsplit, List.flatMap_cons, hx,
    List.cons_append, List.cons_append]
  rfl

theorem not_echoOption {l : Line} (h : ':' ∈ l) : isEchoOption l = false := by
  rw [Bool.eq_false_iff]
  exact fun ho => absurd (isEchoOption_chars ho ':' h) (by decide)

/-- A text whose start is neither option nor pattern is printed on a line that starts so. -/
theorem echo_start (hfiles : Expands files) {head : Line} (info : Line) (hcolon : ':' ∈ head)
    (hb : ∀ c ∈ head, isBlank c = false) (hn : '\n' ∉ head) (hmeta : ∀ c ∈ head, c ∉ metaChars)
    (hwords : ∀ w ∈ unquoted (metaOnly files) (textLines [] (head ++ info)), '\n' ∉ w) :
    ∃ rest, textLines [] (echo (unquoted (metaOnly files) (textLines [] (head ++ info)))) =
      [head ++ rest] := by
  have hne : head ≠ [] := List.ne_nil_of_mem hcolon
  obtain ⟨u, ws, he⟩ := unquoted_text_start hfiles info hne hb hn hmeta
  rw [he] at hwords
  have hoption : isEchoOption (head ++ u) = false := not_echoOption (List.mem_append_left _ hcolon)
  obtain ⟨rest, hrest⟩ : ∃ rest, [' '].intercalate ((head ++ u) :: ws) = head ++ rest := by
    cases ws with
    | nil => exact ⟨u, List.intercalate_singleton ..⟩
    | cons v ws => exact ⟨_, by rw [List.intercalate_cons_cons, List.append_assoc, List.append_assoc]⟩
  have hline : '\n' ∉ head ++ rest := by
    rw [← hrest]
    intro hmem
    rcases mem_intercalate hmem with hc | ⟨w, hw, hc⟩
    · cases hc
    · exact hwords w hw hc
  refine ⟨rest, ?_⟩
  rw [he, echo_text hoption, hrest, textLines_line hline]
  rfl

end

/-- A text that ends in a newline is known by its lines. -/
theorem textLines_newline (text : List Char) (line : Line) :
    (textLines line (text ++ ['\n'])).flatMap (· ++ ['\n']) = line ++ text ++ ['\n'] := by
  induction text generalizing line with
  | nil => simp [textLines]
  | cons c text ih =>
    rw [List.cons_append, textLines]
    split
    · rename_i hc
      rw [List.flatMap_cons, ih, hc]
      simp
    · rw [ih]
      simp

theorem textLines_newline_inj {a b : List Char}
    (h : textLines [] (a ++ ['\n']) = textLines [] (b ++ ['\n'])) : a = b := by
  have ha := textLines_newline a []
  rw [h, textLines_newline b []] at ha
  exact (List.append_cancel_right ha).symm

/-- Sums of terms that are not larger are equal only term by term. -/
theorem eq_of_sum_le {α : Type} {f g : α → Nat} {l : List α} (h : ∀ a ∈ l, f a ≤ g a)
    (hs : (l.map g).sum ≤ (l.map f).sum) : ∀ a ∈ l, f a = g a := by
  have hle : (l.map f).sum ≤ (l.map g).sum := List.sum_le_sum h
  induction l with
  | nil => simp
  | cons a l ih =>
    have ha := h a List.mem_cons_self
    have hl := List.sum_le_sum fun b hb => h b (List.mem_cons_of_mem a hb)
    simp only [List.map_cons, List.sum_cons] at hs hle hl
    intro b hb
    rcases List.mem_cons.mp hb with rfl | hb
    · omega
    · exact ih (fun c hc => h c (List.mem_cons_of_mem a hc)) (by omega) hl b hb

end SnakeOs.Lib
