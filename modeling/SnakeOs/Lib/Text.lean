import Mathlib.Data.List.Basic
import Mathlib.Tactic.Common

/-! Line tools of a Unix userland over lists of characters: each command works
on one line, and a pipeline maps or filters a list of lines. -/

namespace SnakeOs.Lib

abbrev Line := List Char

-- over all characters the same statement would be decided one character at a time
instance (priority := 2000) decidableForallChar (p : Char → Prop) [DecidablePred p] (l : Line) :
    Decidable (∀ c ∈ l, p c) := List.decidableBAll p l

instance decidableMemLists {β : Type} [DecidableEq β] (w : List β) (ws : List (List β)) :
    Decidable (w ∈ ws) := List.instDecidableMemOfLawfulBEq w ws

/-- `grep` with a pattern that has no special characters. -/
def grepFixed (pat : Line) : Line → Bool
  | [] => pat.isEmpty
  | c :: cs => pat.isPrefixOf (c :: cs) || grepFixed pat cs

/-- `sed "s/pat//g"` for such a pattern; the counter runs down a match being
dropped. -/
def sedDeleteFrom (pat : Line) : Nat → Line → Line
  | _, [] => []
  | n + 1, _ :: cs => sedDeleteFrom pat n cs
  | 0, c :: cs =>
    if pat.isPrefixOf (c :: cs) then sedDeleteFrom pat (pat.length - 1) cs
    else c :: sedDeleteFrom pat 0 cs

def sedDelete (pat line : Line) : Line := sedDeleteFrom pat 0 line

/-- `tr -d` of a single character. -/
def trDelete (c : Char) (line : Line) : Line := line.filter (· != c)

/-- `cut -b 1-n`. -/
def cutBytes (n : Nat) (line : Line) : Line := line.take n

/-- `cut -d d -f n`: a line without the delimiter passes unchanged. -/
def cutField (d : Char) (n : Nat) (line : Line) : Line :=
  if d ∈ line then (line.splitOn d).getD (n - 1) [] else line

theorem sedDeleteFrom_drop (pat xs ys : Line) :
    sedDeleteFrom pat xs.length (xs ++ ys) = sedDeleteFrom pat 0 ys := by
  induction xs with
  | nil => rfl
  | cons x xs ih => simpa [sedDeleteFrom] using ih

theorem sedDelete_match (c : Char) (pat rest : Line) :
    sedDelete (c :: pat) (c :: pat ++ rest) = sedDelete (c :: pat) rest := by
  have hp : (c :: pat).isPrefixOf (c :: (pat ++ rest)) = true := by
    rw [List.isPrefixOf_iff_prefix]
    exact ⟨rest, rfl⟩
  simp only [sedDelete, List.cons_append, sedDeleteFrom, hp, ↓reduceIte, List.length_cons,
    Nat.add_sub_cancel]
  exact sedDeleteFrom_drop (c :: pat) pat rest

/-- A run shorter than the pattern that ends in a character the pattern does not
have is copied. -/
theorem sedDelete_short {pat : Line} {sep : Char} (xs rest : Line) (hs : sep ∉ pat)
    (hl : xs.length < pat.length) :
    sedDelete pat (xs ++ sep :: rest) = xs ++ sep :: sedDelete pat rest := by
  unfold sedDelete
  induction xs with
  | nil =>
    have hp : pat.isPrefixOf (sep :: rest) = false := by
      rw [Bool.eq_false_iff, ne_eq, List.isPrefixOf_iff_prefix]
      intro hpre
      cases pat with
      | nil => simp at hl
      | cons p ps => exact hs (by simp [(List.cons_prefix_cons.mp hpre).1])
    simp [sedDeleteFrom, hp]
  | cons x xs ih =>
    have hp : pat.isPrefixOf (x :: xs ++ sep :: rest) = false := by
      rw [Bool.eq_false_iff, ne_eq, List.isPrefixOf_iff_prefix]
      intro hpre
      obtain ⟨tail, ht⟩ := hpre
      rcases List.append_eq_append_iff.mp ht with ⟨as, ha, hb⟩ | ⟨bs, hb, hc⟩
      · have := congrArg List.length ha
        simp only [List.length_append] at this
        omega
      · cases bs with
        | nil =>
          simp only [List.append_nil] at hb
          rw [hb] at hl
          exact Nat.lt_irrefl _ hl
        | cons b bs =>
          have hsep : b = sep := (List.cons.inj hc).1.symm
          exact hs (by rw [hb, hsep]; simp)
    simp only [List.cons_append] at hp ⊢
    simp only [sedDeleteFrom, hp, Bool.false_eq_true, ↓reduceIte]
    rw [ih (by simp only [List.length_cons] at hl; omega)]

theorem trDelete_append (c : Char) (xs ys : Line) :
    trDelete c (xs ++ ys) = trDelete c xs ++ trDelete c ys := List.filter_append ..

theorem trDelete_self (c : Char) (xs : Line) (h : c ∉ xs) : trDelete c xs = xs := by
  apply List.filter_eq_self.mpr
  intro x hx
  simpa using fun he : x = c => h (he ▸ hx)

/-- The first field of a line with the delimiter. -/
theorem cutField_first {d : Char} {xs : Line} (ys : Line) (h : d ∉ xs) :
    cutField d 1 (xs ++ d :: ys) = xs := by
  rw [cutField, if_pos (by simp), List.splitOn_append_cons_self_of_not_mem h]
  rfl

theorem first_field_inj {d : Char} {xs xs' ys ys' : Line} (h : d ∉ xs) (h' : d ∉ xs')
    (he : xs ++ d :: ys = xs' ++ d :: ys') : xs = xs' := by
  have := congrArg (cutField d 1) he
  rwa [cutField_first ys h, cutField_first ys' h'] at this

/-- The second field starts after the first delimiter. -/
theorem cutField_second {d : Char} {xs : Line} (ys : Line) (h : d ∉ xs) :
    cutField d 2 (xs ++ d :: ys) = (ys.splitOn d).getD 0 [] := by
  rw [cutField, if_pos (by simp), List.splitOn_append_cons_self_of_not_mem h]
  rfl

theorem cutField_none {d : Char} {n : Nat} {line : Line} (h : d ∉ line) :
    cutField d n line = line := if_neg h

/-- A word with a delimiter behind it ends the first field or stands behind it. -/
theorem infix_field {d : Char} {w xs ys : Line} (hw : d ∉ w) (hx : d ∉ xs)
    (h : w ++ [d] <:+: xs ++ d :: ys) : w <:+ xs ∨ w ++ [d] <:+: ys := by
  obtain ⟨a, b, hab⟩ := h
  have hab : (a ++ w) ++ d :: b = xs ++ d :: ys := by simpa using hab
  rcases List.append_eq_append_iff.mp hab with ⟨as, hxs, hd⟩ | ⟨as, haw, hd⟩
  · cases as with
    | nil => exact .inl ⟨a, by simpa using hxs.symm⟩
    | cons c as =>
      have hc : c = d := (List.cons.inj hd).1.symm
      exact absurd (by rw [hxs, hc]; simp) hx
  · cases as with
    | nil => exact .inl ⟨a, by simpa using haw⟩
    | cons c as =>
      obtain ⟨rfl, rfl⟩ := List.cons.inj hd
      rcases List.append_eq_append_iff.mp haw with ⟨bs, hxs, hw'⟩ | ⟨bs, ha, hbs⟩
      · exact absurd (by rw [hw']; simp) hw
      · cases bs with
        | nil => exact absurd (by rw [← List.nil_append w, ← hbs]; simp) hw
        | cons e bs => exact .inr ⟨bs, b, by simp [(List.cons.inj hbs).2]⟩

/-- What ends in a character that the rest lacks stands before the rest. -/
theorem infix_left {d : Char} {w xs ys : Line} (hd : d ∉ ys) (h : w ++ [d] <:+: xs ++ ys) :
    w ++ [d] <:+: xs := by
  obtain ⟨a, b, hab⟩ := h
  rcases List.append_eq_append_iff.mp hab with ⟨as, hxs, -⟩ | ⟨as, ha, hys⟩
  · exact ⟨a, as, hxs.symm⟩
  · rcases List.eq_nil_or_concat as with rfl | ⟨as', c, rfl⟩
    · exact ⟨a, [], by simpa using ha⟩
    · -- the last character of the word would lie in the rest
      have hc : d = c := by
        have := congrArg List.getLast? ha
        simpa [← List.append_assoc] using this
      exact absurd (by rw [hys, hc]; simp) hd

/-- Fields have no delimiter. -/
theorem not_mem_splitOn (d : Char) (line : Line) : ∀ w ∈ line.splitOn d, d ∉ w := by
  by_cases h : d ∈ line
  · obtain ⟨xs, ys, rfl, hx⟩ := List.eq_append_cons_of_mem h
    have ih := not_mem_splitOn d ys
    rw [List.splitOn_append_cons_self_of_not_mem hx]
    simpa using ⟨hx, ih⟩
  · rw [List.splitOn_eq_singleton h]
    simpa using h
  termination_by line.length

theorem mem_of_mem_splitOn {d c : Char} {line : Line} : ∀ w ∈ line.splitOn d, c ∈ w → c ∈ line := by
  intro w hw hc
  by_cases h : d ∈ line
  · obtain ⟨xs, ys, rfl, hx⟩ := List.eq_append_cons_of_mem h
    rw [List.splitOn_append_cons_self_of_not_mem hx] at hw
    rcases List.mem_cons.mp hw with rfl | hw
    · exact List.mem_append_left _ hc
    · exact List.mem_append_right _ (List.mem_cons_of_mem d (mem_of_mem_splitOn w hw hc))
  · rw [List.splitOn_eq_singleton h] at hw
    exact List.mem_singleton.mp hw ▸ hc
  termination_by line.length

theorem mem_of_mem_cutField {d c : Char} {n : Nat} {line : Line} (h : c ∈ cutField d n line) :
    c ∈ line := by
  rw [cutField] at h
  split at h
  · rw [List.getD_eq_getElem?_getD] at h
    cases hw : (line.splitOn d)[n - 1]? with
    | none => simp [hw] at h
    | some w =>
      rw [hw] at h
      exact mem_of_mem_splitOn w (List.mem_of_getElem? hw) h
  · exact h

theorem not_mem_cutField {d : Char} {n : Nat} {line : Line} (h : d ∈ line) :
    d ∉ cutField d n line := by
  rw [cutField, if_pos h, List.getD_eq_getElem?_getD]
  cases hw : (line.splitOn d)[n - 1]? with
  | none => simp
  | some w => exact not_mem_splitOn d line w (List.mem_of_getElem? hw)

/-- The first field is a start of its line. -/
theorem cutField_first_start (d : Char) (l : Line) : cutField d 1 l <+: l := by
  by_cases h : d ∈ l
  · obtain ⟨xs, ys, rfl, hx⟩ := List.eq_append_cons_of_mem h
    rw [cutField_first ys hx]
    exact List.prefix_append xs _
  · exact ⟨[], by rw [cutField_none h, List.append_nil]⟩

end SnakeOs.Lib
