import SnakeOs.Samba.Smbpasswd

/-! The lines of `/etc/passwd` and `/etc/smbpasswd`, and what a change to the lines of one user
leaves alone. -/

namespace SnakeOs.Samba.Smbpasswd
open Lib

/-- The lines of a user. -/
def mine (name : Line) (lines : List Line) : List Line := lines.filter (field 0 · = name)

/-- The lines of the other users. -/
def others (name : Line) (lines : List Line) : List Line := lines.filter (field 0 · ≠ name)

/-- A line of `/etc/passwd`: seven fields, the third a number. -/
structure PasswdLine (line : Line) : Prop where
  text : ∀ c ∈ line, c ≠ '\n' ∧ c ≠ '\x00'
  seven : (line.splitOn ':').length = 7
  number : field 2 line ≠ [] ∧ ∀ c ∈ field 2 line, c.isDigit = true

/-- The lines of `/etc/smbpasswd` that are about a user; the file is shipped as a blank line,
which every command keeps. -/
def records (lines : List Line) : List Line := lines.filter (· ≠ [])

/-- The names of `/etc/smbpasswd` are unique, and each occurs once in `/etc/passwd` with the
same number. -/
structure Consistent (a : Accounts) : Prop where
  passwd : ∀ p ∈ a.passwd, PasswdLine p
  newline : ∀ l ∈ a.smbpasswd, '\n' ∉ l
  unique : ((records a.smbpasswd).map (field 0)).Nodup
  known : ∀ l ∈ records a.smbpasswd, ∃ p, mine (field 0 l) a.passwd = [p] ∧ field 2 p = field 1 l

theorem mem_records {l : Line} {lines : List Line} : l ∈ records lines ↔ l ∈ lines ∧ l ≠ [] := by
  rw [records, List.mem_filter, decide_eq_true_iff]

/-- The records of a user, taken in either order. -/
theorem mine_records (name : Line) (lines : List Line) :
    mine name (records lines) = records (mine name lines) := by
  rw [mine, records, records, mine, List.filter_filter, List.filter_filter]
  exact List.filter_congr fun l _ => Bool.and_comm _ _

/-- A blank line has no name. -/
theorem mine_records_of_ne {name : Line} (h : name ≠ []) (lines : List Line) :
    mine name (records lines) = mine name lines := by
  rw [mine_records, records, List.filter_eq_self]
  intro l hl
  have hname : field 0 l = name := of_decide_eq_true (List.mem_filter.mp hl).2
  refine decide_eq_true fun he => h ?_
  rw [← hname, he]
  rfl

theorem mem_mine_or_others (name : Line) {l : Line} {lines : List Line} (h : l ∈ lines) :
    l ∈ mine name lines ∨ l ∈ others name lines := by
  by_cases hn : field 0 l = name
  · exact .inl (List.mem_filter.mpr ⟨h, by simpa using hn⟩)
  · exact .inr (List.mem_filter.mpr ⟨h, by simpa using hn⟩)

theorem mine_others {name v : Line} (h : v ≠ name) (lines : List Line) :
    mine v (others name lines) = mine v lines := by
  rw [mine, others, List.filter_filter]
  refine List.filter_congr fun l _ => ?_
  by_cases hl : field 0 l = v
  · simp [hl, h]
  · simp [hl]

theorem nodup_names (lines : List Line) :
    (lines.map (field 0)).Nodup ↔ ∀ name, (mine name lines).length ≤ 1 := by
  rw [List.nodup_iff_count_le_one]
  refine forall_congr' fun name => ?_
  rw [List.count, List.countP_map, List.countP_eq_length_filter, mine]
  have hp : ((fun x => x == name) ∘ field 0) = fun l => decide (field 0 l = name) := by
    funext l
    simp [beq_eq_decide]
  rw [hp]

/-- It is enough to look at the lines of one user when the others did not change. -/
theorem Consistent.of_parts {a b : Accounts} {name : Line} (h : Consistent a) (hne : name ≠ [])
    (hp : others name b.passwd = others name a.passwd)
    (hs : others name b.smbpasswd = others name a.smbpasswd)
    (hgood : ∀ p ∈ mine name b.passwd, PasswdLine p)
    (hmine : mine name b.smbpasswd = [] ∨ ∃ p l, mine name b.passwd = [p] ∧
      mine name b.smbpasswd = [l] ∧ '\n' ∉ l ∧ field 2 p = field 1 l) : Consistent b := by
  have hpv {v : Line} (hv : v ≠ name) : mine v b.passwd = mine v a.passwd := by
    rw [← mine_others hv, hp, mine_others hv]
  have hsv {v : Line} (hv : v ≠ name) : mine v b.smbpasswd = mine v a.smbpasswd := by
    rw [← mine_others hv, hs, mine_others hv]
  have hsr {v : Line} (hv : v ≠ name) :
      mine v (records b.smbpasswd) = mine v (records a.smbpasswd) := by
    rw [mine_records, hsv hv, mine_records]
  -- a line of another user was there before
  have hold {l : Line} (hl : l ∈ others name b.smbpasswd) : l ∈ a.smbpasswd ∧ field 0 l ≠ name := by
    rw [hs] at hl
    obtain ⟨hm, hn⟩ := List.mem_filter.mp hl
    exact ⟨hm, by simpa using hn⟩
  have hown {l : Line} (hl : l ∈ mine name b.smbpasswd) : field 0 l = name := by
    simpa using (List.mem_filter.mp hl).2
  refine ⟨fun p hm => ?_, fun l hm => ?_, (nodup_names _).mpr fun v => ?_, fun l hm => ?_⟩
  · rcases mem_mine_or_others name hm with hm | hm
    · exact hgood p hm
    · rw [hp] at hm
      exact h.passwd p (List.mem_filter.mp hm).1
  · rcases mem_mine_or_others name hm with hm | hm
    · rcases hmine with he | ⟨p, l', -, he, hn, -⟩
      · rw [he] at hm
        cases hm
      · rw [he] at hm
        exact List.mem_singleton.mp hm ▸ hn
    · exact h.newline l (hold hm).1
  · by_cases hv : v = name
    · rw [hv, mine_records_of_ne hne]
      rcases hmine with he | ⟨p, l, -, he, -, -⟩ <;> simp [he]
    · rw [hsr hv]
      exact (nodup_names _).mp h.unique v
  · obtain ⟨hmem, hblank⟩ := mem_records.mp hm
    rcases mem_mine_or_others name hmem with hm | hm
    · rcases hmine with he | ⟨p, l', hpm, he, -, hu⟩
      · rw [he] at hm
        cases hm
      · rw [hown hm]
        rw [he] at hm
        exact ⟨p, hpm, List.mem_singleton.mp hm ▸ hu⟩
    · obtain ⟨hmem, hother⟩ := hold hm
      rw [hpv hother]
      exact h.known l (mem_records.mpr ⟨hmem, hblank⟩)

section
variable {name p l : Line} {lines : List Line}

theorem field_zero {xs ys : Line} (h : ':' ∉ xs) : field 0 (xs ++ ':' :: ys) = xs := by
  rw [field, List.splitOn_append_cons_self_of_not_mem h]
  rfl

theorem prefix_iff_field (hn : ':' ∉ name) (hne : name ≠ []) (hl : l ≠ [] → ':' ∈ l) :
    name ++ [':'] <+: l ↔ field 0 l = name := by
  by_cases hblank : l = []
  · rw [hblank, List.prefix_nil]
    exact ⟨fun h => absurd h (by simp), fun h => absurd h.symm hne⟩
  replace hl := hl hblank
  obtain ⟨xs, ys, rfl, hx⟩ := List.eq_append_cons_of_mem hl
  rw [field_zero hx]
  constructor
  · rintro ⟨rest, hr⟩
    rw [List.append_assoc, List.singleton_append] at hr
    exact (first_field_inj hn hx hr).symm
  · rintro rfl
    exact ⟨ys, by simp⟩

theorem PasswdLine.colon (h : PasswdLine p) : ':' ∈ p := by
  by_contra hc
  have := h.seven
  rw [List.splitOn_eq_singleton hc] at this
  cases this

/-- What `grep` and sed find are the lines of the user. -/
theorem keyed_eq_mine (hn : ':' ∉ name) (hne : name ≠ []) (hl : ∀ l ∈ lines, l ≠ [] → ':' ∈ l) :
    keyed (name ++ [':']) lines = mine name lines :=
  List.filter_congr fun l hm => by simp [prefix_iff_field hn hne (hl l hm)]

/-- A change to the lines of one user. -/
theorem map_parts {f : Line → Line} (hf : ∀ l ∈ lines, field 0 l = name → field 0 (f l) = name)
    (hid : ∀ l ∈ lines, field 0 l ≠ name → f l = l) :
    mine name (lines.map f) = (mine name lines).map f ∧
      others name (lines.map f) = others name lines := by
  have hname : ∀ l ∈ lines, (field 0 (f l) = name ↔ field 0 l = name) := by
    intro l hm
    by_cases h : field 0 l = name
    · simp [h, hf l hm h]
    · rw [hid l hm h]
  constructor
  · rw [mine, mine, List.filter_map]
    exact congrArg _ (List.filter_congr fun l hm => by simp [hname l hm])
  · rw [others, others, List.filter_map]
    have hfilter : lines.filter ((fun x => decide (field 0 x ≠ name)) ∘ f) =
        lines.filter fun x => decide (field 0 x ≠ name) :=
      List.filter_congr fun l hm => by simp [hname l hm]
    rw [hfilter]
    refine (List.map_congr_left fun l hm => ?_).trans (List.map_id' _)
    obtain ⟨hm, hne⟩ := List.mem_filter.mp hm
    exact hid l hm (by simpa using hne)

/-- Fields between colons. -/
def record (fs : List Line) : Line := [':'].intercalate fs

theorem splitOn_record {fs : List Line} (hne : fs ≠ []) (h : ∀ f ∈ fs, ':' ∉ f) :
    (record fs).splitOn ':' = fs := List.splitOn_intercalate ':' h hne

/-- Text of a field. -/
def FieldText (f : Line) : Prop := ∀ c ∈ f, c ≠ ':' ∧ c ≠ '\n' ∧ c ≠ '\x00'

theorem mem_record {fs : List Line} {c : Char} (h : c ∈ record fs) : c = ':' ∨ ∃ f ∈ fs, c ∈ f := by
  induction fs with
  | nil => cases h
  | cons f fs ih =>
    cases fs with
    | nil => exact .inr ⟨f, List.mem_cons_self, by simpa [record] using h⟩
    | cons g fs =>
      rw [record, List.intercalate_cons_cons, List.append_assoc, List.mem_append] at h
      rcases h with h | h
      · exact .inr ⟨f, List.mem_cons_self, h⟩
      · rcases List.mem_cons.mp h with rfl | h
        · exact .inl rfl
        · rcases ih h with h | ⟨x, hx, hc⟩
          · exact .inl h
          · exact .inr ⟨x, List.mem_cons_of_mem _ hx, hc⟩

theorem mem_record_of_mem {fs : List Line} {f : Line} {c : Char} (hf : f ∈ fs) (hc : c ∈ f) :
    c ∈ record fs := by
  induction fs with
  | nil => cases hf
  | cons g fs ih =>
    cases fs with
    | nil => simpa [record, List.mem_singleton.mp hf] using hc
    | cons g' fs =>
      rw [record, List.intercalate_cons_cons, List.append_assoc]
      rcases List.mem_cons.mp hf with rfl | hf
      · exact List.mem_append_left _ hc
      · exact List.mem_append_right _ (List.mem_cons_of_mem _ (ih hf))

theorem passwdLine_record {b c d e f g : Line}
    (ht : ∀ x ∈ [name, b, c, d, e, f, g], FieldText x) (hc : c ≠ [] ∧ ∀ x ∈ c, x.isDigit = true) :
    PasswdLine (record [name, b, c, d, e, f, g]) ∧
      field 0 (record [name, b, c, d, e, f, g]) = name ∧
      field 2 (record [name, b, c, d, e, f, g]) = c := by
  have hsplit := splitOn_record (List.cons_ne_nil name [b, c, d, e, f, g]) fun x hx hm =>
    (ht x hx _ hm).1 rfl
  have hfield (n : Nat) : field n (record [name, b, c, d, e, f, g]) =
      [name, b, c, d, e, f, g].getD n [] := by rw [field, hsplit]
  refine ⟨⟨fun x hx => ?_, by rw [hsplit]; rfl, by rw [hfield]; exact hc⟩, by rw [hfield]; rfl,
    by rw [hfield]; rfl⟩
  rcases mem_record hx with rfl | ⟨y, hy, hx⟩
  · decide
  · exact (ht y hy x hx).2

/-- A line of `/etc/passwd` as its fields. -/
theorem PasswdLine.record (h : PasswdLine p) : p = record [field 0 p, field 1 p, field 2 p, field 3 p,
      field 4 p, field 5 p, field 6 p] ∧
    ∀ x ∈ [field 0 p, field 1 p, field 2 p, field 3 p, field 4 p, field 5 p, field 6 p],
      FieldText x := by
  have hlist : p.splitOn ':' = [field 0 p, field 1 p, field 2 p, field 3 p, field 4 p, field 5 p,
      field 6 p] := by
    have hseven := h.seven
    unfold field
    generalize p.splitOn ':' = fs at hseven
    match fs, hseven with
    | [_, _, _, _, _, _, _], _ => rfl
  have hp : p = Smbpasswd.record (p.splitOn ':') := (List.intercalate_splitOn ':').symm
  rw [← hlist]
  refine ⟨hp, fun x hx c hc => ⟨fun he => not_mem_splitOn ':' p x hx (he ▸ hc), h.text c ?_⟩⟩
  rw [hp]
  exact mem_record_of_mem hx hc

end

section
variable {a : Accounts} {name p l : Line} {lines : List Line}

/-- The names the user page lets through. -/
def Name (name : Line) : Prop := name ≠ [] ∧ ∀ c ∈ name, (c.isAlphanum || c == '_') = true

theorem Name.not_mem (h : Name name) {c : Char} (hc : (c.isAlphanum || c == '_') = false) :
    c ∉ name := word_not_mem h.2 hc

theorem Name.text (h : Name name) : FieldText name := by
  intro c hc
  have hn : c ∉ [':', '\n', '\x00'] := not_mem_of_word (h.2 c hc) (by decide)
  simpa using hn

theorem userLines_keyed (h : Name name) : userLines name lines = keyed (name ++ [':']) lines := by
  rw [userLines, keyed]
  refine List.filter_congr fun l _ => ?_
  have hplain : ∀ c ∈ name ++ [':'], Plain c := by
    intro c hc
    rcases List.mem_append.mp hc with hc | hc
    · exact (plainEre_of_word (h.2 c hc)).1
    · rw [List.mem_singleton.mp hc]
      decide
  rw [Bool.eq_iff_iff, (grep_start hplain (by simp) l).1, decide_eq_true_iff]

theorem userLines_eq (h : Name name) (hl : ∀ l ∈ lines, l ≠ [] → ':' ∈ l) :
    userLines name lines = mine name lines := by
  rw [← keyed_eq_mine (h.not_mem rfl) h.1 hl, userLines_keyed h]

theorem substLines_single {x : Line} (h : ∀ c ∈ x, c ≠ '\n' ∧ c ≠ '\x00') : substLines [x] = x := by
  exact capturedLines_first h 0

theorem cutField_uid (h : PasswdLine p) : cutField ':' 3 p = field 2 p := if_pos h.colon

/-- The number of a user who has one line. -/
theorem uid_eq (hn : Name name) (hp : ∀ q ∈ lines, PasswdLine q) (hm : mine name lines = [p]) :
    substLines ((userLines name lines).map (cutField ':' 3)) = field 2 p := by
  have hpl : PasswdLine p := hp p (List.mem_filter.mp (hm ▸ List.mem_singleton_self p)).1
  rw [userLines_eq hn fun q hq _ => (hp q hq).colon, hm, List.map_singleton, cutField_uid hpl]
  exact substLines_single fun c hc => (hpl.record.2 (field 2 p) (by simp) c hc).2

theorem withPassword_record {hash b c : Line} {fs : List Line} (hb : ':' ∉ b) :
    withPassword name hash (record (name :: b :: c :: fs)) = record (name :: hash :: c :: fs) := by
  have hdrop : (record (name :: b :: c :: fs)).drop (name.length + 1) = b ++ ':' :: record (c :: fs) := by
    simp only [record, List.intercalate_cons_cons, List.append_assoc, List.singleton_append]
    rw [List.append_cons, List.drop_left' (by simp)]
  have hskip : (b ++ ':' :: record (c :: fs)).dropWhile (· ≠ ':') = ':' :: record (c :: fs) := by
    have hin : ∀ x ∈ b, decide (x ≠ ':') = true :=
      fun x hx => decide_eq_true fun he => hb (he ▸ hx)
    rw [List.dropWhile_append_of_pos hin]
    simp
  rw [withPassword, hdrop, hskip]
  simp [record, List.intercalate_cons_cons]

/-- A line of the user by its number in a file of lines with colons. -/
theorem mine_single (hm : mine name lines = [p]) : p ∈ lines ∧ field 0 p = name := by
  obtain ⟨hmem, hname⟩ := List.mem_filter.mp (hm ▸ List.mem_singleton_self p)
  exact ⟨hmem, by simpa using hname⟩

/-- Changing the lines that start with the name and a colon. -/
theorem map_user_parts {f : Line → Line} (hn : ':' ∉ name) (hne : name ≠ [])
    (hl : ∀ l ∈ lines, l ≠ [] → ':' ∈ l)
    (hf : ∀ l ∈ lines, field 0 l = name → field 0 (f l) = name) (hm : mine name lines = [p]) :
    mine name (lines.map fun l => if name ++ [':'] <+: l then f l else l) = [f p] ∧
      others name (lines.map fun l => if name ++ [':'] <+: l then f l else l) = others name lines := by
  have hpre {l : Line} (h : l ∈ lines) := prefix_iff_field hn hne (hl l h)
  obtain ⟨hmem, hname⟩ := mine_single hm
  obtain ⟨hown, hother⟩ := map_parts
    (fun l h he => by rw [if_pos ((hpre h).mpr he)]; exact hf l h he)
    (fun l h he => if_neg fun hp => he ((hpre h).mp hp))
  refine ⟨?_, hother⟩
  rw [hown, hm, List.map_singleton, if_pos ((hpre hmem).mpr hname)]

/-- `chpasswd` changes the second field of the user's line. -/
theorem chpasswd_parts {hash : Line} (hn : Name name) (hh : FieldText hash)
    (hp : ∀ q ∈ lines, PasswdLine q) (hm : mine name lines = [p]) :
    others name (chpasswd name hash lines) = others name lines ∧
      ∃ q, mine name (chpasswd name hash lines) = [q] ∧ PasswdLine q ∧ field 2 q = field 2 p := by
  obtain ⟨hmem, hname⟩ := mine_single hm
  obtain ⟨hown, hother⟩ := map_user_parts (f := withPassword name hash) (hn.not_mem rfl) hn.1
    (fun q hq _ => (hp q hq).colon) (fun _ _ _ => field_zero (hn.not_mem rfl)) hm
  obtain ⟨hrec, htext⟩ := (hp p hmem).record
  rw [hname] at hrec htext
  have hb : ':' ∉ field 1 p := fun hc => (htext (field 1 p) (by simp) _ hc).1 rfl
  have hline : withPassword name hash p =
      record [name, hash, field 2 p, field 3 p, field 4 p, field 5 p, field 6 p] :=
    (congrArg (withPassword name hash) hrec).trans (withPassword_record hb)
  have htext' : ∀ x ∈ [name, hash, field 2 p, field 3 p, field 4 p, field 5 p, field 6 p],
      FieldText x := by
    intro x hx
    rcases List.mem_cons.mp hx with rfl | hx
    · exact hn.text
    · rcases List.mem_cons.mp hx with rfl | hx
      · exact hh
      · exact htext x (List.mem_cons_of_mem _ (List.mem_cons_of_mem _ hx))
  obtain ⟨hgood, -, huid⟩ := passwdLine_record htext' (hp p hmem).number
  exact ⟨hother, _, hown, hline ▸ hgood, hline ▸ huid⟩

end

end SnakeOs.Samba.Smbpasswd
