import SnakeOs.Samba.Passwd

/-! The two user databases stay consistent under `smbpasswd`. -/

namespace SnakeOs.Samba.Smbpasswd
open Lib

section
variable {a : Accounts} {name p l : Line} {lines : List Line}

theorem Consistent.colon (h : Consistent a) : ∀ l ∈ a.smbpasswd, l ≠ [] → ':' ∈ l := by
  intro l hl hblank
  by_contra hc
  obtain ⟨p, hm, hu⟩ := h.known l (mem_records.mpr ⟨hl, hblank⟩)
  have hempty : field 1 l = [] := by
    rw [field, List.splitOn_eq_singleton hc]
    rfl
  rw [hempty] at hu
  exact (h.passwd p (mine_single hm).1).number.1 hu

/-- The name and the number of a line of `/etc/smbpasswd`. -/
theorem smbLine_fields {uid : Line} (hn : ':' ∉ name) (hu : ':' ∉ uid) (rest tail : Line) :
    field 0 (name ++ ':' :: uid ++ ':' :: rest ++ tail) = name ∧
      field 1 (name ++ ':' :: uid ++ ':' :: rest ++ tail) = uid := by
  have hline : name ++ ':' :: uid ++ ':' :: rest ++ tail =
      name ++ ':' :: (uid ++ ':' :: (rest ++ tail)) := by simp
  rw [hline]
  refine ⟨field_zero hn, ?_⟩
  rw [field, List.splitOn_append_cons_self_of_not_mem hn,
    List.splitOn_append_cons_self_of_not_mem hu]
  rfl

/-- The command for `/etc/smbpasswd`. -/
theorem sed_record (other : Line → List Line → List Line) {uid smbpass : Line}
    (hn : ∀ c ∈ name ++ [':'], PlainEre c ∧ Literal c ∧ c ≠ ',')
    (hu : ∀ c ∈ uid, Literal c ∧ c ≠ ',') (hs : ∀ c ∈ smbpass, c.isAlphanum = true ∨ c = ':')
    (hl : ∀ l ∈ lines, '\n' ∉ l) :
    sed other (substCmd ',' ['^'] (name ++ [':']) (name ++ ':' :: uid ++ ':' :: smbpass ++ [':'])) lines =
        setLines (name ++ [':']) (name ++ ':' :: uid ++ ':' :: smbpass ++ [':']) lines ∧
      '\n' ∉ name ++ ':' :: uid ++ ':' :: smbpass ++ [':'] := by
  have hcolon : Literal ':' ∧ ':' ≠ ',' := by decide
  have hsmb : ∀ c ∈ smbpass, Literal c ∧ c ≠ ',' := by
    intro c hc
    rcases hs c hc with hc | rfl
    · have hword : (c.isAlphanum || c == '_') = true := by simp [hc]
      have hcomma : c ∉ [','] := not_mem_of_word hword (by decide)
      exact ⟨literal_of_word hword, by simpa using hcomma⟩
    · exact hcolon
  have hlit : ∀ c ∈ name ++ ':' :: uid ++ ':' :: smbpass ++ [':'], Literal c ∧ c ≠ ',' := by
    intro c hc
    simp only [List.mem_append, List.mem_cons, List.not_mem_nil, or_false] at hc
    rcases hc with ((hc | rfl | hc) | rfl | hc) | rfl
    · exact (hn c (List.mem_append_left _ hc)).2
    · exact hcolon
    · exact hu c hc
    · exact hcolon
    · exact hsmb c hc
    · exact hcolon
  refine ⟨sed_start ⟨by decide, fun hm => (hn _ hm).2.2 rfl, fun hm => (hlit _ hm).2 rfl⟩ (by decide)
    (fun c hc => ⟨(hn c hc).1, (hn c hc).2.1.2.2⟩) (fun c hc => (hlit c hc).1) hl,
    fun hm => (hlit _ hm).1.2.2 rfl⟩

/-- The command for a user with a number. -/
theorem sed_smbpasswd (other : Line → List Line → List Line) {uid smbpass : Line} (hn : Name name)
    (hu : ∀ c ∈ uid, c.isDigit = true) (hs : ∀ c ∈ smbpass, c.isAlphanum = true ∨ c = ':')
    (hl : ∀ l ∈ lines, '\n' ∉ l) :
    sed other (substCmd ',' ['^'] (name ++ [':']) (name ++ ':' :: uid ++ ':' :: smbpass ++ [':'])) lines =
        setLines (name ++ [':']) (name ++ ':' :: uid ++ ':' :: smbpass ++ [':']) lines ∧
      '\n' ∉ name ++ ':' :: uid ++ ':' :: smbpass ++ [':'] := by
  have hword {c : Char} (hc : (c.isAlphanum || c == '_') = true) : Literal c ∧ c ≠ ',' := by
    have hcomma : c ∉ [','] := not_mem_of_word hc (by decide)
    exact ⟨literal_of_word hc, by simpa using hcomma⟩
  refine sed_record other (fun c hc => ?_) (fun c hc => hword ?_) hs hl
  · rcases List.mem_append.mp hc with hc | hc
    · exact ⟨plainEre_of_word (hn.2 c hc), hword (hn.2 c hc)⟩
    · rw [List.mem_singleton.mp hc]
      decide
  · simp [Char.isAlphanum, hu c hc]

end

/-- What sed makes of the user's line: it refuses the command, or the text has none of the
characters it reads and the seven fields stay. -/
def Fits (name home p : Line) : Prop :=
  (readSubst (substCmd '_' ['^'] (name ++ [':']) (withHome (awkValue home) p)) = .refused ∧
      '\n' ∉ withHome (awkValue home) p) ∨
    ('_' ∉ name ∧ ':' ∉ awkValue home ∧ ∀ c ∈ withHome (awkValue home) p, Literal c ∧ c ≠ '_')

/-- The commands after which the databases are consistent. -/
def CommandOk (t : Tools) (a : Accounts) : Command → Prop
  | .add user home _ _ =>
    expandWord (metaOnly t.files) home.path = [home.path] ∧
    if (userLines user.name a.smbpasswd).length = 1 then
      expandWord (metaOnly t.files) ("home=".toList ++ home.path) = ["home=".toList ++ home.path] ∧
        ∀ p ∈ mine user.name a.passwd, Fits user.name home.path p
    else (mine user.name a.passwd = [] ∧ ':' ∉ home.path) ∨ (mine user.name a.passwd).length = 1
  | .remove _ => True

section
variable {t : Tools} {a : Accounts} {name p : Line}

/-- The fields with another home. -/
theorem mem_withHome {home x : Line}
    (hx : x ∈ [field 0 p, field 1 p, field 2 p, field 3 p, field 4 p, home, field 6 p]) :
    x = home ∨ x ∈ [field 0 p, field 1 p, field 2 p, field 3 p, field 4 p, field 5 p, field 6 p] := by
  simp only [List.mem_cons, List.not_mem_nil, or_false] at hx ⊢
  tauto

/-- The command for `/etc/passwd`. -/
theorem sed_passwd {home : Line} (h : Consistent a) (hn : Name name)
    (hm : mine name a.passwd = [p]) (hf : Fits name home p) :
    others name (sed t.other (substCmd '_' ['^'] (name ++ [':']) (withHome (awkValue home) p))
        a.passwd) = others name a.passwd ∧
      ∃ q, mine name (sed t.other (substCmd '_' ['^'] (name ++ [':']) (withHome (awkValue home) p))
          a.passwd) = [q] ∧ PasswdLine q ∧ field 2 q = field 2 p := by
  obtain ⟨hmem, hname⟩ := mine_single hm
  have hpl := h.passwd p hmem
  rcases hf with ⟨href, hnl⟩ | ⟨hu, hc, hlit⟩
  · rw [sed_read (by decide) (by decide) ?_ hnl, href]
    · exact ⟨rfl, p, hm, hpl, rfl⟩
    · simpa using hn.not_mem rfl
  · obtain ⟨-, htext⟩ := hpl.record
    have hhome : FieldText (awkValue home) := by
      intro c hm
      refine ⟨fun he => hc (he ▸ hm), (hlit c (mem_record_of_mem (by simp) hm)).1.2.2, ?_⟩
      simpa using List.mem_takeWhile_imp hm
    have hnew : ∀ x ∈ [field 0 p, field 1 p, field 2 p, field 3 p, field 4 p, awkValue home,
        field 6 p], FieldText x := by
      intro x hx
      rcases mem_withHome hx with rfl | hx
      · exact hhome
      · exact htext x hx
    obtain ⟨hgood, hzero, huid⟩ := passwdLine_record hnew hpl.number
    have hdelim : Delimits '_' (name ++ [':']) (withHome (awkValue home) p) :=
      ⟨by decide, by simpa using hu, fun hm => (hlit _ hm).2 rfl⟩
    have hplain : ∀ c ∈ name ++ [':'], PlainEre c ∧ c ≠ '\n' := by
      intro c hm
      rcases List.mem_append.mp hm with hm | hm
      · exact ⟨plainEre_of_word (hn.2 c hm), (hn.text c hm).2.1⟩
      · rw [List.mem_singleton.mp hm]
        decide
    rw [sed_start hdelim (by decide) hplain (fun c hm => (hlit c hm).1)
      fun l hl hm => ((h.passwd l hl).text _ hm).1 rfl]
    obtain ⟨hown, hother⟩ := map_user_parts (f := fun _ => withHome (awkValue home) p)
      (hn.not_mem rfl) hn.1 (fun q hq _ => (h.passwd q hq).colon)
      (fun _ _ _ => hzero.trans hname) hm
    exact ⟨hother, _, hown, hgood, huid⟩

theorem Fits.newline {home : Line} (h : Fits name home p) : '\n' ∉ withHome (awkValue home) p := by
  rcases h with h | h
  · exact h.2
  · exact fun hm => (h.2.2 _ hm).1.2.2 rfl

theorem mem_field {k : Nat} {c : Char} (h : c ∈ field k p) : c ∈ p := by
  rw [field, List.getD_eq_getElem?_getD] at h
  cases hw : (p.splitOn ':')[k]? with
  | none => simp [hw] at h
  | some w =>
    rw [hw] at h
    exact mem_of_mem_splitOn w (List.mem_of_getElem? hw) h

theorem withHome_nul (home : Line) (hp : '\x00' ∉ p) : '\x00' ∉ withHome (awkValue home) p := by
  intro hm
  rcases mem_record hm with hc | ⟨x, hx, hc⟩
  · cases hc
  · rcases mem_withHome hx with rfl | hx
    · simpa using List.mem_takeWhile_imp hc
    · simp only [List.mem_cons, List.not_mem_nil, or_false] at hx
      rcases hx with rfl | rfl | rfl | rfl | rfl | rfl | rfl <;> exact hp (mem_field hc)

/-- What awk prints for a user with one line. -/
theorem awkHome_eq {home : Line} (h : Consistent a) (hn : Name name) (hp : mine name a.passwd = [p])
    (hb : ∀ c ∈ home, isBlank c = false)
    (hex : expandWord (metaOnly t.files) ("home=".toList ++ home) = ["home=".toList ++ home])
    (hf : Fits name home p) :
    awkHome t home (userLines name a.passwd) = withHome (awkValue home) p := by
  have hpre : ∀ c ∈ "home=".toList, isBlank c = false := by decide
  have hblank : Word ("home=".toList ++ home) := by
    refine ⟨by simp, fun c hc => ?_⟩
    rcases List.mem_append.mp hc with hc | hc
    · exact hpre c hc
    · exact hb c hc
  have hword : unquoted (metaOnly t.files) ["home=".toList ++ home] = ["home=".toList ++ home] := by
    rw [unquoted, List.flatMap_singleton, hblank.split, List.flatMap_singleton, hex]
  have hdrop : ("home=".toList ++ home).drop 5 = home := List.drop_left' (by decide)
  have hnul := withHome_nul home fun hm => ((h.passwd p (mine_single hp).1).text _ hm).2 rfl
  simp only [awkHome, hword]
  rw [if_pos (List.prefix_append _ _), hdrop, userLines_eq hn fun q hq _ => (h.passwd q hq).colon, hp,
    List.map_singleton]
  exact substLines_single fun c hc => ⟨fun he => hf.newline (he ▸ hc), fun he => hnul (he ▸ hc)⟩

/-- The user has one line in both files, and the others kept theirs. -/
structure Settled (name : Line) (a b : Accounts) : Prop where
  passwd : others name b.passwd = others name a.passwd
  smbpasswd : others name b.smbpasswd = others name a.smbpasswd
  lines : ∃ q l, mine name b.passwd = [q] ∧ mine name b.smbpasswd = [l] ∧ PasswdLine q ∧
    '\n' ∉ l ∧ field 2 q = field 1 l

theorem Settled.consistent {b : Accounts} (s : Settled name a b) (h : Consistent a)
    (hne : name ≠ []) : Consistent b := by
  obtain ⟨q, l, hq, hl, hgood, hnl, hu⟩ := s.lines
  refine h.of_parts hne s.passwd s.smbpasswd (fun p hp => ?_) (.inr ⟨q, l, hq, hl, hnl, hu⟩)
  rw [hq] at hp
  exact List.mem_singleton.mp hp ▸ hgood

theorem Settled.chpasswd {b : Accounts} {hash : Line} (s : Settled name a b) (h : Consistent a)
    (hn : Name name) (hh : FieldText hash) :
    Settled name a ⟨chpasswd name hash b.passwd, b.smbpasswd⟩ := by
  obtain ⟨q, l, hq, hl, -, hnl, hu⟩ := s.lines
  obtain ⟨hother, r, hr, hgood, hru⟩ := chpasswd_parts hn hh (s.consistent h hn.1).passwd hq
  exact ⟨hother.trans s.passwd, s.smbpasswd, r, l, hr, hl, hgood, hnl, hru.trans hu⟩

theorem updateUser_settled {home smbpass : Line} (h : Consistent a) (hn : Name name)
    (hb : ∀ c ∈ home, isBlank c = false) (hs : ∀ c ∈ smbpass, c.isAlphanum = true ∨ c = ':')
    (hone : (userLines name a.smbpasswd).length = 1)
    (hex : expandWord (metaOnly t.files) ("home=".toList ++ home) = ["home=".toList ++ home])
    (hf : ∀ p ∈ mine name a.passwd, Fits name home p) :
    Settled name a (updateUser t name home smbpass a) := by
  rw [userLines_eq hn h.colon] at hone
  obtain ⟨l, hl⟩ := List.length_eq_one_iff.mp hone
  obtain ⟨hlmem, hlname⟩ := mine_single hl
  have hblank : l ≠ [] := by
    rintro rfl
    exact hn.1 hlname.symm
  obtain ⟨p, hp, -⟩ := h.known l (mem_records.mpr ⟨hlmem, hblank⟩)
  rw [hlname] at hp
  have hpl := h.passwd p (mine_single hp).1
  have hfit := hf p (by simp [hp])
  have hinfo := awkHome_eq h hn hp hb hex hfit
  have huid := uid_eq hn h.passwd hp
  obtain ⟨hother, q, hq, hgood, hqu⟩ := sed_passwd (t := t) h hn hp hfit
  obtain ⟨hsed, hnl⟩ := sed_smbpasswd t.other hn hpl.number.2 hs h.newline
  have hcolon : ':' ∉ name := hn.not_mem rfl
  have hnum : ':' ∉ field 2 p := fun hm => (hpl.record.2 (field 2 p) (by simp) _ hm).1 rfl
  obtain ⟨hzero, hone⟩ := smbLine_fields hcolon hnum smbpass [':']
  obtain ⟨hown, hothers⟩ := map_user_parts
    (f := fun _ => name ++ ':' :: field 2 p ++ ':' :: smbpass ++ [':']) hcolon hn.1 h.colon
    (fun _ _ _ => hzero) hl
  simp only [updateUser, hinfo, huid]
  rw [hsed]
  exact ⟨hother, hothers, q, _, hq, hown, hgood, hnl, hqu.trans hone.symm⟩

/-- A line of the user behind the others. -/
theorem append_parts {x : Line} (hx : field 0 x = name) (lines : List Line) :
    mine name (lines ++ [x]) = mine name lines ++ [x] ∧ others name (lines ++ [x]) = others name lines := by
  simp [mine, others, List.filter_append, hx]

theorem digits_text (n : Nat) : FieldText (Nat.toDigits 10 n) := by
  intro c hc
  have hd : c.isDigit = true := Nat.isDigit_of_mem_toDigits (by decide) (by decide) hc
  have hw : (c.isAlphanum || c == '_') = true := by simp [Char.isAlphanum, hd]
  have hn : c ∉ [':', '\n', '\x00'] := not_mem_of_word hw (by decide)
  simpa using hn

/-- The line of a new user. -/
theorem adduser_parts {home : Line} (h : Consistent a) (hn : Name name) (hne : home ≠ [])
    (hh : ∀ c ∈ home, isBlank c = false ∧ c ≠ '\n' ∧ c ≠ '\x00')
    (hex : expandWord (metaOnly t.files) home = [home])
    (hm : (mine name a.passwd = [] ∧ ':' ∉ home) ∨ (mine name a.passwd).length = 1) :
    others name (adduser t name home a.passwd) = others name a.passwd ∧
      ∃ q, mine name (adduser t name home a.passwd) = [q] ∧
        ∀ p ∈ adduser t name home a.passwd, PasswdLine p := by
  have hword : unquoted (metaOnly t.files) [home] = [home] := by
    rw [unquoted, List.flatMap_singleton, Word.split ⟨hne, fun c hc => (hh c hc).1⟩,
      List.flatMap_singleton, hex]
  have hany : a.passwd.any (fun l => decide (name ++ [':'] <+: l)) = true ↔ mine name a.passwd ≠ [] := by
    rw [← keyed_eq_mine (hn.not_mem rfl) hn.1 fun q hq _ => (h.passwd q hq).colon, keyed, ne_eq,
      List.filter_eq_nil_iff, List.any_eq_true]
    simp
  simp only [adduser, hword]
  rcases hm with ⟨hnone, hcolon⟩ | hone
  · rw [if_neg (by simp [hany, hnone])]
    have htext : ∀ x ∈ [name, ['x'], Nat.toDigits 10 (t.uid a.passwd),
        Nat.toDigits 10 (t.uid a.passwd), "Linux User,,,".toList, home, "/sbin/nologin".toList],
        FieldText x := by
      have hconst : FieldText ['x'] ∧ FieldText "Linux User,,,".toList ∧
          FieldText "/sbin/nologin".toList := by
        refine ⟨?_, ?_, ?_⟩ <;> (unfold FieldText; decide)
      have hhome : FieldText home := fun c hc => ⟨fun he => hcolon (he ▸ hc), (hh c hc).2⟩
      simpa using ⟨hn.text, hconst.1, digits_text _, hconst.2.1, hhome, hconst.2.2⟩
    obtain ⟨hgood, hzero, -⟩ := passwdLine_record htext ⟨Nat.toDigits_ne_nil, fun c hc =>
      Nat.isDigit_of_mem_toDigits (by decide) (by decide) hc⟩
    obtain ⟨hown, hother⟩ := append_parts hzero a.passwd
    rw [hnone, List.nil_append] at hown
    refine ⟨hother, _, hown, fun p hp => ?_⟩
    rcases List.mem_append.mp hp with hp | hp
    · exact h.passwd p hp
    · exact List.mem_singleton.mp hp ▸ hgood
  · obtain ⟨q, hq⟩ := List.length_eq_one_iff.mp hone
    rw [if_pos (by simp [hany, hq])]
    exact ⟨rfl, q, hq, h.passwd⟩

/-- A new line of `/etc/smbpasswd`. -/
theorem newRecord_lines {start : Line} (h : '\n' ∉ start) :
    textLines [] (start ++ ":[U]:LCT-4294967295\n".toList) =
        [start ++ ":[U]:LCT-4294967295".toList] ∧
      '\n' ∉ start ++ ":[U]:LCT-4294967295".toList := by
  have hsuffix : ":[U]:LCT-4294967295\n".toList = ":[U]:LCT-4294967295".toList ++ ['\n'] := by decide
  have hend : '\n' ∉ ":[U]:LCT-4294967295".toList := by decide
  have hline : '\n' ∉ start ++ ":[U]:LCT-4294967295".toList := by
    rw [List.mem_append, not_or]
    exact ⟨h, hend⟩
  rw [hsuffix, ← List.append_assoc]
  have := textLines_line hline [] []
  rw [List.nil_append] at this
  exact ⟨this, hline⟩

theorem createUser_settled {home smbpass : Line} (h : Consistent a) (hn : Name name) (hne : home ≠ [])
    (hh : ∀ c ∈ home, isBlank c = false ∧ c ≠ '\n' ∧ c ≠ '\x00')
    (hs : ∀ c ∈ smbpass, c.isAlphanum = true ∨ c = ':')
    (hnew : (userLines name a.smbpasswd).length ≠ 1)
    (hex : expandWord (metaOnly t.files) home = [home])
    (hm : (mine name a.passwd = [] ∧ ':' ∉ home) ∨ (mine name a.passwd).length = 1) :
    Settled name a (createUser t name home smbpass a) := by
  obtain ⟨hother, q, hq, hgood⟩ := adduser_parts h hn hne hh hex hm
  have hnone : mine name a.smbpasswd = [] := by
    rw [userLines_eq hn h.colon] at hnew
    have := (nodup_names _).mp h.unique name
    rw [mine_records_of_ne hn.1] at this
    exact List.length_eq_zero_iff.mp (by omega)
  have huid := uid_eq hn hgood hq
  have hql := hgood q (mine_single hq).1
  have hnum : FieldText (field 2 q) := hql.record.2 (field 2 q) (by simp)
  have hstart : '\n' ∉ name ++ ':' :: field 2 q ++ ':' :: smbpass := by
    have hname : '\n' ∉ name := hn.not_mem rfl
    have huid' : '\n' ∉ field 2 q := fun hm => (hnum _ hm).2.1 rfl
    have hpass : '\n' ∉ smbpass := fun hm => by
      rcases hs _ hm with hc | hc <;> cases hc
    simp only [List.mem_append, List.mem_cons, not_or]
    exact ⟨⟨hname, by decide, huid'⟩, by decide, hpass⟩
  obtain ⟨hlines, hline⟩ := newRecord_lines hstart
  obtain ⟨hzero, hone⟩ := smbLine_fields (hn.not_mem rfl) (fun hm => (hnum _ hm).1 rfl) smbpass
    ":[U]:LCT-4294967295".toList
  obtain ⟨hown, hothers⟩ := append_parts hzero a.smbpasswd
  rw [hnone, List.nil_append] at hown
  simp only [createUser, huid, hlines]
  exact ⟨hother, hothers, q, _, hq, hown, hql, hline, hone.symm⟩

theorem User.isName (user : User) : Name user.name :=
  ⟨fun he => absurd user.length.1 (by simp [he]), user.word⟩

/-- `smbpasswd -x`. -/
theorem delete_consistent (h : Consistent a) (hn : Name name) :
    Consistent (delete name a) ∧ others name (delete name a).passwd = others name a.passwd := by
  have hplain : ∀ c ∈ name ++ [':'], Plain c := by
    intro c hc
    rcases List.mem_append.mp hc with hc | hc
    · exact (plainEre_of_word (hn.2 c hc)).1
    · rw [List.mem_singleton.mp hc]
      decide
  have hpasswd : (a.passwd.filter fun l => ¬ name ++ [':'] <+: l) = others name a.passwd :=
    List.filter_congr fun l hl => by simp [prefix_iff_field (hn.not_mem rfl) hn.1 fun _ => (h.passwd l hl).colon]
  have hsmb : (a.smbpasswd.filter fun l => !grep ('^' :: (name ++ [':', '.', '*'])) l) =
      others name a.smbpasswd := by
    refine List.filter_congr fun l hl => ?_
    have hg := (grep_start hplain (by simp) l).2
    rw [prefix_iff_field (hn.not_mem rfl) hn.1 (h.colon l hl), List.append_assoc] at hg
    rw [Bool.eq_iff_iff, Bool.not_eq_true', ← Bool.not_eq_true, decide_eq_true_iff]
    exact not_congr hg
  have hnone (lines : List Line) : mine name (others name lines) = [] := by
    rw [mine, others, List.filter_filter, List.filter_eq_nil_iff]
    simp
  have hsame (lines : List Line) : others name (others name lines) = others name lines := by
    rw [others, others, List.filter_filter]
    simp
  rw [delete]
  split
  · rw [hpasswd, hsmb]
    refine ⟨h.of_parts hn.1 (hsame _) (hsame _) (fun p hp => ?_) (.inl (hnone _)), hsame _⟩
    rw [hnone] at hp
    cases hp
  · exact ⟨h, rfl⟩

/-- A word without pattern characters is an argument. -/
theorem unquoted_name (files : Line → List Line) (hn : Name name) :
    (splitWords name).flatMap (expandWord (metaOnly files)) = [name] := by
  have hplain := unquoted_plain files hn.1 fun c hc => not_mem_of_word (hn.2 c hc) (by decide)
  simpa [unquoted] using hplain

/-- One command. -/
theorem smbpasswd_consistent {c : Command} (h : Consistent a) (hok : CommandOk t a c) :
    Consistent (smbpasswd t a c) ∧ others c.user (smbpasswd t a c).passwd = others c.user a.passwd := by
  cases c with
  | remove user => exact delete_consistent h user.isName
  | add user home pass salt =>
    obtain ⟨hex, hcase⟩ := hok
    have hn := user.isName
    have hpass : Name pass.text := ⟨fun he => absurd pass.length.1 (by simp [he]), pass.word⟩
    have hhome : home.path ≠ [] := by
      intro he
      have := home.root
      rw [he] at this
      cases this
    have hargs : unquoted (metaOnly t.files) [user.name, home.path, pass.text] =
        [user.name, home.path, pass.text] := by
      have hword : Word home.path := ⟨hhome, fun c hc => (home.chars c hc).1⟩
      simp [unquoted, unquoted_name t.files hn, unquoted_name t.files hpass, hword.split, hex]
    have hsmb := t.smbencrypt_chars pass.text
    have hsettled : Settled user.name a
        (if (userLines user.name a.smbpasswd).length = 1 then
          updateUser t user.name home.path (t.smbencrypt pass.text) a
        else createUser t user.name home.path (t.smbencrypt pass.text) a) := by
      split at hcase
      · rename_i hone
        rw [if_pos hone]
        exact updateUser_settled h hn (fun c hc => (home.chars c hc).1) hsmb hone hcase.1 hcase.2
      · rename_i hnew
        rw [if_neg hnew]
        exact createUser_settled h hn hhome home.chars hsmb hnew hex hcase
    have hall := hsettled.chpasswd h hn (t.crypt_chars salt pass.text)
    have heq : smbpasswd t a (.add user home pass salt) =
        ⟨chpasswd user.name (t.crypt salt pass.text)
          (if (userLines user.name a.smbpasswd).length = 1 then
            updateUser t user.name home.path (t.smbencrypt pass.text) a
          else createUser t user.name home.path (t.smbencrypt pass.text) a).passwd,
          (if (userLines user.name a.smbpasswd).length = 1 then
            updateUser t user.name home.path (t.smbencrypt pass.text) a
          else createUser t user.name home.path (t.smbencrypt pass.text) a).smbpasswd⟩ := by
      rw [smbpasswd, hargs, setUser]
      simp only [List.getD_cons_zero, List.getD_cons_succ]
      rw [if_neg (by simp [hn.1, hhome, hpass.1])]
    rw [heq]
    exact ⟨hall.consistent h hn.1, hall.passwd⟩

/-- From consistent databases, by commands that fit: they are consistent in every state reached,
and so they are after one more command, which leaves the `passwd` lines of the others as they
were. -/
theorem accounts_consistent (t : Tools) {start a : Accounts} (h0 : Consistent start)
    (h : Reach (smbpasswdStep t) (CommandOk t) start a) :
    Consistent a ∧ ∀ c b, CommandOk t a c → smbpasswdStep t a c = some b →
      Consistent b ∧ others c.user b.passwd = others c.user a.passwd := by
  have hinv : Consistent a := by
    refine h.invariant (I := Consistent) h0 fun u c b hu hok hs => ?_
    obtain rfl := Option.some.inj hs
    exact (smbpasswd_consistent hu hok).1
  refine ⟨hinv, fun c b hok hs => ?_⟩
  obtain rfl := Option.some.inj hs
  exact smbpasswd_consistent hinv hok

end

/-- Programs for examples. -/
def sampleTools : Tools where
  files _ := []
  other _ lines := lines
  awk _ _ := []
  uid _ := 1000
  smbencrypt _ := "AA:BB".toList
  crypt _ _ := "cc".toList
  smbencrypt_chars _ := by decide
  crypt_chars _ _ := by decide

/-- The accounts that the device is shipped with. -/
def shipped : Accounts where
  passwd := ["root:$1$aFAQLTdM$HwH4OcICvSkHoskqaTsdF1:0:0:root:/root:/bin/sh".toList,
    "nobody::15:50:nobody:/usb:/sbin/nologin".toList, "ftp::14:50:ftp:/usb:/sbin/nologin".toList]
  smbpasswd := [[]]

theorem shipped_consistent : Consistent shipped := by
  obtain ⟨hpasswd, hnl, hnone⟩ : (∀ p ∈ shipped.passwd, (∀ c ∈ p, c ≠ '\n' ∧ c ≠ '\x00') ∧
      (p.splitOn ':').length = 7 ∧ field 2 p ≠ [] ∧ ∀ c ∈ field 2 p, c.isDigit = true) ∧
      (∀ l ∈ shipped.smbpasswd, '\n' ∉ l) ∧ records shipped.smbpasswd = [] := by decide +kernel
  refine ⟨fun p hp => ?_, hnl, hnone ▸ List.nodup_nil, fun l hl => ?_⟩
  · obtain ⟨htext, hseven, hnumber⟩ := hpasswd p hp
    exact ⟨htext, hseven, hnumber⟩
  · rw [hnone] at hl
    cases hl

/-- A device with one user. -/
def oneUser : Accounts where
  passwd := ["root:x:0:0:root:/root:/bin/sh".toList,
    "guest:x:1000:1000:Linux User,,,:/usb:/sbin/nologin".toList]
  smbpasswd := ["guest:1000:AA:BB:[U]:LCT-4294967295".toList]

theorem oneUser_consistent : Consistent oneUser := by
  obtain ⟨hpasswd, hnl, hunique, hknown⟩ : (∀ p ∈ oneUser.passwd,
      (∀ c ∈ p, c ≠ '\n' ∧ c ≠ '\x00') ∧ (p.splitOn ':').length = 7 ∧ field 2 p ≠ [] ∧
      ∀ c ∈ field 2 p, c.isDigit = true) ∧ (∀ l ∈ oneUser.smbpasswd, '\n' ∉ l) ∧
      (oneUser.smbpasswd.map (field 0)).Nodup ∧
      ∀ l ∈ oneUser.smbpasswd, ∃ p ∈ oneUser.passwd, mine (field 0 l) oneUser.passwd = [p] ∧
        field 2 p = field 1 l := by decide +kernel
  refine ⟨fun p hp => ?_, hnl, hunique, fun l hl => ?_⟩
  · obtain ⟨htext, hseven, hnumber⟩ := hpasswd p hp
    exact ⟨htext, hseven, hnumber⟩
  · obtain ⟨p, -, hp⟩ := hknown l hl
    exact ⟨p, hp⟩

def guest : User := ⟨"guest".toList, by decide, by decide⟩

def usbHome : Home := ⟨"/usb".toList, by decide, by decide⟩

def secret : Password := ⟨"secret".toList, by decide, by decide⟩

/-- The user moves to another folder. -/
def moveGuest (path : Line) (root : path.head? = some '/')
    (chars : ∀ c ∈ path, isBlank c = false ∧ c ≠ '\n' ∧ c ≠ '\x00') : Command :=
  .add ⟨"guest".toList, by decide, by decide⟩ ⟨path, root, chars⟩
    ⟨"secret".toList, by decide, by decide⟩ []

def moveToDisk : Command := moveGuest "/usb/disk".toList (by decide) (by decide)

def addGuest : Command := moveGuest "/usb".toList (by decide) (by decide)

/-- The first user of a device is created and moves to another folder. -/
theorem accounts_consistent_moved :
    Consistent (smbpasswd sampleTools (smbpasswd sampleTools shipped addGuest) moveToDisk) ∧
      (smbpasswd sampleTools (smbpasswd sampleTools shipped addGuest) moveToDisk).passwd =
        shipped.passwd ++ ["guest:cc:1000:1000:Linux User,,,:/usb/disk:/sbin/nologin".toList] ∧
      (smbpasswd sampleTools (smbpasswd sampleTools shipped addGuest) moveToDisk).smbpasswd =
        [[], "guest:1000:AA:BB:".toList] := by
  have hexpand (w : Line) : expandWord (metaOnly sampleTools.files) w = [w] := by
    simp [expandWord, metaOnly, sampleTools]
  have hadd : CommandOk sampleTools shipped addGuest := by
    have hnew : (userLines "guest".toList shipped.smbpasswd).length ≠ 1 := by decide +kernel
    have hfree : mine "guest".toList shipped.passwd = [] ∧ ':' ∉ "/usb".toList := by decide +kernel
    exact ⟨hexpand _, (if_neg hnew).mpr (.inl hfree)⟩
  have hmove : CommandOk sampleTools (smbpasswd sampleTools shipped addGuest) moveToDisk := by
    have hone : (userLines "guest".toList
        (smbpasswd sampleTools shipped addGuest).smbpasswd).length = 1 := by decide +kernel
    have hfit : ∀ p ∈ mine "guest".toList (smbpasswd sampleTools shipped addGuest).passwd,
        '_' ∉ "guest".toList ∧ ':' ∉ awkValue "/usb/disk".toList ∧
        ∀ c ∈ withHome (awkValue "/usb/disk".toList) p, Literal c ∧ c ≠ '_' := by decide +kernel
    exact ⟨hexpand _, (if_pos hone).mpr ⟨hexpand _, fun p hp => .inr (hfit p hp)⟩⟩
  exact ⟨(accounts_consistent sampleTools shipped_consistent
    ((Reach.start.next hadd rfl).next hmove rfl)).1, by decide +kernel⟩

def moveToLab : Command := moveGuest "/usb/R&D".toList (by decide) (by decide)

/-- Sed puts the old line for the `&` of a folder, and the user's line has more than seven fields. -/
theorem moved_line_mangled : Consistent oneUser ∧ ∃ b,
    Reach (smbpasswdStep sampleTools) anyStep oneUser b ∧ ¬ Consistent b := by
  have hmangled : (smbpasswd sampleTools oneUser moveToLab).passwd.all
      (fun p => (p.splitOn ':').length = 7) = false := by decide +kernel
  refine ⟨oneUser_consistent, _, Reach.start.next (a := moveToLab) trivial rfl, fun h => ?_⟩
  have hall : (smbpasswd sampleTools oneUser moveToLab).passwd.all
      (fun p => (p.splitOn ':').length = 7) = true :=
    List.all_eq_true.mpr fun p hp => decide_eq_true (h.passwd p hp).seven
  rw [hmangled] at hall
  cases hall

end SnakeOs.Samba.Smbpasswd
