import SnakeOs.Samba.Accounts
import SnakeOs.Samba.Arguments

/-! The accounts that the guard of `smbpasswd` is for. -/

namespace SnakeOs.Samba.Smbpasswd
open Lib

def systemUsers : List Line := ["root", "nobody", "ftp"].map String.toList

/-- No record of a system account changed, and no program was called for one. -/
structure Protected (start d : Device) : Prop where
  passwd : ∀ n ∈ systemUsers, mine n d.accounts.passwd = mine n start.accounts.passwd
  smbpasswd : ∀ n ∈ systemUsers, mine n d.accounts.smbpasswd = mine n start.accounts.smbpasswd
  calls : ∀ c ∈ d.calls, ∀ n ∈ systemUsers, n ∉ c.users

/-- The files are lists of lines. -/
structure Filed (a : Accounts) : Prop where
  passwd : ∀ l ∈ a.passwd, ∀ c ∈ l, c ≠ '\n' ∧ c ≠ '\x00'
  smbpasswd : ∀ l ∈ a.smbpasswd, '\n' ∉ l

/-- The shell, `grep`, sed and `adduser` take the name as it is. -/
structure PlainName (name : Line) : Prop where
  nonempty : name ≠ []
  dash : name.head? ≠ some '-'
  chars : ∀ c ∈ name, PlainEre c ∧ c ∉ [':', ',', '/', '&', ' ', '\t', '\n', '\x00']

/-- What sed makes of the user's record with the new home: it refuses the command, or the name and
the record have no character that it reads. -/
def RecordFits (name info : Line) : Prop :=
  '\n' ∉ info ∧ (readSubst (substCmd '_' ['^'] (name ++ [':']) info) = .refused ∨
    '_' ∉ name ∧ ∀ c ∈ info, Literal c ∧ c ≠ '_')

/-- An update of a user whose record sed takes as it is. -/
structure UpdateOk (t : Host) (name home : Line) (a : Accounts) : Prop where
  word : t.words ["home=".toList ++ home] = ["home=".toList ++ home]
  record : RecordFits name
    (((keyed (name ++ [':']) a.passwd).map (withHome (awkValue home))).headD [])
  uid : ∀ p ∈ keyed (name ++ [':']) a.passwd, ∀ c ∈ cutField ':' 3 p, Literal c ∧ c ≠ ','

/-- A name that is no system account, with texts that are taken as they are. -/
structure AddOk (t : Host) (name home pass : Line) (a : Accounts) : Prop where
  plain : PlainName name
  other : name ∉ systemUsers
  input : ∀ w ∈ t.words [name ++ ':' :: pass], '\n' ∉ w
  single : (keyed (name ++ [':']) a.passwd).length ≤ 1
  update : (t.found name a.smbpasswd).length = 1 → UpdateOk t name home a
  create : (t.found name a.smbpasswd).length ≠ 1 → ∀ w ∈ t.words [home], ∀ c ∈ w, c ≠ '\n' ∧ c ≠ '\x00'

/-- The condition on a command in the state before it. -/
def RequestOk (t : Host) (d : Device) : Request → Prop
  | .add args _ =>
    let ws := t.words (args.take 3)
    t.accepts (ws.getD 0 []) (ws.getD 1 []) (ws.getD 2 []) = true →
      AddOk t (ws.getD 0 []) (ws.getD 1 []) (ws.getD 2 []) d.accounts
  | .remove args =>
    let name := (t.words (args.take 1)).getD 0 []
    t.removes name d.accounts = true → PlainName name ∧ name ∉ systemUsers

section
variable {t : Host} {name n : Line} {lines : List Line}

theorem PlainName.not_mem (h : PlainName name) {c : Char}
    (hc : c ∈ [':', ',', '/', '&', ' ', '\t', '\n', '\x00']) : c ∉ name :=
  fun hm => (h.chars c hm).2 hc

theorem PlainName.colon (h : PlainName name) : ':' ∉ name := h.not_mem (by decide)

theorem PlainName.words (h : PlainName name) : t.words [name] = [name] := by
  have hn : '\n' ∉ name := h.not_mem (by decide)
  rw [Host.words, List.flatMap_singleton, textLines_end hn, List.nil_append, if_neg h.nonempty]
  refine unquoted_plain t.files h.nonempty fun c hc hm => ?_
  obtain ⟨⟨hplain, here⟩, hother⟩ := h.chars c hc
  simp only [List.mem_cons, List.not_mem_nil, or_false] at hm
  rcases hm with rfl | rfl | rfl | rfl | rfl
  · exact hother (by decide)
  · exact hother (by decide)
  · exact absurd hplain (by decide)
  · exact absurd here (by decide)
  · exact absurd hplain (by decide)

theorem PlainName.found (h : PlainName name) : t.found name lines = keyed (name ++ [':']) lines := by
  have hplain : ∀ c ∈ name ++ [':'], Plain c := by
    intro c hc
    rcases List.mem_append.mp hc with hc | hc
    · exact (h.chars c hc).1.1
    · rw [List.mem_singleton.mp hc]
      decide
  have hn : '\n' ∉ '^' :: (name ++ [':']) := by
    have hname : '\n' ∉ name := h.not_mem (by decide)
    simp [hname]
  refine List.filter_congr fun l _ => ?_
  rw [List.splitOn_eq_singleton hn, List.any_cons, List.any_nil, Bool.or_false]
  simp only [List.head?_cons, ↓reduceIte, List.tail_cons,
    parsePattern_dotted_all (fun c hc => .inl (hplain c hc)) true, Option.isSome_some]
  rw [Bool.eq_iff_iff, (grep_start hplain (by simp) l).1, decide_eq_true_iff]

/-- A change to lines of others leaves the lines of a name. -/
theorem mine_map {f : Line → Line}
    (h : ∀ l ∈ lines, f l = l ∨ field 0 l ≠ n ∧ field 0 (f l) ≠ n) :
    mine n (lines.map f) = mine n lines := by
  induction lines with
  | nil => rfl
  | cons l lines ih =>
    have ih' := ih fun x hx => h x (List.mem_cons_of_mem l hx)
    simp only [mine] at ih' ⊢
    rw [List.map_cons, List.filter_cons, List.filter_cons, ih']
    rcases h l List.mem_cons_self with he | ⟨h1, h2⟩
    · rw [he]
    · simp [h1, h2]

theorem mine_filter {p : Line → Bool} (h : ∀ l ∈ lines, field 0 l = n → p l = true) :
    mine n (lines.filter p) = mine n lines := by
  rw [mine, List.filter_filter]
  refine List.filter_congr fun l hl => ?_
  by_cases hn : field 0 l = n
  · simp [hn, h l hl hn]
  · simp [hn]

theorem mine_append {more : List Line} (h : ∀ l ∈ more, field 0 l ≠ n) :
    mine n (lines ++ more) = mine n lines := by
  have hnone : mine n more = [] := List.filter_eq_nil_iff.mpr fun l hl => by simpa using h l hl
  rw [mine, List.filter_append, ← mine, ← mine, hnone, List.append_nil]

/-- A line that a name starts is the name's. -/
theorem field_of_start (hc : ':' ∉ name) {l : Line} (h : name ++ [':'] <+: l) : field 0 l = name := by
  obtain ⟨rest, rfl⟩ := h
  rw [List.append_assoc]
  exact field_zero hc

theorem mine_setLines {text : Line} (hc : ':' ∉ name) (hne : n ≠ name)
    (ht : (∃ l ∈ lines, name ++ [':'] <+: l) → field 0 text = name) :
    mine n (setLines (name ++ [':']) text lines) = mine n lines := by
  refine mine_map fun l hl => ?_
  by_cases hp : name ++ [':'] <+: l
  · rw [if_pos hp]
    exact .inr ⟨fun he => hne (he.symm.trans (field_of_start hc hp)),
      fun he => hne (he.symm.trans (ht ⟨l, hl, hp⟩))⟩
  · exact .inl (if_neg hp)

theorem field_withHome (home p : Line) : field 0 (withHome home p) = field 0 p := by
  have hzero : ':' ∉ field 0 p := by
    rw [field, List.getD_eq_getElem?_getD]
    cases hw : (p.splitOn ':')[0]? with
    | none => simp
    | some w => exact not_mem_splitOn ':' p w (List.mem_of_getElem? hw)
  rw [withHome, List.intercalate_cons_cons, List.append_assoc]
  exact field_zero hzero

/-- Only the lines of one name change, and the files stay lists of lines. -/
structure Spares (name : Line) (a b : Accounts) : Prop where
  passwd : ∀ n, n ≠ name → mine n b.passwd = mine n a.passwd
  smbpasswd : ∀ n, n ≠ name → mine n b.smbpasswd = mine n a.smbpasswd
  filed : Filed b

theorem Spares.trans {a b c : Accounts} (h : Spares name a b) (h' : Spares name b c) : Spares name a c :=
  ⟨fun n hne => (h'.passwd n hne).trans (h.passwd n hne),
    fun n hne => (h'.smbpasswd n hne).trans (h.smbpasswd n hne), h'.filed⟩

/-- The number that the script reads is a field of the name's only line. -/
theorem readUid_cases {a : Accounts} (hn : PlainName name) (hfiled : Filed a)
    (hone : (keyed (name ++ [':']) a.passwd).length ≤ 1) :
    t.readUid name a.passwd = [] ∨
      ∃ p ∈ keyed (name ++ [':']) a.passwd, t.readUid name a.passwd = cutField ':' 3 p := by
  rw [Host.readUid, hn.found]
  cases hk : keyed (name ++ [':']) a.passwd with
  | nil => exact .inl rfl
  | cons p rest =>
    obtain rfl : rest = [] := by
      rw [hk] at hone
      exact List.length_eq_zero_iff.mp (by simpa using hone)
    have hmem : p ∈ a.passwd := List.mem_of_mem_filter (hk ▸ List.mem_singleton_self p)
    exact .inr ⟨p, List.mem_singleton_self p,
      substLines_single fun c hc => hfiled.passwd p hmem c (mem_of_mem_cutField hc)⟩

/-- What awk prints is the name's only line with the new home. -/
theorem userinfo_eq {a : Accounts} {home : Line} (hn : PlainName name) (hfiled : Filed a)
    (hone : (keyed (name ++ [':']) a.passwd).length ≤ 1) (hok : UpdateOk t name home a) :
    t.userinfo home (t.found name a.passwd) =
      ((keyed (name ++ [':']) a.passwd).map (withHome (awkValue home))).headD [] := by
  have hdrop : ("home=".toList ++ home).drop 5 = home := List.drop_left' (by decide)
  have hnl := hok.record.1
  simp only [Host.userinfo, hok.word, hn.found]
  rw [if_pos (List.prefix_append _ _), hdrop]
  cases hk : keyed (name ++ [':']) a.passwd with
  | nil => rfl
  | cons p rest =>
    rw [hk] at hone hnl
    obtain rfl : rest = [] := List.length_eq_zero_iff.mp (by simpa using hone)
    have hmem : p ∈ a.passwd := List.mem_of_mem_filter (hk ▸ List.mem_singleton_self p)
    have hnul := withHome_nul home fun hm => (hfiled.passwd p hmem _ hm).2 rfl
    exact substLines_single fun c hc => ⟨fun he => hnl (he ▸ hc), fun he => hnul (he ▸ hc)⟩

theorem PlainName.literal (h : PlainName name) :
    ∀ c ∈ name ++ [':'], PlainEre c ∧ Literal c ∧ c ≠ ',' := by
  intro c hc
  rcases List.mem_append.mp hc with hc | hc
  · obtain ⟨hplain, hother⟩ := h.chars c hc
    simp only [List.mem_cons, List.not_mem_nil, or_false, not_or] at hother
    have hback : c ≠ '\\' := fun he => absurd (he ▸ hplain.1) (by decide)
    exact ⟨hplain, ⟨hback, hother.2.2.2.1, hother.2.2.2.2.2.2.1⟩, hother.2.1⟩
  · rw [List.mem_singleton.mp hc]
    decide

/-- Sed refuses the command for `/etc/passwd`, or it puts the record for the name's lines. -/
theorem sed_info {info : Line} (hn : PlainName name) (hfits : RecordFits name info)
    (hl : ∀ l ∈ lines, '\n' ∉ l) :
    sed t.other (substCmd '_' ['^'] (name ++ [':']) info) lines = lines ∨
      sed t.other (substCmd '_' ['^'] (name ++ [':']) info) lines =
        setLines (name ++ [':']) info lines := by
  obtain ⟨hnl, href | ⟨hu, hinfo⟩⟩ := hfits
  · rw [sed_read (by decide) (by decide) (fun hm => (hn.literal _ hm).2.1.2.2 rfl) hnl, href]
    exact .inl rfl
  · exact .inr (sed_start ⟨by decide, by simpa using hu, fun hm => (hinfo _ hm).2 rfl⟩ (by decide)
      (fun c hc => ⟨(hn.literal c hc).1, (hn.literal c hc).2.1.2.2⟩) (fun c hc => (hinfo c hc).1) hl)

/-- The new record is of the user and a line. -/
theorem record_line {a : Accounts} (home : Line) (hn : PlainName name) (hfiled : Filed a) :
    ((∃ l ∈ a.passwd, name ++ [':'] <+: l) →
        field 0 (((keyed (name ++ [':']) a.passwd).map (withHome (awkValue home))).headD []) = name) ∧
      '\x00' ∉ ((keyed (name ++ [':']) a.passwd).map (withHome (awkValue home))).headD [] := by
  cases hk : keyed (name ++ [':']) a.passwd with
  | nil =>
    refine ⟨fun ⟨l, hl, hp⟩ => ?_, List.not_mem_nil⟩
    have hmem : l ∈ keyed (name ++ [':']) a.passwd := List.mem_filter.mpr ⟨hl, decide_eq_true hp⟩
    rw [hk] at hmem
    cases hmem
  | cons p rest =>
    have hkey : p ∈ keyed (name ++ [':']) a.passwd := hk ▸ List.mem_cons_self
    obtain ⟨hmem, hp⟩ := List.mem_filter.mp hkey
    refine ⟨fun _ => ?_, withHome_nul home fun hm => (hfiled.passwd p hmem _ hm).2 rfl⟩
    exact (field_withHome _ p).trans (field_of_start hn.colon (of_decide_eq_true hp))

theorem updateUser_spares {a : Accounts} {home smbpass : Line} (hn : PlainName name) (hfiled : Filed a)
    (hs : ∀ c ∈ smbpass, c.isAlphanum = true ∨ c = ':')
    (hone : (keyed (name ++ [':']) a.passwd).length ≤ 1) (hok : UpdateOk t name home a) :
    Spares name a (t.updateUser name home smbpass a) := by
  obtain ⟨hfield, hnul⟩ := record_line home hn hfiled
  have hfits := hok.record
  rw [Host.updateUser, userinfo_eq hn hfiled hone hok]
  generalize ((keyed (name ++ [':']) a.passwd).map (withHome (awkValue home))).headD [] = info
    at hfield hnul hfits
  have hpasswd := sed_info (t := t) hn hfits fun l hl hm => (hfiled.passwd l hl _ hm).1 rfl
  have huid : ∀ c ∈ t.readUid name a.passwd, Literal c ∧ c ≠ ',' := by
    rcases readUid_cases hn hfiled hone with hu | ⟨p, hp, hu⟩
    · rw [hu]
      exact nofun
    · rw [hu]
      exact hok.uid p hp
  obtain ⟨hsmb, hline⟩ := sed_record t.other hn.literal huid hs hfiled.smbpasswd
  have hsmbfield :
      field 0 (name ++ ':' :: t.readUid name a.passwd ++ ':' :: smbpass ++ [':']) = name := by
    rw [List.append_assoc, List.append_assoc]
    exact field_zero hn.colon
  refine ⟨fun n hne => ?_, fun n hne => ?_, fun l hl => ?_, fun l hl => ?_⟩
  · rcases hpasswd with he | he
    · exact congrArg (mine n) he
    · exact (congrArg (mine n) he).trans (mine_setLines hn.colon hne hfield)
  · exact (congrArg (mine n) hsmb).trans (mine_setLines hn.colon hne fun _ => hsmbfield)
  · rcases hpasswd with he | he
    · exact hfiled.passwd l (he ▸ hl)
    · rcases mem_setLines (he ▸ hl) with rfl | hl
      · exact fun c hc => ⟨fun h => hfits.1 (h ▸ hc), fun h => hnul (h ▸ hc)⟩
      · exact hfiled.passwd l hl
  · rcases mem_setLines (hsmb ▸ hl) with rfl | hl
    · exact hline
    · exact hfiled.smbpasswd l hl

/-- A text that fits in a line. -/
def Flat (w : Line) : Prop := ∀ c ∈ w, c ≠ '\n' ∧ c ≠ '\x00'

/-- The texts of a new record. -/
structure AddUser.Flat (o : AddUser) : Prop where
  home : ∀ h, o.home = some h → Smbpasswd.Flat h
  gecos : Smbpasswd.Flat o.gecos
  shell : Smbpasswd.Flat o.shell

theorem AddUser.set_flat {o : AddUser} (ho : o.Flat) {v : Line} (hv : Smbpasswd.Flat v) (c : Char) :
    (o.set c v).Flat ∧ (o.set c v).operands = o.operands := by
  unfold AddUser.set
  split_ifs
  · exact ⟨⟨fun h he => Option.some.inj he ▸ hv, ho.gecos, ho.shell⟩, rfl⟩
  · exact ⟨⟨ho.home, hv, ho.shell⟩, rfl⟩
  · exact ⟨⟨ho.home, ho.gecos, hv⟩, rfl⟩
  · exact ⟨⟨ho.home, ho.gecos, ho.shell⟩, rfl⟩
  · exact ⟨⟨ho.home, ho.gecos, ho.shell⟩, rfl⟩

theorem AddUser.letters_flat {o o' : AddUser} {w : Line} {c : Option Char} (ho : o.Flat)
    (hw : Smbpasswd.Flat w) (h : o.letters w = some (o', c)) : o'.Flat ∧ o'.operands = o.operands := by
  induction w generalizing o with
  | nil =>
    simp only [AddUser.letters, Option.some.injEq, Prod.mk.injEq] at h
    exact h.1 ▸ ⟨ho, rfl⟩
  | cons d w ih =>
    have hw' : Smbpasswd.Flat w := fun x hx => hw x (List.mem_cons_of_mem d hx)
    rw [AddUser.letters] at h
    split_ifs at h with hv hnil hs hd
    · simp only [Option.some.injEq, Prod.mk.injEq] at h
      exact h.1 ▸ ⟨ho, rfl⟩
    · simp only [Option.some.injEq, Prod.mk.injEq] at h
      exact h.1 ▸ AddUser.set_flat ho hw' d
    · exact ih (o := { o with system := true }) ⟨ho.home, ho.gecos, ho.shell⟩ hw' h
    · exact ih ho hw' h

/-- `getopt` keeps the operands that it has. -/
theorem AddUser.parse_flat {o o' : AddUser} {ws : List Line} (ho : o.Flat)
    (hws : ∀ w ∈ ws, Smbpasswd.Flat w) (h : o.parse ws = some o') :
    o'.Flat ∧ o.operands <+: o'.operands := by
  fun_induction AddUser.parse o ws with
  | case1 o => exact Option.some.inj h ▸ ⟨ho, List.prefix_refl _⟩
  | case2 o ws => exact Option.some.inj h ▸ ⟨⟨ho.home, ho.gecos, ho.shell⟩, List.prefix_append _ _⟩
  | case3 o w ws hend hdash hnone => cases h
  | case4 o w ws hend hdash u hletters ih =>
    have htail : Smbpasswd.Flat w.tail := fun c hc =>
      hws w List.mem_cons_self c (List.mem_of_mem_tail hc)
    obtain ⟨hu, hop⟩ := AddUser.letters_flat ho htail hletters
    obtain ⟨ho', hpre⟩ := ih hu (fun x hx => hws x (List.mem_cons_of_mem w hx)) h
    exact ⟨ho', hop ▸ hpre⟩
  | case5 o w hend hdash u letter hletters => cases h
  | case6 o w hend hdash u letter hletters v ws ih =>
    have htail : Smbpasswd.Flat w.tail := fun c hc =>
      hws w List.mem_cons_self c (List.mem_of_mem_tail hc)
    obtain ⟨hu, hop⟩ := AddUser.letters_flat ho htail hletters
    obtain ⟨hset, hop'⟩ := AddUser.set_flat hu (hws v (by simp)) letter
    obtain ⟨ho', hpre⟩ := ih hset (fun x hx => hws x (by simp [hx])) h
    exact ⟨ho', hop ▸ hop' ▸ hpre⟩
  | case7 o w ws hend hdash ih =>
    obtain ⟨ho', hpre⟩ := ih ⟨ho.home, ho.gecos, ho.shell⟩
      (fun x hx => hws x (List.mem_cons_of_mem w hx)) h
    exact ⟨ho', (List.prefix_append _ _).trans hpre⟩

/-- With a plain name in front, the only user that `adduser` can take is the name. -/
theorem parse_name {o : AddUser} {ws : List Line} (hn : PlainName name)
    (hws : ∀ w ∈ ws, Smbpasswd.Flat w) (h : noOptions.parse (name :: ws) = some o) :
    o.Flat ∧ ∀ user, o.operands = [user] → user = name := by
  have hflat : noOptions.Flat := by
    have htexts : Smbpasswd.Flat noOptions.gecos ∧ Smbpasswd.Flat noOptions.shell := by
      unfold Smbpasswd.Flat
      decide
    exact ⟨nofun, htexts.1, htexts.2⟩
  have hend : name ≠ ['-', '-'] := fun he => hn.dash (by rw [he]; rfl)
  rw [AddUser.parse, if_neg hend, if_neg fun hd => hn.dash hd.1] at h
  obtain ⟨ho, rest, hrest⟩ := AddUser.parse_flat (o := { noOptions with
    operands := noOptions.operands ++ [name] }) ⟨hflat.home, hflat.gecos, hflat.shell⟩ hws h
  refine ⟨ho, fun user hu => ?_⟩
  have hcons : name :: rest = [user] := hrest.trans hu
  exact (List.cons.inj hcons).1.symm

theorem flat_intercalate {ws : List Line} (h : ∀ w ∈ ws, Flat w) : Flat ([':'].intercalate ws) := by
  intro c hc
  rcases mem_intercalate hc with rfl | ⟨w, hw, hc⟩
  · decide
  · exact h w hw c hc

theorem PlainName.flat (h : PlainName name) : Flat name := fun c hc =>
  ⟨fun he => h.not_mem (c := '\n') (by decide) (he ▸ hc),
    fun he => h.not_mem (c := '\x00') (by decide) (he ▸ hc)⟩

/-- The fields behind the name of a new record. -/
theorem AddUser.Flat.fields {o : AddUser} (ho : o.Flat) (hn : PlainName name) (uid gid : Nat) :
    Smbpasswd.Flat ([':'].intercalate [['x'], Nat.toDigits 10 uid, Nat.toDigits 10 gid, o.gecos,
      o.home.getD ("/home/".toList ++ name), o.shell]) := by
  have hdigits (n : Nat) : Smbpasswd.Flat (Nat.toDigits 10 n) := fun c hc => (digits_text n c hc).2
  have hhome : Smbpasswd.Flat (o.home.getD ("/home/".toList ++ name)) := by
    cases hh : o.home with
    | none =>
      have hstart : ∀ c ∈ "/home/".toList, c ≠ '\n' ∧ c ≠ '\x00' := by decide
      exact fun c hc => (List.mem_append.mp hc).elim (hstart c) (hn.flat c)
    | some h => exact ho.home h hh
  refine flat_intercalate fun w hw => ?_
  simp only [List.mem_cons, List.not_mem_nil, or_false] at hw
  rcases hw with rfl | rfl | rfl | rfl | rfl | rfl
  · unfold Smbpasswd.Flat
    decide
  · exact hdigits uid
  · exact hdigits gid
  · exact ho.gecos
  · exact hhome
  · exact ho.shell

/-- `adduser` leaves the file or appends a line of the name. -/
theorem adduser_appends {ws : List Line} (passwd : List Line) (hn : PlainName name)
    (hws : ∀ w ∈ ws, Flat w) :
    t.adduser (name :: ws) passwd = passwd ∨ ∃ l, t.adduser (name :: ws) passwd = passwd ++ [l] ∧
      name ++ [':'] <+: l ∧ Flat l ∧ keyed (name ++ [':']) passwd = [] := by
  rw [Host.adduser]
  split
  · rename_i o ho
    obtain ⟨hflat, hname⟩ := parse_name hn hws ho
    split
    · rename_i user uid gid hu _
      obtain rfl := hname user hu
      split
      · exact .inl rfl
      · rename_i hused
        have hrest := hflat.fields hn uid gid
        generalize [':'].intercalate [['x'], Nat.toDigits 10 uid, Nat.toDigits 10 gid, o.gecos,
          o.home.getD ("/home/".toList ++ user), o.shell] = rest at hrest
        have hline : Flat (user ++ ':' :: rest) := by
          intro c hc
          rcases List.mem_append.mp hc with hc | hc
          · exact hn.flat c hc
          · rcases List.mem_cons.mp hc with rfl | hc
            · decide
            · exact hrest c hc
        have hlines : textLines [] (user ++ ':' :: (rest ++ ['\n'])) = [user ++ ':' :: rest] := by
          have htext : user ++ ':' :: (rest ++ ['\n']) = (user ++ ':' :: rest) ++ '\n' :: [] := by simp
          rw [htext, textLines_line fun hm => (hline _ hm).1 rfl]
          rfl
        refine .inr ⟨_, congrArg (passwd ++ ·) hlines, ⟨rest, by simp⟩, hline, ?_⟩
        rw [keyed, List.filter_eq_nil_iff]
        intro l hl hp
        exact hused (List.any_eq_true.mpr ⟨l, hl, hp⟩)
    · exact .inl rfl
  · exact .inl rfl

/-- `adduser` is given the name and texts that fit in a line. -/
theorem addArgs_eq {home : Line} (hn : PlainName name) (hhome : ∀ w ∈ t.words [home], Flat w) :
    ∃ ws, t.addArgs name home = name :: ws ∧ ∀ w ∈ ws, Flat w := by
  have hfixed : ∀ w ∈ "-h".toList :: ["-D", "-H", "-s", "/sbin/nologin"].map String.toList,
      ∀ c ∈ w, c ≠ '\n' ∧ c ≠ '\x00' := by decide
  refine ⟨"-h".toList :: (t.words [home] ++ ["-D", "-H", "-s", "/sbin/nologin"].map String.toList),
    by rw [Host.addArgs, hn.words]; rfl, fun w hw => ?_⟩
  simp only [List.mem_cons, List.mem_append] at hw hfixed
  rcases hw with rfl | hw | hw
  · exact hfixed _ (.inl rfl)
  · exact hhome w hw
  · exact hfixed w (.inr hw)

/-- `adduser` leaves the lines of the others, and the name has one line at most. -/
theorem adduser_spares {a : Accounts} {ws : List Line} (hn : PlainName name) (hfiled : Filed a)
    (hone : (keyed (name ++ [':']) a.passwd).length ≤ 1) (hws : ∀ w ∈ ws, Flat w) :
    Spares name a ⟨t.adduser (name :: ws) a.passwd, a.smbpasswd⟩ ∧
      (keyed (name ++ [':']) (t.adduser (name :: ws) a.passwd)).length ≤ 1 := by
  rcases adduser_appends (t := t) a.passwd hn hws with he | ⟨l, he, hp, hl, hnone⟩
  · rw [he]
    exact ⟨⟨fun _ _ => rfl, fun _ _ => rfl, hfiled⟩, hone⟩
  · rw [he]
    refine ⟨⟨fun n hne => mine_append fun x hx => ?_, fun _ _ => rfl, fun x hx => ?_,
      hfiled.smbpasswd⟩, ?_⟩
    · rw [List.mem_singleton.mp hx, field_of_start hn.colon hp]
      exact Ne.symm hne
    · rcases List.mem_append.mp hx with hx | hx
      · exact hfiled.passwd x hx
      · exact List.mem_singleton.mp hx ▸ hl
    · rw [keyed, List.filter_append, ← keyed, hnone, List.nil_append]
      exact List.length_filter_le _ [l]

/-- The record that `echo` appends to `/etc/smbpasswd`. -/
theorem echo_newRecord {start : Line} (hcolon : ':' ∈ start) (hn : '\n' ∉ start) :
    textLines [] (echo [start ++ ":[U]:LCT-4294967295".toList]) =
        [start ++ ":[U]:LCT-4294967295".toList] ∧
      '\n' ∉ start ++ ":[U]:LCT-4294967295".toList := by
  have hend : ":[U]:LCT-4294967295\n".toList = ":[U]:LCT-4294967295".toList ++ ['\n'] := by decide
  have hrecord := newRecord_lines hn
  rw [hend, ← List.append_assoc] at hrecord
  rw [echo_text (not_echoOption (List.mem_append_left _ hcolon)), List.intercalate_singleton]
  exact hrecord

theorem createUser_spares {a : Accounts} {home smbpass : Line} (hn : PlainName name) (hfiled : Filed a)
    (hs : ∀ c ∈ smbpass, c.isAlphanum = true ∨ c = ':')
    (hone : (keyed (name ++ [':']) a.passwd).length ≤ 1) (hhome : ∀ w ∈ t.words [home], Flat w) :
    Spares name a (t.createUser name home smbpass a) := by
  obtain ⟨ws, hargs, hws⟩ := addArgs_eq (t := t) hn hhome
  obtain ⟨hadd, hsingle⟩ := adduser_spares (t := t) hn hfiled hone hws
  rw [Host.createUser, hargs]
  generalize t.adduser (name :: ws) a.passwd = passwd at hadd hsingle
  have huid : '\n' ∉ t.readUid name passwd := by
    rcases readUid_cases (t := t) hn hadd.filed hsingle with hu | ⟨p, hp, hu⟩
    · rw [show t.readUid name passwd = [] from hu]
      exact List.not_mem_nil
    · rw [show t.readUid name passwd = cutField ':' 3 p from hu]
      exact fun hm => (hadd.filed.passwd p (List.mem_of_mem_filter hp) _ (mem_of_mem_cutField hm)).1 rfl
  have hstart : '\n' ∉ name ++ ':' :: t.readUid name passwd ++ ':' :: smbpass := by
    simp only [List.mem_append, List.mem_cons, not_or]
    refine ⟨⟨hn.not_mem (by decide), by decide, huid⟩, by decide, fun hm => ?_⟩
    rcases hs _ hm with hc | hc <;> cases hc
  obtain ⟨hlines, hnl⟩ := echo_newRecord (by simp) hstart
  refine ⟨hadd.passwd, fun n hne => mine_append fun x hx => ?_, hadd.filed.passwd, fun x hx => ?_⟩
  · rw [hlines] at hx
    rw [List.mem_singleton.mp hx, List.append_assoc, List.append_assoc]
    exact fun he => hne (he.symm.trans (field_zero hn.colon))
  · rcases List.mem_append.mp hx with hx | hx
    · exact hfiled.smbpasswd x hx
    · rw [hlines] at hx
      exact List.mem_singleton.mp hx ▸ hnl

/-- `chpasswd` is sent one line, which is for the name. -/
theorem chpasswdInput_eq (hfiles : Expands t.files) (hn : PlainName name) {pass : Line}
    (hwords : ∀ w ∈ t.words [name ++ ':' :: pass], '\n' ∉ w) :
    ∃ rest, t.chpasswdInput name pass = [name ++ ':' :: rest] := by
  have hchar : ∀ c ∈ name ++ [':'], isBlank c = false ∧ c ≠ '\n' ∧ c ∉ metaChars := by
    intro c hc
    rcases List.mem_append.mp hc with hc | hc
    · obtain ⟨⟨hplain, here⟩, hother⟩ := hn.chars c hc
      simp only [List.mem_cons, List.not_mem_nil, or_false, not_or] at hother
      refine ⟨by simp [isBlank, hother.2.2.2.2.1, hother.2.2.2.2.2.1], hother.2.2.2.2.2.2.1,
        fun hm => ?_⟩
      simp only [metaChars, List.mem_cons, List.not_mem_nil, or_false] at hm
      rcases hm with rfl | rfl | rfl
      · exact absurd hplain (by decide)
      · exact absurd here (by decide)
      · exact absurd hplain (by decide)
    · rw [List.mem_singleton.mp hc]
      decide
  have htext : name ++ ':' :: pass = (name ++ [':']) ++ pass := by simp
  rw [Host.words, List.flatMap_singleton, htext] at hwords
  obtain ⟨rest, hrest⟩ := echo_start hfiles pass (by simp) (fun c hc => (hchar c hc).1)
    (fun hm => (hchar _ hm).2.1 rfl) (fun c hc => (hchar c hc).2.2) hwords
  refine ⟨rest, ?_⟩
  rw [Host.chpasswdInput, Host.words, List.flatMap_singleton, htext, hrest, List.append_assoc]
  rfl

theorem takeWhile_name (hn : ':' ∉ name) (rest : Line) :
    (name ++ ':' :: rest).takeWhile (· ≠ ':') = name := by
  have hall : ∀ c ∈ name, decide (c ≠ ':') = true := fun c hc => decide_eq_true fun he => hn (he ▸ hc)
  rw [List.takeWhile_append_of_pos hall]
  simp

theorem chpasswd_spares {a : Accounts} {rest : Line} (hn : PlainName name) (hfiled : Filed a)
    (salt : Nat → Line) :
    Spares name a ⟨t.chpasswd salt 0 [name ++ ':' :: rest] a.passwd, a.smbpasswd⟩ := by
  simp only [Host.chpasswd, takeWhile_name hn.colon]
  split
  · have hhash := t.crypt_chars (salt 0) (((name ++ ':' :: rest).dropWhile (· ≠ ':')).drop 1)
    generalize t.crypt (salt 0) (((name ++ ':' :: rest).dropWhile (· ≠ ':')).drop 1) = hash at hhash
    refine ⟨fun n hne => mine_map fun l _ => ?_, fun _ _ => rfl, fun l hl => ?_, hfiled.smbpasswd⟩
    · by_cases hp : name ++ [':'] <+: l
      · rw [if_pos hp]
        exact .inr ⟨fun he => hne (he.symm.trans (field_of_start hn.colon hp)),
          fun he => hne (he.symm.trans (field_zero hn.colon))⟩
      · exact .inl (if_neg hp)
    · obtain ⟨x, hx, rfl⟩ := List.mem_map.mp hl
      split
      · intro c hc
        simp only [withPassword, List.mem_append, List.mem_cons] at hc
        rcases hc with hc | rfl | hc | hc
        · exact hn.flat c hc
        · decide
        · exact (hhash c hc).2
        · exact hfiled.passwd x hx c (List.mem_of_mem_drop ((List.dropWhile_suffix _).subset hc))
      · exact hfiled.passwd x hx
  · exact ⟨fun _ _ => rfl, fun _ _ => rfl, hfiled⟩

/-- `smbpasswd -x`. -/
theorem delete_spares {a : Accounts} (hn : PlainName name) (hfiled : Filed a) :
    Spares name a ⟨Host.deluser (t.words [name]) a.passwd, t.deleteLines name a.smbpasswd⟩ := by
  have hplain : ∀ c ∈ name, PlainEre c ∧ c ≠ '/' ∧ c ≠ '\n' := by
    intro c hc
    obtain ⟨hplain, hother⟩ := hn.chars c hc
    simp only [List.mem_cons, List.not_mem_nil, or_false, not_or] at hother
    exact ⟨hplain, hother.2.2.1, hother.2.2.2.2.2.2.1⟩
  have hkept {n : Line} (hne : n ≠ name) (l : Line) (hl : field 0 l = n) :
      decide (¬ name ++ [':'] <+: l) = true :=
    decide_eq_true fun hp => hne (hl.symm.trans (field_of_start hn.colon hp))
  rw [hn.words, Host.deluser, Host.deleteLines, if_pos hplain]
  exact ⟨fun n hne => mine_filter fun l _ hl => hkept hne l hl,
    fun n hne => mine_filter fun l _ hl => hkept hne l hl,
    fun l hl => hfiled.passwd l (List.mem_of_mem_filter hl),
    fun l hl => hfiled.smbpasswd l (List.mem_of_mem_filter hl)⟩

theorem adduser_users {ws : List Line} (hn : PlainName name) (hws : ∀ w ∈ ws, Flat w) :
    ∀ u ∈ (Call.adduser (name :: ws)).users, u = name := by
  intro u hu
  rw [Call.users] at hu
  split at hu
  · rename_i user ho
    obtain ⟨o, hparse, hop⟩ := Option.map_eq_some_iff.mp ho
    rw [List.mem_singleton.mp hu]
    exact (parse_name hn hws hparse).2 user hop
  · cases hu

theorem setUser_spares (hfiles : Expands t.files) {d : Device} {home pass : Line} (salt : Nat → Line)
    (hfiled : Filed d.accounts) (hok : AddOk t name home pass d.accounts)
    (ha : t.accepts name home pass = true) :
    Spares name d.accounts (t.setUser salt name home pass d).accounts ∧
      ∀ c ∈ (t.setUser salt name home pass d).calls, c ∈ d.calls ∨ ∀ u ∈ c.users, u = name := by
  obtain ⟨rest, hinput⟩ := chpasswdInput_eq hfiles hok.plain hok.input
  have hsmb := t.smbencrypt_chars ((t.words [pass]).headD [])
  have hsent : ∀ u ∈ (Call.chpasswd [name ++ ':' :: rest]).users, u = name := fun u hu => by
    rw [Call.users, List.map_singleton, takeWhile_name hok.plain.colon] at hu
    exact List.mem_singleton.mp hu
  simp only [Host.setUser, if_pos ha, hinput]
  by_cases hhas : (t.found name d.accounts.smbpasswd).length = 1
  · simp only [if_pos hhas, List.append_nil, List.mem_append, List.mem_singleton]
    have hup := updateUser_spares hok.plain hfiled hsmb hok.single (hok.update hhas)
    refine ⟨hup.trans (chpasswd_spares hok.plain hup.filed salt), fun c hc => ?_⟩
    rcases hc with hc | rfl
    · exact .inl hc
    · exact .inr hsent
  · simp only [if_neg hhas, List.mem_append, List.mem_singleton]
    have hcreate := createUser_spares hok.plain hfiled hsmb hok.single (hok.create hhas)
    obtain ⟨ws, hargs, hws⟩ := addArgs_eq (t := t) hok.plain (hok.create hhas)
    refine ⟨hcreate.trans (chpasswd_spares hok.plain hcreate.filed salt), fun c hc => ?_⟩
    rcases hc with (hc | rfl) | rfl
    · exact .inl hc
    · rw [hargs]
      exact .inr (adduser_users hok.plain hws)
    · exact .inr hsent

theorem Protected.next {start d e : Device} (h : Protected start d) (hother : name ∉ systemUsers)
    (hs : Spares name d.accounts e.accounts)
    (hc : ∀ c ∈ e.calls, c ∈ d.calls ∨ ∀ u ∈ c.users, u = name) : Protected start e := by
  have hne : ∀ n ∈ systemUsers, n ≠ name := fun n hn he => hother (he ▸ hn)
  refine ⟨fun n hn => (hs.passwd n (hne n hn)).trans (h.passwd n hn),
    fun n hn => (hs.smbpasswd n (hne n hn)).trans (h.smbpasswd n hn), fun c hmem n hn hu => ?_⟩
  rcases hc c hmem with hold | hnew
  · exact h.calls c hold n hn hu
  · exact hne n hn (hnew n hu)

/-- The guard lets a system account through, and `chpasswd` is called for it. -/
theorem not_protected_of_accepts (hfiles : Expands t.files) {start d : Device} {home pass : Line}
    (salt : Nat → Line) (hn : PlainName name) (hsystem : name ∈ systemUsers)
    (hwords : ∀ w ∈ t.words [name ++ ':' :: pass], '\n' ∉ w) (ha : t.accepts name home pass = true) :
    ¬ Protected start (t.setUser salt name home pass d) := by
  obtain ⟨rest, hinput⟩ := chpasswdInput_eq hfiles hn hwords
  intro h
  rw [Host.setUser, if_pos ha, hinput] at h
  refine h.calls (.chpasswd [name ++ ':' :: rest]) (by simp) name hsystem ?_
  rw [Call.users, List.map_singleton, takeWhile_name hn.colon]
  exact List.mem_singleton_self name

/-- One command. -/
theorem smbpasswd_protected (hfiles : Expands t.files) {start d : Device} {r : Request}
    (hfiled : Filed d.accounts) (h : Protected start d) (hok : RequestOk t d r) :
    Filed (t.smbpasswd d r).accounts ∧ Protected start (t.smbpasswd d r) := by
  cases r with
  | add args salt =>
    rw [Host.smbpasswd]
    simp only [RequestOk] at hok
    generalize t.words (args.take 3) = ws at hok ⊢
    by_cases ha : t.accepts (ws.getD 0 []) (ws.getD 1 []) (ws.getD 2 []) = true
    · obtain ⟨hs, hc⟩ := setUser_spares hfiles salt hfiled (hok ha) ha
      exact ⟨hs.filed, h.next (hok ha).other hs hc⟩
    · rw [Host.setUser, if_neg ha]
      exact ⟨hfiled, h⟩
  | remove args =>
    rw [Host.smbpasswd]
    simp only [RequestOk] at hok
    generalize (t.words (args.take 1)).getD 0 [] = name at hok ⊢
    by_cases hr : t.removes name d.accounts = true
    · obtain ⟨hn, hother⟩ := hok hr
      have hs := delete_spares (t := t) hn hfiled
      rw [Host.delete, if_pos hr]
      refine ⟨hs.filed, h.next hother hs fun c hc => ?_⟩
      rcases List.mem_append.mp hc with hc | hc
      · exact .inl hc
      · rw [List.mem_singleton.mp hc, hn.words]
        exact .inr fun u hu => List.mem_singleton.mp hu
    · rw [Host.delete, if_neg hr]
      exact ⟨hfiled, h⟩

end

/-- Throughout a run of commands whose names are taken as they are and are no system account. -/
theorem system_accounts_kept (t : Host) (hfiles : Expands t.files) {start d : Device}
    (hfiled : Filed start.accounts) (hcalls : start.calls = [])
    (h : Reach t.step (RequestOk t) start d) : Protected start d := by
  have hstart : Protected start start :=
    ⟨fun _ _ => rfl, fun _ _ => rfl, fun c hc => by rw [hcalls] at hc; cases hc⟩
  have hinv : Filed d.accounts ∧ Protected start d := by
    refine h.invariant (I := fun d => Filed d.accounts ∧ Protected start d) ⟨hfiled, hstart⟩ ?_
    rintro u r e ⟨hu, hp⟩ hok hs
    obtain rfl := Option.some.inj hs
    exact smbpasswd_protected hfiles hu hp hok
  exact hinv.2

/-- Programs for examples. -/
def sampleHost : Host where
  toTools := sampleTools
  ops := noOps
  regex _ _ := false
  ids _ _ := some (1000, 1000)
  script _ lines := lines

def moveGuestRequest : Request :=
  .add (["guest", "/usb/disk", "secret"].map String.toList) fun _ => []

def removeGuest : Request := .remove ["guest".toList]

theorem guest_plain : PlainName "guest".toList := ⟨by decide, by decide, by decide⟩

/-- A user moves to another folder and is removed. -/
theorem system_accounts_kept_removed : Protected ⟨oneUser, []⟩
    (sampleHost.smbpasswd (sampleHost.smbpasswd ⟨oneUser, []⟩ moveGuestRequest) removeGuest) := by
  have hfiled : Filed oneUser := ⟨by decide +kernel, by decide +kernel⟩
  have hother : "guest".toList ∉ systemUsers := by decide
  have hmove : RequestOk sampleHost ⟨oneUser, []⟩ moveGuestRequest := by
    have hwords : sampleHost.words (["guest", "/usb/disk", "secret"].map String.toList) =
        ["guest", "/usb/disk", "secret"].map String.toList := by decide +kernel
    have hhas : (sampleHost.found "guest".toList oneUser.smbpasswd).length = 1 := by decide +kernel
    have hinfo : ∀ c ∈ ((keyed ("guest".toList ++ [':']) oneUser.passwd).map
        (withHome (awkValue "/usb/disk".toList))).headD [], Literal c ∧ c ≠ '_' := by decide +kernel
    have hupdate : UpdateOk sampleHost "guest".toList "/usb/disk".toList oneUser :=
      ⟨by decide +kernel, ⟨fun hm => (hinfo _ hm).1.2.2 rfl, .inr ⟨by decide, hinfo⟩⟩, by decide +kernel⟩
    have hok : AddOk sampleHost "guest".toList "/usb/disk".toList "secret".toList oneUser :=
      ⟨guest_plain, hother, by decide +kernel, by decide +kernel, fun _ => hupdate,
        fun hne => absurd hhas hne⟩
    rw [moveGuestRequest, RequestOk, List.take_of_length_le (by decide), hwords]
    exact fun _ => hok
  have hremove (d : Device) : RequestOk sampleHost d removeGuest := by
    have hword : sampleHost.words ["guest".toList] = ["guest".toList] := guest_plain.words
    rw [removeGuest, RequestOk, List.take_of_length_le (by decide), hword]
    exact fun _ => ⟨guest_plain, hother⟩
  exact system_accounts_kept sampleHost (fun _ _ h => absurd h List.not_mem_nil) hfiled rfl
    ((Reach.start.next hmove rfl).next (hremove _) rfl)

def addRoot : Request := .add (["root", "/usb", "secret"].map String.toList) fun _ => []

/-- The guard joins its three tests with or, so a command for `root` is carried out. -/
theorem root_not_protected : Filed shipped ∧ ∃ d,
    Reach sampleHost.step anyStep ⟨shipped, []⟩ d ∧ ¬ Protected ⟨shipped, []⟩ d := by
  have hwords : sampleHost.words (["root", "/usb", "secret"].map String.toList) =
      ["root", "/usb", "secret"].map String.toList := by decide +kernel
  have hdone : sampleHost.smbpasswd ⟨shipped, []⟩ addRoot =
      sampleHost.setUser (fun _ => []) "root".toList "/usb".toList "secret".toList ⟨shipped, []⟩ := by
    rw [addRoot, Host.smbpasswd, List.take_of_length_le (by decide), hwords]
    rfl
  refine ⟨⟨by decide +kernel, by decide +kernel⟩, _, Reach.start.next (a := addRoot) trivial rfl, ?_⟩
  rw [hdone]
  exact not_protected_of_accepts (fun _ _ h => absurd h List.not_mem_nil) _
    ⟨by decide, by decide, by decide⟩ (by decide) (by decide +kernel) (by decide +kernel)

end SnakeOs.Samba.Smbpasswd
