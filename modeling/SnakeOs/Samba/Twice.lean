import SnakeOs.Lib.Reread
import SnakeOs.Samba.Accounts

/-! A user that is set twice does not get the record of a user that is set once. -/

namespace SnakeOs.Samba.Smbpasswd
open Lib

/-- `$(grep "^$1:" /etc/passwd | cut -d : -f 3)`. -/
def uidText (name : Line) (passwd : List Line) : Line :=
  substLines ((userLines name passwd).map (cutField ':' 3))

/-- The files without the user. -/
def without (name : Line) (a : Accounts) : Accounts := ⟨others name a.passwd, others name a.smbpasswd⟩

/-- The programs on a device where the next free number is `n`. -/
def Tools.withUid (t : Tools) (n : Nat) : Tools := { t with uid := fun _ => n }

/-- The commands that set a user twice. -/
structure Updates where
  user : User
  home : Home
  pass : Password
  salt : Line
  home' : Home
  pass' : Password
  salt' : Line

def Updates.once (u : Updates) : Command := .add u.user u.home u.pass u.salt

def Updates.again (u : Updates) : Command := .add u.user u.home' u.pass' u.salt'

/-- After both commands the user has the home and the record that the second one gives a new
user with the number `n`, and nobody else has changed. -/
structure LastWins (t : Tools) (a : Accounts) (u : Updates) (n : Nat) : Prop where
  home : (mine u.user.name (smbpasswd t (smbpasswd t a u.once) u.again).passwd).map (field 5) =
    (mine u.user.name (smbpasswd (t.withUid n) (without u.user.name a) u.again).passwd).map (field 5)
  record : mine u.user.name (smbpasswd t (smbpasswd t a u.once) u.again).smbpasswd =
    mine u.user.name (smbpasswd (t.withUid n) (without u.user.name a) u.again).smbpasswd
  passwd : others u.user.name (smbpasswd t (smbpasswd t a u.once) u.again).passwd =
    others u.user.name a.passwd
  smbpasswd : others u.user.name (smbpasswd t (smbpasswd t a u.once) u.again).smbpasswd =
    others u.user.name a.smbpasswd

/-- The end of a new record. -/
def flags : Line := ":[U]:LCT-4294967295".toList

/-- What an update and a new record have in front of their ends. -/
def recordStart (name uid smbpass : Line) : Line := name ++ ':' :: uid ++ ':' :: smbpass

section
variable {t : Tools} {a : Accounts} {name : Line}

/-- The arguments of `set_user`: pathname expansion leaves a name, a home and a password. -/
theorem unquoted_user (hfiles : ∀ w, [] ∉ t.files w) (user : User) (home : Home) (pass : Password) :
    ∃ h p rest, unquoted (metaOnly t.files) [user.name, home.path, pass.text] =
      user.name :: h :: p :: rest ∧ h ≠ [] ∧ p ≠ [] := by
  have hpass : Name pass.text := ⟨fun he => absurd pass.length.1 (by simp [he]), pass.word⟩
  have hne : home.path ≠ [] := by
    intro he
    have := home.root
    rw [he] at this
    cases this
  have hword : Word home.path := ⟨hne, fun c hc => (home.chars c hc).1⟩
  have hargs : unquoted (metaOnly t.files) [user.name, home.path, pass.text] =
      user.name :: (expandWord (metaOnly t.files) home.path ++ [pass.text]) := by
    simp [unquoted, unquoted_name t.files user.isName, unquoted_name t.files hpass, hword.split]
  have hnames : ∀ x ∈ expandWord (metaOnly t.files) home.path, x ≠ [] := by
    intro x hx
    rcases mem_expandWord hx with rfl | hx
    · exact hne
    · rintro rfl
      unfold metaOnly at hx
      split at hx
      · exact hfiles _ hx
      · cases hx
  rw [hargs]
  cases he : expandWord (metaOnly t.files) home.path with
  | nil => exact absurd he (expandWord_ne_nil _ _)
  | cons x xs =>
    rw [he] at hnames
    cases xs with
    | nil => exact ⟨x, pass.text, [], rfl, hnames x List.mem_cons_self, hpass.1⟩
    | cons y ys =>
      exact ⟨x, y, ys ++ [pass.text], rfl, hnames x List.mem_cons_self, hnames y (by simp)⟩

/-- `set_user` on `/etc/smbpasswd`. -/
theorem smbpasswd_add (hfiles : ∀ w, [] ∉ t.files w) (user : User) (home : Home) (pass : Password)
    (salt : Line) (a : Accounts) : ∃ h p, (smbpasswd t a (.add user home pass salt)).smbpasswd =
      if (userLines user.name a.smbpasswd).length = 1 then
        (updateUser t user.name h (t.smbencrypt p) a).smbpasswd
      else (createUser t user.name h (t.smbencrypt p) a).smbpasswd := by
  obtain ⟨h, p, rest, hargs, hh, hp⟩ := unquoted_user hfiles user home pass
  refine ⟨h, p, ?_⟩
  have hn : user.name ≠ [] := user.isName.1
  simp only [smbpasswd, hargs, setUser, List.getD_cons_zero, List.getD_cons_succ]
  rw [if_neg (by simp [hn, hh, hp])]
  split <;> rfl

/-- The branch for a known user writes a line without flags. -/
theorem updateUser_keyed (hn : Name name) (hu : ∀ c ∈ uidText name a.passwd, c.isDigit = true)
    (hl : ∀ l ∈ a.smbpasswd, '\n' ∉ l) (home p : Line) :
    keyed (name ++ [':']) (updateUser t name home (t.smbencrypt p) a).smbpasswd =
        (keyed (name ++ [':']) a.smbpasswd).map
          (fun _ => recordStart name (uidText name a.passwd) (t.smbencrypt p) ++ [':']) ∧
      ∀ l ∈ (updateUser t name home (t.smbencrypt p) a).smbpasswd, '\n' ∉ l := by
  obtain ⟨hsed, hnl⟩ := sed_smbpasswd t.other hn hu (t.smbencrypt_chars p) hl
  have hline : (updateUser t name home (t.smbencrypt p) a).smbpasswd =
      setLines (name ++ [':']) (recordStart name (uidText name a.passwd) (t.smbencrypt p) ++ [':'])
        a.smbpasswd := hsed
  rw [hline]
  refine ⟨keyed_setLines_self ⟨uidText name a.passwd ++ ':' :: t.smbencrypt p ++ [':'], by
    simp [recordStart]⟩ _, fun l hm => ?_⟩
  rcases mem_setLines hm with rfl | hm
  · exact hnl
  · exact hl l hm

/-- The line `adduser` writes. -/
def userLine (name number home : Line) : Line :=
  [':'].intercalate [name, ['x'], number, number, "Linux User,,,".toList, home,
    "/sbin/nologin".toList]

theorem userLine_eq (name number home : Line) : ∃ rest,
    userLine name number home = name ++ ':' :: (['x'] ++ ':' :: (number ++ ':' :: rest)) :=
  ⟨[':'].intercalate [number, "Linux User,,,".toList, home, "/sbin/nologin".toList],
    by simp [userLine, List.intercalate_cons_cons]⟩

/-- A name that has a line gets no other. -/
theorem adduser_cases (name home : Line) (passwd : List Line) :
    adduser t name home passwd = passwd ∨ (keyed (name ++ [':']) passwd = [] ∧
      ∃ x, adduser t name home passwd =
        passwd ++ [userLine name (Nat.toDigits 10 (t.uid passwd)) x]) := by
  unfold adduser
  split
  · rename_i x _
    split
    · exact .inl rfl
    · rename_i hnone
      refine .inr ⟨?_, x, rfl⟩
      rw [keyed, List.filter_eq_nil_iff]
      simpa using hnone
  · exact .inl rfl

/-- `adduser` takes a number for a new user. -/
theorem adduser_uid (hn : Name name) (home : Line) {passwd : List Line}
    (hu : ∀ c ∈ uidText name passwd, c.isDigit = true) :
    ∀ c ∈ uidText name (adduser t name home passwd), c.isDigit = true := by
  rcases adduser_cases (t := t) name home passwd with h | ⟨hnone, x, h⟩
  · rwa [h]
  · have hnum := digits_text (t.uid passwd)
    obtain ⟨rest, hline⟩ := userLine_eq name (Nat.toDigits 10 (t.uid passwd)) x
    have hcut : cutField ':' 3 (userLine name (Nat.toDigits 10 (t.uid passwd)) x) =
        Nat.toDigits 10 (t.uid passwd) := by
      rw [hline, cutField, if_pos (by simp),
        List.splitOn_append_cons_self_of_not_mem (hn.not_mem rfl),
        List.splitOn_append_cons_self_of_not_mem (by decide),
        List.splitOn_append_cons_self_of_not_mem fun hm => (hnum _ hm).1 rfl]
      rfl
    have hpre : name ++ [':'] <+: userLine name (Nat.toDigits 10 (t.uid passwd)) x := by
      rw [hline]
      exact ⟨_, by rw [List.append_assoc]; rfl⟩
    have hmine : userLines name (passwd ++ [userLine name (Nat.toDigits 10 (t.uid passwd)) x]) =
        [userLine name (Nat.toDigits 10 (t.uid passwd)) x] := by
      rw [userLines_keyed hn, keyed, List.filter_append, ← keyed, hnone, List.nil_append,
        List.filter_cons_of_pos (by simp [hpre]), List.filter_nil]
    rw [h, uidText, hmine, List.map_singleton, hcut,
      substLines_single fun c hc => (hnum c hc).2]
    exact fun c hc => Nat.isDigit_of_mem_toDigits (by decide) (by decide) hc

/-- The branch for a new user writes a line with flags. -/
theorem createUser_keyed (hn : Name name) (hu : ∀ c ∈ uidText name a.passwd, c.isDigit = true)
    (home p : Line) : ∃ uid, (createUser t name home (t.smbencrypt p) a).smbpasswd = a.smbpasswd ++
        [recordStart name uid (t.smbencrypt p) ++ flags] ∧
      '\n' ∉ recordStart name uid (t.smbencrypt p) ++ flags := by
  have huid := adduser_uid (t := t) hn home hu
  have hstart : '\n' ∉ recordStart name (uidText name (adduser t name home a.passwd))
      (t.smbencrypt p) := by
    intro hm
    simp only [recordStart, List.mem_append, List.mem_cons] at hm
    rcases hm with (hm | hm | hm) | hm | hm
    · exact hn.not_mem rfl hm
    · cases hm
    · cases huid _ hm
    · cases hm
    · rcases t.smbencrypt_chars p _ hm with hc | hc <;> cases hc
  obtain ⟨hlines, hline⟩ := newRecord_lines hstart
  have hnew : (createUser t name home (t.smbencrypt p) a).smbpasswd = a.smbpasswd ++ textLines []
      (recordStart name (uidText name (adduser t name home a.passwd)) (t.smbencrypt p) ++
        ":[U]:LCT-4294967295\n".toList) := rfl
  rw [hlines] at hnew
  exact ⟨uidText name (adduser t name home a.passwd), hnew, hline⟩

theorem prefix_recordStart (name uid smbpass rest : Line) :
    name ++ [':'] <+: recordStart name uid smbpass ++ rest :=
  ⟨uid ++ ':' :: smbpass ++ rest, by simp [recordStart]⟩

/-- After `smbpasswd -a` the user has a line, and the one line of a user stays one. -/
theorem keyed_add (hfiles : ∀ w, [] ∉ t.files w) (user : User) (home : Home) (pass : Password)
    (salt : Line) (hl : ∀ l ∈ a.smbpasswd, '\n' ∉ l)
    (hu : ∀ c ∈ uidText user.name a.passwd, c.isDigit = true) :
    (∀ l ∈ (smbpasswd t a (.add user home pass salt)).smbpasswd, '\n' ∉ l) ∧
      ((keyed (user.name ++ [':']) a.smbpasswd).length = 1 ∧
          (∃ start, keyed (user.name ++ [':']) (smbpasswd t a (.add user home pass salt)).smbpasswd =
            [start ++ [':']]) ∨
        (keyed (user.name ++ [':']) a.smbpasswd).length ≠ 1 ∧
          ∃ start, (smbpasswd t a (.add user home pass salt)).smbpasswd =
              a.smbpasswd ++ [start ++ flags] ∧
            user.name ++ [':'] <+: start ++ flags) := by
  have hn := user.isName
  obtain ⟨h, p, hadd⟩ := smbpasswd_add hfiles user home pass salt a
  rw [userLines_keyed hn] at hadd
  rw [hadd]
  split
  · rename_i hone
    obtain ⟨hkeyed, hnl⟩ := updateUser_keyed (t := t) hn hu hl h p
    obtain ⟨x, hx⟩ := List.length_eq_one_iff.mp hone
    refine ⟨hnl, .inl ⟨hone, recordStart user.name (uidText user.name a.passwd) (t.smbencrypt p),
      ?_⟩⟩
    rw [hkeyed, hx, List.map_singleton]
  · rename_i hone
    obtain ⟨uid, hcreate, hnl⟩ := createUser_keyed (t := t) (a := a) hn hu h p
    rw [hcreate]
    have hstart := prefix_recordStart user.name uid (t.smbencrypt p) flags
    refine ⟨fun l hm => ?_, .inr ⟨hone, _, rfl, hstart⟩⟩
    rcases List.mem_append.mp hm with hm | hm
    · exact hl l hm
    · exact List.mem_singleton.mp hm ▸ hnl

theorem field_of_keyed (hn : Name name) {l : Line} (h : name ++ [':'] <+: l) : field 0 l = name := by
  obtain ⟨rest, rfl⟩ := h
  rw [List.append_assoc]
  exact field_zero (hn.not_mem rfl)

theorem keyed_sublist_mine (hn : Name name) (lines : List Line) :
    (keyed (name ++ [':']) lines).Sublist (mine name lines) :=
  List.monotone_filter_right _ fun _ h => by simpa using field_of_keyed hn (by simpa using h)

theorem keyed_others (hn : Name name) (lines : List Line) :
    keyed (name ++ [':']) (others name lines) = [] := by
  have hmine : mine name (others name lines) = [] := by simp [mine, others, List.filter_filter]
  exact List.sublist_nil.mp (hmine ▸ keyed_sublist_mine hn _)

/-- A user of files that do not have it gets a record with flags. -/
theorem fresh_record (hfiles : ∀ w, [] ∉ t.files w) (user : User) (home : Home) (pass : Password)
    (salt : Line) (hl : ∀ l ∈ a.smbpasswd, '\n' ∉ l) : ∃ start,
    mine user.name (smbpasswd t (without user.name a) (.add user home pass salt)).smbpasswd =
      [start ++ flags] := by
  have hn := user.isName
  have huid : uidText user.name (without user.name a).passwd = [] := by
    rw [uidText, without, userLines_keyed hn, keyed_others hn]
    rfl
  obtain ⟨-, ⟨hone, -⟩ | ⟨-, start, hadd, hstart⟩⟩ := keyed_add (a := without user.name a) hfiles
    user home pass salt (fun l hm => hl l (List.mem_filter.mp hm).1) (by simp [huid])
  · simp [without, keyed_others hn] at hone
  · refine ⟨start, ?_⟩
    rw [hadd, without, mine, List.filter_append, ← mine]
    simp [mine, others, List.filter_filter, field_of_keyed hn hstart]

/-- After two commands the lines of the user are one without flags, or there are too many. -/
theorem twice_keyed (hfiles : ∀ w, [] ∉ t.files w) (u : Updates) (hl : ∀ l ∈ a.smbpasswd, '\n' ∉ l)
    (hu : ∀ c ∈ uidText u.user.name a.passwd, c.isDigit = true)
    (hu' : ∀ c ∈ uidText u.user.name (smbpasswd t a u.once).passwd, c.isDigit = true) :
    (∃ start, keyed (u.user.name ++ [':']) (smbpasswd t (smbpasswd t a u.once) u.again).smbpasswd =
        [start ++ [':']]) ∨
      2 ≤ (keyed (u.user.name ++ [':'])
        (smbpasswd t (smbpasswd t a u.once) u.again).smbpasswd).length := by
  obtain ⟨hl', hfirst⟩ := keyed_add hfiles u.user u.home u.pass u.salt hl hu
  have hsome : keyed (u.user.name ++ [':']) (smbpasswd t a u.once).smbpasswd ≠ [] := by
    rcases hfirst with ⟨-, start, hone⟩ | ⟨-, start, hadd, hstart⟩
    · rw [Updates.once, hone]
      simp
    · rw [Updates.once, hadd, keyed, List.filter_append]
      simp [hstart]
  obtain ⟨-, ⟨-, hone⟩ | ⟨hne, start, hadd, hstart⟩⟩ :=
    keyed_add hfiles u.user u.home' u.pass' u.salt' hl' hu'
  · exact .inl hone
  · refine .inr ?_
    rw [Updates.again, Updates.once, hadd, keyed, List.filter_append, ← keyed, List.length_append,
      List.filter_cons_of_pos (by simpa using hstart)]
    have hpos : 1 ≤ (keyed (u.user.name ++ [':'])
        (smbpasswd t a (.add u.user u.home u.pass u.salt)).smbpasswd).length :=
      List.length_pos_iff.mpr hsome
    simp only [List.filter_nil, List.length_singleton]
    omega

/-- A user that is set twice never has the record of one that is set once: only the branch for
a new user writes the flags. -/
theorem never_last_wins (t : Tools) (a : Accounts) (u : Updates) (hfiles : ∀ w, [] ∉ t.files w)
    (hl : ∀ l ∈ a.smbpasswd, '\n' ∉ l) (hu : ∀ c ∈ uidText u.user.name a.passwd, c.isDigit = true)
    (hu' : ∀ c ∈ uidText u.user.name (smbpasswd t a u.once).passwd, c.isDigit = true) (n : Nat) :
    ¬ LastWins t a u n := by
  intro h
  obtain ⟨start, hfresh⟩ := fresh_record (t := t.withUid n) hfiles u.user u.home' u.pass' u.salt' hl
  have hrecord := h.record.trans hfresh
  have hsub := keyed_sublist_mine u.user.isName (smbpasswd t (smbpasswd t a u.once) u.again).smbpasswd
  rw [hrecord] at hsub
  rcases twice_keyed hfiles u hl hu hu' with ⟨start', hone⟩ | htwo
  · rw [hone, List.singleton_sublist, List.mem_singleton] at hsub
    have hlast := congrArg List.getLast? hsub
    rw [List.getLast?_append, List.getLast?_append] at hlast
    cases hlast
  · have hle := hsub.length_le
    rw [List.length_singleton] at hle
    omega

end

/-- The user is set twice to the same folder and password. -/
def setTwice : Updates where
  user := guest
  home := usbHome
  pass := secret
  salt := []
  home' := usbHome
  pass' := secret
  salt' := []

/-- The user is there before. -/
theorem never_last_wins_setTwice : ¬ LastWins sampleTools oneUser setTwice 1000 :=
  never_last_wins sampleTools oneUser setTwice (by simp [sampleTools]) (by decide +kernel)
    (by decide +kernel) (by decide +kernel) 1000

/-- A device without users: the second command takes the flags away. -/
theorem flags_lost : ¬ LastWins sampleTools (without "guest".toList oneUser) setTwice 1000 := by
  have hdiffer : mine setTwice.user.name (smbpasswd sampleTools (smbpasswd sampleTools
        (without "guest".toList oneUser) setTwice.once) setTwice.again).smbpasswd ≠
      mine setTwice.user.name (smbpasswd (sampleTools.withUid 1000)
        (without setTwice.user.name (without "guest".toList oneUser)) setTwice.again).smbpasswd := by
    decide +kernel
  exact fun h => hdiffer h.record

end SnakeOs.Samba.Smbpasswd
