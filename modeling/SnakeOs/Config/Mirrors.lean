import SnakeOs.Config.Places

/-! Every action writes both copies of what it is asked for, and nothing else. -/

namespace SnakeOs.Config
open Lib

/-- A field that every command on its way passes on: no character sed reads, no delimiter, no
option of `echo` and no pattern that matches files. -/
structure Field.Ok (files : Line → List Line) (delims : List Char) (f : Field) : Prop where
  chars : ∀ c ∈ f.text, Literal c ∧ c ∉ delims
  shown : Shown files f.text

def DdnsFields.list (f : DdnsFields) : List Field :=
  [f.ddnsProvider, f.ddnsAlias, f.ddnsUser, f.ddnsPass]

/-- The actions after which both copies are what was asked for. -/
def ActionOk (files : Line → List Line) (r : Run) : Action → Prop
  | .ddns none | .samba none => True
  | .ddns (some f) => (∀ x ∈ f.list, x.Ok files ['%', ',']) ∧
      (f.list.map Field.text).filter (· ≠ []) <+: f.list.map Field.text
  | .samba (some f) => f.security.Ok files ['%', '/'] ∧ f.workgroup.Ok files ['%', '/']
  | .ftp f => f.shared.Ok files ['%', ',']
  | .setHostname name => name.Ok files [','] ∧
      ∀ l ∈ r.etc .config, "hostname=".toList <:+: l → "hostname=".toList <+: l

/-- What an action writes. -/
def Action.writes : Action → List (Place × Line)
  | .ddns none => [(.switch .ddnsEnable, checkbox false)]
  | .ddns (some f) => [(.switch .ddnsEnable, checkbox true),
      (.config .ddnsProvider, f.ddnsProvider.text), (.mirror .ddnsProvider, f.ddnsProvider.text),
      (.config .ddnsAlias, f.ddnsAlias.text), (.mirror .ddnsAlias, f.ddnsAlias.text),
      (.config .ddnsUser, f.ddnsUser.text), (.mirror .ddnsUser, f.ddnsUser.text),
      (.config .ddnsPass, f.ddnsPass.text), (.mirror .ddnsPass, f.ddnsPass.text)]
  | .samba none => [(.switch .sambaEnable, checkbox false)]
  | .samba (some f) => [(.switch .sambaEnable, checkbox true),
      (.config .smbsecurity, f.security.text), (.mirror .smbsecurity, f.security.text),
      (.config .smbworkgroup, f.workgroup.text), (.mirror .smbworkgroup, f.workgroup.text)]
  | .ftp f => [(.config .ftpAnondir, f.shared.text), (.mirror .ftpAnondir, f.shared.text),
      (.switch .ftpEnable, checkbox f.enable), (.switch .ftpAnonymous, checkbox f.anon),
      (.switch .anonymousEnable, yesNo f.anon), (.switch .ftpAnonrw, checkbox f.anonrw),
      (.switch .anonUploadEnable, yesNo f.anonrw), (.switch .anonMkdirWriteEnable, yesNo f.anonrw),
      (.switch .ftpAnononly, checkbox f.anononly), (.switch .localEnable, yesNo !f.anononly)]
  | .setHostname name => [(.config .hostname, name.text), (.mirror .hostname, name.text)]

section
variable {other : Line → List Line → List Line} {files : Line → List Line}

theorem Field.Ok.passes {f : Field} {delims : List Char} (h : f.Ok files delims) :
    Passes files f.text := ⟨h.shown, f.chars⟩

theorem passes_nil : Passes files [] := ⟨⟨rfl, rfl⟩, by simp⟩

/-- The arguments of `set_ddnsinfo`. -/
theorem ddns_args (b : Bool) (vs : List Line) (h : ∀ v ∈ vs, Passes files v) :
    unquoted (metaOnly files) (checkbox b :: vs.map (firstField files)) =
      checkbox b :: vs.filter (· ≠ []) := by
  have hmap : vs.map (firstField files) = vs :=
    (List.map_congr_left fun v hv => (h v hv).firstField).trans (List.map_id' vs)
  have hne : checkbox b ≠ [] := by cases b <;> decide
  rw [hmap, unquoted_fields fun v hv => ?_]
  · simp [hne]
  · rcases List.mem_cons.mp hv with rfl | hv
    · exact passes_checkbox b
    · exact h v hv

theorem applyDdns_none : Does (applyDdns other files none) (Action.ddns none).writes := by
  have hargs : unquoted (metaOnly files) [checkbox false, firstField files [], firstField files [],
      firstField files [], firstField files []] = [checkbox false] :=
    ddns_args false [[], [], [], []] (by simp [passes_nil])
  have hdoes : Does (configSet other files Switch.ddnsEnable.key (checkbox false))
      [(.switch .ddnsEnable, checkbox false)] := configSet_does other files .ddnsEnable rfl false
  refine ⟨fun e ht => ?_, hdoes.words⟩
  refine Eq.trans ?_ (hdoes.eq e ht)
  rw [applyDdns]
  simp only [Option.getD_none, Option.isSome_none, Field.empty, hargs, setDdnsinfo]
  rfl

section
variable (other : Line → List Line → List Line) {x : Field}

theorem setDdnsProvider_does (h : x.Ok files ['%', ',']) : Does (setDdnsProvider other files x.text)
    [(.config .ddnsProvider, x.text), (.mirror .ddnsProvider, x.text)] :=
  setBoth_does other .ddnsProvider (by decide) (.inl rfl) h.passes h.chars

theorem setDdnsAlias_does (h : x.Ok files ['%', ',']) : Does (setDdnsAlias other files x.text)
    [(.config .ddnsAlias, x.text), (.mirror .ddnsAlias, x.text)] :=
  setBoth_does other .ddnsAlias (by decide) (.inl rfl) h.passes h.chars

theorem setDdnsUser_does (h : x.Ok files ['%', ',']) : Does (setDdnsUser other files x.text)
    [(.config .ddnsUser, x.text), (.mirror .ddnsUser, x.text)] :=
  setBoth_does other .ddnsUser (by decide) (.inl rfl) h.passes h.chars

theorem setDdnsPass_does (h : x.Ok files ['%', ',']) : Does (setDdnsPass other files x.text)
    [(.config .ddnsPass, x.text), (.mirror .ddnsPass, x.text)] :=
  setBoth_does other .ddnsPass (by decide) (.inl rfl) h.passes h.chars

theorem setFtpAnondir_does (h : x.Ok files ['%', ',']) : Does (setFtpAnondir other files x.text)
    [(.config .ftpAnondir, x.text), (.mirror .ftpAnondir, x.text)] :=
  setBoth_does other .ftpAnondir (by decide) (.inl rfl) h.passes h.chars

end

theorem applyDdns_some {f : DdnsFields} (hok : ∀ x ∈ f.list, x.Ok files ['%', ','])
    (hpre : (f.list.map Field.text).filter (· ≠ []) <+: f.list.map Field.text) :
    Does (applyDdns other files (some f)) (Action.ddns (some f)).writes := by
  have hpass : ∀ v ∈ f.list.map Field.text, Passes files v := by
    intro v hv
    obtain ⟨x, hx, rfl⟩ := List.mem_map.mp hv
    exact (hok x hx).passes
  have hargs := ddns_args true _ hpass
  have hget (i : Nat) := getD_filter hpre i
  simp only [DdnsFields.list, List.mem_cons, List.not_mem_nil, or_false, forall_eq_or_imp,
    forall_eq] at hok
  obtain ⟨hprovider, halias, huser, hpassword⟩ := hok
  have hall := ((((configSet_does other files .ddnsEnable rfl true).andThen
    (setDdnsProvider_does other hprovider)).andThen (setDdnsAlias_does other halias)).andThen
    (setDdnsUser_does other huser)).andThen (setDdnsPass_does other hpassword)
  refine ⟨fun e ht => Eq.trans ?_ (hall.eq e ht), hall.words⟩
  have hwords : applyDdns other files (some f) e = setDdnsinfo other files
      (checkbox true :: (f.list.map Field.text).filter (· ≠ [])) e := by
    rw [← hargs]
    rfl
  rw [hwords, setDdnsinfo]
  simp only [List.getD_cons_succ, List.getD_cons_zero, hget]
  simp only [DdnsFields.list, List.map_cons, List.map_nil, List.getD_cons_succ, List.getD_cons_zero,
    hprovider.passes.argument, halias.passes.argument, huser.passes.argument,
    hpassword.passes.argument]
  rfl

theorem applySamba_none : Does (applySamba other files none) (Action.samba none).writes :=
  configSet_does other files .sambaEnable rfl false

theorem applySamba_some {f : SambaFields} (hs : f.security.Ok files ['%', '/'])
    (hw : f.workgroup.Ok files ['%', '/']) :
    Does (applySamba other files (some f)) (Action.samba (some f)).writes := by
  have hsec := setBoth_does other .smbsecurity (d := '/') (by decide)
    (.inr ⟨rfl, rfl⟩) hs.passes hs.chars
  have hgroup := setBoth_does other .smbworkgroup (d := '/') (by decide)
    (.inr ⟨rfl, rfl⟩) hw.passes hw.chars
  have hall := ((configSet_does other files .sambaEnable rfl true).andThen hsec).andThen hgroup
  refine ⟨fun e ht => Eq.trans ?_ (hall.eq e ht), hall.words⟩
  simp only [applySamba, hs.passes.firstField, hw.passes.firstField]
  rfl

theorem applyFtp_does {f : FtpFields} (h : f.shared.Ok files ['%', ',']) :
    Does (applyFtp other files f) (Action.ftp f).writes := by
  have hall := ((((((((setFtpAnondir_does other h).andThen
    (configSet_does other files .ftpEnable rfl f.enable)).andThen
    (configSet_does other files .ftpAnonymous rfl f.anon)).andThen
    (vsftpdSwitch_does other .anonymousEnable rfl f.anon)).andThen
    (configSet_does other files .ftpAnonrw rfl f.anonrw)).andThen
    (vsftpdSwitch_does other .anonUploadEnable rfl f.anonrw)).andThen
    (vsftpdSwitch_does other .anonMkdirWriteEnable rfl f.anonrw)).andThen
    (configSet_does other files .ftpAnononly rfl f.anononly)).andThen
    (vsftpdSwitch_does other .localEnable rfl !f.anononly)
  refine ⟨fun e ht => Eq.trans ?_ (hall.eq e ht), hall.words⟩
  simp only [applyFtp, h.passes.firstField, h.passes.argument]
  rfl

/-- The name of the device, where no other line of the configuration holds its key. -/
theorem setHostname_writes {e : Etc} {name : Field} (ht : e.Tidy) (h : name.Ok files [','])
    (hkey : ∀ l ∈ e .config, "hostname=".toList <:+: l → "hostname=".toList <+: l) :
    setHostname other name.text e = e.writes (Action.setHostname name).writes := by
  have hlit : ∀ c ∈ name.text, Literal c ∧ c ≠ ',' :=
    fun c hc => ⟨(h.chars c hc).1, fun he => (h.chars c hc).2 (by simp [he])⟩
  have hpre : ∀ c ∈ "hostname=".toList, PlainEre c ∧ c ≠ '\n' ∧ Literal c ∧ c ≠ ',' := by decide
  have htext : ∀ c ∈ "hostname=".toList ++ name.text, Literal c ∧ c ≠ ',' := by
    intro c hc
    rcases List.mem_append.mp hc with hc | hc
    · exact (hpre c hc).2.2
    · exact hlit c hc
  have hconfig : e.edit .config (sed other
      (substCmd ',' [] "hostname=".toList ("hostname=".toList ++ name.text))) =
      e.write (.config .hostname) name.text := by
    rw [Etc.write, Etc.edit, Etc.edit]
    congr 1
    exact sed_any ⟨by decide, fun hm => (hpre _ hm).2.2.2 rfl, fun hm => (htext _ hm).2 rfl⟩ (by decide)
      (fun c hc => ⟨(hpre c hc).1, (hpre c hc).2.1⟩) (fun c hc => (htext c hc).1) (ht.lines _) hkey
  have ht' : (e.write (.config .hostname) name.text).Tidy :=
    ht.write fun c hc => ⟨(name.chars c hc).1, (name.chars c hc).2.1⟩
  rw [setHostname, hconfig]
  exact sed_mirror (s := .hostname) (by decide) (.inr ⟨rfl, rfl⟩) ht' hlit

/-- Every action that is in order makes its writes. -/
theorem applyAction_writes (other : Line → List Line → List Line) {r : Run} {a : Action}
    (ht : r.etc.Tidy) (h : ActionOk files r a) :
    applyAction other files r.etc a = r.etc.writes a.writes ∧ (r.etc.writes a.writes).Tidy := by
  have hdoes {g : Etc → Etc} (hg : Does g a.writes) :
      g r.etc = r.etc.writes a.writes ∧ (r.etc.writes a.writes).Tidy :=
    ⟨hg.eq _ ht, ht.writes hg.words⟩
  cases a with
  | ddns fields =>
    cases fields with
    | none => exact hdoes applyDdns_none
    | some f => exact hdoes (applyDdns_some h.1 h.2)
  | samba fields =>
    cases fields with
    | none => exact hdoes applySamba_none
    | some f => exact hdoes (applySamba_some h.1 h.2)
  | ftp f => exact hdoes (applyFtp_does h)
  | setHostname name =>
    refine ⟨setHostname_writes ht h.1 h.2, ht.writes ?_⟩
    have hb : ∀ c ∈ name.text, isBlank c = false ∧ c ≠ '\n' :=
      fun c hc => ⟨(name.chars c hc).1, (name.chars c hc).2.1⟩
    simpa [Action.writes] using hb

/-- The writes of an action to the settings are what was asked for. -/
theorem Action.writes_submitted (a : Action) (s : Setting) (v : Line) :
    ((Place.config s, v) ∈ a.writes ↔ a.submitted s = some v) ∧
      ((Place.mirror s, v) ∈ a.writes ↔ a.submitted s = some v) := by
  rcases a with (_ | f) | (_ | f) | f | name <;> cases s <;>
    simp [Action.writes, Action.submitted, eq_comm]

theorem Action.writes_nodup (a : Action) : (a.writes.map Prod.fst).Nodup := by
  rcases a with (_ | f) | (_ | f) | f | name <;> simp [Action.writes]

theorem submitted_passes {r : Run} {a : Action} {s : Setting} {v : Line} (h : ActionOk files r a)
    (hs : a.submitted s = some v) : Passes files v := by
  rcases a with (_ | f) | (_ | f) | f | name
  · cases hs
  · have hok : ∀ x ∈ f.list, Passes files x.text := fun x hx => (h.1 x hx).passes
    simp only [DdnsFields.list, List.mem_cons, List.not_mem_nil, or_false, forall_eq_or_imp,
      forall_eq] at hok
    cases s <;> cases hs
    · exact hok.1
    · exact hok.2.1
    · exact hok.2.2.1
    · exact hok.2.2.2
  · cases hs
  · cases s <;> cases hs
    · exact h.2.passes
    · exact h.1.passes
  · cases s <;> cases hs
    exact h.passes
  · cases s <;> cases hs
    exact h.1.passes

end

/-- Every key occurs exactly once. -/
structure Etc.Ready (e : Etc) : Prop extends e.Tidy where
  configOnce : ∀ s, (e.at (.config s)).length = 1
  mirrorOnce : ∀ s, (e.at (.mirror s)).length = 1

/-- What holds between the actions. -/
structure Inv (files : Line → List Line) (start : Etc) (r : Run) : Prop where
  ready : r.etc.Ready
  asked : ∀ s v, r.asked s = some v → Passes files v ∧
    r.etc.at (.config s) = [s.key ++ ['='] ++ v] ∧ r.etc.at (.mirror s) = [s.mirrorLead ++ v]
  kept : ∀ s, r.asked s = none →
    r.etc.at (.config s) = start.at (.config s) ∧ r.etc.at (.mirror s) = start.at (.mirror s)

section
variable {other : Line → List Line → List Line} {files : Line → List Line} {start : Etc}

/-- The line of a setting after the writes of an action. -/
theorem writes_at_setting {a : Action} {e : Etc} {p : Place} {s : Setting}
    (h : (e.at p).length = 1) (hp : ∀ v, (p, v) ∈ a.writes ↔ a.submitted s = some v) :
    (a.submitted s = none → (e.writes a.writes).at p = e.at p) ∧
      (∀ v, a.submitted s = some v → (e.writes a.writes).at p = [p.lead ++ v]) ∧
      ((e.writes a.writes).at p).length = 1 := by
  rcases Etc.writes_at a.writes_nodup e p with ⟨hno, hat⟩ | ⟨v, hv, hat⟩
  · refine ⟨fun _ => hat, fun v hs => ?_, by rw [hat, h]⟩
    exact absurd (List.mem_map.mpr ⟨(p, v), (hp v).mpr hs, rfl⟩) hno
  · obtain ⟨l, hl⟩ := List.length_eq_one_iff.mp h
    have hsub := (hp v).mp hv
    rw [hl] at hat
    refine ⟨fun hs => ?_, fun u hs => ?_, by rw [hat]; rfl⟩
    · rw [hsub] at hs
      cases hs
    · rw [hsub] at hs
      rw [hat, Option.some.inj hs]
      rfl

theorem step_inv {r t : Run} {a : Action} (h : Inv files start r) (hok : ActionOk files r a)
    (hs : actionStep other files r a = some t) : Inv files start t := by
  obtain rfl := Option.some.inj hs
  obtain ⟨heq, htidy⟩ := applyAction_writes other h.ready.toTidy hok
  have hconfig (s : Setting) := writes_at_setting (a := a) (h.ready.configOnce s)
    fun v => (a.writes_submitted s v).1
  have hmirror (s : Setting) := writes_at_setting (a := a) (h.ready.mirrorOnce s)
    fun v => (a.writes_submitted s v).2
  rw [heq]
  refine ⟨⟨htidy, fun s => (hconfig s).2.2, fun s => (hmirror s).2.2⟩, fun s v hv => ?_,
    fun s hn => ?_⟩
  · cases hsub : a.submitted s with
    | some u =>
      simp only [hsub, Option.some_or, Option.some.injEq] at hv
      subst hv
      exact ⟨submitted_passes hok hsub, (hconfig s).2.1 u hsub, (hmirror s).2.1 u hsub⟩
    | none =>
      simp only [hsub, Option.none_or] at hv
      obtain ⟨hp, hc, hm⟩ := h.asked s v hv
      exact ⟨hp, ((hconfig s).1 hsub).trans hc, ((hmirror s).1 hsub).trans hm⟩
  · cases hsub : a.submitted s with
    | some u => simp [hsub] at hn
    | none =>
      simp only [hsub, Option.none_or] at hn
      obtain ⟨hc, hm⟩ := h.kept s hn
      exact ⟨((hconfig s).1 hsub).trans hc, ((hmirror s).1 hsub).trans hm⟩

/-- `get_config` looks at the lines of its key only. -/
theorem filterMap_sedValue {key : Line} (hk : Key key) (config : List Line) :
    config.filterMap (sedValue key) = (keyed (key ++ ['=']) config).map (List.drop (key.length + 1)) := by
  induction config with
  | nil => rfl
  | cons l config ih =>
    have hvalue := sedValue_word hk l
    by_cases h : key ++ ['='] <+: l
    · rw [if_pos h] at hvalue
      rw [List.filterMap_cons_some hvalue, ih, keyed, keyed, List.filter_cons_of_pos (by simpa using h)]
      rfl
    · rw [if_neg h] at hvalue
      rw [List.filterMap_cons_none hvalue, ih, keyed, keyed, List.filter_cons_of_neg (by simpa using h)]

end

/-- A setting in a state of a run from `start`. -/
structure Mirrored (files : Line → List Line) (start : Etc) (r : Run) (s : Setting) : Prop where
  asked : ∀ v, r.asked s = some v →
    getConfig files s.key (r.etc .config) = v ∧ r.etc.at (.mirror s) = [s.mirrorLead ++ v]
  kept : r.asked s = none →
    getConfig files s.key (r.etc .config) = getConfig files s.key (start .config) ∧
      r.etc.at (.mirror s) = start.at (.mirror s)
  agrees : (r.asked s = none →
      start.at (.mirror s) = [s.mirrorLead ++ getConfig files s.key (start .config)]) →
    r.etc.at (.mirror s) = [s.mirrorLead ++ getConfig files s.key (r.etc .config)]

/-- From files in which every key occurs once, by any actions that are in order: the pages'
configuration and the file of the service carry what was last asked for, and a setting that was
not asked for is as it was. -/
theorem mirrors_agree (other : Line → List Line → List Line) (files : Line → List Line)
    {start : Etc} (hr : start.Ready) {r : Run}
    (h : Reach (actionStep other files) (ActionOk files) ⟨start, fun _ => none⟩ r) (s : Setting) :
    Mirrored files start r s := by
  have hinv : Inv files start r := by
    refine h.invariant (I := Inv files start) ⟨hr, ?_, fun _ _ => ⟨rfl, rfl⟩⟩ ?_
    · intro s v hv
      cases hv
    · intro u a t hu hok ht
      exact step_inv hu hok ht
  have hasked (v : Line) (hv : r.asked s = some v) :
      getConfig files s.key (r.etc .config) = v ∧ r.etc.at (.mirror s) = [s.mirrorLead ++ v] := by
    obtain ⟨hp, hc, hm⟩ := hinv.asked s v hv
    refine ⟨getConfig_single ?_ (fun c hc => (hp.chars c hc).1) hp.toShown, hm⟩
    rw [filterMap_sedValue s.word, show keyed (s.key ++ ['=']) (r.etc .config) = _ from hc]
    simp [List.drop_append]
  have hkept (hn : r.asked s = none) :
      getConfig files s.key (r.etc .config) = getConfig files s.key (start .config) ∧
        r.etc.at (.mirror s) = start.at (.mirror s) := by
    obtain ⟨hc, hm⟩ := hinv.kept s hn
    refine ⟨?_, hm⟩
    rw [getConfig, getConfig, filterMap_sedValue s.word, filterMap_sedValue s.word]
    exact congrArg (fun ls => echo ("-n".toList :: unquoted (metaOnly files)
      (List.map (List.drop (s.key.length + 1)) ls))) hc
  refine ⟨hasked, hkept, fun hstart => ?_⟩
  cases hv : r.asked s with
  | some v =>
    obtain ⟨hc, hm⟩ := hasked v hv
    rw [hc, hm]
  | none =>
    obtain ⟨hc, hm⟩ := hkept hv
    rw [hc, hm, hstart hv]

/-- The lines of the shipped files that the actions write. -/
def excerpt : Etc
  | .config => ["hostname=snake", "samba_enable=1", "smbworkgroup=WORKGROUP", "smbsecurity=SHARE",
      "ftp_enable=0", "ftp_anonymous=0", "ftp_anonrw=0", "ftp_anononly=0", "ftp_anondir=/usb",
      "ddns_enable=0", "ddns_provider=dyndns@dyndns.org", "ddns_alias=", "ddns_user=",
      "ddns_pass="].map String.toList
  | .inadyn => ["dyndns_system dyndns@dyndns.org", "alias ", "username ",
      "password "].map String.toList
  | .smb => ["server string = SNAKE", "security = SHARE", "workgroup = WORKGROUP"].map String.toList
  | .vsftpd => ["anon_root=/usb", "anonymous_enable=NO", "anon_upload_enable=NO",
      "anon_mkdir_write_enable=NO", "local_enable=YES"].map String.toList

theorem excerpt_ready : excerpt.Ready := by
  have hlines : ∀ f ∈ [File.config, .inadyn, .smb, .vsftpd], ∀ l ∈ excerpt f, '\n' ∉ l := by
    decide +kernel
  have hkeys : ∀ s ∈ Setting.all, (excerpt.at (.config s)).length = 1 ∧
      (excerpt.at (.mirror s)).length = 1 ∧
      ∀ l ∈ excerpt .smb, s.mirrorKey <:+: l → s.mirrorKey <+: l := by decide +kernel
  exact ⟨⟨fun f => hlines f (by cases f <;> decide), fun s _ => (hkeys s s.mem_all).2.2⟩,
    fun s => (hkeys s s.mem_all).1, fun s => (hkeys s s.mem_all).2.1⟩

/-- A DDNS account with the given alias. -/
def account (name : Field) : DdnsFields :=
  ⟨⟨"default@no-ip.com".toList, by decide⟩, name, ⟨"joe".toList, by decide⟩,
    ⟨"secret".toList, by decide⟩⟩

/-- The excerpt after one action. -/
def afterAction (a : Action) : Run :=
  ⟨applyAction (fun _ l => l) (fun _ => []) excerpt a, fun s => (a.submitted s).or none⟩

theorem Field.ok_of {f : Field} {delims : List Char} (hc : ∀ c ∈ f.text, Literal c ∧ c ∉ delims)
    (ho : isEchoOption f.text = false) : f.Ok (fun _ => []) delims :=
  ⟨hc, ho, by simp [expandWord, metaOnly]⟩

def nasAlias : Field := ⟨"nas.no-ip.org".toList, by decide⟩

theorem nasAlias_ok (r : Run) : ActionOk (fun _ => []) r (.ddns (some (account nasAlias))) := by
  refine ⟨fun x hx => ?_, by decide +kernel⟩
  have hall : ∀ x ∈ (account nasAlias).list, (∀ c ∈ x.text, Literal c ∧ c ∉ ['%', ',']) ∧
      isEchoOption x.text = false := by decide +kernel
  exact Field.ok_of (hall x hx).1 (hall x hx).2

/-- After an account was set. -/
theorem mirrors_agree_account : Mirrored (fun _ => []) excerpt
    (afterAction (.ddns (some (account nasAlias)))) .ddnsAlias :=
  mirrors_agree (fun _ l => l) (fun _ => []) excerpt_ready (Reach.start.next (nasAlias_ok _) rfl)
    .ddnsAlias

def commaAlias : Field := ⟨"a,b".toList, by decide⟩

/-- A comma in the alias: the configuration takes it, `inadyn.conf` stays as it was. -/
theorem alias_comma_refused : excerpt.Ready ∧ ∃ r : Run,
    Reach (actionStep (fun _ l => l) fun _ => []) anyStep ⟨excerpt, fun _ => none⟩ r ∧
    r.asked .ddnsAlias = some "a,b".toList ∧
    getConfig (fun _ => []) Setting.ddnsAlias.key (r.etc .config) = "a,b".toList ∧
    r.etc.at (.mirror .ddnsAlias) = ["alias ".toList] ∧
    ¬ Mirrored (fun _ => []) excerpt r .ddnsAlias := by
  have hreach : Reach (actionStep (fun _ l => l) fun _ => []) anyStep ⟨excerpt, fun _ => none⟩
      (afterAction (.ddns (some (account commaAlias)))) := Reach.start.next trivial rfl
  obtain ⟨hget, hat⟩ : getConfig (fun _ => []) Setting.ddnsAlias.key
      ((afterAction (.ddns (some (account commaAlias)))).etc .config) = "a,b".toList ∧
      (afterAction (.ddns (some (account commaAlias)))).etc.at (.mirror .ddnsAlias) =
        ["alias ".toList] := by
    decide +kernel
  refine ⟨excerpt_ready, _, hreach, rfl, hget, hat, fun h => ?_⟩
  have hm := (h.asked "a,b".toList rfl).2
  rw [hat] at hm
  revert hm
  decide

end SnakeOs.Config
