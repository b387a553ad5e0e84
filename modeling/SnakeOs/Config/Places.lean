import Mathlib.Data.List.GetD
import SnakeOs.Config.Pages

/-! The lines that the actions of the pages write, and their commands as writes to such lines. -/

namespace SnakeOs.Config
open Lib

/-- Lines that the actions write beside the settings. -/
inductive Switch
  | ddnsEnable
  | sambaEnable
  | ftpEnable
  | ftpAnonymous
  | ftpAnonrw
  | ftpAnononly
  | anonymousEnable
  | localEnable
  | anonUploadEnable
  | anonMkdirWriteEnable
deriving DecidableEq

def Switch.key : Switch → Line
  | .ddnsEnable => "ddns_enable".toList
  | .sambaEnable => "samba_enable".toList
  | .ftpEnable => "ftp_enable".toList
  | .ftpAnonymous => "ftp_anonymous".toList
  | .ftpAnonrw => "ftp_anonrw".toList
  | .ftpAnononly => "ftp_anononly".toList
  | .anonymousEnable => "anonymous_enable".toList
  | .localEnable => "local_enable".toList
  | .anonUploadEnable => "anon_upload_enable".toList
  | .anonMkdirWriteEnable => "anon_mkdir_write_enable".toList

def Switch.file : Switch → File
  | .anonymousEnable | .localEnable | .anonUploadEnable | .anonMkdirWriteEnable => .vsftpd
  | _ => .config

/-- The key of a setting in `/etc/default/config`. -/
def Setting.key : Setting → Line
  | .ddnsProvider => "ddns_provider".toList
  | .ddnsAlias => "ddns_alias".toList
  | .ddnsUser => "ddns_user".toList
  | .ddnsPass => "ddns_pass".toList
  | .smbworkgroup => "smbworkgroup".toList
  | .smbsecurity => "smbsecurity".toList
  | .hostname => "hostname".toList
  | .ftpAnondir => "ftp_anondir".toList

def Setting.file : Setting → File
  | .ddnsProvider | .ddnsAlias | .ddnsUser | .ddnsPass => .inadyn
  | .smbworkgroup | .smbsecurity | .hostname => .smb
  | .ftpAnondir => .vsftpd

/-- What the line of a setting starts with in the file of its service. -/
def Setting.mirrorKey : Setting → Line
  | .ddnsProvider => "dyndns_system".toList
  | .ddnsAlias => "alias".toList
  | .ddnsUser => "username".toList
  | .ddnsPass => "password".toList
  | .smbworkgroup => "workgroup = ".toList
  | .smbsecurity => "security = ".toList
  | .hostname => "server string = ".toList
  | .ftpAnondir => "anon_root=".toList

/-- What stands in front of the value there. -/
def Setting.mirrorLead : Setting → Line
  | .ddnsProvider => "dyndns_system ".toList
  | .ddnsAlias => "alias ".toList
  | .ddnsUser => "username ".toList
  | .ddnsPass => "password ".toList
  | .smbworkgroup => "workgroup = ".toList
  | .smbsecurity => "security = ".toList
  | .hostname => "server string = ".toList
  | .ftpAnondir => "anon_root=".toList

/-- A line of one of the files. -/
inductive Place
  | config (s : Setting)
  | mirror (s : Setting)
  | switch (k : Switch)
deriving DecidableEq

def Place.file : Place → File
  | .config _ => .config
  | .mirror s => s.file
  | .switch k => k.file

def Place.key : Place → Line
  | .config s => s.key ++ ['=']
  | .mirror s => s.mirrorKey
  | .switch k => k.key ++ ['=']

def Place.lead : Place → Line
  | .config s => s.key ++ ['=']
  | .mirror s => s.mirrorLead
  | .switch k => k.key ++ ['=']

def Setting.all : List Setting := [.ddnsProvider, .ddnsAlias, .ddnsUser, .ddnsPass, .smbworkgroup,
  .smbsecurity, .hostname, .ftpAnondir]

def Place.all : List Place := Setting.all.map .config ++ Setting.all.map .mirror ++
  [.ddnsEnable, .sambaEnable, .ftpEnable, .ftpAnonymous, .ftpAnonrw, .ftpAnononly,
    .anonymousEnable, .localEnable, .anonUploadEnable, .anonMkdirWriteEnable].map .switch

theorem Place.mem_all (p : Place) : p ∈ all := by
  cases p with
  | config s => cases s <;> decide
  | mirror s => cases s <;> decide
  | switch k => cases k <;> decide

/-- The keys are plain words, and none of a file starts another. -/
theorem Place.facts : ∀ p ∈ all, p.key <+: p.lead ∧
    (∀ c ∈ p.key, PlainEre c ∧ c ≠ '\n' ∧ c ∉ ['%', ',', '/']) ∧
    (∀ c ∈ p.lead, Literal c ∧ c ∉ ['%', ',', '/']) ∧
    ∀ q ∈ all, p.file = q.file → p.key <+: q.key → p = q := by decide +kernel

/-- The value `v` at a place. -/
def Etc.write (e : Etc) (p : Place) (v : Line) : Etc := e.edit p.file (setLines p.key (p.lead ++ v))

/-- The lines at a place. -/
def Etc.at (e : Etc) (p : Place) : List Line := keyed p.key (e p.file)

def Etc.writes (e : Etc) (ws : List (Place × Line)) : Etc := ws.foldl (fun e w => e.write w.1 w.2) e

section
variable {e : Etc} {p q : Place} {v : Line}

theorem Etc.write_at_self : (e.write p v).at p = (e.at p).map fun _ => p.lead ++ v := by
  rw [Etc.at, Etc.write, Etc.edit, Function.update_self]
  exact keyed_setLines_self ((p.facts p.mem_all).1.trans (List.prefix_append _ _)) _

theorem Etc.write_at_of_ne (h : p ≠ q) : (e.write p v).at q = e.at q := by
  rw [Etc.at, Etc.write, Etc.edit]
  by_cases hf : q.file = p.file
  · rw [hf, Function.update_self]
    refine (keyed_setLines_of_apart ((p.facts p.mem_all).1.trans (List.prefix_append _ _)) ?_ ?_ _).trans
      (by rw [Etc.at, hf])
    · exact fun hpre => h ((p.facts p.mem_all).2.2.2 q q.mem_all hf.symm hpre)
    · exact fun hpre => h ((q.facts q.mem_all).2.2.2 p p.mem_all hf hpre).symm
  · rw [Function.update_of_ne hf]
    rfl

/-- After a list of writes to different places. -/
theorem Etc.writes_at {ws : List (Place × Line)} (hn : (ws.map Prod.fst).Nodup) (e : Etc) (p : Place) :
    (p ∉ ws.map Prod.fst ∧ (e.writes ws).at p = e.at p) ∨
      ∃ v, (p, v) ∈ ws ∧ (e.writes ws).at p = (e.at p).map fun _ => p.lead ++ v := by
  induction ws generalizing e with
  | nil => exact .inl ⟨by simp, rfl⟩
  | cons w ws ih =>
    obtain ⟨q, v⟩ := w
    obtain ⟨hq, hn⟩ := List.nodup_cons.mp hn
    rcases ih hn (e.write q v) with ⟨hp, hat⟩ | ⟨u, hu, hat⟩
    · by_cases hpq : q = p
      · subst hpq
        exact .inr ⟨v, List.mem_cons_self, hat.trans Etc.write_at_self⟩
      · refine .inl ⟨?_, hat.trans (Etc.write_at_of_ne hpq)⟩
        simpa [Ne.symm hpq] using hp
    · have hpq : q ≠ p := fun he => hq (he ▸ List.mem_map.mpr ⟨(p, u), hu, rfl⟩)
      exact .inr ⟨u, List.mem_cons_of_mem _ hu, hat.trans (by rw [Etc.write_at_of_ne hpq])⟩

/-- Files of lines, where the keys of `smb.conf` start their lines. -/
structure Etc.Tidy (e : Etc) : Prop where
  lines : ∀ f, ∀ l ∈ e f, '\n' ∉ l
  starts : ∀ s : Setting, s.file = .smb → ∀ l ∈ e .smb, s.mirrorKey <:+: l → s.mirrorKey <+: l

theorem Setting.mem_all (s : Setting) : s ∈ all := by cases s <;> decide

/-- The keys of `smb.conf` end in a blank, so they do not reach into values. -/
theorem mirrorKey_smb {s t : Setting} (hs : s.file = .smb) (ht : t.file = .smb)
    (hv : ' ' ∉ v) (h : s.mirrorKey <:+: t.mirrorLead ++ v) : s = t := by
  have hkeys : ∀ s ∈ Setting.all, s.file = .smb →
      s.mirrorKey = s.mirrorKey.dropLast ++ [' '] ∧
      ∀ t ∈ Setting.all, t.file = .smb → s.mirrorKey <:+: t.mirrorLead → s = t := by
    decide +kernel
  obtain ⟨hend, hin⟩ := hkeys s s.mem_all hs
  rw [hend] at h
  exact hin t t.mem_all ht (hend ▸ infix_left hv h)

theorem Etc.Tidy.write (h : e.Tidy) (hv : ∀ c ∈ v, isBlank c = false ∧ c ≠ '\n') :
    (e.write p v).Tidy := by
  have hspace : ' ' ∉ v := fun hm => by simpa [isBlank] using (hv _ hm).1
  refine ⟨fun f l hl => ?_, fun s hs l hl => ?_⟩
  · by_cases hf : f = p.file
    · rw [Etc.write, Etc.edit, hf, Function.update_self] at hl
      rcases mem_setLines hl with rfl | hl
      · intro hm
        rcases List.mem_append.mp hm with hm | hm
        · exact ((p.facts p.mem_all).2.2.1 _ hm).1.2.2 rfl
        · exact (hv _ hm).2 rfl
      · exact h.lines _ l hl
    · rw [Etc.write, Etc.edit, Function.update_of_ne hf] at hl
      exact h.lines f l hl
  · by_cases hf : File.smb = p.file
    · rw [Etc.write, Etc.edit, hf, Function.update_self] at hl
      rcases mem_setLines hl with rfl | hl
      · intro hin
        cases p with
        | config t => cases hf
        | switch k => cases k <;> cases hf
        | mirror t =>
          obtain rfl := mirrorKey_smb hs hf.symm hspace hin
          exact ((Place.mirror s).facts (Place.mem_all _)).1.trans (List.prefix_append _ _)
      · exact h.starts s hs l (hf ▸ hl)
    · rw [Etc.write, Etc.edit, Function.update_of_ne hf] at hl
      exact h.starts s hs l hl

end

section
variable {other : Line → List Line → List Line} {files : Line → List Line} {e : Etc} {v : Line}

/-- Text without blanks that the shell passes on as it is. -/
structure Passes (files : Line → List Line) (v : Line) : Prop extends Shown files v where
  chars : ∀ c ∈ v, isBlank c = false ∧ c ≠ '\n' ∧ c ≠ '\x00'

theorem Passes.words (h : Passes files v) :
    unquoted (metaOnly files) [v] = if v = [] then [] else [v] := by
  rw [unquoted, List.flatMap_singleton]
  by_cases hv : v = []
  · rw [if_pos hv, hv]
    rfl
  · rw [if_neg hv, Word.split ⟨hv, fun c hc => (h.chars c hc).1⟩, List.flatMap_singleton, h.expand]

theorem Passes.argument (h : Passes files v) : argument files v = v := by
  rw [Config.argument, h.words]
  split
  · rename_i hv
    exact hv.symm
  · rfl

theorem Passes.firstField (h : Passes files v) : firstField files v = v := by
  have hn : '\n' ∉ v := fun hm => (h.chars _ hm).2.1 rfl
  have h0 : '\x00' ∉ v := fun hm => (h.chars _ hm).2.2 rfl
  have hs : ' ' ∉ v := fun hm => by simpa [isBlank] using (h.chars _ hm).1
  have hecho : echo (unquoted (metaOnly files) [v]) = v ++ ['\n'] := by
    rw [h.words]
    split
    · rename_i hv
      rw [hv]
      rfl
    · simp [echo, echoFrom, h.option, echoText]
  rw [Config.firstField, hecho, textLines_line hn, List.nil_append, textLines, if_pos rfl,
    List.flatMap_singleton, cutField_none hs]
  exact cmdSubst_newlines h0 hn 1

/-- Empty values leave no word. -/
theorem unquoted_fields {vs : List Line} (h : ∀ v ∈ vs, Passes files v) :
    unquoted (metaOnly files) vs = vs.filter (· ≠ []) := by
  induction vs with
  | nil => rfl
  | cons v vs ih =>
    have hcons : unquoted (metaOnly files) (v :: vs) =
        unquoted (metaOnly files) [v] ++ unquoted (metaOnly files) vs := by
      simp [unquoted]
    rw [hcons, (h v List.mem_cons_self).words, ih fun x hx => h x (List.mem_cons_of_mem v hx)]
    by_cases hv : v = [] <;> simp [hv]

/-- When no empty value stands before another, the words keep their numbers. -/
theorem getD_filter {vs : List Line} (h : vs.filter (· ≠ []) <+: vs) (i : Nat) :
    (vs.filter (· ≠ [])).getD i [] = vs.getD i [] := by
  obtain ⟨rest, hr⟩ := h
  have hrest : ∀ x ∈ rest, x = [] := by
    have hfilter := congrArg (List.filter (· ≠ [])) hr
    rw [List.filter_append, List.filter_filter] at hfilter
    simp only [Bool.and_self, List.append_right_eq_self] at hfilter
    simpa using hfilter
  generalize vs.filter (· ≠ []) = ws at hr
  rw [← hr]
  by_cases hi : i < ws.length
  · rw [List.getD_append _ _ _ _ hi]
  · have hle : ws.length ≤ i := Nat.le_of_not_lt hi
    rw [List.getD_append_right _ _ _ _ hle, List.getD_eq_default _ _ hle, List.getD_eq_getElem?_getD]
    cases hx : rest[i - ws.length]? with
    | none => rfl
    | some x => exact (hrest x (List.mem_of_getElem? hx)).symm

theorem Setting.word (s : Setting) : Key s.key := by cases s <;> decide

theorem Switch.word (k : Switch) : Key k.key := by cases k <;> decide

/-- `set_config` on a line of the configuration. -/
theorem configSet_write {key : Line} {p : Place} (hf : p.file = .config) (hk : p.key = key ++ ['='])
    (hl : p.lead = key ++ ['=']) (hw : Key key) (ht : e.Tidy) (hp : Passes files v)
    (hv : ∀ c ∈ v, Writable c) : configSet other files key v e = e.write p v := by
  rw [configSet, hp.argument, Etc.write, hf, hk, hl, Etc.edit, Etc.edit,
    setConfig_eq hw hv (ht.lines .config)]
  simp [setting]

/-- The command for the file of a service. -/
theorem sed_mirror {s : Setting} {d : Char} {anchor : Line} (hd : d ∈ ['%', ',', '/'])
    (ha : anchor = ['^'] ∨ anchor = [] ∧ s.file = .smb) (ht : e.Tidy)
    (hv : ∀ c ∈ v, Literal c ∧ c ≠ d) :
    e.edit s.file (sed other (substCmd d anchor s.mirrorKey (s.mirrorLead ++ v))) =
      e.write (.mirror s) v := by
  obtain ⟨-, hkey, hlead, -⟩ := (Place.mirror s).facts (Place.mem_all _)
  have hchars : ∀ d ∈ ['%', ',', '/'], d ∉ ['\\', '[', '.', '*', '^'] ∧ d ≠ '\n' := by decide
  have hdelim : Delimits d s.mirrorKey (s.mirrorLead ++ v) := by
    refine ⟨(hchars d hd).1, fun hm => (hkey d hm).2.2 hd, fun hm => ?_⟩
    · rcases List.mem_append.mp hm with hm | hm
      · exact (hlead d hm).2 hd
      · exact (hv d hm).2 rfl
  have hdn : d ≠ '\n' := (hchars d hd).2
  have hplain : ∀ c ∈ s.mirrorKey, PlainEre c ∧ c ≠ '\n' := fun c hc => ⟨(hkey c hc).1, (hkey c hc).2.1⟩
  have htext : ∀ c ∈ s.mirrorLead ++ v, Literal c := by
    intro c hc
    rcases List.mem_append.mp hc with hc | hc
    · exact (hlead c hc).1
    · exact (hv c hc).1
  rw [Etc.write, Etc.edit, Etc.edit]
  congr 1
  rcases ha with rfl | ⟨rfl, hs⟩
  · exact sed_start hdelim hdn hplain htext (ht.lines _)
  · exact sed_any hdelim hdn hplain htext (ht.lines _) (hs ▸ ht.starts s hs)

/-- On tidy files `g` makes the writes `ws`. -/
structure Does (g : Etc → Etc) (ws : List (Place × Line)) : Prop where
  eq : ∀ e : Etc, e.Tidy → g e = e.writes ws
  words : ∀ w ∈ ws, ∀ c ∈ w.2, isBlank c = false ∧ c ≠ '\n'

theorem Etc.Tidy.writes {ws : List (Place × Line)} (h : e.Tidy)
    (hw : ∀ w ∈ ws, ∀ c ∈ w.2, isBlank c = false ∧ c ≠ '\n') : (e.writes ws).Tidy := by
  induction ws generalizing e with
  | nil => exact h
  | cons w ws ih =>
    exact ih (h.write (hw w List.mem_cons_self)) fun x hx => hw x (List.mem_cons_of_mem w hx)

theorem Does.andThen {g h : Etc → Etc} {ws us : List (Place × Line)} (hg : Does g ws)
    (hh : Does h us) : Does (fun e => h (g e)) (ws ++ us) where
  eq e ht := by
    change h (g e) = (ws ++ us).foldl _ e
    rw [hg.eq e ht, hh.eq _ (ht.writes hg.words), List.foldl_append]
    rfl
  words w hw := (List.mem_append.mp hw).elim (hg.words w) (hh.words w)

/-- Both commands of a setting. -/
theorem setBoth_does (other : Line → List Line → List Line) (s : Setting) {d : Char} {anchor : Line}
    (hd : d ∈ ['%', ',', '/']) (ha : anchor = ['^'] ∨ anchor = [] ∧ s.file = .smb)
    (hp : Passes files v) (hv : ∀ c ∈ v, Literal c ∧ c ∉ ['%', d]) :
    Does (setBoth other files s.key s.file
        (fun v => substCmd d anchor s.mirrorKey (s.mirrorLead ++ v)) v)
      [(.config s, v), (.mirror s, v)] := by
  have hw : ∀ c ∈ v, Writable c := fun c hc => ⟨(hv c hc).1, fun he => (hv c hc).2 (by simp [he])⟩
  have hm : ∀ c ∈ v, Literal c ∧ c ≠ d :=
    fun c hc => ⟨(hv c hc).1, fun he => (hv c hc).2 (by simp [he])⟩
  have hb : ∀ c ∈ v, isBlank c = false ∧ c ≠ '\n' :=
    fun c hc => ⟨(hp.chars c hc).1, (hp.chars c hc).2.1⟩
  refine ⟨fun e ht => ?_, by simpa using hb⟩
  rw [setBoth, configSet_write (p := .config s) rfl rfl rfl s.word ht hp hw]
  exact sed_mirror hd ha (ht.write hb) hm

theorem passes_checkbox (checked : Bool) : Passes files (checkbox checked) := by
  cases checked <;> exact ⟨⟨by decide, by simp [expandWord, metaOnly, metaChars, checkbox]⟩, by decide⟩

/-- A switch of the configuration. -/
theorem configSet_does (other : Line → List Line → List Line) (files : Line → List Line) (k : Switch)
    (hf : k.file = .config) (checked : Bool) :
    Does (configSet other files k.key (checkbox checked)) [(.switch k, checkbox checked)] := by
  have hp : Passes files (checkbox checked) := passes_checkbox checked
  have hw : ∀ c ∈ checkbox checked, Writable c := by cases checked <;> decide
  have hb : ∀ c ∈ checkbox checked, isBlank c = false ∧ c ≠ '\n' := by cases checked <;> decide
  exact ⟨fun e ht => configSet_write (p := .switch k) hf rfl rfl k.word ht hp hw, by simpa using hb⟩

def yesNo (on : Bool) : Line := if on then "YES".toList else "NO".toList

theorem vsftpdSwitch_does (other : Line → List Line → List Line) (k : Switch)
    (hf : k.file = .vsftpd) (on : Bool) : Does (vsftpdSwitch other k.key on) [(.switch k, yesNo on)] := by
  obtain ⟨-, hkey, hlead, -⟩ := (Place.switch k).facts (Place.mem_all _)
  have hyes : ∀ c ∈ yesNo on, Literal c ∧ c ≠ ',' := by cases on <;> decide
  have htext : ∀ c ∈ (Place.switch k).lead ++ yesNo on, Literal c ∧ c ≠ ',' := by
    intro c hc
    rcases List.mem_append.mp hc with hc | hc
    · exact ⟨(hlead c hc).1, fun he => (hlead c hc).2 (by simp [he])⟩
    · exact hyes c hc
  have heq : setting k.key (if on then "YES".toList else "NO".toList) =
      (Place.switch k).lead ++ yesNo on := by simp [setting, Place.lead, yesNo]
  have hb : ∀ c ∈ yesNo on, isBlank c = false ∧ c ≠ '\n' := by cases on <;> decide
  refine ⟨fun e ht => ?_, by simpa using hb⟩
  change e.edit .vsftpd _ = e.edit k.file _
  rw [hf, heq, Etc.edit, Etc.edit]
  congr 1
  exact sed_start ⟨by decide, fun hm => (hkey _ hm).2.2 (by simp), fun hm => (htext _ hm).2 rfl⟩
    (by decide) (fun c hc => ⟨(hkey c hc).1, (hkey c hc).2.1⟩) (fun c hc => (htext c hc).1)
    (ht.lines _)

end

end SnakeOs.Config
