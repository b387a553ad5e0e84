import SnakeOs.Config.Funcs
import SnakeOs.Lib.Runs

/-! The scripts that run at boot read `/etc/default/config` with `grep` and `cut`; the
pages read it with `get_config`. -/

namespace SnakeOs.Config
open Lib

/-- `/etc/default/config` as it is shipped. -/
def shippedConfig : List Line := [
  "hostname=snake", "username=root", "password=snake", "", "tzposix=GMT0BST,M3.5.0/1,M10.5.0",
  "tzgeo=Europe/London", "tznum=0", "", "mac_address=", "dhcp_address=1",
  "ip_address=192.168.0.240", "netmask=255.255.255.0", "gateway=192.168.0.1", "dhcp_dns=1",
  "nameserver1=192.168.0.1", "nameserver2=192.168.0.2", "dnsdomain=localdomain", "",
  "ntp_enable=1", "ntp_server=pool.ntp.org", "", "http_port=80", "ssh_port=22", "ssh_timeout=0",
  "ssh_keepalive=0", "ssh_weakkex=0", "", "telnet_enable=0", "", "webserver_enable=0",
  "webserver_port=8080", "webserver_root=/usb", "", "printer_bidi=0", "", "use_swap=1",
  "swapfile=/usb/sda1/swapfile", "", "samba_enable=1", "smbworkgroup=WORKGROUP",
  "smbsecurity=SHARE", "", "ftp_enable=0", "ftp_anonymous=0", "ftp_anonrw=0", "ftp_anononly=0",
  "ftp_anondir=/usb", "", "ddns_enable=0", "ddns_provider=dyndns@dyndns.org", "ddns_alias=",
  "ddns_user=", "ddns_pass=", "", "syslog_path=/var/messages", "syslog_net=0",
  "syslog_addr=0.0.0.0", "", "use_opkg=0", "opkg_disk=sda1"].map String.toList

/-- The keys of the file in their order; empty lines have none. -/
def layout : List (Option Line) :=
  shippedConfig.map fun l => if l = [] then none else some (cutField '=' 1 l)

/-- The keys that `network`, `swapsvc` and `opkg` read. -/
def readerKeys : List Line := ["hostname", "mac_address", "ip_address", "netmask", "gateway",
  "dhcp_address", "dhcp_dns", "nameserver1", "nameserver2", "dnsdomain", "use_swap", "swapfile",
  "use_opkg", "opkg_disk"].map String.toList

/-- `$(grep "key=" /etc/default/config | cut -d = -f 2)`. -/
def bootRead (key : Line) (config : List Line) : Line :=
  cmdSubst (((config.filter (grep (key ++ ['=']))).map (cutField '=' 2)).flatMap (· ++ ['\n']))

/-- A call of `set_config` on a key of the file. -/
structure Call where
  key : Line
  value : Line
  shipped : some key ∈ layout
  chars : ∀ c ∈ value, Writable c ∧ isBlank c = false ∧ c ≠ '\x00'

def callStep (other : Line → List Line → List Line) (config : List Line) (c : Call) :
    Option (List Line) :=
  some (setConfig other c.key c.value config)

/-- The calls after which the readers see the same: the value of a key they read has no `=`
and is printed as it is, and no value holds the text they search for. -/
structure Call.Readable (files : Line → List Line) (c : Call) : Prop where
  own : c.key ∈ readerKeys → '=' ∉ c.value ∧ Shown files c.value
  others : ∀ k ∈ readerKeys, ¬ k ++ ['='] <:+: c.value

/-- The file with the given values. -/
def render (v : Line → Line) : List Line :=
  layout.map fun entry => match entry with
    | none => []
    | some k => setting k (v k)

/-- The values of the shipped file. -/
def shippedValue (key : Line) : Line := (shippedConfig.filterMap (sedValue key)).headD []

/-- The shipped file is made of settings with different keys. -/
theorem shippedConfig_facts : shippedConfig = render shippedValue ∧
    (∀ e ∈ layout, ∀ k ∈ e, Key k ∧ layout.filter (· = some k) = [some k] ∧
      (∀ c ∈ shippedValue k, c ≠ '=' ∧ isBlank c = false ∧ c ≠ '\n' ∧ c ≠ '\x00') ∧
      ∀ key ∈ readerKeys, key <:+ k → key = k) ∧
    ∀ key ∈ readerKeys, some key ∈ layout ∧ isEchoOption (shippedValue key) = false ∧
      (shippedValue key).any (· ∈ metaChars) = false := by
  decide +kernel

theorem layout_keys (k : Line) (hk : some k ∈ layout) : Key k :=
  (shippedConfig_facts.2.1 _ hk k rfl).1

theorem layout_filter (k : Line) (hk : some k ∈ layout) : layout.filter (· = some k) = [some k] :=
  (shippedConfig_facts.2.1 _ hk k rfl).2.1

theorem readerKeys_layout {key : Line} (hr : key ∈ readerKeys) : some key ∈ layout :=
  (shippedConfig_facts.2.2 key hr).1

/-- No key that is read ends another key. -/
theorem readerKeys_suffix {key k : Line} (hr : key ∈ readerKeys) (hk : some k ∈ layout)
    (h : key <:+ k) : key = k :=
  (shippedConfig_facts.2.1 _ hk k rfl).2.2.2 key hr h

theorem setConfig_render {other : Line → List Line → List Line} {v : Line → Line} {key value : Line}
    (hk : some key ∈ layout) (hw : ∀ c ∈ value, Writable c)
    (hv : ∀ k, some k ∈ layout → '\n' ∉ v k) :
    setConfig other key value (render v) = render (Function.update v key value) := by
  have hkey := layout_keys key hk
  have hl : ∀ l ∈ render v, '\n' ∉ l := by
    intro l hl
    obtain ⟨entry, hm, rfl⟩ := List.mem_map.mp hl
    cases entry with
    | none => simp
    | some k =>
      have hkn : '\n' ∉ k := (layout_keys k hm).not_mem rfl
      simp [setting, hkn, hv k hm]
  rw [setConfig_eq hkey hw hl, setLines, render, render, List.map_map]
  refine List.map_congr_left fun entry hm => ?_
  cases entry with
  | none => simp
  | some k =>
    simp only [Function.comp_apply, setting_prefix_iff (hkey.not_mem rfl) ((layout_keys k hm).not_mem rfl)]
    by_cases he : key = k
    · simp [he]
    · simp [he, Function.update_of_ne (Ne.symm he)]

theorem grep_key {key : Line} (hk : Key key) (line : Line) :
    grep (key ++ ['=']) line = true ↔ key ++ ['='] <:+: line := by
  have hplain : ∀ c ∈ key ++ ['='], Plain c := by
    intro c hc
    rcases List.mem_append.mp hc with hc | hc
    · exact (plainEre_of_word (hk c hc)).1
    · rw [List.mem_singleton.mp hc]
      decide
  cases key with
  | nil => exact grep_word (hplain _ List.mem_cons_self) (by simp) line
  | cons c key =>
    exact grep_word (hplain c List.mem_cons_self)
      (fun d hd => hplain d (List.mem_cons_of_mem c hd)) line

/-- One line holds the text that is searched for. -/
theorem grep_setting {key k value : Line} (hr : key ∈ readerKeys) (hk : some k ∈ layout)
    (hv : ¬ key ++ ['='] <:+: value) :
    grep (key ++ ['=']) (setting k value) = decide (k = key) := by
  have hword := layout_keys key (readerKeys_layout hr)
  rw [Bool.eq_iff_iff, grep_key hword, decide_eq_true_iff]
  constructor
  · intro h
    rcases infix_field (hword.not_mem rfl) ((layout_keys k hk).not_mem rfl) h with h | h
    · exact (readerKeys_suffix hr hk h).symm
    · exact absurd h hv
  · rintro rfl
    exact ⟨[], value, by simp [setting]⟩

/-- The values under which every reader sees one line with a plain value. -/
structure Readable (files : Line → List Line) (v : Line → Line) : Prop where
  chars : ∀ k, some k ∈ layout → ∀ c ∈ v k, isBlank c = false ∧ c ≠ '\n' ∧ c ≠ '\x00'
  own : ∀ k ∈ readerKeys, '=' ∉ v k ∧ Shown files (v k)
  others : ∀ k, some k ∈ layout → ∀ key ∈ readerKeys, ¬ key ++ ['='] <:+: v k

section
variable {files : Line → List Line} {v : Line → Line}

/-- The lines and the values of one key. -/
theorem layout_single {α : Type} {key : Line} (hk : some key ∈ layout) {f : Line → Option α} {a : α}
    (hf : ∀ k, some k ∈ layout → f (setting k (v k)) = if k = key then some a else none)
    (hnil : f [] = none) : (render v).filterMap f = [a] := by
  have hsome : (render v).filterMap f =
      (layout.filter (· = some key)).map fun _ => a := by
    rw [render, List.filterMap_map, ← List.filterMap_eq_map, List.filterMap_filter]
    refine List.filterMap_congr fun entry hm => ?_
    cases entry with
    | none => simpa using hnil
    | some k => simpa using hf k hm
  rw [hsome, layout_filter key hk]
  rfl

theorem Readable.getConfig (h : Readable files v) {key : Line} (hkey : some key ∈ layout)
    (hs : Shown files (v key)) : getConfig files key (render v) = v key := by
  have hnil : sedValue key [] = none := by simp [sedValue_word (layout_keys key hkey)]
  refine getConfig_single (layout_single hkey (fun k hk => ?_) hnil)
    (fun c hc => (h.chars key hkey c hc).1) hs
  rw [sedValue_setting (layout_keys key hkey) (layout_keys k hk)]
  by_cases he : key = k
  · simp [he]
  · simp [he, Ne.symm he]

theorem Readable.bootRead (h : Readable files v) {key : Line} (hr : key ∈ readerKeys) :
    bootRead key (render v) = v key := by
  have hkey := readerKeys_layout hr
  have hline : (render v).filter (grep (key ++ ['='])) = [setting key (v key)] := by
    rw [← List.filterMap_eq_filter]
    refine layout_single hkey (fun k hk => ?_) ?_
    · have hg := grep_setting hr hk (h.others k hk key hr)
      by_cases he : k = key
      · rw [if_pos he, Option.guard, if_pos (by simpa [he] using hg), he]
      · rw [if_neg he, Option.guard, if_neg (by simpa [he] using hg)]
    · rw [Option.guard, if_neg]
      rw [grep_key (layout_keys key hkey)]
      simp
  have hcut : cutField '=' 2 (setting key (v key)) = v key := by
    rw [setting, cutField_second _ ((layout_keys key hkey).not_mem rfl),
      List.splitOn_eq_singleton (h.own key hr).1]
    rfl
  have hchars := h.chars key hkey
  rw [Config.bootRead, hline, List.map_singleton, hcut, List.flatMap_singleton]
  exact cmdSubst_newlines (fun hm => (hchars _ hm).2.2 rfl) (fun hm => (hchars _ hm).2.1 rfl) 1

theorem Readable.set (h : Readable files v) {c : Call} (hc : c.Readable files) :
    Readable files (Function.update v c.key c.value) := by
  refine ⟨fun k hk => ?_, fun k hk => ?_, fun k hk => ?_⟩ <;> by_cases he : k = c.key
  · rw [he, Function.update_self]
    intro d hd
    have := c.chars d hd
    exact ⟨this.2.1, this.1.1.2.2, this.2.2⟩
  · rw [Function.update_of_ne he]
    exact h.chars k hk
  · rw [he, Function.update_self]
    exact hc.own (he ▸ hk)
  · rw [Function.update_of_ne he]
    exact h.own k hk
  · rw [he, Function.update_self]
    exact hc.others
  · rw [Function.update_of_ne he]
    exact h.others k hk

end

theorem shipped_readable (files : Line → List Line) : Readable files shippedValue := by
  obtain ⟨-, hkeys, hown⟩ := shippedConfig_facts
  have hequals : ∀ k, some k ∈ layout → '=' ∉ shippedValue k := fun k hk hm =>
    ((hkeys _ hk k rfl).2.2.1 _ hm).1 rfl
  refine ⟨fun k hk c hc => ((hkeys _ hk k rfl).2.2.1 c hc).2, fun k hk => ?_, fun k hk key hr hin => ?_⟩
  · obtain ⟨hl, ho, hm⟩ := hown k hk
    exact ⟨hequals k hl, ho, by simp [expandWord, metaOnly, hm]⟩
  · exact hequals k hk (hin.subset (by simp))

/-- Whatever is set, the scripts that run at boot read what the pages read, as long as every
call is readable. -/
theorem readers_agree (other : Line → List Line → List Line) (files : Line → List Line)
    {config : List Line}
    (h : Reach (callStep other) (fun _ c => c.Readable files) shippedConfig config) :
    ∀ key ∈ readerKeys, bootRead key config = getConfig files key config := by
  have hinv : ∃ v, config = render v ∧ Readable files v := by
    refine h.invariant (I := fun config => ∃ v, config = render v ∧ Readable files v)
      ⟨shippedValue, shippedConfig_facts.1, shipped_readable files⟩ ?_
    rintro _ c t ⟨v, rfl, hv⟩ hc ht
    obtain rfl := Option.some.inj ht
    refine ⟨_, setConfig_render c.shipped (fun d hd => (c.chars d hd).1) fun k hk hn => ?_, hv.set hc⟩
    exact (hv.chars k hk _ hn).2.1 rfl
  obtain ⟨v, rfl, hv⟩ := hinv
  exact fun key hr => (hv.bootRead hr).trans
    (hv.getConfig (readerKeys_layout hr) (hv.own key hr).2).symm

/-- A new name for the device. -/
def renameCall (name : Line) (h : ∀ c ∈ name, Writable c ∧ isBlank c = false ∧ c ≠ '\x00') : Call :=
  ⟨"hostname".toList, name, readerKeys_layout List.mem_cons_self, h⟩

/-- After a call that gives the device another name. -/
theorem readers_agree_renamed :
    bootRead "hostname".toList
        (setConfig (fun _ l => l) "hostname".toList "nas".toList shippedConfig) =
      getConfig (fun _ => []) "hostname".toList
        (setConfig (fun _ l => l) "hostname".toList "nas".toList shippedConfig) := by
  have hread : (renameCall "nas".toList (by decide)).Readable fun _ => [] :=
    ⟨fun _ => ⟨by decide, by decide, by decide⟩, by decide +kernel⟩
  exact readers_agree (fun _ l => l) (fun _ => []) (Reach.start.next hread rfl) _
    List.mem_cons_self

/-- The network script cuts a name at its `=`, the pages show all of it. -/
theorem hostname_cut : ∃ config, Reach (callStep fun _ l => l) anyStep shippedConfig config ∧
    bootRead "hostname".toList config = "a".toList ∧
    getConfig (fun _ => []) "hostname".toList config = "a=b".toList ∧
    ¬ ∀ key ∈ readerKeys, bootRead key config = getConfig (fun _ => []) key config := by
  have hstep : callStep (fun _ l => l) shippedConfig (renameCall "a=b".toList (by decide)) =
      some (setConfig (fun _ l => l) "hostname".toList "a=b".toList shippedConfig) := rfl
  obtain ⟨hboot, hget⟩ : bootRead "hostname".toList
      (setConfig (fun _ l => l) "hostname".toList "a=b".toList shippedConfig) = "a".toList ∧
      getConfig (fun _ => []) "hostname".toList
        (setConfig (fun _ l => l) "hostname".toList "a=b".toList shippedConfig) = "a=b".toList := by
    decide +kernel
  refine ⟨_, Reach.start.next trivial hstep, hboot, hget, fun h => ?_⟩
  have he := h "hostname".toList List.mem_cons_self
  rw [hboot, hget] at he
  revert he
  decide

end SnakeOs.Config
