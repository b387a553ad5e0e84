import SnakeOs.Config.Forms
import SnakeOs.Config.Pages
import SnakeOs.Config.RoundTrip

/-! The network page: what its scripts let through and what its Apply writes. -/

namespace SnakeOs.Config
open Lib

/-- Four groups of one to three digits with dots between them. -/
def dotted (value : Line) : Option (List Line) :=
  if (value.splitOn '.').length = 4 ∧
      ∀ p ∈ value.splitOn '.', p ≠ [] ∧ p.length ≤ 3 ∧ ∀ c ∈ p, c.isDigit = true then
    some (value.splitOn '.')
  else none

def decimal (digits : Line) : Nat := digits.foldl (fun n c => 10 * n + (c.toNat - 48)) 0

/-- `thisSegment > 255`, where a text that is no number is not larger. -/
def exceeds (segment : Line) : Bool := segment.all Char.isDigit && decide (255 < decimal segment)

/-- `validateIP` with the addresses it refuses. `ipArray[0]` is the whole match, so the last
group is not looked at. -/
def validateAddress (refused : List Line) (value : Line) : Bool :=
  decide (value ∉ refused) && match dotted value with
    | none => false
    | some parts => !((value :: parts).take 4).any exceeds

def validateIP : Line → Bool :=
  validateAddress ["0.0.0.0".toList, "255.255.255.255".toList]

def validateIPz : Line → Bool := validateAddress ["255.255.255.255".toList]

/-- What `\s` stands for in a script. -/
def scriptSpaces : List Char :=
  [' ', '\t', '\n', '\x0b', '\x0c', '\r', '\u00a0', '\u1680', '\u2000', '\u2001', '\u2002', '\u2003',
    '\u2004', '\u2005', '\u2006', '\u2007', '\u2008', '\u2009', '\u200a', '\u2028', '\u2029', '\u202f',
    '\u205f', '\u3000', '\ufeff']

def validOctets : List Nat := [255, 254, 252, 248, 240, 224, 192, 128, 0]

/-- The bit-hole loop over the octets from the last one on. -/
def noHoles : Bool → List Nat → Bool
  | _, [] => true
  | false, octet :: octets => noHoles (octet ≠ 0) octets
  | true, octet :: octets => if octet ≠ 255 then false else noHoles true octets

/-- `validateMask`, which removes spaces only for the check. -/
def validateMask (mask : Line) : Bool :=
  match dotted (mask.filter (· ∉ scriptSpaces)) with
  | none => false
  | some parts =>
    let octets := parts.map decimal
    octets.head? ≠ some 0 && octets.getLast? ≠ some 255 && octets.all (· ∈ validOctets) &&
      noHoles false octets.reverse

def hexDigits : List Char := "ABCDEFabcdef0123456789".toList

def macPrefix : Line := "AC:DE:48:".toList

/-- `validateMAC`, when the user goes on. -/
def validateMAC (macaddr : Line) : Bool :=
  let parts := (macPrefix ++ macaddr).splitOn ':'
  parts.length = 6 && parts.all fun p => p ≠ [] && p.length ≤ 2 && p.all (· ∈ hexDigits)

/-- The fields of the form. -/
structure NetworkForm where
  dhcpAddress : Bool
  ip : Line
  mask : Line
  gw : Line
  dhcpDns : Bool
  nameserver1 : Line
  nameserver2 : Line
  dnsdomain : Line
  mac : Line

/-- `validateAllIP`, when the user goes on. -/
def validateAllIP (form : NetworkForm) : Bool :=
  validateIP form.ip && validateMask form.mask && validateIPz form.gw &&
    validateIPz form.nameserver1 && validateIPz form.nameserver2 && validateMAC form.mac

def macKey : Line := "mac_address".toList

/-- The keys that `set_ipinfo` sets. -/
def ipKeys : List Line :=
  ["ip_address".toList, "netmask".toList, "gateway".toList, "dhcp_address".toList]

/-- The keys that `set_dnsinfo` sets. -/
def dnsKeys : List Line :=
  ["nameserver1".toList, "nameserver2".toList, "dnsdomain".toList, "dhcp_dns".toList]

section
variable (other : Line → List Line → List Line) (files : Line → List Line)

/-- `set_config key ${i}` for one argument after the other; those that are missing are empty. -/
def setArguments : List Line → List Line → List Line → List Line
  | [], _, config => config
  | key :: keys, args, config =>
    setArguments keys args.tail
      (setConfig other key ((shellWords files [args.headD []]).headD []) config)

def setIpinfo : List Line → List Line → List Line := setArguments other files ipKeys

def setDnsinfo : List Line → List Line → List Line := setArguments other files dnsKeys

/-- `${X:-0}`. -/
def orZero (value : Line) : Line := if value = [] then ['0'] else value

/-- What the form sends for a checkbox. -/
def boxField (checked : Bool) : Line := if checked then ['1'] else []

/-- POST of `network.cgi`. -/
def networkPost (form : NetworkForm) (config : List Line) : List Line :=
  let field := formField files
  let config := setConfig other macKey (macPrefix ++ field form.mac) config
  let config := setIpinfo other files (shellWords files [field form.ip, field form.mask,
    field form.gw, orZero (field (boxField form.dhcpAddress))]) config
  setDnsinfo other files (shellWords files [field form.nameserver1, field form.nameserver2,
    field form.dnsdomain, orZero (field (boxField form.dhcpDns))]) config

end

/-- The keys of the form with what was submitted for them. The page shows the start of the MAC
address in front of its field. -/
def NetworkForm.submitted (form : NetworkForm) : List (Line × Line) :=
  (macKey, macPrefix ++ form.mac) ::
    (ipKeys.zip [form.ip, form.mask, form.gw, checkbox form.dhcpAddress] ++
      dnsKeys.zip [form.nameserver1, form.nameserver2, form.dnsdomain, checkbox form.dhcpDns])

/-- A mask as it is written: ones and then zeros, in four octets. -/
def DottedMask (mask : Line) : Prop :=
  ∃ a b c d, dotted mask = some [a, b, c, d] ∧ (∀ p ∈ [a, b, c, d], decimal p ≤ 255) ∧
    ∃ k ≤ 32, ((decimal a * 256 + decimal b) * 256 + decimal c) * 256 + decimal d = 2 ^ 32 - 2 ^ k

/-- A configuration in which every key of the form has one line. -/
structure Configured (form : NetworkForm) (config : List Line) : Prop where
  newline : ∀ l ∈ config, '\n' ∉ l
  single : ∀ p ∈ form.submitted, ∃ old, config.filterMap (sedValue p.1) = [old]

/-- The form was saved: its keys have the submitted values in the file and for `get_config`, the
mask is one, and the other keys have what they had. -/
structure Saved (fits : Line → Line → Bool) (form : NetworkForm) (config saved : List Line) :
    Prop where
  stored : ∀ p ∈ form.submitted, saved.filterMap (sedValue p.1) = [p.2]
  shown : ∀ p ∈ form.submitted, ∀ d : Directory, getConfig (d.matching fits) p.1 saved = p.2
  mask : ∀ m ∈ saved.filterMap (sedValue "netmask".toList), DottedMask m
  others : ∀ k, Key k → k ∉ form.submitted.map Prod.fst →
    saved.filterMap (sedValue k) = config.filterMap (sedValue k)

/-- A value that goes through the page as it is. -/
structure Entry (fits : Line → Line → Bool) (value : Line) : Prop extends OneWord value where
  kept : Kept fits value

/-- A form without spaces in its mask and with a domain of one word. -/
structure Entered (fits : Line → Line → Bool) (form : NetworkForm) : Prop where
  mask : ∀ c ∈ form.mask, c ∉ scriptSpaces
  domain : Entry fits form.dnsdomain

/-- The characters of addresses. -/
def addressChar (c : Char) : Bool := c.isAlphanum || c == '.' || c == ':'

theorem not_mem_of_address {c : Char} (h : addressChar c = true) {cs : List Char}
    (hcs : (cs.all fun d => !addressChar d) = true) : c ∉ cs := by
  intro hm
  have := List.all_eq_true.mp hcs c hm
  rw [h] at this
  cases this

theorem entry_of_address {fits : Line → Line → Bool} {value : Line} (hne : value ≠ [])
    (h : ∀ c ∈ value, addressChar c = true) : Entry fits value := by
  have hnot {cs : List Char} (hcs : (cs.all fun d => !addressChar d) = true) {c : Char}
      (hc : c ∈ value) : c ∉ cs := not_mem_of_address (h c hc) hcs
  refine ⟨⟨⟨hne, fun c hc => ?_⟩, fun hm => ?_, fun hm => ?_⟩, fun c hc => ?_, ?_, ?_⟩
  · have : c ∉ [' ', '\t'] := hnot (by decide) hc
    simpa [isBlank] using this
  · exact absurd (h _ hm) (by decide)
  · exact absurd (h _ hm) (by decide)
  · have : c ∉ ['\\', '&', '\n', '%'] := hnot (by decide) hc
    simpa [Writable, Literal, and_assoc] using this
  · refine isEchoOption_eq_false fun hd => ?_
    exact absurd (h '-' (List.mem_of_mem_head? hd)) (by decide)
  · exact Fixed.of_plain fun c hc => hnot (by decide) hc

theorem dotted_some {value : Line} {parts : List Line} (h : dotted value = some parts) :
    ['.'].intercalate parts = value ∧ ∃ a b c d, parts = [a, b, c, d] := by
  unfold dotted at h
  split_ifs at h with hp
  cases h
  refine ⟨List.intercalate_splitOn '.', ?_⟩
  obtain ⟨hlen, -⟩ := hp
  revert hlen
  rcases value.splitOn '.' with _ | ⟨a, _ | ⟨b, _ | ⟨c, _ | ⟨d, _ | ⟨e, ps⟩⟩⟩⟩⟩ <;> simp

/-- An address is made of digits and dots. -/
theorem dotted_chars {value : Line} {parts : List Line} (h : dotted value = some parts) :
    value ≠ [] ∧ ∀ c ∈ value, addressChar c = true := by
  have hparts : ∀ p ∈ parts, ∀ c ∈ p, c.isDigit = true := by
    unfold dotted at h
    split_ifs at h with hp
    cases h
    exact fun p hm => (hp.2 p hm).2.2
  obtain ⟨hjoin, a, b, c, d, rfl⟩ := dotted_some h
  refine ⟨fun he => ?_, fun x hx => ?_⟩
  · rw [he] at hjoin
    simp at hjoin
  · rw [← hjoin] at hx
    rcases mem_intercalate hx with rfl | ⟨p, hp, hx⟩
    · rfl
    · simp [addressChar, Char.isAlphanum, hparts p hp x hx]

theorem entry_of_validateAddress {fits : Line → Line → Bool} {refused : List Line} {value : Line}
    (h : validateAddress refused value = true) : Entry fits value := by
  rw [validateAddress, Bool.and_eq_true] at h
  cases hd : dotted value with
  | none => simp [hd] at h
  | some parts =>
    obtain ⟨hne, hc⟩ := dotted_chars hd
    exact entry_of_address hne hc

theorem validateMAC_chars {mac : Line} (h : validateMAC mac = true) :
    mac ≠ [] ∧ ∀ c ∈ macPrefix ++ mac, addressChar c = true := by
  simp only [validateMAC, Bool.and_eq_true, decide_eq_true_eq, List.all_eq_true] at h
  obtain ⟨hlen, hall⟩ := h
  have hne : mac ≠ [] := by
    rintro rfl
    exact absurd hlen (by decide)
  have hhex : ∀ c ∈ hexDigits, addressChar c = true := by decide
  refine ⟨hne, fun c hc => ?_⟩
  have hm : c ∈ [':'].intercalate ((macPrefix ++ mac).splitOn ':') := by
    rwa [List.intercalate_splitOn]
  rcases mem_intercalate hm with rfl | ⟨p, hp, hc⟩
  · rfl
  · exact hhex c ((hall p hp).2 c hc)

/-- An octet of a mask starts with ones. -/
theorem validOctets_pow {n : Nat} (h : n ∈ validOctets) : ∃ j ≤ 8, n = 256 - 2 ^ j := by
  have hall : ∀ n ∈ validOctets, ∃ j ≤ 8, n = 256 - 2 ^ j := by decide
  exact hall n h

/-- Octets without holes behind the first that is not zero, from the last one on. -/
theorem noHoles_number {a b c d : Nat} (hoctets : ∀ n ∈ [a, b, c, d], ∃ j ≤ 8, n = 256 - 2 ^ j)
    (h : noHoles false [d, c, b, a] = true) :
    ∃ k ≤ 32, ((a * 256 + b) * 256 + c) * 256 + d = 2 ^ 32 - 2 ^ k := by
  have hpow {j : Nat} (hj : j ≤ 8) : 2 ^ j ≤ 256 := Nat.pow_le_pow_right (by decide : 0 < 2) hj
  obtain ⟨ja, hja, ha⟩ := hoctets a (by simp)
  obtain ⟨jb, hjb, hb⟩ := hoctets b (by simp)
  obtain ⟨jc, hjc, hc⟩ := hoctets c (by simp)
  obtain ⟨jd, hjd, hd⟩ := hoctets d (by simp)
  by_cases hd0 : d = 0
  · by_cases hc0 : c = 0
    · by_cases hb0 : b = 0
      · refine ⟨24 + ja, by omega, ?_⟩
        have := hpow hja
        rw [Nat.pow_add]
        omega
      · obtain rfl : a = 255 := by simpa [noHoles, hd0, hc0, hb0] using h
        refine ⟨16 + jb, by omega, ?_⟩
        have := hpow hjb
        rw [Nat.pow_add]
        omega
    · obtain ⟨rfl, rfl⟩ : b = 255 ∧ a = 255 := by simpa [noHoles, hd0, hc0] using h
      refine ⟨8 + jc, by omega, ?_⟩
      have := hpow hjc
      rw [Nat.pow_add]
      omega
  · obtain ⟨rfl, rfl, rfl⟩ : c = 255 ∧ b = 255 ∧ a = 255 := by simpa [noHoles, hd0] using h
    refine ⟨jd, by omega, ?_⟩
    have := hpow hjd
    omega

/-- What the mask check lets through is a mask. -/
theorem dottedMask_of_valid {mask : Line} (h : validateMask mask = true)
    (hs : ∀ c ∈ mask, c ∉ scriptSpaces) : DottedMask mask := by
  have hsame : mask.filter (· ∉ scriptSpaces) = mask :=
    List.filter_eq_self.mpr fun c hc => by simpa using hs c hc
  rw [validateMask, hsame] at h
  cases hd : dotted mask with
  | none => simp [hd] at h
  | some parts =>
    obtain ⟨-, a, b, c, d, rfl⟩ := dotted_some hd
    simp only [hd, Bool.and_eq_true, List.all_eq_true, decide_eq_true_eq, List.map_cons,
      List.map_nil, List.reverse_cons, List.reverse_nil, List.nil_append, List.cons_append] at h
    obtain ⟨⟨-, hoctets⟩, hholes⟩ := h
    refine ⟨a, b, c, d, hd, fun p hp => ?_, noHoles_number (fun n hn => ?_) hholes⟩
    · have hle : ∀ n ∈ validOctets, n ≤ 255 := by decide
      exact hle _ (hoctets (decimal p) (List.mem_map_of_mem hp))
    · exact validOctets_pow (hoctets n hn)

section
variable {fits : Line → Line → Bool} {other : Line → List Line → List Line} {value : Line}
  {config : List Line} {form : NetworkForm}

theorem Entry.expand (h : Entry fits value) (d : Directory) :
    expandWord (d.files fits) value = [value] := h.kept.fixed.expand d

theorem Entry.field (h : Entry fits value) (d : Directory) :
    formField (d.files fits) value = value :=
  formField_single h.toOneWord (h.expand d) h.kept.option

theorem Entry.single (h : Entry fits value) (d : Directory) :
    shellWords (d.files fits) [value] = [value] :=
  shellWords_single h.word h.newline (h.expand d)

theorem Entry.words {values : List Line} (h : ∀ v ∈ values, Entry fits v) (d : Directory) :
    shellWords (d.files fits) values = values := by
  induction values with
  | nil => rfl
  | cons v values ih =>
    have hv := h v List.mem_cons_self
    rw [← List.singleton_append, shellWords_append, ih fun x hx => h x (List.mem_cons_of_mem v hx),
      hv.single d]

theorem entry_checkbox (checked : Bool) : Entry fits (checkbox checked) := by
  cases checked <;> exact entry_of_address (by decide) (by decide)

theorem orZero_field (checked : Bool) (d : Directory) :
    orZero (formField (d.files fits) (boxField checked)) = checkbox checked := by
  cases checked with
  | false => rfl
  | true =>
    have h : Entry fits ['1'] := entry_of_address (by decide) (by decide)
    rw [boxField, if_pos rfl, h.field d]
    rfl

/-- The settings one after the other. -/
def setAll (settings : List (Line × Line)) (config : List Line) : List Line :=
  settings.foldl (fun config p => setLines (p.1 ++ ['=']) (setting p.1 p.2) config) config

/-- Settings that are written as they are. -/
def Plainly (settings : List (Line × Line)) : Prop :=
  ∀ p ∈ settings, Key p.1 ∧ ∀ c ∈ p.2, Writable c

theorem setLines_newline {key : Line} (hk : Key key) (hv : ∀ c ∈ value, Writable c)
    (hl : ∀ l ∈ config, '\n' ∉ l) :
    ∀ l ∈ setLines (key ++ ['=']) (setting key value) config, '\n' ∉ l := by
  intro l hm
  obtain ⟨l', hl', rfl⟩ := List.mem_map.mp hm
  split
  · intro hn
    rcases List.mem_append.mp hn with hn | hn
    · exact hk.not_mem rfl hn
    · rcases List.mem_cons.mp hn with hn | hn
      · cases hn
      · exact (hv _ hn).1.2.2 rfl
  · exact hl l' hl'

theorem setAll_newline {settings : List (Line × Line)} (hs : Plainly settings)
    (hl : ∀ l ∈ config, '\n' ∉ l) : ∀ l ∈ setAll settings config, '\n' ∉ l := by
  induction settings generalizing config with
  | nil => exact hl
  | cons p settings ih =>
    obtain ⟨hk, hv⟩ := hs p List.mem_cons_self
    exact ih (fun q hq => hs q (List.mem_cons_of_mem p hq)) (setLines_newline hk hv hl)

/-- Another key has what it had. -/
theorem setAll_other {settings : List (Line × Line)} (hs : Plainly settings) {k : Line}
    (hk : Key k) (hne : k ∉ settings.map Prod.fst) (config : List Line) :
    (setAll settings config).filterMap (sedValue k) = config.filterMap (sedValue k) := by
  induction settings generalizing config with
  | nil => rfl
  | cons p settings ih =>
    obtain ⟨hp, hrest⟩ := not_or.mp (List.mem_cons.not.mp hne)
    rw [setAll, List.foldl_cons, ← setAll, ih (fun q hq => hs q (List.mem_cons_of_mem p hq)) hrest,
      filterMap_setLines (hs p List.mem_cons_self).1 hk hp]

/-- A key that is set once has its value. -/
theorem setAll_own {settings : List (Line × Line)} (hs : Plainly settings)
    (hn : (settings.map Prod.fst).Nodup) {p : Line × Line} (hp : p ∈ settings)
    (hold : ∃ old, config.filterMap (sedValue p.1) = [old]) :
    (setAll settings config).filterMap (sedValue p.1) = [p.2] := by
  induction settings generalizing config with
  | nil => cases hp
  | cons q settings ih =>
    obtain ⟨hq, hn⟩ := List.nodup_cons.mp hn
    have hrest : Plainly settings := fun r hr => hs r (List.mem_cons_of_mem q hr)
    have hkq := (hs q List.mem_cons_self).1
    obtain ⟨old, hold⟩ := hold
    rw [setAll, List.foldl_cons, ← setAll]
    rcases List.mem_cons.mp hp with rfl | hp
    · rw [setAll_other hrest hkq hq, filterMap_setLines_self hkq, hold]
      rfl
    · have hne : p.1 ≠ q.1 := fun he => hq (he ▸ List.mem_map_of_mem hp)
      refine ih hrest hn hp ⟨old, ?_⟩
      rw [filterMap_setLines hkq (hrest p hp).1 hne, hold]

theorem setArguments_append (other : Line → List Line → List Line) (files : Line → List Line)
    {keys values : List Line} (hlen : keys.length = values.length) (keys' values' config : List Line) :
    setArguments other files (keys ++ keys') (values ++ values') config =
      setArguments other files keys' values' (setArguments other files keys values config) := by
  induction keys generalizing values config with
  | nil =>
    obtain rfl : values = [] := List.length_eq_zero_iff.mp hlen.symm
    rfl
  | cons key keys ih =>
    cases values with
    | nil => cases hlen
    | cons v values => exact ih (Nat.succ.inj hlen) _

/-- `set_config` with one argument after the other. -/
theorem setArguments_eq (other : Line → List Line → List Line) {keys values : List Line}
    (hk : ∀ k ∈ keys, Key k)
    (hv : ∀ v ∈ values, Entry fits v) (hlen : keys.length = values.length)
    (hl : ∀ l ∈ config, '\n' ∉ l) (d : Directory) :
    setArguments other (d.files fits) keys values config = setAll (keys.zip values) config := by
  induction keys generalizing values config with
  | nil => rfl
  | cons key keys ih =>
    cases values with
    | nil => cases hlen
    | cons v values =>
      have hvalue := hv v List.mem_cons_self
      have hkey := hk key List.mem_cons_self
      have hword := hvalue.single d
      have hset : setConfig other key v config = _ := setConfig_eq hkey hvalue.kept.chars hl
      rw [setArguments, List.headD_cons, List.tail_cons, hword, List.headD_cons, hset,
        ih (fun k hm => hk k (List.mem_cons_of_mem key hm))
          (fun x hx => hv x (List.mem_cons_of_mem v hx)) (Nat.succ.inj hlen)
          (setLines_newline hkey hvalue.kept.chars hl)]
      rfl

/-- What the checks of the form say about its fields. -/
structure Validated (fits : Line → Line → Bool) (form : NetworkForm) : Prop where
  ip : Entry fits form.ip
  mask : validateMask form.mask = true
  gw : Entry fits form.gw
  nameserver1 : Entry fits form.nameserver1
  nameserver2 : Entry fits form.nameserver2
  mac : Entry fits form.mac
  macadd : Entry fits (macPrefix ++ form.mac)

theorem validated (h : validateAllIP form = true) : Validated fits form := by
  simp only [validateAllIP, Bool.and_eq_true] at h
  obtain ⟨⟨⟨⟨⟨hip, hmask⟩, hgw⟩, h1⟩, h2⟩, hmac⟩ := h
  obtain ⟨hne, hchars⟩ := validateMAC_chars hmac
  exact ⟨entry_of_validateAddress hip, hmask, entry_of_validateAddress hgw,
    entry_of_validateAddress h1, entry_of_validateAddress h2,
    entry_of_address hne fun c hc => hchars c (List.mem_append_right _ hc),
    entry_of_address (by simp [hne]) hchars⟩

/-- A mask without spaces is an address. -/
theorem Validated.entry (h : Validated fits form) (hs : ∀ c ∈ form.mask, c ∉ scriptSpaces) :
    Entry fits form.mask := by
  obtain ⟨a, b, c, d, hd, -⟩ := dottedMask_of_valid h.mask hs
  obtain ⟨hne, hc⟩ := dotted_chars hd
  exact entry_of_address hne hc

theorem key_mac : Key macKey := by decide

theorem key_ip : ∀ k ∈ ipKeys, Key k := by decide

theorem mem_zip_entry {keys values : List Line} (hk : ∀ k ∈ keys, Key k)
    (hv : ∀ v ∈ values, Entry fits v) : ∀ p ∈ keys.zip values, Key p.1 ∧ Entry fits p.2 := by
  intro p hp
  obtain ⟨hkey, hvalue⟩ := List.of_mem_zip (a := p.1) (b := p.2) hp
  exact ⟨hk _ hkey, hv _ hvalue⟩

theorem plainly_of_entry {settings : List (Line × Line)}
    (h : ∀ p ∈ settings, Key p.1 ∧ Entry fits p.2) : Plainly settings :=
  fun p hp => ⟨(h p hp).1, (h p hp).2.kept.chars⟩

/-- The keys of `set_dnsinfo` in front of the domain, and the others. -/
def serverKeys : List Line := ["nameserver1".toList, "nameserver2".toList]

def domainKey : Line := "dnsdomain".toList

def boxKey : Line := "dhcp_dns".toList

theorem key_server : ∀ k ∈ serverKeys, Key k := by decide

/-- The settings in front of the domain. -/
def NetworkForm.servers (form : NetworkForm) : List (Line × Line) :=
  (macKey, macPrefix ++ form.mac) ::
    (ipKeys.zip [form.ip, form.mask, form.gw, checkbox form.dhcpAddress] ++
      serverKeys.zip [form.nameserver1, form.nameserver2])

theorem NetworkForm.submitted_eq (form : NetworkForm) : form.submitted =
    form.servers ++ [domainKey, boxKey].zip [form.dnsdomain, checkbox form.dhcpDns] := rfl

theorem NetworkForm.submitted_keys (form : NetworkForm) :
    form.submitted.map Prod.fst = macKey :: ipKeys ++ dnsKeys := rfl

theorem Validated.servers (h : Validated fits form) (hm : Entry fits form.mask) :
    ∀ p ∈ form.servers, Key p.1 ∧ Entry fits p.2 := by
  have hip : ∀ v ∈ [form.ip, form.mask, form.gw, checkbox form.dhcpAddress], Entry fits v := by
    simp [h.ip, hm, h.gw, entry_checkbox]
  have hservers : ∀ v ∈ [form.nameserver1, form.nameserver2], Entry fits v := by
    simp [h.nameserver1, h.nameserver2]
  refine List.forall_mem_cons.mpr ⟨⟨key_mac, h.macadd⟩, List.forall_mem_append.mpr ⟨?_, ?_⟩⟩
  · exact mem_zip_entry key_ip hip
  · exact mem_zip_entry key_server hservers

/-- In front of the domain every setting is written as it is. -/
theorem networkPost_servers (other : Line → List Line → List Line) (h : Validated fits form)
    (hm : Entry fits form.mask) (hl : ∀ l ∈ config, '\n' ∉ l) (d : Directory) :
    networkPost other (d.files fits) form config =
      setArguments other (d.files fits) [domainKey, boxKey]
        (shellWords (d.files fits) [formField (d.files fits) form.dnsdomain] ++
          [checkbox form.dhcpDns]) (setAll form.servers config) := by
  have hmac : setConfig other macKey (macPrefix ++ form.mac) config = _ :=
    setConfig_eq key_mac h.macadd.kept.chars hl
  have hvalues : ∀ v ∈ [form.ip, form.mask, form.gw, checkbox form.dhcpAddress], Entry fits v := by
    simp [h.ip, hm, h.gw, entry_checkbox]
  have hservers : ∀ v ∈ [form.nameserver1, form.nameserver2], Entry fits v := by
    simp [h.nameserver1, h.nameserver2]
  have hbox : ∀ v ∈ [checkbox form.dhcpDns], Entry fits v := by simp [entry_checkbox]
  have hmacline := setLines_newline key_mac h.macadd.kept.chars hl
  have hip := setArguments_eq other key_ip hvalues rfl hmacline d
  have hlines : ∀ l ∈ setAll (ipKeys.zip [form.ip, form.mask, form.gw, checkbox form.dhcpAddress])
      (setLines (macKey ++ ['=']) (setting macKey (macPrefix ++ form.mac)) config), '\n' ∉ l :=
    setAll_newline (plainly_of_entry (mem_zip_entry key_ip hvalues)) hmacline
  have hserver := setArguments_eq other key_server hservers rfl hlines d
  have hargs : shellWords (d.files fits) [form.nameserver1, form.nameserver2,
      formField (d.files fits) form.dnsdomain, checkbox form.dhcpDns] =
        [form.nameserver1, form.nameserver2] ++
          (shellWords (d.files fits) [formField (d.files fits) form.dnsdomain] ++
            [checkbox form.dhcpDns]) := by
    have hsplit : shellWords (d.files fits) [form.nameserver1, form.nameserver2,
        formField (d.files fits) form.dnsdomain, checkbox form.dhcpDns] =
          shellWords (d.files fits) [form.nameserver1, form.nameserver2] ++
            (shellWords (d.files fits) [formField (d.files fits) form.dnsdomain] ++
              shellWords (d.files fits) [checkbox form.dhcpDns]) := by
      rw [← shellWords_append, ← shellWords_append]
      rfl
    rw [hsplit, Entry.words hservers, Entry.words hbox]
  have hkeys : dnsKeys = serverKeys ++ [domainKey, boxKey] := rfl
  have hlen : serverKeys.length = [form.nameserver1, form.nameserver2].length := rfl
  have hall : setAll form.servers config = setAll (serverKeys.zip [form.nameserver1, form.nameserver2])
      (setAll (ipKeys.zip [form.ip, form.mask, form.gw, checkbox form.dhcpAddress])
        (setLines (macKey ++ ['=']) (setting macKey (macPrefix ++ form.mac)) config)) := by
    rw [NetworkForm.servers, setAll, List.foldl_cons, List.foldl_append]
    rfl
  simp only [networkPost, h.ip.field d, hm.field d, h.gw.field d, h.mac.field d,
    h.nameserver1.field d, h.nameserver2.field d, orZero_field]
  rw [Entry.words hvalues, hmac, setIpinfo, hip, setDnsinfo, hkeys, hargs, hall,
    setArguments_append other _ hlen, hserver]

/-- A form that is entered well is saved. -/
theorem Entered.saved (he : Entered fits form) (h : Validated fits form)
    (hc : Configured form config) (d : Directory) :
    Saved fits form config (networkPost other (d.files fits) form config) := by
  have hm := h.entry he.mask
  have hvalues : ∀ v ∈ [form.dnsdomain, checkbox form.dhcpDns], Entry fits v := by
    simp [he.domain, entry_checkbox]
  have hkeys : ∀ k ∈ [domainKey, boxKey], Key k := by decide
  have hentries : ∀ p ∈ form.submitted, Key p.1 ∧ Entry fits p.2 :=
    List.forall_mem_append.mpr ⟨h.servers hm, mem_zip_entry hkeys hvalues⟩
  have hplain := plainly_of_entry hentries
  have hpost : networkPost other (d.files fits) form config = setAll form.submitted config := by
    have hset := setArguments_eq other hkeys hvalues rfl
      (setAll_newline (plainly_of_entry (h.servers hm)) hc.newline) d
    rw [networkPost_servers other h hm hc.newline, he.domain.field d, he.domain.single d]
    exact hset.trans (List.foldl_append ..).symm
  have hnodup : (form.submitted.map Prod.fst).Nodup := by
    rw [form.submitted_keys]
    decide
  have hstored : ∀ p ∈ form.submitted,
      (setAll form.submitted config).filterMap (sedValue p.1) = [p.2] :=
    fun p hp => setAll_own hplain hnodup hp (hc.single p hp)
  rw [hpost]
  refine ⟨hstored, fun p hp d => ?_, fun m hm => ?_, fun k hk hne => setAll_other hplain hk hne config⟩
  · have hentry := (hentries p hp).2
    exact getConfig_single (hstored p hp) hentry.word.2 (hentry.kept.shown d)
  · have hmask : ("netmask".toList, form.mask) ∈ form.submitted := by
      simp [NetworkForm.submitted, ipKeys]
    rw [hstored _ hmask] at hm
    rw [List.mem_singleton.mp hm]
    exact dottedMask_of_valid h.mask he.mask

theorem splitOn_first (l : Line) : l.takeWhile (· ≠ '\n') ∈ l.splitOn '\n' := by
  by_cases h : '\n' ∈ l
  · obtain ⟨xs, ys, rfl, hx⟩ := List.eq_append_cons_of_mem h
    have hall : ∀ c ∈ xs, decide (c ≠ '\n') = true := fun c hc => by
      simpa using fun he : c = '\n' => hx (he ▸ hc)
    rw [List.splitOn_append_cons_self_of_not_mem hx, List.takeWhile_append_of_pos hall]
    simp
  · have hall : ∀ c ∈ l, decide (c ≠ '\n') = true := fun c hc => by
      simpa using fun he : c = '\n' => h (he ▸ hc)
    rw [line_splitOn h, List.takeWhile_eq_self_iff.mpr hall]
    exact List.mem_singleton_self l

theorem takeWhile_setting {key : Line} (hk : Key key) (v : Line) :
    (setting key v).takeWhile (· ≠ '\n') = setting key (v.takeWhile (· ≠ '\n')) := by
  have hkey : ∀ c ∈ key, decide (c ≠ '\n') = true := fun c hc => by
    simpa using fun he : c = '\n' => hk.not_mem rfl (he ▸ hc)
  rw [setting, setting, List.takeWhile_append_of_pos hkey, List.takeWhile_cons_of_pos (by decide)]

/-- What `set_config` writes for a key that has a line: if it is shorter than the line, it is not
longer than the value, and shorter if anything in the value is special. -/
theorem setConfig_written (other : Line → List Line → List Line) {key old : Line} (hk : Key key)
    (hn : '\n' ∉ value) (hread : readSubst (setCommand key value) ≠ .other) (hm : setting key old ∈ config)
    (hold : '\n' ∉ setting key old) :
    ∃ v, '\n' ∉ v ∧ setting key v ∈ setConfig other key value config ∧
      (v = old ∨ (setting key old).length ≤ v.length ∨ v.length ≤ value.length ∧
        (value.length ≤ v.length → ∀ c ∈ value, Writable c)) := by
  rcases setConfig_read other hk.dotted hn hread config with ⟨-, hset⟩ | ⟨s, hr, hset⟩
  · refine ⟨old, fun h => hold ?_, by rwa [hset], .inl rfl⟩
    simp [setting, h]
  obtain ⟨text, rest, hreads, rfl, hpercent⟩ := readSubst_setCommand hk.dotted hr
  have hline := hreads.line hold
  rw [if_pos (prefix_startsDotted (prefix_setting key old)), emitted_setting hk.dotted] at hline
  refine ⟨(emitted (setting key old) text).takeWhile (· ≠ '\n'), fun h => ?_, ?_, ?_⟩
  · simpa using List.mem_takeWhile_imp h
  · rw [hset, List.mem_flatMap]
    refine ⟨_, hm, ?_⟩
    have hfirst := splitOn_first (setting key (emitted (setting key old) text))
    rw [takeWhile_setting hk] at hfirst
    rw [hline]
    refine List.mem_flatMap.mpr ⟨_, ?_, hfirst⟩
    cases s.print <;> exact List.mem_cons_self
  · by_cases hlen : (setting key old).length ≤
        ((emitted (setting key old) text).takeWhile (· ≠ '\n')).length
    · exact .inr (.inl hlen)
    · obtain ⟨hle, hplain⟩ := emitted_short hold text (Nat.not_le.mp hlen)
      refine .inr (.inr ⟨hle.trans (by simp), fun hge => ?_⟩)
      rw [List.length_append] at hge
      obtain rfl : rest = [] := List.length_eq_zero_iff.mp (by omega)
      have hplain := hplain (by simpa using hge)
      rw [List.append_nil] at hn ⊢
      exact fun c hc => ⟨⟨(hplain c hc).1, (hplain c hc).2, fun he => hn (he ▸ hc)⟩,
        fun he => hpercent (fun x hx => (hplain x hx).1) (he ▸ hc)⟩

/-- The line of another key stays. -/
theorem setConfig_stays {key k v : Line} (hk : Key key) (hk' : Key k) (hne : key ≠ k)
    (hn : '\n' ∉ value) (hread : readSubst (setCommand key value) ≠ .other)
    (hm : setting k v ∈ config) (hv : '\n' ∉ setting k v) :
    setting k v ∈ setConfig other key value config := by
  rcases setConfig_read other hk.dotted hn hread config with ⟨-, hset⟩ | ⟨s, hr, hset⟩
  · rwa [hset]
  · obtain ⟨text, rest, hreads, rfl, -⟩ := readSubst_setCommand hk.dotted hr
    rw [hset, List.mem_flatMap]
    refine ⟨_, hm, ?_⟩
    have hfits : ¬ startsDotted (key ++ ['=']) (setting k v) = true := by
      rw [startsDotted_plain hk.no_dot, setting_prefix_iff (hk.not_mem rfl) (hk'.not_mem rfl)]
      exact hne
    rw [hreads.line hv, if_neg hfits]
    exact List.mem_singleton_self _

/-- What the shell gives `set_dnsinfo` for the domain, in an empty directory. -/
def domainWords (form : NetworkForm) : List Line :=
  shellWords (fun _ => []) [formField (fun _ => []) form.dnsdomain]

/-- The lines of the keys with one value. -/
theorem filterMap_settings {keys : List Line} (hkeys : ∀ k ∈ keys, Key k) {key : Line}
    (hk : Key key) (v : Line) : (keys.map fun k => setting k v).filterMap (sedValue key) =
      (keys.filter (key = ·)).map fun _ => v := by
  induction keys with
  | nil => rfl
  | cons k keys ih =>
    have ih := ih fun x hx => hkeys x (List.mem_cons_of_mem k hx)
    have hvalue : sedValue key (setting k v) = _ := sedValue_setting hk (hkeys k List.mem_cons_self)
    by_cases he : key = k
    · rw [if_pos he] at hvalue
      rw [List.map_cons, List.filterMap_cons_some hvalue, ih, List.filter_cons_of_pos (by simp [he])]
      rfl
    · rw [if_neg he] at hvalue
      rw [List.map_cons, List.filterMap_cons_none hvalue, ih, List.filter_cons_of_neg (by simp [he])]

/-- The configuration with lines of one length for the keys of the form. -/
def longConfig (n : Nat) : List Line :=
  (macKey :: ipKeys ++ dnsKeys).map fun k => setting k (List.replicate n 'x')

theorem longConfig_single {k : Line} (hk : k ∈ macKey :: ipKeys ++ dnsKeys) (n : Nat) :
    (longConfig n).filterMap (sedValue k) = [List.replicate n 'x'] := by
  have hkeys : ∀ k ∈ macKey :: ipKeys ++ dnsKeys, Key k := by decide
  have hone : ∀ k ∈ macKey :: ipKeys ++ dnsKeys,
      (macKey :: ipKeys ++ dnsKeys).filter (k = ·) = [k] := by decide
  rw [longConfig, filterMap_settings hkeys (hkeys _ hk), hone _ hk]
  rfl

theorem longConfig_configured (form : NetworkForm) (n : Nat) : Configured form (longConfig n) := by
  have hkeys : ∀ k ∈ macKey :: ipKeys ++ dnsKeys, Key k := by decide
  refine ⟨fun l hl => ?_, fun p hp => ⟨_, longConfig_single (List.mem_map_of_mem hp) n⟩⟩
  obtain ⟨k, hk, rfl⟩ := List.mem_map.mp hl
  have hkey : '\n' ∉ k := (hkeys k hk).not_mem rfl
  simp [setting, hkey, List.mem_replicate]

theorem readSubst_box {k : Line} (hk : k ∈ [domainKey, boxKey]) (checked : Bool) :
    readSubst (setCommand k (checkbox checked)) ≠ .other := by
  have hall : ∀ checked, ∀ k ∈ [domainKey, boxKey],
      readSubst (setCommand k (checkbox checked)) ≠ .other := by decide +kernel
  exact hall checked k hk

theorem mem_of_single {key v : Line} (hk : Key key)
    (h : config.filterMap (sedValue key) = [v]) : setting key v ∈ config := by
  obtain ⟨l, hl, hv⟩ := List.mem_filterMap.mp (h ▸ List.mem_singleton_self v)
  exact sedValue_eq_some hk hv ▸ hl

/-- Without a word for the domain the box moves there, and nothing is left for its own key. -/
theorem setArguments_shifted (d : Directory) (hl : ∀ l ∈ config, '\n' ∉ l)
    (hv : Entry fits value) {old : Line} (hold : config.filterMap (sedValue boxKey) = [old]) :
    (setArguments other (d.files fits) [domainKey, boxKey] [value] config).filterMap
      (sedValue boxKey) = [[]] := by
  have hkey : Key domainKey ∧ Key boxKey ∧ boxKey ≠ domainKey := by decide
  have hdomain : setConfig other domainKey value config = _ :=
    setConfig_eq hkey.1 hv.kept.chars hl
  have hlines := setLines_newline hkey.1 hv.kept.chars hl
  have hbox : setConfig other boxKey [] (setLines (domainKey ++ ['=']) (setting domainKey value)
      config) = _ := setConfig_eq hkey.2.1 (by simp) hlines
  have hset : setArguments other (d.files fits) [domainKey, boxKey] [value] config =
      setConfig other boxKey [] (setConfig other domainKey value config) := by
    rw [setArguments, List.headD_cons, hv.single d]
    rfl
  rw [hset, hdomain, hbox, filterMap_setLines_self hkey.2.1,
    filterMap_setLines hkey.1 hkey.2.1 hkey.2.2, hold]
  rfl

/-- The domain that is written for its word. -/
theorem setArguments_domain (other : Line → List Line → List Line) {x y : Line}
    (hw : ∀ w ∈ [x, y], Word w ∧ '\n' ∉ w)
    (hread : ∀ w ∈ [x, y], ∀ k ∈ [domainKey, boxKey], readSubst (setCommand k w) ≠ .other)
    {old : Line} (hold : setting domainKey old ∈ config) (hn : '\n' ∉ setting domainKey old)
    (ws : List Line) : ∃ v, setting domainKey v ∈
        setArguments other (fun _ => []) [domainKey, boxKey] (x :: y :: ws) config ∧
      (v = old ∨ (setting domainKey old).length ≤ v.length ∨ v.length ≤ x.length ∧
        (x.length ≤ v.length → ∀ c ∈ x, Writable c)) := by
  have hkey : Key domainKey ∧ Key boxKey ∧ boxKey ≠ domainKey := by decide
  have hsingle {w : Line} (hm : w ∈ [x, y]) : shellWords (fun _ => []) [w] = [w] :=
    shellWords_single (hw w hm).1 (hw w hm).2 rfl
  obtain ⟨v, hv, hmem, hlen⟩ := setConfig_written other hkey.1 (hw x (by simp)).2
    (hread x (by simp) domainKey (by simp)) hold hn
  have hline : '\n' ∉ setting domainKey v := by
    simp [setting, hkey.1.not_mem, hv]
  refine ⟨v, ?_, hlen⟩
  simp only [setArguments, List.headD_cons, List.tail_cons, hsingle (w := x) (by simp),
    hsingle (w := y) (by simp)]
  exact setConfig_stays hkey.2.1 hkey.1 hkey.2.2 (hw y (by simp)).2
    (hread y (by simp) boxKey (by simp)) hmem hline

/-- A domain that is shorter than what was there is not longer than its word. -/
theorem setArguments_short {x y : Line} (hw : ∀ w ∈ [x, y], (Word w ∧ '\n' ∉ w) ∧
      ∀ k ∈ [domainKey, boxKey], readSubst (setCommand k w) ≠ .other)
    {old : Line} (hold : setting domainKey old ∈ config) (hn : '\n' ∉ setting domainKey old)
    {ws : List Line} (hset : (setArguments other (fun _ => []) [domainKey, boxKey] (x :: y :: ws)
      config).filterMap (sedValue domainKey) = [value]) (hlen : value.length < old.length) :
    value.length ≤ x.length ∧ (x.length ≤ value.length → ∀ c ∈ x, Writable c) := by
  obtain ⟨v, hmem, hv⟩ := setArguments_domain other (fun w hm => (hw w hm).1)
    (fun w hm => (hw w hm).2) hold hn ws
  have hkey : Key domainKey := by decide
  have hvalue : v ∈ [value] := by
    rw [← hset]
    exact List.mem_filterMap.mpr ⟨_, hmem, by rw [sedValue_setting hkey hkey, if_pos rfl]⟩
  obtain rfl := List.mem_singleton.mp hvalue
  rcases hv with rfl | hv | hv
  · omega
  · simp only [setting, List.length_append, List.length_cons] at hv
    omega
  · exact hv

/-- The keys behind the name servers have their old values. -/
theorem servers_longConfig (hs : Plainly form.servers) {k : Line} (hk : k ∈ [domainKey, boxKey])
    (n : Nat) :
    (setAll form.servers (longConfig n)).filterMap (sedValue k) = [List.replicate n 'x'] := by
  have hall : ∀ k ∈ [domainKey, boxKey], Key k ∧ k ∉ macKey :: (ipKeys ++ serverKeys) ∧
      k ∈ macKey :: ipKeys ++ dnsKeys := by decide
  obtain ⟨hk, hne, hin⟩ := hall k hk
  rw [setAll_other hs hk hne, longConfig_single hin]

/-- The two words that are set behind the name servers. -/
theorem domainWords_pair (hread : ∀ w ∈ domainWords form, ∀ k ∈ dnsKeys,
      readSubst (setCommand k w) ≠ .other) {x y : Line} {ws ws' : List Line}
    (hw : domainWords form = x :: ws) (hws : ws ++ [checkbox form.dhcpDns] = y :: ws') :
    ∀ w ∈ [x, y], (Word w ∧ '\n' ∉ w) ∧
      ∀ k ∈ [domainKey, boxKey], readSubst (setCommand k w) ≠ .other := by
  have hin {w : Line} (hm : w ∈ domainWords form) : (Word w ∧ '\n' ∉ w) ∧
      ∀ k ∈ [domainKey, boxKey], readSubst (setCommand k w) ≠ .other := by
    have hread := hread w hm
    rw [domainWords, shellWords_empty fun _ => rfl] at hm
    obtain ⟨hword, hin⟩ := mem_splitWords w hm
    exact ⟨⟨hword, fun h => blankLines_newline _ (hin.subset h)⟩,
      fun k hk => hread k (List.mem_append_right serverKeys hk)⟩
  rw [hw] at hin
  intro w hm
  rcases List.mem_pair.mp hm with rfl | rfl
  · exact hin List.mem_cons_self
  · have hy : w ∈ ws ++ [checkbox form.dhcpDns] := by simp [hws]
    rcases List.mem_append.mp hy with hy | hy
    · exact hin (List.mem_cons_of_mem x hy)
    · have hentry : Entry (fun _ _ => false) (checkbox form.dhcpDns) := entry_checkbox _
      rw [List.mem_singleton.mp hy]
      exact ⟨⟨hentry.word, hentry.newline⟩, fun k hk => readSubst_box hk _⟩

/-- A domain that comes into the file over a longer one is one word without special characters. -/
theorem domain_stored (hread : ∀ w ∈ domainWords form, ∀ k ∈ dnsKeys,
      readSubst (setCommand k w) ≠ .other) {old : Line} (hl : ∀ l ∈ config, '\n' ∉ l)
    (hold : ∀ k ∈ [domainKey, boxKey], config.filterMap (sedValue k) = [old])
    (hlong : form.dnsdomain.length < old.length) {final : List Line}
    (hfinal : final = setArguments other (fun _ => []) [domainKey, boxKey]
      (domainWords form ++ [checkbox form.dhcpDns]) config)
    (hdomain : final.filterMap (sedValue domainKey) = [form.dnsdomain])
    (hbox : final.filterMap (sedValue boxKey) = [checkbox form.dhcpDns]) :
    OneWord form.dnsdomain ∧ isEchoOption form.dnsdomain = false ∧
      ∀ c ∈ form.dnsdomain, Writable c := by
  cases hw : domainWords form with
  | nil =>
    exfalso
    have hentry : Entry noneFits (checkbox form.dhcpDns) := entry_checkbox _
    have hfiles : Directory.empty.files noneFits = fun _ => [] :=
      funext fun _ => Directory.empty_files
    rw [hfinal, hw, List.nil_append, ← hfiles, setArguments_shifted .empty hl hentry
      (hold boxKey (by simp))] at hbox
    exact hentry.word.1 (List.cons.inj hbox).1.symm
  | cons x ws =>
    obtain ⟨y, ws', hws⟩ : ∃ y ws', ws ++ [checkbox form.dhcpDns] = y :: ws' := by
      cases ws with
      | nil => exact ⟨_, _, rfl⟩
      | cons y ws => exact ⟨_, _, rfl⟩
    rw [hfinal, hw, List.cons_append, hws] at hdomain
    have hline := mem_of_single (by decide) (hold domainKey (by simp))
    have hx : x ∈ domainWords form := by simp [hw]
    obtain ⟨hle, hplain⟩ := setArguments_short (domainWords_pair hread hw hws) hline (hl _ hline)
      hdomain hlong
    obtain ⟨hone, hoption, rfl⟩ := formField_full (fun _ => rfl) hx hle
    exact ⟨hone, hoption, hplain (Nat.le_refl _)⟩

/-- A form that is saved in every configuration has a domain of one word. -/
theorem entry_of_saved (h : Validated fits form) (hm : Entry fits form.mask)
    (hread : ∀ w ∈ domainWords form, ∀ k ∈ dnsKeys, readSubst (setCommand k w) ≠ .other)
    (hsaved : ∀ config, Configured form config → ∀ d : Directory,
      Saved fits form config (networkPost other (d.files fits) form config)) :
    Entry fits form.dnsdomain := by
  have hfiles : Directory.empty.files fits = fun _ => [] := funext fun _ => Directory.empty_files
  obtain ⟨n, hn⟩ : ∃ n, n = form.dnsdomain.length + 1 := ⟨_, rfl⟩
  have hconf := longConfig_configured form n
  have hpost := networkPost_servers other h hm hconf.newline .empty
  have hfinal := hsaved _ hconf .empty
  rw [hfiles] at hpost hfinal
  rw [← domainWords] at hpost
  have hplain := plainly_of_entry (h.servers hm)
  have hm : (domainKey, form.dnsdomain) ∈ form.submitted := by simp [form.submitted_eq]
  have hbox : (boxKey, checkbox form.dhcpDns) ∈ form.submitted := by simp [form.submitted_eq]
  have hkey : Key domainKey := by decide
  have hlong : form.dnsdomain.length < (List.replicate n 'x').length := by
    rw [List.length_replicate]
    omega
  have hold (k : Line) (hk : k ∈ [domainKey, boxKey]) := servers_longConfig hplain hk n
  have hl := setAll_newline hplain hconf.newline
  have hstored := hfinal.stored _ hm
  have hshown := hfinal.shown _ hm
  have hchecked := hfinal.stored _ hbox
  clear hfinal hconf hsaved
  generalize networkPost other (fun _ => []) form (longConfig n) = final at *
  generalize setAll form.servers (longConfig n) = config at *
  obtain ⟨hone, hoption, hchars⟩ := domain_stored hread hl hold hlong hpost hstored hchecked
  have hget (d : Directory) : getConfig (d.matching fits) domainKey
      [setting domainKey form.dnsdomain] = form.dnsdomain := by
    have hd := hshown d
    rw [getConfig, hstored] at hd
    rwa [getConfig, List.filterMap_cons_some (by rw [sedValue_setting hkey hkey, if_pos rfl]),
      List.filterMap_nil]
  exact ⟨hone, hchars, hoption, fixed_of_read hone.word.2 hget⟩

/-- A form that the checks let through is saved in every configuration if and only if its mask
has no spaces and its domain is one word without special characters. -/
theorem network_saved_iff (hvalid : validateAllIP form = true)
    (hread : ∀ w ∈ domainWords form, ∀ k ∈ dnsKeys, readSubst (setCommand k w) ≠ .other) :
    (∀ config, Configured form config → ∀ d : Directory,
      Saved fits form config (networkPost other (d.files fits) form config)) ↔
        Entered fits form := by
  have h : Validated fits form := validated hvalid
  constructor
  · intro hsaved
    have hmask : ∀ c ∈ form.mask, c ∉ scriptSpaces := by
      have hconf := longConfig_configured form 0
      have hfinal := hsaved _ hconf .empty
      have hm : ("netmask".toList, form.mask) ∈ form.submitted := by
        simp [NetworkForm.submitted, ipKeys]
      have hstored := hfinal.stored _ hm
      have hin : form.mask ∈ [form.mask] := List.mem_singleton_self _
      rw [← hstored] at hin
      obtain ⟨a, b, c, d, hd, -⟩ := hfinal.mask form.mask hin
      exact fun c hc => not_mem_of_address ((dotted_chars hd).2 c hc) (by decide)
    exact ⟨hmask, entry_of_saved h (h.entry hmask) hread hsaved⟩
  · exact fun he config hc d => he.saved h hc d

end

/-- A form as the shipped configuration would show it. -/
def shippedForm : NetworkForm where
  dhcpAddress := true
  ip := "192.168.0.240".toList
  mask := "255.255.255.0".toList
  gw := "192.168.0.1".toList
  dhcpDns := true
  nameserver1 := "192.168.0.1".toList
  nameserver2 := "192.168.0.2".toList
  dnsdomain := "localdomain".toList
  mac := "01:23:45".toList

theorem network_saved_shipped : Configured shippedForm (longConfig 1) ∧
    Saved fnmatchAll shippedForm (longConfig 1) (networkPost (fun _ lines => lines)
      (Directory.empty.files fnmatchAll) shippedForm (longConfig 1)) :=
  ⟨longConfig_configured _ 1, (network_saved_iff (by decide +kernel) (by decide +kernel)).mpr
    ⟨by decide, entry_of_address (by decide) (by decide)⟩ _ (longConfig_configured _ 1) _⟩

/-- With an empty domain its key gets the value of the box, and the box none. -/
theorem network_empty_domain : validateAllIP { shippedForm with dnsdomain := [] } = true ∧
    Configured { shippedForm with dnsdomain := [] } (longConfig 1) ∧
      ¬ Saved fnmatchAll { shippedForm with dnsdomain := [] } (longConfig 1)
        (networkPost (fun _ lines => lines) (Directory.empty.files fnmatchAll)
          { shippedForm with dnsdomain := [] } (longConfig 1)) := by
  refine ⟨by decide +kernel, longConfig_configured _ 1, fun h => ?_⟩
  have hbox : (networkPost (fun _ lines => lines) (Directory.empty.files fnmatchAll)
      { shippedForm with dnsdomain := [] } (longConfig 1)).filterMap (sedValue boxKey) = [[]] := by
    decide +kernel
  have hstored := h.stored (boxKey, ['1']) (by decide +kernel)
  rw [hbox] at hstored
  cases hstored

end SnakeOs.Config
