import SnakeOs.Config.Readers
import SnakeOs.Firmware.Gate

/-! What a box remembers: `/etc` lives in memory, the CFG partition keeps what was saved. -/

namespace SnakeOs.Config
open Lib Firmware

def macAddress : Line := "mac_address".toList

/-- `$(echo $RANDHEX | cut -c first-last)` -/
def hexColumns (files : Line → List Line) (randhex : Line) (first last : Nat) : Line :=
  cmdSubst (cutChars first (some last) (echo (unquoted (metaOnly files) [randhex])))

def nic (files : Line → List Line) (randhex : Line) : Line :=
  hexColumns files randhex 1 2 ++ ':' :: hexColumns files randhex 2 3 ++
    ':' :: hexColumns files randhex 4 5

def oui : Line := ['a', 'c', ':', 'd', 'e', ':', '4', '8', ':']

/-- The address `network start` makes up, `noise` being what the counter and `/dev/urandom`
give. -/
def madeUpMac (md5 : Bytes → Fin 16 → UInt8) (files : Line → List Line) (noise : Bytes) : Line :=
  oui ++ nic files (cmdSubst (filesum md5 noise ++ ['\n']))

/-- A hexadecimal digit, as `in_ether` reads it. -/
def etherDigit (c : Char) : Option Nat :=
  if '0' ≤ c ∧ c ≤ '9' then some (c.toNat - 48)
  else if 'a' ≤ c ∧ c ≤ 'f' then some (c.toNat - 87)
  else if 'A' ≤ c ∧ c ≤ 'F' then some (c.toNat - 55)
  else none

/-- One or two digits; behind one digit there is a colon or the end of the text. -/
def etherByte : Line → Option (UInt8 × Line)
  | [] => none
  | c :: cs =>
    match etherDigit c, cs with
    | none, _ => none
    | some high, [] => some (.ofNat high, [])
    | some high, d :: ds =>
      match etherDigit d with
      | some low => some (.ofNat (high * 16 + low), ds)
      | none => if d = ':' then some (.ofNat high, d :: ds) else none

/-- The bytes that are left to read; a colon may stand before each but the first. -/
def etherBytes : Nat → Line → Option (List UInt8)
  | 0, rest => if rest = [] then some [] else none
  | n + 1, text =>
    match etherByte (if text.head? = some ':' then text.tail else text) with
    | some (b, rest) => (etherBytes n rest).map (b :: ·)
    | none => none

/-- `in_ether`: six bytes and nothing behind them. -/
def inEther (text : Line) : Option (List UInt8) :=
  match etherByte text with
  | some (b, rest) => (etherBytes 5 rest).map (b :: ·)
  | none => none

/-- `default_mac_addr`, with which the driver starts the interface. -/
def defaultMacAddr : List UInt8 := [0x08, 0x0a, 0x0b, 0x0c, 0x0d, 0x0e]

/-- The address after `in_ether` took a text or refused it. -/
def etherAddress (text : Line) : List UInt8 := (inEther text).getD defaultMacAddr

/-- `ifconfig $IFACE hw ether $DEF_MAC` on an interface as the driver starts it. -/
def setHwAddress (files : Line → List Line) (defMac : Line) : List UInt8 :=
  match unquoted (metaOnly files) [defMac] with
  | [] => defaultMacAddr
  | word :: _ => etherAddress word

/-- `/etc/default/config` in the tmpfs and, once saved, in the archive of the CFG partition; the
address of the network interface; the backups that were downloaded. -/
structure Box where
  etc : List Line
  cfg : Option (List Line)
  mac : List UInt8
  backups : List (Option (List Line))

/-- The surroundings: the digest, pathname expansion, and the `sed` scripts outside the model. -/
structure World where
  md5 : Bytes → Fin 16 → UInt8
  files : Line → List Line
  other : Line → List Line → List Line

/-- `rc.sysinit` unpacks the archive or the defaults, then `network start` looks for an
address, stores the one it makes up in `/etc` only, and gives it to the interface. -/
def Box.boot (w : World) (noise : Bytes) (b : Box) : Box :=
  let etc := b.cfg.getD shippedConfig
  if bootRead macAddress etc = [] then
    let mac := madeUpMac w.md5 w.files noise
    { b with
      etc := sed w.other (substCmd ',' [] (macAddress ++ ['=']) (setting macAddress mac)) etc
      mac := setHwAddress w.files mac }
  else { b with etc, mac := setHwAddress w.files (bootRead macAddress etc) }

/-- A page calls `set_config`; `config save`; the backup page; a reboot or a loss of power;
`config setdefault`, which leaves an empty CFG partition; and a backup restored. -/
inductive Event where
  | set (c : Call)
  | save
  | backup
  | restart (noise : Bytes)
  | reset (noise : Bytes)
  | restore (i : Nat) (noise : Bytes)

def Box.step (w : World) (b : Box) : Event → Box
  | .set c => { b with etc := setConfig w.other c.key c.value b.etc }
  | .save => { b with cfg := some b.etc }
  | .backup => { b with backups := b.backups ++ [b.cfg] }
  | .restart noise => b.boot w noise
  | .reset noise => { b with cfg := none }.boot w noise
  | .restore i noise =>
    match b.backups[i]? with
    | some cfg => { b with cfg }.boot w noise
    | none => b

def Box.run (w : World) (b : Box) (events : List Event) : Box := events.foldl (Box.step w) b

/-- A new box, at its first start. -/
def Box.first (w : World) (noise : Bytes) : Box := Box.boot w noise ⟨[], none, [], []⟩

abbrev Values := Line → Line

/-- The same with a value for each key. -/
structure Memory where
  current : Values
  saved : Option Values
  mac : List UInt8
  backups : List (Option Values)

/-- Where there is no address the made up one is entered. -/
def Memory.boot (fresh : Line) (m : Memory) : Memory :=
  let v := m.saved.getD shippedValue
  if v macAddress = [] then
    { m with current := Function.update v macAddress fresh, mac := etherAddress fresh }
  else { m with current := v, mac := etherAddress (v macAddress) }

def Memory.step (fresh : Bytes → Line) (m : Memory) : Event → Memory
  | .set c => { m with current := Function.update m.current c.key c.value }
  | .save => { m with saved := some m.current }
  | .backup => { m with backups := m.backups ++ [m.saved] }
  | .restart noise => m.boot (fresh noise)
  | .reset noise => { m with saved := none }.boot (fresh noise)
  | .restore i noise =>
    match m.backups[i]? with
    | some saved => { m with saved }.boot (fresh noise)
    | none => m

def Memory.run (fresh : Bytes → Line) (m : Memory) (events : List Event) : Memory :=
  events.foldl (Memory.step fresh) m

def Memory.first (fresh : Line) : Memory := Memory.boot fresh ⟨shippedValue, none, [], []⟩

/-- The files of the box hold the values. -/
structure Box.Holds (w : World) (b : Box) (m : Memory) : Prop where
  etc : b.etc = render m.current
  cfg : b.cfg = m.saved.map render
  mac : b.mac = m.mac
  backups : b.backups = m.backups.map (·.map render)
  current : Readable w.files m.current
  saved : ∀ v ∈ m.saved, Readable w.files v
  kept : ∀ saved ∈ m.backups, ∀ v ∈ saved, Readable w.files v

theorem macAddress_reader : macAddress ∈ readerKeys := by decide

theorem five_chars {l : Line} (h : 5 ≤ l.length) :
    ∃ a b c d e rest, l = a :: b :: c :: d :: e :: rest := by
  rcases l with _ | ⟨a, _ | ⟨b, _ | ⟨c, _ | ⟨d, _ | ⟨e, rest⟩⟩⟩⟩⟩
  all_goals first | exact ⟨_, _, _, _, _, _, rfl⟩ | simp at h

/-- The digits of a made up address: the last of the fourth byte is the first of the fifth. -/
theorem madeUpMac_eq (md5 : Bytes → Fin 16 → UInt8) (files : Line → List Line) (noise : Bytes) :
    ∃ a b c d e : Fin 16, madeUpMac md5 files noise = oui ++
      [Nat.digitChar a, Nat.digitChar b, ':', Nat.digitChar b, Nat.digitChar c, ':',
        Nat.digitChar d, Nat.digitChar e] := by
  obtain ⟨hex, hhex⟩ : ∃ hex, filesum md5 noise = hex := ⟨_, rfl⟩
  have hdigits : ∀ c ∈ hex, ∃ n : Fin 16, c = Nat.digitChar n := by
    rw [← hhex, filesum_digest]
    intro c hc
    obtain ⟨n, hn, he⟩ := digest_digits _ c hc
    exact ⟨⟨n, hn⟩, he⟩
  have hlen : hex.length = 32 := by
    rw [← hhex, filesum_digest, digest_length, List.length_ofFn]
  have hno : ∀ c : Char, c.isAlphanum = false → c ∉ hex := by
    intro c hc hm
    obtain ⟨n, he⟩ := hdigits c hm
    exact digitChar_ne n.isLt hc he.symm
  have hsubst : cmdSubst (hex ++ ['\n']) = hex := cmdSubst_newlines (hno _ rfl) (hno _ rfl) 1
  have hne : hex ≠ [] := fun hnil => absurd (hnil ▸ hlen) (by decide)
  have hplain : unquoted (metaOnly files) [hex] = [hex] := by
    refine unquoted_plain files hne fun c hc hm => ?_
    have hword : ∀ c ∈ [' ', '\t', '*', '?', '['], c.isAlphanum = false := by decide
    exact hno c (hword c hm) hc
  have hecho : echo [hex] = hex ++ ['\n'] := by
    refine (echo_words (fun hd => ?_) []).trans (by rw [List.intercalate_singleton])
    exact hno '-' rfl (List.mem_of_mem_head? hd)
  have hcolumns : ∀ first last, hexColumns files hex first last = (hex.take last).drop (first - 1) :=
    fun first last => by
      rw [hexColumns, hplain, hecho]
      exact cmdSubst_cutChars (hno _ rfl) (hno _ rfl) first (some last) 1
  obtain ⟨a, b, c, d, e, rest, hcons⟩ := five_chars (show 5 ≤ hex.length by omega)
  obtain ⟨a', ha⟩ := hdigits a (by simp [hcons])
  obtain ⟨b', hb⟩ := hdigits b (by simp [hcons])
  obtain ⟨c', hc⟩ := hdigits c (by simp [hcons])
  obtain ⟨d', hd⟩ := hdigits d (by simp [hcons])
  obtain ⟨e', he⟩ := hdigits e (by simp [hcons])
  have h12 : hexColumns files hex 1 2 = [a, b] := (hcolumns 1 2).trans (by rw [hcons]; rfl)
  have h23 : hexColumns files hex 2 3 = [b, c] := (hcolumns 2 3).trans (by rw [hcons]; rfl)
  have h45 : hexColumns files hex 4 5 = [d, e] := (hcolumns 4 5).trans (by rw [hcons]; rfl)
  refine ⟨a', b', c', d', e', ?_⟩
  have hnic : nic files (cmdSubst (filesum md5 noise ++ ['\n'])) =
      [a, b] ++ ':' :: [b, c] ++ ':' :: [d, e] := by
    rw [hhex, hsubst, nic, h12, h23, h45]
  rw [← ha, ← hb, ← hc, ← hd, ← he]
  exact congrArg (oui ++ ·) hnic

/-- The characters of an address. -/
def MacChar (c : Char) : Prop := c.isAlphanum = true ∨ c = ':'

theorem madeUpMac_chars (md5 : Bytes → Fin 16 → UInt8) (files : Line → List Line) (noise : Bytes) :
    madeUpMac md5 files noise ≠ [] ∧ (madeUpMac md5 files noise).head? ≠ some '-' ∧
      ∀ x ∈ madeUpMac md5 files noise, MacChar x := by
  obtain ⟨a, b, c, d, e, hmac⟩ := madeUpMac_eq md5 files noise
  have hdigit : ∀ n : Fin 16, MacChar (Nat.digitChar n) := fun n => by
    have hall : ∀ n : Fin 16, (Nat.digitChar n).isAlphanum = true := by decide
    exact .inl (hall n)
  rw [hmac]
  have houter : oui.head? = some 'a' := by decide
  refine ⟨List.cons_ne_nil _ _, ?_, fun x hx => ?_⟩
  · rw [List.head?_append, houter]
    exact fun h => absurd (Option.some.inj h) (by decide)
  · rcases List.mem_append.mp hx with hx | hx
    · have houi : ∀ x ∈ oui, x.isAlphanum = true ∨ x = ':' := by decide
      exact houi x hx
    · simp only [List.mem_cons, List.not_mem_nil, or_false] at hx
      rcases hx with rfl | rfl | rfl | rfl | rfl | rfl | rfl | rfl
      all_goals first | exact hdigit _ | exact .inr rfl

theorem etherDigit_digitChar (n : Fin 16) : etherDigit (Nat.digitChar n) = some n.val := by
  revert n
  decide

theorem etherByte_digits (a b : Fin 16) (rest : Line) :
    etherByte (Nat.digitChar a :: Nat.digitChar b :: rest) =
      some (.ofNat (a.val * 16 + b.val), rest) := by
  simp only [etherByte, etherDigit_digitChar]

/-- Two digits behind a colon. -/
theorem etherBytes_digits (n : Nat) (a b : Fin 16) (rest : Line) :
    etherBytes (n + 1) (':' :: Nat.digitChar a :: Nat.digitChar b :: rest) =
      (etherBytes n rest).map (.ofNat (a.val * 16 + b.val) :: ·) := by
  rw [etherBytes, List.head?_cons, if_pos rfl, List.tail_cons, etherByte_digits]

/-- `ifconfig` takes an address that was made up. -/
theorem inEther_madeUp (md5 : Bytes → Fin 16 → UInt8) (files : Line → List Line) (noise : Bytes) :
    ∃ bytes, inEther (madeUpMac md5 files noise) = some bytes := by
  obtain ⟨a, b, c, d, e, hmac⟩ := madeUpMac_eq md5 files noise
  have houi : oui = [Nat.digitChar (10 : Fin 16), Nat.digitChar (12 : Fin 16), ':',
      Nat.digitChar (13 : Fin 16), Nat.digitChar (14 : Fin 16), ':', Nat.digitChar (4 : Fin 16),
      Nat.digitChar (8 : Fin 16), ':'] := by decide
  rw [hmac, houi]
  simp only [List.cons_append, List.nil_append]
  rw [inEther, etherByte_digits]
  simp only
  rw [etherBytes_digits, etherBytes_digits, etherBytes_digits, etherBytes_digits, etherBytes_digits]
  exact ⟨_, rfl⟩

/-- One digit is enough for a byte, and no colons are needed. -/
example : inEther "8:a:b:c:d:e".toList = some defaultMacAddr ∧
    inEther "080a0b0c0d0e".toList = some defaultMacAddr ∧ inEther "hello".toList = none := by
  decide +kernel

theorem MacChar.ne {x c : Char} (hx : MacChar x) (hc : c.isAlphanum = false ∧ c ≠ ':') : x ≠ c := by
  rintro rfl
  rcases hx with hx | hx
  · rw [hc.1] at hx
    cases hx
  · exact hc.2 hx

/-- A text of such characters is written and read as it is. -/
theorem macChars_plain {mac : Line} (h : ∀ x ∈ mac, MacChar x) (hhead : mac.head? ≠ some '-')
    (files : Line → List Line) :
    (∀ c ∈ mac, Writable c ∧ isBlank c = false ∧ c ≠ '\n' ∧ c ≠ '\x00' ∧ c ≠ ',') ∧
      '=' ∉ mac ∧ Shown files mac := by
  have hno : ∀ c : Char, c.isAlphanum = false ∧ c ≠ ':' → c ∉ mac := fun c hc hm =>
    (h c hm).ne hc rfl
  refine ⟨fun x hx => ?_, hno '=' (by decide), isEchoOption_eq_false hhead, ?_⟩
  · have hne := fun c hc => (h x hx).ne (c := c) hc
    have hblank : isBlank x = false := by
      have hspace := hne ' ' (by decide)
      have htab := hne '\t' (by decide)
      simp [isBlank, hspace, htab]
    exact ⟨⟨⟨hne '\\' (by decide), hne '&' (by decide), hne '\n' (by decide)⟩,
      hne '%' (by decide)⟩, hblank, hne '\n' (by decide), hne '\x00' (by decide),
      hne ',' (by decide)⟩
  · have hmeta : mac.any (· ∈ metaChars) = false := by
      rw [List.any_eq_false]
      intro x hx hm
      have hword : ∀ c ∈ metaChars, c.isAlphanum = false ∧ c ≠ ':' := by decide
      exact hno x (hword x (of_decide_eq_true hm)) hx
    simp [expandWord, metaOnly, hmeta]

/-- A word that the shell leaves as it is. -/
theorem setHwAddress_word {files : Line → List Line} {mac : Line} (hne : mac ≠ [])
    (hblank : ∀ c ∈ mac, isBlank c = false) (hs : Shown files mac) :
    setHwAddress files mac = etherAddress mac := by
  have hword : unquoted (metaOnly files) [mac] = [mac] := by
    rw [unquoted, List.flatMap_singleton, Word.split ⟨hne, hblank⟩, List.flatMap_singleton, hs.expand]
  rw [setHwAddress, hword]

section
variable {w : World} {v : Values}

/-- The values stay readable with another address. -/
theorem Readable.withMac (h : Readable w.files v) {mac : Line} (hmac : ∀ x ∈ mac, MacChar x)
    (hhead : mac.head? ≠ some '-') : Readable w.files (Function.update v macAddress mac) := by
  obtain ⟨hchars, hequals, hshown⟩ := macChars_plain hmac hhead w.files
  refine ⟨fun k hk => ?_, fun k hk => ?_, fun k hk => ?_⟩ <;> by_cases he : k = macAddress
  · rw [he, Function.update_self]
    exact fun c hc => ⟨(hchars c hc).2.1, (hchars c hc).2.2.1, (hchars c hc).2.2.2.1⟩
  · rw [Function.update_of_ne he]
    exact h.chars k hk
  · rw [he, Function.update_self]
    exact ⟨hequals, hshown⟩
  · rw [Function.update_of_ne he]
    exact h.own k hk
  · rw [he, Function.update_self]
    exact fun key _ hin => hequals (hin.subset (by simp))
  · rw [Function.update_of_ne he]
    exact h.others k hk

theorem render_newline (h : Readable w.files v) : ∀ l ∈ render v, '\n' ∉ l := by
  intro l hl
  obtain ⟨entry, hm, rfl⟩ := List.mem_map.mp hl
  cases entry with
  | none => exact List.not_mem_nil
  | some k =>
    have hkn : '\n' ∉ k := (layout_keys k hm).not_mem rfl
    have hvn : '\n' ∉ v k := fun hn => (h.chars k hm _ hn).2.1 rfl
    simp [setting, hkn, hvn]

/-- The script's own `sed` has no anchor and needs none. -/
theorem sed_mac (h : Readable w.files v) {mac : Line} (hmac : ∀ x ∈ mac, MacChar x)
    (hhead : mac.head? ≠ some '-') :
    sed w.other (substCmd ',' [] (macAddress ++ ['=']) (setting macAddress mac)) (render v) =
      render (Function.update v macAddress mac) := by
  obtain ⟨hchars, _, _⟩ := macChars_plain hmac hhead w.files
  have hkey : Key macAddress := layout_keys _ (readerKeys_layout macAddress_reader)
  have hlines := render_newline h
  have hw : ∀ c ∈ macAddress ++ ['='], PlainEre c ∧ c ≠ '\n' ∧ Literal c ∧ c ≠ ',' := by decide
  have htext : ∀ c ∈ setting macAddress mac, Literal c ∧ c ≠ ',' := by
    intro c hc
    rw [setting, List.append_cons] at hc
    rcases List.mem_append.mp hc with hc | hc
    · exact (hw c hc).2.2
    · exact ⟨(hchars c hc).1.1, (hchars c hc).2.2.2.2⟩
  have hstart : ∀ l ∈ render v, macAddress ++ ['='] <:+: l → macAddress ++ ['='] <+: l := by
    intro l hl hin
    obtain ⟨entry, hm, rfl⟩ := List.mem_map.mp hl
    cases entry with
    | none => exact absurd hin (by simp)
    | some k =>
      have hgrep := (grep_key hkey (setting k (v k))).mpr hin
      rw [grep_setting macAddress_reader hm (h.others k hm _ macAddress_reader),
        decide_eq_true_iff] at hgrep
      exact setting_prefix_iff (hkey.not_mem rfl) ((layout_keys k hm).not_mem rfl) |>.mpr hgrep.symm
  have hany : sed w.other (substCmd ',' [] (macAddress ++ ['=']) (setting macAddress mac))
      (render v) = setLines (macAddress ++ ['=']) (setting macAddress mac) (render v) :=
    sed_any ⟨by decide, fun hm => (hw _ hm).2.2.2 rfl, fun hm => (htext _ hm).2 rfl⟩ (by decide)
      (fun c hc => ⟨(hw c hc).1, (hw c hc).2.1⟩) (fun c hc => (htext c hc).1) hlines hstart
  have hset : setConfig w.other macAddress mac (render v) =
      setLines (macAddress ++ ['=']) (setting macAddress mac) (render v) :=
    setConfig_eq hkey (fun c hc => (hchars c hc).1) hlines
  rw [hany, ← hset]
  exact setConfig_render (readerKeys_layout macAddress_reader) (fun c hc => (hchars c hc).1)
    fun k hk hn => (h.chars k hk _ hn).2.1 rfl

/-- The address that the box makes up. -/
abbrev World.fresh (w : World) (noise : Bytes) : Line := madeUpMac w.md5 w.files noise

theorem boot_holds {b : Box} {m : Memory} (hcfg : b.cfg = m.saved.map render)
    (hbackups : b.backups = m.backups.map (·.map render))
    (hsaved : ∀ v ∈ m.saved, Readable w.files v)
    (hkept : ∀ saved ∈ m.backups, ∀ v ∈ saved, Readable w.files v) (noise : Bytes) :
    (b.boot w noise).Holds w (m.boot (w.fresh noise)) := by
  have hetc : b.cfg.getD shippedConfig = render (m.saved.getD shippedValue) := by
    rw [hcfg, shippedConfig_facts.1]
    cases m.saved <;> rfl
  have hread : Readable w.files (m.saved.getD shippedValue) := by
    cases hs : m.saved with
    | none => exact shipped_readable w.files
    | some v => exact hsaved v hs
  have hmac := hread.bootRead macAddress_reader
  obtain ⟨hne, hhead, hchars⟩ := madeUpMac_chars w.md5 w.files noise
  obtain ⟨hplain, _, hshown⟩ := macChars_plain hchars hhead w.files
  have hfresh : setHwAddress w.files (w.fresh noise) = etherAddress (w.fresh noise) :=
    setHwAddress_word hne (fun c hc => (hplain c hc).2.1) hshown
  by_cases hnone : m.saved.getD shippedValue macAddress = []
  · have hbox : b.boot w noise = { b with
        etc := render (Function.update (m.saved.getD shippedValue) macAddress (w.fresh noise))
        mac := etherAddress (w.fresh noise) } := by
      rw [← sed_mac hread hchars hhead, ← hetc, ← hfresh]
      exact if_pos (by rw [hetc, hmac, hnone])
    have hmem : m.boot (w.fresh noise) = { m with
        current := Function.update (m.saved.getD shippedValue) macAddress (w.fresh noise)
        mac := etherAddress (w.fresh noise) } := if_pos hnone
    rw [hbox, hmem]
    exact ⟨rfl, hcfg, rfl, hbackups, hread.withMac hchars hhead, hsaved, hkept⟩
  · have hstored : setHwAddress w.files (m.saved.getD shippedValue macAddress) =
        etherAddress (m.saved.getD shippedValue macAddress) :=
      setHwAddress_word hnone (fun c hc =>
        (hread.chars macAddress (readerKeys_layout macAddress_reader) c hc).1)
        (hread.own macAddress macAddress_reader).2
    have hbox : b.boot w noise = { b with
        etc := render (m.saved.getD shippedValue)
        mac := etherAddress (m.saved.getD shippedValue macAddress) } := by
      rw [← hstored, ← hmac, ← hetc]
      exact if_neg (by rw [hetc, hmac]; exact hnone)
    have hmem : m.boot (w.fresh noise) = { m with
        current := m.saved.getD shippedValue
        mac := etherAddress (m.saved.getD shippedValue macAddress) } := if_neg hnone
    rw [hbox, hmem]
    exact ⟨rfl, hcfg, rfl, hbackups, hread, hsaved, hkept⟩

/-- A setting that the scripts at boot can read; nothing is asked of the other events. -/
def Event.Readable (files : Line → List Line) : Event → Prop
  | .set c => c.Readable files
  | _ => True

theorem step_holds {b : Box} {m : Memory} (h : b.Holds w m) {e : Event}
    (he : e.Readable w.files) : (b.step w e).Holds w (m.step w.fresh e) := by
  cases e with
  | set c =>
    refine ⟨?_, h.cfg, h.mac, h.backups, h.current.set he, h.saved, h.kept⟩
    have hset : setConfig w.other c.key c.value (render m.current) =
        render (Function.update m.current c.key c.value) :=
      setConfig_render c.shipped (fun d hd => (c.chars d hd).1)
        fun k hk hn => (h.current.chars k hk _ hn).2.1 rfl
    exact (congrArg (setConfig w.other c.key c.value) h.etc).trans hset
  | save =>
    refine ⟨h.etc, congrArg some h.etc, h.mac, h.backups, h.current, fun v hv => ?_, h.kept⟩
    exact Option.some.inj hv ▸ h.current
  | backup =>
    refine ⟨h.etc, h.cfg, h.mac, ?_, h.current, h.saved, fun saved hm => ?_⟩
    · rw [Box.step, Memory.step, List.map_append, h.backups, h.cfg]
      rfl
    · rcases List.mem_append.mp hm with hm | hm
      · exact h.kept saved hm
      · exact List.mem_singleton.mp hm ▸ h.saved
  | restart noise => exact boot_holds h.cfg h.backups h.saved h.kept noise
  | reset noise =>
    have hsaved : ∀ v ∈ (none : Option Values), Readable w.files v :=
      fun v hv => absurd hv (Option.not_mem_none v)
    have hcfg : ({ b with cfg := none } : Box).cfg =
        ({ m with saved := none } : Memory).saved.map render := by simp only [Option.map_none]
    exact boot_holds (b := { b with cfg := none }) (m := { m with saved := none }) hcfg
      h.backups hsaved h.kept noise
  | restore i noise =>
    have hget : b.backups[i]? = m.backups[i]?.map (·.map render) := by
      rw [h.backups, List.getElem?_map]
    cases hm : m.backups[i]? with
    | none =>
      rw [hm] at hget
      have hbox : b.step w (.restore i noise) = b := by simp only [Box.step, hget, Option.map_none]
      have hmem : m.step w.fresh (.restore i noise) = m := by simp only [Memory.step, hm]
      rw [hbox, hmem]
      exact h
    | some saved =>
      rw [hm] at hget
      have hbox : b.step w (.restore i noise) =
          { b with cfg := saved.map render }.boot w noise := by
        simp only [Box.step, hget, Option.map_some]
      have hmem : m.step w.fresh (.restore i noise) = { m with saved }.boot (w.fresh noise) := by
        simp only [Memory.step, hm]
      rw [hbox, hmem]
      exact boot_holds (b := { b with cfg := saved.map render }) (m := { m with saved })
        (Eq.refl (saved.map render)) h.backups (h.kept saved (List.mem_of_getElem? hm)) h.kept noise

theorem run_holds {b : Box} {m : Memory} (h : b.Holds w m) (events : List Event)
    (he : ∀ e ∈ events, e.Readable w.files) : (b.run w events).Holds w (m.run w.fresh events) := by
  induction events generalizing b m with
  | nil => exact h
  | cons e events ih =>
    exact ih (step_holds h (he e List.mem_cons_self)) fun e' h' => he e' (List.mem_cons_of_mem e h')

theorem first_holds (w : World) (noise : Bytes) :
    (Box.first w noise).Holds w (Memory.first (w.fresh noise)) := by
  have hcfg : (Box.mk [] none [] []).cfg =
      (Memory.mk shippedValue none [] []).saved.map render := by simp only [Option.map_none]
  have hbackups : (Box.mk [] none [] []).backups =
      (Memory.mk shippedValue none [] []).backups.map (·.map render) := by simp only [List.map_nil]
  have hsaved : ∀ v ∈ (none : Option Values), Readable w.files v :=
    fun v hv => absurd hv (Option.not_mem_none v)
  exact boot_holds hcfg hbackups hsaved (fun _ hm => absurd hm List.not_mem_nil) noise

end

/-- Through readable settings, saves, reboots, resets and backups a box remembers a value for
each key: what the scripts read, and the pages wherever the value is printed as it is, is what
was set since the last start, or what was saved before it, or the default. The interface has
the address that it was at the last start, where `ifconfig` takes it. -/
theorem values_survive (w : World) (noise : Bytes) (events : List Event)
    (h : ∀ e ∈ events, e.Readable w.files) :
    let b := (Box.first w noise).run w events
    let m := (Memory.first (w.fresh noise)).run w.fresh events
    b.mac = m.mac ∧ b.cfg = m.saved.map render ∧
      (∀ key ∈ readerKeys, bootRead key b.etc = m.current key ∧
        getConfig w.files key b.etc = m.current key) ∧
      ∀ key, some key ∈ layout → Shown w.files (m.current key) →
        getConfig w.files key b.etc = m.current key := by
  intro b m
  have hb := run_holds (first_holds w noise) events h
  refine ⟨hb.mac, hb.cfg, fun key hk => ?_, fun key hk hs => ?_⟩
  · rw [hb.etc]
    exact ⟨hb.current.bootRead hk, hb.current.getConfig (readerKeys_layout hk) (hb.current.own key hk).2⟩
  · rw [hb.etc]
    exact hb.current.getConfig hk hs

/-- The device gets a name. -/
def nasName : Call :=
  renameCall "nas".toList (by decide)

theorem nasName_readable : (Event.set nasName).Readable fun _ => [] :=
  ⟨fun _ => ⟨by decide, by decide, by decide⟩, by decide +kernel⟩

/-- A box that is renamed, saves and loses its power. -/
theorem values_survive_renamed :
    let w : World := ⟨fun _ _ => 0, fun _ => [], fun _ l => l⟩
    let b := (Box.first w []).run w [.set nasName, .save, .restart []]
    bootRead "hostname".toList b.etc = "nas".toList := by
  intro w b
  have h := values_survive w [] [.set nasName, .save, .restart []] (by
    intro e he
    simp only [List.mem_cons, List.not_mem_nil, or_false] at he
    rcases he with rfl | rfl | rfl
    · exact nasName_readable
    · exact trivial
    · exact trivial)
  rw [(h.2.2.1 "hostname".toList (by decide)).1]
  decide +kernel

/-- A start of the network. -/
def Event.restarts : Event → Bool
  | .restart _ => true
  | _ => false

/-- Neither a reset nor a restored backup, and no other address is set. -/
def Event.KeepsMac : Event → Prop
  | .set c => c.key ≠ macAddress
  | .reset _ => False
  | .restore _ _ => False
  | _ => True

/-- The address is stored in `/etc` and in the CFG partition. -/
structure Memory.Settled (addr : Line) (m : Memory) : Prop where
  current : m.current macAddress = addr
  saved : ∃ v, m.saved = some v ∧ v macAddress = addr

theorem Memory.Settled.step (fresh : Bytes → Line) {addr : Line} {m : Memory}
    (h : m.Settled addr) (hne : addr ≠ []) {e : Event} (he : e.KeepsMac) :
    (m.step fresh e).Settled addr ∧
      (m.step fresh e).mac = if e.restarts then etherAddress addr else m.mac := by
  cases e with
  | set c => exact ⟨⟨(Function.update_of_ne he.symm _ _).trans h.current, h.saved⟩, rfl⟩
  | save => exact ⟨⟨h.current, m.current, rfl, h.current⟩, rfl⟩
  | backup => exact ⟨⟨h.current, h.saved⟩, rfl⟩
  | restart noise =>
    obtain ⟨v, hv, haddr⟩ := h.saved
    have hboot : m.boot (fresh noise) =
        { m with current := v, mac := etherAddress (v macAddress) } := by
      have hsome : m.saved.getD shippedValue = v := by rw [hv]; rfl
      rw [Memory.boot, hsome]
      exact if_neg (haddr ▸ hne)
    have hstep : m.step fresh (.restart noise) = _ := hboot
    rw [hstep]
    exact ⟨⟨haddr, v, hv, haddr⟩, congrArg etherAddress haddr⟩
  | reset noise => exact he.elim
  | restore i noise => exact he.elim

theorem Memory.Settled.run (fresh : Bytes → Line) {addr : Line} {m : Memory}
    (h : m.Settled addr) (hne : addr ≠ []) (events : List Event)
    (he : ∀ e ∈ events, e.KeepsMac) :
    (m.run fresh events).Settled addr ∧
      (m.run fresh events).mac =
        if events.any Event.restarts then etherAddress addr else m.mac := by
  induction events generalizing m with
  | nil => exact ⟨h, rfl⟩
  | cons e events ih =>
    obtain ⟨hstep, hmac⟩ := h.step fresh hne (he e List.mem_cons_self)
    obtain ⟨hrun, hrunMac⟩ := ih hstep fun e' h' => he e' (List.mem_cons_of_mem e h')
    refine ⟨hrun, hrunMac.trans ?_⟩
    rw [hmac, List.any_cons]
    cases e.restarts <;> cases events.any Event.restarts <;> rfl

/-- What the counter and `/dev/urandom` gave at the last start. -/
def Event.lastNoise (noise : Bytes) : Event → Bytes
  | .restart n => n
  | .reset n => n
  | _ => noise

/-- Nothing was saved yet. -/
def Event.Unsaved : Event → Prop
  | .save => False
  | .restore _ _ => False
  | _ => True

theorem boot_unsaved {m : Memory} (h : m.saved = none) (fresh : Line) :
    (m.boot fresh).saved = none ∧ (m.boot fresh).mac = etherAddress fresh ∧
      (m.boot fresh).current macAddress = fresh := by
  have hnil : m.saved.getD shippedValue macAddress = [] := by
    rw [h]
    decide +kernel
  rw [Memory.boot, if_pos hnil]
  refine ⟨h, rfl, ?_⟩
  simp only [Function.update_self]

theorem unsaved_run {fresh : Bytes → Line} {m : Memory} {noise : Bytes} (hsaved : m.saved = none)
    (hmac : m.mac = etherAddress (fresh noise)) (events : List Event) (he : ∀ e ∈ events, e.Unsaved) :
    (m.run fresh events).saved = none ∧
      (m.run fresh events).mac = etherAddress (fresh (events.foldl Event.lastNoise noise)) := by
  induction events generalizing m noise with
  | nil => exact ⟨hsaved, hmac⟩
  | cons e events ih =>
    have hrest : ∀ e' ∈ events, e'.Unsaved := fun e' h' => he e' (List.mem_cons_of_mem e h')
    cases e with
    | set c => exact ih hsaved hmac hrest
    | save => exact (he _ List.mem_cons_self).elim
    | backup => exact ih hsaved hmac hrest
    | restart n =>
      obtain ⟨hn, hm, -⟩ := boot_unsaved hsaved (fresh n)
      exact ih hn hm hrest
    | reset n =>
      have hreset : ({ m with saved := none } : Memory).saved = none := by simp only
      obtain ⟨hn, hm, -⟩ := boot_unsaved hreset (fresh n)
      exact ih hn hm hrest
    | restore i n => exact (he _ List.mem_cons_self).elim

/-- Until the settings are saved the interface has the address made up at the last start; the
address that is saved is the one that `ifconfig` gets at every later start. -/
theorem mac_settles (w : World) (noise : Bytes) (events later : List Event)
    (h : ∀ e ∈ events, e.Readable w.files)
    (hlater : ∀ e ∈ later, e.Readable w.files ∧ e.KeepsMac) :
    let b := (Box.first w noise).run w events
    let t := b.run w (.save :: later)
    ((∀ e ∈ events, e.Unsaved) →
      inEther (w.fresh (events.foldl Event.lastNoise noise)) = some b.mac) ∧
      (bootRead macAddress b.etc ≠ [] →
        bootRead macAddress t.etc = bootRead macAddress b.etc ∧
          t.mac = if later.any Event.restarts then etherAddress (bootRead macAddress b.etc)
            else b.mac) := by
  intro b t
  have hb := run_holds (first_holds w noise) events h
  have hsave := step_holds hb (show Event.save.Readable w.files from trivial)
  have ht := run_holds hsave later fun e he => (hlater e he).1
  have haddr : bootRead macAddress b.etc =
      (Memory.run w.fresh (Memory.first (w.fresh noise)) events).current macAddress := by
    rw [hb.etc, hb.current.bootRead macAddress_reader]
  refine ⟨fun hunsaved => ?_, fun hne => ?_⟩
  · have hnone : (Memory.mk shippedValue none [] []).saved = none := by simp only
    obtain ⟨hfirst, hfresh, -⟩ := boot_unsaved hnone (w.fresh noise)
    obtain ⟨bytes, hbytes⟩ := inEther_madeUp w.md5 w.files (events.foldl Event.lastNoise noise)
    have hmac : b.mac = _ := hb.mac.trans (unsaved_run hfirst hfresh events hunsaved).2
    rw [hmac, etherAddress, hbytes]
    rfl
  · rw [haddr] at hne ⊢
    have hsettled : Memory.Settled _ (Memory.step w.fresh
        (Memory.run w.fresh (Memory.first (w.fresh noise)) events) .save) := ⟨rfl, _, rfl, rfl⟩
    obtain ⟨hend, hmac⟩ := hsettled.run w.fresh hne later fun e he => (hlater e he).2
    refine ⟨?_, ht.mac.trans (hmac.trans ?_)⟩
    · have hread := ht.current.bootRead macAddress_reader
      rw [← ht.etc] at hread
      exact hread.trans hend.current
    · rw [hb.mac]
      rfl

/-- A box that is renamed, saves and is restarted. -/
theorem mac_settles_renamed :
    let w : World := ⟨fun _ _ => 0x5a, fun _ => [], fun _ l => l⟩
    let b := (Box.first w []).run w [.set nasName]
    (b.run w [.save, .restart [1]]).mac = etherAddress (bootRead macAddress b.etc) := by
  intro w b
  have hset : ∀ e ∈ [Event.set nasName], e.Readable w.files := by
    intro e he
    rw [List.mem_singleton.mp he]
    exact nasName_readable
  have hlater : ∀ e ∈ [Event.restart [1]], e.Readable w.files ∧ e.KeepsMac := by
    intro e he
    rw [List.mem_singleton.mp he]
    exact ⟨trivial, trivial⟩
  have hb := run_holds (first_holds w []) _ hset
  have hnone : (Memory.mk shippedValue none [] []).saved = none := by simp only
  obtain ⟨-, -, hcurrent⟩ := boot_unsaved hnone (w.fresh [])
  have haddr : bootRead macAddress b.etc = w.fresh [] := by
    have hother : macAddress ≠ nasName.key := by decide +kernel
    rw [hb.etc, hb.current.bootRead macAddress_reader, Memory.run, List.foldl_cons,
      List.foldl_nil, Memory.step]
    simp only [Function.update_of_ne hother]
    exact hcurrent
  have hne : bootRead macAddress b.etc ≠ [] := by
    rw [haddr]
    exact (madeUpMac_chars w.md5 w.files []).1
  obtain ⟨-, h⟩ := mac_settles w [] [.set nasName] [.restart [1]] hset hlater
  obtain ⟨-, hmac⟩ := h hne
  rw [if_pos (by rw [List.any_cons]; rfl)] at hmac
  exact hmac

end SnakeOs.Config
