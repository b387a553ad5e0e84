import SnakeOs.Lib.Files
import SnakeOs.Lib.Sed

/-! `/etc/default/config` as the management pages set and read it (`funcs.cgi`). -/

namespace SnakeOs.Config
open Lib

/-- The line of a setting. -/
def setting (key value : Line) : Line := key ++ '=' :: value

/-- `sed -ri "s%^${1}=.*%${1}=${2}%g"`. -/
def setConfig (other : Line → List Line → List Line) (key value : Line) (config : List Line) :
    List Line :=
  sed other (substCmd '%' ['^'] (key ++ ['=']) (setting key value)) config

/-- What `s/^\(key\)=\(.*\)$/\2/p` prints of a line, for a key in which only dots are special. -/
def sedValue (key line : Line) : Option Line :=
  if startsDotted (key ++ ['=']) line then some (line.drop (key.length + 1)) else none

/-- `echo -n $(sed -n ...)`, where the words of the values go through pathname expansion. -/
def getConfig (files : Line → List Line) (key : Line) (config : List Line) : List Char :=
  echo ("-n".toList :: unquoted (metaOnly files) (config.filterMap (sedValue key)))

/-- Keys are words. -/
def Key (key : Line) : Prop := ∀ c ∈ key, (c.isAlphanum || c == '_') = true

instance (key : Line) : Decidable (Key key) := inferInstanceAs (Decidable (∀ _ ∈ _, _))

theorem Key.not_mem {key : Line} (hk : Key key) {c : Char}
    (hc : (c.isAlphanum || c == '_') = false) : c ∉ key := word_not_mem hk hc

/-- A key that both commands of sed take for itself but for its dots. -/
def Dotted (key : Line) : Prop := ∀ c ∈ key, DotEre c ∧ c ∉ ['&', '%', '/', '=', '\n']

instance (key : Line) : Decidable (Dotted key) := inferInstanceAs (Decidable (∀ _ ∈ _, _))

theorem Dotted.not_mem {key : Line} (hk : Dotted key) {c : Char}
    (hc : c ∈ ['&', '%', '/', '=', '\n']) : c ∉ key := fun hm => (hk c hm).2 hc

theorem Dotted.backslash {key : Line} (hk : Dotted key) : '\\' ∉ key := by
  intro hm
  have hnone : '\\' ∉ ['\\'] := (hk _ hm).1.not_mem (by decide)
  exact hnone List.mem_cons_self

theorem Key.dotted {key : Line} (hk : Key key) : Dotted key := fun c hc =>
  ⟨.inl (plainEre_of_word (hk c hc)), not_mem_of_word (hk c hc) (by decide)⟩

/-- The key of a line. -/
def keyOf (l : Line) : Option Line := if '=' ∈ l then some (l.takeWhile (· ≠ '=')) else none

def keys (config : List Line) : List Line := config.filterMap keyOf

theorem setting_eq (key value : Line) : setting key value = (key ++ ['=']) ++ value := by
  simp [setting]

theorem prefix_setting (key value : Line) : key ++ ['='] <+: setting key value :=
  ⟨value, (setting_eq key value).symm⟩

theorem takeWhile_key {key : Line} (hk : '=' ∉ key) (value : Line) :
    (setting key value).takeWhile (· ≠ '=') = key := by
  have hne : ∀ c ∈ key, decide (c ≠ '=') = true := fun c hc =>
    decide_eq_true fun he => hk (he ▸ hc)
  rw [setting, List.takeWhile_append_of_pos hne]
  simp

theorem keyOf_setting {key : Line} (hk : '=' ∉ key) (value : Line) :
    keyOf (setting key value) = some key := by
  rw [keyOf, if_pos (by simp [setting]), takeWhile_key hk]

theorem keyOf_eq_some {l key : Line} (h : keyOf l = some key) :
    '=' ∉ key ∧ ∃ value, l = setting key value := by
  rw [keyOf] at h
  split_ifs at h with hm
  obtain ⟨k, rest, rfl, hk⟩ := List.eq_append_cons_of_mem hm
  have htake : (k ++ '=' :: rest).takeWhile (· ≠ '=') = k := takeWhile_key hk rest
  obtain rfl : k = key := htake.symm.trans (Option.some.inj h)
  exact ⟨hk, rest, rfl⟩

theorem setting_prefix_iff {key key' value : Line} (hk : '=' ∉ key) (hk' : '=' ∉ key') :
    key ++ ['='] <+: setting key' value ↔ key = key' := by
  constructor
  · rintro ⟨rest, hr⟩
    rw [setting, List.append_assoc, List.singleton_append] at hr
    exact first_field_inj hk hk' hr
  · rintro rfl
    exact ⟨value, by simp [setting]⟩

/-- A value that `set_config` writes as it is. -/
def Writable (c : Char) : Prop := Literal c ∧ c ≠ '%'

instance (c : Char) : Decidable (Writable c) := inferInstanceAs (Decidable (_ ∧ _))

/-- A line whose start the key fits becomes the setting. -/
theorem setConfig_dotted {other : Line → List Line → List Line} {key value : Line}
    (hk : Dotted key) (hv : ∀ c ∈ value, Writable c) {config : List Line}
    (hl : ∀ l ∈ config, '\n' ∉ l) : setConfig other key value config =
      config.map fun l => if startsDotted (key ++ ['=']) l then setting key value else l := by
  refine sed_dotted ⟨by decide, ?_, ?_⟩ (by decide) (fun c hc => ?_) (fun c hc => ?_) hl
  · simpa using hk.not_mem (by decide)
  · have hkey : '%' ∉ key := hk.not_mem (by decide)
    have hval : '%' ∉ value := fun hm => (hv _ hm).2 rfl
    simp [setting, hkey, hval]
  · rcases List.mem_append.mp hc with hc | hc
    · exact ⟨(hk c hc).1, fun he => hk.not_mem (by decide) (he ▸ hc)⟩
    · rw [List.mem_singleton.mp hc]
      decide
  · rcases List.mem_append.mp hc with hc | hc
    · exact ⟨fun he => hk.backslash (he ▸ hc), fun he => hk.not_mem (c := '&') (by decide) (he ▸ hc),
        fun he => hk.not_mem (c := '\n') (by decide) (he ▸ hc)⟩
    · rcases List.mem_cons.mp hc with rfl | hc
      · decide
      · exact (hv c hc).1

theorem Key.no_dot {key : Line} (hk : Key key) : '.' ∉ key ++ ['='] := by
  simpa using hk.not_mem rfl

theorem setConfig_eq {other : Line → List Line → List Line} {key value : Line} (hk : Key key)
    (hv : ∀ c ∈ value, Writable c) {config : List Line} (hl : ∀ l ∈ config, '\n' ∉ l) :
    setConfig other key value config = setLines (key ++ ['=']) (setting key value) config := by
  rw [setConfig_dotted hk.dotted hv hl, setLines]
  exact List.map_congr_left fun l _ => if_congr (startsDotted_plain hk.no_dot) rfl rfl

/-- A word is read where it starts the line. -/
theorem sedValue_word {key : Line} (hk : Key key) (line : Line) : sedValue key line =
    if key ++ ['='] <+: line then some (line.drop (key.length + 1)) else none :=
  if_congr (startsDotted_plain hk.no_dot) rfl rfl

theorem sedValue_self (key value : Line) : sedValue key (setting key value) = some value := by
  rw [sedValue, if_pos (prefix_startsDotted (prefix_setting key value))]
  simp [setting, List.drop_append]

theorem sedValue_setting {key key' value : Line} (hk : Key key) (hk' : Key key') :
    sedValue key (setting key' value) = if key = key' then some value else none := by
  by_cases he : key = key'
  · rw [if_pos he, he, sedValue_self]
  · rw [if_neg he, sedValue_word hk, if_neg fun hp => he ((setting_prefix_iff (hk.not_mem rfl) (hk'.not_mem rfl)).mp hp)]

/-- A value that `echo` prints as it is. -/
structure Shown (files : Line → List Line) (value : Line) : Prop where
  option : isEchoOption value = false
  expand : expandWord (metaOnly files) value = [value]

/-- A single value without blanks. -/
theorem getConfig_single {files : Line → List Line} {key value : Line} {config : List Line}
    (hc : config.filterMap (sedValue key) = [value]) (hb : ∀ c ∈ value, isBlank c = false)
    (hs : Shown files value) : getConfig files key config = value := by
  have hn : isEchoOption ['-', 'n'] = true := by decide
  rw [getConfig, hc, unquoted, List.flatMap_singleton]
  cases value with
  | nil => rfl
  | cons c value =>
    rw [Word.split ⟨List.cons_ne_nil c value, hb⟩, List.flatMap_singleton, hs.expand]
    simp [echo, echoFrom, hn, hs.option, echoText]

end SnakeOs.Config
