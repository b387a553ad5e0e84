import SnakeOs.Config.Funcs
import SnakeOs.Lib.Directory
import SnakeOs.Lib.Echo
import SnakeOs.Lib.Replace

/-! Which values `get_config` reads back as `set_config` was given them. -/

namespace SnakeOs.Config
open Lib

/-- The command that `set_config` runs, without its `s`. -/
def setCommand (key value : Line) : Line := substCmd '%' ['^'] (key ++ ['=']) (setting key value)

/-- A setting is read back as it was set, wherever the pages run, and nothing else changes. -/
structure RoundTrip (fits : Line → Line → Bool) (other : Line → List Line → List Line)
    (config : List Line) (key value : Line) : Prop where
  read : ∀ d : Directory,
    getConfig (d.matching fits) key (setConfig other key value config) = value
  others : ∀ (d : Directory) (k : Line), k ≠ key → Key k ∨ k ∈ keys config →
    getConfig (d.matching fits) k (setConfig other key value config) =
      getConfig (d.matching fits) k config
  lines : List.Forall₂ (fun l l' => l' = l ∨ key ++ ['='] <+: l ∧ key ++ ['='] <+: l') config
    (setConfig other key value config)

/-- A value that sed, `echo` and the shell pass on as it is. -/
structure Kept (fits : Line → Line → Bool) (value : Line) : Prop where
  chars : ∀ c ∈ value, Writable c
  option : isEchoOption value = false
  fixed : Fixed fits value

/-- Nothing but dots is special in the keys of the file. -/
def Clear (config : List Line) : Prop := ∀ k ∈ keys config, Dotted k

/-- The key fits no line but its own. -/
def Alone (config : List Line) (key : Line) : Prop :=
  ∀ l ∈ config, startsDotted (key ++ ['=']) l = true → key ++ ['='] <+: l

/-- No other key of the file fits the line of this one, as it is or as it will be. -/
def Unmatched (config : List Line) (key value : Line) : Prop :=
  ∀ k ∈ keys config, k ≠ key → startsDotted (k ++ ['=']) (setting key value) = false ∧
    ∀ l ∈ config, key ++ ['='] <+: l → startsDotted (k ++ ['=']) l = false

/-- A setting that comes back: sed finds its line alone and writes the value as it is, or it
refuses the command and the value is there already. -/
def Settable (fits : Line → Line → Bool) (config : List Line) (key value : Line) : Prop :=
  Clear config ∧ (Kept fits value ∧ Alone config key ∧ Unmatched config key value ∨
    readSubst (setCommand key value) = .refused ∧
      ∀ d : Directory, getConfig (d.matching fits) key config = value)

section
variable {fits : Line → Line → Bool} {other : Line → List Line → List Line} {config : List Line}
  {key value : Line}

theorem Kept.shown (h : Kept fits value) (d : Directory) : Shown (d.matching fits) value :=
  ⟨h.option, h.fixed.expand d⟩

theorem sedValue_eq_some {l old : Line} (hk : Key key) (h : sedValue key l = some old) :
    l = setting key old := by
  rw [sedValue_word hk] at h
  split_ifs at h with hp
  obtain ⟨rest, rfl⟩ := hp
  cases h
  simp [setting, List.drop_append]

/-- Another key has the values it had. -/
theorem filterMap_setLines {k : Line} (hk : Key key) (hk' : Key k) (hne : k ≠ key)
    (config : List Line) : (setLines (key ++ ['=']) (setting key value) config).filterMap
      (sedValue k) = config.filterMap (sedValue k) := by
  rw [setLines, List.filterMap_map]
  refine List.filterMap_congr fun l _ => ?_
  simp only [Function.comp_apply]
  split
  · rename_i hp
    obtain ⟨rest, rfl⟩ := hp
    have hold : key ++ ['='] ++ rest = setting key rest := by simp [setting]
    rw [hold, sedValue_setting hk' hk, sedValue_setting hk' hk, if_neg hne, if_neg hne]
  · rfl

theorem filterMap_setLines_self (hk : Key key) (config : List Line) :
    (setLines (key ++ ['=']) (setting key value) config).filterMap (sedValue key) =
      (config.filterMap (sedValue key)).map fun _ => value := by
  induction config with
  | nil => rfl
  | cons l config ih =>
    rw [setLines, List.map_cons, ← setLines]
    by_cases hp : key ++ ['='] <+: l
    · rw [if_pos hp, List.filterMap_cons_some (by rw [sedValue_setting hk hk, if_pos rfl]), ih,
        List.filterMap_cons_some (by rw [sedValue_word hk, if_pos hp])]
      rfl
    · have hnone : sedValue key l = none := by rw [sedValue_word hk, if_neg hp]
      rw [if_neg hp, List.filterMap_cons_none hnone, ih, List.filterMap_cons_none hnone]

/-- The line of the key among the others. -/
theorem present_split (hp : (keys config).count key = 1) : '=' ∉ key ∧
    ∃ a old b, config = a ++ setting key old :: b ∧ ∀ l ∈ a ++ b, ¬ key ++ ['='] <+: l := by
  have hmem : key ∈ keys config := List.count_pos_iff.mp (by omega)
  obtain ⟨l, hl, hkey⟩ := List.mem_filterMap.mp hmem
  obtain ⟨heq, old, rfl⟩ := keyOf_eq_some hkey
  obtain ⟨a, b, rfl⟩ := List.append_of_mem hl
  rw [keys, List.filterMap_append, List.filterMap_cons_some hkey, List.count_append,
    List.count_cons_self] at hp
  refine ⟨heq, a, old, b, rfl, fun l hl hpre => ?_⟩
  obtain ⟨v, rfl⟩ : ∃ v, l = setting key v := by
    obtain ⟨v, rfl⟩ := hpre
    exact ⟨v, (setting_eq key v).symm⟩
  have hcount : key ∈ (a ++ b).filterMap keyOf :=
    List.mem_filterMap.mpr ⟨_, hl, keyOf_setting heq v⟩
  rw [List.filterMap_append, ← List.count_pos_iff, List.count_append] at hcount
  omega

/-- With its line alone, a key changes that line only. -/
theorem setConfig_alone {old : Line} {a b : List Line} (hk : Dotted key)
    (hv : ∀ c ∈ value, Writable c) (hl : ∀ l ∈ a ++ setting key old :: b, '\n' ∉ l)
    (halone : Alone (a ++ setting key old :: b) key)
    (hab : ∀ l ∈ a ++ b, ¬ key ++ ['='] <+: l) :
    setConfig other key value (a ++ setting key old :: b) = a ++ setting key value :: b := by
  have hsame (c : List Line) (hc : ∀ l ∈ c, l ∈ a ++ b) :
      (c.map fun l => if startsDotted (key ++ ['=']) l then setting key value else l) = c := by
    refine (List.map_congr_left fun l hm => if_neg fun hdot => ?_).trans (List.map_id c)
    refine hab l (hc l hm) (halone l ?_ hdot)
    rcases List.mem_append.mp (hc l hm) with h | h
    · exact List.mem_append_left _ h
    · exact List.mem_append_right a (List.mem_cons_of_mem _ h)
  rw [setConfig_dotted hk hv hl, List.map_append, List.map_cons,
    hsame a fun l hm => List.mem_append_left b hm, hsame b fun l hm => List.mem_append_right a hm,
    if_pos (prefix_startsDotted (prefix_setting key old))]

/-- Another key reads nothing from the line of this one. -/
theorem sedValue_other {k v : Line} (heq : '=' ∉ key) (hne : k ≠ key)
    (hk : Key k ∨ startsDotted (k ++ ['=']) (setting key v) = false) :
    sedValue k (setting key v) = none := by
  rcases hk with hk | hk
  · rw [sedValue_word hk, if_neg fun hp => hne ((setting_prefix_iff (hk.not_mem rfl) heq).mp hp)]
  · rw [sedValue, hk]
    rfl

/-- A value without special characters comes back. -/
theorem Kept.roundTrip (h : Kept fits value) (hk : Dotted key)
    (hv : ∀ c ∈ value, isBlank c = false) (hl : ∀ l ∈ config, '\n' ∉ l)
    (hp : (keys config).count key = 1) (halone : Alone config key)
    (hother : Unmatched config key value) : RoundTrip fits other config key value := by
  obtain ⟨heq, a, old, b, rfl, hab⟩ := present_split hp
  have hset : setConfig other key value (a ++ setting key old :: b) = _ :=
    setConfig_alone hk h.chars hl halone hab
  have hnone (c : List Line) (hc : ∀ l ∈ c, l ∈ a ++ b) : c.filterMap (sedValue key) = [] := by
    refine List.filterMap_eq_nil_iff.mpr fun l hm => if_neg fun hdot => ?_
    refine hab l (hc l hm) (halone l ?_ hdot)
    rcases List.mem_append.mp (hc l hm) with h | h
    · exact List.mem_append_left _ h
    · exact List.mem_append_right a (List.mem_cons_of_mem _ h)
  refine ⟨fun d => ?_, fun d k hne hk' => ?_, ?_⟩
  · refine getConfig_single ?_ hv (h.shown d)
    rw [hset, List.filterMap_append, List.filterMap_cons_some (sedValue_self key value),
      hnone a fun l hm => List.mem_append_left b hm, hnone b fun l hm => List.mem_append_right a hm]
    rfl
  · have hold : sedValue k (setting key old) = none := sedValue_other heq hne
      (hk'.imp_right fun hm => (hother k hm hne).2 _ (by simp) (prefix_setting key old))
    have hnew : sedValue k (setting key value) = none := sedValue_other heq hne
      (hk'.imp_right fun hm => (hother k hm hne).1)
    rw [getConfig, getConfig, hset, List.filterMap_append, List.filterMap_append,
      List.filterMap_cons_none hold, List.filterMap_cons_none hnew]
  · rw [hset]
    exact List.rel_append (List.forall₂_same.mpr fun l _ => .inl rfl)
      (.cons (.inr ⟨prefix_setting key old, prefix_setting key value⟩)
        (List.forall₂_same.mpr fun l _ => .inl rfl))

/-- When a list of lines each of which gives at least one has its length again, each gives one. -/
theorem flatMap_single {g : Line → List Line} {ls : List Line}
    (hpos : ∀ l ∈ ls, 1 ≤ (g l).length) (hlen : (ls.flatMap g).length = ls.length) :
    ∀ l ∈ ls, (g l).length = 1 := by
  have hle (ls : List Line) (hpos : ∀ l ∈ ls, 1 ≤ (g l).length) :
      ls.length ≤ (ls.flatMap g).length := by
    rw [List.length_flatMap]
    simpa using List.card_nsmul_le_sum (ls.map fun l => (g l).length) 1 (by simpa using hpos)
  induction ls with
  | nil => simp
  | cons l ls ih =>
    obtain ⟨hl, hrest⟩ := List.forall_mem_cons.mp hpos
    have hls := hle ls hrest
    rw [List.flatMap_cons, List.length_append, List.length_cons] at hlen
    exact List.forall_mem_cons.mpr ⟨by omega, ih hrest (by omega)⟩

section
variable {s : Subst} {text l : Line}

theorem line_pos (hr : Lib.Reads (key ++ ['=']) text s) (hn : '\n' ∉ l) :
    1 ≤ (s.line l).length := by
  have hpos : 1 ≤ ((emitted l text).splitOn '\n').length :=
    List.length_pos_iff.mpr (List.splitOn_ne_nil _ _)
  rw [hr.line hn]
  split_ifs <;> simp <;> omega

/-- What one more line than before, or one fewer, would show: a line that the key fits becomes
one line. -/
theorem single_line (hr : Lib.Reads (key ++ ['=']) text s) (hn : '\n' ∉ l)
    (hdot : startsDotted (key ++ ['=']) l = true) (hlen : (s.line l).length = 1) :
    s.line l = [emitted l text] := by
  have hline := hr.line hn
  rw [if_pos hdot] at hline
  rw [hline] at hlen ⊢
  have hpos : 1 ≤ ((emitted l text).splitOn '\n').length :=
    List.length_pos_iff.mpr (List.splitOn_ne_nil _ _)
  have hprint : s.print = false := by
    by_contra hprint
    have hprint : s.print = true := by simpa using hprint
    simp [hprint] at hlen
    omega
  have hone : ((emitted l text).splitOn '\n').length = 1 := by
    simpa [hprint] using hlen
  obtain ⟨x, hx⟩ := List.length_eq_one_iff.mp hone
  have hjoin : ['\n'].intercalate ((emitted l text).splitOn '\n') = emitted l text :=
    List.intercalate_splitOn '\n'
  rw [hx, List.intercalate_singleton] at hjoin
  simp [hprint, hx, hjoin]

end

/-- The first word behind the options when `echo` reads escapes. -/
theorem echoEscapedWords_first {w : Line} {ws : List Line} (hb : ' ' ∉ (echoEscapedWords (w :: ws)).1) :
    (echoEscapedWords (w :: ws)).1 = (echoEscapes 0 w).1 := by
  cases ws with
  | nil => rfl
  | cons x ws =>
    rw [echoEscapedWords.eq_3 w (x :: ws) (List.cons_ne_nil x ws)] at hb ⊢
    split
    · rfl
    · rename_i hstop
      rw [if_neg hstop] at hb
      simp at hb

/-- Where a text without the character ends, the character is still to come. -/
theorem split_before {d : Char} {xs ys bs zs : Line} (h : xs ++ d :: ys = bs ++ zs) (hb : d ∉ bs) :
    ∃ r, xs = bs ++ r ∧ zs = r ++ d :: ys := by
  rcases List.append_eq_append_iff.mp h with ⟨as, hbs, hd⟩ | ⟨cs, hxs, hzs⟩
  · cases as with
    | nil => exact ⟨[], by simpa using hbs.symm, hd.symm⟩
    | cons e as =>
      obtain rfl : d = e := (List.cons.inj hd).1
      exact absurd (by simp [hbs]) hb
  · exact ⟨cs, hxs, hzs⟩

/-- Options and the blank behind them end before the key starts. -/
theorem options_before {p z ra k more : Line} (hp : '=' ∉ p)
    (hblank : ∃ c ∈ p.getLast?, isBlank c = true) (hk : ∀ c ∈ k, isBlank c = false)
    (h : p ++ z = ra ++ (k ++ '=' :: more)) :
    ∃ ra', ra = p ++ ra' ∧ z = ra' ++ (k ++ '=' :: more) := by
  rcases List.append_eq_append_iff.mp h with h | ⟨bs, rfl, hkey⟩
  · exact h
  · obtain ⟨r, rfl, -⟩ := split_before hkey fun hm => hp (List.mem_append_right ra hm)
    cases bs with
    | nil => exact ⟨[], by simp, by simpa using hkey.symm⟩
    | cons e bs =>
      obtain ⟨b, hbp, hb⟩ := hblank
      rw [List.getLast?_append_of_ne_nil _ (List.cons_ne_nil e bs)] at hbp
      rw [hk b (List.mem_append_left r (List.mem_of_getLast? hbp))] at hb
      cases hb

/-- A word that goes on to the key has the `=` behind it, too. -/
theorem word_through {w tail ra k more : Line} (hk : ∀ c ∈ k, isBlank c = false)
    (htail : ∀ c ∈ tail.head?, isBlank c = true) (h : w ++ tail = ra ++ (k ++ '=' :: more)) :
    w.length ≤ ra.length ∨ ∃ more', w = ra ++ (k ++ '=' :: more') := by
  have hend {z : Line} (hz : '=' :: more = z ++ tail) : ∃ z', z = '=' :: z' := by
    cases z with
    | nil =>
      have := htail '=' (by rw [← List.nil_append tail, ← hz]; rfl)
      cases this
    | cons e z => exact ⟨z, by rw [(List.cons.inj hz).1]⟩
  rcases List.append_eq_append_iff.mp h with ⟨as, rfl, -⟩ | ⟨bs, rfl, hbs⟩
  · exact .inl (by simp)
  · refine .inr ?_
    rcases List.append_eq_append_iff.mp hbs with ⟨as, rfl, has⟩ | ⟨cs, rfl, hcs⟩
    · obtain ⟨as', rfl⟩ := hend has
      exact ⟨as', rfl⟩
    · cases cs with
      | nil => exact absurd (hend (z := []) hcs.symm) (by simp)
      | cons e cs =>
        have hblank := htail e (by rw [hcs]; rfl)
        rw [hk e (by simp)] at hblank
        cases hblank

/-- Behind an option `-e` nothing prints itself: up to the first `=` it is too short. -/
theorem escaped_never {old text rest p w tail : Line}
    (hkey : ∀ c ∈ key, isBlank c = false ∧ c ≠ '\\' ∧ c ≠ '&') (hp : '=' ∉ p)
    (hblank : ∃ c ∈ p.getLast?, isBlank c = true) (htail : ∀ c ∈ tail.head?, isBlank c = true)
    (hw : emitted (setting key old) text = p ++ w ++ tail) :
    (echoEscapes 0 w).1 ≠ text ++ rest := by
  intro hout
  have hlenw := echoEscapes_length 0 w
  have hpos : 1 ≤ p.length := by
    obtain ⟨b, hbp, -⟩ := hblank
    exact List.length_pos_of_mem (List.mem_of_getLast? hbp)
  have hupto : Upto key text (emitted (setting key old) text) := emitted_upto text
  obtain ⟨a, ra, ha, hra, hle, hcases⟩ := hupto.split
  rw [hout] at hlenw
  rcases hcases with ⟨rfl, hemit⟩ | ⟨k', c, text', more, rfl, hemit, hk'⟩
  · rw [← hemit, hw] at hle
    simp only [List.length_append] at hle hlenw
    omega
  · have hkey' : ∀ d ∈ k', isBlank d = false ∧ d ≠ '\\' ∧ d ≠ '&' := by
      intro d hd
      rcases hk' with rfl | ⟨rfl, -⟩
      · cases hd
      · exact hkey d hd
    have hsplit : p ++ (w ++ tail) = ra ++ (k' ++ '=' :: more) := by
      rw [← List.append_assoc, ← hw, ← List.append_assoc]
      exact hemit
    obtain ⟨ra', rfl, hrest⟩ := options_before hp hblank (fun d hd => (hkey' d hd).1) hsplit
    simp only [List.length_append, List.length_cons] at hle hlenw
    rcases word_through (fun d hd => (hkey' d hd).1) htail hrest with hshort | ⟨more', rfl⟩
    · omega
    · rcases echoEscapes_parts (fun hm => (hkey' _ hm).2.1 rfl) more' ra' (Nat.zero_le _) with
        ⟨o, x, tail', ho, hlo, hx⟩ | hshort
      · rw [hout] at ho
        obtain ⟨a', rfl, hx'⟩ : ∃ a', a = o ++ a' ∧ x ++ '=' :: tail' = a' ++ (c :: text' ++ rest) := by
          rw [List.append_assoc] at ho
          rcases List.append_eq_append_iff.mp ho with ⟨as, rfl, -⟩ | h
          · simp only [List.length_append] at hlo
            omega
          · exact h
        obtain ⟨r, rfl, hr⟩ := split_before hx' fun hm => ha (List.mem_append_right o hm)
        rcases hk' with rfl | ⟨rfl, hc⟩
        · have hnil : a' = [] := (List.append_eq_nil_iff.mp (List.suffix_nil.mp hx)).1
          rw [hnil, List.append_nil] at hle
          omega
        · cases r with
          | nil =>
            have heq : c = '=' := (List.cons.inj hr).1
            rw [heq] at hc
            exact absurd hc (by decide)
          | cons e r =>
            obtain rfl : c = e := (List.cons.inj hr).1
            obtain ⟨-, hslash, hamp⟩ := hkey' c (hx.subset (by simp))
            exact hc.elim hslash hamp
      · rw [hout] at hshort
        simp only [List.length_append, List.length_cons] at hshort
        omega

/-- A value that is printed as it was given is plain. -/
theorem printed_plain {old text rest : Line}
    (hkey : ∀ c ∈ key, isBlank c = false ∧ c ≠ '\\' ∧ c ≠ '&') (hv : ∀ c ∈ text ++ rest, isBlank c = false)
    (hprint : echo ("-n".toList :: splitWords (emitted (setting key old) text)) = text ++ rest) :
    (∀ c ∈ text, c ≠ '\\' ∧ c ≠ '&') ∧ rest = [] ∧ isEchoOption text = false := by
  have hspecial : '\\' ∉ key ∧ '&' ∉ key :=
    ⟨fun hm => (hkey _ hm).2.1 rfl, fun hm => (hkey _ hm).2.2 rfl⟩
  obtain ⟨opts, ws, hws, hopts, hfirst, hecho⟩ :=
    echoFrom_options (splitWords (emitted (setting key old) text)) false false
  have hout : echoText false (opts.any ('e' ∈ ·)) ws = text ++ rest := by
    rw [← hprint, echo, echoFrom, if_pos (by decide)]
    exact (by simpa using hecho.symm)
  by_cases hnil : text ++ rest = []
  · obtain ⟨rfl, rfl⟩ := List.append_eq_nil_iff.mp hnil
    exact ⟨by simp, rfl, rfl⟩
  cases ws with
  | nil =>
    rw [← hout] at hnil
    exact absurd (by cases opts.any ('e' ∈ ·) <;> rfl) hnil
  | cons w ws =>
    obtain ⟨p, tail, hsplit, hp, htail, hlast⟩ := splitWords_around hws
    have heq : '=' ∉ p := by
      intro hm
      rcases hp '=' hm with hb | ⟨o, ho, hm⟩
      · cases hb
      · exact absurd (isEchoOption_chars (hopts o ho) '=' hm) (by decide)
    have hspace : ' ' ∉ text ++ rest := fun hm => absurd (hv ' ' hm) (by decide)
    cases hesc : opts.any ('e' ∈ ·) with
    | true =>
      have hne : opts ≠ [] := by
        rintro rfl
        cases hesc
      have hout : (echoEscapedWords (w :: ws)).1 = text ++ rest := by
        rw [← hout, hesc]
        simp [echoText]
      rw [← hout] at hspace
      rw [echoEscapedWords_first hspace] at hout
      exact absurd hout (escaped_never hkey heq (hlast hne) htail hsplit)
    | false =>
      have hout : [' '].intercalate (w :: ws) = text ++ rest := by
        rw [← hout, hesc]
        simp [echoText]
      cases ws with
      | cons x ws =>
        rw [List.intercalate_cons_cons] at hout
        rw [← hout] at hspace
        simp at hspace
      | nil =>
        rw [List.intercalate_singleton] at hout
        have hfixed : emitted (setting key old) text = p ++ text ++ (rest ++ tail) := by
          rw [hsplit, hout]
          simp
        obtain ⟨rfl, hplain⟩ := emitted_fixed hspecial heq hfixed
        have hself : emitted (setting key old) (text ++ []) = text ++ emitted (setting key old) [] :=
          emitted_append hplain []
        rw [List.append_nil, hfixed] at hself
        simp only [emitted, List.nil_append, List.append_nil, List.append_right_eq_self] at hself
        obtain ⟨rfl, -⟩ := List.append_eq_nil_iff.mp hself
        rw [List.append_nil] at hout
        exact ⟨hplain, rfl, hout ▸ hfirst w rfl⟩

/-- What sed makes of the value is `K=` and a replacement that ends at the first `%`. -/
theorem readSubst_setCommand (hk : Dotted key) {s : Subst}
    (h : readSubst (setCommand key value) = .ok s) : ∃ text rest,
      Lib.Reads (key ++ ['=']) (setting key text) s ∧ value = text ++ rest ∧
        ((∀ c ∈ text, c ≠ '\\') → '%' ∉ text) := by
  have hplain : ∀ c ∈ key ++ ['='], DotEre c := by
    intro c hc
    rcases List.mem_append.mp hc with hc | hc
    · exact (hk c hc).1
    · rw [List.mem_singleton.mp hc]
      decide
  have hdelim : '%' ∉ key ++ ['='] := by simpa using hk.not_mem (by decide)
  obtain ⟨v, rest, hr, hv, hrest, hfirst⟩ := readSubst_cases (by decide) (by decide) hdelim hplain h
  have hsplit : (key ++ ['=']) ++ value = v ++ rest := by rw [← hv, setting_eq]
  obtain ⟨text, rfl, hvalue⟩ : ∃ text, v = (key ++ ['=']) ++ text ∧ value = text ++ rest := by
    rcases List.append_eq_append_iff.mp hsplit with h | ⟨bs, hkey, hbs⟩
    · exact h
    · cases bs with
      | nil => exact ⟨[], by simpa using hkey.symm, by simpa using hbs.symm⟩
      | cons c bs =>
        exfalso
        rcases hrest with rfl | hrest
        · cases hbs
        · rw [hbs] at hrest
          exact hdelim (by rw [hkey, Option.some.inj hrest]; simp)
  refine ⟨text, rest, ?_, hvalue, fun hslash => ?_⟩
  · rwa [setting_eq]
  · have hall : '\\' ∉ (key ++ ['=']) ++ text := by
      rw [List.mem_append, not_or]
      exact ⟨by simpa using hk.backslash, fun hm => hslash _ hm rfl⟩
    exact fun hm => hfirst hall (List.mem_append_right _ hm)

theorem echo_single (w : Line) : echo ["-n".toList, w] = if isEchoOption w then [] else w := by
  have hn : isEchoOption ['-', 'n'] = true := by decide
  by_cases hw : isEchoOption w = true
  · cases he : decide ('e' ∈ w) <;> simp [echo, echoFrom, hn, hw, echoText, he, echoEscapedWords]
  · simp [echo, echoFrom, hn, hw, echoText]

/-- With names in the directory a value is still printed as it was given. -/
theorem fixed_of_read (hv : ∀ c ∈ value, isBlank c = false)
    (hread : ∀ d : Directory, getConfig (d.matching fits) key [setting key value] = value) :
    Fixed fits value := by
  intro hmeta name hne hfit
  have hword : Word value := by
    refine ⟨?_, hv⟩
    rintro rfl
    simp at hmeta
  have hd := hread (Directory.single name hne)
  have hvalue : sedValue key (setting key value) = some value := sedValue_self key value
  have hexpand : expandWord (metaOnly ((Directory.single name hne).matching fits)) value = [name] :=
    (Directory.single_expand hne value).trans (by rw [if_pos ⟨hmeta, hfit⟩])
  rw [getConfig, List.filterMap_cons_some hvalue, List.filterMap_nil, unquoted,
    List.flatMap_singleton, hword.split, List.flatMap_singleton, hexpand, echo_single] at hd
  split at hd
  · exact absurd hd.symm hword.1
  · exact hd

theorem emitted_setting (hk : Dotted key) (whole text : Line) :
    emitted whole (setting key text) = setting key (emitted whole text) := by
  have hplain : ∀ c ∈ key ++ ['='], c ≠ '\\' ∧ c ≠ '&' := by
    intro c hc
    rcases List.mem_append.mp hc with hc | hc
    · exact ⟨fun he => hk.backslash (he ▸ hc), fun he => hk.not_mem (c := '&') (by decide) (he ▸ hc)⟩
    · rw [List.mem_singleton.mp hc]
      decide
  rw [setting_eq, emitted_append hplain, ← setting_eq]

/-- A command that sed takes leaves the other lines alone only when the key fits none of them. -/
theorem RoundTrip.alone (h : RoundTrip fits other config key value) (hk : Dotted key)
    (hl : ∀ l ∈ config, '\n' ∉ l) {s : Subst} {text : Line}
    (hreads : Lib.Reads (key ++ ['=']) (setting key text) s)
    (hset : setConfig other key value config = config.flatMap s.line) :
    Alone config key ∧ ∀ l ∈ config, (s.line l).length = 1 := by
  have hlines := h.lines
  rw [hset] at hlines
  have hone : ∀ l ∈ config, (s.line l).length = 1 :=
    flatMap_single (fun l hm => line_pos hreads (hl l hm)) hlines.length_eq.symm
  have hmap : config.flatMap s.line = config.map fun l => (s.line l).headD [] := by
    rw [List.map_eq_flatMap]
    refine List.flatMap_congr fun l hm => ?_
    obtain ⟨x, hx⟩ := List.length_eq_one_iff.mp (hone l hm)
    rw [hx]
    rfl
  rw [hmap, List.forall₂_map_right_iff, List.forall₂_same] at hlines
  refine ⟨fun l hm hdot => ?_, hone⟩
  rcases hlines l hm with hsame | ⟨hown, -⟩
  · rw [single_line hreads (hl l hm) hdot (hone l hm), emitted_setting hk, List.headD_cons] at hsame
    exact hsame ▸ prefix_setting key _
  · exact hown

/-- A command that sed takes writes a value that comes back only when it is plain. -/
theorem RoundTrip.kept (h : RoundTrip fits other config key value) (hk : Dotted key)
    (hblank : ∀ c ∈ key, isBlank c = false) (hv : ∀ c ∈ value, isBlank c = false ∧ c ≠ '\n')
    (hl : ∀ l ∈ config, '\n' ∉ l) (hp : (keys config).count key = 1) {s : Subst}
    (hr : readSubst (setCommand key value) = .ok s)
    (hset : setConfig other key value config = config.flatMap s.line) :
    Kept fits value ∧ Alone config key := by
  obtain ⟨text, rest, hreads, rfl, hpercent⟩ := readSubst_setCommand hk hr
  obtain ⟨halone, hone⟩ := h.alone hk hl hreads hset
  refine ⟨?_, halone⟩
  obtain ⟨-, a, old, b, rfl, hab⟩ := present_split hp
  have hfits (l : Line) (hm : l ∈ a ++ b) :
      l ∈ a ++ setting key old :: b ∧ startsDotted (key ++ ['=']) l = false := by
    have hmem : l ∈ a ++ setting key old :: b := by
      rcases List.mem_append.mp hm with h | h
      · exact List.mem_append_left _ h
      · exact List.mem_append_right a (List.mem_cons_of_mem _ h)
    exact ⟨hmem, Bool.eq_false_iff.mpr fun hdot => hab l hm (halone l hmem hdot)⟩
  have hsame (c : List Line) (hc : ∀ l ∈ c, l ∈ a ++ b) : c.flatMap s.line = c := by
    rw [List.flatMap_congr (g := fun l => [l]) fun l hm => by
      obtain ⟨hmem, hdot⟩ := hfits l (hc l hm)
      rw [hreads.line (hl l hmem), hdot]
      rfl]
    exact List.flatMap_singleton' c
  have hnone (c : List Line) (hc : ∀ l ∈ c, l ∈ a ++ b) : c.filterMap (sedValue key) = [] :=
    List.filterMap_eq_nil_iff.mpr fun l hm =>
      if_neg (Bool.eq_false_iff.mp (hfits l (hc l hm)).2)
  have hleft : ∀ l ∈ a, l ∈ a ++ b := fun l hm => List.mem_append_left b hm
  have hright : ∀ l ∈ b, l ∈ a ++ b := fun l hm => List.mem_append_right a hm
  have hown : setting key old ∈ a ++ setting key old :: b := by simp
  rw [List.flatMap_append, List.flatMap_cons, hsame a hleft, hsame b hright,
    single_line hreads (hl _ hown) (prefix_startsDotted (prefix_setting key old)) (hone _ hown),
    emitted_setting hk] at hset
  have hfilter : (setConfig other key (text ++ rest) (a ++ setting key old :: b)).filterMap
      (sedValue key) = [emitted (setting key old) text] := by
    rw [hset, List.filterMap_append, hnone a hleft, List.nil_append, List.singleton_append,
      List.filterMap_cons_some (sedValue_self ..), hnone b hright]
  have hget (d : Directory) : echo ("-n".toList :: unquoted (d.files fits)
      [emitted (setting key old) text]) = text ++ rest := by
    have := h.read d
    rwa [getConfig, hfilter] at this
  have hempty := hget .empty
  rw [unquoted_eq_split fun w => Directory.empty_files, List.flatMap_singleton] at hempty
  have hspecial : ∀ c ∈ key, isBlank c = false ∧ c ≠ '\\' ∧ c ≠ '&' := fun c hc =>
    ⟨hblank c hc, fun he => hk.backslash (he ▸ hc),
      fun he => hk.not_mem (c := '&') (by decide) (he ▸ hc)⟩
  have hvblank : ∀ c ∈ text ++ rest, isBlank c = false := fun c hc => (hv c hc).1
  obtain ⟨hplain, rfl, hoption⟩ := printed_plain hspecial hvblank hempty
  have hself : emitted (setting key old) text = text := by
    have happend : emitted (setting key old) (text ++ []) = text ++ emitted (setting key old) [] :=
      emitted_append hplain []
    simpa [emitted] using happend
  rw [List.append_nil] at hv hvblank ⊢
  refine ⟨fun c hc => ⟨⟨(hplain c hc).1, (hplain c hc).2, (hv c hc).2⟩, fun he =>
    hpercent (fun x hx => (hplain x hx).1) (he ▸ hc)⟩, hoption, ?_⟩
  have hread (d : Directory) : getConfig (d.matching fits) key [setting key text] = text := by
    rw [getConfig, List.filterMap_cons_some (sedValue_self key text), List.filterMap_nil]
    have := hget d
    rwa [hself, List.append_nil] at this
  exact fixed_of_read hvblank hread

/-- A command of `set_config` that this model reads. -/
theorem setConfig_read (other : Line → List Line → List Line) (hk : Dotted key) (hn : '\n' ∉ value)
    (hread : readSubst (setCommand key value) ≠ .other) (config : List Line) :
    (readSubst (setCommand key value) = .refused ∧ setConfig other key value config = config) ∨
      ∃ s, readSubst (setCommand key value) = .ok s ∧
        setConfig other key value config = config.flatMap s.line := by
  have hkey : '\n' ∉ key := hk.not_mem (by decide)
  have htext : '\n' ∉ setting key value := by simp [setting, hkey, hn]
  have hsed : setConfig other key value config = _ :=
    sed_read (by decide) (by decide) (by simpa using hkey) htext config
  rw [← setCommand] at hsed
  cases hr : readSubst (setCommand key value) with
  | other => exact absurd hr hread
  | refused =>
    rw [hr] at hsed
    exact .inl ⟨rfl, hsed⟩
  | ok s =>
    rw [hr] at hsed
    exact .inr ⟨s, rfl, hsed⟩

/-- Nothing changes when sed refuses the command. -/
theorem refused_roundTrip (hk : Dotted key) (hn : '\n' ∉ value)
    (hr : readSubst (setCommand key value) = .refused)
    (hsame : ∀ d : Directory, getConfig (d.matching fits) key config = value) :
    RoundTrip fits other config key value := by
  rcases setConfig_read other hk hn (by rw [hr]; decide) config with ⟨-, hset⟩ | ⟨s, hr', -⟩
  · refine ⟨fun d => by rw [hset, hsame d], fun d k _ _ => by rw [hset], ?_⟩
    rw [hset, List.forall₂_same]
    exact fun l _ => .inl rfl
  · rw [hr] at hr'
    cases hr'

/-- A setting that is settable comes back, and only such a one where no other key of the file
fits the line of its key. -/
theorem roundTrip_settable (hv : ∀ c ∈ value, isBlank c = false ∧ c ≠ '\n')
    (hl : ∀ l ∈ config, '\n' ∉ l) (hp : (keys config).count key = 1) :
    (Settable fits config key value → RoundTrip fits other config key value) ∧
    (Clear config → Unmatched config key value → (∀ c ∈ key, isBlank c = false) →
      readSubst (setCommand key value) ≠ .other →
      RoundTrip fits other config key value → Settable fits config key value) := by
  have hmem : key ∈ keys config := List.count_pos_iff.mp (by omega)
  have hn : '\n' ∉ value := fun hm => (hv _ hm).2 rfl
  constructor
  · rintro ⟨hclear, ⟨hkept, halone, hother⟩ | ⟨hr, hsame⟩⟩
    · exact hkept.roundTrip (hclear key hmem) (fun c hc => (hv c hc).1) hl hp halone hother
    · exact refused_roundTrip (hclear key hmem) hn hr hsame
  · intro hclear hother hblank hread h
    refine ⟨hclear, ?_⟩
    rcases setConfig_read other (hclear key hmem) hn hread config with ⟨hr, hset⟩ | ⟨s, hr, hset⟩
    · have hget := h.read
      rw [hset] at hget
      exact .inr ⟨hr, hget⟩
    · obtain ⟨hkept, halone⟩ := h.kept (hclear key hmem) hblank hv hl hp hr hset
      exact .inl ⟨hkept, halone, hother⟩

end

/-- Three lines of a configuration, one with a dot in its key. -/
def someSettings : List Line :=
  ["ddns_user=user".toList, "ddns_pass=pass".toList, "eth0.mtu=1500".toList]

def noneFits : Line → Line → Bool := fun _ _ => false

instance (config : List Line) : Decidable (Clear config) :=
  inferInstanceAs (Decidable (∀ _ ∈ _, _))

/-- A password of letters and digits, and a key with a dot that fits no other line. -/
theorem roundTrip_settable_word :
    RoundTrip noneFits (fun _ lines => lines) someSettings "ddns_pass".toList "s3cret".toList ∧
      RoundTrip noneFits (fun _ lines => lines) someSettings "eth0.mtu".toList "1400".toList ∧
      ¬ RoundTrip noneFits (fun _ lines => lines) someSettings "ddns_pass".toList "a%b".toList := by
  have hclear : Clear someSettings := by decide +kernel
  have hl : ∀ l ∈ someSettings, '\n' ∉ l := by decide
  refine ⟨(roundTrip_settable (by decide) hl (by decide +kernel)).1 ⟨hclear, .inl ⟨?_, ?_, ?_⟩⟩,
    (roundTrip_settable (by decide) hl (by decide +kernel)).1 ⟨hclear, .inl ⟨?_, ?_, ?_⟩⟩,
    fun h => ?_⟩
  · exact ⟨by decide, by decide, fun h => absurd h (by decide)⟩
  · unfold Alone
    decide +kernel
  · unfold Unmatched
    decide +kernel
  · exact ⟨by decide, by decide, fun h => absurd h (by decide)⟩
  · unfold Alone
    decide +kernel
  · unfold Unmatched
    decide +kernel
  · obtain ⟨-, ⟨hkept, -⟩ | ⟨hr, hsame⟩⟩ := (roundTrip_settable (by decide) hl
      (by decide +kernel)).2 hclear (by unfold Unmatched; decide +kernel) (by decide)
        (by decide +kernel) h
    · exact absurd (hkept.chars '%' (by decide)).2 (by decide)
    · have hget := hsame .empty
      revert hget
      decide +kernel

/-- The old line comes in for an ampersand, and a dot in the key fits another line. -/
theorem roundTrip_ampersand :
    (¬ RoundTrip noneFits (fun _ lines => lines) someSettings "ddns_pass".toList "a&b".toList) ∧
      ¬ RoundTrip noneFits (fun _ lines => lines) ["axb=1".toList, "a.b=2".toList] "a.b".toList
        "v".toList := by
  constructor
  · intro h
    have hget : getConfig (Directory.empty.matching noneFits) "ddns_pass".toList (setConfig
        (fun _ lines => lines) "ddns_pass".toList "a&b".toList someSettings) =
          "addns_pass=passb".toList := by decide +kernel
    have hread := h.read .empty
    rw [hget] at hread
    exact absurd hread (by decide)
  · intro h
    have hget : getConfig (Directory.empty.matching noneFits) "a.b".toList (setConfig
        (fun _ lines => lines) "a.b".toList "v".toList ["axb=1".toList, "a.b=2".toList]) =
          "v v".toList := by decide +kernel
    have hread := h.read .empty
    rw [hget] at hread
    exact absurd hread (by decide)

end SnakeOs.Config
