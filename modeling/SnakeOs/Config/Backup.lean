import SnakeOs.Firmware.Gate
import SnakeOs.Lib.Files
import SnakeOs.Lib.Test

namespace SnakeOs.Config
open Lib Firmware

/-- The size of the CFG partition, `/dev/mtdblock1`. -/
def cfgSize : Nat := 131072

/-- `$(md5sum NAME | cut -c 1-32)` -/
def md5Column (md5 : Bytes → Fin 16 → UInt8) (name : Line) (file : Bytes) : Line :=
  cmdSubst (cutChars 1 (some 32)
    ((List.ofFn (md5 file)).flatMap hex2 ++ [' ', ' '] ++ name ++ ['\n']))

/-- `$(cat /etc/version)` -/
def catVersion (etcVersion : Bytes) : Line := cmdSubst (etcVersion.map byteChar)

/-- The body that `backup.cgi` sends: `/tmp/config.bin`, and the newline of the page behind
the script. -/
def backupCgi (md5 : Bytes → Fin 16 → UInt8) (files : Line → List Line)
    (etcVersion cfg : Bytes) : Bytes :=
  let line := md5Column md5 "/tmp/cfgpart".toList cfg ++ catVersion etcVersion
  cfg ++ (echo (unquoted (metaOnly files) [line])).map charByte ++ [10]

/-- What the Restore branch of `config.cgi` writes to `/dev/mtdblock1`, if it does. -/
def restore (md5 : Bytes → Fin 16 → UInt8) (ops : TestOps) (etcVersion file : Bytes) :
    Option Bytes :=
  let cfgpartition := dd 4096 0 (some 32) file
  let cfgstring := (dd 4096 32 none file).map byteChar
  let filemd5 := md5Column md5 "/tmp/cfgpartition.tmp".toList cfgpartition
  let expmd5 := cmdSubst (cutChars 1 (some 32) cfgstring)
  if bracket ops [filemd5, ['='], expmd5] = some true then
    let filever := cmdSubst (cutChars 33 none cfgstring)
    let thisver := catVersion etcVersion
    if bracket ops [filever, ['='], thisver] = some true then
      some (dd 4096 0 (some 32) cfgpartition)
    else none
  else none

section
variable {md5 : Bytes → Fin 16 → UInt8}

/-- The hexadecimal md5 of a file. -/
def md5Hex (md5 : Bytes → Fin 16 → UInt8) (file : Bytes) : Line := digest (List.ofFn (md5 file))

theorem md5Hex_length (file : Bytes) : (md5Hex md5 file).length = 32 := by
  simp [md5Hex, digest_length]

theorem md5Hex_not_mem {file : Bytes} {c : Char} (hc : c.isAlphanum = false) :
    c ∉ md5Hex md5 file := by
  intro hm
  obtain ⟨n, hn, he⟩ := digest_digits _ _ hm
  exact digitChar_ne hn hc he.symm

theorem md5Hex_byte {file : Bytes} : ∀ c ∈ md5Hex md5 file, c.toNat < 256 := by
  intro c hc
  obtain ⟨n, hn, rfl⟩ := digest_digits _ _ hc
  have hdigit : ∀ a : Fin 16, (Nat.digitChar a).toNat < 256 := by decide
  exact hdigit ⟨n, hn⟩

theorem md5Hex_ne_nil {file : Bytes} : md5Hex md5 file ≠ [] := by
  refine List.ne_nil_of_length_pos ?_
  rw [md5Hex_length]
  decide

theorem md5Column_eq (name : Line) (hn : '\n' ∉ name) (h0 : '\x00' ∉ name) (file : Bytes) :
    md5Column md5 name file = md5Hex md5 file := by
  have hline : '\n' ∉ md5Hex md5 file ++ ' ' :: ' ' :: name := by
    simp [md5Hex_not_mem, hn]
  have hnul : '\x00' ∉ md5Hex md5 file ++ ' ' :: ' ' :: name := by
    simp [md5Hex_not_mem, h0]
  obtain ⟨j, hj⟩ := cutChars_line hnul hline 1 (some 32) 1
  have htake : (md5Hex md5 file ++ ' ' :: ' ' :: name).take 32 = md5Hex md5 file :=
    List.take_left' (md5Hex_length file)
  simp only [Option.getD_some, Nat.sub_self, List.drop_zero, htake] at hj
  have htext : (List.ofFn (md5 file)).flatMap hex2 ++ [' ', ' '] ++ name ++ ['\n'] =
      md5Hex md5 file ++ ' ' :: ' ' :: name ++ List.replicate 1 '\n' := by
    simp [md5Hex, digest]
  rw [md5Column, htext, hj]
  exact cmdSubst_newlines (md5Hex_not_mem rfl) (md5Hex_not_mem rfl) j

theorem cfgpartition_eq (file : Bytes) : dd 4096 0 (some 32) file = file.take cfgSize := by
  simp [dd, cfgSize]

theorem cfgstring_eq (file : Bytes) : dd 4096 32 none file = file.drop cfgSize := by
  simp [dd, cfgSize]

variable {ops : TestOps}

/-- When Restore writes, and what. -/
theorem restore_iff {etcVersion file out : Bytes} (h0 : ∀ b ∈ file.drop cfgSize, b ≠ 0) :
    restore md5 ops etcVersion file = some out ↔ out = file.take cfgSize ∧
      ∃ line j, (file.drop cfgSize).map byteChar = line ++ List.replicate j '\n' ∧ '\n' ∉ line ∧
        line.take 32 = md5Hex md5 (file.take cfgSize) ∧
        bracket ops [line.drop 32, ['='], catVersion etcVersion] = some true := by
  have hnul : '\x00' ∉ (file.drop cfgSize).map byteChar := by
    intro hm
    obtain ⟨b, hb, he⟩ := List.mem_map.mp hm
    exact h0 b hb (byteChar_eq_nul.mp he)
  have hno {line : Line} {j : Nat}
      (he : (file.drop cfgSize).map byteChar = line ++ List.replicate j '\n') : '\x00' ∉ line :=
    fun hm => hnul (he ▸ List.mem_append_left _ hm)
  have hname : '\n' ∉ "/tmp/cfgpartition.tmp".toList ∧ '\x00' ∉ "/tmp/cfgpartition.tmp".toList := by
    decide
  have hhex (c : Char) (hc : c.isAlphanum = false) : md5Hex md5 (file.take cfgSize) ≠ [c] :=
    fun he => md5Hex_not_mem hc (he ▸ List.mem_cons_self)
  simp only [restore, cfgpartition_eq, cfgstring_eq, md5Column_eq _ hname.1 hname.2,
    bracket_compare (hhex '!' rfl) (hhex '(' rfl), Option.some.injEq, decide_eq_true_eq]
  constructor
  · intro h
    split at h
    · rename_i hmd5
      split at h
      · rename_i hver
        refine ⟨by rw [← Option.some.inj h, List.take_take, Nat.min_self], ?_⟩
        obtain ⟨k, hk⟩ := eq_cmdSubst_append
          (cutChars_no_nul 1 (some 32) ((file.drop cfgSize).map byteChar))
        rw [← hmd5] at hk
        obtain ⟨line, j, hline, hn, htake⟩ :=
          cutChars_first hnul (md5Hex_not_mem rfl) md5Hex_ne_nil (by decide) hk
        refine ⟨line, j, hline, hn, htake, ?_⟩
        rwa [hline, cmdSubst_cutChars (hno hline) hn, Option.getD_none, List.take_length] at hver
      · cases h
    · cases h
  · rintro ⟨rfl, line, j, hline, hn, htake, hver⟩
    have hexp : md5Hex md5 (file.take cfgSize) =
        cmdSubst (cutChars 1 (some 32) ((file.drop cfgSize).map byteChar)) := by
      rw [hline, cmdSubst_cutChars (hno hline) hn]
      exact htake.symm
    rw [if_pos hexp, hline, cmdSubst_cutChars (hno hline) hn, Option.getD_none, List.take_length,
      if_pos hver, List.take_take, Nat.min_self]

/-- A word of a version: text without pattern characters. -/
structure VersionWord (w : Line) : Prop where
  ne : w ≠ []
  chars : ∀ c ∈ w, isBlank c = false ∧ c ≠ '\n' ∧ c ≠ '\x00' ∧ c ∉ metaChars ∧ c.toNat < 256

/-- The version that a list of words makes, and `/etc/version` with `k` newlines behind it. -/
def version (words : List Line) : Line := [' '].intercalate words

def etcVersion (words : List Line) (k : Nat) : Bytes :=
  (version words ++ List.replicate k '\n').map charByte

section
variable {words : List Line}

theorem version_chars (hw : ∀ w ∈ words, VersionWord w) : ∀ c ∈ version words,
    c ≠ '\n' ∧ c ≠ '\x00' ∧ c ∉ metaChars ∧ c.toNat < 256 := by
  intro c hc
  rcases mem_intercalate hc with rfl | ⟨w, hm, hc⟩
  · decide
  · exact ((hw w hm).chars c hc).2

theorem catVersion_eq (hw : ∀ w ∈ words, VersionWord w) (k : Nat) :
    catVersion (etcVersion words k) = version words := by
  have hbyte : ∀ c ∈ version words ++ List.replicate k '\n', c.toNat < 256 := by
    intro c hc
    rcases List.mem_append.mp hc with hc | hc
    · exact (version_chars hw c hc).2.2.2
    · rw [List.eq_of_mem_replicate hc]
      decide
  rw [catVersion, etcVersion, map_byteChar hbyte]
  exact cmdSubst_newlines (fun h => (version_chars hw _ h).2.1 rfl)
    (fun h => (version_chars hw _ h).1 rfl) k

/-- The line behind the partition in a backup. -/
theorem backup_line (hw : ∀ w ∈ words, VersionWord w) (files : Line → List Line) (cfg : Bytes) :
    echo (unquoted (metaOnly files) [md5Hex md5 cfg ++ version words]) =
      md5Hex md5 cfg ++ version words ++ ['\n'] := by
  -- the first word starts with the digest
  obtain ⟨first, rest, hfirst, hrest, hline⟩ : ∃ first rest,
      (∀ c ∈ md5Hex md5 cfg ++ first, isBlank c = false ∧ c ∉ metaChars) ∧
      (∀ w ∈ rest, VersionWord w) ∧
      md5Hex md5 cfg ++ version words = [' '].intercalate ((md5Hex md5 cfg ++ first) :: rest) := by
    have hhex : ∀ c ∈ md5Hex md5 cfg, isBlank c = false ∧ c ∉ metaChars := by
      intro c hc
      obtain ⟨n, hn, rfl⟩ := digest_digits _ _ hc
      have hdigit : ∀ a : Fin 16, isBlank (Nat.digitChar a) = false ∧
          Nat.digitChar a ∉ metaChars := by decide
      exact hdigit ⟨n, hn⟩
    cases words with
    | nil => exact ⟨[], [], by simpa using hhex, by simp, by simp [version]⟩
    | cons w words =>
      refine ⟨w, words, fun c hc => ?_, fun v hv => hw v (List.mem_cons_of_mem w hv), ?_⟩
      · rcases List.mem_append.mp hc with hc | hc
        · exact hhex c hc
        · have := (hw w List.mem_cons_self).chars c hc
          exact ⟨this.1, this.2.2.2.1⟩
      · cases words <;> simp [version, List.intercalate_cons_cons]
  have hword : ∀ w ∈ (md5Hex md5 cfg ++ first) :: rest, Word w ∧ ∀ c ∈ w, c ∉ metaChars := by
    intro w hm
    rcases List.mem_cons.mp hm with rfl | hm
    · exact ⟨⟨by simp [md5Hex_ne_nil], fun c hc => (hfirst c hc).1⟩, fun c hc => (hfirst c hc).2⟩
    · exact ⟨⟨(hrest w hm).ne, fun c hc => ((hrest w hm).chars c hc).1⟩,
        fun c hc => ((hrest w hm).chars c hc).2.2.2.1⟩
  have hplain : unquoted (metaOnly files) [md5Hex md5 cfg ++ version words] =
      (md5Hex md5 cfg ++ first) :: rest := by
    rw [hline, unquoted, List.flatMap_singleton, splitWords_words fun w hm => (hword w hm).1]
    refine (List.flatMap_congr fun w hm => ?_).trans (List.flatMap_singleton' _)
    have hnone : w.any (· ∈ metaChars) = false := by
      simpa using (hword w hm).2
    simp [expandWord, metaOnly, hnone]
  have hhead : (md5Hex md5 cfg ++ first).head? ≠ some '-' := by
    rw [List.head?_append_of_ne_nil _ md5Hex_ne_nil]
    exact fun h => md5Hex_not_mem rfl (List.mem_of_mem_head? h)
  rw [hplain, echo_words hhead, ← hline]

theorem map_charByte_nonzero {text : List Char} (h : ∀ c ∈ text, c ≠ '\x00' ∧ c.toNat < 256) :
    ∀ b ∈ text.map charByte, b ≠ 0 := by
  intro b hb
  obtain ⟨c, hc, rfl⟩ := List.mem_map.mp hb
  intro he
  have := byteChar_charByte (h c hc).2
  rw [he] at this
  exact (h c hc).1 (this ▸ rfl)

/-- A file with one line behind the partition, the md5 and `ver`. -/
def withLine (md5 : Bytes → Fin 16 → UInt8) (cfg : Bytes) (ver : Line) (j : Nat) : Bytes :=
  cfg ++ (md5Hex md5 cfg ++ ver ++ List.replicate j '\n').map charByte

theorem withLine_tail (md5 : Bytes → Fin 16 → UInt8) {cfg : Bytes} {ver : Line} (j : Nat)
    (hlen : cfg.length = cfgSize)
    (hver : ∀ c ∈ ver, c ≠ '\n' ∧ c ≠ '\x00' ∧ c.toNat < 256) :
    (withLine md5 cfg ver j).take cfgSize = cfg ∧
      (∀ b ∈ (withLine md5 cfg ver j).drop cfgSize, b ≠ 0) ∧
      ((withLine md5 cfg ver j).drop cfgSize).map byteChar =
        md5Hex md5 cfg ++ ver ++ List.replicate j '\n' := by
  have hchars : ∀ c ∈ md5Hex md5 cfg ++ ver ++ List.replicate j '\n', c ≠ '\x00' ∧ c.toNat < 256 := by
    intro c hc
    rcases List.mem_append.mp hc with hc | hc
    · rcases List.mem_append.mp hc with hc | hc
      · exact ⟨fun he => md5Hex_not_mem rfl (he ▸ hc), md5Hex_byte c hc⟩
      · exact (hver c hc).2
    · rw [List.eq_of_mem_replicate hc]
      decide
  rw [withLine, List.take_left' hlen, List.drop_left' hlen]
  exact ⟨rfl, map_charByte_nonzero hchars, map_byteChar fun c hc => (hchars c hc).2⟩

/-- Such a file is restored if `[` lets its version pass. -/
theorem restore_withLine {cfg etc out : Bytes} {ver : Line} {j : Nat} (hlen : cfg.length = cfgSize)
    (hver : ∀ c ∈ ver, c ≠ '\n' ∧ c ≠ '\x00' ∧ c.toNat < 256) :
    restore md5 ops etc (withLine md5 cfg ver j) = some out ↔
      out = cfg ∧ bracket ops [ver, ['='], catVersion etc] = some true := by
  obtain ⟨htake, h0, htail⟩ := withLine_tail md5 j hlen hver
  have hn : '\n' ∉ md5Hex md5 cfg ++ ver := by
    intro hm
    rcases List.mem_append.mp hm with hm | hm
    · exact md5Hex_not_mem rfl hm
    · exact (hver _ hm).1 rfl
  rw [restore_iff h0, htake, htail]
  refine and_congr_right fun _ => ⟨?_, fun hok => ?_⟩
  · rintro ⟨line, i, hline, hnl, -, hok⟩
    have he : line = md5Hex md5 cfg ++ ver := line_unique hnl hn hline.symm
    rwa [he, List.drop_left' (md5Hex_length cfg)] at hok
  · refine ⟨_, j, rfl, hn, List.take_left' (md5Hex_length cfg), ?_⟩
    rwa [List.drop_left' (md5Hex_length cfg)]

theorem backup_withLine (hw : ∀ w ∈ words, VersionWord w) (files : Line → List Line) (k : Nat)
    (cfg : Bytes) : backupCgi md5 files (etcVersion words k) cfg =
      withLine md5 cfg (version words) 2 := by
  have hname : '\n' ∉ "/tmp/cfgpart".toList ∧ '\x00' ∉ "/tmp/cfgpart".toList := by decide
  simp only [backupCgi, withLine, md5Column_eq _ hname.1 hname.2, catVersion_eq hw,
    backup_line hw]
  simp [charByte]

/-- The claim of backup and restore for a version. -/
structure RestoreSound (md5 : Bytes → Fin 16 → UInt8) (files : Line → List Line) (ops : TestOps)
    (words : List Line) (k : Nat) : Prop where
  accepted : ∀ cfg : Bytes, cfg.length = cfgSize →
    restore md5 ops (etcVersion words k) (backupCgi md5 files (etcVersion words k) cfg) = some cfg
  only : ∀ file : Bytes, (∀ b ∈ file.drop cfgSize, b ≠ 0) → ∀ out,
    restore md5 ops (etcVersion words k) file = some out → cfgSize ≤ file.length ∧
      out = file.take cfgSize ∧ ∃ j, (file.drop cfgSize).map byteChar =
        md5Hex md5 (file.take cfgSize) ++ version words ++ List.replicate j '\n'

/-- The words that `[` takes for operators. -/
def testWords : List Line := [['!'], ['('], [')']]

theorem bracket_eq_of_true {a b : Line} (hb : b ∉ testWords)
    (h : bracket ops [a, ['='], b] = some true) : a = b := by
  by_cases hn : a = ['!']
  · rw [hn, bracket_not] at h
    cases h
  by_cases hp : a = ['(']
  · rw [hp, bracket_paren fun he => hb (by simp [testWords, he])] at h
    cases h
  rw [bracket_compare hn hp] at h
  simpa using h

theorem bracket_self {a : Line} (ha : a ∉ testWords) : bracket ops [a, ['='], a] = some true := by
  rw [bracket_compare (fun he => ha (by simp [testWords, he])) fun he => ha (by simp [testWords, he])]
  simp

/-- Restore takes what backup gave, and nothing else, for every version that `[` does not
take for an operator. -/
theorem restore_sound_iff (md5 : Bytes → Fin 16 → UInt8) (files : Line → List Line)
    (ops : TestOps) {words : List Line} (hw : ∀ w ∈ words, VersionWord w) (k : Nat) :
    RestoreSound md5 files ops words k ↔ version words ∉ testWords := by
  have hver : ∀ c ∈ version words, c ≠ '\n' ∧ c ≠ '\x00' ∧ c.toNat < 256 := by
    intro c hc
    have := version_chars hw c hc
    exact ⟨this.1, this.2.1, this.2.2.2⟩
  constructor
  · intro h hmem
    have hcfg : (List.replicate cfgSize (0 : UInt8)).length = cfgSize := List.length_replicate
    have hacc := h.accepted _ hcfg
    rw [backup_withLine hw, restore_withLine hcfg hver, catVersion_eq hw] at hacc
    simp only [testWords, List.mem_cons, List.not_mem_nil, or_false] at hmem
    rcases hmem with he | he | he
    · rw [he, bracket_not] at hacc
      cases hacc.2
    · rw [he, bracket_paren (by decide)] at hacc
      cases hacc.2
    · -- an opening parenthesis passes for the closing one
      have hparen : ∀ c ∈ ['('], c ≠ '\n' ∧ c ≠ '\x00' ∧ c.toNat < 256 := by decide
      obtain ⟨htake, h0, htail⟩ := withLine_tail md5 0 hcfg hparen
      have hpass : restore md5 ops (etcVersion words k)
          (withLine md5 (List.replicate cfgSize 0) ['('] 0) = some (List.replicate cfgSize 0) := by
        rw [restore_withLine hcfg hparen, catVersion_eq hw, he]
        exact ⟨rfl, bracket_parens⟩
      obtain ⟨-, -, j, hj⟩ := h.only _ h0 _ hpass
      rw [htail, htake, he, List.append_assoc, List.append_assoc] at hj
      have := List.append_cancel_left hj
      simp at this
  · intro hne
    refine ⟨fun cfg hlen => ?_, fun file h0 out hout => ?_⟩
    · rw [backup_withLine hw, restore_withLine hlen hver, catVersion_eq hw]
      exact ⟨rfl, bracket_self hne⟩
    · obtain ⟨rfl, line, j, htail, -, htake, hok⟩ := (restore_iff h0).mp hout
      rw [catVersion_eq hw] at hok
      have hline : line = md5Hex md5 (file.take cfgSize) ++ version words := by
        rw [← htake, ← bracket_eq_of_true hne hok, List.take_append_drop]
      refine ⟨?_, rfl, j, by rw [htail, hline]⟩
      by_contra hlt
      rw [List.drop_eq_nil_of_le (by omega), List.map_nil, hline, List.append_assoc] at htail
      exact md5Hex_ne_nil (List.append_eq_nil_iff.mp htail.symm).1

end

end

/-- The version of this release. -/
theorem restore_sound_iff_release :
    RestoreSound (fun _ _ => 0) (fun _ => []) ⟨fun _ _ => none, fun _ _ _ => none⟩
      [['S', 'N', 'A', 'K', 'E'], ['O', 'S'], ['V', '1', '.', '3', '.', '2']] 1 := by
  refine (restore_sound_iff _ _ _ (fun w hw => ?_) 1).mpr (by decide)
  simp only [List.mem_cons, List.not_mem_nil, or_false] at hw
  rcases hw with rfl | rfl | rfl <;> exact ⟨by decide, by decide⟩

/-- A device whose version is an exclamation mark does not take its own backup. -/
theorem own_backup_refused :
    restore (fun _ _ => 0) ⟨fun _ _ => none, fun _ _ _ => none⟩ (etcVersion [['!']] 1)
        (backupCgi (fun _ _ => 0) (fun _ => []) (etcVersion [['!']] 1)
          (List.replicate cfgSize 0)) = none ∧
      ¬ RestoreSound (fun _ _ => 0) (fun _ => []) ⟨fun _ _ => none, fun _ _ _ => none⟩ [['!']] 1 := by
  have hw : ∀ w ∈ [['!']], VersionWord w := by
    intro w hm
    rw [List.mem_singleton.mp hm]
    exact ⟨by decide, by decide⟩
  have hcfg : (List.replicate cfgSize (0 : UInt8)).length = cfgSize := List.length_replicate
  have hnone : restore (fun _ _ => 0) ⟨fun _ _ => none, fun _ _ _ => none⟩ (etcVersion [['!']] 1)
      (backupCgi (fun _ _ => 0) (fun _ => []) (etcVersion [['!']] 1)
        (List.replicate cfgSize 0)) = none := by
    rw [Option.eq_none_iff_forall_ne_some]
    intro out hout
    rw [backup_withLine hw, restore_withLine hcfg (by decide), catVersion_eq hw] at hout
    rw [show version [['!']] = ['!'] from rfl, bracket_not] at hout
    cases hout.2
  refine ⟨hnone, fun h => ?_⟩
  have := h.accepted _ hcfg
  rw [hnone] at this
  cases this

end SnakeOs.Config
