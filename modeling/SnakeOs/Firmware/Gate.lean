import Mathlib.Data.List.GetD
import SnakeOs.Firmware.Upgrade

namespace SnakeOs.Firmware
open Lib

theorem digitChar_injective {a b : Nat} (ha : a < 16) (hb : b < 16)
    (h : Nat.digitChar a = Nat.digitChar b) : a = b := by
  have : ∀ a b : Fin 16, Nat.digitChar a = Nat.digitChar b → a = b := by decide
  exact congrArg Fin.val (this ⟨a, ha⟩ ⟨b, hb⟩ h)

theorem hex2_injective {a b : UInt8} (h : hex2 a = hex2 b) : a = b := by
  simp only [hex2, List.cons.injEq, and_true] at h
  have ha := a.toNat_lt
  have hb := b.toNat_lt
  have h1 := digitChar_injective (by omega) (by omega) h.1
  have h2 := digitChar_injective (by omega) (by omega) h.2
  apply UInt8.toNat_inj.mp
  omega

theorem digitChar_ne {n : Nat} {c : Char} (h : n < 16) (hc : c.isAlphanum = false) :
    Nat.digitChar n ≠ c := by
  have hdigit : ∀ a : Fin 16, (Nat.digitChar a).isAlphanum = true := by decide
  rintro rfl
  have := hdigit ⟨n, h⟩
  rw [hc] at this
  cases this

theorem hex2_digits (b : UInt8) : ∀ c ∈ hex2 b, ∃ n < 16, c = Nat.digitChar n := by
  intro c hc
  have := b.toNat_lt
  simp only [hex2, List.mem_cons, List.not_mem_nil, or_false] at hc
  rcases hc with rfl | rfl
  · exact ⟨_, by omega, rfl⟩
  · exact ⟨_, by omega, rfl⟩

/-- A digest as it is printed. -/
def digest (bs : Bytes) : Line := bs.flatMap hex2

theorem digest_digits (bs : Bytes) : ∀ c ∈ digest bs, ∃ n < 16, c = Nat.digitChar n := by
  intro c hc
  obtain ⟨b, _, hb⟩ := List.mem_flatMap.mp hc
  exact hex2_digits b c hb

theorem digest_length (bs : Bytes) : (digest bs).length = 2 * bs.length := by
  induction bs with
  | nil => rfl
  | cons b bs ih =>
    simp only [digest, List.flatMap_cons, List.length_append, List.length_cons, hex2,
      List.length_nil] at ih ⊢
    omega

theorem digest_injective {as bs : Bytes} (h : digest as = digest bs) : as = bs := by
  induction as generalizing bs with
  | nil =>
    cases bs with
    | nil => rfl
    | cons b bs => simp [digest, hex2] at h
  | cons a as ih =>
    cases bs with
    | nil => simp [digest, hex2] at h
    | cons b bs =>
      obtain ⟨h1, h2⟩ := List.append_inj h rfl
      rw [hex2_injective h1, ih h2]

theorem digest_no_space (bs : Bytes) : ' ' ∉ digest bs := by
  intro hc
  obtain ⟨n, hn, he⟩ := digest_digits bs _ hc
  exact digitChar_ne hn rfl he.symm

theorem filesum_digest (md5 : Bytes → Fin 16 → UInt8) (input : Bytes) :
    filesum md5 input = digest (List.ofFn (md5 input)) := by
  exact cutField_first [' ', '-'] (digest_no_space (List.ofFn (md5 input)))

theorem sedDelete_hexColumn (b : UInt8) (rest : Line) :
    sedDelete zeros8 (hexColumn (some b) ++ rest) = hexColumn (some b) ++ sedDelete zeros8 rest := by
  have h : ' ' ∉ zeros8 := by decide
  have := sedDelete_short (hex2 b) rest h (by simp [hex2, zeros8])
  simpa [hexColumn] using this

theorem sedDelete_columns (bs : Bytes) (rest : Line) :
    sedDelete zeros8 (bs.flatMap (fun b => hexColumn (some b)) ++ rest) =
      bs.flatMap (fun b => hexColumn (some b)) ++ sedDelete zeros8 rest := by
  induction bs with
  | nil => rfl
  | cons b bs ih =>
    simp only [List.flatMap_cons, List.append_assoc]
    rw [sedDelete_hexColumn, ih]

theorem trDelete_columns (bs : Bytes) :
    trDelete ' ' (bs.flatMap (fun b => hexColumn (some b))) = digest bs := by
  induction bs with
  | nil => rfl
  | cons b bs ih =>
    have hb : trDelete ' ' (hex2 b) = hex2 b := by
      apply trDelete_self
      intro hc
      obtain ⟨n, hn, he⟩ := hex2_digits b _ hc
      exact digitChar_ne hn rfl he.symm
    rw [List.flatMap_cons, trDelete_append, ih, hexColumn, trDelete_append, hb]
    simp [trDelete, digest]

/-- For a full line the columns are the bytes themselves. -/
theorem hexdumpLine_full {as bs : Bytes} (ha : as.length = 8) (hb : bs.length = 8) :
    hexdumpLine 0 (as ++ bs) = zeros8 ++ ' ' :: ' ' :: (as.flatMap (fun b => hexColumn (some b)) ++
      ' ' :: (bs.flatMap (fun b => hexColumn (some b)) ++
        ' ' :: '|' :: ((as ++ bs).map printChar ++ ['|']))) := by
  have columns (k : Nat) (xs : Bytes) (hx : xs.length = 8) (all : Bytes)
      (hall : ∀ i < 8, all[i + k]? = xs[i]?) :
      (List.range 8).flatMap (fun i => hexColumn all[i + k]?) =
        xs.flatMap (fun b => hexColumn (some b)) := by
    have hr : xs = (List.range 8).map (fun i => xs.getD i 0) := by
      apply List.ext_getElem
      · simp [hx]
      · intro i h1 h2
        simp [List.getElem?_eq_getElem h1]
    rw [hr, List.flatMap_map]
    apply List.flatMap_congr
    intro i hi
    have hi' := List.mem_range.mp hi
    rw [hall i hi']
    simp [hx, hi']
  have h1 := columns 0 as ha (as ++ bs) (by
    intro i hi
    rw [Nat.add_zero, List.getElem?_append_left (by omega)])
  have h2 := columns 8 bs hb (as ++ bs) (by
    intro i hi
    rw [List.getElem?_append_right (by omega)]
    congr 1
    omega)
  have h8 : hex8 0 = zeros8 := by decide
  simp only [Nat.add_zero] at h1
  simp only [hexdumpLine, h1, h2, h8]
  simp

theorem grepFixed_prefix (pat rest : Line) (h : pat ≠ []) : grepFixed pat (pat ++ rest) = true := by
  cases pat with
  | nil => contradiction
  | cons c cs =>
    have : (c :: cs).isPrefixOf (c :: cs ++ rest) = true := by
      rw [List.isPrefixOf_iff_prefix]
      exact ⟨rest, rfl⟩
    simp only [List.cons_append] at this ⊢
    simp [grepFixed, this]

/-- The pipeline recovers the 16 digest bytes, whatever they are: the deleted
pattern cannot occur between the columns. -/
theorem expsum_digest {bs : Bytes} (h : bs.length = 16) :
    substitute (expsumLines bs) = digest bs := by
  obtain ⟨as, cs, rfl, ha, hc⟩ : ∃ as cs, bs = as ++ cs ∧ as.length = 8 ∧ cs.length = 8 :=
    ⟨bs.take 8, bs.drop 8, by simp, by simp [h], by simp [h]⟩
  have hdump : hexdumpC (as ++ cs) = [hexdumpLine 0 (as ++ cs), hex8 16] := by
    have hne : as ++ cs ≠ [] := by
      intro hnil
      simp [hnil] at h
    have htake : (as ++ cs).take 16 = as ++ cs := List.take_of_length_le (by omega)
    have hdrop : (as ++ cs).drop 16 = [] := List.drop_of_length_le (by omega)
    rw [hexdumpC, if_neg hne, h]
    simp only [hexdumpFrom, hne, ↓reduceIte, htake, hdrop, h, reduceCtorEq, Nat.zero_add]
  have hline := hexdumpLine_full ha hc
  have hcut : cutBytes 32 (trDelete ' ' (sedDelete zeros8 (hexdumpLine 0 (as ++ cs)))) =
      digest (as ++ cs) := by
    have hfirst : ∀ rest, sedDelete zeros8 (zeros8 ++ rest) = sedDelete zeros8 rest :=
      fun rest => sedDelete_match '0' (List.replicate 7 '0') rest
    have hspace : ∀ rest, sedDelete zeros8 (' ' :: rest) = ' ' :: sedDelete zeros8 rest :=
      fun rest => sedDelete_short [] rest (by decide) (by decide)
    rw [hline, hfirst, hspace, hspace, sedDelete_columns, hspace, sedDelete_columns]
    have hcons : ∀ rest, trDelete ' ' (' ' :: rest) = trDelete ' ' rest := fun rest => by
      simp [trDelete]
    rw [hcons, hcons, trDelete_append, trDelete_columns, hcons, trDelete_append, trDelete_columns,
      ← List.append_assoc]
    have hd : digest as ++ digest cs = digest (as ++ cs) := by simp [digest]
    rw [hd, cutBytes, List.take_left' (by rw [digest_length, h])]
  have hgrep : grepFixed zeros8 (hexdumpLine 0 (as ++ cs)) = true := by
    rw [hline]
    exact grepFixed_prefix _ _ (by decide)
  have hlast : grepFixed zeros8 (hex8 16) = false := by decide
  have hlines : expsumLines (as ++ cs) = [digest (as ++ cs)] := by
    simp only [expsumLines, hdump, List.filter_cons, hgrep, hlast, ↓reduceIte, List.filter_nil,
      List.map_cons, List.map_nil, hcut, Bool.false_eq_true]
  rw [hlines, substitute]
  have hnl : ∀ c ∈ (digest (as ++ cs)).reverse, (decide (c = '\n')) = false := by
    intro c hc
    obtain ⟨n, hn, rfl⟩ := digest_digits _ c (List.mem_reverse.mp hc)
    simp [digitChar_ne (c := '\n') hn rfl]
  have hkeep : (digest (as ++ cs)).reverse.dropWhile (fun c => decide (c = '\n')) =
      (digest (as ++ cs)).reverse := by
    cases hr : (digest (as ++ cs)).reverse with
    | nil => rfl
    | cons c rest =>
      have := hnl c (by simp [hr])
      simp [this]
  simp only [List.intercalate_singleton, hkeep, List.reverse_reverse]

/-- The last 16 bytes are the digest of the file with those bytes zeroed. -/
def Signed (md5 : Bytes → Fin 16 → UInt8) (file : Bytes) : Prop :=
  file.drop (file.length - 16) =
    List.ofFn (md5 (file.take (file.length - 16) ++ List.replicate 16 0))

theorem signed_append (md5 : Bytes → Fin 16 → UInt8) {bs tail : Bytes} (h : tail.length = 16) :
    Signed md5 (bs ++ tail) ↔ tail = List.ofFn (md5 (bs ++ List.replicate 16 0)) := by
  have hlen : (bs ++ tail).length - 16 = bs.length := by
    rw [List.length_append, h, Nat.add_sub_cancel]
  rw [Signed, hlen, List.drop_left, List.take_left]

/-- One branch: the writes happen exactly for a signed file. -/
theorem upgrade_eq (md5 : Bytes → Fin 16 → UInt8) {blocks : Nat} (segments : List Segment)
    {file : Bytes} (h : file.length = (blocks + 1) * 16) [Decidable (Signed md5 file)] :
    upgrade md5 blocks segments file = if Signed md5 file then segments else [] := by
  have htail : (dd 16 blocks none file).length = 16 := by
    simp only [dd, List.length_drop, h]
    omega
  have hiff : filesum md5 (dd 16 0 (some blocks) file ++ dd 16 0 (some 1) (List.replicate 16 0)) =
      substitute (expsumLines (dd 16 blocks none file)) ↔ Signed md5 file := by
    have hlen : file.length - 16 = blocks * 16 := by omega
    rw [filesum_digest, expsum_digest htail, Signed, hlen]
    simp only [dd, Nat.zero_mul, List.drop_zero, Nat.one_mul, List.take_replicate]
    constructor
    · intro he
      exact (digest_injective he).symm
    · intro he
      rw [he]
      rfl
  unfold upgrade
  simp only [hiff]

/-- The table of the two branches. -/
def segmentsOf (size : Nat) : List Segment :=
  if size = fullSize then [⟨1, 4, 2⟩, ⟨2, 6, 15⟩, ⟨3, 21, 42⟩]
  else [⟨1, 0, 2⟩, ⟨2, 2, 15⟩, ⟨3, 17, 42⟩]

open Classical in
theorem firmwareCgi_eq (md5 : Bytes → Fin 16 → UInt8) (file : Bytes) :
    firmwareCgi md5 file =
      if (file.length = fullSize ∨ file.length = incrementalSize) ∧ Signed md5 file
      then segmentsOf file.length else [] := by
  unfold firmwareCgi
  by_cases hf : file.length = fullSize
  · rw [if_pos hf, upgrade_eq md5 _ (by rw [hf]; rfl)]
    simp [hf, segmentsOf]
  · by_cases hi : file.length = incrementalSize
    · rw [if_neg hf, if_pos hi, upgrade_eq md5 _ (by rw [hi]; rfl)]
      have hne : incrementalSize ≠ fullSize := by decide
      simp [hi, segmentsOf, hne]
    · simp [hf, hi]

/-- Segments that follow each other from `start` to the file's end, each with the
size of the partition its device names. -/
def CoversFile (start size : Nat) (ss : List Segment) : Prop :=
  ∃ cfg kernel initrd, ss = [cfg, kernel, initrd] ∧
    ss.Pairwise (fun s t => s.start + s.length ≤ t.start) ∧
    cfg.start = start ∧ kernel.start = cfg.start + cfg.length ∧
    initrd.start = kernel.start + kernel.length ∧ initrd.start + initrd.length = size ∧
    partitions[cfg.device]? = some ⟨cfgOffset, cfg.length⟩ ∧
    partitions[kernel.device]? = some ⟨kernelOffset, kernel.length⟩ ∧
    partitions[initrd.device]? = some ⟨initrdOffset, initrd.length⟩ ∧
    (cfg.device, kernel.device, initrd.device) = (1, 2, 3)

theorem segments_cover (size : Nat) (h : size = fullSize ∨ size = incrementalSize) :
    CoversFile (if size = fullSize then 262144 else 0) size (segmentsOf size) := by
  rcases h with rfl | rfl
  · exact ⟨⟨1, 4, 2⟩, ⟨2, 6, 15⟩, ⟨3, 21, 42⟩, rfl, by decide, rfl, rfl, rfl, rfl, rfl, rfl, rfl, rfl⟩
  · exact ⟨⟨1, 0, 2⟩, ⟨2, 2, 15⟩, ⟨3, 17, 42⟩, rfl, by decide, rfl, rfl, rfl, rfl, rfl, rfl, rfl, rfl⟩

/-- A segment that fills its partition from a file that has it. -/
theorem apply_segment {file : Bytes} {s : Segment} {q : Partition}
    (hq : partitions[s.device]? = some q) (hsize : s.length = q.size)
    (hend : s.start + s.length ≤ file.length) (flash : Flash) (a : Nat) :
    Segment.apply file flash s a =
      if q.offset ≤ a ∧ a < q.offset + q.size then file.getD (s.start + (a - q.offset)) 0
      else flash a := by
  have hlen : (s.data file).length = q.size := by
    rw [← hsize]
    simp only [Segment.data, dd, Segment.start, Segment.length, List.length_take,
      List.length_drop] at hend ⊢
    omega
  simp only [Segment.apply, hq, writePartition, hlen, Nat.min_self]
  by_cases ha : q.offset ≤ a ∧ a < q.offset + q.size
  · have hin : a - q.offset < s.count * blockSize := by
      rw [← hsize, Segment.length] at ha
      omega
    rw [if_pos ha, if_pos ha, Segment.data, dd, Segment.start]
    simp only [List.getD_eq_getElem?_getD, List.getElem?_take_of_lt hin, List.getElem?_drop]
  · rw [if_neg ha, if_neg ha]

/-- The three partitions one behind the other, filled from one place of a file on. -/
theorem partitions_join (f flash : Nat → UInt8) (base a : Nat) :
    (if 0x150000 ≤ a ∧ a < 0x150000 + 0x2a0000 then f (base + 0x110000 + (a - 0x150000))
      else if 0x60000 ≤ a ∧ a < 0x60000 + 0xf0000 then f (base + 0x20000 + (a - 0x60000))
      else if 0x40000 ≤ a ∧ a < 0x40000 + 0x20000 then f (base + (a - 0x40000))
      else flash a) =
    if 0x40000 ≤ a ∧ a < 0x3f0000 then f (base + (a - 0x40000)) else flash a := by
  by_cases hin : 0x40000 ≤ a ∧ a < 0x3f0000
  · rw [if_pos hin]
    have hroot : 0x150000 ≤ a → base + 0x110000 + (a - 0x150000) = base + (a - 0x40000) := by omega
    have hkernel : 0x60000 ≤ a → base + 0x20000 + (a - 0x60000) = base + (a - 0x40000) := by omega
    split_ifs with h3 h2 h1
    · rw [hroot h3.1]
    · rw [hkernel h2.1]
    · rfl
    · omega
  · rw [if_neg hin, if_neg (by omega), if_neg (by omega), if_neg (by omega)]

/-- A signed image of either size puts its last 0x3B0000 bytes behind the boot loader. -/
theorem flashAfter_signed (md5 : Bytes → Fin 16 → UInt8) {file : Bytes}
    (hsize : file.length = fullSize ∨ file.length = incrementalSize) (hs : Signed md5 file)
    (flash : Flash) (a : Nat) : flashAfter md5 file flash a =
      if cfgOffset ≤ a ∧ a < flashEnd then
        file.getD (file.length - incrementalSize + (a - cfgOffset)) 0
      else flash a := by
  rw [flashAfter, firmwareCgi_eq, if_pos ⟨hsize, hs⟩]
  rcases hsize with hsize | hsize
  · have hbase : file.length - incrementalSize = 262144 := by rw [hsize]; rfl
    have hjoin := partitions_join (fun i => file.getD i 0) flash 262144 a
    rw [hbase, hsize, segmentsOf, if_pos rfl, List.foldl_cons, List.foldl_cons, List.foldl_cons,
      List.foldl_nil, apply_segment (q := ⟨0x150000, 0x2a0000⟩) rfl rfl (hsize ▸ by decide),
      apply_segment (q := ⟨0x60000, 0xf0000⟩) rfl rfl (hsize ▸ by decide),
      apply_segment (q := ⟨0x40000, 0x20000⟩) rfl rfl (hsize ▸ by decide)]
    exact hjoin
  · have hbase : file.length - incrementalSize = 0 := by rw [hsize]; rfl
    have hjoin := partitions_join (fun i => file.getD i 0) flash 0 a
    rw [hbase, hsize, segmentsOf, if_neg (by decide), List.foldl_cons, List.foldl_cons,
      List.foldl_cons, List.foldl_nil,
      apply_segment (q := ⟨0x150000, 0x2a0000⟩) rfl rfl (hsize ▸ by decide),
      apply_segment (q := ⟨0x60000, 0xf0000⟩) rfl rfl (hsize ▸ by decide),
      apply_segment (q := ⟨0x40000, 0x20000⟩) rfl rfl (hsize ▸ by decide)]
    exact hjoin

theorem firmwareCgi_ne_nil (md5 : Bytes → Fin 16 → UInt8) (file : Bytes) :
    firmwareCgi md5 file ≠ [] ↔
      (file.length = fullSize ∨ file.length = incrementalSize) ∧ Signed md5 file := by
  rw [firmwareCgi_eq]
  split
  · rename_i h
    refine ⟨fun _ => h, fun _ => ?_⟩
    unfold segmentsOf
    split <;> simp
  · rename_i h
    exact ⟨fun hne => absurd rfl hne, fun hs => absurd hs h⟩

/-- A refused file leaves the flash as it is, an accepted one puts its last 0x3B0000 bytes
behind the boot loader. -/
theorem flashAfter_eq (md5 : Bytes → Fin 16 → UInt8) (file : Bytes) (flash : Flash) (a : Nat) :
    flashAfter md5 file flash a =
      if firmwareCgi md5 file ≠ [] ∧ cfgOffset ≤ a ∧ a < flashEnd then
        file.getD (file.length - incrementalSize + (a - cfgOffset)) 0
      else flash a := by
  by_cases hw : firmwareCgi md5 file = []
  · rw [if_neg (fun h => h.1 hw), flashAfter, hw, List.foldl_nil]
  · obtain ⟨hsize, hs⟩ := (firmwareCgi_ne_nil md5 file).mp hw
    simp only [flashAfter_signed md5 hsize hs, ne_eq, hw, not_false_eq_true, true_and]

/-- A full image shows the flash the bytes that its last 0x3B0000 bytes would, taken as an
incremental image. -/
theorem image_shifted {full incremental : Bytes} {n k : Nat} (hk : k < n)
    (h : (full.drop 262144).take n = incremental.take n) :
    full.getD (262144 + k) 0 = incremental.getD k 0 := by
  have hget := congrArg (·[k]?) h
  simp only [List.getElem?_take_of_lt hk, List.getElem?_drop] at hget
  simp only [List.getD_eq_getElem?_getD, hget]

/-- The upload handler writes exactly for the two sizes with a matching digest; what it
writes is the tail of the file, cut at the partition borders; the flash then holds that tail
behind the boot loader; and two accepted images of either kind whose tails agree, but for the
digest that is each one's own, leave the same flash but for the digest. -/
theorem firmware_gate (md5 : Bytes → Fin 16 → UInt8) :
    (∀ file, firmwareCgi md5 file ≠ [] ↔
      (file.length = 4128768 ∨ file.length = 3866624) ∧ Signed md5 file) ∧
    (∀ file, firmwareCgi md5 file ≠ [] →
      CoversFile (if file.length = 4128768 then 262144 else 0) file.length
        (firmwareCgi md5 file) ∧
      ∀ s ∈ firmwareCgi md5 file, (s.data file).length = s.length) ∧
    (∀ file flash a, flashAfter md5 file flash a =
      if firmwareCgi md5 file ≠ [] ∧ 0x40000 ≤ a ∧ a < 0x3f0000 then
        file.getD (file.length - 3866624 + (a - 0x40000)) 0
      else flash a) ∧
    (∀ full incremental flash, full.length = 4128768 → incremental.length = 3866624 →
      firmwareCgi md5 full ≠ [] → firmwareCgi md5 incremental ≠ [] →
      (full.drop 262144).take (3866624 - 16) = incremental.take (3866624 - 16) →
      ∀ a, a < 0x3f0000 - 16 ∨ 0x3f0000 ≤ a →
        flashAfter md5 full flash a = flashAfter md5 incremental flash a) := by
  refine ⟨firmwareCgi_ne_nil md5, ?_, flashAfter_eq md5, ?_⟩
  · intro file hne
    obtain ⟨hsize, hsigned⟩ := (firmwareCgi_ne_nil md5 file).mp hne
    have hsegments : firmwareCgi md5 file = segmentsOf file.length := by
      rw [firmwareCgi_eq]
      exact if_pos ⟨hsize, hsigned⟩
    rw [hsegments]
    refine ⟨segments_cover file.length hsize, ?_⟩
    intro s hs
    have hend : s.start + s.length ≤ file.length := by
      obtain ⟨a, b, c, he, hp, _, _, _, hc, _⟩ := segments_cover file.length hsize
      rw [he] at hs hp
      simp only [List.pairwise_cons, List.mem_cons, List.not_mem_nil, or_false, forall_eq_or_imp,
        forall_eq] at hs hp
      rcases hs with rfl | rfl | rfl <;> omega
    simp only [Segment.start, Segment.length] at hend
    simp only [Segment.data, dd, Segment.length, List.length_take, List.length_drop]
    omega
  · intro full incremental flash hf hi hwf hwi htail a ha
    rw [flashAfter_eq, flashAfter_eq, cfgOffset, flashEnd]
    by_cases hin : 0x40000 ≤ a ∧ a < 0x3f0000
    · rw [if_pos ⟨hwf, hin⟩, if_pos ⟨hwi, hin⟩, hf, hi]
      have hfull : 4128768 - incrementalSize = 262144 := rfl
      have hinc : 3866624 - incrementalSize = 0 := rfl
      rw [hfull, hinc, Nat.zero_add]
      exact image_shifted (by omega) htail
    · rw [if_neg fun h => hin h.2, if_neg fun h => hin h.2]

/-- The checksums of the two images that are all zeroes but for the checksum. -/
def blankSum (input : Bytes) : Bytes :=
  if input = List.replicate fullSize 0 then
    [0x70, 0x95, 0xe9, 0x96, 0x71, 0xad, 0xcb, 0xbc, 0x52, 0xde, 0xbf, 0x34, 0xd8, 0x60, 0x27, 0xb7]
  else if input = List.replicate incrementalSize 0 then
    [0x8e, 0x1a, 0xd6, 0x4b, 0xea, 0x0b, 0x4b, 0xa0, 0x0d, 0xa6, 0x8e, 0x21, 0xe2, 0x07, 0x2c, 0xf4]
  else List.replicate 16 0

def blankMd5 (input : Bytes) (i : Fin 16) : UInt8 := (blankSum input).getD i 0

def blankImage (size : Nat) : Bytes :=
  List.replicate (size - 16) 0 ++ blankSum (List.replicate size 0)

theorem blankSum_length (input : Bytes) : (blankSum input).length = 16 := by
  unfold blankSum
  split_ifs <;> rfl

theorem blankMd5_bytes (input : Bytes) : List.ofFn (blankMd5 input) = blankSum input := by
  unfold blankMd5 blankSum
  split_ifs <;> decide

theorem blankSum_ne : blankSum (List.replicate fullSize 0) ≠ blankSum (List.replicate incrementalSize 0) := by
  have hsizes : List.replicate incrementalSize (0 : UInt8) ≠ List.replicate fullSize 0 := by
    intro h
    have hlen := congrArg List.length h
    rw [List.length_replicate, List.length_replicate] at hlen
    exact absurd hlen (by decide)
  rw [blankSum, if_pos rfl, blankSum, if_neg hsizes, if_pos rfl]
  decide

theorem replicate_tail {size : Nat} (h : 16 ≤ size) :
    List.replicate (size - 16) (0 : UInt8) ++ List.replicate 16 0 = List.replicate size 0 := by
  rw [List.replicate_append_replicate, Nat.sub_add_cancel h]

theorem blankImage_length {size : Nat} (h : 16 ≤ size) : (blankImage size).length = size := by
  rw [blankImage, List.length_append, List.length_replicate, blankSum_length,
    Nat.sub_add_cancel h]

theorem blankImage_signed {size : Nat} (h : 16 ≤ size) : Signed blankMd5 (blankImage size) := by
  rw [blankImage, signed_append _ (blankSum_length _), replicate_tail h, blankMd5_bytes]

theorem blankImage_tail : (blankImage fullSize).drop 262144 =
    List.replicate (incrementalSize - 16) 0 ++ blankSum (List.replicate fullSize 0) := by
  rw [blankImage, List.drop_append_of_le_length (by rw [List.length_replicate]; decide),
    List.drop_replicate]
  rfl

/-- The last 0x3B0000 bytes of a full image are not the incremental image: they end in the
digest of the full one, and the handler refuses them. -/
theorem same_tail_refused : ¬ ∀ (md5 : Bytes → Fin 16 → UInt8) (full incremental : Bytes)
    (flash : Flash), full.length = 4128768 → incremental.length = 3866624 →
      full.drop 262144 = incremental →
      flashAfter md5 full flash = flashAfter md5 incremental flash := by
  intro h
  have hlen : (blankImage fullSize).length = fullSize := blankImage_length (by decide)
  have hfull : firmwareCgi blankMd5 (blankImage fullSize) ≠ [] :=
    (firmwareCgi_ne_nil ..).mpr ⟨.inl hlen, blankImage_signed (by decide)⟩
  have hrefused : ¬ firmwareCgi blankMd5 ((blankImage fullSize).drop 262144) ≠ [] := by
    rw [firmwareCgi_ne_nil, blankImage_tail, signed_append _ (blankSum_length _),
      replicate_tail (by decide), blankMd5_bytes]
    exact fun hs => blankSum_ne hs.2
  have hbyte := congrFun (h blankMd5 (blankImage fullSize) _ (fun _ => 0xFF) hlen
    (by rw [List.length_drop, hlen]; rfl) rfl) 0x40000
  rw [flashAfter_eq, flashAfter_eq, if_pos ⟨hfull, by decide⟩, if_neg fun hs => hrefused hs.1,
    hlen, blankImage, List.getD_append _ _ _ _ (by rw [List.length_replicate]; decide),
    List.getD_replicate _ (by decide)] at hbyte
  exact absurd hbyte (by decide)

/-- The two blank images, each with its own checksum, are written and leave the same flash but
for the checksum. -/
theorem firmware_gate_blank :
    firmwareCgi blankMd5 (blankImage 4128768) ≠ [] ∧
      firmwareCgi blankMd5 (blankImage 3866624) ≠ [] ∧
      ∀ a, a < 0x3f0000 - 16 ∨ 0x3f0000 ≤ a →
        flashAfter blankMd5 (blankImage 4128768) (fun _ => 0xFF) a =
          flashAfter blankMd5 (blankImage 3866624) (fun _ => 0xFF) a := by
  obtain ⟨hgate, _, _, hsame⟩ := firmware_gate blankMd5
  have hfull : (blankImage fullSize).length = fullSize := blankImage_length (by decide)
  have hinc : (blankImage incrementalSize).length = incrementalSize := blankImage_length (by decide)
  have hwf := (hgate _).mpr ⟨.inl hfull, blankImage_signed (by decide)⟩
  have hwi := (hgate _).mpr ⟨.inr hinc, blankImage_signed (by decide)⟩
  refine ⟨hwf, hwi, hsame _ _ _ hfull hinc hwf hwi ?_⟩
  have htake : ∀ tail : Bytes, (List.replicate (incrementalSize - 16) 0 ++ tail).take
      (incrementalSize - 16) = List.replicate (incrementalSize - 16) 0 :=
    fun tail => List.take_left' List.length_replicate
  exact (congrArg _ blankImage_tail).trans ((htake _).trans (htake _).symm)

end SnakeOs.Firmware
