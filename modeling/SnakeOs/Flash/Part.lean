import Mathlib.Data.List.TakeWhile
import SnakeOs.Flash.Refinement

namespace SnakeOs.Flash
open Arch Lib

def erofs : Int := -30

def mtdWriteable : UInt32 := 3

/-- `struct mtd_part` with what the methods read of its `mtd_info`. -/
structure Part where
  offset : UInt32
  size : UInt32
  erasesize : UInt32
  flags : UInt32
  deriving DecidableEq, Repr

def Part.Writeable (p : Part) : Prop := p.flags &&& mtdWriteable ≠ 0

instance (p : Part) : Decidable p.Writeable :=
  inferInstanceAs (Decidable (p.flags &&& mtdWriteable ≠ 0))

/-- The head of `part_read` and `part_write`: a transfer ends with the partition. -/
def Part.clip (p : Part) (start : Int64) (len : UInt32) : UInt32 :=
  if start.toInt ≥ p.size.toNat then 0
  else if loff (start.toInt + len.toNat) > p.size.toNat then
    UInt32.ofNat (toU32 (p.size.toNat - start.toInt))
  else len

/-- `from + part->offset` -/
def Part.shift (p : Part) (start : Int64) : Int64 := Int64.ofInt (start.toInt + p.offset.toNat)

def partRead (p : Part) (start : Int64) (len : UInt32) : Client Call Reply Reply :=
  .call (.read (p.shift start) (p.clip start len)) .done

def partWrite (p : Part) (dst : Int64) (len : UInt32) (buf : Nat → Nat) :
    Client Call Reply Reply :=
  if ¬ p.Writeable then .done (.code erofs)
  else .call (.write (p.shift dst) (p.clip dst len) buf) .done

/-- The end of the range is not looked at. -/
def partErase (p : Part) (addr len : UInt32) : Client Call Reply Reply :=
  if ¬ p.Writeable then .done (.code erofs)
  else if addr ≥ p.size then .done (.code einval)
  else .call (.erase (addr + p.offset) len) .done

/-- A call of the partition's own `mtd_info`. -/
def Part.handle (p : Part) : Call → Client Call Reply Reply
  | .read start len => partRead p start len
  | .write dst len buf => partWrite p dst len buf
  | .erase addr len => partErase p addr len

/-- `struct mtd_partition` -/
structure MtdPartition where
  size : UInt32
  offset : UInt32
  maskFlags : UInt32
  deriving DecidableEq, Repr

def mtdpartOfsAppend : UInt32 := 0xFFFFFFFF
def mtdpartOfsNxtblk : UInt32 := 0xFFFFFFFE
def mtdpartSizFull : UInt32 := 0

/-- `struct mtd_erase_region_info` -/
structure EraseRegion where
  offset : UInt32
  erasesize : UInt32
  deriving DecidableEq, Repr

/-- The master's `mtd_info`. The first of its erase regions starts with it; the loop would look
for a region in front of the others. -/
structure Master where
  size : UInt32
  erasesize : UInt32
  flags : UInt32
  eraseregions : List EraseRegion
  front : ∀ r ∈ eraseregions.head?, r.offset = 0
  deriving DecidableEq

/-- What `str8100_spiflash_init` stores in its `mtd_info`. -/
def Bank.master (g : Bank) : Master where
  size := UInt32.ofNat g.size
  erasesize := UInt32.ofNat g.eraseSize
  flags := mtdWriteable
  eraseregions := [⟨0, UInt32.ofNat g.eraseSize⟩]
  front := by simp

/-- `fixed_parts` with the offsets that `str8132_defconfig` configures: BOOT, CFG, KERNEL,
INITRD, WEB and ALL. -/
def fixedParts : List MtdPartition :=
  [⟨0x40000 - 0, 0, 0⟩, ⟨0x60000 - 0x40000, 0x40000, 0⟩, ⟨0x150000 - 0x60000, 0x60000, 0⟩,
    ⟨0x3f0000 - 0x150000, 0x150000, 0⟩, ⟨0x3f0000 - 0, 0, 0⟩, ⟨0x3f0000 - 0, 0, 0⟩]

/-- `%` of the kernel's division, which complains about a zero divisor and returns 0. -/
def umod (a b : UInt32) : UInt32 := if b = 0 then 0 else a % b

/-- Where an entry is to start, `cur_offset` being the end of the entry before. -/
def Master.place (m : Master) (curOffset : UInt32) (q : MtdPartition) : UInt32 :=
  let offset := if q.offset = mtdpartOfsAppend then curOffset else q.offset
  if offset = mtdpartOfsNxtblk then
    if umod curOffset m.erasesize ≠ 0 then (curOffset / m.erasesize + 1) * m.erasesize else curOffset
  else offset

def Master.extent (m : Master) (offset : UInt32) (q : MtdPartition) : UInt32 :=
  if q.size = mtdpartSizFull then m.size - offset else q.size

/-- The erase regions from the one that a slave starts in to the last one before its end. -/
def Master.regions (m : Master) (offset size : UInt32) : List EraseRegion :=
  let first := (m.eraseregions.takeWhile fun r => offset ≥ r.offset).length - 1
  (m.eraseregions.drop first).takeWhile fun r => offset + size > r.offset

def largest (e : UInt32) (rs : List EraseRegion) : UInt32 :=
  rs.foldl (fun e r => if e < r.erasesize then r.erasesize else e) e

def Master.slaveErasesize (m : Master) (offset size : UInt32) : UInt32 :=
  if m.eraseregions.length > 1 then largest 0 (m.regions offset size) else m.erasesize

/-- A partition that does not start or end at an erase block is not writeable. -/
def restrict (erasesize offset size flags : UInt32) : UInt32 :=
  let flags := if flags &&& mtdWriteable ≠ 0 ∧ umod offset erasesize ≠ 0 then
    flags &&& ~~~mtdWriteable else flags
  if flags &&& mtdWriteable ≠ 0 ∧ umod size erasesize ≠ 0 then flags &&& ~~~mtdWriteable else flags

/-- One pass of `add_mtd_partitions`: the slave made and the new `cur_offset`. -/
def Master.addPartition (m : Master) (curOffset : UInt32) (q : MtdPartition) : Part × UInt32 :=
  let offset := m.place curOffset q
  let size := m.extent offset q
  let reach := if offset ≥ m.size then (0, 0) else (offset, size)
  let size' := if reach.1 + reach.2 > m.size then m.size - reach.1 else reach.2
  let erasesize := m.slaveErasesize reach.1 size'
  (⟨reach.1, size', erasesize, restrict erasesize reach.1 size' (m.flags &&& ~~~q.maskFlags)⟩,
    offset + size)

def addPartitions (m : Master) : UInt32 → List MtdPartition → List Part
  | _, [] => []
  | curOffset, q :: qs =>
    let (p, curOffset) := m.addPartition curOffset q
    p :: addPartitions m curOffset qs

/-- `add_mtd_partitions` where every allocation succeeds. -/
def addMtdPartitions (m : Master) (qs : List MtdPartition) : List Part := addPartitions m 0 qs

/-- The partition lies inside the master. -/
def Part.Inside (p : Part) (m : Master) : Prop := p.offset.toNat + p.size.toNat ≤ m.size.toNat

/-- The partitions have no byte in common. -/
def Part.Apart (p q : Part) : Prop :=
  p.offset.toNat + p.size.toNat ≤ q.offset.toNat ∨ q.offset.toNat + q.size.toNat ≤ p.offset.toNat

instance (p q : Part) : Decidable (p.Apart q) := inferInstanceAs (Decidable (_ ∨ _))

theorem and_not_writeable (flags : UInt32) :
    flags &&& ~~~mtdWriteable &&& mtdWriteable = 0 := by
  rw [UInt32.and_assoc, UInt32.not_and_self, UInt32.and_zero]

/-- What keeps its write permission starts and ends at an erase block. -/
theorem restrict_writeable {erasesize offset size flags : UInt32}
    (h : restrict erasesize offset size flags &&& mtdWriteable ≠ 0) :
    umod offset erasesize = 0 ∧ umod size erasesize = 0 := by
  unfold restrict at h
  by_cases ho : flags &&& mtdWriteable ≠ 0 ∧ umod offset erasesize ≠ 0
  · simp only [if_pos ho, and_not_writeable, ne_eq, not_true_eq_false, false_and,
      ↓reduceIte] at h
  · simp only [if_neg ho] at h
    by_cases hs : flags &&& mtdWriteable ≠ 0 ∧ umod size erasesize ≠ 0
    · simp only [if_pos hs, and_not_writeable, ne_eq, not_true_eq_false] at h
    · rw [if_neg hs] at h
      exact ⟨not_not.mp fun hne => ho ⟨h, hne⟩, not_not.mp fun hne => hs ⟨h, hne⟩⟩

/-- The sanity checks of a pass: a slave ends inside the master unless the sum of its
offset and size wraps. -/
theorem addPartition_inside (m : Master) (curOffset : UInt32) (q : MtdPartition) :
    (m.addPartition curOffset q).1.Inside m ∨
      2 ^ 32 ≤ (m.addPartition curOffset q).1.offset.toNat +
        (m.addPartition curOffset q).1.size.toNat := by
  simp only [Part.Inside, Master.addPartition]
  generalize m.place curOffset q = offset
  generalize m.extent offset q = size
  by_cases hreach : offset ≥ m.size
  · rw [if_pos hreach]
    left
    have hzero : ¬ (0 : UInt32) + 0 > m.size := by
      simp [UInt32.lt_iff_toNat_lt]
    simp only [if_neg hzero, UInt32.toNat_zero]
    omega
  · rw [if_neg hreach]
    simp only [ge_iff_le, UInt32.le_iff_toNat_le, Nat.not_le] at hreach
    by_cases hend : offset + size > m.size
    · left
      simp only [if_pos hend]
      rw [UInt32.toNat_sub_of_le _ _ (UInt32.le_iff_toNat_le.mpr (by omega))]
      omega
    · simp only [if_neg hend]
      simp only [gt_iff_lt, UInt32.lt_iff_toNat_lt, UInt32.toNat_add, Nat.not_lt] at hend
      omega

theorem umod_eq_zero {a b : UInt32} (hb : b ≠ 0) (h : umod a b = 0) : a % b = 0 := by
  rwa [umod, if_neg hb] at h

theorem le_largest {e : UInt32} {rs : List EraseRegion} :
    e ≤ largest e rs ∧ ∀ r ∈ rs, r.erasesize ≤ largest e rs := by
  induction rs generalizing e with
  | nil => exact ⟨UInt32.le_refl e, fun r hr => absurd hr List.not_mem_nil⟩
  | cons r rs ih =>
    obtain ⟨hle, hall⟩ := ih (e := if e < r.erasesize then r.erasesize else e)
    have hstep : e ≤ (if e < r.erasesize then r.erasesize else e) ∧
        r.erasesize ≤ (if e < r.erasesize then r.erasesize else e) := by
      split
      · exact ⟨UInt32.le_of_lt ‹_›, UInt32.le_refl _⟩
      · exact ⟨UInt32.le_refl _, UInt32.not_lt.mp ‹_›⟩
    refine ⟨UInt32.le_trans hstep.1 hle, fun s hs => ?_⟩
    rcases List.mem_cons.mp hs with rfl | hs
    · exact UInt32.le_trans hstep.2 hle
    · exact hall s hs

/-- No erase size is zero. -/
structure Master.Sane (m : Master) : Prop where
  erasesize : m.erasesize ≠ 0
  regions : ∀ r ∈ m.eraseregions, r.erasesize ≠ 0

/-- A slave with a byte is in some region, the one that it starts in. -/
theorem regions_start (m : Master) (hm : m.eraseregions ≠ []) {offset size : UInt32}
    (hsize : 0 < size.toNat) (hend : offset.toNat + size.toNat < 2 ^ 32) :
    ∃ r ∈ m.regions offset size, r ∈ m.eraseregions := by
  obtain ⟨r₀, rs, hrs⟩ := List.exists_cons_of_ne_nil hm
  have hfront : r₀.offset = 0 := m.front r₀ (by rw [hrs]; rfl)
  have hsplit : m.eraseregions.takeWhile (fun r => decide (offset ≥ r.offset)) ++
      m.eraseregions.dropWhile (fun r => decide (offset ≥ r.offset)) = m.eraseregions :=
    List.takeWhile_append_dropWhile
  obtain ⟨before, last, hbefore⟩ : ∃ before last,
      m.eraseregions.takeWhile (fun r => decide (offset ≥ r.offset)) = before ++ [last] := by
    refine ⟨_, _, (List.dropLast_append_getLast ?_).symm⟩
    rw [hrs, List.takeWhile_cons_of_pos (by simp [hfront])]
    exact List.cons_ne_nil _ _
  have hlast : offset ≥ last.offset := by
    have hmem : last ∈ m.eraseregions.takeWhile (fun r => decide (offset ≥ r.offset)) := by
      rw [hbefore]
      simp
    simpa using List.mem_takeWhile_imp hmem
  have hdrop : m.eraseregions.drop (before.length) = last ::
      m.eraseregions.dropWhile (fun r => decide (offset ≥ r.offset)) := by
    conv_lhs => rw [← hsplit, hbefore, List.append_assoc, List.drop_left]
    rfl
  have hreach : offset + size > last.offset := by
    rw [gt_iff_lt, UInt32.lt_iff_toNat_lt, UInt32.toNat_add, Nat.mod_eq_of_lt hend]
    rw [ge_iff_le, UInt32.le_iff_toNat_le] at hlast
    omega
  refine ⟨last, ?_, by rw [← hsplit, hbefore]; simp⟩
  rw [Master.regions, hbefore, List.length_append, List.length_singleton, Nat.add_sub_cancel,
    hdrop, List.takeWhile_cons_of_pos (by simpa using hreach)]
  exact List.mem_cons_self

theorem slaveErasesize_pos {m : Master} (h : m.Sane) {offset size : UInt32}
    (hsize : 0 < size.toNat) (hend : offset.toNat + size.toNat < 2 ^ 32) :
    m.slaveErasesize offset size ≠ 0 := by
  unfold Master.slaveErasesize
  split
  · rename_i hlen
    obtain ⟨r, hr, hmem⟩ := regions_start m (List.length_pos_iff.mp (by omega)) hsize hend
    intro hzero
    have hle : r.erasesize ≤ largest 0 (m.regions offset size) := le_largest.2 r hr
    rw [hzero, UInt32.le_iff_toNat_le, UInt32.toNat_zero] at hle
    exact h.regions r hmem (UInt32.toNat_inj.mp (by rw [UInt32.toNat_zero]; omega))
  · exact h.erasesize

/-- A slave as a pass of the loop leaves it: where it starts and ends, and its erase size, which
only a disabled slave can be without. -/
structure Placed (m : Master) (p : Part) : Prop where
  aligned : p.Writeable → p.erasesize ≠ 0 →
    p.offset % p.erasesize = 0 ∧ p.size % p.erasesize = 0
  inside : p.Inside m ∨ 2 ^ 32 ≤ p.offset.toNat + p.size.toNat
  single : m.eraseregions.length ≤ 1 → p.erasesize = m.erasesize
  several : 1 < m.eraseregions.length → ∀ r ∈ m.regions p.offset p.size, r.erasesize ≤ p.erasesize
  disabled : m.Sane → p.erasesize = 0 →
    p.offset.toNat + p.size.toNat = 0 ∨ 2 ^ 32 ≤ p.offset.toNat + p.size.toNat

theorem extent_pos {m : Master} {offset : UInt32} {q : MtdPartition} (h : ¬ offset ≥ m.size) :
    0 < (m.extent offset q).toNat := by
  simp only [ge_iff_le, UInt32.le_iff_toNat_le, Nat.not_le] at h
  unfold Master.extent
  split
  · rw [UInt32.toNat_sub_of_le _ _ (UInt32.le_iff_toNat_le.mpr (by omega))]
    omega
  · rename_i hfull
    exact Nat.pos_of_ne_zero fun hzero => hfull (UInt32.toNat_inj.mp hzero)

/-- Only an entry out of reach has no bytes, and its slave starts at 0. -/
theorem addPartition_empty (m : Master) (curOffset : UInt32) (q : MtdPartition)
    (h : (m.addPartition curOffset q).1.size.toNat = 0) :
    (m.addPartition curOffset q).1.offset.toNat = 0 := by
  simp only [Master.addPartition] at h ⊢
  generalize m.place curOffset q = offset at *
  by_cases hreach : offset ≥ m.size
  · rw [if_pos hreach]
    rfl
  · exfalso
    have hpos := extent_pos (q := q) hreach
    simp only [if_neg hreach] at h
    simp only [ge_iff_le, UInt32.le_iff_toNat_le, Nat.not_le] at hreach
    split at h
    · rw [UInt32.toNat_sub_of_le _ _ (UInt32.le_iff_toNat_le.mpr (by omega))] at h
      omega
    · omega

theorem addPartition_placed (m : Master) (curOffset : UInt32) (q : MtdPartition) :
    Placed m (m.addPartition curOffset q).1 where
  aligned hw he := by
    obtain ⟨hstart, hend⟩ := restrict_writeable hw
    exact ⟨umod_eq_zero he hstart, umod_eq_zero he hend⟩
  inside := addPartition_inside m curOffset q
  single hlen := if_neg (Nat.not_lt.mpr hlen)
  several hlen r hr := by
    have herase : (m.addPartition curOffset q).1.erasesize = largest 0 (m.regions
        (m.addPartition curOffset q).1.offset (m.addPartition curOffset q).1.size) := if_pos hlen
    rw [herase]
    exact le_largest.2 r hr
  disabled hsane hzero := by
    by_contra hnot
    obtain ⟨hsome, hend⟩ := not_or.mp hnot
    have hempty := addPartition_empty m curOffset q
    exact slaveErasesize_pos hsane (by omega) (Nat.not_le.mp hend) hzero

/-- The table leaves every offset to the loop, and what it asks for is no 32 bit overflow. -/
structure Appended (m : Master) (qs : List MtdPartition) : Prop where
  erasesize : 0 < m.erasesize.toNat
  offsets : ∀ q ∈ qs, q.offset = mtdpartOfsAppend ∨ q.offset = mtdpartOfsNxtblk
  fits : m.size.toNat + (qs.map fun q => q.size.toNat + m.erasesize.toNat).sum < 2 ^ 32 - 1

/-- Where an appended entry starts: at the end of the one before, or less than an erase
block behind it. -/
theorem place_appended {m : Master} {curOffset : UInt32} {q : MtdPartition}
    (he : 0 < m.erasesize.toNat)
    (hq : q.offset = mtdpartOfsAppend ∨ q.offset = mtdpartOfsNxtblk)
    (hc : curOffset.toNat + m.erasesize.toNat < 2 ^ 32 - 1) :
    curOffset.toNat ≤ (m.place curOffset q).toNat ∧
      (m.place curOffset q).toNat ≤ curOffset.toNat + m.erasesize.toNat := by
  have hround : curOffset.toNat ≤ (curOffset.toNat / m.erasesize.toNat + 1) * m.erasesize.toNat ∧
      (curOffset.toNat / m.erasesize.toNat + 1) * m.erasesize.toNat ≤
        curOffset.toNat + m.erasesize.toNat := by
    rw [Nat.add_mul, Nat.one_mul]
    have hdiv := Nat.div_add_mod' curOffset.toNat m.erasesize.toNat
    have hmod := Nat.mod_lt curOffset.toNat he
    omega
  have hblock : ((curOffset / m.erasesize + 1) * m.erasesize).toNat =
      (curOffset.toNat / m.erasesize.toNat + 1) * m.erasesize.toNat := by
    have hquot : curOffset.toNat / m.erasesize.toNat ≤ curOffset.toNat := Nat.div_le_self _ _
    have hsucc : (curOffset.toNat / m.erasesize.toNat + 1) % 2 ^ 32 =
        curOffset.toNat / m.erasesize.toNat + 1 := Nat.mod_eq_of_lt (by omega)
    rw [UInt32.toNat_mul, UInt32.toNat_add, UInt32.toNat_div, UInt32.toNat_one, hsucc,
      Nat.mod_eq_of_lt (by omega)]
  have hnot : curOffset ≠ mtdpartOfsNxtblk := by
    rintro rfl
    have htop : mtdpartOfsNxtblk.toNat = 2 ^ 32 - 2 := rfl
    omega
  have hne : mtdpartOfsNxtblk ≠ mtdpartOfsAppend := by decide
  have hzero : m.erasesize ≠ 0 := by
    intro h
    rw [h] at he
    exact absurd he (by decide)
  simp only [Master.place]
  rcases hq with hq | hq
  · rw [if_pos hq, if_neg hnot]
    omega
  · rw [hq, if_neg hne, if_pos rfl]
    split
    · rw [hblock]
      exact hround
    · omega

theorem extent_appended {m : Master} {offset : UInt32} {q : MtdPartition}
    (h : offset.toNat + q.size.toNat < 2 ^ 32) :
    (offset + m.extent offset q).toNat = m.size.toNat ∨
      (offset + m.extent offset q).toNat = offset.toNat + q.size.toNat := by
  unfold Master.extent
  split
  · left
    rw [UInt32.add_comm, UInt32.sub_add_cancel]
  · right
    rw [UInt32.toNat_add, Nat.mod_eq_of_lt h]

/-- A pass of an appended table: the slave is disabled, or it starts no earlier than
`cur_offset` and ends no later than the new one. -/
theorem addPartition_appended {m : Master} {curOffset : UInt32} {q : MtdPartition}
    (he : 0 < m.erasesize.toNat)
    (hq : q.offset = mtdpartOfsAppend ∨ q.offset = mtdpartOfsNxtblk)
    (hcur : curOffset.toNat + (q.size.toNat + m.erasesize.toNat) < 2 ^ 32 - 1) :
    let r := m.addPartition curOffset q
    r.1.Inside m ∧ (r.1.offset.toNat + r.1.size.toNat = 0 ∨
      curOffset.toNat ≤ r.1.offset.toNat ∧ r.1.offset.toNat + r.1.size.toNat ≤ r.2.toNat) ∧
    (r.2.toNat = m.size.toNat ∨ curOffset.toNat ≤ r.2.toNat ∧
      r.2.toNat ≤ curOffset.toNat + (q.size.toNat + m.erasesize.toNat)) := by
  obtain ⟨hlow, hhigh⟩ : curOffset.toNat ≤ (m.place curOffset q).toNat ∧ _ :=
    place_appended he hq (by omega)
  have hend := extent_appended (show (m.place curOffset q).toNat + q.size.toNat < 2 ^ 32 by omega)
    (m := m)
  simp only [Part.Inside, Master.addPartition]
  generalize m.extent (m.place curOffset q) q = size at *
  generalize m.place curOffset q = offset at *
  have hadd := UInt32.toNat_add offset size
  have hsize := size.toNat_lt
  by_cases hreach : offset ≥ m.size
  · have hzero : ¬ (0 : UInt32) + 0 > m.size := by simp [UInt32.lt_iff_toNat_lt]
    simp only [if_pos hreach, if_neg hzero, UInt32.toNat_zero]
    exact ⟨Nat.zero_le _, .inl trivial, by omega⟩
  · simp only [if_neg hreach]
    simp only [ge_iff_le, UInt32.le_iff_toNat_le, Nat.not_le] at hreach
    by_cases hlong : offset + size > m.size
    · simp only [if_pos hlong]
      rw [gt_iff_lt, UInt32.lt_iff_toNat_lt] at hlong
      rw [UInt32.toNat_sub_of_le _ _ (UInt32.le_iff_toNat_le.mpr (by omega))]
      refine ⟨?_, ?_, ?_⟩ <;> omega
    · simp only [if_neg hlong]
      rw [gt_iff_lt, UInt32.lt_iff_toNat_lt] at hlong
      omega

theorem addPartitions_cons (m : Master) (curOffset : UInt32) (q : MtdPartition)
    (qs : List MtdPartition) : addPartitions m curOffset (q :: qs) =
      (m.addPartition curOffset q).1 :: addPartitions m (m.addPartition curOffset q).2 qs := rfl

/-- The loop by induction on the table: everything made so far ends below `cur_offset` or
the end of the master. -/
theorem addPartitions_appended {m : Master} (qs : List MtdPartition) {curOffset : UInt32}
    (h : Appended m qs)
    (hcur : curOffset.toNat + (qs.map fun q => q.size.toNat + m.erasesize.toNat).sum < 2 ^ 32 - 1) :
    (∀ p ∈ addPartitions m curOffset qs, p.Inside m ∧ (p.offset.toNat + p.size.toNat = 0 ∨
      min curOffset.toNat m.size.toNat ≤ p.offset.toNat)) ∧
    (addPartitions m curOffset qs).Pairwise Part.Apart := by
  induction qs generalizing curOffset with
  | nil => simp [addPartitions]
  | cons q qs ih =>
    obtain ⟨he, hq, hfit⟩ := h
    simp only [List.map_cons, List.sum_cons] at hfit hcur
    have hhere : curOffset.toNat + (q.size.toNat + m.erasesize.toNat) < 2 ^ 32 - 1 := by omega
    obtain ⟨hin, hplace, hnext⟩ := addPartition_appended he (hq q List.mem_cons_self) hhere
    have hafter : (m.addPartition curOffset q).2.toNat +
        (qs.map fun q => q.size.toNat + m.erasesize.toNat).sum < 2 ^ 32 - 1 := by omega
    obtain ⟨hrest, hpair⟩ := ih ⟨he, fun r hr => hq r (List.mem_cons_of_mem q hr), by omega⟩ hafter
    rw [addPartitions_cons]
    refine ⟨?_, List.pairwise_cons.mpr ⟨fun p hp => ?_, hpair⟩⟩
    · intro p hp
      rcases List.mem_cons.mp hp with rfl | hp
      · exact ⟨hin, by omega⟩
      · obtain ⟨hpin, hplow⟩ := hrest p hp
        exact ⟨hpin, by omega⟩
    · obtain ⟨hpin, hplow⟩ := hrest p hp
      unfold Part.Apart
      unfold Part.Inside at hin
      omega

theorem addPartitions_placed (m : Master) (qs : List MtdPartition) (curOffset : UInt32) :
    ∀ p ∈ addPartitions m curOffset qs, Placed m p := by
  induction qs generalizing curOffset with
  | nil => simp [addPartitions]
  | cons q qs ih =>
    rw [addPartitions_cons]
    intro p hp
    rcases List.mem_cons.mp hp with rfl | hp
    · exact addPartition_placed m curOffset q
    · exact ih _ p hp

/-- Whatever the table asks for: a slave that may be written starts and ends at a multiple of
its erase size, the largest of its regions, and each one ends inside the master unless its own
end wraps; the slaves of a table that leaves the offsets to the loop have no byte in common. -/
theorem partitions_placed (m : Master) (qs : List MtdPartition) :
    (∀ p ∈ addMtdPartitions m qs, Placed m p) ∧
    (Appended m qs → (∀ p ∈ addMtdPartitions m qs, p.Inside m) ∧
      (addMtdPartitions m qs).Pairwise Part.Apart) := by
  refine ⟨addPartitions_placed m qs 0, fun h => ?_⟩
  have hfits := h.fits
  obtain ⟨hin, hpair⟩ := addPartitions_appended qs h (show (0 : UInt32).toNat + _ < _ by
    rw [UInt32.toNat_zero]
    omega)
  exact ⟨fun p hp => (hin p hp).1, hpair⟩

/-- A flash with small blocks at its end and a table that leaves the offsets to the loop: the
second slave ends in a block, the third starts behind it and takes the rest, and nothing is left
for the last, for which the erase size is 0. -/
theorem partitions_placed_rest :
    let m : Master := ⟨0x400000, 0x10000, 3, [⟨0, 0x10000⟩, ⟨0x3f0000, 0x1000⟩], by simp⟩
    let qs : List MtdPartition := [⟨0x40000, mtdpartOfsAppend, 0⟩, ⟨0x12345, mtdpartOfsNxtblk, 0⟩,
      ⟨mtdpartSizFull, mtdpartOfsNxtblk, 0⟩, ⟨0x10000, mtdpartOfsAppend, 0⟩]
    addMtdPartitions m qs = [⟨0, 0x40000, 0x10000, 3⟩, ⟨0x40000, 0x12345, 0x10000, 0⟩,
        ⟨0x60000, 0x3a0000, 0x10000, 3⟩, ⟨0, 0, 0, 3⟩] ∧
      (∀ p ∈ addMtdPartitions m qs, p.Inside m) ∧
      (addMtdPartitions m qs).Pairwise Part.Apart := by
  intro m qs
  exact ⟨by decide, (partitions_placed m qs).2 ⟨by decide, by decide, by decide⟩⟩

end SnakeOs.Flash
