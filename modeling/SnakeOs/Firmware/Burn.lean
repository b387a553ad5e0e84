import SnakeOs.Firmware.Gate
import SnakeOs.Flash.Disk

namespace SnakeOs.Firmware
open Lib Flash Arch
open Lib.Client (issued answers)

/-- A request that writes a piece of `data` to its place. -/
def Piece (data : Bytes) : BlockOp → Prop
  | .write block nsect buf => (block.toNat + nsect.toNat) * 512 ≤ data.length ∧
      ∀ i < nsect.toNat * 512, buf i = (data.getD (block.toNat * 512 + i) 0).toBitVec
  | _ => False

/-- The request writes the byte at `a`. -/
def Touches : BlockOp → Nat → Prop
  | .write block nsect _, a => block.toNat * 512 ≤ a ∧ a < (block.toNat + nsect.toNat) * 512
  | _, _ => False

/-- The queue of a block device that carries `data` to it: every request writes a piece of
it, and every sector of it is in some request. Order, size and repetition are the block
layer's. -/
structure Carries (data : Bytes) (writes : List BlockOp) : Prop where
  pieces : ∀ op ∈ writes, Piece data op
  whole : ∀ a < data.length, ∃ op ∈ writes, Touches op a

/-- `dd of=/dev/mtdblock<device>`: the device is opened, written and closed. -/
def burn (device : Nat) (writes : List BlockOp) : List (Nat × BlockOp) :=
  (device, .opened) :: (writes.map fun op => (device, op)) ++ [(device, .released)]

/-- The contents of the flash as the array of its part. -/
def asArray (flash : Firmware.Flash) : Nor 8 := fun a => (flash a).toBitVec

theorem disksRun_append (parts : List Part) (xs ys : List (Nat × BlockOp))
    (disks : Nat → Disk) : (disksRun parts (xs ++ ys) disks).2 =
      (disksRun parts ys (disksRun parts xs disks).2).2 := by
  induction xs generalizing disks with
  | nil => rfl
  | cons x xs ih =>
    obtain ⟨i, op⟩ := x
    cases hp : parts[i]? with
    | none => simp only [List.cons_append, disksRun, hp, ih]
    | some p => simp only [List.cons_append, disksRun_cons hp, ih]

/-- One step of one disk leaves the others alone. -/
theorem disksRun_one {parts : List Part} {i : Nat} {p : Part} (hp : parts[i]? = some p)
    (op : BlockOp) (disks : Nat → Disk) : (disksRun parts [(i, op)] disks).2 =
      Function.update disks i ((disks i).step p.size.toNat op).2 := by
  rw [disksRun_cons hp]
  rfl

theorem piece_step {data : Bytes} {op : BlockOp} (h : Piece data op) {size : Nat}
    (hfit : data.length ≤ size) {d : Disk} (hopen : d.opens ≠ 0) :
    ∃ bytes, (d.step size op).2 = ⟨d.opens, bytes⟩ ∧
      ∀ a, bytes a = d.bytes a ∧ ¬ Touches op a ∨
        a < data.length ∧ Touches op a ∧ bytes a = (data.getD a 0).toBitVec := by
  cases op with
  | write block nsect buf =>
    obtain ⟨hin, hbuf⟩ := h
    refine ⟨d.bytes.overwrite (block.toNat * 512) (nsect.toNat * 512) buf, ?_, fun a => ?_⟩
    · have hfits : ¬ (d.opens = 0 ∨ size < (block.toNat + nsect.toNat) * 512) := by omega
      rw [Disk.step, if_neg hfits]
    · by_cases ha : block.toNat * 512 ≤ a ∧ a < (block.toNat + nsect.toNat) * 512
      · obtain ⟨k, rfl⟩ := Nat.exists_eq_add_of_le ha.1
        have hk : k < nsect.toNat * 512 := by omega
        have hlt : block.toNat * 512 + k < data.length := by omega
        refine .inr ⟨hlt, ha, ?_⟩
        rw [Nor.overwrite, if_pos ⟨ha.1, Nat.add_lt_add_left hk _⟩, Nat.add_sub_cancel_left,
          hbuf k hk]
      · refine .inl ⟨if_neg ?_, ha⟩
        rwa [← Nat.add_mul]
  | opened => exact h.elim
  | released => exact h.elim
  | flush => exact h.elim
  | read block nsect => exact h.elim

/-- Pieces of `data` written in any order: what they touch holds `data`, and so does what
held it before. -/
theorem pieces_written {parts : List Part} {i : Nat} {p : Part} {data : Bytes}
    (hp : parts[i]? = some p) (hfit : data.length ≤ p.size.toNat) (writes : List BlockOp)
    (hw : ∀ op ∈ writes, Piece data op) {disks : Nat → Disk} (hopen : (disks i).opens ≠ 0) :
    ∃ bytes, (disksRun parts (writes.map fun op => (i, op)) disks).2 =
        Function.update disks i ⟨(disks i).opens, bytes⟩ ∧
      (∀ a, (∃ op ∈ writes, Touches op a) ∨ (disks i).bytes a = (data.getD a 0).toBitVec →
        bytes a = (data.getD a 0).toBitVec) ∧
      ∀ a, data.length ≤ a → bytes a = (disks i).bytes a := by
  induction writes generalizing disks with
  | nil =>
    refine ⟨(disks i).bytes, (Function.update_eq_self i disks).symm, fun a ha => ?_, fun _ _ => rfl⟩
    rcases ha with ⟨op, hop, _⟩ | ha
    · exact absurd hop List.not_mem_nil
    · exact ha
  | cons op writes ih =>
    obtain ⟨first, hstep, hfirst⟩ := piece_step (hw op List.mem_cons_self) hfit hopen
    have hself : Function.update disks i ⟨(disks i).opens, first⟩ i = ⟨(disks i).opens, first⟩ :=
      Function.update_self ..
    have hopen' : (Function.update disks i ⟨(disks i).opens, first⟩ i).opens ≠ 0 := by
      rw [hself]
      exact hopen
    obtain ⟨bytes, hrun, hdata, hrest⟩ := ih (fun q hq => hw q (List.mem_cons_of_mem op hq)) hopen'
    rw [hself] at hrun hdata hrest
    refine ⟨bytes, ?_, fun a ha => ?_, fun a ha => ?_⟩
    · simp only [List.map_cons, disksRun_cons hp, hstep]
      exact hrun.trans (Function.update_idem ..)
    · apply hdata
      rcases hfirst a with ⟨hsame, hnot⟩ | ⟨_, _, hnew⟩
      · rcases ha with ⟨q, hq, ht⟩ | ha
        · rcases List.mem_cons.mp hq with rfl | hq
          · exact absurd ht hnot
          · exact .inl ⟨q, hq, ht⟩
        · exact .inr (hsame.trans ha)
      · exact .inr hnew
    · rcases hfirst a with ⟨hsame, _⟩ | ⟨hlt, _, _⟩
      · rw [hrest a ha]
        exact hsame
      · omega

/-- A device opened, written and closed holds what was carried to it. -/
theorem burn_disks {parts : List Part} {i : Nat} {p : Part} {data : Bytes} {writes : List BlockOp}
    (hp : parts[i]? = some p) (hfit : data.length ≤ p.size.toNat) (hw : Carries data writes)
    (disks : Nat → Disk) : (disksRun parts (burn i writes) disks).2 =
      Function.update disks i ⟨(disks i).opens, (disks i).bytes.overwrite 0 data.length
        fun a => (data.getD a 0).toBitVec⟩ := by
  have hself : ∀ d, Function.update disks i d i = d := fun d => Function.update_self ..
  have hopen : (Function.update disks i ⟨(disks i).opens + 1, (disks i).bytes⟩ i).opens ≠ 0 := by
    rw [hself]
    exact Nat.succ_ne_zero _
  obtain ⟨bytes, hrun, hdata, hrest⟩ := pieces_written hp hfit writes hw.pieces hopen
  rw [hself] at hrun hdata hrest
  have hbytes : bytes = (disks i).bytes.overwrite 0 data.length
      fun a => (data.getD a 0).toBitVec := by
    funext a
    by_cases ha : a < data.length
    · have hin : 0 ≤ a ∧ a < 0 + data.length := by omega
      rw [Nor.overwrite, if_pos hin]
      exact hdata a (.inl (hw.whole a ha))
    · have hout : ¬ (0 ≤ a ∧ a < 0 + data.length) := by omega
      rw [Nor.overwrite, if_neg hout]
      exact hrest a (Nat.le_of_not_lt ha)
  have hclose : ((⟨(disks i).opens + 1, bytes⟩ : Disk).step p.size.toNat .released).2 =
      ⟨(disks i).opens, bytes⟩ := by
    rw [Disk.step, if_neg (Nat.succ_ne_zero _)]
    rfl
  have hrun' : (disksRun parts (burn i writes) disks).2 =
      (disksRun parts [(i, .released)] (disksRun parts (writes.map fun op => (i, op))
        (disksRun parts [(i, .opened)] disks).2).2).2 := by
    rw [← disksRun_append, ← disksRun_append]
    rfl
  have hopened : (disksRun parts [(i, .opened)] disks).2 =
      Function.update disks i ⟨(disks i).opens + 1, (disks i).bytes⟩ := disksRun_one hp .opened disks
  rw [hrun', hopened, hrun, Function.update_idem, disksRun_one hp, hself, hclose,
    Function.update_idem, hbytes]

/-- `fixed_parts` registers the same slaves on every bank the probe accepts. -/
theorem fixedParts_slaves (g : Bank) : addMtdPartitions g.master fixedParts =
    [⟨0, 0x40000, 0x10000, 3⟩, ⟨0x40000, 0x20000, 0x10000, 3⟩, ⟨0x60000, 0xf0000, 0x10000, 3⟩,
      ⟨0x150000, 0x2a0000, 0x10000, 3⟩, ⟨0, 0x3f0000, 0x10000, 3⟩, ⟨0, 0x3f0000, 0x10000, 3⟩] := by
  obtain ⟨hsector, hsectors⟩ := bank_sectors g
  have hmaster (n : Nat) (hn : g.info.sectors = n) : g.master =
      ⟨UInt32.ofNat (n * 65536), 65536, mtdWriteable, [⟨0, 65536⟩], by simp⟩ := by
    simp only [Bank.master, Bank.size, Bank.eraseSize, hsector, hn]
    rfl
  rcases hsectors with h | h <;> rw [hmaster _ h] <;> decide

/-- The slave `p` is where the table of `firmware.cgi` has its device. -/
def Mapped (parts : List Part) (i : Nat) : Prop :=
  ∃ p q, parts[i]? = some p ∧ partitions[i]? = some q ∧ p.offset.toNat = q.offset ∧
    p.size.toNat = q.size

/-- The disks of the devices are closed and hold what the flash holds. -/
def Agree (parts : List Part) (ks : List Nat) (disks : Nat → Disk) (m : Nor 8) : Prop :=
  ∀ i ∈ ks, ∀ p ∈ parts[i]?, disks i = ⟨0, p.window m⟩

theorem agree_closed (parts : List Part) (ks : List Nat) (m : Nor 8) :
    Agree parts ks (closedDisks parts m) m := by
  intro i _ p hp
  simp only [closedDisks, Option.mem_def.mp hp]

theorem window_written {p : Part} {q : Partition} (hoff : p.offset.toNat = q.offset)
    (hsize : p.size.toNat = q.size) {data : Bytes} (hfit : data.length ≤ q.size)
    (flash : Firmware.Flash) : p.window (asArray (writePartition q data flash)) =
      (p.window (asArray flash)).overwrite 0 data.length fun a => (data.getD a 0).toBitVec := by
  funext a
  simp only [Part.window, Nor.window, Nor.overwrite, asArray, writePartition, hoff, hsize,
    Nat.min_eq_right hfit]
  by_cases ha : a < data.length
  · have hin : q.offset ≤ q.offset + a ∧ q.offset + a < q.offset + data.length := by omega
    rw [if_pos (show a < q.size by omega), if_pos hin, if_pos (by omega), Nat.add_sub_cancel_left]
    rfl
  · have hout : ¬ (q.offset ≤ q.offset + a ∧ q.offset + a < q.offset + data.length) := by omega
    rw [if_neg hout, if_neg (show ¬ (0 ≤ a ∧ a < 0 + data.length) by omega)]

theorem window_unwritten {p r : Part} {q : Partition} (hoff : p.offset.toNat = q.offset)
    (hsize : p.size.toNat = q.size) (hapart : r.Apart p) (data : Bytes)
    (flash : Firmware.Flash) :
    r.window (asArray (writePartition q data flash)) = r.window (asArray flash) := by
  refine Nor.window_congr fun a hlow hhigh => ?_
  unfold Part.Apart at hapart
  have hmin := Nat.min_le_left q.size data.length
  exact congrArg UInt8.toBitVec (if_neg (by omega))

/-- One device burnt is one segment applied. -/
theorem burn_agree {parts : List Part} {ks : List Nat} {file : Bytes} {s : Segment}
    {writes : List BlockOp}
    (hapart : ∀ i ∈ ks, ∀ j ∈ ks, i ≠ j → ∀ p ∈ parts[i]?, ∀ q ∈ parts[j]?, p.Apart q)
    (hk : s.device ∈ ks) (hm : Mapped parts s.device)
    (hfit : ∀ q ∈ partitions[s.device]?, (s.data file).length ≤ q.size)
    (hw : Carries (s.data file) writes) {disks : Nat → Disk} {flash : Firmware.Flash}
    (h : Agree parts ks disks (asArray flash)) :
    Agree parts ks (disksRun parts (burn s.device writes) disks).2
      (asArray (Segment.apply file flash s)) := by
  obtain ⟨p, q, hp, hq, hoff, hsize⟩ := hm
  have happly : Segment.apply file flash s = writePartition q (s.data file) flash := by
    simp only [Segment.apply, hq]
  have hlen := hfit q hq
  have hdisk := h s.device hk p hp
  rw [happly, burn_disks hp (by omega) hw, hdisk]
  intro j hj r hr
  by_cases hji : j = s.device
  · subst j
    obtain rfl := Option.some.inj (hp.symm.trans hr)
    rw [Function.update_self, window_written hoff hsize hlen]
  · rw [Function.update_of_ne hji, h j hj r hr,
      window_unwritten hoff hsize (hapart j hj _ hk hji r hr p hp)]

/-- All segments, by induction on them. -/
theorem burnAll_agree {parts : List Part} {ks : List Nat} {file : Bytes}
    {writes : Segment → List BlockOp}
    (hapart : ∀ i ∈ ks, ∀ j ∈ ks, i ≠ j → ∀ p ∈ parts[i]?, ∀ q ∈ parts[j]?, p.Apart q)
    (segments : List Segment) (hs : ∀ s ∈ segments, s.device ∈ ks ∧ Mapped parts s.device ∧
      (∀ q ∈ partitions[s.device]?, (s.data file).length ≤ q.size) ∧
      Carries (s.data file) (writes s))
    {disks : Nat → Disk} {flash : Firmware.Flash} (h : Agree parts ks disks (asArray flash)) :
    Agree parts ks (disksRun parts (segments.flatMap fun s => burn s.device (writes s)) disks).2
      (asArray (segments.foldl (Segment.apply file) flash)) := by
  induction segments generalizing disks flash with
  | nil => exact h
  | cons s segments ih =>
    obtain ⟨hk, hm, hfit, hw⟩ := hs s List.mem_cons_self
    rw [List.flatMap_cons, disksRun_append, List.foldl_cons]
    exact ih (fun t ht => hs t (List.mem_cons_of_mem s ht)) (burn_agree hapart hk hm hfit hw h)

/-- No segment reaches beyond the slave of its device. -/
theorem apply_outside {parts : List Part} {file : Bytes} (segments : List Segment)
    (hs : ∀ s ∈ segments, Mapped parts s.device) {flash : Firmware.Flash} {x : Nat}
    (hx : ∀ s ∈ segments, ∀ p ∈ parts[s.device]?,
      x < p.offset.toNat ∨ p.offset.toNat + p.size.toNat ≤ x) :
    segments.foldl (Segment.apply file) flash x = flash x := by
  induction segments generalizing flash with
  | nil => rfl
  | cons s segments ih =>
    obtain ⟨p, q, hp, hq, hoff, hsize⟩ := hs s List.mem_cons_self
    have hout := hx s List.mem_cons_self p hp
    have hmin := Nat.min_le_left q.size (s.data file).length
    rw [List.foldl_cons, ih (fun t ht => hs t (List.mem_cons_of_mem s ht))
      (fun t ht => hx t (List.mem_cons_of_mem s ht))]
    simp only [Segment.apply, hq, writePartition]
    exact if_neg (by omega)

/-- The image brought to the device sector by sector. -/
def sectorWrites (data : Bytes) : List BlockOp :=
  (List.range (data.length / 512)).map fun k =>
    .write (UInt32.ofNat k) 1 fun i => (data.getD (k * 512 + i) 0).toBitVec

theorem sectorWrites_carries {data : Bytes} (hwhole : data.length % 512 = 0)
    (hsmall : data.length < 2 ^ 32) : Carries data (sectorWrites data) := by
  have hnat : ∀ k < data.length / 512, (UInt32.ofNat k).toNat = k := fun k hk =>
    UInt32.toNat_ofNat_of_lt' (show k < 2 ^ 32 by omega)
  have hone : (1 : UInt32).toNat = 1 := rfl
  refine ⟨fun op hop => ?_, fun a ha => ?_⟩
  · obtain ⟨k, hk, rfl⟩ := List.mem_map.mp hop
    have hk := List.mem_range.mp hk
    rw [Piece, hnat k hk, hone]
    exact ⟨by omega, fun _ _ => rfl⟩
  · have hk : a / 512 < data.length / 512 := by omega
    refine ⟨_, List.mem_map.mpr ⟨a / 512, List.mem_range.mpr hk, rfl⟩, ?_⟩
    rw [Touches, hnat _ hk, hone]
    omega

theorem burn_fits {data : Bytes} {writes : List BlockOp} (hw : Carries data writes)
    (hsmall : data.length ≤ 2 ^ 32) (i : Nat) : ∀ o ∈ burn i writes, o.1 = i ∧ o.2.Fits := by
  intro o ho
  simp only [burn, List.cons_append, List.mem_cons, List.mem_append, List.mem_map,
    List.not_mem_nil, or_false] at ho
  rcases ho with rfl | ⟨op, hop, rfl⟩ | rfl
  · exact ⟨rfl, trivial⟩
  · refine ⟨rfl, ?_⟩
    have hp := hw.pieces op hop
    cases op with
    | write block nsect buf =>
      have hin := hp.1
      rw [BlockOp.Fits]
      omega
    | opened => exact hp.elim
    | released => exact hp.elim
    | flush => exact hp.elim
    | read block nsect => exact hp.elim
  · exact ⟨rfl, trivial⟩

/-- The segments of an image go to CFG, KERNEL and INITRD and fill at most these. -/
theorem segments_mapped (g : Bank) (file : Bytes) : ∀ s ∈ segmentsOf file.length,
    s.device ∈ [1, 2, 3] ∧ Mapped (addMtdPartitions g.master fixedParts) s.device ∧
      (∀ q ∈ partitions[s.device]?, (s.data file).length ≤ q.size) ∧
      (s.data file).length ≤ 2 ^ 32 := by
  have hlen : ∀ s : Segment, (s.data file).length ≤ s.length := fun s => by
    rw [Segment.data, dd, List.length_take]
    exact Nat.min_le_left _ _
  have htable : ∀ s ∈ segmentsOf file.length, s.device = 1 ∧ s.length = 0x20000 ∨
      s.device = 2 ∧ s.length = 0xf0000 ∨ s.device = 3 ∧ s.length = 0x2a0000 := by
    unfold segmentsOf
    split <;> decide
  intro s hs
  have hs' := hlen s
  rw [fixedParts_slaves]
  rcases htable s hs with ⟨hd, hl⟩ | ⟨hd, hl⟩ | ⟨hd, hl⟩ <;> rw [hd] <;> rw [hl] at hs'
  -- each device is as large as the table of the script has it
  all_goals
    refine ⟨by decide, ⟨_, _, rfl, rfl, rfl, rfl⟩, fun q hq => ?_, by omega⟩
    obtain rfl := Option.some.inj hq
    exact hs'

/-- CFG, KERNEL and INITRD can have block devices and share no byte. -/
theorem fixedParts_devices (g : Bank) :
    Devices g (addMtdPartitions g.master fixedParts) [1, 2, 3] := by
  obtain ⟨hsector, hsectors⟩ := bank_sectors g
  have hbelow : 0x3f0000 < g.size := by
    rw [Bank.size, hsector]
    omega
  constructor
  · have htable : ∀ i ∈ [1, 2, 3], ∀ p ∈ (addMtdPartitions g.master fixedParts)[i]?,
        p.Writeable ∧ p.offset.toNat + p.size.toNat ≤ 0x3f0000 := by
      rw [fixedParts_slaves]
      decide
    intro i hi p hp
    obtain ⟨hwrite, hend⟩ := htable i hi p hp
    exact blocks_of_table (List.mem_of_getElem? hp) hwrite (Nat.lt_of_le_of_lt hend hbelow)
  · rw [fixedParts_slaves]
    decide

/-- An upgrade writes through the block devices what the handler means: when the image is
carried to each device in requests of any order and size, the flash holds what `firmware.cgi`
specifies once the devices are closed, on the array and behind every genuine chip. -/
theorem upgrade_burns (md5 : Bytes → Fin 16 → UInt8) (file : Bytes) (g : Bank)
    (flash : Firmware.Flash) (writes : Segment → List BlockOp)
    (hw : ∀ s ∈ firmwareCgi md5 file, Carries (s.data file) (writes s)) :
    let client := blockRun (addMtdPartitions g.master fixedParts)
      ((firmwareCgi md5 file).flatMap fun s => burn s.device (writes s)) fun _ => none
    (client.run (Call.onArray g) (asArray flash)).2 = asArray (flashAfter md5 file flash) ∧
      ∀ (c : Chip) (busy : Nat) (latch : Bool),
        Genuine g ⟨asArray flash, latch⟩ (performAll g c (Spi.init busy)
          (client.issued (Call.onArray g) (asArray flash))).frames →
        (Device.after ⟨asArray flash, latch⟩
          (client.run (Call.onDriver g c) (Spi.init busy)).2.frames).array =
            asArray (flashAfter md5 file flash) := by
  intro client
  have hsegments : ∀ s ∈ firmwareCgi md5 file, s ∈ segmentsOf file.length := by
    intro s hs
    rw [firmwareCgi_eq] at hs
    split at hs
    · exact hs
    · exact absurd hs List.not_mem_nil
  have hmapped := fun s hs => segments_mapped g file s (hsegments s hs)
  have hk := fixedParts_devices g
  have hops : ∀ o ∈ (firmwareCgi md5 file).flatMap fun s => burn s.device (writes s),
      o.1 ∈ [1, 2, 3] ∧ o.2.Fits := by
    intro o ho
    obtain ⟨s, hs, ho⟩ := List.mem_flatMap.mp ho
    obtain ⟨hdev, _, _, hsmall⟩ := hmapped s hs
    obtain ⟨hi, hfits⟩ := burn_fits (hw s hs) hsmall s.device o ho
    exact ⟨hi ▸ hdev, hfits⟩
  obtain ⟨mtdblks, m, hrun, hall, hout, hreg⟩ := blockRun_simulates hk _ hops
    (ShowsAll.closed (addMtdPartitions g.master fixedParts) [1, 2, 3] (asArray flash))
  have hagree := burnAll_agree hk.apart (firmwareCgi md5 file)
    (fun s hs => ⟨(hmapped s hs).1, (hmapped s hs).2.1, (hmapped s hs).2.2.1, hw s hs⟩)
    (agree_closed (addMtdPartitions g.master fixedParts) [1, 2, 3] (asArray flash))
  have hm : m = asArray (flashAfter md5 file flash) := by
    funext x
    by_cases hx : ∀ i ∈ [1, 2, 3], ∀ p ∈ (addMtdPartitions g.master fixedParts)[i]?,
        x < p.offset.toNat ∨ p.offset.toNat + p.size.toNat ≤ x
    · rw [hout x hx]
      exact congrArg UInt8.toBitVec (apply_outside _ (fun s hs => (hmapped s hs).2.1)
        fun s hs => hx s.device (hmapped s hs).1).symm
    · push Not at hx
      obtain ⟨i, hi, p, hp, hlow, hhigh⟩ := hx
      have hshow := hall i hi p hp
      rw [hagree i hi p hp] at hshow
      have hwindow := congrFun (hshow.closed rfl) (x - p.offset.toNat)
      have hplace : p.offset.toNat + (x - p.offset.toNat) = x := by omega
      have hin : x - p.offset.toNat < p.size.toNat := by omega
      simp only [Part.window, Nor.window, hplace, if_pos hin] at hwindow
      exact hwindow
  refine ⟨?_, fun c busy latch hg => ?_⟩
  · rw [hrun]
    exact hm
  · obtain ⟨hdriver, harray⟩ := run_genuine hg hreg
    rw [hrun] at hdriver harray
    rw [hdriver]
    exact harray.trans hm

/-- The blank incremental image, sector by sector. -/
theorem upgrade_burns_blank :
    let md5 : Bytes → Fin 16 → UInt8 := fun _ _ => 0
    let file := List.replicate 3866624 0
    let g : Bank := ⟨⟨64, 0x10000, 16384, 256⟩, 0x20, 0x2016, rfl⟩
    let client := blockRun (addMtdPartitions g.master fixedParts)
      ((firmwareCgi md5 file).flatMap fun s => burn s.device (sectorWrites (s.data file)))
        fun _ => none
    (client.run (Call.onArray g) (asArray fun _ => 0xFF)).2 =
        asArray (flashAfter md5 file fun _ => 0xFF) ∧
      ∀ (c : Chip) (busy : Nat) (latch : Bool),
        Genuine g ⟨asArray fun _ => 0xFF, latch⟩ (performAll g c (Spi.init busy)
          (client.issued (Call.onArray g) (asArray fun _ => 0xFF))).frames →
        (Device.after ⟨asArray fun _ => 0xFF, latch⟩
          (client.run (Call.onDriver g c) (Spi.init busy)).2.frames).array =
            asArray (flashAfter md5 file fun _ => 0xFF) :=
  upgrade_burns (fun _ _ => 0) (List.replicate 3866624 0) _ _
    (fun s => sectorWrites (s.data (List.replicate 3866624 0))) (by
      intro s hs
      have hlen : (s.data (List.replicate 3866624 0)).length =
          min (s.count * 65536) (3866624 - s.skip * 65536) := by
        simp only [Segment.data, dd, blockSize, List.length_take, List.length_drop,
          List.length_replicate]
      exact sectorWrites_carries (by omega) (by omega))

end SnakeOs.Firmware
