import Mathlib.Logic.Function.Basic
import SnakeOs.Flash.Answering
import SnakeOs.Flash.Cache

namespace SnakeOs.Flash
open Arch Lib
open Lib.Client (issued answers run_bind run_pure issued_bind issued_pure)

/-- A block device as its users see it: how often it is open, and its bytes. -/
structure Disk where
  opens : Nat
  bytes : Nor 8

def Disk.step (size : Nat) (d : Disk) : BlockOp → BlockReply × Disk
  | .opened => (⟨true, []⟩, { d with opens := d.opens + 1 })
  | .released =>
    if d.opens = 0 then (⟨false, []⟩, d) else (⟨true, []⟩, { d with opens := d.opens - 1 })
  | .flush => if d.opens = 0 then (⟨false, []⟩, d) else (⟨true, []⟩, d)
  | .read block nsect =>
    if d.opens = 0 ∨ size < (block.toNat + nsect.toNat) * 512 then (⟨false, []⟩, d)
    else (⟨true, (d.bytes.read (block.toNat * 512) (nsect.toNat * 512)).map BitVec.toNat⟩, d)
  | .write block nsect buf =>
    if d.opens = 0 ∨ size < (block.toNat + nsect.toNat) * 512 then (⟨false, []⟩, d)
    else (⟨true, []⟩, { d with
      bytes := d.bytes.overwrite (block.toNat * 512) (nsect.toNat * 512) buf })

/-- The sectors of a request are no 32 bit overflow. -/
def BlockOp.Fits : BlockOp → Prop
  | .read block nsect => block.toNat + nsect.toNat < 2 ^ 32
  | .write block nsect _ => block.toNat + nsect.toNat < 2 ^ 32
  | _ => True

instance (op : BlockOp) : Decidable op.Fits :=
  match op with
  | .opened => .isTrue trivial
  | .released => .isTrue trivial
  | .flush => .isTrue trivial
  | .read block nsect => inferInstanceAs (Decidable (block.toNat + nsect.toNat < 2 ^ 32))
  | .write block nsect _ => inferInstanceAs (Decidable (block.toNat + nsect.toNat < 2 ^ 32))

/-- The device behind `mtdblks[dev]` and the window of its partition make up the disk. -/
def Shows (p : Part) (b : Option Mtdblk) (w : Nor 8) (d : Disk) : Prop :=
  match b with
  | none => d.opens = 0 ∧ w = d.bytes
  | some b => b.count = d.opens ∧ 0 < d.opens ∧ Cached p b w ∧ b.view w = d.bytes

/-- A step of the device is the step of the disk. -/
def Simulates (g : Bank) (p : Part) (op : BlockOp) (b : Option Mtdblk) (m : Nor 8) (d : Disk) :
    Prop :=
  ∃ b' w, Acts g p (blockStep p op b) m ((d.step p.size.toNat op).1, b') w ∧
    Shows p b' w (d.step p.size.toNat op).2

theorem capacity_iff {g : Bank} {p : Part} (hp : p.Blocks g) {block nsect : UInt32}
    (hf : block.toNat + nsect.toNat < 2 ^ 32) :
    block + nsect > p.size / 512 ↔ p.size.toNat < (block.toNat + nsect.toNat) * 512 := by
  have hwhole := hp.whole
  have h512 : (512 : UInt32).toNat = 512 := rfl
  rw [gt_iff_lt, UInt32.lt_iff_toNat_lt, UInt32.toNat_add, UInt32.toNat_div, h512,
    Nat.mod_eq_of_lt hf]
  rw [spiFlashSectorSize] at hwhole
  omega

theorem open_simulates {g : Bank} {p : Part} (hp : p.Blocks g) {b : Option Mtdblk} {m : Nor 8}
    {d : Disk} (h : Shows p b (p.window m) d) : Simulates g p .opened b m d := by
  refine ⟨_, p.window m, .done _ rfl, ?_⟩
  cases b with
  | none =>
    obtain ⟨hz, hw⟩ := h
    have hsize : (mtdblockOpen p none).cacheSize = 65536 := by
      have hne : p.erasesize ≠ 0 := fun h0 => by
        have := hp.erasesize
        rw [h0] at this
        exact absurd this (by decide)
      exact (if_pos ⟨hp.cached, hne⟩).trans hp.erasesize
    refine ⟨?_, Nat.succ_pos _, ⟨hsize, fun hne => absurd rfl hne, fun _ => rfl⟩, hw⟩
    simp only [Disk.step, hz]
    rfl
  | some b =>
    obtain ⟨hn, hpos, hc, hv⟩ := h
    exact ⟨congrArg (· + 1) hn, Nat.succ_pos _, ⟨hc.size, hc.sector, hc.clean⟩, hv⟩

theorem release_simulates {g : Bank} {p : Part} (hp : p.Blocks g) {b : Mtdblk} {m : Nor 8}
    {d : Disk} (h : Shows p (some b) (p.window m) d) : Simulates g p .released (some b) m d := by
  obtain ⟨hn, hpos, hc, hv⟩ := h
  obtain ⟨b', w, hact, hc', hv', hn', hd'⟩ := writeCachedData_settles hp hc
  rw [hv] at hv'
  have hflash : w = d.bytes := (hc'.clean hd').symm.trans hv'
  have hstep : d.step p.size.toNat .released = (⟨true, []⟩, { d with opens := d.opens - 1 }) := by
    rw [Disk.step, if_neg (by omega)]
  have hrelease : Acts g p (mtdblockRelease p b) m
      (if b'.count - 1 = 0 then none else some { b' with count := b'.count - 1 }) w := by
    refine hact.bind ?_
    by_cases hlast : b'.count - 1 = 0
    · simp only [if_pos hlast]
      exact .done _ hact.window
    · simp only [if_neg hlast]
      exact .done _ hact.window
  by_cases hlast : b'.count - 1 = 0
  · rw [if_pos hlast] at hrelease
    refine ⟨none, w, ?_, ?_⟩
    · rw [hstep]
      exact hrelease.bind (.done _ hrelease.window)
    · rw [hstep]
      exact ⟨by simp only; omega, hflash⟩
  · rw [if_neg hlast] at hrelease
    refine ⟨some { b' with count := b'.count - 1 }, w, ?_, ?_⟩
    · rw [hstep]
      exact hrelease.bind (.done _ hrelease.window)
    · rw [hstep]
      exact ⟨by simp only; omega, by simp only; omega, ⟨hc'.size, hc'.sector, hc'.clean⟩, hv'⟩

theorem flush_simulates {g : Bank} {p : Part} (hp : p.Blocks g) {b : Mtdblk} {m : Nor 8}
    {d : Disk} (h : Shows p (some b) (p.window m) d) : Simulates g p .flush (some b) m d := by
  obtain ⟨hn, hpos, hc, hv⟩ := h
  obtain ⟨b', w, hact, hc', hv', hn', _⟩ := writeCachedData_settles hp hc
  have hstep : d.step p.size.toNat .flush = (⟨true, []⟩, d) := by
    rw [Disk.step, if_neg (by omega)]
  refine ⟨some b', w, ?_, ?_⟩
  · rw [hstep]
    exact hact.bind (.done _ hact.window)
  · rw [hstep]
    exact ⟨hn'.trans hn, hpos, hc', hv'.trans hv⟩

theorem read_simulates {g : Bank} {p : Part} (hp : p.Blocks g) {b : Mtdblk} {m : Nor 8}
    {d : Disk} {block nsect : UInt32} (h : Shows p (some b) (p.window m) d)
    (hf : (BlockOp.read block nsect).Fits) : Simulates g p (.read block nsect) (some b) m d := by
  obtain ⟨hn, hpos, hc, hv⟩ := h
  have hiff := capacity_iff hp hf
  refine ⟨some b, p.window m, ?_, ?_⟩
  · by_cases hbig : block + nsect > p.size / 512
    · rw [blockStep, if_pos hbig, Disk.step, if_pos (.inr (hiff.mp hbig))]
      exact .done _ rfl
    · have hfit := mt hiff.mpr hbig
      have hact := readSectors_acts hp nsect.toNat hc hv (Nat.not_lt.mp hfit)
      rw [blockStep, if_neg hbig, Disk.step, if_neg (by omega)]
      exact hact.bind (.done _ hact.window)
  · have hsame : (d.step p.size.toNat (.read block nsect)).2 = d := by
      simp only [Disk.step]
      split <;> rfl
    rw [hsame]
    exact ⟨hn, hpos, hc, hv⟩

theorem write_simulates {g : Bank} {p : Part} (hp : p.Blocks g) {b : Mtdblk} {m : Nor 8}
    {d : Disk} {block nsect : UInt32} {buf : Nat → U8} (h : Shows p (some b) (p.window m) d)
    (hf : (BlockOp.write block nsect buf).Fits) :
    Simulates g p (.write block nsect buf) (some b) m d := by
  obtain ⟨hn, hpos, hc, hv⟩ := h
  have hiff := capacity_iff hp hf
  by_cases hbig : block + nsect > p.size / 512
  · refine ⟨some b, p.window m, ?_, ?_⟩
    · rw [blockStep, if_pos hbig, Disk.step, if_pos (.inr (hiff.mp hbig))]
      exact .done _ rfl
    · rw [Disk.step, if_pos (.inr (hiff.mp hbig))]
      exact ⟨hn, hpos, hc, hv⟩
  · have hfit := mt hiff.mpr hbig
    obtain ⟨b', w, hact, hc', hv', hn'⟩ :=
      writeSectors_acts hp nsect.toNat hc (Nat.not_lt.mp hfit)
    rw [hv] at hv'
    refine ⟨some b', w, ?_, ?_⟩
    · rw [blockStep, if_neg hbig, Disk.step, if_neg (by omega)]
      exact hact.bind (.done _ hact.window)
    · rw [Disk.step, if_neg (by omega)]
      exact ⟨hn'.trans hn, hpos, hc', hv'⟩

/-- One step of a block device, case by case. -/
theorem blockStep_simulates {g : Bank} {p : Part} (hp : p.Blocks g) {b : Option Mtdblk}
    {m : Nor 8} {d : Disk} {op : BlockOp} (h : Shows p b (p.window m) d) (hf : op.Fits) :
    Simulates g p op b m d := by
  cases b with
  | none =>
    cases op with
    | opened => exact open_simulates hp h
    | _ =>
      refine ⟨none, p.window m, ?_, ?_⟩
      all_goals simp only [Disk.step, h.1, true_or, ↓reduceIte]
      · exact .done _ rfl
      · exact h
  | some b =>
    cases op with
    | opened => exact open_simulates hp h
    | released => exact release_simulates hp h
    | flush => exact flush_simulates hp h
    | read block nsect => exact read_simulates hp h hf
    | write block nsect buf => exact write_simulates hp h hf

/-- Steps of several devices one after another, each with its number. -/
def blockRun (parts : List Part) : List (Nat × BlockOp) → (Nat → Option Mtdblk) →
    Client Call Reply (List (Nat × BlockReply) × (Nat → Option Mtdblk))
  | [], mtdblks => .done ([], mtdblks)
  | (i, op) :: rest, mtdblks =>
    match parts[i]? with
    | none => blockRun parts rest mtdblks
    | some p =>
      blockStep p op (mtdblks i) >>= fun r =>
        blockRun parts rest (Function.update mtdblks i r.2) >>= fun rs =>
          .done ((i, r.1) :: rs.1, rs.2)

/-- The same steps on plain disks. -/
def disksRun (parts : List Part) : List (Nat × BlockOp) → (Nat → Disk) →
    List (Nat × BlockReply) × (Nat → Disk)
  | [], disks => ([], disks)
  | (i, op) :: rest, disks =>
    match parts[i]? with
    | none => disksRun parts rest disks
    | some p =>
      let r := (disks i).step p.size.toNat op
      let rs := disksRun parts rest (Function.update disks i r.2)
      ((i, r.1) :: rs.1, rs.2)

/-- Closed disks with the bytes of their partitions. -/
def closedDisks (parts : List Part) (m : Nor 8) : Nat → Disk := fun i =>
  match parts[i]? with
  | none => ⟨0, m⟩
  | some p => ⟨0, p.window m⟩

/-- The devices `ks` are on partitions that block devices can be kept on and that have no
byte in common. -/
structure Devices (g : Bank) (parts : List Part) (ks : List Nat) : Prop where
  blocks : ∀ i ∈ ks, ∀ p ∈ parts[i]?, p.Blocks g
  apart : ∀ i ∈ ks, ∀ j ∈ ks, i ≠ j → ∀ p ∈ parts[i]?, ∀ q ∈ parts[j]?, p.Apart q

/-- Every one of the devices shows its disk. -/
def ShowsAll (parts : List Part) (ks : List Nat) (mtdblks : Nat → Option Mtdblk) (m : Nor 8)
    (disks : Nat → Disk) : Prop :=
  ∀ i ∈ ks, ∀ p ∈ parts[i]?, Shows p (mtdblks i) (p.window m) (disks i)

theorem Shows.closed {p : Part} {b : Option Mtdblk} {w : Nor 8} {d : Disk} (h : Shows p b w d)
    (hd : d.opens = 0) : w = d.bytes := by
  cases b with
  | none => exact h.2
  | some b => exact absurd h.2.1 (by omega)

theorem ShowsAll.closed (parts : List Part) (ks : List Nat) (m : Nor 8) :
    ShowsAll parts ks (fun _ => none) m (closedDisks parts m) := by
  intro i _ p hp
  simp only [closedDisks, Option.mem_def.mp hp]
  exact ⟨rfl, rfl⟩

theorem ShowsAll.update {g : Bank} {parts : List Part} {ks : List Nat} {i : Nat} {p : Part}
    {mtdblks : Nat → Option Mtdblk} {m m' : Nor 8} {disks : Nat → Disk} {b : Option Mtdblk}
    {d : Disk} (h : ShowsAll parts ks mtdblks m disks) (hk : Devices g parts ks) (hi : i ∈ ks)
    (hp : parts[i]? = some p) (hb : Shows p b (p.window m') d)
    (hout : ∀ x, x < p.offset.toNat ∨ p.offset.toNat + p.size.toNat ≤ x → m' x = m x) :
    ShowsAll parts ks (Function.update mtdblks i b) m' (Function.update disks i d) := by
  intro j hj q hq
  by_cases hij : j = i
  · subst j
    obtain rfl := Option.some.inj (hp.symm.trans hq)
    rw [Function.update_self, Function.update_self]
    exact hb
  · have hsame : q.window m' = q.window m := by
      have hapart := hk.apart j hj i hi hij q hq p hp
      refine Nor.window_congr fun a hlow hhigh => hout a ?_
      unfold Part.Apart at hapart
      omega
    rw [Function.update_of_ne hij, Function.update_of_ne hij, hsame]
    exact h j hj q hq

theorem blockRun_cons {parts : List Part} {i : Nat} {p : Part} (hp : parts[i]? = some p)
    (op : BlockOp) (rest : List (Nat × BlockOp)) (mtdblks : Nat → Option Mtdblk) :
    blockRun parts ((i, op) :: rest) mtdblks = blockStep p op (mtdblks i) >>= fun r =>
      blockRun parts rest (Function.update mtdblks i r.2) >>= fun rs =>
        .done ((i, r.1) :: rs.1, rs.2) := by
  simp only [blockRun, hp]

theorem disksRun_cons {parts : List Part} {i : Nat} {p : Part} (hp : parts[i]? = some p)
    (op : BlockOp) (rest : List (Nat × BlockOp)) (disks : Nat → Disk) :
    disksRun parts ((i, op) :: rest) disks =
      let r := (disks i).step p.size.toNat op
      ((i, r.1) :: (disksRun parts rest (Function.update disks i r.2)).1,
        (disksRun parts rest (Function.update disks i r.2)).2) := by
  simp only [disksRun, hp]

/-- A run by induction on its steps: every step is that of one disk, and the partitions of
the others keep their bytes. -/
theorem blockRun_simulates {g : Bank} {parts : List Part} {ks : List Nat}
    (hk : Devices g parts ks) (ops : List (Nat × BlockOp))
    (hops : ∀ o ∈ ops, o.1 ∈ ks ∧ o.2.Fits) {mtdblks : Nat → Option Mtdblk} {m : Nor 8}
    {disks : Nat → Disk} (h : ShowsAll parts ks mtdblks m disks) :
    ∃ mtdblks' m', (blockRun parts ops mtdblks).run (Call.onArray g) m =
        (((disksRun parts ops disks).1, mtdblks'), m') ∧
      ShowsAll parts ks mtdblks' m' (disksRun parts ops disks).2 ∧
      (∀ x, (∀ i ∈ ks, ∀ p ∈ parts[i]?,
        x < p.offset.toNat ∨ p.offset.toNat + p.size.toNat ≤ x) → m' x = m x) ∧
      ∀ c ∈ (blockRun parts ops mtdblks).issued (Call.onArray g) m, c.Regular g := by
  induction ops generalizing mtdblks m disks with
  | nil => exact ⟨mtdblks, m, rfl, h, fun _ _ => rfl, by simp [blockRun, issued]⟩
  | cons o ops ih =>
    obtain ⟨i, op⟩ := o
    obtain ⟨hi, hfits⟩ := hops _ List.mem_cons_self
    have hops' : ∀ o ∈ ops, o.1 ∈ ks ∧ o.2.Fits := fun o ho => hops o (List.mem_cons_of_mem _ ho)
    cases hp : parts[i]? with
    | none =>
      simp only [blockRun, disksRun, hp]
      exact ih hops' h
    | some p =>
      obtain ⟨b, w, hact, hshow⟩ := blockStep_simulates (hk.blocks i hi p hp) (h i hi p hp) hfits
      rw [← hact.window] at hshow
      obtain ⟨t, m', hrun, hall, hout, hreg⟩ := ih hops' (h.update hk hi hp hshow hact.outside)
      have hres := hact.result
      refine ⟨t, m', ?_, ?_, fun x hx => ?_, fun c hc => ?_⟩
      · rw [blockRun_cons hp, disksRun_cons hp, run_bind, run_bind, hres, hrun]
        rfl
      · rw [disksRun_cons hp]
        exact hall
      · rw [hout x hx, hact.outside x (hx i hi p hp)]
      · rw [blockRun_cons hp, issued_bind, issued_bind, hres, List.mem_append,
          List.mem_append] at hc
        rcases hc with hc | hc | hc
        · exact hact.regular c hc
        · exact hreg c hc
        · exact absurd hc List.not_mem_nil

theorem restrict_flags (erasesize offset size flags : UInt32) (h : flags &&& 8 = 0) :
    restrict erasesize offset size flags &&& 8 = 0 := by
  have hmask : ∀ f : UInt32, f &&& 8 = 0 → f &&& ~~~mtdWriteable &&& 8 = 0 := by
    intro f hf
    rw [UInt32.and_assoc, UInt32.and_comm _ 8, ← UInt32.and_assoc, hf, UInt32.zero_and]
  simp only [restrict]
  split_ifs
  · exact hmask _ (hmask _ h)
  · exact hmask _ h
  · exact hmask _ h
  · exact h

theorem addPartitions_flags (m : Master) (h : m.flags &&& 8 = 0) (qs : List MtdPartition)
    (curOffset : UInt32) : ∀ p ∈ addPartitions m curOffset qs, p.flags &&& 8 = 0 := by
  induction qs generalizing curOffset with
  | nil => simp [addPartitions]
  | cons q qs ih =>
    rw [addPartitions_cons]
    intro p hp
    rcases List.mem_cons.mp hp with rfl | hp
    · refine restrict_flags _ _ _ _ ?_
      rw [UInt32.and_comm, ← UInt32.and_assoc, UInt32.and_comm 8, h, UInt32.zero_and]
    · exact ih _ p hp

/-- A writeable partition of a table for the flash can have a block device when it ends
below the end of the flash. -/
theorem blocks_of_table {g : Bank} {qs : List MtdPartition} {p : Part}
    (hp : p ∈ addMtdPartitions g.master qs) (hw : p.Writeable)
    (hbelow : p.offset.toNat + p.size.toNat < g.size) : p.Blocks g := by
  have hbank := (bank_size g).1
  have hsector := (bank_sectors g).1
  have hplaced := addPartitions_placed g.master qs 0 p hp
  have hmaster : g.master.erasesize.toNat = 65536 :=
    (UInt32.toNat_ofNat_of_lt' (show _ < 2 ^ 32 by rw [Bank.eraseSize]; omega)).trans hsector
  have herase : p.erasesize.toNat = 65536 := by rw [hplaced.single (Nat.le_refl 1), hmaster]
  have hpos : p.erasesize ≠ 0 := by
    intro hzero
    rw [hzero] at herase
    exact absurd herase (by decide)
  obtain ⟨hstart, hend⟩ := hplaced.aligned hw hpos
  have hflags := addPartitions_flags g.master (show mtdWriteable &&& 8 = 0 by decide) qs 0 p hp
  refine ⟨⟨Nat.le_of_lt hbelow, fun _ => ?_⟩, hw, ?_, hbelow, herase, fun hram => ?_⟩
  · rw [Bank.eraseSize, hsector, ← herase, ← UInt32.toNat_mod, hstart, UInt32.toNat_zero]
  · rw [spiFlashSectorSize, ← herase, ← UInt32.toNat_mod, hend, UInt32.toNat_zero]
  · have height : mtdCapRam &&& 8 = 8 := by decide
    rw [← height, ← UInt32.and_assoc, hram, height] at hflags
    exact absurd hflags (by decide)

/-- Block devices on partitions without common bytes are disks of their own, whatever the
order in which they are opened, read, written, flushed and closed: every request is answered
as by a plain disk that starts with the bytes of its partition, and once a device is closed
its partition holds the bytes of its disk. What no device covers keeps its bytes. -/
theorem mtdblock_coherent (g : Bank) (c : Chip) (busy : Nat) (d : Device)
    (qs : List MtdPartition) (ks : List Nat) (ops : List (Nat × BlockOp))
    (hw : ∀ i ∈ ks, ∀ p ∈ (addMtdPartitions g.master qs)[i]?,
      p.Writeable ∧ p.offset.toNat + p.size.toNat < g.size)
    (hapart : ∀ i ∈ ks, ∀ j ∈ ks, i ≠ j → ∀ p ∈ (addMtdPartitions g.master qs)[i]?,
      ∀ q ∈ (addMtdPartitions g.master qs)[j]?, p.Apart q)
    (hops : ∀ o ∈ ops, o.1 ∈ ks ∧ o.2.Fits)
    (hg : Genuine g d (performAll g c (Spi.init busy)
      ((blockRun (addMtdPartitions g.master qs) ops fun _ => none).issued
        (Call.onArray g) d.array)).frames) :
    let parts := addMtdPartitions g.master qs
    let disks := disksRun parts ops (closedDisks parts d.array)
    let r := (blockRun parts ops fun _ => none).run (Call.onDriver g c) (Spi.init busy)
    r.1.1 = disks.1 ∧
      (∀ i ∈ ks, ∀ p ∈ parts[i]?, (disks.2 i).opens = 0 →
        p.window (d.after r.2.frames).array = (disks.2 i).bytes) ∧
      ∀ x, (∀ i ∈ ks, ∀ p ∈ parts[i]?,
          x < p.offset.toNat ∨ p.offset.toNat + p.size.toNat ≤ x) →
        (d.after r.2.frames).array x = d.array x := by
  intro parts disks r
  have hk : Devices g parts ks := by
    refine ⟨fun i hi p hp => ?_, hapart⟩
    obtain ⟨hwrite, hbelow⟩ := hw i hi p hp
    exact blocks_of_table (List.mem_of_getElem? hp) hwrite hbelow
  obtain ⟨mtdblks, m, hrun, hall, hout, hreg⟩ :=
    blockRun_simulates hk ops hops (ShowsAll.closed parts ks d.array)
  obtain ⟨hdriver, harray⟩ := run_genuine hg hreg
  rw [hrun] at hdriver harray
  have hr : r = _ := hdriver
  rw [hr]
  refine ⟨rfl, fun i hi p hp hclosed => ?_, fun x hx => ?_⟩
  · exact (congrArg p.window harray).trans ((hall i hi p hp).closed hclosed)
  · exact (congrFun harray x).trans (hout x hx)

/-- Two sectors of CFG are written through its cache and read back before a flush, then one in
its other erase block; KERNEL is written in between. -/
theorem mtdblock_coherent_writes :
    let g : Bank := ⟨⟨64, 0x10000, 16384, 256⟩, 0x20, 0x2016, rfl⟩
    let d : Device := ⟨fun a => BitVec.ofNat 8 a, false⟩
    let parts := addMtdPartitions g.master fixedParts
    let ops := [(1, BlockOp.opened), (2, .opened), (1, .write 3 2 fun i => BitVec.ofNat 8 (255 - i)),
      (1, .read 3 1), (2, .write 0 1 fun _ => 0x5A), (1, .flush), (2, .read 0 2),
      (1, .write 128 1 fun _ => 0xA5), (1, .released), (2, .released)]
    let disks := disksRun parts ops (closedDisks parts d.array)
    ∃ c : Chip, c.waits = (fun _ => 3) ∧
      let r := (blockRun parts ops fun _ => none).run (Call.onDriver g c) (Spi.init 1)
      r.1.1 = disks.1 ∧
        (∀ i ∈ [1, 2], ∀ p ∈ parts[i]?, (disks.2 i).opens = 0 →
          p.window (d.after r.2.frames).array = (disks.2 i).bytes) ∧
        ∀ x, (∀ i ∈ [1, 2], ∀ p ∈ parts[i]?,
            x < p.offset.toNat ∨ p.offset.toNat + p.size.toNat ≤ x) →
          (d.after r.2.frames).array x = d.array x := by
  intro g d parts ops disks
  obtain ⟨c, hwaits, hgenuine⟩ := genuine_exists g d 1 (fun _ => 3)
    ((blockRun parts ops fun _ => none).issued (Call.onArray g) d.array)
  exact ⟨c, hwaits, mtdblock_coherent g c 1 d fixedParts [1, 2] ops (by decide +kernel)
    (by decide +kernel) (by decide +kernel) hgenuine⟩

end SnakeOs.Flash
