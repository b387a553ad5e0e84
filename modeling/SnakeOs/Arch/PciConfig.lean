import SnakeOs.Arch.Memory
import SnakeOs.Lib.Bits

/-! The accesses to the PCI configuration space through the two ports of the bridge. -/

namespace SnakeOs.Arch
open Lib

/-- `CONFIG_CMD`. -/
def configCmd (bus : U8) (deviceFn where' : U32) : U32 :=
  0x80000000 ||| (bus.setWidth 32 <<< 16) ||| (deviceFn <<< 8) ||| (where' &&& ~~~3)

/-- What `pci_config_addr` holds, and the configuration space by what can stand there. -/
structure ConfigPorts where
  addr : U32
  word : U32 → U32

/-- `__raw_writel` to `pci_config_addr`. -/
def ConfigPorts.writeAddr (s : ConfigPorts) (addr : U32) : ConfigPorts := { s with addr }

/-- `__raw_readl` of `pci_config_data`. -/
def ConfigPorts.readData (s : ConfigPorts) : U32 := s.word s.addr

/-- `__raw_writel` to `pci_config_data`. The bits of `w1c` are cleared by a one, the others are
plain. -/
def ConfigPorts.writeData (w1c : U32 → U32) (s : ConfigPorts) (v : U32) : ConfigPorts :=
  { s with word := Function.update s.word s.addr (writeOver (s.word s.addr) v (w1c s.addr)) }

/-- `(where & 0x3) << 3`. -/
def configShift (where' : U32) : Nat := ((where' &&& 3) <<< 3).toNat

/-- `str8100_pci_read_config`, with what it leaves in `*val`. -/
def pciReadConfig (s : ConfigPorts) (bus : U8) (devfn where' : U32) (size : Nat) :
    ConfigPorts × U32 :=
  let s' := s.writeAddr (configCmd bus devfn where')
  match size with
  | 1 => (s', (s'.readData >>> configShift where') &&& 0xFF)
  | 2 => (s', (s'.readData >>> configShift where') &&& 0xFFFF)
  | 4 => (s', s'.readData)
  | _ => (s, 0)

/-- `str8100_pci_write_config`. -/
def pciWriteConfig (w1c : U32 → U32) (s : ConfigPorts) (bus : U8) (devfn where' : U32) (size : Nat)
    (val : U32) : ConfigPorts :=
  let s' := s.writeAddr (configCmd bus devfn where')
  let shift := configShift where'
  match size with
  | 1 => s'.writeData w1c ((s'.readData &&& ~~~((0xFF : U32) <<< shift)) ||| (val <<< shift))
  | 2 => s'.writeData w1c ((s'.readData &&& ~~~((0xFFFF : U32) <<< shift)) ||| (val <<< shift))
  | 4 => s'.writeData w1c val
  | _ => s

/-- An aligned access of one, two or four bytes. -/
structure Access (where' : U32) (size : Nat) : Prop where
  kind : size = 1 ∨ size = 2 ∨ size = 4
  aligned : where'.toNat % size = 0

/-- Bit `i` of the word is in one of the addressed bytes. -/
def Addressed (where' : U32) (size i : Nat) : Prop :=
  InField (8 * (where'.toNat % 4)) (8 * size) i

instance (where' : U32) (size i : Nat) : Decidable (Addressed where' size i) :=
  inferInstanceAs (Decidable (InField _ _ _))

section
variable (w1c : U32 → U32) (s : ConfigPorts) (bus : U8) (devfn where' : U32) (size : Nat) (val : U32)

/-- A write leaves every other bit of the space alone, and plain bits take the value. -/
structure WritesOnly : Prop where
  frame : ∀ a i, ¬ (a = configCmd bus devfn where' ∧ Addressed where' size i) →
    ((pciWriteConfig w1c s bus devfn where' size val).word a).getLsbD i = (s.word a).getLsbD i
  value : (∀ i, Addressed where' size i →
      (w1c (configCmd bus devfn where')).getLsbD i = false) →
    (pciReadConfig (pciWriteConfig w1c s bus devfn where' size val) bus devfn where' size).2 = val

/-- No bit that a one clears is set in the other bytes of the word. -/
def NeighboursClear : Prop :=
  ∀ i < 32, ¬ Addressed where' size i → (s.word (configCmd bus devfn where')).getLsbD i = true →
    (w1c (configCmd bus devfn where')).getLsbD i = false

end

/-- The ones of an access, before they are shifted. -/
def sizeMask (size : Nat) : U32 := BitVec.ofNat 32 (2 ^ (8 * size) - 1)

section
variable {w1c : U32 → U32} {s : ConfigPorts} {bus : U8} {devfn where' : U32} {size : Nat} {val : U32}

theorem configShift_eq (where' : U32) : configShift where' = 8 * (where'.toNat % 4) := by
  have hmask : (3 : U32).toNat = 2 ^ 2 - 1 := rfl
  rw [configShift, BitVec.toNat_shiftLeft, BitVec.toNat_and, hmask,
    Nat.and_two_pow_sub_one_eq_mod, Nat.shiftLeft_eq]
  omega

theorem Access.mask (h : Access where' size) : (sizeMask size).toNat = 2 ^ (8 * size) - 1 := by
  rcases h.kind with rfl | rfl | rfl <;> rfl

/-- An aligned access stays in its word. -/
theorem Access.fits (h : Access where' size) : 8 * (where'.toNat % 4) + 8 * size ≤ 32 := by
  have haligned := h.aligned
  rcases h.kind with rfl | rfl | rfl <;> omega

/-- A read is a field of the word. -/
theorem Access.read (h : Access where' size) : (pciReadConfig s bus devfn where' size).2 =
    extractField (s.word (configCmd bus devfn where')) (sizeMask size)
      (8 * (where'.toNat % 4)) := by
  have haligned := h.aligned
  rw [← configShift_eq]
  rcases h.kind with rfl | rfl | rfl
  · rfl
  · rfl
  · have hmask : sizeMask 4 = BitVec.allOnes 32 := rfl
    rw [configShift_eq, haligned, extractField, hmask, BitVec.and_allOnes]
    rfl

/-- A write merges the value into the word and writes it back whole. -/
theorem Access.write (h : Access where' size) : pciWriteConfig w1c s bus devfn where' size val =
    (s.writeAddr (configCmd bus devfn where')).writeData w1c
      (mergeField (s.word (configCmd bus devfn where')) (sizeMask size) val
        (8 * (where'.toNat % 4))) := by
  have haligned := h.aligned
  rw [← configShift_eq]
  rcases h.kind with rfl | rfl | rfl
  · rfl
  · rfl
  · have hmask : sizeMask 4 = BitVec.allOnes 32 := rfl
    have hmerge : ∀ x, mergeField x (sizeMask 4) val 0 = val := by simp [mergeField, hmask]
    rw [configShift_eq, haligned, hmerge]
    rfl

/-- The words after a write. -/
theorem Access.word (h : Access where' size) (a : U32) :
    (pciWriteConfig w1c s bus devfn where' size val).word a =
      if a = configCmd bus devfn where' then
        writeOver (s.word a) (mergeField (s.word a) (sizeMask size) val
          (8 * (where'.toNat % 4))) (w1c a)
      else s.word a := by
  rw [h.write]
  by_cases ha : a = configCmd bus devfn where'
  · subst ha
    simp [ConfigPorts.writeData, ConfigPorts.writeAddr]
  · simp [ConfigPorts.writeData, ConfigPorts.writeAddr, ha]

/-- In the addressed word the other bits lose the ones of `w1c`. -/
theorem Access.outside (h : Access where' size) (hval : val.toNat < 2 ^ (8 * size)) {i : Nat}
    (hi : i < 32) (hout : ¬ Addressed where' size i) :
    ((pciWriteConfig w1c s bus devfn where' size val).word
      (configCmd bus devfn where')).getLsbD i =
      ((s.word (configCmd bus devfn where')).getLsbD i &&
        !(w1c (configCmd bus devfn where')).getLsbD i) := by
  rw [h.word, if_pos rfl, writeOver_mergeField_outside h.mask hval hi hout]

/-- Plain bytes read back as they were written, whatever the other bytes are. -/
theorem Access.readBack (h : Access where' size) (hval : val.toNat < 2 ^ (8 * size))
    (hplain : ∀ i, Addressed where' size i →
      (w1c (configCmd bus devfn where')).getLsbD i = false) :
    (pciReadConfig (pciWriteConfig w1c s bus devfn where' size val) bus devfn where' size).2 =
      val := by
  rw [h.read, h.word, if_pos rfl]
  exact extractField_writeOver h.mask hval h.fits hplain

/-- A write keeps to the addressed bytes exactly when it reads back no one that it would clear. -/
theorem config_write_only_iff (w1c : U32 → U32) (s : ConfigPorts) (bus : U8)
    (devfn where' : U32) (size : Nat) (val : U32) (h : Access where' size)
    (hval : val.toNat < 2 ^ (8 * size)) :
    WritesOnly w1c s bus devfn where' size val ↔ NeighboursClear w1c s bus devfn where' size := by
  constructor
  · intro hw i hi hout hset
    have hframe := hw.frame (configCmd bus devfn where') i fun hin => hout hin.2
    rw [h.outside hval hi hout, hset] at hframe
    simpa using hframe
  · intro hclear
    refine ⟨fun a i hout => ?_, h.readBack hval⟩
    by_cases ha : a = configCmd bus devfn where'
    · subst ha
      by_cases hi : i < 32
      · have hout' : ¬ Addressed where' size i := fun hin => hout ⟨rfl, hin⟩
        rw [h.outside hval hi hout']
        cases hset : (s.word (configCmd bus devfn where')).getLsbD i with
        | false => rfl
        | true => rw [hclear i hi hout' hset]; rfl
      · rw [BitVec.getLsbD_of_ge _ _ (by omega), BitVec.getLsbD_of_ge _ _ (by omega)]
    · rw [h.word, if_neg ha]

end

/-- The error bits of the status half. -/
def statusBits : U32 := 0xF9000000

/-- The command register of a device whose status half is `status`. -/
def commandPorts (status : U32) : ConfigPorts := ⟨0, fun _ => status ||| 0x0007⟩

theorem config_write_only_command : Access 4 2 ∧
    WritesOnly (fun _ => statusBits) (commandPorts 0x02800000) 0 8 4 2 0x0147 := by
  have h : Access 4 2 := ⟨by decide, by decide⟩
  exact ⟨h, (config_write_only_iff _ _ _ _ _ _ _ h (by decide)).mpr (by
    unfold NeighboursClear
    decide)⟩

/-- A write to the command register clears a master abort in the status half. -/
theorem config_write_status :
    ¬ WritesOnly (fun _ => statusBits) (commandPorts 0x22800000) 0 8 4 2 0x0147 := by
  intro h
  have hframe := h.frame (configCmd 0 8 4) 29 (by decide)
  exact absurd hframe (by decide)

end SnakeOs.Arch
