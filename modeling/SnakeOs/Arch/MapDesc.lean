import SnakeOs.Arch.Memory
import SnakeOs.Lib.Windows

/-! The static mappings of the board and the two lookups in them. -/

namespace SnakeOs.Arch
open Lib

def pageShift : Nat := 12

/-- `__phys_to_pfn`. -/
def physToPfn (paddr : U32) : U32 := paddr >>> pageShift

def mtDevice : Nat := 0

structure MapDesc where
  virtual : U32
  pfn : U32
  length : U32
  type : Nat
deriving DecidableEq

/-- One page for the registers of a device. -/
def devicePage (virtual phys : U32) : MapDesc := ⟨virtual, physToPfn phys, 0x1000, mtDevice⟩

/-- The page of the interrupt controller is the last one of the address space. -/
def vicDesc : MapDesc := devicePage 0xFFF1B000 0xFFFFF000

/-- The entries of `str8100_std_desc` but the last one. -/
def deviceDescs : List MapDesc :=
  [devicePage 0xFFF00000 0x18000000, devicePage 0xFFF01000 0x60000000,
    devicePage 0xFFF02000 0x70000000, devicePage 0xFFF03000 0x71000000,
    devicePage 0xFFF04000 0x71000000, devicePage 0xFFF05000 0x71000000,
    devicePage 0xFFF06000 0x71000000, devicePage 0xFFF07000 0x72000000,
    devicePage 0xFFF08000 0x73000000, devicePage 0xFFF0A000 0x74000000,
    devicePage 0xFFF0B000 0x76000000, devicePage 0xFFF0C000 0x77000000,
    devicePage 0xFFF0D000 0x78000000, devicePage 0xFFF0E000 0x78800000,
    devicePage 0xFFF0F000 0x79000000, devicePage 0xFFF10000 0x7A000000,
    devicePage 0xFFF11000 0x7B000000, devicePage 0xFFF12000 0x7C000000,
    devicePage 0xFFF13000 0x7C800000, devicePage 0xFFF14000 0xA0000000,
    devicePage 0xFFF15000 0xA4000000, devicePage 0xFFF16000 0xC0000000,
    devicePage 0xFFF17000 0xC4000000, devicePage 0xFFF18000 0xC8000000,
    devicePage 0xFFF19000 0xCC000000, devicePage 0xFFF1A000 0xD0000000,
    ⟨0xFF000000, physToPfn 0x11000000, 0x800000, mtDevice⟩]

/-- `str8100_std_desc`. -/
def stdDesc : List MapDesc := deviceDescs ++ [vicDesc]

/-- `str8100_map_desc` and the number of entries that count. -/
structure Registered where
  desc : Nat → MapDesc
  count : Nat

/-- `str8100_register_map_desc`. -/
def registerMapDesc (map : List MapDesc) (r : Registered) : Registered :=
  if map.length = 0 then r
  else ⟨fun i => (map[i]?).getD (r.desc i), map.length⟩

/-- What `str8100_map_io` registers. -/
def mapIo (r : Registered) : Registered := registerMapDesc stdDesc r

/-- The entries that the lookups go through. -/
def Registered.entries (r : Registered) : List MapDesc := (List.range r.count).map r.desc

def MapDesc.phys (m : MapDesc) : U32 := m.pfn <<< pageShift

/-- `addr >= base && addr < base + length`. -/
def within (base length addr : U32) : Bool := base ≤ addr && addr < base + length

def queryMapDescByPhy (r : Registered) (addr : U32) : U32 :=
  match r.entries.find? fun m => within m.phys m.length addr with
  | some m => m.virtual + (addr - m.phys)
  | none => 0

def queryMapDescByVir (r : Registered) (addr : U32) : U32 :=
  match r.entries.find? fun m => within m.virtual m.length addr with
  | some m => m.phys + (addr - m.virtual)
  | none => 0

/-- An entry as a window from its physical to its virtual addresses. -/
def MapDesc.window (m : MapDesc) : Window := ⟨m.phys.toNat, m.virtual.toNat, m.length.toNat⟩

def MapDesc.InPhys (m : MapDesc) (addr : U32) : Prop := m.window.Covers addr.toNat

def MapDesc.InVirt (m : MapDesc) (addr : U32) : Prop := m.window.flip.Covers addr.toNat

/-- The lookups agree with the table about an address. -/
structure Translated (r : Registered) (addr : U32) : Prop where
  inside : (∃ m ∈ stdDesc, m.InPhys addr) → ∃ m ∈ stdDesc, m.InPhys addr ∧
    m.InVirt (queryMapDescByPhy r addr) ∧
    (queryMapDescByPhy r addr).toNat % 2 ^ pageShift = addr.toNat % 2 ^ pageShift ∧
    queryMapDescByVir r (queryMapDescByPhy r addr) = addr
  outside : (∀ m ∈ stdDesc, ¬ m.InPhys addr) → queryMapDescByPhy r addr = 0

/-- The registered table is the one that was given. -/
theorem registerMapDesc_entries {map : List MapDesc} (h : map ≠ []) (r : Registered) :
    (registerMapDesc map r).entries = map := by
  rw [registerMapDesc, if_neg (fun hl => h (List.length_eq_zero_iff.mp hl))]
  refine List.ext_getElem (by simp [Registered.entries]) fun i hi hi' => ?_
  simp [Registered.entries, List.getElem?_eq_getElem hi']

theorem within_iff {base length addr : U32} (h : base.toNat + length.toNat < 2 ^ 32) :
    within base length addr = true ↔
      base.toNat ≤ addr.toNat ∧ addr.toNat < base.toNat + length.toNat := by
  simp only [within, Bool.and_eq_true, decide_eq_true_eq, BitVec.le_def, BitVec.lt_def,
    BitVec.toNat_add, Nat.mod_eq_of_lt h]

/-- A range that ends with the address space has nothing in it. -/
theorem within_top {base length : U32} (h : base + length = 0) (addr : U32) :
    within base length addr = false := by
  simp [within, h]

/-- The entries but the last one end before the address space does. -/
theorem deviceDescs_fit : ∀ m ∈ deviceDescs, m.phys.toNat + m.length.toNat ≤ 0xFFFFF000 := by
  decide +kernel

/-- The virtual ranges start above zero, end before the address space does and keep the offset
within a page. -/
theorem stdDesc_fit : ∀ m ∈ stdDesc, 0 < m.virtual.toNat ∧
    m.virtual.toNat + m.length.toNat < 2 ^ 32 ∧ m.phys.toNat + m.length.toNat ≤ 2 ^ 32 ∧
    m.virtual.toNat % 2 ^ pageShift = m.phys.toNat % 2 ^ pageShift := by
  decide +kernel

theorem stdDesc_apart : KeptApart (stdDesc.map MapDesc.window) := by decide +kernel

theorem vicDesc_inPhys (addr : U32) : vicDesc.InPhys addr ↔ 0xFFFFF000 ≤ addr.toNat := by
  have hwindow : vicDesc.window = ⟨0xFFFFF000, 0xFFF1B000, 0x1000⟩ := by decide
  simp only [MapDesc.InPhys, hwindow, Window.Covers]
  omega

theorem deviceDescs_mem {m : MapDesc} (h : m ∈ deviceDescs) : m ∈ stdDesc :=
  List.mem_append_left _ h

/-- A sum that stays in the address space is exact. -/
theorem toNat_moved {base addr start : U32} (hstart : start.toNat ≤ addr.toNat)
    (h : base.toNat + (addr.toNat - start.toNat) < 2 ^ 32) :
    (base + (addr - start)).toNat = base.toNat + (addr.toNat - start.toNat) := by
  rw [BitVec.toNat_add, BitVec.toNat_sub_of_le hstart, Nat.mod_eq_of_lt h]

section
variable {r : Registered} (hr : r.entries = stdDesc) (addr : U32)

include hr

/-- The lookup of a physical address does not see the last entry. -/
theorem queryMapDescByPhy_eq : (queryMapDescByPhy r addr).toNat =
    (translate (deviceDescs.map MapDesc.window) addr.toNat).getD 0 := by
  have hcovers : ∀ m ∈ deviceDescs,
      within m.phys m.length addr = decide (m.window.Covers addr.toNat) := by
    intro m hm
    have hfit := deviceDescs_fit m hm
    rw [Bool.eq_iff_iff, within_iff (by omega), decide_eq_true_iff]
    rfl
  have hfind : r.entries.find? (fun m => within m.phys m.length addr) =
      deviceDescs.find? (fun m => within m.phys m.length addr) := by
    have htop : within vicDesc.phys vicDesc.length addr = false := within_top (by decide) addr
    rw [hr, stdDesc, List.find?_append, List.find?_cons_of_neg (by simp [htop]), List.find?_nil,
      Option.or_none]
  rw [queryMapDescByPhy, hfind, ← find?_translate hcovers]
  cases hf : deviceDescs.find? (fun m => within m.phys m.length addr) with
  | none => rfl
  | some m =>
    have hm := List.mem_of_find?_eq_some hf
    have hfit := deviceDescs_fit m hm
    obtain ⟨-, hvirtual, -⟩ := stdDesc_fit m (deviceDescs_mem hm)
    have hin : within m.phys m.length addr = true := by simpa using List.find?_some hf
    obtain ⟨hlow, hhigh⟩ := (within_iff (by omega)).mp hin
    exact toNat_moved hlow (by omega)

/-- The lookup of a virtual address sees them all. -/
theorem queryMapDescByVir_eq : (queryMapDescByVir r addr).toNat =
    (translate ((stdDesc.map MapDesc.window).map Window.flip) addr.toNat).getD 0 := by
  have hcovers : ∀ m ∈ stdDesc,
      within m.virtual m.length addr = decide (m.window.flip.Covers addr.toNat) := by
    intro m hm
    obtain ⟨-, hfit, -⟩ := stdDesc_fit m hm
    rw [Bool.eq_iff_iff, within_iff hfit, decide_eq_true_iff]
    rfl
  rw [queryMapDescByVir, hr, List.map_map,
    ← find?_translate (f := Window.flip ∘ MapDesc.window) hcovers]
  cases hf : stdDesc.find? (fun m => within m.virtual m.length addr) with
  | none => rfl
  | some m =>
    obtain ⟨-, hfit, hphys, -⟩ := stdDesc_fit m (List.mem_of_find?_eq_some hf)
    have hin : within m.virtual m.length addr = true := by simpa using List.find?_some hf
    obtain ⟨hlow, hhigh⟩ := (within_iff hfit).mp hin
    exact toNat_moved hlow (by omega)

/-- An address in an entry that the lookup sees goes there and back. -/
theorem query_back {m : MapDesc} (hm : m ∈ stdDesc) (hin : m.InPhys addr)
    (hq : (queryMapDescByPhy r addr).toNat = m.window.map addr.toNat) :
    m.InVirt (queryMapDescByPhy r addr) ∧
      (queryMapDescByPhy r addr).toNat % 2 ^ pageShift = addr.toNat % 2 ^ pageShift ∧
      queryMapDescByVir r (queryMapDescByPhy r addr) = addr := by
  obtain ⟨-, -, -, hoffset⟩ := stdDesc_fit m hm
  refine ⟨?_, ?_, ?_⟩
  · rw [MapDesc.InVirt, hq]
    exact (Window.map_covers hin).1
  · have hlow : m.phys.toNat ≤ addr.toNat := hin.1
    rw [hq]
    simp only [Window.map, MapDesc.window, pageShift] at hoffset ⊢
    omega
  · apply BitVec.eq_of_toNat_eq
    rw [queryMapDescByVir_eq hr, hq,
      translate_back stdDesc_apart (List.mem_map_of_mem hm) hin, Option.getD_some]

/-- Below the page of the interrupt controller the lookups agree with the table. -/
theorem translated_below (h : addr.toNat < 0xFFFFF000) : Translated r addr := by
  have hdevice : ∀ m ∈ stdDesc, m.InPhys addr → m ∈ deviceDescs := by
    intro m hm hin
    rcases List.mem_append.mp hm with hm | hm
    · exact hm
    · rw [List.mem_singleton.mp hm, vicDesc_inPhys] at hin
      omega
  cases ht : translate (deviceDescs.map MapDesc.window) addr.toNat with
  | none =>
    have hnone := translate_eq_none.mp ht
    refine ⟨?_, fun _ => ?_⟩
    · rintro ⟨m, hm, hin⟩
      exact absurd hin (hnone m.window (List.mem_map_of_mem (hdevice m hm hin)))
    · apply BitVec.eq_of_toNat_eq
      rw [queryMapDescByPhy_eq hr, ht]
      rfl
  | some b =>
    obtain ⟨w, hw, hcovers, rfl⟩ := translate_some ht
    obtain ⟨m, hm, rfl⟩ := List.mem_map.mp hw
    have hq : (queryMapDescByPhy r addr).toNat = m.window.map addr.toNat := by
      rw [queryMapDescByPhy_eq hr, ht, Option.getD_some]
    have hstd := deviceDescs_mem hm
    exact ⟨fun _ => ⟨m, hstd, hcovers, query_back hr addr hstd hcovers hq⟩,
      fun hnone => absurd hcovers (hnone m hstd)⟩

/-- In that page the lookup finds nothing. -/
theorem query_vic (h : 0xFFFFF000 ≤ addr.toNat) : queryMapDescByPhy r addr = 0 := by
  apply BitVec.eq_of_toNat_eq
  have hnone : translate (deviceDescs.map MapDesc.window) addr.toNat = none := by
    refine translate_eq_none.mpr fun w hw hcovers => ?_
    obtain ⟨m, hm, rfl⟩ := List.mem_map.mp hw
    have hfit := deviceDescs_fit m hm
    have hhigh : addr.toNat < m.phys.toNat + m.length.toNat := hcovers.2
    omega
  rw [queryMapDescByPhy_eq hr, hnone]
  rfl

end

theorem mapIo_entries (r : Registered) : (mapIo r).entries = stdDesc :=
  registerMapDesc_entries (by simp [stdDesc]) r

/-- The lookups agree with the table exactly below the last page of the address space. -/
theorem translated_iff (r : Registered) (addr : U32) :
    Translated (mapIo r) addr ↔ addr.toNat < 0xFFFFF000 := by
  constructor
  · intro h
    by_contra hlast
    have hvic : vicDesc.InPhys addr := (vicDesc_inPhys addr).mpr (by omega)
    obtain ⟨m, hm, -, hvirt, -⟩ := h.inside ⟨vicDesc, by simp [stdDesc], hvic⟩
    rw [query_vic (mapIo_entries r) addr (by omega)] at hvirt
    have hpos := (stdDesc_fit m hm).1
    have hlow : m.virtual.toNat ≤ 0 := hvirt.1
    omega
  · exact translated_below (mapIo_entries r) addr

/-- The first register of the interrupt controller is not found. -/
theorem not_translated : ¬ Translated (mapIo ⟨fun _ => vicDesc, 0⟩) 0xFFFFF000 := by
  intro h
  have hvic : vicDesc.InPhys 0xFFFFF000 := (vicDesc_inPhys _).mpr (by decide)
  obtain ⟨m, hm, -, hvirt, -⟩ := h.inside ⟨vicDesc, by simp [stdDesc], hvic⟩
  rw [query_vic (mapIo_entries _) _ (by decide)] at hvirt
  have hpos := (stdDesc_fit m hm).1
  have hlow : m.virtual.toNat ≤ 0 := hvirt.1
  omega

end SnakeOs.Arch
