import Mathlib.Algebra.Group.Nat.Defs
import Mathlib.Data.List.Basic
import Mathlib.Tactic.Common
import SnakeOs.Dma.Scheduler

namespace SnakeOs.Dma
open Arch

/-- The bytes moved at a time by a source of the width asked for. -/
def Vec.widthBytes (v : Vec) : Nat :=
  if v.srcWidth = width32Bit then 4 else if v.srcWidth = width16Bit then 2 else 1

/-- A descriptor says what one element of a request asks for. -/
structure Encodes (v : Vec) (d : LlpDescr) : Prop where
  srcAddr : d.srcAddr = virtToPhys v.srcAddr
  dstAddr : d.dstAddr = virtToPhys v.dstAddr
  dstSel : d.dstSel.toNat = v.dstSel.toNat
  srcSel : d.srcSel.toNat = v.srcSel.toNat
  dstAddrCtl : d.dstAddrCtl.toNat = v.dstAddrCtl.toNat
  srcAddrCtl : d.srcAddrCtl.toNat = v.srcAddrCtl.toNat
  dstWidth : d.dstWidth.toNat = v.dstWidth.toNat
  srcWidth : d.srcWidth.toNat = v.srcWidth.toNat
  count : d.totSize.toNat * v.widthBytes = v.size.toNat

/-- The i-th of `nr` descriptors in the table at `dma` leads to the next, the last to
nothing. -/
def Links (dma : U32) (nr i : Nat) (d : LlpDescr) : Prop :=
  (i + 1 < nr → d.llp = dma + BitVec.ofNat 32 ((i + 1) * llpDescrSize) ∧ d.tcMask = 1) ∧
    (i + 1 = nr → d.llp = 0 ∧ d.tcMask = 0)

/-- The chain of a request: the first `nr_vec` of the descriptors a job has. -/
def jobChain (s : State) (j : Job) (nr : Nat) : List LlpDescr :=
  (List.range (min nr maxDmaVec)).map (s.jobs j).llpDescr

/-- A chain says what the request asks for. -/
structure ChainEncodes (dma : U32) (vec : List Vec) (chain : List LlpDescr) : Prop where
  length : chain.length = vec.length
  entries : ∀ i v d, vec[i]? = some v → chain[i]? = some d →
    Encodes v d ∧ Links dma vec.length i d

/-- An element the fields of a descriptor can hold, whose address controls are those of
its master selectors, and whose size is a whole number of units. -/
structure Vec.Fits (v : Vec) : Prop where
  dstSel : v.dstSel.toNat < 2
  srcSel : v.srcSel.toNat < 2
  dstAddrCtl : v.dstAddrCtl = v.dstSel
  srcAddrCtl : v.srcAddrCtl = v.srcSel
  dstWidth : v.dstWidth.toNat < 8
  srcWidth : v.srcWidth.toNat < 8
  whole : v.size.toNat % v.widthBytes = 0
  count : v.size.toNat / v.widthBytes ≤ 0xFFF

theorem sizeShift_bytes (v : Vec) : 2 ^ sizeShift v = v.widthBytes := by
  unfold sizeShift Vec.widthBytes
  split
  · rfl
  · split <;> rfl

/-- The count is the number of units, by its low 12 bits. -/
theorem totSize_toNat (dma : U32) (nr i : Nat) (v : Vec) :
    (llpDescrOf dma nr i v).totSize.toNat = v.size.toNat / v.widthBytes % 2 ^ 12 := by
  rw [← sizeShift_bytes]
  exact sizeField_toNat v.size (sizeShift v) (Nat.le_refl 12)

theorem count_exact_iff (dma : U32) (nr i : Nat) (v : Vec) :
    (llpDescrOf dma nr i v).totSize.toNat * v.widthBytes = v.size.toNat ↔
      v.size.toNat % v.widthBytes = 0 ∧ v.size.toNat / v.widthBytes ≤ 0xFFF := by
  rw [totSize_toNat]
  have hcases : v.widthBytes = 4 ∨ v.widthBytes = 2 ∨ v.widthBytes = 1 := by
    unfold Vec.widthBytes
    split
    · exact .inl rfl
    · split
      · exact .inr (.inl rfl)
      · exact .inr (.inr rfl)
  rcases hcases with h | h | h <;> rw [h] <;> omega

theorem encodes_iff (dma : U32) (nr i : Nat) (v : Vec) :
    Encodes v (llpDescrOf dma nr i v) ↔ v.Fits := by
  have hcount := count_exact_iff dma nr i v
  constructor
  · intro h
    obtain ⟨-, -, hds, hss, hdc, hsc, hdw, hsw, hc⟩ := h
    simp only [llpDescrOf, BitVec.toNat_setWidth] at hds hss hdc hsc hdw hsw
    obtain ⟨hwhole, hfits⟩ := hcount.mp hc
    refine ⟨by omega, by omega, ?_, ?_, by omega, by omega, hwhole, hfits⟩
    · apply BitVec.eq_of_toNat_eq
      omega
    · apply BitVec.eq_of_toNat_eq
      omega
  · intro h
    have hds := h.dstSel
    have hss := h.srcSel
    have hdw := h.dstWidth
    have hsw := h.srcWidth
    refine ⟨rfl, rfl, ?_, ?_, ?_, ?_, ?_, ?_, hcount.mpr ⟨h.whole, h.count⟩⟩
    · simp only [llpDescrOf, BitVec.toNat_setWidth]
      omega
    · simp only [llpDescrOf, BitVec.toNat_setWidth]
      omega
    · simp only [llpDescrOf, BitVec.toNat_setWidth, h.dstAddrCtl]
      omega
    · simp only [llpDescrOf, BitVec.toNat_setWidth, h.srcAddrCtl]
      omega
    · simp only [llpDescrOf, BitVec.toNat_setWidth]
      omega
    · simp only [llpDescrOf, BitVec.toNat_setWidth]
      omega

theorem llpDescrOf_links (dma : U32) (nr i : Nat) (v : Vec) :
    Links dma nr i (llpDescrOf dma nr i v) := by
  constructor
  · intro hi
    have hne : i ≠ nr - 1 := by omega
    simp [llpDescrOf, hne]
  · intro hi
    have he : i = nr - 1 := by omega
    simp [llpDescrOf, he]

/-- The descriptors of a job after the loop of `dma_copy`. -/
theorem fill_chain (s : State) {c : Copy} (rest : List Copy) {j : Job} (hpc : c.pc = .fill j)
    {i : Nat} {v : Vec} (hv : c.vec[i]? = some v) (hi : i < maxDmaVec) :
    (jobChain (stepCopy s c rest) j c.vec.length)[i]? =
      some (llpDescrOf (llpDescrDma s j) c.vec.length i v) := by
  obtain ⟨hlen, _⟩ := List.getElem?_eq_some_iff.mp hv
  have hmin : i < min c.vec.length maxDmaVec := by omega
  simp [jobChain, List.getElem?_map, List.getElem?_range hmin, stepCopy, hpc, fillJob, fillDescrs, hv]

/-- The chain an accepted `dma_copy` builds says what was asked for exactly when it has room
in the table of a job and every element fits a descriptor. -/
theorem chain_encodes_iff (s : State) (c : Copy) (rest : List Copy) (j : Job)
    (hpc : c.pc = .fill j) :
    ChainEncodes (llpDescrDma s j) c.vec (jobChain (stepCopy s c rest) j c.vec.length) ↔
      c.vec.length ≤ maxDmaVec ∧ ∀ v ∈ c.vec, v.Fits := by
  constructor
  · intro h
    have hlen : c.vec.length ≤ maxDmaVec := by
      have := h.length
      simp only [jobChain, List.length_map, List.length_range] at this
      omega
    refine ⟨hlen, fun v hv => ?_⟩
    obtain ⟨i, hi, rfl⟩ := List.getElem_of_mem hv
    have hget := List.getElem?_eq_getElem hi
    have hd := fill_chain s rest hpc hget (by omega)
    exact (encodes_iff _ _ _ _).mp (h.entries i _ _ hget hd).1
  · rintro ⟨hlen, hfits⟩
    refine ⟨by simp [jobChain, hlen], fun i v d hv hd => ?_⟩
    have hi : i < maxDmaVec := by
      obtain ⟨hi, _⟩ := List.getElem?_eq_some_iff.mp hv
      omega
    rw [fill_chain s rest hpc hv hi] at hd
    obtain rfl := Option.some.inj hd
    exact ⟨(encodes_iff _ _ _ _).mpr (hfits v (List.mem_of_getElem? hv)), llpDescrOf_links _ _ _ _⟩

/-- Words copied between two buffers of the DRAM. -/
def wordsVec : Vec := ⟨0xC0100000, 0xC0200000, 64, 0, 0, 0, 0, 2, 2⟩

/-- The driver as `dma_init` leaves it. -/
def freshState : State := init 0x100000 fun _ => ⟨0, 0, 0, 0, 0⟩

theorem wordsVec_chain : ChainEncodes (llpDescrDma freshState 0) [wordsVec, wordsVec]
    (jobChain (stepCopy freshState ⟨0, [wordsVec, wordsVec], .fill 0⟩ []) 0 2) := by
  refine (chain_encodes_iff freshState ⟨0, [wordsVec, wordsVec], .fill 0⟩ [] 0 rfl).mpr
    ⟨by decide, fun v hv => ?_⟩
  obtain rfl : v = wordsVec := by simpa using hv
  constructor <;> decide

/-- The same to a destination address that stays fixed. -/
def fixedVec : Vec := { wordsVec with dstAddrCtl := 2 }

/-- Its descriptor asks for one that counts up. -/
theorem fixedVec_counts_up : ¬ChainEncodes (llpDescrDma freshState 0) [fixedVec]
    (jobChain (stepCopy freshState ⟨0, [fixedVec], .fill 0⟩ []) 0 1) := by
  intro h
  have hctl := (h.entries 0 fixedVec _ rfl rfl).1.dstAddrCtl
  exact absurd hctl (by decide)

end SnakeOs.Dma
