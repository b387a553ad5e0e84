import Mathlib.Algebra.Group.Nat.Defs
import Mathlib.Data.List.TakeWhile
import Mathlib.Tactic.Common
import SnakeOs.Hsdma.Scheduler

namespace SnakeOs.Hsdma
open Arch Lib

/-- A transfer as `HAL_HSDMAC_ENABLE` starts it: the request, the first descriptor of its
job, and the registers. -/
structure Started where
  vec : List Vec
  descr : LlpDescr
  regs : Regs

/-- The controller and the jobs' descriptors between two transfers, with what has been
started. -/
structure Sequence where
  regs : Regs
  tables : Job → Nat → LlpDescr
  log : List Started

/-- After `hsdma_init`, with the registers found as `r`. -/
def sequenceInit (r : Regs) : Sequence :=
  ⟨{ r with control := 0x0, totSize := 0x10000000 }, fun _ _ => {}, []⟩

/-- A request and the job `hsdma_copy` gets for it. -/
structure Transfer where
  job : Job
  vec : List Vec

/-- `llp_descr_dma` of a job in the pool the controller sees at `pool`. -/
def slotDma (pool : U32) (j : Job) : U32 :=
  pool + BitVec.ofNat 32 (j.val * (maxHsdmaVec * llpDescrSize))

/-- An accepted transfer from `hsdma_copy` to the interrupt that disables the controller. -/
def transferStep (pool : U32) (s : Sequence) (a : Transfer) : Option Sequence :=
  if 1 ≤ a.vec.length ∧ a.vec.length ≤ maxHsdmaVec ∧ a.vec.all Vec.aligned then
    let table := fillDescrs (slotDma pool a.job) a.vec (s.tables a.job)
    let regs := program s.regs (table 0)
    some ⟨{ regs with control := regs.control &&& ~~~(0x1 : U32) },
      Function.update s.tables a.job table, s.log ++ [⟨a.vec, table 0, regs⟩]⟩
  else none

/-- `HSDMAC_TOT_SIZE_REG` in the layout of `hsdma_llp_descr_t`. -/
def totSizeOf (d : LlpDescr) : U32 :=
  d.totSize.setWidth 32 ||| (d.tcMask.setWidth 32 <<< 28) ||| (d.dataDirection.setWidth 32 <<< 29)

/-- The registers hold what the first descriptor says, and it has the size asked for. -/
structure Started.Exact (e : Started) : Prop where
  master0 : e.regs.master0 = if e.descr.dataDirection = 0 then e.descr.srcAddr else e.descr.dstAddr
  master1 : e.regs.master1 = if e.descr.dataDirection = 0 then e.descr.dstAddr else e.descr.srcAddr
  llp : e.regs.llp = e.descr.llp
  totSize : e.regs.totSize = totSizeOf e.descr
  size : ∃ v, e.vec.head? = some v ∧ e.descr.totSize.toNat * 4 = v.size.toNat

/-- A transfer from master 0 to master 1 whose first element is not longer than
`MAX_HSDMA_XFER_SIZE`, and whose size has every bit earlier transfers left in the size
register. -/
def Unstained (s : Sequence) (a : Transfer) : Prop :=
  ∃ v ∈ a.vec.head?, v.dataDirection.getLsbD 0 = false ∧ v.size.toNat ≤ 0xFFF * 4 ∧
    s.regs.totSize &&& ~~~(0x30000000 : U32) &&& ~~~(v.size >>> 2) = 0

theorem getLsbD_one_shift {i : Nat} (k : Nat) (hi : i < 32) :
    ((0x1 : U32) <<< k).getLsbD i = decide (i = k) := by
  simp only [BitVec.getLsbD_shiftLeft, hi, decide_true, Bool.true_and]
  by_cases hik : i < k
  · have hne : i ≠ k := by omega
    simp [hik, hne]
  · have hiff : i - k = 0 ↔ i = k := by omega
    simp [hik, BitVec.getLsbD_one, hiff]

/-- The size register as the driver assembles it. -/
theorem program_totSize (r : Regs) (d : LlpDescr) : (program r d).totSize =
    let size := (if d.dataDirection = 0 then r.totSize &&& ~~~((0x1 : U32) <<< 29)
      else r.totSize ||| ((0x1 : U32) <<< 20)) ||| d.totSize.setWidth 32
    if d.tcMask = 0 then size &&& ~~~((0x1 : U32) <<< 28) else size ||| ((0x1 : U32) <<< 28) := by
  by_cases hd : d.dataDirection = 0
  · simp only [program, hd, if_true]
  · simp only [program, hd, if_false]

/-- The flag of the terminal count replaces bit 28. -/
theorem flag_getLsbD (size : U32) (b : BitVec 1) {i : Nat} (hi : i < 32) :
    (if b = 0 then size &&& ~~~((0x1 : U32) <<< 28) else size ||| ((0x1 : U32) <<< 28)).getLsbD i =
      if i = 28 then b.getLsbD 0 else size.getLsbD i := by
  rcases BitVec.eq_zero_or_eq_one b with rfl | rfl
  · rw [if_pos (show 0#1 = 0 from rfl), BitVec.getLsbD_and, BitVec.getLsbD_not, getLsbD_one_shift 28 hi]
    by_cases h : i = 28 <;> simp [h, hi]
  · rw [if_neg (by decide), BitVec.getLsbD_or, getLsbD_one_shift 28 hi]
    by_cases h : i = 28 <;> simp [h]

theorem forward_getLsbD {r : Regs} {d : LlpDescr} (hd : d.dataDirection = 0) {i : Nat} (hi : i < 32) :
    (program r d).totSize.getLsbD i = if i = 28 then d.tcMask.getLsbD 0
      else (r.totSize.getLsbD i && !decide (i = 29)) || d.totSize.getLsbD i := by
  rw [program_totSize]
  dsimp only
  rw [flag_getLsbD _ _ hi, if_pos hd]
  simp only [BitVec.getLsbD_or, BitVec.getLsbD_and, BitVec.getLsbD_not, getLsbD_one_shift 29 hi,
    BitVec.getLsbD_setWidth, hi, decide_true, Bool.true_and]

/-- The other direction sets bit 20. -/
theorem backward_getLsbD {r : Regs} {d : LlpDescr} (hd : d.dataDirection ≠ 0) :
    (program r d).totSize.getLsbD 20 = true := by
  rw [program_totSize]
  dsimp only
  rw [flag_getLsbD _ _ (by decide), if_neg (by decide), if_neg hd, BitVec.getLsbD_or,
    BitVec.getLsbD_or, getLsbD_one_shift 20 (by decide)]
  simp

theorem totSizeOf_getLsbD (d : LlpDescr) {i : Nat} (hi : i < 32) :
    (totSizeOf d).getLsbD i = if i = 28 then d.tcMask.getLsbD 0
      else if i = 29 then d.dataDirection.getLsbD 0 else d.totSize.getLsbD i := by
  simp only [totSizeOf, BitVec.getLsbD_or, BitVec.getLsbD_shiftLeft, BitVec.getLsbD_setWidth, hi,
    decide_true, Bool.true_and]
  by_cases h28 : i = 28
  · subst h28
    simp
  · by_cases h29 : i = 29
    · subst h29
      simp
    · have hlow : i < 28 ∨ 30 ≤ i := by omega
      rcases hlow with hlow | hlow
      · have h29' : i < 29 := by omega
        simp [h28, h29, hlow, h29']
      · simp [h28, h29, BitVec.getLsbD_of_ge d.tcMask (i - 28) (by omega),
          BitVec.getLsbD_of_ge d.dataDirection (i - 29) (by omega)]

/-- The size register is right exactly for a transfer from master 0 to master 1 whose size
has every bit found there. -/
theorem totSize_exact_iff (r : Regs) (d : LlpDescr) : (program r d).totSize = totSizeOf d ↔
    d.dataDirection = 0 ∧ ∀ i < 32, i ≠ 28 → i ≠ 29 → r.totSize.getLsbD i = true →
      d.totSize.getLsbD i = true := by
  constructor
  · intro h
    have hd : d.dataDirection = 0 := by
      by_contra hd
      have hbit := backward_getLsbD (r := r) hd
      rw [h, totSizeOf_getLsbD d (by decide)] at hbit
      simp at hbit
    refine ⟨hd, fun i hi h28 h29 hset => ?_⟩
    have hbit := forward_getLsbD (r := r) hd hi
    rw [h, totSizeOf_getLsbD d hi] at hbit
    simpa [h28, h29, hset] using hbit
  · rintro ⟨hd, hall⟩
    refine BitVec.eq_of_getLsbD_eq fun i hi => ?_
    rw [forward_getLsbD hd hi, totSizeOf_getLsbD d hi]
    by_cases h28 : i = 28
    · simp [h28]
    · by_cases h29 : i = 29
      · simp [h29, hd]
      · cases hset : r.totSize.getLsbD i with
        | false => simp [h28, h29]
        | true => simp [h28, h29, hall i hi h28 h29 hset]

/-- The first descriptor of an accepted transfer. -/
theorem first_descr {a : Transfer} {v : Vec} (dma : U32) (old : Nat → LlpDescr)
    (hv : a.vec.head? = some v) (hal : a.vec.all Vec.aligned = true) :
    fillDescrs dma a.vec old 0 = llpDescrOf dma a.vec.length 0 v := by
  have htake : a.vec.takeWhile Vec.aligned = a.vec :=
    List.takeWhile_eq_self_iff.mpr (List.all_eq_true.mp hal)
  have hget : a.vec[0]? = some v := by rw [← List.head?_eq_getElem?, hv]
  simp only [fillDescrs, htake, hget]

theorem aligned_size {v : Vec} (h : v.aligned = true) : v.size.toNat % 4 = 0 := by
  simp only [Vec.aligned, decide_eq_true_eq] at h
  have hmask : (0x3 : U32).toNat = 2 ^ 2 - 1 := rfl
  have hsize := congrArg BitVec.toNat h.2.2
  rw [BitVec.toNat_and, hmask, Nat.and_two_pow_sub_one_eq_mod] at hsize
  simpa using hsize

theorem totSize_toNat (dma : U32) (nr i : Nat) (v : Vec) :
    (llpDescrOf dma nr i v).totSize.toNat = v.size.toNat / 4 % 2 ^ 12 :=
  sizeField_toNat v.size 2 (by decide)

/-- A size up to the limit is all in the descriptor. -/
theorem totSize_getLsbD {v : Vec} (h : v.size.toNat ≤ 0xFFF * 4) (dma : U32) (nr i k : Nat) :
    (llpDescrOf dma nr i v).totSize.getLsbD k = (v.size >>> 2).getLsbD k := by
  have hnat : (llpDescrOf dma nr i v).totSize.toNat = (v.size >>> 2).toNat := by
    rw [totSize_toNat, BitVec.toNat_ushiftRight, Nat.shiftRight_eq_div_pow]
    omega
  rw [BitVec.getLsbD, BitVec.getLsbD, hnat]

/-- The bits left over, as one word. -/
theorem unstained_bits (t size : U32) : t &&& ~~~(0x30000000 : U32) &&& ~~~size = 0 ↔
    ∀ i < 32, i ≠ 28 → i ≠ 29 → t.getLsbD i = true → size.getLsbD i = true := by
  have hflags : ∀ i < 32, (0x30000000 : U32).getLsbD i = (decide (i = 28) || decide (i = 29)) := by
    decide
  have hbit : ∀ i, i < 32 → (t &&& ~~~(0x30000000 : U32) &&& ~~~size).getLsbD i =
      (t.getLsbD i && !(decide (i = 28) || decide (i = 29)) && !size.getLsbD i) := by
    intro i hi
    simp only [BitVec.getLsbD_and, BitVec.getLsbD_not, hi, hflags i hi, decide_true, Bool.true_and]
  constructor
  · intro h i hi h28 h29 hset
    have hzero := hbit i hi
    rw [h] at hzero
    simpa [h28, h29, hset] using hzero
  · intro h
    refine BitVec.eq_of_getLsbD_eq fun i hi => ?_
    rw [hbit i hi]
    by_cases h28 : i = 28
    · simp [h28]
    · by_cases h29 : i = 29
      · simp [h29]
      · cases hset : t.getLsbD i with
        | false => simp
        | true => simp [h28, h29, h i hi h28 h29 hset]

theorem started_exact_iff {s : Sequence} {a : Transfer} (pool : U32) (old : Nat → LlpDescr)
    (hne : 1 ≤ a.vec.length) (hal : a.vec.all Vec.aligned = true) :
    Started.Exact ⟨a.vec, fillDescrs (slotDma pool a.job) a.vec old 0,
      program s.regs (fillDescrs (slotDma pool a.job) a.vec old 0)⟩ ↔ Unstained s a := by
  obtain ⟨v, hv⟩ : ∃ v, a.vec.head? = some v := by
    cases hvec : a.vec with
    | nil => simp [hvec] at hne
    | cons v rest => exact ⟨v, rfl⟩
  have hmem : v ∈ a.vec := List.mem_of_mem_head? hv
  have hsize := aligned_size (List.all_eq_true.mp hal v hmem)
  have hnat := totSize_toNat (slotDma pool a.job) a.vec.length 0 v
  have hdir : (llpDescrOf (slotDma pool a.job) a.vec.length 0 v).dataDirection = 0 ↔
      v.dataDirection.getLsbD 0 = false := by
    rw [← (bit_iff _).2]
    simp [llpDescrOf]
  rw [first_descr _ old hv hal]
  constructor
  · intro h
    obtain ⟨hd, hbits⟩ := (totSize_exact_iff _ _).mp h.totSize
    obtain ⟨w, hw, hcount⟩ := h.size
    obtain rfl : v = w := Option.some.inj (hv.symm.trans hw)
    dsimp only at hcount
    have hle : v.size.toNat ≤ 0xFFF * 4 := by omega
    refine ⟨v, hv, hdir.mp hd, hle, (unstained_bits _ _).mpr fun i hi h28 h29 hset => ?_⟩
    rw [← totSize_getLsbD hle]
    exact hbits i hi h28 h29 hset
  · rintro ⟨w, hw, hd, hle, hbits⟩
    obtain rfl : v = w := Option.some.inj (hv.symm.trans hw)
    have hd' := hdir.mpr hd
    have hprog : ∀ i < 32, i ≠ 28 → i ≠ 29 → s.regs.totSize.getLsbD i = true →
        (llpDescrOf (slotDma pool a.job) a.vec.length 0 v).totSize.getLsbD i = true := by
      intro i hi h28 h29 hset
      rw [totSize_getLsbD hle]
      exact (unstained_bits _ _).mp hbits i hi h28 h29 hset
    refine ⟨?_, ?_, ?_, (totSize_exact_iff _ _).mpr ⟨hd', hprog⟩, v, hv, ?_⟩
    · simp [program, hd']
    · simp [program, hd']
    · simp [program, hd']
    · dsimp only
      omega

/-- In every run of accepted transfers that are all `Unstained` each was started with registers
that say what its first descriptor says, and whether the next is depends on whether it is
`Unstained`. -/
theorem transfers_exact (pool : U32) (r : Regs) {s : Sequence}
    (h : Reach (transferStep pool) Unstained (sequenceInit r) s) :
    (∀ e ∈ s.log, e.Exact) ∧ ∀ a t, transferStep pool s a = some t →
      ∃ e, t.log = s.log ++ [e] ∧ e.vec = a.vec ∧ (e.Exact ↔ Unstained s a) := by
  have hnext : ∀ (u : Sequence) a t, transferStep pool u a = some t →
      ∃ e, t.log = u.log ++ [e] ∧ e.vec = a.vec ∧ (e.Exact ↔ Unstained u a) := by
    intro u a t ht
    simp only [transferStep] at ht
    split at ht
    · rename_i hok
      obtain rfl := Option.some.inj ht
      exact ⟨_, rfl, rfl, started_exact_iff pool _ hok.1 hok.2.2⟩
    · cases ht
  refine ⟨?_, hnext s⟩
  refine h.invariant (I := fun s => ∀ e ∈ s.log, e.Exact) (by simp [sequenceInit])
    fun u a t hu hok ht => ?_
  obtain ⟨e, hlog, _, hiff⟩ := hnext u a t ht
  intro e' he'
  rw [hlog] at he'
  rcases List.mem_append.mp he' with he' | he'
  · exact hu e' he'
  · rw [List.mem_singleton.mp he']
    exact hiff.mpr hok

instance (s : Sequence) (a : Transfer) : Decidable (Unstained s a) :=
  inferInstanceAs (Decidable (∃ v ∈ a.vec.head?, _))

/-- One element of `size` bytes, from master 0 to master 1. -/
def copyOf (size : U32) : Transfer := ⟨0, [⟨0, 0xC0100000, 0xC0200000, size⟩]⟩

def zeroRegs : Regs := ⟨0, 0, 0, 0, 0⟩

theorem growing_transfers_exact : ∃ s,
    run (transferStep 0x100000) Unstained [copyOf 4, copyOf 12] (sequenceInit zeroRegs) = some s ∧
      s.log.length = 2 ∧ ∀ e ∈ s.log, e.Exact := by
  refine ⟨_, rfl, rfl, (transfers_exact 0x100000 zeroRegs ?_).1⟩
  exact Reach.start.run [copyOf 4, copyOf 12] rfl

/-- A transfer of two words and then one of a single word: the size register asks for three. -/
theorem shrinking_transfers_stained : ∃ s,
    Reach (transferStep 0x100000) anyStep (sequenceInit zeroRegs) s ∧ ∃ e ∈ s.log, ¬e.Exact := by
  have hrun : ∃ s, run (transferStep 0x100000) anyStep [copyOf 8, copyOf 4]
      (sequenceInit zeroRegs) = some s ∧ ∃ e ∈ s.log.getLast?, e.regs.totSize = 3 ∧
        e.descr.totSize = 1 ∧ e.descr.tcMask = 0 ∧ e.descr.dataDirection = 0 :=
    ⟨_, rfl, _, rfl, rfl, rfl, rfl, rfl⟩
  obtain ⟨s, hs, e, he, hreg, hsize, htc, hdir⟩ := hrun
  refine ⟨s, Reach.start.run [copyOf 8, copyOf 4] hs, e, List.mem_of_getLast? he, fun hx => ?_⟩
  have htot := hx.totSize
  rw [hreg, totSizeOf, hsize, htc, hdir] at htot
  exact absurd htot (by decide)

end SnakeOs.Hsdma
