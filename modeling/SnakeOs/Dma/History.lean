import Mathlib.Tactic.IntervalCases
import SnakeOs.Dma.Chain

namespace SnakeOs.Dma
open Arch

/-! The control word. -/

/-- The bits `dma_process_xfer_job` clears before it sets a field. -/
def clearedBits : U32 := 0x80001B78

/-- The bits of a field that it does not clear: both selectors and the top bit of both
widths. -/
def leakyBits : U32 := 0x2406

/-- The control bits a descriptor asks for. -/
def fieldsOf (d : LlpDescr) : U32 :=
  (d.tcMask.setWidth 32 <<< 31) ||| (d.srcWidth.setWidth 32 <<< srcWidthBit) |||
    (d.dstWidth.setWidth 32 <<< dstWidthBit) ||| (d.srcAddrCtl.setWidth 32 <<< srcAddrCtlBit) |||
    (d.dstAddrCtl.setWidth 32 <<< dstAddrCtlBit) ||| (d.srcSel.setWidth 32 <<< srcSelBit) |||
    (d.dstSel.setWidth 32 <<< dstSelBit)

theorem csrOf_eq (csr : U32) (d : LlpDescr) :
    csrOf csr d = (csr &&& ~~~clearedBits) ||| fieldsOf d := by
  refine BitVec.eq_of_getLsbD_eq fun i hi => ?_
  rcases BitVec.eq_zero_or_eq_one d.tcMask with h | h
  · simp only [csrOf, fieldsOf, h, clearedBits]
    interval_cases i <;> simp [srcWidthMask, srcWidthBit, dstWidthMask, dstWidthBit, srcAddrCtlMask,
      srcAddrCtlBit, dstAddrCtlMask, dstAddrCtlBit, srcSelBit, dstSelBit]
  · simp only [csrOf, fieldsOf, h, clearedBits]
    interval_cases i <;> simp [srcWidthMask, srcWidthBit, dstWidthMask, dstWidthBit, srcAddrCtlMask,
      srcAddrCtlBit, dstAddrCtlMask, dstAddrCtlBit, srcSelBit, dstSelBit]

/-- A descriptor asks for nothing outside these bits. -/
theorem fieldsOf_outside (d : LlpDescr) {i : Nat} (hi : i < 32) (hc : clearedBits.getLsbD i = false)
    (hl : leakyBits.getLsbD i = false) : (fieldsOf d).getLsbD i = false := by
  have hplace : i = 0 ∨ i = 7 ∨ (14 ≤ i ∧ i ≤ 30) := by
    revert hc hl
    unfold clearedBits leakyBits
    interval_cases i <;> simp
  simp only [fieldsOf, srcWidthBit, dstWidthBit, srcAddrCtlBit, dstAddrCtlBit, srcSelBit, dstSelBit,
    BitVec.getLsbD_or, BitVec.getLsbD_shiftLeft, BitVec.getLsbD_setWidth]
  rcases hplace with rfl | rfl | ⟨hlo, hhi⟩
  · simp
  · simp
  · have h31 : i < 31 := by omega
    simp [h31, BitVec.getLsbD_of_ge d.srcWidth (i - 11) (by omega),
      BitVec.getLsbD_of_ge d.dstWidth (i - 8) (by omega),
      BitVec.getLsbD_of_ge d.srcAddrCtl (i - 5) (by omega),
      BitVec.getLsbD_of_ge d.dstAddrCtl (i - 3) (by omega),
      BitVec.getLsbD_of_ge d.srcSel (i - 2) (by omega),
      BitVec.getLsbD_of_ge d.dstSel (i - 1) (by omega)]

/-- What descriptors started before may leave in the control word. -/
def leaked (ds : List LlpDescr) : U32 := ds.foldr (fun d acc => (fieldsOf d &&& leakyBits) ||| acc) 0

theorem getLsbD_leaked (ds : List LlpDescr) (i : Nat) : (leaked ds).getLsbD i = true ↔
    leakyBits.getLsbD i = true ∧ ∃ d ∈ ds, (fieldsOf d).getLsbD i = true := by
  induction ds with
  | nil => simp [leaked]
  | cons d ds ih =>
    have hcons : leaked (d :: ds) = (fieldsOf d &&& leakyBits) ||| leaked ds := rfl
    rw [hcons, BitVec.getLsbD_or, BitVec.getLsbD_and, Bool.or_eq_true, Bool.and_eq_true, ih]
    constructor
    · rintro (⟨hf, hl⟩ | ⟨hl, q, hq, hf⟩)
      · exact ⟨hl, d, List.mem_cons_self, hf⟩
      · exact ⟨hl, q, List.mem_cons_of_mem d hq, hf⟩
    · rintro ⟨hl, q, hq, hf⟩
      rcases List.mem_cons.mp hq with rfl | hq
      · exact .inl ⟨hf, hl⟩
      · exact .inr ⟨hl, q, hq, hf⟩

/-- The control word of a channel on which the descriptors `ds` have been started, in the
bits that are neither cleared for the next nor the enable bit. -/
def Control (csr : U32) (ds : List LlpDescr) : Prop :=
  ∀ i < 32, i ≠ 0 → clearedBits.getLsbD i = false →
    csr.getLsbD i = (defaultChCtl.getLsbD i || (leaked ds).getLsbD i)

theorem enable_getLsbD {csr : U32} {i : Nat} (hi : i ≠ 0) :
    (csr ||| 0x1).getLsbD i = csr.getLsbD i := by
  simp [hi]

theorem disable_getLsbD {csr : U32} {i : Nat} (h : i < 32) (hi : i ≠ 0) :
    (csr &&& ~~~(0x1 : U32)).getLsbD i = csr.getLsbD i := by
  rw [BitVec.getLsbD_and, BitVec.getLsbD_not]
  simp [h, hi]

theorem channelInit_control (r : Regs) : Control (channelInit r).csr [] := by
  intro i _ _ _
  simp [channelInit, leaked]

theorem Control.disable {r : Regs} {ds : List LlpDescr} (h : Control r.csr ds) :
    Control (disableChannel r).csr ds := by
  intro i hi h0 hc
  rw [disableChannel, disable_getLsbD hi h0]
  exact h i hi h0 hc

theorem program_getLsbD (r : Regs) (d : LlpDescr) {i : Nat} (hi : i < 32) (h0 : i ≠ 0) :
    (program r d).csr.getLsbD i =
      ((r.csr.getLsbD i && !clearedBits.getLsbD i) || (fieldsOf d).getLsbD i) := by
  simp only [program, enableChannel, enable_getLsbD h0, csrOf_eq, BitVec.getLsbD_or,
    BitVec.getLsbD_and, BitVec.getLsbD_not, hi, decide_true, Bool.true_and]

theorem Control.program {r : Regs} {ds : List LlpDescr} (h : Control r.csr ds) (d : LlpDescr) :
    Control (program r d).csr (d :: ds) := by
  intro i hi h0 hc
  have hcons : leaked (d :: ds) = (fieldsOf d &&& leakyBits) ||| leaked ds := rfl
  rw [program_getLsbD r d hi h0, h i hi h0 hc, hc, hcons, BitVec.getLsbD_or, BitVec.getLsbD_and]
  cases hl : leakyBits.getLsbD i with
  | true => simp [Bool.or_comm, Bool.or_left_comm]
  | false => simp [fieldsOf_outside d hi hc hl]

/-- The control word for a descriptor, without the enable bit: its own fields beside the
burst size, priority, mode and handshake of `DEFAULT_DMA_CH_CTL`. -/
def expectedCsr (d : LlpDescr) : U32 := defaultChCtl ||| fieldsOf d

/-- A descriptor started before has set a bit that is not cleared for this one. -/
def Leaks (old new : LlpDescr) : Prop :=
  (old.dstSel = 1 ∧ new.dstSel = 0) ∨ (old.srcSel = 1 ∧ new.srcSel = 0) ∨
    (old.dstWidth.getLsbD 2 = true ∧ new.dstWidth.getLsbD 2 = false) ∨
    (old.srcWidth.getLsbD 2 = true ∧ new.srcWidth.getLsbD 2 = false)

theorem leakyBits_iff {i : Nat} (hi : i < 32) :
    leakyBits.getLsbD i = true ↔ i = 1 ∨ i = 2 ∨ i = 10 ∨ i = 13 := by
  unfold leakyBits
  interval_cases i <;> simp

theorem fieldsOf_leaky (d : LlpDescr) : (fieldsOf d).getLsbD 1 = d.dstSel.getLsbD 0 ∧
    (fieldsOf d).getLsbD 2 = d.srcSel.getLsbD 0 ∧ (fieldsOf d).getLsbD 10 = d.dstWidth.getLsbD 2 ∧
    (fieldsOf d).getLsbD 13 = d.srcWidth.getLsbD 2 := by
  simp [fieldsOf, srcWidthBit, dstWidthBit, srcAddrCtlBit, dstAddrCtlBit, srcSelBit, dstSelBit]

/-- The leaks of a descriptor are the bits it leaves. -/
theorem leaks_iff {old new : LlpDescr} : Leaks old new ↔ ∃ i < 32, leakyBits.getLsbD i = true ∧
    (fieldsOf old).getLsbD i = true ∧ (fieldsOf new).getLsbD i = false := by
  obtain ⟨ho1, ho2, ho10, ho13⟩ := fieldsOf_leaky old
  obtain ⟨hn1, hn2, hn10, hn13⟩ := fieldsOf_leaky new
  constructor
  · rintro (⟨ho, hn⟩ | ⟨ho, hn⟩ | ⟨ho, hn⟩ | ⟨ho, hn⟩)
    · exact ⟨1, by decide, by decide, ho1.trans ((bit_iff _).1.mpr ho),
        hn1.trans ((bit_iff _).2.mpr hn)⟩
    · exact ⟨2, by decide, by decide, ho2.trans ((bit_iff _).1.mpr ho),
        hn2.trans ((bit_iff _).2.mpr hn)⟩
    · exact ⟨10, by decide, by decide, ho10.trans ho, hn10.trans hn⟩
    · exact ⟨13, by decide, by decide, ho13.trans ho, hn13.trans hn⟩
  · rintro ⟨i, hi, hl, ho, hn⟩
    rcases (leakyBits_iff hi).mp hl with rfl | rfl | rfl | rfl
    · exact .inl ⟨(bit_iff _).1.mp (ho1.symm.trans ho), (bit_iff _).2.mp (hn1.symm.trans hn)⟩
    · exact .inr (.inl ⟨(bit_iff _).1.mp (ho2.symm.trans ho), (bit_iff _).2.mp (hn2.symm.trans hn)⟩)
    · exact .inr (.inr (.inl ⟨ho10.symm.trans ho, hn10.symm.trans hn⟩))
    · exact .inr (.inr (.inr ⟨ho13.symm.trans ho, hn13.symm.trans hn⟩))

/-- Where the default has a bit, nothing leaks. -/
theorem leaky_not_default {i : Nat} (hi : i < 32) (hl : leakyBits.getLsbD i = true) :
    clearedBits.getLsbD i = false ∧ defaultChCtl.getLsbD i = false ∧ i ≠ 0 := by
  rcases (leakyBits_iff hi).mp hl with rfl | rfl | rfl | rfl <;> decide

theorem cleared_not_default {i : Nat} (hi : i < 32) (hc : clearedBits.getLsbD i = true) :
    defaultChCtl.getLsbD i = false := by
  revert hc
  unfold clearedBits defaultChCtl
  interval_cases i <;> decide

theorem expectedCsr_zero (d : LlpDescr) : (expectedCsr d).getLsbD 0 = false := by
  rw [expectedCsr, BitVec.getLsbD_or, fieldsOf_outside d (by decide) (by decide) (by decide)]
  decide

/-- A channel is programmed as the descriptor says exactly when none of the descriptors
started on it before leaks into it. -/
theorem program_csr_iff {r : Regs} {ds : List LlpDescr} (h : Control r.csr ds) (d : LlpDescr) :
    (program r d).csr &&& ~~~(0x1 : U32) = expectedCsr d ↔ ∀ old ∈ ds, ¬Leaks old d := by
  constructor
  · intro he old hold hleak
    obtain ⟨i, hi, hl, hset, hclear⟩ := leaks_iff.mp hleak
    obtain ⟨hc, hdef, h0⟩ := leaky_not_default hi hl
    have hbit : (program r d).csr.getLsbD i = (expectedCsr d).getLsbD i := by
      rw [← he, disable_getLsbD hi h0]
    have hleft : (leaked ds).getLsbD i = true := (getLsbD_leaked ds i).mpr ⟨hl, old, hold, hset⟩
    rw [program_getLsbD r d hi h0, h i hi h0 hc, expectedCsr, BitVec.getLsbD_or] at hbit
    simp [hc, hdef, hclear, hleft] at hbit
  · intro hno
    refine BitVec.eq_of_getLsbD_eq fun i hi => ?_
    by_cases h0 : i = 0
    · subst h0
      rw [expectedCsr_zero]
      simp
    · rw [disable_getLsbD hi h0, program_getLsbD r d hi h0, expectedCsr, BitVec.getLsbD_or]
      cases hc : clearedBits.getLsbD i with
      | true => simp [cleared_not_default hi hc]
      | false =>
        rw [h i hi h0 hc]
        cases hl : (leaked ds).getLsbD i with
        | false => simp
        | true =>
          obtain ⟨hleaky, old, hold, hset⟩ := (getLsbD_leaked ds i).mp hl
          have hnew : (fieldsOf d).getLsbD i = true := by
            by_contra hn
            exact hno old hold (leaks_iff.mpr ⟨i, hi, hleaky, hset, by simpa using hn⟩)
          simp [hnew]

/-! The channels of the driver. -/

theorem serve_regs (s : State) (status : Int) (i : Channel) :
    (serve s status i).regs = Function.update s.regs i (disableChannel (s.regs i)) := by
  unfold serve
  dsimp only
  split <;> rfl

/-- Every channel of the driver has a control word that some descriptors left. -/
def Controlled (s : State) : Prop := ∀ i, ∃ ds, Control (s.regs i).csr ds

theorem Controlled.update {s t : State} (h : Controlled s) {i : Channel} {r : Regs}
    {ds : List LlpDescr} (hr : t.regs = Function.update s.regs i r) (hc : Control r.csr ds) :
    Controlled t := by
  intro k
  rw [hr]
  by_cases hk : k = i
  · subst hk
    rw [Function.update_self]
    exact ⟨ds, hc⟩
  · rw [Function.update_of_ne hk]
    exact h k

theorem serve_controlled {s : State} (h : Controlled s) (status : Int) (i : Channel) :
    Controlled (serve s status i) := by
  obtain ⟨ds, hds⟩ := h i
  exact h.update (serve_regs s status i) hds.disable

theorem xferLoop_controlled {s : State} (h : Controlled s) (q : List Job) :
    Controlled (xferLoop q s) := by
  induction q generalizing s with
  | nil => exact h
  | cons j q ih =>
    simp only [xferLoop]
    cases freeChannel s with
    | none =>
      dsimp only
      split
      · exact h
      · exact ih h
    | some i =>
      obtain ⟨ds, hds⟩ := h i
      have hstart : Controlled (startJob s j i) :=
        h.update rfl (hds.program ((s.jobs j).llpDescr 0))
      dsimp only
      split
      · exact hstart
      · exact ih hstart

theorem stepCopy_regs (s : State) (c : Copy) (rest : List Copy) :
    (stepCopy s c rest).regs = s.regs := by
  unfold stepCopy
  repeat' split <;> try rfl

/-- In every state the driver can be in, what a channel's control word holds besides the
cleared bits is the default and what descriptors started on it leaked. -/
theorem reachable_controlled {s : State} (h : Reachable s) : Controlled s := by
  obtain ⟨pool, r, hr⟩ := h
  refine hr.invariant (I := Controlled) (fun i => ⟨[], channelInit_control _⟩)
    fun u a t hu _ ht => ?_
  cases a with
  | call vec =>
    simp only [step] at ht
    split at ht
    · obtain rfl := Option.some.inj ht
      exact hu
    · cases ht
  | copy k =>
    obtain ⟨c, _, rfl⟩ := Option.map_eq_some_iff.mp ht
    intro i
    rw [stepCopy_regs]
    exact hu i
  | startXfer | startDone | tcEvent i | errEvent i =>
    simp only [step] at ht
    split at ht
    · obtain rfl := Option.some.inj ht
      exact hu
    · cases ht
  | work =>
    simp only [step, stepWorker] at ht
    split at ht
    · cases ht
    · split at ht <;> obtain rfl := Option.some.inj ht <;> exact hu
    · obtain rfl := Option.some.inj ht
      exact xferLoop_controlled hu u.xferQ
    · obtain rfl := Option.some.inj ht
      cases u.doneQ.head? <;> exact hu
    · obtain rfl := Option.some.inj ht
      exact hu
    · obtain rfl := Option.some.inj ht
      exact hu
    · rename_i t' _
      obtain rfl := Option.some.inj ht
      cases t' <;> exact hu
  | tcIsr =>
    obtain rfl := Option.some.inj ht
    unfold dmaTcIsr
    split
    · exact hu
    · rename_i i _
      exact serve_controlled hu responseOk i
  | errIsr =>
    obtain rfl := Option.some.inj ht
    unfold dmaErrIsr
    split
    · exact hu
    · rename_i i _
      exact serve_controlled hu responseErr i

/-! Histories of one channel. -/

/-- `llp_descr_dma` of a job in the pool the controller sees at `pool`. -/
def slotDma (pool : U32) (j : Job) : U32 :=
  pool + BitVec.ofNat 32 (j.val * (maxDmaVec * llpDescrSize))

/-- The descriptors in memory, those of job `j` from `32 * j` on. -/
abbrev DescrMemory := Nat → LlpDescr

/-- The loop of `dma_copy` for job `j`: a request of more elements than a job has descriptors
goes on into those of the next. -/
def fillSlot (pool : U32) (j : Job) (vec : List Vec) (memory : DescrMemory) : DescrMemory :=
  fun k =>
    if j.val * maxDmaVec ≤ k then
      fillDescrs (slotDma pool j) vec (fun i => memory (j.val * maxDmaVec + i))
        (k - j.val * maxDmaVec)
    else memory k

/-- A channel, the descriptors, and those the channel was started with, the last first. -/
structure ChannelState where
  regs : Regs
  memory : DescrMemory
  started : List LlpDescr

/-- Starting job `j` on the channel. -/
def startSlot (s : ChannelState) (j : Job) : ChannelState :=
  let d := s.memory (j.val * maxDmaVec)
  { s with regs := program s.regs d, started := d :: s.started }

/-- What happened before: a request was filled into a job, a job was run on the channel. -/
inductive Past
  | copy (j : Job) (vec : List Vec)
  | run (j : Job)

def Past.apply (pool : U32) (s : ChannelState) : Past → ChannelState
  | .copy j vec => { s with memory := fillSlot pool j vec s.memory }
  | .run j => { startSlot s j with regs := disableChannel (startSlot s j).regs }

/-- A channel after `dma_channel_init` and a history. -/
def history (pool : U32) (r : Regs) (past : List Past) : ChannelState :=
  past.foldl (Past.apply pool) ⟨channelInit (disableChannel r), fun _ => {}, []⟩

/-- The registers when the channel is enabled for a request in job `j`. -/
def enabledRegs (pool : U32) (s : ChannelState) (j : Job) (vec : List Vec) : Regs :=
  (startSlot (Past.apply pool s (.copy j vec)) j).regs

/-- The registers hold what the descriptor says. -/
structure Programmed (d : LlpDescr) (r : Regs) : Prop where
  csr : r.csr &&& ~~~(0x1 : U32) = expectedCsr d
  srcAddr : r.srcAddr = d.srcAddr
  dstAddr : r.dstAddr = d.dstAddr
  llp : r.llp = d.llp
  size : r.size = d.totSize.setWidth 32

/-- The registers without the enable bit. -/
def Regs.observed (r : Regs) : Regs := { r with csr := r.csr &&& ~~~(0x1 : U32) }

/-- A request is programmed as its first descriptor says after both histories, and in the same
way. -/
def HistoryFree (pool : U32) (s t : ChannelState) (j k : Job) (vec : List Vec) : Prop :=
  ∃ v, vec.head? = some v ∧
    Programmed (llpDescrOf (slotDma pool j) vec.length 0 v) (enabledRegs pool s j vec) ∧
    Programmed (llpDescrOf (slotDma pool k) vec.length 0 v) (enabledRegs pool t k vec) ∧
    (enabledRegs pool s j vec).observed = (enabledRegs pool t k vec).observed

theorem history_control (pool : U32) (r : Regs) (past : List Past) :
    Control (history pool r past).regs.csr (history pool r past).started := by
  have hall : ∀ s : ChannelState, Control s.regs.csr s.started →
      Control (past.foldl (Past.apply pool) s).regs.csr (past.foldl (Past.apply pool) s).started := by
    induction past with
    | nil => exact fun s h => h
    | cons e past ih =>
      intro s h
      apply ih
      cases e with
      | copy j vec => exact h
      | run j => exact (h.program _).disable
  exact hall _ (channelInit_control _)

theorem enabledRegs_eq (pool : U32) (s : ChannelState) (j : Job) {vec : List Vec} {v : Vec}
    (hv : vec.head? = some v) : enabledRegs pool s j vec =
      program s.regs (llpDescrOf (slotDma pool j) vec.length 0 v) := by
  have hget : vec[0]? = some v := by rw [← List.head?_eq_getElem?, hv]
  simp [enabledRegs, startSlot, Past.apply, fillSlot, fillDescrs, hget]

theorem programmed_iff {r : Regs} {ds : List LlpDescr} (h : Control r.csr ds) (d : LlpDescr) :
    Programmed d (program r d) ↔ ∀ old ∈ ds, ¬Leaks old d := by
  rw [← program_csr_iff h d]
  exact ⟨fun hp => hp.csr, fun hc => ⟨hc, rfl, rfl, rfl, rfl⟩⟩

theorem Programmed.observed {d : LlpDescr} {r : Regs} (h : Programmed d r) : r.observed =
    ⟨expectedCsr d, d.srcAddr, d.dstAddr, d.llp, d.totSize.setWidth 32⟩ := by
  obtain ⟨hcsr, hsrc, hdst, hllp, hsize⟩ := h
  rw [Regs.observed, hcsr, hsrc, hdst, hllp, hsize]

/-- Two jobs have their descriptors at different addresses. -/
theorem slotDma_inj {pool : U32} {j k : Job} (h : slotDma pool j = slotDma pool k) : j = k := by
  have hj := j.isLt
  have hk := k.isLt
  have hmul := congrArg BitVec.toNat ((BitVec.add_right_inj _).mp h)
  simp only [BitVec.toNat_ofNat, maxDmaVec, llpDescrSize] at hmul
  apply Fin.ext
  omega

theorem first_llp_eq_iff {pool : U32} {j k : Job} {n : Nat} (v : Vec) (hn : 0 < n) :
    (llpDescrOf (slotDma pool j) n 0 v).llp = (llpDescrOf (slotDma pool k) n 0 v).llp ↔
      n = 1 ∨ j = k := by
  by_cases h1 : n = 1
  · simp [llpDescrOf, h1]
  · have hne : 0 ≠ n - 1 := by omega
    simp only [llpDescrOf, hne, if_false, h1, false_or]
    constructor
    · intro h
      exact slotDma_inj ((BitVec.add_left_inj _).mp h)
    · rintro rfl
      rfl

/-- A request is programmed as if nothing had run on the channel before exactly when it has an
element, nothing started before leaks into its first descriptor, and that descriptor links to
the same place. -/
theorem history_free_iff (pool : U32) (r₁ r₂ : Regs) (past₁ past₂ : List Past) (j k : Job)
    (vec : List Vec) :
    HistoryFree pool (history pool r₁ past₁) (history pool r₂ past₂) j k vec ↔
      ∃ v, vec.head? = some v ∧ (vec.length = 1 ∨ j = k) ∧
        ∀ old ∈ (history pool r₁ past₁).started ++ (history pool r₂ past₂).started,
          ¬Leaks old (llpDescrOf (slotDma pool j) vec.length 0 v) := by
  have hc₁ := history_control pool r₁ past₁
  have hc₂ := history_control pool r₂ past₂
  generalize history pool r₁ past₁ = s at hc₁ ⊢
  generalize history pool r₂ past₂ = t at hc₂ ⊢
  refine exists_congr fun v => and_congr_right fun hv => ?_
  have hpos : 0 < vec.length := List.length_pos_iff.mpr fun hnil => by simp [hnil] at hv
  -- the two first descriptors differ in their link only
  have hleak : ∀ old, Leaks old (llpDescrOf (slotDma pool k) vec.length 0 v) ↔
      Leaks old (llpDescrOf (slotDma pool j) vec.length 0 v) := by
    intro old
    simp only [Leaks, llpDescrOf]
  have hcsr : expectedCsr (llpDescrOf (slotDma pool k) vec.length 0 v) =
      expectedCsr (llpDescrOf (slotDma pool j) vec.length 0 v) := by
    simp only [expectedCsr, fieldsOf, llpDescrOf]
  rw [enabledRegs_eq pool s j hv, enabledRegs_eq pool t k hv, programmed_iff hc₁,
    programmed_iff hc₂, List.forall_mem_append, ← first_llp_eq_iff v hpos]
  simp only [hleak]
  constructor
  · rintro ⟨h₁, h₂, hobs⟩
    exact ⟨congrArg Regs.llp hobs, h₁, h₂⟩
  · rintro ⟨hllp, h₁, h₂⟩
    refine ⟨h₁, h₂, ?_⟩
    have hp₁ := (programmed_iff hc₁ _).mpr h₁
    have hp₂ := (programmed_iff hc₂ (llpDescrOf (slotDma pool k) vec.length 0 v)).mpr
      fun old hold => (hleak old).not.mpr (h₂ old hold)
    rw [hp₁.observed, hp₂.observed, hcsr, hllp]
    simp only [llpDescrOf]

/-- A request written through the second master. -/
def secondMasterVec : Vec := { wordsVec with dstSel := 1 }

/-- After it the selector of a request written through the first master stays set. -/
theorem selector_leaks :
    ¬HistoryFree 0x100000 (history 0x100000 ⟨0, 0, 0, 0, 0⟩ [])
      (history 0x100000 ⟨0, 0, 0, 0, 0⟩ [.copy 0 [secondMasterVec], .run 0]) 0 0 [wordsVec] := by
  rintro ⟨v, hv, _, hp, _⟩
  obtain rfl : wordsVec = v := Option.some.inj hv
  have hcsr := hp.csr
  exact absurd hcsr (by decide)

end SnakeOs.Dma
