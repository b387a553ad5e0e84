import SnakeOs.Arch.Memory
import SnakeOs.Lib.Runs

namespace SnakeOs.Nic
open Arch

def maxRfdNum : Nat := 64
def maxPacketLen : Nat := 1536

/-- A socket buffer: which allocation it is and where its data lies. -/
structure Skb where
  id : Nat
  data : U32
deriving DecidableEq

/-- What the hardware reports about a received frame. -/
structure Frame where
  length : BitVec 16
  ipf : Bool := false
  l4f : Bool := false
  prot : BitVec 2 := 0
deriving DecidableEq

/-- `STAR_NIC_RXDESC`, the fields the driver uses. `packet` numbers the frame written
last, in the order of reception. -/
structure RxDesc where
  dataPtr : U32
  frame : Frame
  cown : Bool
  packet : Nat
deriving DecidableEq

inductive IpSummed
  | none
  | unnecessary
deriving DecidableEq

/-- One call of `netif_receive_skb`. -/
structure Handed where
  packet : Nat
  skb : Nat
  length : BitVec 16
  ipSummed : IpSummed
deriving DecidableEq

structure RxStats where
  rxPackets : Nat
  rxBytes : Nat
  rxErrors : Nat

/-- Where `star_nic_poll` stands. `sample` reads RXSD, `count` compares the index it
found with `cur_index` and looks at `cown`, `loop` is the head of the loop of
`star_nic_receive_packet`; then come the test of `work_done`, of `is_qf` with its
clearing, the DMA restart, and `netif_rx_complete`. -/
inductive Pc
  | idle
  | sample
  | count (rxsdIndex : Nat)
  | loop (i rxcount : Nat)
  | decide
  | testQf
  | clearQf
  | startDma
  | complete
deriving DecidableEq

/-- The receive ring, the polling function, the interrupt state and the hardware.
`rxsd` is the descriptor the hardware uses next, `fresh` the number of skbs allocated,
`received` the number of frames received; the logs say what became of them. -/
structure Rx where
  desc : Nat → RxDesc
  skb : Nat → Option Skb
  cur : Nat
  rxsd : Nat
  dmaOn : Bool
  fresh : Nat
  received : Nat
  handed : List Handed
  failed : List Nat
  freed : List (Nat × Nat)
  stats : RxStats
  pc : Pc
  workDone : Int
  workToDo : Int
  visited : Nat
  isQf : Bool
  sched : Bool
  rxrc : Bool
  rxqf : Bool

/-- The receive half of `star_nic_buffer_alloc`, whose skbs have their data at the
addresses `data`; RX DMA is running. -/
def bufferAlloc (data : Nat → U32) : Rx where
  desc := fun i => ⟨virtToPhys (data i), { length := BitVec.ofNat 16 maxPacketLen }, false, 0⟩
  skb := fun i => if i < maxRfdNum then some ⟨i, data i⟩ else none
  cur := 0
  rxsd := 0
  dmaOn := true
  fresh := maxRfdNum
  received := 0
  handed := []
  failed := []
  freed := []
  stats := ⟨0, 0, 0⟩
  pc := .idle
  workDone := 0
  workToDo := 0
  visited := 0
  isQf := false
  sched := false
  rxrc := false
  rxqf := false

/-- `star_nic_get_rfd_buff`; a NULL slot is an oops. The protocol field has two bits
and is compared with `0x11`. -/
def getRfdBuff (s : Rx) (index : Nat) : Option Rx :=
  (s.skb index).map fun skb =>
    let d := s.desc index
    if (d.frame.ipf || d.frame.l4f) && d.frame.prot.toNat = 0x11 then
      { s with stats := { s.stats with rxErrors := s.stats.rxErrors + 1 },
               freed := s.freed ++ [(d.packet, skb.id)] }
    else
      let summed := if d.frame.ipf || d.frame.l4f then IpSummed.none else .unnecessary
      { s with stats := { s.stats with rxPackets := s.stats.rxPackets + 1,
                                       rxBytes := s.stats.rxBytes + d.frame.length.toNat },
               handed := s.handed ++ [⟨d.packet, skb.id, d.frame.length, summed⟩] }

/-- Putting a new skb at `data` into the slot and giving the descriptor back. -/
def refill (s : Rx) (index : Nat) (data : U32) : Rx :=
  { s with
    skb := Function.update s.skb index (some ⟨s.fresh, data⟩)
    fresh := s.fresh + 1
    desc := Function.update s.desc index
      { s.desc index with
        dataPtr := virtToPhys data
        frame := { (s.desc index).frame with length := BitVec.ofNat 16 maxPacketLen }
        cown := false } }

/-- The end of a round of the loop. -/
def advance (s : Rx) (i rxcount : Nat) : Rx :=
  { s with cur := if s.cur = maxRfdNum - 1 then 0 else s.cur + 1, pc := .loop (i + 1) rxcount }

/-- One round of the loop of `star_nic_receive_packet`, or its end. `alloc` is what
`star_nic_alloc_skb` would return. -/
def visit (s : Rx) (i rxcount : Nat) (alloc : Option U32) : Option Rx :=
  if i < rxcount ∧ s.workDone < s.workToDo then
    let s := { s with workDone := s.workDone + 1, visited := s.visited + 1 }
    if (s.desc s.cur).cown then
      match alloc with
      | some data => (getRfdBuff s s.cur).map fun s => advance (refill s s.cur data) i rxcount
      | none =>
        some { s with desc := Function.update s.desc s.cur { s.desc s.cur with cown := false },
                      failed := s.failed ++ [(s.desc s.cur).packet], pc := .decide }
    else some (advance s i rxcount)
  else some { s with pc := .decide }

/-- How many descriptors to look at; `none` where the function returns at once. -/
def rxCount (rxsdIndex cur : Nat) (cown : Bool) : Option Nat :=
  if rxsdIndex > cur then some (rxsdIndex - cur)
  else if rxsdIndex < cur then some (maxRfdNum - cur + rxsdIndex)
  else if cown then some maxRfdNum
  else none

/-- One step of `star_nic_poll`. -/
def stepPoll (s : Rx) (alloc : Option U32) : Option Rx :=
  match s.pc with
  | .idle => none
  | .sample => some { s with pc := .count s.rxsd }
  | .count r =>
    match rxCount r s.cur (s.desc s.cur).cown with
    | some n => some { s with pc := .loop 0 n }
    | none => some { s with pc := .decide }
  | .loop i n => visit s i n alloc
  | .decide => if s.workDone = 0 then some { s with pc := .complete } else some { s with pc := .testQf }
  | .testQf => if s.isQf then some { s with pc := .clearQf } else some { s with pc := .idle }
  | .clearQf => some { s with isQf := false, pc := .startDma }
  | .startDma => some { s with dmaOn := true, pc := .idle }
  | .complete => some { s with sched := false, pc := .idle }

/-- What can happen next. `resume` is hardware going on by itself once the descriptor
is free. -/
inductive RxAct
  | receive (f : Frame)
  | queueFull
  | resume
  | receiveIsr
  | rxqfIsr
  | poll (budget quota : Int)
  | work (alloc : Option U32)

/-- One step of the receive path. -/
def rxStep (s : Rx) : RxAct → Option Rx
  | .receive f =>
    if s.dmaOn ∧ (s.desc s.rxsd).cown = false then
      some { s with
        desc := Function.update s.desc s.rxsd
          { s.desc s.rxsd with frame := f, cown := true, packet := s.received }
        received := s.received + 1
        rxsd := (s.rxsd + 1) % maxRfdNum
        rxrc := true }
    else none
  | .queueFull =>
    if s.dmaOn ∧ (s.desc s.rxsd).cown = true then some { s with dmaOn := false, rxqf := true }
    else none
  | .resume => some { s with dmaOn := true }
  | .receiveIsr => if s.rxrc then some { s with rxrc := false, sched := true } else none
  | .rxqfIsr =>
    if s.rxqf then some { s with rxqf := false, isQf := true, sched := true } else none
  | .poll budget quota =>
    if s.pc = .idle then
      some { s with pc := .sample, workDone := 0, workToDo := min budget quota, visited := 0 }
    else none
  | .work alloc => stepPoll s alloc

/-- The protocol field is too narrow for the checksum branch: every packet that
reaches the function is handed up. -/
theorem getRfdBuff_hands {s t : Rx} {i : Nat} (h : getRfdBuff s i = some t) :
    ∃ k st hd, s.skb i = some k ∧ hd.packet = (s.desc i).packet ∧ hd.skb = k.id ∧
      t = { s with stats := st, handed := s.handed ++ [hd] } := by
  obtain ⟨k, hk, ht⟩ := Option.map_eq_some_iff.mp h
  have hprot : (s.desc i).frame.prot.toNat ≠ 0x11 := by
    have := (s.desc i).frame.prot.isLt
    omega
  simp only [hprot, decide_false, Bool.and_false, Bool.false_eq_true, ↓reduceIte] at ht
  exact ⟨k, _, ⟨_, _, _, _⟩, hk, rfl, rfl, ht.symm⟩

/-- What one round of the loop can do. -/
theorem visit_cases {s t : Rx} {i n : Nat} {alloc : Option U32} (h : visit s i n alloc = some t) :
    (¬ (i < n ∧ s.workDone < s.workToDo) ∧ t = { s with pc := .decide }) ∨
    (i < n ∧ s.workDone < s.workToDo ∧
      (((s.desc s.cur).cown = true ∧ ∃ data k st hd, s.skb s.cur = some k ∧
          hd.packet = (s.desc s.cur).packet ∧ hd.skb = k.id ∧
          t = advance (refill { s with
            workDone := s.workDone + 1
            visited := s.visited + 1
            stats := st
            handed := s.handed ++ [hd] } s.cur data) i n) ∨
       ((s.desc s.cur).cown = true ∧
          t = { s with
            workDone := s.workDone + 1
            visited := s.visited + 1
            pc := .decide
            desc := Function.update s.desc s.cur { s.desc s.cur with cown := false }
            failed := s.failed ++ [(s.desc s.cur).packet] }) ∨
       ((s.desc s.cur).cown = false ∧
          t = advance { s with workDone := s.workDone + 1, visited := s.visited + 1 } i n))) := by
  simp only [visit] at h
  split at h
  · rename_i hc
    refine .inr ⟨hc.1, hc.2, ?_⟩
    split at h
    · rename_i hown
      cases alloc with
      | some data =>
        obtain ⟨u, hu, rfl⟩ := Option.map_eq_some_iff.mp h
        obtain ⟨k, st, hd, hk, hp, hs, rfl⟩ := getRfdBuff_hands hu
        exact .inl ⟨hown, data, k, st, hd, hk, hp, hs, rfl⟩
      | none => exact .inr (.inl ⟨hown, (Option.some.inj h).symm⟩)
    · rename_i hown
      exact .inr (.inr ⟨by simpa using hown, (Option.some.inj h).symm⟩)
  · rename_i hc
    exact .inl ⟨hc, (Option.some.inj h).symm⟩

/-- The polling function outside its loop. -/
theorem stepPoll_cases {s t : Rx} {alloc : Option U32} (h : stepPoll s alloc = some t) :
    (s.pc = .sample ∧ t = { s with pc := .count s.rxsd }) ∨
    (∃ r n, s.pc = .count r ∧ rxCount r s.cur (s.desc s.cur).cown = some n ∧
      t = { s with pc := .loop 0 n }) ∨
    (∃ r, s.pc = .count r ∧ rxCount r s.cur (s.desc s.cur).cown = none ∧
      t = { s with pc := .decide }) ∨
    (∃ i n, s.pc = .loop i n ∧ visit s i n alloc = some t) ∨
    (s.pc = .decide ∧ s.workDone = 0 ∧ t = { s with pc := .complete }) ∨
    (s.pc = .decide ∧ s.workDone ≠ 0 ∧ t = { s with pc := .testQf }) ∨
    (s.pc = .testQf ∧ s.isQf = true ∧ t = { s with pc := .clearQf }) ∨
    (s.pc = .testQf ∧ s.isQf = false ∧ t = { s with pc := .idle }) ∨
    (s.pc = .clearQf ∧ t = { s with isQf := false, pc := .startDma }) ∨
    (s.pc = .startDma ∧ t = { s with dmaOn := true, pc := .idle }) ∨
    (s.pc = .complete ∧ t = { s with sched := false, pc := .idle }) := by
  cases hp : s.pc with
  | idle => simp [stepPoll, hp] at h
  | sample =>
    simp only [stepPoll, hp, Option.some.injEq] at h
    simp [← h]
  | count r =>
    simp only [stepPoll, hp] at h
    split at h
    · rename_i n hn
      simp [← Option.some.inj h, hn]
    · rename_i hn
      simp [← Option.some.inj h, hn]
  | loop i n =>
    simp only [stepPoll, hp] at h
    exact .inr (.inr (.inr (.inl ⟨i, n, rfl, h⟩)))
  | decide =>
    simp only [stepPoll, hp] at h
    split at h
    · rename_i hw
      simp [← Option.some.inj h, hw]
    · rename_i hw
      simp [← Option.some.inj h, hw]
  | testQf =>
    simp only [stepPoll, hp] at h
    split at h
    · rename_i hq
      simp [← Option.some.inj h, hq]
    · rename_i hq
      simp [← Option.some.inj h, hq]
  | clearQf =>
    simp only [stepPoll, hp, Option.some.injEq] at h
    simp [← h]
  | startDma =>
    simp only [stepPoll, hp, Option.some.injEq] at h
    simp [← h]
  | complete =>
    simp only [stepPoll, hp, Option.some.injEq] at h
    simp [← h]

/-- What one step of the receive path can be. -/
theorem rxStep_cases {s t : Rx} {a : RxAct} (h : rxStep s a = some t) :
    (∃ f, a = .receive f ∧ s.dmaOn = true ∧ (s.desc s.rxsd).cown = false ∧
      t = { s with
        desc := Function.update s.desc s.rxsd
          { s.desc s.rxsd with frame := f, cown := true, packet := s.received }
        received := s.received + 1
        rxsd := (s.rxsd + 1) % maxRfdNum
        rxrc := true }) ∨
    (a = .queueFull ∧ s.dmaOn = true ∧ (s.desc s.rxsd).cown = true ∧
      t = { s with dmaOn := false, rxqf := true }) ∨
    (a = .resume ∧ t = { s with dmaOn := true }) ∨
    (a = .receiveIsr ∧ s.rxrc = true ∧ t = { s with rxrc := false, sched := true }) ∨
    (a = .rxqfIsr ∧ s.rxqf = true ∧ t = { s with rxqf := false, isQf := true, sched := true }) ∨
    (∃ budget quota, a = .poll budget quota ∧ s.pc = .idle ∧
      t = { s with pc := .sample, workDone := 0, workToDo := min budget quota, visited := 0 }) ∨
    (∃ alloc, a = .work alloc ∧ stepPoll s alloc = some t) := by
  cases a with
  | receive f =>
    simp only [rxStep] at h
    split at h
    · rename_i hg
      simp [← Option.some.inj h, hg]
    · cases h
  | queueFull =>
    simp only [rxStep] at h
    split at h
    · rename_i hg
      simp [← Option.some.inj h, hg]
    · cases h
  | resume => simp [← Option.some.inj h]
  | receiveIsr =>
    simp only [rxStep] at h
    split at h
    · rename_i hg
      simp [← Option.some.inj h, hg]
    · cases h
  | rxqfIsr =>
    simp only [rxStep] at h
    split at h
    · rename_i hg
      simp [← Option.some.inj h, hg]
    · cases h
  | poll budget quota =>
    simp only [rxStep] at h
    split at h
    · rename_i hg
      have ht := (Option.some.inj h).symm
      exact .inr (.inr (.inr (.inr (.inr (.inl ⟨budget, quota, rfl, hg, ht⟩)))))
    · cases h
  | work alloc => exact .inr (.inr (.inr (.inr (.inr (.inr ⟨alloc, rfl, h⟩)))))

/-- The states of the receive path, with the ring set up at any addresses. -/
def RxReachable (s : Rx) : Prop := ∃ data, Lib.Reach rxStep Lib.anyStep (bufferAlloc data) s

end SnakeOs.Nic
