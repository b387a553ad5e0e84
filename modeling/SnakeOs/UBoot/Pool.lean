import SnakeOs.Lib.Runs
import Mathlib.Logic.Function.Basic

namespace SnakeOs.UBoot
open Lib

def maxTfdNum : Nat := 16
def maxRfdNum : Nat := 16
def numPktBuffer : Nat := 128
def pktBufferSize : Nat := 1536
def pktMinSize : Nat := 60

structure TxDesc where
  dataPtr : Nat := 0
  length : Nat := 0
  firstSegment : Bool := false
  lastSegment : Bool := false
  cpuOwn : Bool := false

structure RxDesc where
  dataPtr : Nat := 0
  length : Nat := 0
  cpuOwn : Bool := false

/-- `star_nic_dev_t` and the pools. Packets are named by their place in `pkt_pool`, their
buffers likewise. -/
structure Dev where
  next : Nat → Option Nat := fun _ => none
  length : Nat → Nat := fun _ => 0
  txDesc : Nat → TxDesc := fun _ => {}
  rxDesc : Nat → RxDesc := fun _ => {}
  txRingPkt : Nat → Option Nat := fun _ => none
  rxRingPkt : Nat → Option Nat := fun _ => none
  curTx : Nat := 0
  curRx : Nat := 0
  freePktList : Option Nat := none
  freePktCount : Int := 0
  txPktQHead : Option Nat := none
  txPktQTail : Option Nat := none
  txPktQCount : Nat := 0
  /-- the frame that the buffer of a packet holds -/
  frame : Nat → Nat := fun _ => 0
  /-- frames taken by `eth_send` and frames put into the transmit ring, oldest first -/
  sent : List Nat := []
  placed : List Nat := []
  /-- the next descriptors of the hardware -/
  txsd : Nat := 0
  rxsd : Nat := 0

def Dev.setNext (d : Dev) (p : Nat) (q : Option Nat) : Dev :=
  { d with next := Function.update d.next p q }

def allocPkt (d : Dev) : Dev × Option Nat :=
  match d.freePktList with
  | none => (d, none)
  | some pkt =>
    ({ d.setNext pkt none with
        freePktList := d.next pkt, freePktCount := d.freePktCount - 1 }, some pkt)

def freePkt (d : Dev) (pkt : Nat) : Dev :=
  { d.setNext pkt d.freePktList with
    freePktList := some pkt, freePktCount := d.freePktCount + 1 }

def txPktEnqueue (d : Dev) (pkt : Nat) : Dev :=
  let d := match d.txPktQTail with
    | some tail => d.setNext tail (some pkt)
    | none => d
  { d with
    txPktQTail := some pkt
    txPktQHead := match d.txPktQHead with
      | none => some pkt
      | some head => some head
    txPktQCount := d.txPktQCount + 1 }

def txPktDequeue (d : Dev) : Dev × Option Nat :=
  match d.txPktQHead with
  | none => (d, none)
  | some pkt =>
    ({ d.setNext pkt none with
        txPktQHead := d.next pkt
        txPktQTail := match d.next pkt with
          | none => none
          | some _ => d.txPktQTail
        txPktQCount := d.txPktQCount - 1 }, some pkt)

def txPktRequeue (d : Dev) (pkt : Nat) : Dev :=
  { d.setNext pkt d.txPktQHead with
    txPktQHead := some pkt
    txPktQTail := match d.txPktQTail with
      | none => some pkt
      | some tail => some tail
    txPktQCount := d.txPktQCount + 1 }

/-- The loop of `star_nic_init_mem` that gives each receive descriptor a packet. -/
def initRx : Nat → Dev → Dev
  | 0, d => d
  | n + 1, d =>
    match allocPkt (initRx n d) with
    | (d, none) => d
    | (d, some pkt) =>
      { d with
        rxRingPkt := Function.update d.rxRingPkt n (some pkt)
        rxDesc := Function.update d.rxDesc n ⟨pkt, pktBufferSize, false⟩ }

/-- `star_nic_init_mem`. -/
def initMem : Dev :=
  let d : Dev :=
    { freePktList := some 0
      next := fun i => if i < numPktBuffer - 1 then some (i + 1) else none
      txDesc := fun _ => { cpuOwn := true } }
  { initRx maxRfdNum d with
    txPktQHead := none, txPktQTail := none, txPktQCount := 0, curTx := 0, curRx := 0
    freePktCount := numPktBuffer }

/-- The step to the next descriptor of a ring with `n` of them. -/
def nextIdx (n i : Nat) : Nat := if i = n - 1 then 0 else i + 1

/-- Where `eth_send` and the `star_nic_tx` that it calls stand. -/
inductive TxPc
  | enqueue (pkt : Nat)
  | dequeue
  | test (pkt : Nat)
  | give (pkt : Nat)
  deriving DecidableEq

/-- Where `star_nic_rx` stands. -/
inductive RxPc
  | look
  | swap (rcvpkt : Nat)
  | receive (rcvpkt : Nat)
  deriving DecidableEq

structure RxCall where
  pc : RxPc := .look
  firstTime : Bool := true
  rxcount : Nat := 0

/-- The driver with the calls in progress; `eth_send` may stand on top of `star_nic_rx`. -/
structure Nic where
  dev : Dev
  rx : Option RxCall := none
  tx : Option TxPc := none

def start : Nic := { dev := initMem }

/-- `eth_send` up to the copy of the frame. Without a packet it returns at once. -/
def ethSend (d : Dev) (frame len : Nat) : Dev × Option TxPc :=
  match allocPkt d with
  | (d, none) => (d, none)
  | (d, some pkt) =>
    ({ d with
        frame := Function.update d.frame pkt frame
        length := Function.update d.length pkt (if len < pktMinSize then pktMinSize else len)
        sent := d.sent ++ [frame] }, some (.enqueue pkt))

/-- The packet whose descriptor is used again goes back to the free list. -/
def freeOld (d : Dev) : Dev :=
  match d.txRingPkt d.curTx with
  | some old => freePkt d old
  | none => d

/-- The steps of `eth_send`; an access to a descriptor's owner bit begins a step. -/
def stepTx (d : Dev) : TxPc → Dev × Option TxPc
  | .enqueue pkt => (txPktEnqueue d pkt, some .dequeue)
  | .dequeue =>
    match txPktDequeue d with
    | (d, none) => (d, none)
    | (d, some pkt) => (d, some (.test pkt))
  | .test pkt =>
    if (d.txDesc d.curTx).cpuOwn = false then (txPktRequeue d pkt, none)
    else
      let d := freeOld d
      ({ d with
          txRingPkt := Function.update d.txRingPkt d.curTx (some pkt)
          placed := d.placed ++ [d.frame pkt] }, some (.give pkt))
  | .give pkt =>
    ({ d with
        txDesc := Function.update d.txDesc d.curTx ⟨pkt, d.length pkt % 65536, true, true, false⟩
        curTx := nextIdx maxTfdNum d.curTx }, some .dequeue)

/-- The steps of `star_nic_rx`. There is none when it gets no packet: the pointer it goes
on with is `NULL`. -/
def stepRx (d : Dev) (c : RxCall) : Option (Dev × Option RxCall) :=
  match c.pc with
  | .look =>
    if (d.rxDesc d.curRx).cpuOwn = false then
      if c.firstTime then some (d, some { c with firstTime := false }) else some (d, none)
    else
      (d.rxRingPkt d.curRx).map fun rcvpkt =>
        ({ d with length := Function.update d.length rcvpkt (d.rxDesc d.curRx).length },
          some { c with pc := .swap rcvpkt })
  | .swap rcvpkt =>
    match allocPkt d with
    | (_, none) => none
    | (d, some newpkt) =>
      some ({ d with
        rxRingPkt := Function.update d.rxRingPkt d.curRx (some newpkt)
        rxDesc := Function.update d.rxDesc d.curRx ⟨newpkt, pktBufferSize, false⟩ },
        some { c with pc := .receive rcvpkt })
  | .receive rcvpkt =>
    let d := freePkt d rcvpkt
    let d := { d with curRx := nextIdx maxRfdNum d.curRx }
    let c := { c with pc := .look, rxcount := c.rxcount + 1 }
    if c.rxcount = maxRfdNum then some (d, none) else some (d, some c)

/-- The hardware has sent the frame of its next descriptor. -/
def complete (d : Dev) : Option Dev :=
  if (d.txDesc d.txsd).cpuOwn = false then
    some { d with
      txDesc := Function.update d.txDesc d.txsd { d.txDesc d.txsd with cpuOwn := true }
      txsd := nextIdx maxTfdNum d.txsd }
  else none

/-- The hardware writes a frame into the buffer of its next receive descriptor. -/
def fill (d : Dev) (frame len : Nat) : Option Dev :=
  if (d.rxDesc d.rxsd).cpuOwn = false then
    some { d with
      frame := Function.update d.frame (d.rxDesc d.rxsd).dataPtr frame
      rxDesc := Function.update d.rxDesc d.rxsd
        { d.rxDesc d.rxsd with length := len % 65536, cpuOwn := true }
      rxsd := nextIdx maxRfdNum d.rxsd }
  else none

inductive Act
  | complete
  | fill (frame len : Nat)
  | ethSend (frame len : Nat)
  | ethRx
  | go

/-- `eth_send` may be called when nothing runs and from `NetReceive`. -/
def canSend (s : Nic) : Bool :=
  s.tx.isNone && match s.rx with
    | none => true
    | some c => match c.pc with
      | .receive _ => true
      | _ => false

def step (s : Nic) : Act → Option Nic
  | .complete => (complete s.dev).map fun d => { s with dev := d }
  | .fill frame len => (fill s.dev frame len).map fun d => { s with dev := d }
  | .ethSend frame len =>
    if canSend s then
      let (d, tx) := ethSend s.dev frame len
      some { s with dev := d, tx := tx }
    else none
  | .ethRx => if s.rx.isNone && s.tx.isNone then some { s with rx := some {} } else none
  | .go =>
    match s.tx, s.rx with
    | some pc, _ =>
      let (d, tx) := stepTx s.dev pc
      some { s with dev := d, tx := tx }
    | none, some c => (stepRx s.dev c).map fun r => { s with dev := r.1, rx := r.2 }
    | none, none => none

end SnakeOs.UBoot
