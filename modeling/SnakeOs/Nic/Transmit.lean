import SnakeOs.Arch.Memory
import SnakeOs.Lib.Runs

namespace SnakeOs.Nic
open Arch

def maxTfdNum : Nat := 48
def maxSkbFrags : Nat := 18
def pktMinSize : Nat := 60
def ethZlen : Nat := 60

/-- `STAR_NIC_TXDESC`, the fields that change after set-up. -/
structure TxDesc where
  dataPtr : U32
  length : BitVec 16
  fs : Bool
  ls : Bool
  cown : Bool
deriving DecidableEq

/-- A page fragment: the address of its page, the offset and size inside it. -/
structure Frag where
  page : U32
  pageOffset : BitVec 16
  size : BitVec 16
deriving DecidableEq

/-- An skb to be sent. -/
structure Packet where
  skb : Nat
  data : U32
  len : Nat
  dataLen : Nat
  frags : List Frag
deriving DecidableEq

/-- The length of the linear part. -/
def Packet.linear (p : Packet) : Nat := p.len - p.dataLen

/-- What happens to the ring: an skb is put into a slot, the hardware gives a descriptor
back, an skb is freed. -/
inductive TxEvent
  | put (skb slot : Nat)
  | done (slot : Nat)
  | kfree (skb : Nat)
deriving DecidableEq

/-- The part of a descriptor the hardware sends by. -/
structure View where
  dataPtr : U32
  length : BitVec 16
  fs : Bool
  ls : Bool
deriving DecidableEq

def TxDesc.view (d : TxDesc) : View := ⟨d.dataPtr, d.length, d.fs, d.ls⟩

/-- The transmit ring. `txsd` is the descriptor the hardware works on next; the logs hold
the events, the ranges given to `consistent_sync`, the packets accepted and the skbs
freed. -/
structure Tx where
  desc : Nat → TxDesc
  skb : Nat → Option Nat
  cur : Nat
  txsd : Nat
  events : List TxEvent
  synced : List (U32 × Nat)
  accepted : List Packet
  freed : List Nat
  txPackets : Nat
  txBytes : Nat

/-- The transmit half of `star_nic_buffer_alloc`. -/
def txAlloc : Tx where
  desc := fun _ => ⟨0, 0, false, false, true⟩
  skb := fun _ => none
  cur := 0
  txsd := 0
  events := []
  synced := []
  accepted := []
  freed := []
  txPackets := 0
  txBytes := 0

/-- `increase_cyclic` for the transmit ring. -/
def increaseCyclic (i : Nat) : Nat := if i + 1 ≥ maxTfdNum then 0 else i + 1

/-- The hardware gives back the descriptor it has worked on. -/
def complete (s : Tx) : Option Tx :=
  if (s.desc s.txsd).cown = false then
    some { s with desc := Function.update s.desc s.txsd { s.desc s.txsd with cown := true },
                  txsd := increaseCyclic s.txsd,
                  events := s.events ++ [.done s.txsd] }
  else none

/-- Up to `n` completions in a row. -/
def completions : Nat → Tx → Tx
  | 0, s => s
  | n + 1, s => match complete s with
    | some t => completions n t
    | none => s

/-- What a call meets: `hw k` completions before its `k`-th access to a `cown`, the words
`beyond` the end of its array `skb_free`, and its uninitialised variable `offset`. -/
structure SendEnv where
  hw : Nat → Nat := fun _ => 0
  beyond : Nat → Option Nat := fun _ => none
  offset : U32 := 0

/-- The local array `skb_free` with `skb_free_count`. A store past the end is not seen
again as a load of the array. -/
structure Reclaim where
  cells : List Nat := []
  count : Nat := 0

def Reclaim.store (r : Reclaim) (x : Nat) : Reclaim where
  cells := if r.count < maxSkbFrags then r.cells ++ [x] else r.cells
  count := r.count + 1

def Reclaim.load (r : Reclaim) (beyond : Nat → Option Nat) (i : Nat) : Option Nat :=
  if i < maxSkbFrags then r.cells[i]? else beyond i

/-- Setting the `fs` and `ls` of a descriptor. -/
def mark (s : Tx) (idx : Nat) (first last : Bool) : Tx :=
  { s with desc := Function.update s.desc idx { s.desc idx with fs := first, ls := last } }

/-- The scan for free descriptors, with `r` of them still to look at from `idx` on;
`none` is the way out with `NETDEV_TX_BUSY`. -/
def scan (hw : Nat → Nat) (nrFrags : Nat) : Nat → Nat → Reclaim → Tx → Tx × Option Reclaim
  | 0, _, free, s => (s, some free)
  | r + 1, idx, free, s =>
    let f := nrFrags - r
    let s := completions (hw f) s
    if (s.desc idx).cown = false then (s, none)
    else
      let free := match s.skb idx with
        | some x => free.store x
        | none => free
      scan hw nrFrags r (increaseCyclic idx) free (mark s idx (f = 0) (f = nrFrags))

/-- Address and length of a buffer. -/
abbrev Part := U32 × BitVec 16

/-- Writing one slot: the descriptor at `cur_index` is pointed to a buffer, and the skb is
held by the slot of its last part. -/
def fillSlot (s : Tx) (skb : Nat) (last : Bool) (part : Part) (sync : U32 × Nat) : Tx :=
  let d := { s.desc s.cur with dataPtr := part.1, length := part.2 }
  { s with desc := Function.update s.desc s.cur d,
           skb := Function.update s.skb s.cur (if last then some skb else none),
           cur := increaseCyclic s.cur,
           events := s.events ++ (if last then [.put skb s.cur] else []),
           synced := s.synced ++ [sync] }

/-- The first data buffer; a lone linear part is padded to the minimum size. -/
def firstPart (p : Packet) : Part :=
  (virtToPhys p.data,
    BitVec.ofNat 16 (if p.frags = [] ∧ p.linear < pktMinSize then pktMinSize else p.linear))

def fillFirst (s : Tx) (p : Packet) : Tx :=
  fillSlot s p.skb (p.frags = []) (firstPart p) (p.data, (firstPart p).2.toNat)

/-- The buffer of a fragment, with what is missing to the minimum size added to it. -/
def fragPart (frag : Frag) (paddingSize : Int) : Part :=
  (virtToPhys (frag.page + frag.pageOffset.setWidth 32),
    if paddingSize > 0 then frag.size + BitVec.ofInt 16 paddingSize else frag.size)

/-- The loop over the fragments. -/
def fillFrags (skb : Nat) (offset : U32) : List Frag → Int → Tx → Tx
  | [], _, s => s
  | frag :: rest, paddingSize, s =>
    let paddingSize := paddingSize - frag.size.toNat
    fillFrags skb offset rest paddingSize
      (fillSlot s skb (rest = []) (fragPart frag paddingSize)
        (frag.page + offset, frag.size.toNat))

/-- Handing one descriptor over to the hardware. -/
def handOver (s : Tx) (idx : Nat) : Tx :=
  { s with desc := Function.update s.desc idx { s.desc idx with cown := false } }

/-- Handing `r` descriptors from `idx` on to the hardware. -/
def give (hw : Nat → Nat) : Nat → Nat → Tx → Tx
  | 0, _, s => s
  | r + 1, idx, s =>
    give hw r (increaseCyclic idx) (handOver (completions (hw r) s) idx)

/-- The loop that frees what the scan found. -/
def freeAll (s : Tx) (r : Reclaim) (beyond : Nat → Option Nat) : Tx :=
  let xs := (List.range r.count).filterMap (r.load beyond)
  { s with events := s.events ++ xs.map TxEvent.kfree, freed := s.freed ++ xs }

inductive TxResult
  | ok
  | busy
deriving DecidableEq

/-- What a call does once it has found its descriptors free: it fills and hands over. -/
def acceptPacket (s : Tx) (p : Packet) (env : SendEnv) : Tx :=
  let orgIndex := s.cur
  let s := fillFrags p.skb env.offset p.frags (ethZlen - p.linear) (fillFirst s p)
  let s := give (fun r => env.hw (p.frags.length + 1 + r)) (p.frags.length + 1) orgIndex s
  { s with txPackets := s.txPackets + 1, txBytes := s.txBytes + p.len,
           accepted := s.accepted ++ [p] }

/-- `star_nic_send_packet` in the compiled configuration. -/
def sendPacket (s : Tx) (p : Packet) (env : SendEnv) : Tx × TxResult :=
  match scan env.hw p.frags.length (p.frags.length + 1) s.cur {} s with
  | (s, none) => (s, .busy)
  | (s, some free) => (freeAll (acceptPacket s p env) free env.beyond, .ok)

inductive TxAct
  | complete
  | send (p : Packet) (env : SendEnv)

def txStep (s : Tx) : TxAct → Option Tx
  | .complete => complete s
  | .send p env => if p.frags.length ≤ maxSkbFrags then some (sendPacket s p env).1 else none

end SnakeOs.Nic
