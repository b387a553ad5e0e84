import SnakeOs.Nic.Transmit
import SnakeOs.Lib.Ring

namespace SnakeOs.Nic
open Arch Lib

def freeTxSkbMultiMax : Nat := 16
def maxTxSkbFreeNum : Nat := freeTxSkbMultiMax + maxSkbFrags

/-- The ring with `FREE_TX_SKB_MULTI`, where `to_free_index` goes round behind the
hardware. `owner` says whose data a descriptor points to. -/
structure TxMulti where
  tx : Tx
  toFree : Nat
  owner : Nat → Option Nat

def multiAlloc : TxMulti := ⟨txAlloc, 0, fun _ => none⟩

/-- A store into the local array `skb_free`; past the end it is lost. -/
def stash (free : List Nat) (x : Nat) : List Nat :=
  if free.length < maxTxSkbFreeNum then free ++ [x] else free

def clearSlot (s : Tx) (i : Nat) : Tx := { s with skb := Function.update s.skb i none }

/-- The loop at `to_free_index`, with `n` rounds to go: it takes the skb out of a slot
whose descriptor came back. -/
def sweep (hw : Nat → Nat) : Nat → List Nat → TxMulti → TxMulti × List Nat
  | 0, free, s => (s, free)
  | n + 1, free, s =>
    let tx := completions (hw (freeTxSkbMultiMax - (n + 1))) s.tx
    if (tx.desc s.toFree).cown = false then ({ s with tx := tx }, free)
    else
      let (tx, free) := match tx.skb s.toFree with
        | some x => (clearSlot tx s.toFree, stash free x)
        | none => (tx, free)
      let s := { s with tx := tx, toFree := increaseCyclic s.toFree }
      if free.length = freeTxSkbMultiMax then (s, free) else sweep hw n free s

/-- The scan for free descriptors at `cur_index`: it notes the skbs of the slots it passes
and pushes `to_free_index` along, but leaves the slots as they are. The Boolean says
whether it found `r` free ones. -/
def scanMulti (hw : Nat → Nat) (nrFrags : Nat) :
    Nat → Nat → List Nat → TxMulti → TxMulti × List Nat × Bool
  | 0, _, free, s => (s, free, true)
  | r + 1, idx, free, s =>
    let f := nrFrags - r
    let tx := completions (hw f) s.tx
    if (tx.desc idx).cown = false then ({ s with tx := tx }, free, false)
    else
      let free := match tx.skb idx with
        | some x => stash free x
        | none => free
      scanMulti hw nrFrags r (increaseCyclic idx) free
        { s with tx := mark tx idx (f = 0) (f = nrFrags),
                 toFree := if idx = s.toFree then increaseCyclic s.toFree else s.toFree }

/-- `dev_kfree_skb` for each entry of `skb_free`. -/
def release (s : TxMulti) (free : List Nat) : TxMulti :=
  { s with tx := { s.tx with events := s.tx.events ++ free.map TxEvent.kfree,
                             freed := s.tx.freed ++ free } }

/-- The rest of a call that found its descriptors. -/
def acceptMulti (s : TxMulti) (p : Packet) (env : SendEnv) : TxMulti :=
  { s with tx := acceptPacket s.tx p env,
           owner := fun i => if i ∈ window maxTfdNum s.tx.cur (p.frags.length + 1) then some p.skb
             else s.owner i }

/-- What the hardware does after the sweep of a call. -/
def SendEnv.afterSweep (env : SendEnv) : SendEnv :=
  { env with hw := fun k => env.hw (freeTxSkbMultiMax + k) }

/-- `star_nic_send_packet` with `FREE_TX_SKB_MULTI`; the way out with `NETDEV_TX_BUSY`
frees what was collected so far as well. -/
def sendMulti (s : TxMulti) (p : Packet) (env : SendEnv) : TxMulti × TxResult :=
  let swept := sweep env.hw freeTxSkbMultiMax [] s
  match scanMulti env.afterSweep.hw p.frags.length (p.frags.length + 1) swept.1.tx.cur swept.2
      swept.1 with
  | (s, free, false) => (release s free, .busy)
  | (s, free, true) => (release (acceptMulti s p env.afterSweep) free, .ok)

def multiStep (s : TxMulti) : TxAct → Option TxMulti
  | .complete => (complete s.tx).map fun tx => { s with tx := tx }
  | .send p env => if p.frags.length ≤ maxSkbFrags then some (sendMulti s p env).1 else none

end SnakeOs.Nic
