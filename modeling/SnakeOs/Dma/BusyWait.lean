import Mathlib.Algebra.Group.Nat.Defs
import Mathlib.Data.List.Basic
import Mathlib.Tactic.Common
import SnakeOs.Arch.Memory

namespace SnakeOs.Dma.Busy
open Arch

/-- A chunk the engine of channel 7 works on: physical addresses, its bytes, and how many of
them have been copied. -/
structure Engine where
  src : U32
  dst : U32
  len : Nat
  copied : Nat
deriving DecidableEq

/-- Channel 7 of the controller. `lateTc` and `lateErr` count the chunks that have ended and
whose status is still to be set. -/
structure Ch7 where
  widthShift : Nat
  enabled : Bool
  srcAddr : U32
  dstAddr : U32
  size : Nat
  engine : Option Engine
  lateTc : Nat
  lateErr : Nat
  tcStatus : Bool
  errStatus : Bool
deriving DecidableEq

/-- Memory at the kernel's addresses, the channel, the accesses to the controller so far, and
the counts written to the size register. -/
structure Sys where
  mem : U32 → U8
  ch : Ch7
  now : Nat
  counts : List Nat

def physToVirt (x : U32) : U32 := x + pageOffset

/-- What the controller may do: copy a byte, end a chunk copied whole, set the TC status of a
chunk that has ended, give a chunk up with an error, set its error status, and drop an
unfinished chunk of a disabled channel. -/
inductive Move
  | copy
  | finish
  | raiseTc
  | fail
  | raiseErr
  | stop
deriving DecidableEq

/-- One move; one that is not possible changes nothing. -/
def Sys.move (s : Sys) : Move → Sys
  | .copy =>
    match s.ch.engine with
    | none => s
    | some e =>
      if e.copied < e.len then
        { s with mem := Function.update s.mem (physToVirt e.dst + BitVec.ofNat 32 e.copied)
                   (s.mem (physToVirt e.src + BitVec.ofNat 32 e.copied))
                 ch := { s.ch with engine := some { e with copied := e.copied + 1 } } }
      else s
  | .finish =>
    match s.ch.engine with
    | none => s
    | some e =>
      if e.copied = e.len then
        { s with ch := { s.ch with engine := none, lateTc := s.ch.lateTc + 1 } }
      else s
  | .raiseTc =>
    if 0 < s.ch.lateTc then
      { s with ch := { s.ch with lateTc := s.ch.lateTc - 1, tcStatus := true } }
    else s
  | .fail =>
    match s.ch.engine with
    | none => s
    | some _ => { s with ch := { s.ch with engine := none, lateErr := s.ch.lateErr + 1 } }
  | .raiseErr =>
    if 0 < s.ch.lateErr then
      { s with ch := { s.ch with lateErr := s.ch.lateErr - 1, errStatus := true } }
    else s
  | .stop => if s.ch.enabled then s else { s with ch := { s.ch with engine := none } }

/-- A behaviour of the controller: the moves it makes before the next access, which may depend
on everything that has happened. -/
abbrev Controller := Sys → List Move

/-- The controller's moves before an access. -/
def access (hw : Controller) (s : Sys) : Sys :=
  let s := (hw s).foldl Sys.move s
  { s with now := s.now + 1 }

/-- `while (DMAC_CH_BUSY_STATUS_REG & ...) udelay(1);` with a bound on the rounds, `none` when
the channel is busy in all of them. -/
def waitIdle (hw : Controller) : Nat → Sys → Option Sys
  | 0, _ => none
  | n + 1, s =>
    let s := access hw s
    if s.ch.engine.isSome then waitIdle hw n s else some s

inductive Polled
  | tc
  | err
  | timeout
deriving DecidableEq

/-- The loop over the two status registers, with `n` rounds to go. -/
def pollStatus (hw : Controller) : Nat → Sys → Polled × Sys
  | 0, s => (.timeout, s)
  | n + 1, s =>
    let s := access hw s
    if s.ch.tcStatus then (.tc, s)
    else
      let s := access hw s
      if s.ch.errStatus then (.err, s) else pollStatus hw n s

/-- `memcpy`, with the controller going on beside it. -/
def memcpy (hw : Controller) (dst src : U32) : Nat → Sys → Sys
  | 0, s => s
  | n + 1, s =>
    let s := access hw (memcpy hw dst src n s)
    { s with mem := Function.update s.mem (dst + BitVec.ofNat 32 n)
               (s.mem (src + BitVec.ofNat 32 n)) }

def dmaCopyBusyWaitLoop : Nat := 1000

/-- Setting `DMAC_CH_SRC_ADDR_REG`, `DMAC_CH_DST_ADDR_REG` and `DMAC_CH_SIZE_REG`. -/
def writeRegs (hw : Controller) (dst src : U32) (count : Nat) (s : Sys) : Sys :=
  let s := access hw s
  let s := { s with ch := { s.ch with srcAddr := virtToPhys src } }
  let s := access hw s
  let s := { s with ch := { s.ch with dstAddr := virtToPhys dst } }
  let s := access hw s
  { s with ch := { s.ch with size := count }, counts := s.counts ++ [count] }

/-- Setting the enable bit, with which the engine takes the registers up. -/
def enable (hw : Controller) (s : Sys) : Sys :=
  let s := access hw s
  { s with ch := { s.ch with
      enabled := true
      engine := some ⟨s.ch.srcAddr, s.ch.dstAddr, s.ch.size <<< s.ch.widthShift, 0⟩ } }

def disable (hw : Controller) (s : Sys) : Sys :=
  let s := access hw s
  { s with ch := { s.ch with enabled := false } }

def clearTc (hw : Controller) (s : Sys) : Sys :=
  let s := access hw s
  { s with ch := { s.ch with tcStatus := false } }

def clearErr (hw : Controller) (s : Sys) : Sys :=
  let s := access hw s
  { s with ch := { s.ch with errStatus := false } }

/-- `dma_copy_busy_wait`. -/
def dmaCopyBusyWait (hw : Controller) (fuel : Nat) (dst src : U32) (len dmaLenShift : Nat)
    (s : Sys) : Option Sys :=
  let count := len >>> dmaLenShift
  (waitIdle hw fuel s).map fun s =>
    let s := enable hw (writeRegs hw dst src count s)
    let r := pollStatus hw dmaCopyBusyWaitLoop s
    let s := disable hw r.2
    match r.1 with
    | .err => memcpy hw dst src (count <<< dmaLenShift) (clearErr hw s)
    | .timeout => memcpy hw dst src (count <<< dmaLenShift) s
    | .tc => clearTc hw s

/-- The width the alignment of the three arguments allows: 32, 16 or 8 bits. -/
def lenShift (dst src : U32) (len : Nat) : Nat :=
  if src &&& 0x3 = 0 ∧ dst &&& 0x3 = 0 ∧ len &&& 3 = 0 then 2
  else if src &&& 0x1 = 0 ∧ dst &&& 0x1 = 0 ∧ len &&& 1 = 0 then 1
  else 0

/-- `DMA_MAX_LEN_8BIT_WIDTH` and its siblings. -/
def dmaMaxLen (dmaLenShift : Nat) : Nat := 0xfff <<< dmaLenShift

/-- `while (len)`; every round shortens what is left, so `len` rounds are enough. -/
def copyChunks (hw : Controller) (fuel dmaLenShift : Nat) :
    Nat → U32 → U32 → Nat → Sys → Option Sys
  | _, _, _, 0, s => some s
  | 0, _, _, _ + 1, _ => none
  | rounds + 1, pdst, psrc, len + 1, s =>
    let maxLen := dmaMaxLen dmaLenShift
    if len + 1 > maxLen then
      (dmaCopyBusyWait hw fuel pdst psrc maxLen dmaLenShift s).bind
        (copyChunks hw fuel dmaLenShift rounds (pdst + BitVec.ofNat 32 maxLen)
          (psrc + BitVec.ofNat 32 maxLen) (len + 1 - maxLen))
    else dmaCopyBusyWait hw fuel pdst psrc (len + 1) dmaLenShift s

/-- `dma_memcpy_busy_wait`. The control word set at the start holds the width and no enable
bit. -/
def dmaMemcpyBusyWait (hw : Controller) (fuel : Nat) (dst src : U32) (len : Nat) (s : Sys) :
    Option Sys :=
  let dmaLenShift := lenShift dst src len
  let s := access hw s
  let s := { s with ch := { s.ch with widthShift := dmaLenShift, enabled := false } }
  copyChunks hw fuel dmaLenShift len dst src len s

end SnakeOs.Dma.Busy
