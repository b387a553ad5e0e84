import SnakeOs.Flash.Isolation

namespace SnakeOs.Flash
open Arch Lib
open Lib.Client (issued answers run_bind run_pure issued_bind issued_pure)

def mtdCapRam : UInt32 := 11

inductive CacheState where
  | empty
  | clean
  | dirty
  deriving DecidableEq, Repr

/-- `struct mtdblk_dev`. The allocation of `cache_data` always succeeds. -/
structure Mtdblk where
  count : Nat
  cacheData : Nat → U8
  cacheOffset : Nat
  cacheSize : Nat
  cacheState : CacheState

/-- The bytes a read stored in a buffer. -/
def Reply.buffer (r : Reply) : Nat → U8 := fun i => BitVec.ofNat 8 (r.bytes.getD i 0)

/-- `ret = ..; if (ret) return ret;` -/
def checked (q : Client Call Reply (Int × Mtdblk)) (f : Mtdblk → Client Call Reply (Int × Mtdblk)) :
    Client Call Reply (Int × Mtdblk) :=
  q >>= fun r => if r.1 ≠ 0 then pure r else f r.2

/-- `erase_write` -/
def eraseWrite (p : Part) (pos len : Nat) (buf : Nat → U8) : Client Call Reply Int := do
  let erased ← p.handle (.erase (UInt32.ofNat pos) (UInt32.ofNat len))
  if erased.ret ≠ 0 then return erased.ret
  else
    let written ← p.handle (.write (Int64.ofNat pos) (UInt32.ofNat len) fun i => (buf i).toNat)
    if written.ret ≠ 0 then return written.ret
    else if written.retlen ≠ some len then return eio
    else return 0

/-- `write_cached_data` -/
def writeCachedData (p : Part) (b : Mtdblk) : Client Call Reply (Int × Mtdblk) :=
  if b.cacheState ≠ .dirty then .done (0, b)
  else do
    let ret ← eraseWrite p b.cacheOffset b.cacheSize b.cacheData
    if ret ≠ 0 then return (ret, b) else return (0, { b with cacheState := .empty })

/-- The cache is made to hold the sector at `sectStart`. -/
def fillCache (p : Part) (sectStart sectSize : Nat) (b : Mtdblk) :
    Client Call Reply (Int × Mtdblk) :=
  if b.cacheState = .empty ∨ b.cacheOffset ≠ sectStart then do
    let r ← p.handle (.read (Int64.ofNat sectStart) (UInt32.ofNat sectSize))
    if r.ret ≠ 0 then return (r.ret, { b with cacheState := .empty })
    else if r.retlen ≠ some sectSize then return (eio, { b with cacheState := .empty })
    else return (0, { b with
      cacheData := r.buffer, cacheOffset := sectStart, cacheSize := sectSize, cacheState := .clean })
  else .done (0, b)

/-- A dirty sector of another place is written back before the cache is used for this one. -/
def evict (p : Part) (sectStart : Nat) (b : Mtdblk) : Client Call Reply (Int × Mtdblk) :=
  if b.cacheState = .dirty ∧ b.cacheOffset ≠ sectStart then writeCachedData p b else .done (0, b)

/-- The partial sector of a pass of `do_cached_write`. -/
def writeCached (p : Part) (sectStart offset size : Nat) (buf : Nat → U8) (b : Mtdblk) :
    Client Call Reply (Int × Mtdblk) :=
  checked (evict p sectStart b) fun b => checked (fillCache p sectStart b.cacheSize b) fun b =>
    .done (0, { b with
      cacheData := fun i => if offset ≤ i ∧ i < offset + size then buf (i - offset)
        else b.cacheData i
      cacheState := .dirty })

/-- The loop of `do_cached_write`; every pass moves at least one byte, so `len` bounds the
passes. -/
def cachedWriteLoop (p : Part) : Nat → Nat → Nat → (Nat → U8) → Mtdblk →
    Client Call Reply (Int × Mtdblk)
  | 0, _, _, _, b => .done (0, b)
  | n + 1, pos, len, buf, b =>
    if len = 0 then .done (0, b)
    else
      let sectStart := pos / b.cacheSize * b.cacheSize
      let offset := pos - sectStart
      let size := min (b.cacheSize - offset) len
      if size = b.cacheSize then do
        let ret ← eraseWrite p pos size buf
        if ret ≠ 0 then return (ret, b)
        else cachedWriteLoop p n (pos + size) (len - size) (fun i => buf (size + i)) b
      else checked (writeCached p sectStart offset size buf b)
        (cachedWriteLoop p n (pos + size) (len - size) fun i => buf (size + i))

/-- `do_cached_write` -/
def doCachedWrite (p : Part) (pos len : Nat) (buf : Nat → U8) (b : Mtdblk) :
    Client Call Reply (Int × Mtdblk) :=
  if b.cacheSize = 0 then do
    let r ← p.handle (.write (Int64.ofNat pos) (UInt32.ofNat len) fun i => (buf i).toNat)
    return (r.ret, b)
  else cachedWriteLoop p len pos len buf b

/-- The loop of `do_cached_read`, with the bytes put into the buffer. -/
def cachedReadLoop (p : Part) (b : Mtdblk) : Nat → Nat → Nat → Client Call Reply (Int × List Nat)
  | 0, _, _ => .done (0, [])
  | n + 1, pos, len =>
    if len = 0 then .done (0, [])
    else
      let sectStart := pos / b.cacheSize * b.cacheSize
      let offset := pos - sectStart
      let size := min (b.cacheSize - offset) len
      if b.cacheState ≠ .empty ∧ b.cacheOffset = sectStart then do
        let (ret, rest) ← cachedReadLoop p b n (pos + size) (len - size)
        return (ret, (List.range size).map (fun i => (b.cacheData (offset + i)).toNat) ++ rest)
      else do
        let r ← p.handle (.read (Int64.ofNat pos) (UInt32.ofNat size))
        if r.ret ≠ 0 then return (r.ret, r.bytes)
        else if r.retlen ≠ some size then return (eio, r.bytes)
        else
          let (ret, rest) ← cachedReadLoop p b n (pos + size) (len - size)
          return (ret, r.bytes ++ rest)

/-- `do_cached_read` -/
def doCachedRead (p : Part) (b : Mtdblk) (pos len : Nat) : Client Call Reply (Int × List Nat) :=
  if b.cacheSize = 0 then do
    let r ← p.handle (.read (Int64.ofNat pos) (UInt32.ofNat len))
    return (r.ret, r.bytes)
  else cachedReadLoop p b len pos len

/-- `block << 9` -/
def blockPos (block : UInt32) : Nat := block.toNat * 512 % 2 ^ 32

/-- The sectors of a READ request of `do_blktrans_request`, one `mtdblock_readsect` each. -/
def readSectors (p : Part) (b : Mtdblk) : Nat → UInt32 → Client Call Reply (Bool × List Nat)
  | 0, _ => .done (true, [])
  | n + 1, block => do
    let (ret, bytes) ← doCachedRead p b (blockPos block) 512
    if ret ≠ 0 then return (false, bytes)
    else
      let (ok, rest) ← readSectors p b n (block + 1)
      return (ok, bytes ++ rest)

/-- The sectors of a WRITE request, one `mtdblock_writesect` each. -/
def writeSectors (p : Part) : Nat → UInt32 → (Nat → U8) → Mtdblk →
    Client Call Reply (Bool × Mtdblk)
  | 0, _, _, b => .done (true, b)
  | n + 1, block, buf, b => do
    let (ret, b) ← doCachedWrite p (blockPos block) 512 buf b
    if ret ≠ 0 then return (false, b)
    else writeSectors p n (block + 1) (fun i => buf (512 + i)) b

/-- What is done to a block device: opening and closing it, the `BLKFLSBUF` ioctl, and the
requests of its queue. -/
inductive BlockOp where
  | opened
  | released
  | flush
  | read (block nsect : UInt32)
  | write (block nsect : UInt32) (buf : Nat → U8)

structure BlockReply where
  ok : Bool
  bytes : List Nat
  deriving DecidableEq

/-- `mtdblock_open` -/
def mtdblockOpen (p : Part) : Option Mtdblk → Mtdblk
  | some b => { b with count := b.count + 1 }
  | none => ⟨1, fun _ => 0, 0, if p.flags &&& mtdCapRam ≠ mtdCapRam ∧ p.erasesize ≠ 0 then
      p.erasesize.toNat else 0, .empty⟩

/-- `mtdblock_release`, which drops the result of the write back. -/
def mtdblockRelease (p : Part) (b : Mtdblk) : Client Call Reply (Option Mtdblk) := do
  let (_, b) ← writeCachedData p b
  if b.count - 1 = 0 then return none else return some { b with count := b.count - 1 }

/-- One step on `mtdblks[dev]`. The block layer asks nothing of a device that is not open. -/
def blockStep (p : Part) : BlockOp → Option Mtdblk → Client Call Reply (BlockReply × Option Mtdblk)
  | .opened, b => .done (⟨true, []⟩, some (mtdblockOpen p b))
  | _, none => .done (⟨false, []⟩, none)
  | .released, some b => do
    let b ← mtdblockRelease p b
    return (⟨true, []⟩, b)
  | .flush, some b => do
    let (_, b) ← writeCachedData p b
    return (⟨true, []⟩, some b)
  | .read block nsect, some b =>
    if block + nsect > p.size / 512 then .done (⟨false, []⟩, some b)
    else do
      let (ok, bytes) ← readSectors p b nsect.toNat block
      return (⟨ok, bytes⟩, some b)
  | .write block nsect buf, some b =>
    if block + nsect > p.size / 512 then .done (⟨false, []⟩, some b)
    else do
      let (ok, b) ← writeSectors p nsect.toNat block buf b
      return (⟨ok, []⟩, some b)

end SnakeOs.Flash
