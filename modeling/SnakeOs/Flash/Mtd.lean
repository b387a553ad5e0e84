import SnakeOs.Flash.Spi

namespace SnakeOs.Flash

def einval : Int := -22
def eio : Int := -5

inductive EraseState where
  | done
  | failed
  deriving DecidableEq, Repr

/-- What `str8100_spiflash_erase` leaves behind: its return value, the state
stored in `instr` (if any) and the bus. -/
structure EraseResult where
  ret : Int
  state : Option EraseState
  spi : Spi

/-- `i * flash_info->sector_size` in 32 bits. -/
def sectorStart (g : Bank) (i : Nat) : Nat := i * g.info.sectorSize % 2 ^ 32

/-- The searching loops of the erase: the first `i` of the next `n` sectors that
does not `continue`. -/
def firstSector (stop : Nat → Bool) : Nat → Nat → Option Nat
  | 0, _ => none
  | n + 1, i => if stop i then some i else firstSector stop n (i + 1)

/-- `start_sector` keeps its initial 0 when no sector starts beyond `addr`. -/
def startSector (g : Bank) (addr : Nat) : Nat :=
  match firstSector (fun i => addr < sectorStart g i) g.info.sectors 0 with
  | some i => predU32 i
  | none => 0

/-- `end_sector` likewise keeps 0 when the range reaches beyond every start. -/
def endSector (g : Bank) (addr len : Nat) : Nat :=
  match firstSector (fun i => (addr + len) % 2 ^ 32 ≤ sectorStart g i)
      (g.info.sectors - startSector g addr) (startSector g addr) with
  | some i => predU32 i
  | none => 0

/-- The erasing loop over the `n` sectors from `i`. Where `end_sector` is the
wrapped 0xFFFFFFFF the source has no other exit than a failing sector. -/
def eraseLoop (g : Bank) (c : Chip) : Nat → Nat → Spi → Bool × Spi
  | 0, _, s => (true, s)
  | n + 1, i, s =>
    let (ok, s) := sectorErase g c (sectorStart g i) s
    if ok then eraseLoop g c n (i + 1) s else (false, s)

/-- The sanity checks at the head of `str8100_spiflash_erase`. -/
def eraseRejects (g : Bank) (addr len : Nat) : Bool :=
  (addr + len) % 2 ^ 32 > g.size || len % g.eraseSize != 0 ||
    len % g.info.sectorSize != 0 || addr % g.info.sectorSize != 0

/-- `str8100_spiflash_erase`. -/
def spiflashErase (g : Bank) (c : Chip) (addr len : Nat) (s : Spi) : EraseResult :=
  if eraseRejects g addr len then ⟨einval, none, s⟩
  else
    let first := startSector g addr
    let erased := eraseLoop g c (endSector g addr len + 1 - first) first s
    if erased.1 then ⟨0, some .done, erased.2⟩ else ⟨eio, some .failed, erased.2⟩

/-- Return value, the bytes stored in `buf` and `*retlen` where it is written. -/
structure ReadResult where
  ret : Int
  retlen : Option Nat
  bytes : List Nat
  spi : Spi

/-- `loff_t` arithmetic: 64 bit two's complement. -/
def loff (n : Int) : Int := n.bmod (2 ^ 64)

/-- Conversion of a `loff_t` to `u32`. -/
def toU32 (n : Int) : Nat := (n % 2 ^ 32).toNat

/-- `str8100_spiflash_read`. -/
def spiflashRead (g : Bank) (c : Chip) (start : Int) (len : Nat) (s : Spi) : ReadResult :=
  if len = 0 then ⟨0, none, [], s⟩
  else if loff (start + len) > g.size then ⟨einval, none, [], s⟩
  else
    let read := readDataBytes c (toU32 start) len s
    ⟨0, some len, read.1, read.2⟩

structure WriteResult where
  ret : Int
  retlen : Option Nat
  spi : Spi

/-- The next chunk: a whole page's size, or what is left of the request. -/
def progSize (g : Bank) (progSizeLeft : Nat) : Nat :=
  if progSizeLeft ≥ g.info.pageSize then g.info.pageSize else progSizeLeft

/-- The chunk loop of `str8100_spiflash_write`. Every pass programs at least one
byte, so `progSizeLeft` itself bounds the passes. -/
def writeLoop (g : Bank) (c : Chip) (dst : Int) (buf : Nat → Nat) :
    Nat → Nat → Nat → Spi → WriteResult
  | 0, _, progSizeTotal, s => ⟨0, some progSizeTotal, s⟩
  | n + 1, progSizeLeft, progSizeTotal, s =>
    if progSizeLeft = 0 then ⟨0, some progSizeTotal, s⟩
    else
      let size := progSize g progSizeLeft
      let (ok, s) := pageProgramDataBytes g c (toU32 (dst + progSizeTotal))
        (fun ii => buf (progSizeTotal + ii)) size s
      if ok then writeLoop g c dst buf n (progSizeLeft - size) (progSizeTotal + size) s
      else ⟨eio, some progSizeTotal, s⟩

/-- `str8100_spiflash_write`. -/
def spiflashWrite (g : Bank) (c : Chip) (dst : Int) (len : Nat) (buf : Nat → Nat) (s : Spi) :
    WriteResult :=
  if len = 0 then ⟨0, none, s⟩
  else if loff (dst + len) > g.size then ⟨einval, none, s⟩
  else writeLoop g c dst buf len len 0 s

/-- A call of one of the three `mtd` entry points. Addresses and lengths of an
erase and the length of a transfer are 32 bit, the offset of a transfer is a
`loff_t`. -/
inductive Call where
  | erase (addr len : UInt32)
  | read (start : Int64) (len : UInt32)
  | write (dst : Int64) (len : UInt32) (buf : Nat → Nat)

def Call.perform (g : Bank) (c : Chip) (s : Spi) : Call → Spi
  | .erase addr len => (spiflashErase g c addr.toNat len.toNat s).spi
  | .read start len => (spiflashRead g c start.toInt len.toNat s).spi
  | .write dst len buf => (spiflashWrite g c dst.toInt len.toNat buf s).spi

/-- The bus after a sequence of calls. -/
def performAll (g : Bank) (c : Chip) (s : Spi) (calls : List Call) : Spi :=
  calls.foldl (Call.perform g c) s

end SnakeOs.Flash
