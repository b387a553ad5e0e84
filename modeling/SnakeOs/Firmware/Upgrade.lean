import Mathlib.Algebra.Group.Nat.Defs
import SnakeOs.Lib.Text

namespace SnakeOs.Firmware
open Lib

abbrev Bytes := List UInt8

/-- Two lower case hexadecimal digits, as `%02x` and `md5sum` print a byte. -/
def hex2 (b : UInt8) : Line := [Nat.digitChar (b.toNat / 16), Nat.digitChar (b.toNat % 16)]

/-- `%08x` of an offset. -/
def hex8 (n : Nat) : Line :=
  (List.range 8).map fun k => Nat.digitChar (n / 16 ^ (7 - k) % 16)

/-- `%_p`: printable ASCII as it is, everything else as a dot. -/
def printChar (b : UInt8) : Char :=
  if 0x20 ≤ b.toNat ∧ b.toNat ≤ 0x7e then Char.ofNat b.toNat else '.'

/-- One byte column of `hexdump -C` with the blank that follows it; a column
beyond the end of the input is blank. -/
def hexColumn : Option UInt8 → Line
  | some b => hex2 b ++ [' ']
  | none => [' ', ' ', ' ']

/-- A dump line: offset, two groups of eight columns, the printable characters. -/
def hexdumpLine (offset : Nat) (bs : Bytes) : Line :=
  hex8 offset ++ [' ', ' '] ++ (List.range 8).flatMap (fun k => hexColumn bs[k]?) ++ [' '] ++
    (List.range 8).flatMap (fun k => hexColumn bs[k + 8]?) ++ [' ', '|'] ++
    bs.map printChar ++ ['|']

/-- `hexdump -C`: a line for each 16 bytes, repeated lines squeezed into one `*`,
then the length. `last` is the block printed before. -/
def hexdumpFrom : Nat → Nat → Option Bytes → Bool → Bytes → List Line
  | 0, offset, _, _, _ => [hex8 offset]
  | n + 1, offset, last, starred, bs =>
    if bs = [] then [hex8 offset]
    else
      let block := bs.take 16
      let next := offset + block.length
      if last = some block then
        if starred then hexdumpFrom n next last true (bs.drop 16)
        else ['*'] :: hexdumpFrom n next last true (bs.drop 16)
      else hexdumpLine offset block :: hexdumpFrom n next (some block) false (bs.drop 16)

def hexdumpC (bs : Bytes) : List Line :=
  if bs = [] then [] else hexdumpFrom (bs.length + 1) 0 none false bs

def zeros8 : Line := List.replicate 8 '0'

/-- `hexdump -C | grep 00000000 | sed "s/00000000//g" | tr -d ' ' | cut -b 1-32` -/
def expsumLines (bs : Bytes) : List Line :=
  ((hexdumpC bs).filter (grepFixed zeros8)).map fun l =>
    cutBytes 32 (trDelete ' ' (sedDelete zeros8 l))

/-- Command substitution joins the lines and drops the final newlines. -/
def substitute (ls : List Line) : Line :=
  ((List.intercalate ['\n'] ls).reverse.dropWhile (· = '\n')).reverse

/-- `md5sum | cut -d ' ' -f 1` -/
def filesum (md5 : Bytes → Fin 16 → UInt8) (input : Bytes) : Line :=
  cutField ' ' 1 ((List.ofFn (md5 input)).flatMap hex2 ++ [' ', ' ', '-'])

/-- `dd bs=.. skip=.. count=..` from a regular file; without a count to its end. -/
def dd (bs skip : Nat) (count : Option Nat) (file : Bytes) : Bytes :=
  match count with
  | some n => (file.drop (skip * bs)).take (n * bs)
  | none => file.drop (skip * bs)

/-- A `dd` of the uploaded file to `/dev/mtdblock<device>` with `bs=65536`. -/
structure Segment where
  device : Nat
  skip : Nat
  count : Nat
  deriving DecidableEq, Repr

def blockSize : Nat := 65536

def Segment.start (s : Segment) : Nat := s.skip * blockSize
def Segment.length (s : Segment) : Nat := s.count * blockSize
def Segment.data (s : Segment) (file : Bytes) : Bytes := dd blockSize s.skip (some s.count) file

/-- The part of a branch of `firmware.cgi` after the size test: `blocks` is the
count and skip of the two 16 byte `dd` commands, `segments` the writes. -/
def upgrade (md5 : Bytes → Fin 16 → UInt8) (blocks : Nat) (segments : List Segment)
    (file : Bytes) : List Segment :=
  let et := dd 16 0 (some 1) (List.replicate 16 0)
  let nt := dd 16 0 (some blocks) file
  if filesum md5 (nt ++ et) = substitute (expsumLines (dd 16 blocks none file)) then segments
  else []

def fullSize : Nat := 4128768
def incrementalSize : Nat := 3866624

/-- The MTD writes `firmware.cgi` makes for an uploaded file, in order. -/
def firmwareCgi (md5 : Bytes → Fin 16 → UInt8) (file : Bytes) : List Segment :=
  if file.length = fullSize then
    upgrade md5 258047 [⟨1, 4, 2⟩, ⟨2, 6, 15⟩, ⟨3, 21, 42⟩] file
  else if file.length = incrementalSize then
    upgrade md5 241663 [⟨1, 0, 2⟩, ⟨2, 2, 15⟩, ⟨3, 17, 42⟩] file
  else []

structure Partition where
  offset : Nat
  size : Nat
  deriving DecidableEq, Repr

def bootOffset : Nat := 0x0
def cfgOffset : Nat := 0x40000
def kernelOffset : Nat := 0x60000
def initrdOffset : Nat := 0x150000
def webOffset : Nat := 0x0
def flashEnd : Nat := 0x3f0000

/-- `str8100_spi_flash_partitions`: BOOT, CFG, KERNEL, INITRD, WEB, ALL. The
n-th entry is `/dev/mtdblock<n>`. -/
def partitions : List Partition :=
  [⟨bootOffset, cfgOffset - bootOffset⟩, ⟨cfgOffset, kernelOffset - cfgOffset⟩,
    ⟨kernelOffset, initrdOffset - kernelOffset⟩, ⟨initrdOffset, flashEnd - initrdOffset⟩,
    ⟨webOffset, flashEnd - webOffset⟩, ⟨bootOffset, flashEnd - bootOffset⟩]

abbrev Flash := Nat → UInt8

/-- Writing a block device from its start; what does not fit is not written. -/
def writePartition (p : Partition) (data : Bytes) (flash : Flash) : Flash := fun a =>
  if p.offset ≤ a ∧ a < p.offset + min p.size data.length then data.getD (a - p.offset) 0
  else flash a

def Segment.apply (file : Bytes) (flash : Flash) (s : Segment) : Flash :=
  match partitions[s.device]? with
  | some p => writePartition p (s.data file) flash
  | none => flash

/-- The flash after the upload was handled. -/
def flashAfter (md5 : Bytes → Fin 16 → UInt8) (file : Bytes) (flash : Flash) : Flash :=
  (firmwareCgi md5 file).foldl (Segment.apply file) flash

end SnakeOs.Firmware
