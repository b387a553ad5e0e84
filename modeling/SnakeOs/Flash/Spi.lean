import Mathlib.Algebra.Group.Int.Defs
import Mathlib.Algebra.Group.Nat.Defs
import Mathlib.Data.List.Basic
import Mathlib.Tactic.Common

namespace SnakeOs.Flash

/-- One call of `Spi_Flash_Buffer_Transmit_Receive`: the byte sent with its EOF
flag, the byte that came back, and whether the chip was busy with an internal
write (WIP) while it was moved. -/
structure Xchg where
  eof : Bool
  tx : Nat
  rx : Nat
  wip : Bool
  deriving DecidableEq, Repr

abbrev Frame := List Xchg

def wipBit : Nat := 0x01
def welBit : Nat := 0x02

def wrenOpcode : Nat := 0x06
def rdsrOpcode : Nat := 0x05
def fastReadOpcode : Nat := 0x0B
def ppOpcode : Nat := 0x02
def seOpcode : Nat := 0xD8

/-- What the chip may choose freely: how many status polls answer WIP after its
k-th program or erase, the other status bits at its k-th status read, and every
byte it shifts out besides. -/
structure Chip where
  waits : Nat → Nat
  status : Nat → Nat
  data : Nat → Nat

/-- The bus as the chip sees it. `frames` are the frames closed by an EOF byte
so far and `cur` is the frame still open; `busy` counts the status polls that
will still show WIP. -/
structure Spi where
  frames : List Frame
  cur : Frame
  busy : Nat
  cycles : Nat
  polls : Nat
  moved : Nat

def Spi.init (busy : Nat) : Spi := ⟨[], [], busy, 0, 0, 0⟩

/-- The first byte of a frame selects the command. -/
def opcode (f : Frame) : Option Nat := f.head?.map Xchg.tx

def Spi.statusByte (c : Chip) (s : Spi) : Nat :=
  c.status s.polls % 256 / 2 * 2 + (if s.busy = 0 then 0 else wipBit)

/-- The byte shifted out: the status register behind RDSR, any byte otherwise. -/
def Spi.answer (c : Chip) (s : Spi) : Nat :=
  if opcode s.cur = some rdsrOpcode then s.statusByte c else c.data s.moved % 256

/-- The EOF byte ends the frame: a status read is one poll, and a program or an
erase starts the next internal write. -/
def Spi.close (c : Chip) (s : Spi) (f : Frame) : Spi :=
  let s := { s with frames := s.frames ++ [f], cur := [], moved := s.moved + 1 }
  if opcode f = some rdsrOpcode then { s with busy := s.busy - 1, polls := s.polls + 1 }
  else if opcode f = some ppOpcode ∨ opcode f = some seOpcode then
    { s with busy := c.waits s.cycles, cycles := s.cycles + 1 }
  else s

/-- `Spi_Flash_Buffer_Transmit_Receive`. The controller is set to 8 bit shifts,
so only the low byte of `tx_data` reaches the chip. -/
def bufferTransmitReceive (c : Chip) (txEofFlag : Bool) (txData : Nat) (s : Spi) : Nat × Spi :=
  let rx := s.answer c
  let f := s.cur ++ [⟨txEofFlag, txData % 256, rx, s.busy != 0⟩]
  (rx, if txEofFlag then s.close c f else { s with cur := f, moved := s.moved + 1 })

/-- `Spi_Flash_Read_Status_Register`. -/
def readStatusRegister (c : Chip) (s : Spi) : Nat × Spi :=
  let (_, s) := bufferTransmitReceive c false rdsrOpcode s
  let (rxData, s) := bufferTransmitReceive c true 0xFF s
  (rxData % 256, s)

/-- `Spi_Flash_Is_Flash_Ready`. -/
def isFlashReady (c : Chip) (s : Spi) : Bool × Spi :=
  let (statusReg, s) := readStatusRegister c s
  (statusReg &&& wipBit == 0, s)

/-- `while (!Spi_Flash_Is_Flash_Ready(..)) ;` with a bound on the polls. -/
def pollReady (c : Chip) : Nat → Spi → Spi
  | 0, s => s
  | n + 1, s =>
    let (ready, s) := isFlashReady c s
    if ready then s else pollReady c n s

/-- The chip answers WIP for `busy` more polls, so the loop takes one more. -/
def waitReady (c : Chip) (s : Spi) : Spi := pollReady c (s.busy + 1) s

/-- `Spi_Flash_Set_Write_Enable`. -/
def setWriteEnable (c : Chip) (s : Spi) : Bool × Spi :=
  let s := waitReady c s
  let (_, s) := bufferTransmitReceive c true wrenOpcode s
  let (statusReg, s) := readStatusRegister c s
  (statusReg &&& welBit != 0, s)

/-- The three address bytes of a command, most significant first. -/
def sendAddress (c : Chip) (address : Nat) (lastEof : Bool) (s : Spi) : Spi :=
  let (_, s) := bufferTransmitReceive c false (address >>> 16 &&& 0xFF) s
  let (_, s) := bufferTransmitReceive c false (address >>> 8 &&& 0xFF) s
  (bufferTransmitReceive c lastEof (address &&& 0xFF) s).2

/-- Unsigned 32 bit `n - 1`, as in the bounds `len - 1` of the data loops. -/
def predU32 (n : Nat) : Nat := if n = 0 then 0xFFFFFFFF else n - 1

def readLoop (c : Chip) : Nat → Spi → List Nat × Spi
  | 0, s => ([], s)
  | n + 1, s =>
    let (rxData, s) := bufferTransmitReceive c false 0xFF s
    let (rest, s) := readLoop c n s
    (rxData % 256 :: rest, s)

/-- `Spi_Flash_Read_Data_Bytes`, returning the bytes stored in `read_buffer`. -/
def readDataBytes (c : Chip) (address len : Nat) (s : Spi) : List Nat × Spi :=
  let s := waitReady c s
  let (_, s) := bufferTransmitReceive c false fastReadOpcode s
  let s := sendAddress c address false s
  let (_, s) := bufferTransmitReceive c false (address &&& 0xFF) s
  let bytes := readLoop c (predU32 len) s
  let last := bufferTransmitReceive c true 0xFF bytes.2
  (bytes.1 ++ [last.1 % 256], last.2)

/-- `struct spi_flash_info` without the embedded `mtd_info`. -/
structure FlashInfo where
  sectors : Nat
  sectorSize : Nat
  pages : Nat
  pageSize : Nat
  deriving DecidableEq, Repr

def maxPageNum : Nat := 32768
def spiFlashPageSize : Nat := 256
def spiFlashSectorSize : Nat := 0x10000

/-- The switch of `spiflash_probe` over the identification bytes. -/
def spiflashProbe (manufacturerId deviceId : Nat) : Option FlashInfo :=
  if (manufacturerId, deviceId) = (0x20, 0x2016) then
    some ⟨64, spiFlashSectorSize, 16384, spiFlashPageSize⟩
  else if (manufacturerId, deviceId) = (0x20, 0x2017) then
    some ⟨128, spiFlashSectorSize, 32768, spiFlashPageSize⟩
  else if (manufacturerId, deviceId) = (0xC2, 0x2016) then
    some ⟨64, spiFlashSectorSize, 16384, spiFlashPageSize⟩
  else if (manufacturerId, deviceId) = (0xC2, 0x2017) then
    some ⟨128, spiFlashSectorSize, 32768, spiFlashPageSize⟩
  else none

/-- `spi_flash_bank[0]` after a successful probe. -/
structure Bank where
  info : FlashInfo
  probed : ∃ manufacturerId deviceId, spiflashProbe manufacturerId deviceId = some info

/-- `mtd->size` and `mtd->erasesize` as `str8100_spiflash_init` sets them. -/
def Bank.size (g : Bank) : Nat := g.info.sectors * g.info.sectorSize
def Bank.eraseSize (g : Bank) : Nat := g.info.sectorSize

/-- `Spi_Flash_Sector_Erase`. -/
def sectorErase (g : Bank) (c : Chip) (sectorAddr : Nat) (s : Spi) : Bool × Spi :=
  if sectorAddr > g.info.sectors * g.info.sectorSize then (false, s)
  else
    let (enabled, s) := setWriteEnable c s
    if enabled then
      let (_, s) := bufferTransmitReceive c false seOpcode s
      (true, sendAddress c sectorAddr true s)
    else (false, s)

def programLoop (c : Chip) (writeBuffer : Nat → Nat) : Nat → Nat → Spi → Spi
  | 0, _, s => s
  | n + 1, ii, s =>
    programLoop c writeBuffer n (ii + 1) (bufferTransmitReceive c false (writeBuffer ii) s).2

/-- `Spi_Flash_Page_Program_Data_Bytes`. The two range tests are nested in the
source, so only a request beyond both bounds is refused there. -/
def pageProgramDataBytes (g : Bank) (c : Chip) (address : Nat) (writeBuffer : Nat → Nat)
    (len : Nat) (s : Spi) : Bool × Spi :=
  if len > g.info.pageSize then (false, s)
  else if (address + len) % 2 ^ 32 > g.info.pages * g.info.pageSize ∧
      (address + len) % 2 ^ 32 > maxPageNum * spiFlashPageSize then (false, s)
  else if address / g.info.pageSize ≠
      (address + predU32 len) % 2 ^ 32 / g.info.pageSize then (false, s)
  else
    let (enabled, s) := setWriteEnable c s
    if !enabled then (false, s)
    else
      let (_, s) := bufferTransmitReceive c false ppOpcode s
      let s := sendAddress c address false s
      let s := programLoop c writeBuffer (predU32 len) 0 s
      (true, (bufferTransmitReceive c true (writeBuffer (predU32 len)) s).2)

end SnakeOs.Flash
