import Mathlib.Algebra.Group.Int.Defs
import Mathlib.Algebra.Group.Nat.Defs
import Mathlib.Data.List.Basic
import Mathlib.Logic.Function.Basic
import Mathlib.Tactic.Common

namespace SnakeOs.Spi

abbrev Byte := BitVec 8

/-- What the chip at the other end decides: the words found in
`SPI_RECEIVE_CONTROL_REG` and `SPI_RECEIVE_BUFFER_REG` at the k-th exchange. -/
structure Slave where
  control : Nat → BitVec 32
  buffer : Nat → BitVec 32

/-- One byte moved on the bus, with the channel and the EOF flag the transmit
control register held when it was sent. -/
structure Xchg where
  channel : BitVec 2
  eof : Bool
  out : Byte
  inn : Byte
  deriving DecidableEq, Repr

/-- The registers the driver writes, and every exchange so far. -/
structure Bus where
  configuration : BitVec 32
  transmitControl : BitVec 32
  bitRateControl : Nat
  xchgs : List Xchg
  deriving DecidableEq, Repr

/-- The fields of `struct spi_device` the controller reads; `microprocessor` is the
serial mode asked for in `controller_data`. -/
structure SpiDevice where
  chipSelect : BitVec 8
  cpha : Bool
  cpol : Bool
  microprocessor : Bool
  maxSpeedHz : Nat
  deriving DecidableEq, Repr

/-- `SPI_TRANSMIT_CONTROL_REG` after `&= ~(0x7)` and `|= value`. -/
def setTransmitControl (value : BitVec 32) (b : Bus) : Bus :=
  { b with transmitControl := (b.transmitControl &&& ~~~0x7#32) ||| value }

/-- `str8100_spi_tx_rx`, on a controller whose three waits end: whether the answer
carries the same channel and flag, and the word received. -/
def str8100SpiTxRx (w : Slave) (txChannel : BitVec 8) (txEofFlag : Bool) (txData : BitVec 32)
    (b : Bus) : Bool × BitVec 32 × Bus :=
  let b := setTransmitControl
    ((txChannel.setWidth 32 &&& 0x3#32) ||| ((BitVec.ofBool txEofFlag).setWidth 32 <<< 2)) b
  let k := b.xchgs.length
  let rxChannel := (w.control k &&& 0x3#32).setWidth 8
  let rxEofFlag := (w.control k).getLsbD 2
  let x : Xchg := ⟨b.transmitControl.setWidth 2, b.transmitControl.getLsbD 2,
    txData.setWidth 8, (w.buffer k).setWidth 8⟩
  (txChannel == rxChannel && txEofFlag == rxEofFlag, w.buffer k,
    { b with xchgs := b.xchgs ++ [x] })

inductive ChipSelect where
  | inactive
  | active
  deriving DecidableEq, Repr

/-- One bit of the configuration word, set or cleared. -/
def withBit (config : BitVec 32) (bit : Nat) (on : Bool) : BitVec 32 :=
  if on then config ||| (1#32 <<< bit) else config &&& ~~~(1#32 <<< bit)

/-- `str8100_spi_chipselect`, with `APB_clock` as an argument. -/
def str8100SpiChipselect (apbClock : Nat) (spi : SpiDevice) (value : ChipSelect) (b : Bus) : Bus :=
  match value with
  | .inactive => b
  | .active =>
    let config := b.configuration ||| (1#32 <<< 31)
    let config := withBit config 13 spi.cpha
    let config := withBit config 14 spi.cpol
    let config := withBit config 9 spi.microprocessor
    let b := setTransmitControl (spi.chipSelect.setWidth 32 &&& 0x3#32)
      { b with configuration := config }
    let rate := ((List.range 8).find? fun i => spi.maxSpeedHz > apbClock >>> i).getD 8
    { b with bitRateControl := rate }

/-- `struct spi_transfer`. `txBuf i` is the i-th byte of the transmit buffer as it
stands when the driver reads it, so the buffers of a message may overlap. -/
structure Transfer where
  txBuf : Option (Nat → Byte)
  rxBuf : Bool
  len : Nat
  csChange : Bool
  len_lt : len < 2 ^ 32

/-- What a transfer left in its receive buffer, position by position. -/
abbrev Rx := Nat → Option Byte

/-- One exchange of `str8100_spi_txrx`, followed by `rx[i] = rx_data` where the
source has it. -/
def exchange (w : Slave) (channel : BitVec 8) (eof : Bool) (byte : Byte) (keep : Bool) (i : Nat)
    (p : Rx × Bus) : Rx × Bus :=
  let r := str8100SpiTxRx w channel eof (byte.setWidth 32) p.2
  (if keep then Function.update p.1 i (some (r.2.1.setWidth 8)) else p.1, r.2.2)

/-- The iterations of `for (i = 0; i < hw->len - 1; i++)`, where `hw->len` is an
`int`. -/
def loopCount (len : Nat) : Nat := (((len : Int) - 1).bmod (2 ^ 32)).toNat

def exchangeLoop (w : Slave) (channel : BitVec 8) (byte : Nat → Byte) (keep : Bool) (n : Nat)
    (p : Rx × Bus) : Rx × Bus :=
  (List.range n).foldl (fun p i => exchange w channel false (byte i) keep i p) p

/-- `str8100_spi_txrx`: the value returned, the receive buffer and the bus. -/
def str8100SpiTxrx (w : Slave) (spi : SpiDevice) (t : Transfer) (lastInMessageList : Bool)
    (b : Bus) : Int × Rx × Bus :=
  let n := loopCount t.len
  let done := (t.len : Int).bmod (2 ^ 32)
  match t.txBuf with
  | some tx =>
    let p := exchangeLoop w spi.chipSelect tx t.rxBuf n (fun _ => none, b)
    if lastInMessageList then (done, exchange w spi.chipSelect true (tx n) t.rxBuf n p)
    else (done, exchange w spi.chipSelect false (tx n) false n p)
  | none =>
    if t.rxBuf then
      let p := exchangeLoop w spi.chipSelect (fun _ => 0xff) true n (fun _ => none, b)
      if lastInMessageList then (done, exchange w spi.chipSelect true 0xff true n p)
      else (done, exchange w spi.chipSelect false 0xff true n p)
    else (done, fun _ => none, b)

structure SpiMessage where
  spi : SpiDevice
  transfers : List Transfer

def eshutdown : Int := 108
def einval : Int := 22
def emsgsize : Int := 90

/-- Where the walk over the transfers of a message stopped: `status`, `cs_change`,
`actual_length`, the receive buffers of the transfers that ran, and the bus. -/
structure Walk where
  status : Int
  csChange : Bool
  actualLength : Nat
  rxs : List Rx
  bus : Bus

/-- The `list_for_each_entry` of `bitbang_work`. -/
def walkTransfers (w : Slave) (apbClock : Nat) (shutdown : Bool) (spi : SpiDevice) :
    List Transfer → Bool → Nat → Bus → Walk
  | [], csChange, actual, b => ⟨0, csChange, actual, [], b⟩
  | t :: rest, csChange, actual, b =>
    if shutdown then ⟨-eshutdown, csChange, actual, [], b⟩
    else
      let b := if csChange then str8100SpiChipselect apbClock spi .active b else b
      let csChange := t.csChange
      if t.txBuf.isNone ∧ t.rxBuf = false ∧ t.len ≠ 0 then ⟨-einval, csChange, actual, [], b⟩
      else
        -- the flag is worked out for a transfer that moves bytes, from its place in the list
        let r := if t.len ≠ 0 then str8100SpiTxrx w spi t rest.isEmpty b else (0, fun _ => none, b)
        let status := r.1
        if status % 2 ^ 32 ≠ t.len then
          ⟨if status > 0 then -emsgsize else status, csChange, actual, [r.2.1], r.2.2⟩
        else
          let actual := (((actual : Int) + status) % 2 ^ 32).toNat
          let b := if csChange ∧ rest ≠ [] then str8100SpiChipselect apbClock spi .inactive r.2.2
            else r.2.2
          let tail := walkTransfers w apbClock shutdown spi rest csChange actual b
          { tail with rxs := r.2.1 :: tail.rxs }

/-- What a completed message left behind. -/
structure Completed where
  status : Int
  actualLength : Nat
  rxs : List Rx
  xchgs : List Xchg

/-- One turn of the loop of `bitbang_work`. -/
def runMessage (w : Slave) (apbClock : Nat) (shutdown : Bool) (m : SpiMessage) (b : Bus) :
    Completed × Bus :=
  let r := walkTransfers w apbClock shutdown m.spi m.transfers true 0 b
  let done : Completed := ⟨r.status, r.actualLength, r.rxs, r.bus.xchgs.drop b.xchgs.length⟩
  if r.status = 0 ∧ r.csChange = true then (done, r.bus)
  else (done, str8100SpiChipselect apbClock m.spi .inactive r.bus)

/-- `bitbang_work` on the messages queued. -/
def bitbangWork (w : Slave) (apbClock : Nat) (shutdown : Bool) :
    List SpiMessage → Bus → List Completed × Bus
  | [], b => ([], b)
  | m :: queue, b =>
    let r := runMessage w apbClock shutdown m b
    let rest := bitbangWork w apbClock shutdown queue r.2
    (r.1 :: rest.1, rest.2)

end SnakeOs.Spi
