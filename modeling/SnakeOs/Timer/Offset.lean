import SnakeOs.Arch.Memory
import SnakeOs.Lib.Runs

namespace SnakeOs.Timer
open Arch

def hz : Nat := 100
def usecsPerJiffy : Nat := 1000000 / hz

/-- The clocks `str8100_early_init` computes from `PWRMGT_SYSTEM_CLOCK_CONTROL_REG`. -/
def pllClock (reg : U32) : Nat :=
  match (reg &&& 0x3).toNat with
  | 0 => 175000000
  | 1 => 200000000
  | 2 => 225000000
  | _ => 250000000

def cpuClock (reg : U32) : Nat := pllClock reg / ((reg >>> 2 &&& 0x3).toNat + 1)
def ahbClock (reg : U32) : Nat := cpuClock reg / ((reg >>> 4 &&& 0x3).toNat + 1)
def apbClock (reg : U32) : Nat := ahbClock reg / ((reg >>> 8 &&& 0x3).toNat + 1)

/-- `timer_counter_value` as `str8100_timer_init` sets it. -/
def timerCounterValue (apb : Nat) : Nat := apb / hz

def ticksPerUsec (apb : Nat) : Nat := apb / 1000000
def ticks2usecs (apb x : Nat) : Nat := x / ticksPerUsec apb

def overflowInterruptBit : Nat := 2
def timer2Match1InterruptBit : Nat := 3

/-- Where `str8100_gettimeoffset` stands: before its first counter read, before the
status read of a round, before the counter read that ends it. -/
inductive Reading
  | idle
  | start
  | status (ticks1 : Nat)
  | counter (ticks1 : Nat) (interruptStatus : U32)
deriving DecidableEq

/-- Timer 1, the status bits of timer 2, the tick count, a reader and the times read so
far, the first one first. -/
structure Clock where
  counter : Nat
  overflow : Bool
  timer2 : BitVec 3
  jiffies : Nat
  reading : Reading
  times : List Nat

/-- After `str8100_timer_init`, with any tick count and any state of timer 2. -/
def init (apb jiffies : Nat) (timer2 : BitVec 3) : Clock where
  counter := timerCounterValue apb
  overflow := false
  timer2 := timer2
  jiffies := jiffies
  reading := .idle
  times := []

/-- `TIMER1_TIMER2_INTERRUPT_STATUS_REG`. -/
def Clock.interruptStatus (s : Clock) : U32 :=
  (if s.overflow then 1 <<< overflowInterruptBit else 0) |||
    s.timer2.setWidth 32 <<< timer2Match1InterruptBit

/-- The time read when the loop ends with the counter at `ticks2`. -/
def timeOf (apb jiffies ticks2 : Nat) (interruptStatus : U32) : Nat :=
  let ticks1 := timerCounterValue apb - ticks2
  let ticks1 := if interruptStatus ≠ 0 then ticks1 + timerCounterValue apb else ticks1
  jiffies * usecsPerJiffy + ticks2usecs apb ticks1

/-- One register access of `str8100_gettimeoffset`. -/
def stepReading (apb : Nat) (s : Clock) : Option Clock :=
  match s.reading with
  | .idle => none
  | .start => some { s with reading := .status s.counter }
  | .status ticks1 => some { s with reading := .counter ticks1 s.interruptStatus }
  | .counter ticks1 interruptStatus =>
    if s.counter > ticks1 then some { s with reading := .status s.counter }
    else some { s with reading := .idle,
                       times := s.times ++ [timeOf apb s.jiffies s.counter interruptStatus] }

/-- What can happen next. The timer counts `n` ticks down; it reloads and latches its
overflow, once the tick before has been serviced, and whether it shows 0 before is left
open; interrupts are off while a reader is at work. -/
inductive Act
  | count (n : Nat)
  | reload
  | timer2 (bits : BitVec 3)
  | interrupt
  | read
  | work

def step (apb : Nat) (s : Clock) : Act → Option Clock
  | .count n => if n ≤ s.counter then some { s with counter := s.counter - n } else none
  | .reload =>
    if s.counter ≤ 1 ∧ s.overflow = false then
      some { s with counter := timerCounterValue apb, overflow := true }
    else none
  | .timer2 bits => some { s with timer2 := bits }
  | .interrupt =>
    if s.overflow ∧ s.reading = .idle then
      some { s with overflow := false, jiffies := s.jiffies + 1 }
    else none
  | .read => if s.reading = .idle then some { s with reading := .start } else none
  | .work => stepReading apb s

end SnakeOs.Timer
