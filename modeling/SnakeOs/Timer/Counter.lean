import Mathlib.Algebra.Group.Nat.Defs
import Mathlib.Data.List.Basic
import Mathlib.Tactic.Common
import SnakeOs.Lib.Runs

namespace SnakeOs.Timer
open Lib

/-- A read that has taken `str8100_counter_tick`: the true count and whether an overflow
interrupt was pending then, and the tick it got. -/
structure Latched where
  start : Nat
  pending : Bool
  tick : Nat
deriving DecidableEq

/-- A finished read: the true count at its start, its value, and the count at its end. -/
structure CounterRead where
  start : Nat
  value : Nat
  stop : Nat
deriving DecidableEq

/-- Timer 2 and its software part. `count` is the number of cycles since the timer was
enabled; the register shows its low 32 bits. -/
structure Counter where
  count : Nat
  overflow : Bool
  counterTick : Nat
  started : List Latched
  reads : List CounterRead

/-- The state `str8100_counter_setup` leaves. -/
def counterSetup : Counter := ⟨0, false, 0, [], []⟩

/-- `TIMER2_COUNTER_REG`. -/
def Counter.timer2CounterReg (s : Counter) : Nat := s.count % 2 ^ 32

/-- `str8100_counter_interrupt`, with the match values at 0. -/
def counterInterrupt (s : Counter) : Counter :=
  { s with overflow := false, counterTick := (s.counterTick + 2 ^ 32) % 2 ^ 64 }

/-- The value of `str8100_counter_tick + TIMER2_COUNTER_REG` for a read with the tick in
hand. -/
def Counter.valueOf (s : Counter) (l : Latched) : Nat := (l.tick + s.timer2CounterReg) % 2 ^ 64

inductive CounterAct
  | count
  | interrupt
  | startRead
  | endRead (i : Nat)

/-- The timer counts one cycle, the handler runs, a read takes the tick, and a read takes
the register. The handler has run before the next wrap. -/
def counterStep (s : Counter) : CounterAct → Option Counter
  | .count =>
    if (s.count + 1) % 2 ^ 32 = 0 then
      if s.overflow then none else some { s with count := s.count + 1, overflow := true }
    else some { s with count := s.count + 1 }
  | .interrupt => if s.overflow then some (counterInterrupt s) else none
  | .startRead =>
    some { s with started := s.started ++ [⟨s.count, s.overflow, s.counterTick⟩] }
  | .endRead i => s.started[i]?.map fun l =>
    { s with started := s.started.eraseIdx i,
             reads := s.reads ++ [⟨l.start, s.valueOf l, s.count⟩] }

/-- No overflow was pending when the read took the tick, and the counter has not wrapped
since. -/
def Unwrapped (s : Counter) : CounterAct → Prop
  | .endRead i => ∀ l ∈ s.started[i]?,
      l.pending = false ∧ s.count / 2 ^ 32 = l.start / 2 ^ 32 ∧ s.count < 2 ^ 64
  | _ => True

instance (s : Counter) : (a : CounterAct) → Decidable (Unwrapped s a)
  | .endRead i => inferInstanceAs (Decidable (∀ l ∈ s.started[i]?, _))
  | .count | .interrupt | .startRead => .isTrue trivial

/-- What the reads are to be. -/
structure ReadsSound (s : Counter) : Prop where
  between : ∀ r ∈ s.reads, r.start ≤ r.value ∧ r.value ≤ r.stop
  sorted : (s.reads.map CounterRead.value).Pairwise (· ≤ ·)

/-- The tick at a true count: all wraps, less the one whose handler is still to run. -/
def tickAt (count : Nat) (pending : Bool) : Nat :=
  2 ^ 32 * (count / 2 ^ 32 - if pending then 1 else 0) % 2 ^ 64

structure CounterInv (s : Counter) : Prop extends ReadsSound s where
  tick : s.counterTick = tickAt s.count s.overflow
  wrapped : s.overflow = true → 2 ^ 32 ≤ s.count
  started : ∀ l ∈ s.started, l.start ≤ s.count ∧ l.tick = tickAt l.start l.pending ∧
    (l.pending = true → 2 ^ 32 ≤ l.start)
  past : ∀ r ∈ s.reads, r.value ≤ s.count

theorem count_inv {s t : Counter} (h : CounterInv s) (ht : counterStep s .count = some t) :
    CounterInv t := by
  have htick := h.tick
  have hwrapped := h.wrapped
  have hstarted : ∀ l ∈ s.started, l.start ≤ s.count + 1 ∧ l.tick = tickAt l.start l.pending ∧
      (l.pending = true → 2 ^ 32 ≤ l.start) := fun l hl =>
    ⟨Nat.le_succ_of_le (h.started l hl).1, (h.started l hl).2⟩
  have hpast : ∀ r ∈ s.reads, r.value ≤ s.count + 1 := fun r hr => Nat.le_succ_of_le (h.past r hr)
  simp only [counterStep] at ht
  split at ht
  · rename_i hwrap
    cases ho : s.overflow with
    | true => simp [ho] at ht
    | false =>
      rw [ho] at htick
      simp only [ho, Bool.false_eq_true, if_false] at ht
      obtain rfl := Option.some.inj ht
      refine ⟨⟨h.between, h.sorted⟩, ?_, fun _ => ?_, hstarted, hpast⟩
      · simp only [tickAt, Bool.false_eq_true, if_false, if_true] at htick ⊢
        omega
      · dsimp only
        omega
  · obtain rfl := Option.some.inj ht
    refine ⟨⟨h.between, h.sorted⟩, ?_, fun ho => Nat.le_succ_of_le (hwrapped ho), hstarted, hpast⟩
    simp only [tickAt] at htick ⊢
    omega

theorem interrupt_inv {s t : Counter} (h : CounterInv s) (ht : counterStep s .interrupt = some t) :
    CounterInv t := by
  have htick := h.tick
  have hwrapped := h.wrapped
  simp only [counterStep] at ht
  cases ho : s.overflow with
  | false => simp [ho] at ht
  | true =>
    rw [ho] at htick
    simp only [ho, if_true] at ht
    obtain rfl := Option.some.inj ht
    have hge := hwrapped ho
    refine ⟨⟨h.between, h.sorted⟩, ?_, fun hf => (by cases hf), h.started, h.past⟩
    simp only [counterInterrupt, tickAt, Bool.false_eq_true, if_false, if_true] at htick ⊢
    omega

theorem startRead_inv {s t : Counter} (h : CounterInv s) (ht : counterStep s .startRead = some t) :
    CounterInv t := by
  obtain rfl := Option.some.inj ht
  refine ⟨⟨h.between, h.sorted⟩, h.tick, h.wrapped, fun l hl => ?_, h.past⟩
  rcases List.mem_append.mp hl with hl | hl
  · exact h.started l hl
  · obtain rfl := List.mem_singleton.mp hl
    exact ⟨Nat.le_refl _, h.tick, h.wrapped⟩

/-- With every wrap in its tick a read gets the true count. -/
theorem valueOf_eq {s : Counter} {l : Latched} (ht : l.tick = tickAt l.start l.pending)
    (hp : l.pending = false) (hw : s.count / 2 ^ 32 = l.start / 2 ^ 32) (hc : s.count < 2 ^ 64) :
    s.valueOf l = s.count := by
  simp only [Counter.valueOf, Counter.timer2CounterReg, ht, tickAt, hp, Bool.false_eq_true, if_false]
  omega

theorem endRead_inv {s t : Counter} {i : Nat} (h : CounterInv s) (hok : Unwrapped s (.endRead i))
    (ht : counterStep s (.endRead i) = some t) : CounterInv t := by
  obtain ⟨l, hl, rfl⟩ := Option.map_eq_some_iff.mp ht
  obtain ⟨hp, hw, hc⟩ := hok l hl
  obtain ⟨hstart, htick, _⟩ := h.started l (List.mem_of_getElem? hl)
  have hvalue := valueOf_eq htick hp hw hc
  refine ⟨⟨fun r hr => ?_, ?_⟩, h.tick, h.wrapped, fun q hq => ?_, fun r hr => ?_⟩
  · rcases List.mem_append.mp hr with hr | hr
    · exact h.between r hr
    · obtain rfl := List.mem_singleton.mp hr
      dsimp only
      omega
  · rw [List.map_append, List.pairwise_append]
    refine ⟨h.sorted, List.pairwise_singleton _ _, fun a ha b hb => ?_⟩
    obtain ⟨r, hr, rfl⟩ := List.mem_map.mp ha
    obtain rfl := List.mem_singleton.mp hb
    have := h.past r hr
    dsimp only
    omega
  · exact h.started q (List.mem_of_mem_eraseIdx hq)
  · rcases List.mem_append.mp hr with hr | hr
    · exact h.past r hr
    · obtain rfl := List.mem_singleton.mp hr
      dsimp only
      omega

theorem CounterInv.reach {s : Counter} (h : Reach counterStep Unwrapped counterSetup s) :
    CounterInv s := by
  refine h.invariant ⟨⟨by simp [counterSetup], by simp [counterSetup]⟩, rfl, by simp [counterSetup],
    by simp [counterSetup], by simp [counterSetup]⟩ fun u a t hu hok ht => ?_
  cases a with
  | count => exact count_inv hu ht
  | interrupt => exact interrupt_inv hu ht
  | startRead => exact startRead_inv hu ht
  | endRead i => exact endRead_inv hu hok ht

/-- In every run whose reads are not crossed by a wrap the values read are in order, each
between the true counts at its start and at its end. A read of fewer than 2^32 cycles that is
crossed by one is not. -/
theorem counter_reads_sound {s : Counter} (h : Reach counterStep Unwrapped counterSetup s) :
    ReadsSound s ∧ ∀ i l, s.started[i]? = some l → s.count < 2 ^ 64 → s.count < l.start + 2 ^ 32 →
      (l.start ≤ s.valueOf l ∧ s.valueOf l ≤ s.count ↔ Unwrapped s (.endRead i)) := by
  have hinv := CounterInv.reach h
  refine ⟨hinv.toReadsSound, fun i l hl hc hfast => ?_⟩
  obtain ⟨hstart, htick, hpend⟩ := hinv.started l (List.mem_of_getElem? hl)
  constructor
  · intro hb l' hl'
    obtain rfl : l = l' := Option.some.inj (hl.symm.trans hl')
    simp only [Counter.valueOf, Counter.timer2CounterReg, htick, tickAt] at hb
    cases hp : l.pending with
    | true =>
      have := hpend hp
      simp only [hp, if_true] at hb
      omega
    | false =>
      simp only [hp, Bool.false_eq_true, if_false] at hb
      refine ⟨rfl, ?_, hc⟩
      omega
  · intro hu
    obtain ⟨hp, hw, _⟩ := hu l hl
    have := valueOf_eq htick hp hw hc
    omega

theorem reach_count {ok : Counter → CounterAct → Prop} (hok : ∀ s, ok s .count) {n : Nat}
    (h : n < 2 ^ 32) : Reach counterStep ok counterSetup ⟨n, false, 0, [], []⟩ := by
  induction n with
  | zero => exact Reach.start
  | succ n ih =>
    have hwrap : (n + 1) % 2 ^ 32 ≠ 0 := by omega
    exact (ih (by omega)).next (a := .count) (hok _) (if_neg hwrap)

/-- Two reads at once before the counter wraps, and one behind the handler. -/
def aroundWrap : List CounterAct :=
  [.startRead, .startRead, .endRead 1, .endRead 0, .count, .interrupt, .startRead, .count,
    .endRead 0]

theorem counter_reads_sound_wrap : ∃ s, Reach counterStep Unwrapped counterSetup s ∧
    s.reads = [⟨2 ^ 32 - 1, 2 ^ 32 - 1, 2 ^ 32 - 1⟩, ⟨2 ^ 32 - 1, 2 ^ 32 - 1, 2 ^ 32 - 1⟩,
      ⟨2 ^ 32, 2 ^ 32 + 1, 2 ^ 32 + 1⟩] ∧ ReadsSound s := by
  have hrun : ∃ s, run counterStep Unwrapped aroundWrap ⟨2 ^ 32 - 1, false, 0, [], []⟩ = some s ∧
      s.reads = [⟨2 ^ 32 - 1, 2 ^ 32 - 1, 2 ^ 32 - 1⟩, ⟨2 ^ 32 - 1, 2 ^ 32 - 1, 2 ^ 32 - 1⟩,
        ⟨2 ^ 32, 2 ^ 32 + 1, 2 ^ 32 + 1⟩] := ⟨_, rfl, rfl⟩
  obtain ⟨s, hs, hreads⟩ := hrun
  have hreach := (reach_count (fun _ => trivial) (by omega)).run aroundWrap hs
  exact ⟨s, hreach, hreads, (counter_reads_sound hreach).1⟩

/-- A read before the counter wraps, and one between the wrap and its handler. -/
def acrossWrap : List CounterAct := [.startRead, .endRead 0, .count, .startRead, .endRead 0]

/-- The second value is 0. -/
theorem read_across_wrap : ∃ s, Reach counterStep anyStep counterSetup s ∧
    s.reads = [⟨2 ^ 32 - 1, 2 ^ 32 - 1, 2 ^ 32 - 1⟩, ⟨2 ^ 32, 0, 2 ^ 32⟩] ∧ ¬ReadsSound s := by
  have hrun : ∃ s, run counterStep anyStep acrossWrap ⟨2 ^ 32 - 1, false, 0, [], []⟩ = some s ∧
      s.reads = [⟨2 ^ 32 - 1, 2 ^ 32 - 1, 2 ^ 32 - 1⟩, ⟨2 ^ 32, 0, 2 ^ 32⟩] := ⟨_, rfl, rfl⟩
  obtain ⟨s, hs, hreads⟩ := hrun
  refine ⟨s, (reach_count (fun _ => trivial) (by omega)).run acrossWrap hs, hreads, fun hsound => ?_⟩
  have hb := hsound.between ⟨2 ^ 32, 0, 2 ^ 32⟩ (by simp [hreads])
  exact absurd hb.1 (by decide)

end SnakeOs.Timer
