import SnakeOs.Timer.Offset

namespace SnakeOs.Timer
open Arch Lib

/-- The next access is the one to the status register. -/
def Reading.looks : Reading → Bool
  | .status _ => true
  | _ => false

/-- Timer 2 shows no status of its own where the reader looks for that of timer 1. -/
def Unshared (s : Clock) : Act → Prop
  | .work => s.reading.looks = true → s.timer2 = 0 ∨ s.overflow = true
  | _ => True

instance (s : Clock) : (a : Act) → Decidable (Unshared s a)
  | .work => inferInstanceAs (Decidable (_ → _))
  | .count _ | .reload | .timer2 _ | .interrupt | .read => .isTrue trivial

/-- The ticks that have passed when the counter stands at `counter`. -/
def ticksAt (apb jiffies : Nat) (overflow : Bool) (counter : Nat) : Nat :=
  jiffies * timerCounterValue apb + (if overflow then timerCounterValue apb else 0) +
    (timerCounterValue apb - counter)

/-- Nothing read so far lies after the given number of ticks. -/
def NotAfter (apb : Nat) (s : Clock) (ticks : Nat) : Prop :=
  ∀ v ∈ s.times, v ≤ ticks / ticksPerUsec apb

/-- What the reader has seen so far bounds the times read before from above; interrupts
being off, an overflow it has seen is still there. -/
def Seen (apb : Nat) (s : Clock) : Reading → Prop
  | .idle => True
  | .start => True
  | .status ticks1 => ∃ overflow, (overflow = true → s.overflow = true) ∧
      NotAfter apb s (ticksAt apb s.jiffies overflow ticks1)
  | .counter ticks1 status => (status ≠ 0 → s.overflow = true) ∧
      NotAfter apb s (ticksAt apb s.jiffies (status != 0) ticks1)

structure Inv (apb : Nat) (s : Clock) : Prop where
  counter : s.counter ≤ timerCounterValue apb
  sorted : s.times.Pairwise (· ≤ ·)
  past : NotAfter apb s (ticksAt apb s.jiffies s.overflow s.counter)
  seen : Seen apb s s.reading

theorem NotAfter.mono {apb m n : Nat} {s : Clock} (h : NotAfter apb s m) (hmn : m ≤ n) :
    NotAfter apb s n :=
  fun v hv => Nat.le_trans (h v hv) (Nat.div_le_div_right hmn)

/-- Time does not run backwards when the counter goes down or an overflow is added. -/
theorem ticksAt_le {apb jiffies a b : Nat} {p q : Bool} (hpq : p = true → q = true)
    (hab : b ≤ a) : ticksAt apb jiffies p a ≤ ticksAt apb jiffies q b := by
  unfold ticksAt
  cases p with
  | false => simp only [Bool.false_eq_true, ↓reduceIte]; omega
  | true =>
    rw [hpq rfl]
    omega

theorem interruptStatus_eq {s : Clock} (h : s.timer2 = 0 ∨ s.overflow = true) :
    (s.interruptStatus != 0) = s.overflow := by
  unfold Clock.interruptStatus
  cases ho : s.overflow with
  | false =>
    rw [ho] at h
    obtain h | h := h
    · rw [h]
      rfl
    · cases h
  | true =>
    have hset : ∀ t : BitVec 3, ((1 <<< overflowInterruptBit : U32) |||
        t.setWidth 32 <<< timer2Match1InterruptBit != 0) = true := by decide
    exact hset s.timer2

/-- On a whole number of ticks a microsecond, the time read is the number of ticks that
have passed. -/
theorem timeOf_eq {apb : Nat} (hapb : apb % 1000000 = 0) (hpos : 0 < apb)
    (jiffies ticks2 : Nat) (status : U32) :
    timeOf apb jiffies ticks2 status =
      ticksAt apb jiffies (status != 0) ticks2 / ticksPerUsec apb := by
  have hper : 0 < ticksPerUsec apb := by
    unfold ticksPerUsec
    omega
  have hval : jiffies * timerCounterValue apb = jiffies * usecsPerJiffy * ticksPerUsec apb := by
    have : timerCounterValue apb = usecsPerJiffy * ticksPerUsec apb := by
      unfold timerCounterValue usecsPerJiffy ticksPerUsec hz
      omega
    rw [this, Nat.mul_assoc]
  simp only [timeOf, ticksAt, ticks2usecs, hval]
  rw [Nat.add_assoc, Nat.add_comm, Nat.add_comm (jiffies * usecsPerJiffy * _),
    Nat.add_mul_div_right _ _ hper]
  by_cases h0 : status = 0#32
  · simp [h0]
  · simp [h0, Nat.add_comm]

theorem init_inv (apb jiffies : Nat) (timer2 : BitVec 3) : Inv apb (init apb jiffies timer2) :=
  ⟨Nat.le_refl _, List.Pairwise.nil, fun v hv => by simp [init] at hv, trivial⟩

/-- The timer and its status may move on under a reader. -/
theorem Inv.moves {apb : Nat} {s t : Clock} (h : Inv apb s)
    (hcounter : t.counter ≤ timerCounterValue apb) (htimes : t.times = s.times)
    (hjiffies : t.jiffies = s.jiffies) (hreading : t.reading = s.reading)
    (hover : s.overflow = true → t.overflow = true)
    (hticks : ticksAt apb s.jiffies s.overflow s.counter ≤
      ticksAt apb t.jiffies t.overflow t.counter) : Inv apb t := by
  have hafter : ∀ n, NotAfter apb s n → NotAfter apb t n := by
    intro n hn
    rwa [NotAfter, htimes]
  refine ⟨hcounter, htimes ▸ h.sorted, hafter _ (h.past.mono hticks), ?_⟩
  have hseen := h.seen
  rw [hreading]
  cases hr : s.reading with
  | idle => trivial
  | start => trivial
  | status ticks1 =>
    rw [hr] at hseen
    obtain ⟨overflow, ho, hn⟩ := hseen
    exact ⟨overflow, fun he => hover (ho he), hjiffies ▸ hafter _ hn⟩
  | counter ticks1 status =>
    rw [hr] at hseen
    exact ⟨fun he => hover (hseen.1 he), hjiffies ▸ hafter _ hseen.2⟩

/-- A reader at rest leaves nothing to remember. -/
theorem Inv.rests {apb : Nat} {s t : Clock} (h : Inv apb s) (hreading : Seen apb t t.reading)
    (hcounter : t.counter = s.counter) (htimes : t.times = s.times)
    (hticks : ticksAt apb s.jiffies s.overflow s.counter ≤
      ticksAt apb t.jiffies t.overflow t.counter) : Inv apb t where
  counter := hcounter ▸ h.counter
  sorted := htimes ▸ h.sorted
  past := by
    rw [NotAfter, htimes]
    exact h.past.mono hticks
  seen := hreading

/-- One register access. The time read at the end lies between the ticks at the counter
read before the status and the ticks now. -/
theorem stepReading_inv {apb : Nat} {s t : Clock} (hapb : apb % 1000000 = 0) (hpos : 0 < apb)
    (h : Inv apb s) (hok : Unshared s .work) (ht : stepReading apb s = some t) : Inv apb t := by
  have hseen := h.seen
  unfold stepReading at ht
  cases hr : s.reading with
  | idle => simp [hr] at ht
  | start =>
    simp only [hr, Option.some.injEq] at ht
    subst t
    exact h.rests ⟨s.overflow, id, h.past⟩ rfl rfl (Nat.le_refl _)
  | status ticks1 =>
    simp only [hr, Option.some.injEq] at ht
    rw [hr] at hseen
    obtain ⟨overflow, ho, hn⟩ := hseen
    have hstatus := interruptStatus_eq (hok (by rw [hr]; rfl))
    subst t
    refine h.rests ⟨fun hne => ?_, ?_⟩ rfl rfl (Nat.le_refl _)
    · rw [← hstatus]
      simpa using hne
    · refine hn.mono (ticksAt_le (fun he => ?_) (Nat.le_refl _))
      rw [hstatus]
      exact ho he
  | counter ticks1 status =>
    rw [hr] at hseen
    obtain ⟨hover, hn⟩ := hseen
    simp only [hr] at ht
    split at ht
    · obtain rfl := Option.some.inj ht
      exact h.rests ⟨s.overflow, id, h.past⟩ rfl rfl (Nat.le_refl _)
    · rename_i hle
      obtain rfl := Option.some.inj ht
      have hnow : ticksAt apb s.jiffies (status != 0) s.counter ≤
          ticksAt apb s.jiffies s.overflow s.counter :=
        ticksAt_le (fun he => hover (by simpa using he)) (Nat.le_refl _)
      have hbefore : ticksAt apb s.jiffies (status != 0) ticks1 ≤
          ticksAt apb s.jiffies (status != 0) s.counter :=
        ticksAt_le id (by omega)
      refine ⟨h.counter, ?_, ?_, trivial⟩
      · refine List.pairwise_append.mpr ⟨h.sorted, List.pairwise_singleton _ _, ?_⟩
        intro v hv w hw
        rw [List.mem_singleton.mp hw, timeOf_eq hapb hpos]
        exact hn.mono hbefore v hv
      · intro v hv
        rcases List.mem_append.mp hv with hv | hv
        · exact h.past v hv
        · rw [List.mem_singleton.mp hv, timeOf_eq hapb hpos]
          exact Nat.div_le_div_right hnow

theorem step_inv {apb : Nat} {s t : Clock} {a : Act} (hapb : apb % 1000000 = 0) (hpos : 0 < apb)
    (h : Inv apb s) (hok : Unshared s a) (ht : step apb s a = some t) : Inv apb t := by
  have hc := h.counter
  cases a with
  | count n =>
    simp only [step] at ht
    split at ht
    · obtain rfl := Option.some.inj ht
      refine h.moves ?_ rfl rfl rfl id (ticksAt_le id ?_)
      · simp only
        omega
      · simp only
        omega
    · cases ht
  | reload =>
    simp only [step] at ht
    split at ht
    · rename_i hcond
      obtain rfl := Option.some.inj ht
      refine h.moves (Nat.le_refl _) rfl rfl rfl (fun _ => rfl) ?_
      simp only [ticksAt, hcond.2]
      simp only [Bool.false_eq_true, ↓reduceIte]
      omega
    · cases ht
  | timer2 bits =>
    obtain rfl := Option.some.inj ht
    exact h.moves hc rfl rfl rfl id (Nat.le_refl _)
  | interrupt =>
    simp only [step] at ht
    split at ht
    · rename_i hcond
      obtain rfl := Option.some.inj ht
      refine h.rests ?_ rfl rfl ?_
      · simp only [hcond.2]
        trivial
      · simp only [ticksAt, hcond.1, ↓reduceIte, Bool.false_eq_true, Nat.succ_mul]
        omega
    · cases ht
  | read =>
    simp only [step] at ht
    split at ht
    · obtain rfl := Option.some.inj ht
      exact h.rests trivial rfl rfl (Nat.le_refl _)
    · cases ht
  | work => exact stepReading_inv hapb hpos h hok ht

theorem div_field_pos {x y : Nat} (field : U32) (h : y * 4 ≤ x) :
    y ≤ x / ((field &&& 0x3).toNat + 1) := by
  have hf : (field &&& 0x3).toNat ≤ 3 := by
    rw [BitVec.toNat_and]
    exact Nat.and_le_right
  refine (Nat.le_div_iff_mul_le (Nat.succ_pos _)).mpr (Nat.le_trans ?_ h)
  exact Nat.mul_le_mul_left y (by omega)

theorem apbClock_pos (reg : U32) : 0 < apbClock reg := by
  have hpll : 64 ≤ pllClock reg := by
    unfold pllClock
    split <;> decide
  exact div_field_pos _ (div_field_pos _ (div_field_pos _ hpll))

/-- With a bus clock of whole megahertz, and no status of timer 2 taken for one of timer
1, the times read never decrease. -/
theorem time_never_decreases (reg : U32) (jiffies : Nat) (timer2 : BitVec 3) {s : Clock}
    (hapb : apbClock reg % 1000000 = 0)
    (h : Reach (step (apbClock reg)) Unshared (init (apbClock reg) jiffies timer2) s) :
    s.times.Pairwise (· ≤ ·) := by
  have hinv : Inv (apbClock reg) s := h.invariant (init_inv _ jiffies timer2)
    fun _ _ _ hu hok ht => step_inv hapb (apbClock_pos reg) hu hok ht
  exact hinv.sorted

/-- Two readings around a reload that is serviced in between. -/
def aroundReload : List Act :=
  [.count 1749999, .read, .work, .work, .work, .reload, .interrupt, .read, .work, .work, .work]

theorem run_times {apb jiffies : Nat} {timer2 : BitVec 3} {ok : Clock → Act → Prop}
    [∀ s a, Decidable (ok s a)] {times : List Nat} (acts : List Act)
    (h : (run (step apb) ok acts (init apb jiffies timer2)).map Clock.times = some times) :
    ∃ s, Reach (step apb) ok (init apb jiffies timer2) s ∧ s.times = times := by
  obtain ⟨s, hs, ht⟩ := Option.map_eq_some_iff.mp h
  exact ⟨s, Reach.start.run acts hs, ht⟩

theorem time_never_decreases_reload : ∃ s,
    Reach (step (apbClock 0)) Unshared (init (apbClock 0) 7 0) s ∧ s.times = [79999, 80000] ∧
      s.times.Pairwise (· ≤ ·) := by
  obtain ⟨s, hs, ht⟩ : ∃ s, Reach (step (apbClock 0)) Unshared (init (apbClock 0) 7 0) s ∧
      s.times = [79999, 80000] := run_times aroundReload (by decide +kernel)
  exact ⟨s, hs, ht, time_never_decreases 0 7 0 (by decide) hs⟩

/-- A status bit of timer 2 is taken for a reload of timer 1 and adds a tick that is gone
at the next reading; and at 43.75 MHz the truncated 43 ticks a microsecond make the time
before a reload later than the time after it. -/
theorem time_decreases :
    (∃ s, Reach (step (apbClock 0)) anyStep (init (apbClock 0) 0 0) s ∧
      s.times = [10000, 0] ∧ ¬ s.times.Pairwise (· ≤ ·)) ∧
    (∃ s, Reach (step (apbClock 0x300)) anyStep (init (apbClock 0x300) 0 0) s ∧
      s.times = [10174, 10000] ∧ ¬ s.times.Pairwise (· ≤ ·)) := by
  constructor
  · obtain ⟨s, hs, ht⟩ : ∃ s, Reach (step (apbClock 0)) anyStep (init (apbClock 0) 0 0) s ∧
        s.times = [10000, 0] :=
      run_times [.timer2 1, .read, .work, .work, .work, .timer2 0, .read, .work, .work,
        .work] (by decide +kernel)
    exact ⟨s, hs, ht, by rw [ht]; decide⟩
  · obtain ⟨s, hs, ht⟩ : ∃ s, Reach (step (apbClock 0x300)) anyStep
        (init (apbClock 0x300) 0 0) s ∧ s.times = [10174, 10000] :=
      run_times [.count 437500, .read, .work, .work, .work, .reload, .interrupt, .read,
        .work, .work, .work] (by decide +kernel)
    exact ⟨s, hs, ht, by rw [ht]; decide⟩

end SnakeOs.Timer
