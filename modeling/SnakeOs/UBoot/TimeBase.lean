import SnakeOs.Arch.Memory
import SnakeOs.Lib.Countdown
import Mathlib.Algebra.Order.Floor.Semiring
import Mathlib.Data.Rat.Floor
import Mathlib.Tactic.Linarith

namespace SnakeOs.UBoot
open Arch Lib

/-- The clock of timer 1: how much of a tick had passed at `interrupt_init`, in microseconds. -/
structure Clock where
  phase : ℚ
  nonneg : 0 ≤ phase
  short : phase < 1000

/-- The ticks of 1 kHz between `interrupt_init` and `t` microseconds after it. -/
def Clock.ticks (c : Clock) (t : ℚ) : Nat := Nat.floor ((t + c.phase) / 1000)

def timerLoadVal : U32 := 10

/-- `READ_TIMER` at a time. -/
def Clock.readTimer (c : Clock) (t : ℚ) : U32 :=
  BitVec.ofNat 32 (countdown timerLoadVal.toNat (c.ticks t))

structure TimeBase where
  timestamp : U32
  lastdec : U32

/-- What `interrupt_init` leaves. -/
def interruptInit : TimeBase := ⟨0, timerLoadVal⟩

/-- `get_timer_masked`, with the counter as it is read. -/
def getTimerMasked (now : U32) (s : TimeBase) : TimeBase × U32 :=
  let timestamp :=
    if now ≤ s.lastdec then s.timestamp + (s.lastdec - now)
    else s.timestamp + (s.lastdec + timerLoadVal - now)
  (⟨timestamp, now⟩, timestamp)

/-- `get_timer`. -/
def getTimer (now base : U32) (s : TimeBase) : TimeBase × U32 :=
  ((getTimerMasked now s).1, (getTimerMasked now s).2 - base)

/-- The ticks that `udelay` waits for. -/
def udelayTicks (usec : U32) : U32 := usec / 1000 * (timerLoadVal * 100) / 1000

section
variable (c : Clock)

/-- What calls of `get_timer_masked` at some times return. -/
def readings : List ℚ → TimeBase → List U32
  | [], _ => []
  | t :: ts, s =>
    (getTimerMasked (c.readTimer t) s).2 :: readings ts (getTimerMasked (c.readTimer t) s).1

/-- The loop of `udelay` with polls at the given times: when it ends and what it leaves, unless
it is still polling. -/
def waitLoop (start tmo : U32) : List ℚ → TimeBase → Option (ℚ × TimeBase)
  | [], _ => none
  | t :: ts, s =>
    let (s', timestamp) := getTimerMasked (c.readTimer t) s
    if timestamp - start < tmo then waitLoop start tmo ts s' else some (t, s')

/-- `udelay` with its first read at `t`. -/
def udelay (usec : U32) (t : ℚ) (polls : List ℚ) (s : TimeBase) : Option (ℚ × TimeBase) :=
  let (s', start) := getTimer (c.readTimer t) 0 s
  waitLoop c start (udelayTicks usec) polls s'

/-- Each time is less than a period after the one before. -/
def Spaced (last : ℚ) (times : List ℚ) : Prop :=
  (last :: times).IsChain fun a b => a ≤ b ∧ b < a + 10000

/-- Every call returns the ticks since `interrupt_init`. -/
def CountsTicks (times : List ℚ) : Prop :=
  readings c times interruptInit = times.map fun t => BitVec.ofNat 32 (c.ticks t)

/-- From each call to the next there are less ticks than the counter has values. -/
def FewTicks (last : ℚ) (times : List ℚ) : Prop :=
  (last :: times).IsChain fun a b => c.ticks b < c.ticks a + timerLoadVal.toNat

/-- A call at `called` comes back after `usec` microseconds or later. -/
def Delays (usec : U32) : Prop :=
  ∀ called t polls s r, 0 ≤ called → called ≤ t → Spaced t polls →
    udelay c usec t polls s = some r → (usec.toNat : ℚ) ≤ r.1 - called

end

section
variable {c : Clock} {a b t : ℚ} {s : TimeBase}

theorem Clock.ticks_le (h : a ≤ b) : c.ticks a ≤ c.ticks b :=
  Nat.floor_mono (by linarith)

theorem Clock.ticks_eq {n : Nat} (hlow : 1000 * n ≤ t + c.phase)
    (hhigh : t + c.phase < 1000 * (n + 1)) : c.ticks t = n := by
  have hn : (0 : ℚ) ≤ n := Nat.cast_nonneg n
  refine (Nat.floor_eq_iff (by linarith)).mpr ⟨?_, ?_⟩ <;> linarith

theorem Clock.lt_ticks (c : Clock) (t : ℚ) : t + c.phase < 1000 * (c.ticks t + 1) := by
  have h := Nat.lt_floor_add_one ((t + c.phase) / 1000)
  rw [div_lt_iff₀ (by norm_num)] at h
  linarith [show ((c.ticks t : ℕ) : ℚ) = (Nat.floor ((t + c.phase) / 1000) : ℚ) from rfl]

theorem Clock.ticks_le_time (c : Clock) (ht : 0 ≤ t) : 1000 * (c.ticks t : ℚ) ≤ t + c.phase := by
  have hpos : 0 ≤ (t + c.phase) / 1000 := by linarith [c.nonneg]
  have h := Nat.floor_le hpos
  rw [le_div_iff₀ (by norm_num)] at h
  linarith [show ((c.ticks t : ℕ) : ℚ) = (Nat.floor ((t + c.phase) / 1000) : ℚ) from rfl]

theorem Clock.ticks_zero (c : Clock) : c.ticks 0 = 0 :=
  ticks_eq (by simpa using c.nonneg) (by simpa using c.short)

theorem Clock.readTimer_toNat (c : Clock) (t : ℚ) :
    (c.readTimer t).toNat = countdown timerLoadVal.toNat (c.ticks t) := by
  have hle : countdown timerLoadVal.toNat (c.ticks t) ≤ 10 := countdown_le
  rw [readTimer, BitVec.toNat_ofNat, Nat.mod_eq_of_lt (by omega)]

/-- A call adds the ticks that the two readings tell. -/
theorem getTimerMasked_snd {now : U32} (hlast : s.lastdec.toNat ≤ 10) (hnow : now.toNat ≤ 10) :
    (getTimerMasked now s).2 = s.timestamp +
      BitVec.ofNat 32 (ticksBetween timerLoadVal.toNat s.lastdec.toNat now.toNat) := by
  have hload : timerLoadVal.toNat = 10 := rfl
  have hiff : now ≤ s.lastdec ↔ now.toNat ≤ s.lastdec.toNat := Iff.rfl
  simp only [getTimerMasked, ticksBetween, hiff, hload]
  split
  · refine congrArg _ (BitVec.eq_of_toNat_eq ?_)
    rw [BitVec.toNat_sub, BitVec.toNat_ofNat]
    omega
  · refine congrArg _ (BitVec.eq_of_toNat_eq ?_)
    rw [BitVec.toNat_sub, BitVec.toNat_add, BitVec.toNat_ofNat, hload]
    omega

theorem getTimerMasked_ticks (hs : s.lastdec = c.readTimer a) (h : a ≤ b) :
    (getTimerMasked (c.readTimer b) s).2 = s.timestamp +
      BitVec.ofNat 32 ((c.ticks b - c.ticks a) % timerLoadVal.toNat) := by
  have hle : ∀ t, (c.readTimer t).toNat ≤ 10 := by
    intro t
    rw [c.readTimer_toNat]
    exact countdown_le
  rw [getTimerMasked_snd (hs ▸ hle a) (hle b), hs, c.readTimer_toNat, c.readTimer_toNat,
    ticksBetween_countdown (by decide) (Clock.ticks_le h)]

/-- What a call leaves holds its time. -/
theorem getTimerMasked_fst (now : U32) (s : TimeBase) :
    (getTimerMasked now s).1 = ⟨(getTimerMasked now s).2, now⟩ := rfl

/-- In less than a period there are at most as many ticks as the counter has values. -/
theorem Clock.ticks_period (hb : b < a + 10000) :
    c.ticks b ≤ c.ticks a + timerLoadVal.toNat := by
  have hup := c.lt_ticks a
  have hb' := c.ticks_le_time (t := b)
  by_contra hlt
  have hmore : ((c.ticks a + 10 + 1 : ℕ) : ℚ) ≤ c.ticks b := by
    exact_mod_cast Nat.not_le.mp hlt
  by_cases hb0 : 0 ≤ b
  · have := hb' hb0
    push_cast at hmore
    linarith
  · have hle := Clock.ticks_le (c := c) (le_of_not_ge hb0 : b ≤ 0)
    rw [c.ticks_zero] at hle
    omega

/-- A call is right exactly when less ticks have gone by than the counter has values. -/
theorem reading_right_iff (hs : s.lastdec = c.readTimer a)
    (htime : s.timestamp = BitVec.ofNat 32 (c.ticks a)) (h : a ≤ b)
    (hb : b < a + 10000) : (getTimerMasked (c.readTimer b) s).2 = BitVec.ofNat 32 (c.ticks b) ↔
      c.ticks b < c.ticks a + timerLoadVal.toNat := by
  have hload : timerLoadVal.toNat = 10 := rfl
  have hle := Clock.ticks_le (c := c) h
  have hperiod := Clock.ticks_period (c := c) hb
  rw [getTimerMasked_ticks hs h, htime, ← BitVec.ofNat_add, hload]
  rw [hload] at hperiod
  constructor
  · intro he
    have hmod := congrArg BitVec.toNat he
    rw [BitVec.toNat_ofNat, BitVec.toNat_ofNat] at hmod
    by_contra hlt
    have hd : c.ticks b = c.ticks a + 10 := by omega
    rw [hd, Nat.add_sub_cancel_left] at hmod
    omega
  · intro hlt
    rw [Nat.mod_eq_of_lt (by omega), Nat.add_sub_cancel' hle]

/-- Every call is right exactly when each call comes before the counter is round. -/
theorem readings_right_iff {times : List ℚ} (hs : s.lastdec = c.readTimer a)
    (htime : s.timestamp = BitVec.ofNat 32 (c.ticks a)) (h : Spaced a times) :
    (readings c times s = times.map fun t => BitVec.ofNat 32 (c.ticks t)) ↔
      FewTicks c a times := by
  induction times generalizing a s with
  | nil => simp [readings, FewTicks]
  | cons b times ih =>
    obtain ⟨⟨hab, hb⟩, hrest⟩ := List.isChain_cons_cons.mp h
    have hright := reading_right_iff hs htime hab hb
    rw [readings, List.map_cons, List.cons_eq_cons, hright, FewTicks, List.isChain_cons_cons]
    refine and_congr_right fun hlt => ?_
    exact ih rfl (hright.mpr hlt) hrest

theorem udelayTicks_toNat (usec : U32) : (udelayTicks usec).toNat = usec.toNat / 1000 := by
  have hthousand : (1000 : U32).toNat = 1000 := rfl
  have hhz : (timerLoadVal * 100 : U32).toNat = 1000 := rfl
  have husec := usec.isLt
  rw [udelayTicks, BitVec.toNat_udiv, BitVec.toNat_mul, BitVec.toNat_udiv, hthousand, hhz]
  omega

theorem waitLoop_le {start tmo : U32} {polls : List ℚ} {r : ℚ × TimeBase} (h : Spaced a polls)
    (hr : waitLoop c start tmo polls s = some r) : a ≤ r.1 := by
  induction polls generalizing a s with
  | nil => cases hr
  | cons b polls ih =>
    obtain ⟨⟨hab, -⟩, hrest⟩ := List.isChain_cons_cons.mp h
    simp only [waitLoop] at hr
    split at hr
    · exact hab.trans (ih hrest hr)
    · obtain rfl := Option.some.inj hr
      exact hab

/-- Polls that keep up with the counter wait for the ticks that were asked for. -/
theorem waitLoop_ticks {start tmo : U32} {polls : List ℚ} {r : ℚ × TimeBase} {base : Nat}
    (hs : s.lastdec = c.readTimer a) (hfrom : base ≤ c.ticks a)
    (htime : s.timestamp = start + BitVec.ofNat 32 (c.ticks a - base)) (h : Spaced a polls)
    (hfew : FewTicks c a polls) (hr : waitLoop c start tmo polls s = some r) :
    base + tmo.toNat ≤ c.ticks r.1 := by
  induction polls generalizing a s with
  | nil => cases hr
  | cons b polls ih =>
    obtain ⟨⟨hab, -⟩, hrest⟩ := List.isChain_cons_cons.mp h
    obtain ⟨hlt, hfew'⟩ := List.isChain_cons_cons.mp hfew
    have hle := Clock.ticks_le (c := c) hab
    have hnext : (getTimerMasked (c.readTimer b) s).2 =
        start + BitVec.ofNat 32 (c.ticks b - base) := by
      rw [getTimerMasked_ticks hs hab, htime, Nat.mod_eq_of_lt (by omega), BitVec.add_assoc,
        ← BitVec.ofNat_add]
      exact congrArg (fun n => start + BitVec.ofNat 32 n) (by omega)
    simp only [waitLoop] at hr
    split at hr
    · exact ih rfl (hfrom.trans hle) hnext hrest hfew' hr
    · rename_i hdone
      obtain rfl := Option.some.inj hr
      rw [hnext, BitVec.add_comm, BitVec.add_sub_cancel, BitVec.lt_def, BitVec.toNat_ofNat] at hdone
      have hmod := Nat.mod_le (c.ticks b - base) (2 ^ 32)
      show base + tmo.toNat ≤ c.ticks b
      omega

/-- What `udelay` is good for: all but the last begun tick of the whole milliseconds. -/
theorem udelay_waits {usec : U32} {polls : List ℚ} {r : ℚ × TimeBase} (ht : 0 ≤ t)
    (h : Spaced t polls) (hfew : FewTicks c t polls) (hr : udelay c usec t polls s = some r) :
    1000 * ((usec.toNat / 1000 : ℕ) : ℚ) < r.1 - t + 1000 := by
  have htime : (getTimerMasked (c.readTimer t) s).1.timestamp =
      (getTimer (c.readTimer t) 0 s).2 + BitVec.ofNat 32 (c.ticks t - c.ticks t) := by
    simp [getTimerMasked_fst, getTimer]
  have hticks := waitLoop_ticks rfl le_rfl htime h hfew hr
  rw [udelayTicks_toNat] at hticks
  have hup := c.lt_ticks t
  have hlow := c.ticks_le_time (ht.trans (waitLoop_le h hr))
  have hcast : ((c.ticks t : ℕ) : ℚ) + ((usec.toNat / 1000 : ℕ) : ℚ) ≤ c.ticks r.1 := by
    exact_mod_cast hticks
  linarith

/-- A first read just before a tick. -/
def lateStart (c : Clock) : ℚ := 1999 - c.phase

/-- Polls at the first read and right at each of the ticks after it. -/
def tickPolls (c : Clock) : Nat → ℚ
  | 0 => lateStart c
  | k + 1 => 1000 * (k + 2 : ℕ) - c.phase

theorem ticks_lateStart (c : Clock) : c.ticks (lateStart c) = 1 :=
  Clock.ticks_eq (by rw [lateStart]; norm_num) (by rw [lateStart]; norm_num)

theorem ticks_tickPolls (c : Clock) (k : Nat) : c.ticks (tickPolls c k) = k + 1 := by
  cases k with
  | zero => exact ticks_lateStart c
  | succ k =>
    refine Clock.ticks_eq ?_ ?_ <;>
    · simp only [tickPolls]
      push_cast
      linarith

theorem tickPolls_step (c : Clock) (k : Nat) :
    tickPolls c k ≤ tickPolls c (k + 1) ∧ tickPolls c (k + 1) < tickPolls c k + 10000 := by
  cases k with
  | zero =>
    simp only [tickPolls, lateStart]
    constructor <;> push_cast <;> linarith
  | succ k =>
    simp only [tickPolls]
    push_cast
    constructor <;> linarith

theorem tickPolls_spaced (c : Clock) (j n : Nat) :
    Spaced (tickPolls c j) ((List.range' (j + 1) n).map (tickPolls c)) := by
  induction n generalizing j with
  | zero => exact List.IsChain.singleton _
  | succ n ih =>
    rw [List.range'_succ, List.map_cons]
    exact List.isChain_cons_cons.mpr ⟨tickPolls_step c j, ih (j + 1)⟩

/-- A poll at one of these times reads the ticks since the late start. -/
theorem poll_tickPolls {start : U32} {j : Nat} (hs : s.lastdec = c.readTimer a)
    (ha : a ≤ tickPolls c j) (hnear : j + 1 < c.ticks a + timerLoadVal.toNat)
    (hpos : 1 ≤ c.ticks a) (htime : s.timestamp = start + BitVec.ofNat 32 (c.ticks a - 1)) :
    (getTimerMasked (c.readTimer (tickPolls c j)) s).2 = start + BitVec.ofNat 32 j := by
  have hle := Clock.ticks_le (c := c) ha
  rw [ticks_tickPolls] at hle
  rw [getTimerMasked_ticks hs ha, htime, ticks_tickPolls, Nat.mod_eq_of_lt (by omega),
    BitVec.add_assoc, ← BitVec.ofNat_add]
  exact congrArg (fun n => start + BitVec.ofNat 32 n) (by omega)

/-- With these polls the loop ends at the tick that was asked for. -/
theorem waitLoop_tickPolls {start tmo : U32} {j n : Nat} (hn : j + n = tmo.toNat)
    (hs : s.lastdec = c.readTimer a) (ha : a ≤ tickPolls c j)
    (hnear : j + 1 < c.ticks a + timerLoadVal.toNat) (hpos : 1 ≤ c.ticks a)
    (htime : s.timestamp = start + BitVec.ofNat 32 (c.ticks a - 1)) :
    ∃ s', waitLoop c start tmo ((List.range' j (n + 1)).map (tickPolls c)) s =
      some (tickPolls c tmo.toNat, s') := by
  have hload : timerLoadVal.toNat = 10 := rfl
  induction n generalizing j a s with
  | zero =>
    obtain rfl : j = tmo.toNat := by omega
    have hsub : (getTimerMasked (c.readTimer (tickPolls c tmo.toNat)) s).2 - start = tmo := by
      rw [poll_tickPolls hs ha hnear hpos htime, BitVec.add_comm, BitVec.add_sub_cancel,
        BitVec.ofNat_toNat, BitVec.setWidth_eq]
    rw [Nat.zero_add, List.range'_one, List.map_singleton, waitLoop]
    simp only [hsub, BitVec.lt_irrefl, if_false]
    exact ⟨_, rfl⟩
  | succ n ih =>
    have hpoll := poll_tickPolls hs ha hnear hpos htime
    have hless : (getTimerMasked (c.readTimer (tickPolls c j)) s).2 - start < tmo := by
      rw [hpoll, BitVec.add_comm, BitVec.add_sub_cancel, BitVec.lt_def, BitVec.toNat_ofNat]
      have := tmo.isLt
      omega
    have hticks := ticks_tickPolls c j
    rw [List.range'_succ, List.map_cons, waitLoop]
    simp only [hless, if_true]
    exact ih (by omega) rfl (tickPolls_step c j).1 (by omega) (by omega) (by
      rw [getTimerMasked_fst, hpoll, hticks, Nat.add_sub_cancel])

/-- Called just before a tick, `udelay` is back at the tick that it waits for. -/
theorem udelay_tickPolls (c : Clock) (usec : U32) (s : TimeBase) :
    ∃ s', udelay c usec (lateStart c)
      ((List.range' 0 (usec.toNat / 1000 + 1)).map (tickPolls c)) s =
      some (tickPolls c (usec.toNat / 1000), s') := by
  have hticks := ticks_lateStart c
  rw [← udelayTicks_toNat]
  refine waitLoop_tickPolls (a := lateStart c) (Nat.zero_add _) rfl le_rfl ?_ ?_ ?_
  · rw [hticks]
    decide
  · rw [hticks]
  · simp [hticks, getTimerMasked_fst]

/-- That is too early, whatever was asked for. -/
theorem tickPolls_early {usec : U32} (h : usec ≠ 0) :
    tickPolls c (usec.toNat / 1000) - lateStart c < usec.toNat := by
  have hpos : 0 < usec.toNat := Nat.pos_of_ne_zero fun h0 => h (BitVec.eq_of_toNat_eq h0)
  cases hk : usec.toNat / 1000 with
  | zero =>
    rw [tickPolls, sub_self]
    exact_mod_cast hpos
  | succ k =>
    have hle : ((1000 * (k + 1) : ℕ) : ℚ) ≤ usec.toNat := by exact_mod_cast (by omega)
    simp only [tickPolls, lateStart]
    push_cast at hle ⊢
    linarith

/-- A delay is long enough only when none was asked for. -/
theorem delays_iff (usec : U32) : Delays c usec ↔ usec = 0 := by
  constructor
  · intro h
    by_contra hne
    obtain ⟨s', hr⟩ := udelay_tickPolls c usec interruptInit
    have hstart : 0 ≤ lateStart c := by
      rw [lateStart]
      linarith [c.short]
    have hspaced : Spaced (lateStart c)
        ((List.range' 0 (usec.toNat / 1000 + 1)).map (tickPolls c)) := by
      rw [List.range'_succ, List.map_cons]
      refine List.isChain_cons_cons.mpr ⟨⟨le_rfl, ?_⟩, tickPolls_spaced c 0 _⟩
      show lateStart c < lateStart c + 10000
      linarith
    have hle := h _ _ _ _ _ hstart le_rfl hspaced hr
    exact absurd (tickPolls_early (c := c) hne) (not_lt.mpr hle)
  · rintro rfl called t polls s r - hcalled hspaced hr
    have hle := waitLoop_le hspaced hr
    simpa using hcalled.trans hle

/-- The readings are right exactly when each call comes before the counter is round. -/
theorem countsTicks_iff {times : List ℚ} (h : Spaced 0 times) :
    CountsTicks c times ↔ FewTicks c 0 times := by
  have htime : interruptInit.timestamp = BitVec.ofNat 32 (c.ticks 0) := by
    rw [c.ticks_zero]
    rfl
  have hread : interruptInit.lastdec = c.readTimer 0 := by
    rw [Clock.readTimer, c.ticks_zero]
    rfl
  exact readings_right_iff hread htime h

end

/-- Calls within a period are right exactly when less than ten ticks lie between them, and no
delay but that of zero can be relied on. -/
theorem time_base_iff (c : Clock) (times : List ℚ) (usec : U32) (h : Spaced 0 times) :
    (CountsTicks c times ↔ FewTicks c 0 times) ∧ (Delays c usec ↔ usec = 0) :=
  ⟨countsTicks_iff h, delays_iff usec⟩

/-- A clock that starts with `interrupt_init`. -/
def freshClock : Clock := ⟨0, by norm_num, by norm_num⟩

theorem time_base_fresh : Spaced 0 [500, 9999] ∧
    ((CountsTicks freshClock [500, 9999] ↔ FewTicks freshClock 0 [500, 9999]) ∧
      (Delays freshClock 0 ↔ (0 : U32) = 0)) := by
  have h : Spaced 0 [500, 9999] := by
    simp only [Spaced, List.isChain_cons_cons, List.IsChain.singleton, and_true]
    norm_num
  exact ⟨h, time_base_iff freshClock [500, 9999] 0 h⟩

/-- Two calls nine milliseconds apart with ten ticks between them, and a delay of a millisecond
that begins just before a tick. -/
theorem time_base_late : Spaced 0 [999, 10001] ∧ ¬ CountsTicks freshClock [999, 10001] ∧
    ¬ Delays freshClock 1000 := by
  have h : Spaced 0 [999, 10001] := by
    simp only [Spaced, List.isChain_cons_cons, List.IsChain.singleton, and_true]
    norm_num
  refine ⟨h, fun hcounts => ?_, fun hdelays => ?_⟩
  · have hfew := (countsTicks_iff h).mp hcounts
    obtain ⟨-, hlast⟩ := List.isChain_cons_cons.mp hfew
    have hlt := (List.isChain_cons_cons.mp hlast).1
    have hfirst : freshClock.ticks 999 = 0 :=
      Clock.ticks_eq (by norm_num [freshClock]) (by norm_num [freshClock])
    have hsecond : freshClock.ticks 10001 = 10 :=
      Clock.ticks_eq (by norm_num [freshClock]) (by norm_num [freshClock])
    rw [hfirst, hsecond] at hlt
    exact absurd hlt (by decide)
  · exact absurd ((delays_iff (c := freshClock) 1000).mp hdelays) (by decide)

end SnakeOs.UBoot
