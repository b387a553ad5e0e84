import Mathlib.Algebra.Group.Nat.Defs

/-! A counter that goes down from its period to one and starts again. -/

namespace SnakeOs.Lib

/-- What the counter shows after `n` ticks. -/
def countdown (period n : Nat) : Nat := period - n % period

/-- The ticks between two readings, as far as the readings tell. -/
def ticksBetween (period last now : Nat) : Nat :=
  if now ≤ last then last - now else last + period - now

variable {period m n : Nat}

theorem countdown_le : countdown period n ≤ period := Nat.sub_le _ _

/-- The readings tell the ticks between them up to whole periods. -/
theorem ticksBetween_countdown (hp : 0 < period) (h : m ≤ n) :
    ticksBetween period (countdown period m) (countdown period n) = (n - m) % period := by
  obtain ⟨d, rfl⟩ := Nat.exists_eq_add_of_le h
  have hm := Nat.mod_lt m hp
  have hd := Nat.mod_lt d hp
  have hsum : (m + d) % period = if m % period + d % period < period then
      m % period + d % period else m % period + d % period - period := by
    rw [Nat.add_mod]
    split
    · exact Nat.mod_eq_of_lt ‹_›
    · rw [Nat.mod_eq_sub_mod (by omega), Nat.mod_eq_of_lt (by omega)]
  rw [Nat.add_sub_cancel_left, ticksBetween, countdown, countdown, hsum]
  split <;> split <;> omega

end SnakeOs.Lib
