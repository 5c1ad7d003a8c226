import GossipLedger.Time.Timestamp
import Mathlib.Algebra.Order.Ring.Int

/-!
# The range of timestamps

The years of dates are bounded, and so are the numbers that dates and timestamps are counted
by.  The milliseconds of a timestamp fit in a signed word of 64 bits with room to spare.

## Main results

* `month_mem`, `day_le` — the months and the days that there are.
* `dayNumber_mem` — the range of the day numbers.
* `millis_mem` — **milliseconds fit in a signed word.**
-/

namespace GossipLedger

theorem month_mem (d : Date) : 1 ≤ d.month ∧ d.month ≤ 12 := by
  obtain ⟨hday, hlast⟩ := d.day_mem
  unfold daysInMonth at hlast
  split at hlast
  next h => omega
  next =>
    split at hlast
    next h => omega
    next =>
      split at hlast
      next h => exact h
      next => omega

theorem day_le (d : Date) : d.day ≤ 31 := by
  obtain ⟨hday, hlast⟩ := d.day_mem
  unfold daysInMonth at hlast
  split at hlast
  next => split at hlast <;> omega
  next =>
    split at hlast
    next => omega
    next => split at hlast <;> omega

/-- A date is less than a hundred million days away from 1970. -/
theorem dayNumber_mem (d : Date) : -100_000_000 < d.dayNumber ∧ d.dayNumber < 100_000_000 := by
  obtain ⟨hfirst, hlast⟩ := d.year_mem
  have hday := day_le d
  unfold minYear at hfirst
  unfold maxYear at hlast
  have hyear : ∀ y : Int, (if d.month ≤ 2 then d.year - 1 else d.year) = y →
      -262144 ≤ y ∧ y ≤ 262142 := by
    intro y hy
    split at hy <;> omega
  unfold Date.dayNumber
  generalize hy : (if d.month ≤ 2 then d.year - 1 else d.year) = y
  obtain ⟨hlow, hhigh⟩ := hyear y hy
  dsimp only
  omega

/-- **The milliseconds of a timestamp fit in a signed word of 64 bits.** -/
theorem millis_mem (t : Timestamp) : -(2 ^ 63) ≤ t.millis ∧ t.millis < 2 ^ 63 := by
  obtain ⟨hlow, hhigh⟩ := dayNumber_mem t.date
  have hsecond := t.second_lt
  have hnano : t.nano < 2_000_000_000 := by
    rcases t.nano_lt with h | ⟨-, h⟩
    · omega
    · exact h
  unfold Timestamp.millis Timestamp.epochSeconds
  omega

end GossipLedger
