/-!
# Tickers

A ticker ticks once in a period, for the first time after one period.  A tick that
is late by more than a small tolerance puts off those after it; otherwise they keep
to their times.

## Main definitions

* `Ticker` — the period and the time of the next tick.
* `Ticker.isDue`, `Ticker.tick` — whether it ticks now, and the ticker afterwards.

## Main results

* `Ticker.isDue_tick` — a ticker does not tick twice at one time.
-/

namespace GossipLedger

/-- A ticker. -/
structure Ticker where
  /-- The milliseconds between two ticks. -/
  period : Nat
  /-- The time of the next tick. -/
  due : Nat
  deriving DecidableEq, Repr

namespace Ticker

/-- The shortest period. -/
def minPeriod : Nat := 10

/-- The milliseconds by which a tick may be late. -/
def tolerance : Nat := 5

/-- A ticker that starts now. -/
def new (now period : Nat) : Ticker :=
  let period := max minPeriod period
  ⟨period, now + period⟩

/-- Whether the ticker ticks now. -/
def isDue (now : Nat) (t : Ticker) : Bool := t.due ≤ now

/-- The ticker after a tick. -/
def tick (now : Nat) (t : Ticker) : Ticker :=
  { t with due := if t.due + tolerance < now then now + t.period else t.due + t.period }

/-- After a tick the next one is not due yet. -/
theorem isDue_tick {now : Nat} {t : Ticker} (hp : minPeriod ≤ t.period) :
    (t.tick now).isDue now = false := by
  rw [isDue, decide_eq_false_iff_not, tick]
  rw [minPeriod] at hp
  by_cases h : t.due + tolerance < now
  · simp only [h, if_true]; omega
  · rw [tolerance] at h; simp only [tolerance, h, if_false]; omega

end Ticker

end GossipLedger
