import MarketVerdict.Average

/-!
# Relative strength

Gains and losses from close to close are averaged apart: plainly over the first `period` changes,
then with each later change counting one part in `period`. The index is the share of gains, scaled
to one hundred; a series that did not move sits in the middle.
-/

namespace MarketVerdict

open Scalar

variable {α : Type} [Scalar α]

namespace Rsi

/-- The differences between neighbours. -/
def changes (closes : List α) : List α := (closes.drop 1).zipWith (· - ·) closes

def gain (change : α) : α := larger change 0

def loss (change : α) : α := larger (-change) 0

def smoothStep (period : Nat) (average move : α) : α :=
  (average * ((period : α) - 1) + move) / period

/-- The smoothed average of moves, the first `period` of which are averaged plainly. -/
def smoothed (period : Nat) (moves : List α) : α :=
  (moves.drop period).foldl (smoothStep period) (sum (moves.take period) / period)

def index (gains losses : α) : α :=
  if losses == 0 then (if gains == 0 then 50 else 100)
  else 100 - 100 / (1 + gains / losses)

end Rsi

def rsi (closes : List α) (period : Nat) : Option α :=
  if period = 0 ∨ closes.length < period + 1 then none
  else
    let changes := Rsi.changes closes
    some (Rsi.index (Rsi.smoothed period (changes.map Rsi.gain))
      (Rsi.smoothed period (changes.map Rsi.loss)))

end MarketVerdict
