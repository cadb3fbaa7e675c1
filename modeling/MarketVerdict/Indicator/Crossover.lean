import MarketVerdict.Average
import MarketVerdict.Direction

/-!
# Lines that cross

A fast average against a slow one, and the difference of two exponential averages against its own
average. Each reports the two lines at the last bar and whether they crossed on it.
-/

namespace MarketVerdict

variable {α : Type}

/-- The element before the last. -/
def lastButOne? {β : Type} (xs : List β) : Option β := xs.dropLast.getLast?

structure Cross (α : Type) where
  fast : α
  slow : α
  crossed : Option Direction

structure Macd (α : Type) where
  macd : α
  signal : α
  histogram : α
  crossed : Option Direction

variable [Scalar α]

/-- Two lines that end on the same bar. -/
def Cross.ofLines (fast slow : List α) : Option (Cross α) := do
  let fastNow ← fast.getLast?
  let slowNow ← slow.getLast?
  let previous := do return (← lastButOne? fast) - (← lastButOne? slow)
  return ⟨fastNow, slowNow, Direction.ofCrossing previous (fastNow - slowNow)⟩

/-- The crossing of two averages of the closes, by the averages in use. -/
def crossOf (averages : List α → Nat → List α) (closes : List α) (fast slow : Nat) :
    Option (Cross α) :=
  if fast = 0 ∨ slow ≤ fast ∨ closes.length < slow then none
  else Cross.ofLines (averages closes fast) (averages closes slow)

def smaCross (closes : List α) (fast slow : Nat) : Option (Cross α) :=
  crossOf Average.means closes fast slow

def emaCross (closes : List α) (fast slow : Nat) : Option (Cross α) :=
  crossOf Average.exponentialMeans closes fast slow

namespace Macd

/-- The fast average less the slow one, from the first bar that has both. -/
def line (closes : List α) (fast slow : Nat) : List α :=
  ((Average.exponentialMeans closes fast).drop (slow - fast)).zipWith (· - ·)
    (Average.exponentialMeans closes slow)

def histograms (line signals : List α) (signal : Nat) : List α :=
  (line.drop (signal - 1)).zipWith (· - ·) signals

end Macd

def macd (closes : List α) (fast slow signal : Nat) : Option (Macd α) :=
  if fast = 0 ∨ slow ≤ fast ∨ signal = 0 ∨ closes.length < slow + signal - 1 then none
  else do
    let line := Macd.line closes fast slow
    let signals := Average.exponentialMeans line signal
    let histograms := Macd.histograms line signals signal
    let histogram ← histograms.getLast?
    return {
      macd := ← line.getLast?
      signal := ← signals.getLast?
      histogram := histogram
      crossed := Direction.ofCrossing (lastButOne? histograms) histogram }

end MarketVerdict
