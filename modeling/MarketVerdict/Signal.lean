import MarketVerdict.Direction
import MarketVerdict.Indicator.Basic

/-!
# Signals

A signal is a reading on the common scale: a direction, a magnitude and a reliability, the last two
between zero and one. Reliability zero means that there is no data behind the signal.
-/

namespace MarketVerdict

structure Signal (α : Type) where
  indicator : String
  kind : Kind
  direction : Direction
  magnitude : α
  reliability : α

namespace Signal

variable {α : Type} [Scalar α]

def noData (indicator : String) (kind : Kind) : Signal α := ⟨indicator, kind, .neutral, 0, 0⟩

/-- The magnitude with the sign of the direction. -/
def strength (s : Signal α) : α := s.direction.sign * s.magnitude

end Signal

end MarketVerdict
