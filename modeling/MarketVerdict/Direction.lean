import MarketVerdict.Scalar

/-!
# Directions

What a reading says about the price: up, down or neither. A direction is the sign of a number, and
`Direction.ofCrossing` is the direction in which a difference left zero between two bars.
-/

namespace MarketVerdict

inductive Direction where
  | bearish
  | neutral
  | bullish
  deriving DecidableEq

namespace Direction

def name : Direction → String
  | bearish => "bearish"
  | neutral => "neutral"
  | bullish => "bullish"

def all : List Direction := [bearish, neutral, bullish]

def ofName? (s : String) : Option Direction := all.find? fun d => d.name == s

variable {α : Type} [Scalar α]

def sign : Direction → α
  | bearish => -1
  | neutral => 0
  | bullish => 1

def ofSign (x : α) : Direction := if 0 < x then bullish else if x < 0 then bearish else neutral

/-- The direction of a difference that was on the other side of zero, or on it, one bar before. -/
def ofCrossing (previous : Option α) (current : α) : Option Direction :=
  match previous with
  | none => none
  | some previous =>
    if previous ≤ 0 ∧ 0 < current then some bullish
    else if 0 ≤ previous ∧ current < 0 then some bearish
    else none

end Direction

end MarketVerdict
