import MarketVerdict.Fault

/-!
# Recommendations

Four edges on the scale from minus one to one divide the scores into five recommendations. The edges
of selling lie below zero and those of buying above, so that a score of zero always holds.
-/

namespace MarketVerdict

open Scalar

inductive Recommendation where
  | strongSell
  | sell
  | hold
  | buy
  | strongBuy
  deriving DecidableEq

namespace Recommendation

def name : Recommendation → String
  | strongSell => "strong_sell"
  | sell => "sell"
  | hold => "hold"
  | buy => "buy"
  | strongBuy => "strong_buy"

def all : List Recommendation := [strongSell, sell, hold, buy, strongBuy]

def ofName? (s : String) : Option Recommendation := all.find? fun r => r.name == s

/-- The place in the order from selling to buying. -/
def rank : Recommendation → Nat
  | strongSell => 0
  | sell => 1
  | hold => 2
  | buy => 3
  | strongBuy => 4

theorem ofName?_name (r : Recommendation) : ofName? r.name = some r := by cases r <;> decide

end Recommendation

structure Thresholds (α : Type) where
  strongSell : α
  sell : α
  buy : α
  strongBuy : α
  deriving DecidableEq

namespace Thresholds

variable {α : Type} [Scalar α]

def standard : Thresholds α := ⟨-0.6, -0.2, 0.2, 0.6⟩

def inRange (edge : α) : Bool := isFinite edge && !decide (1 < abs edge)

def check (t : Thresholds α) : Except (FusionError α) Unit :=
  if ¬ (inRange t.strongSell && inRange t.sell && inRange t.buy && inRange t.strongBuy) then
    .error (.invalidThresholds .outOfRange)
  else if ¬ (t.strongSell ≤ t.sell ∧ t.sell < 0) then
    .error (.invalidThresholds (.sellSide t.strongSell t.sell))
  else if ¬ (0 < t.buy ∧ t.buy ≤ t.strongBuy) then
    .error (.invalidThresholds (.buySide t.buy t.strongBuy))
  else .ok ()

def recommend (t : Thresholds α) (score : α) : Recommendation :=
  if score ≤ t.strongSell then .strongSell
  else if score ≤ t.sell then .sell
  else if t.strongBuy ≤ score then .strongBuy
  else if t.buy ≤ score then .buy
  else .hold

end Thresholds

end MarketVerdict
