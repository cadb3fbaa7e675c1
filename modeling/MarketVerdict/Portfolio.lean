import MarketVerdict.Recommendation
import MarketVerdict.Time.Instant

/-!
# A portfolio of cash and whole units

A buy spends the cash on as many whole units as it affords, a sale closes the whole position, and a
recommendation to hold does nothing. Nothing is traded at a price that is not finite and positive.
-/

namespace MarketVerdict

open Scalar

variable {α : Type}

inductive Side where
  | buy
  | sell
  deriving DecidableEq

def Side.name : Side → String
  | buy => "buy"
  | sell => "sell"

structure Trade (α : Type) where
  time : Instant
  side : Side
  price : α
  quantity : α
  /-- The score that led to the trade. -/
  score : α

structure Portfolio (α : Type) where
  cash : α
  units : α
  /-- The trades so far, the oldest first. -/
  trades : List (Trade α)

namespace Portfolio

variable [Scalar α]

def ofCash (cash : α) : Portfolio α := ⟨cash, 0, []⟩

def equity (p : Portfolio α) (price : α) : α := p.cash + p.units * price

def tradable (price : α) : Bool := isFinite price && decide (0 < price)

def affordable (p : Portfolio α) (price : α) : α := floor (p.cash / price)

/-- The portfolio after a recommendation, and the trade if one was made. -/
def apply (p : Portfolio α) (r : Recommendation) (price : α) (time : Instant) (score : α) :
    Portfolio α × Option (Trade α) :=
  if ¬ tradable price then (p, none)
  else
    match r with
    | .buy | .strongBuy =>
      let quantity := p.affordable price
      if quantity < 1 then (p, none)
      else
        let trade : Trade α := ⟨time, .buy, price, quantity, score⟩
        (⟨p.cash - quantity * price, p.units + quantity, p.trades ++ [trade]⟩, some trade)
    | .sell | .strongSell =>
      if p.units ≤ 0 then (p, none)
      else
        let trade : Trade α := ⟨time, .sell, price, p.units, score⟩
        (⟨p.cash + p.units * price, 0, p.trades ++ [trade]⟩, some trade)
    | .hold => (p, none)

@[simp] theorem apply_hold (p : Portfolio α) (price : α) (time : Instant) (score : α) :
    p.apply .hold price time score = (p, none) := by
  unfold apply
  split <;> rfl

end Portfolio

end MarketVerdict
