import MarketVerdict.Average
import MarketVerdict.Series

/-!
# On-balance volume

A running total that takes in the volume of a bar that closed higher and gives out that of a bar that
closed lower. It starts at zero and is compared with its own average.
-/

namespace MarketVerdict

variable {α : Type}

structure OnBalance (α : Type) where
  volume : α
  baseline : α
  averageVolume : α

variable [Scalar α]

namespace OnBalance

def step (total : α) (previous current : Bar α) : α :=
  if previous.close < current.close then total + current.volume
  else if current.close < previous.close then total - current.volume
  else total

def totals (total : α) (previous : Bar α) : List (Bar α) → List α
  | [] => []
  | current :: rest =>
    step total previous current :: totals (step total previous current) current rest

end OnBalance

/-- The running total at every bar. -/
def onBalanceSeries : List (Bar α) → List α
  | [] => []
  | first :: rest => 0 :: OnBalance.totals 0 first rest

def onBalance (bars : List (Bar α)) (period : Nat) : Option (OnBalance α) :=
  if period = 0 ∨ bars.length < period + 1 then none
  else do
    let totals := onBalanceSeries bars
    return {
      volume := ← totals.getLast?
      baseline := ← Average.mean totals period
      averageVolume := ← Average.mean (bars.map Bar.volume) period }

end MarketVerdict
