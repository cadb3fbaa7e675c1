import MarketVerdict.Average

/-!
# Bands around an average

The bands lie a multiple of the standard deviation above and below the average of the latest closes.
-/

namespace MarketVerdict

variable {α : Type}

structure Bollinger (α : Type) where
  upper : α
  middle : α
  lower : α

def bollinger [Scalar α] (closes : List α) (period : Nat) (width : α) : Option (Bollinger α) := do
  let middle ← Average.mean closes period
  let deviation ← Average.deviation closes period
  return ⟨middle + width * deviation, middle, middle - width * deviation⟩

end MarketVerdict
