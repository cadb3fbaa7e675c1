import MarketVerdict.Technical

/-!
# Providers of readings

A provider answers for one specification on one series. It may give a reading or say why there is
none; one that comes to a halt does neither.
-/

namespace MarketVerdict

/-- How a computation ends without an answer. -/
inductive Halt where
  | crashed
  | stalled
  deriving DecidableEq

inductive Answer (α : Type) where
  | reading (r : Reading α)
  | failed (cause : IndicatorError)
  | halted (how : Halt)

abbrev Provider (α : Type) := Spec α → Series α → Answer α

namespace Provider

variable {α : Type}

/-- Every answer is a reading or a failure. -/
def Total (p : Provider α) : Prop := ∀ spec s how, p spec s ≠ .halted how

def technical [Scalar α] : Provider α := fun spec s => .reading (Technical.reading spec s)

theorem total_technical [Scalar α] : (technical : Provider α).Total := by
  intro spec s how h
  simp [technical] at h

end Provider

end MarketVerdict
