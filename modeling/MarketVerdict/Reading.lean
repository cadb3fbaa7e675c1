import MarketVerdict.Direction
import MarketVerdict.Indicator.Basic

/-!
# Readings

What an indicator says at the last bar of a series, before it is put on the common scale. A reading
is missing when the history is too short and invalid when one of its numbers is not finite. Its
coverage is the share of the stable lookback that the history reached.
-/

namespace MarketVerdict

/-- A value in the form that its indicator has. -/
inductive Raw (α : Type) where
  /-- A level between two bounds. -/
  | level (value : α)
  /-- A fast line against a slow one, measured against a reference price. -/
  | spread (fast slow reference : α) (crossed : Option Direction)
  /-- A price inside a band. -/
  | band (price lower middle upper : α)
  /-- A flow's distance from its baseline, in units of a scale. -/
  | flow (delta scale : α)
  deriving DecidableEq

inductive Measured (α : Type) where
  | missing
  | invalid
  | present (raw : Raw α)
  deriving DecidableEq

structure Reading (α : Type) where
  specId : String
  value : Measured α
  sampleSize : Nat
  stableLookback : Nat
  deriving DecidableEq

variable {α : Type} [Scalar α]

def Raw.isFinite : Raw α → Bool
  | level value => Scalar.isFinite value
  | spread fast slow reference _ =>
    Scalar.isFinite fast && Scalar.isFinite slow && Scalar.isFinite reference
  | band price lower middle upper =>
    Scalar.isFinite price && Scalar.isFinite lower && Scalar.isFinite middle &&
      Scalar.isFinite upper
  | flow delta scale => Scalar.isFinite delta && Scalar.isFinite scale

def Measured.ofRaw (raw : Raw α) : Measured α := if raw.isFinite then .present raw else .invalid

namespace Reading

def present (spec : Spec α) (raw : Raw α) (sampleSize : Nat) : Reading α :=
  ⟨spec.id, Measured.ofRaw raw, sampleSize, spec.params.stableLookback⟩

def missing (spec : Spec α) (sampleSize : Nat) : Reading α :=
  ⟨spec.id, .missing, sampleSize, spec.params.stableLookback⟩

def coverage (r : Reading α) : α :=
  if r.stableLookback = 0 then 1
  else Scalar.smaller ((r.sampleSize : α) / (r.stableLookback : α)) 1

end Reading

end MarketVerdict
