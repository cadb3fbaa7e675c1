import MarketVerdict.Curve
import MarketVerdict.Fault
import MarketVerdict.Signal
import MarketVerdict.Table

/-!
# From readings to signals

`Curves` holds the curves of every kind, with bands for each oscillator and room for a trend curve of
its own for each indicator. A normalizer has a strategy for some kinds; a reading without data gives
a signal without data, whatever the kind.
-/

namespace MarketVerdict

open Scalar

variable {α : Type}

structure Curves (α : Type) where
  oscillators : Assignment Indicator (OscillatorBands α)
  /-- Indicators without a curve here follow `trendDefault`. -/
  trend : Assignment Indicator (TrendCurve α)
  trendDefault : TrendCurve α
  volatility : BandCurve α
  volume : FlowCurve α

inductive CurvesFault (α : Type) where
  | bandsMissing (indicator : Indicator)
  | ofIndicator (indicator : Indicator) (fault : CurveFault α)
  | shared (fault : CurveFault α)
  deriving DecidableEq

def CurvesFault.message : CurvesFault Float → String
  | bandsMissing indicator => indicator.name ++ ": oscillator bands are missing"
  | ofIndicator indicator fault => indicator.name ++ ": " ++ fault.message
  | shared fault => fault.message

/-- The placement of a value, if it has the form that the strategy handles. -/
abbrev Strategy (α : Type) := Indicator → Raw α → Option (Placement α)

structure Normalizer (α : Type) where
  strategy : Kind → Option (Strategy α)

variable [Scalar α]

namespace Curves

def standardBands : Assignment Indicator (OscillatorBands α)
  | .rsi => some ⟨0, 100, 30, 70⟩
  | .stochastic => some ⟨0, 100, 20, 80⟩
  | .williamsR => some ⟨-100, 0, -80, -20⟩
  | _ => none

def standardTrend : Assignment Indicator (TrendCurve α)
  | .macd => some ⟨0.0001, 0.005, 0.25⟩
  | .smaCross => some ⟨0.001, 0.05, 0.25⟩
  | .emaCross => some ⟨0.0005, 0.03, 0.25⟩
  | _ => none

def standard : Curves α :=
  ⟨standardBands, standardTrend, .standard, .standard, .standard⟩

def checkEntry {β : Type} (check : β → Except (CurveFault α) Unit) (entry : Indicator × β) :
    Except (CurvesFault α) Unit :=
  (check entry.2).mapError (.ofIndicator entry.1)

def check (c : Curves α) : Except (CurvesFault α) Unit := do
  Indicator.all.forM fun i =>
    if i.defaultKind = .oscillator ∧ (c.oscillators i).isNone then .error (.bandsMissing i)
    else .ok ()
  (c.oscillators.entries Indicator.all).forM (checkEntry OscillatorBands.check)
  (c.trend.entries Indicator.all).forM (checkEntry TrendCurve.check)
  c.trendDefault.check.mapError .shared
  c.volatility.check.mapError .shared
  c.volume.check.mapError .shared

def trendCurve (c : Curves α) (i : Indicator) : TrendCurve α := (c.trend i).getD c.trendDefault

def strategy (c : Curves α) : Kind → Strategy α
  | .oscillator => fun i raw =>
    match raw with
    | .level value => (c.oscillators i).map fun bands => bands.place value
    | _ => none
  | .trend => fun i raw =>
    match raw with
    | .spread fast slow reference crossed =>
      some ((c.trendCurve i).place fast slow reference crossed)
    | _ => none
  | .volatility => fun _ raw =>
    match raw with
    | .band price lower middle upper => some (c.volatility.place price lower middle upper)
    | _ => none
  | .volume => fun _ raw =>
    match raw with
    | .flow delta scale => some (c.volume.place delta scale)
    | _ => none

end Curves

namespace Normalizer

def ofCurves (c : Curves α) : Normalizer α := ⟨fun k => some (c.strategy k)⟩

/-- The strategies of the given kinds only. -/
def restrict (n : Normalizer α) (kinds : List Kind) : Normalizer α :=
  ⟨fun k => if k ∈ kinds then n.strategy k else none⟩

def kinds (n : Normalizer α) : List Kind := Kind.all.filter fun k => (n.strategy k).isSome

/-- A placement with its magnitude clipped; nothing that has no magnitude has a direction. -/
def settle (spec : Spec α) (placement : Placement α) (coverage : α) : Signal α :=
  let magnitude := clampUnit placement.2
  let direction := if magnitude == 0 then .neutral else placement.1
  ⟨spec.id, spec.kind, direction, magnitude, clampUnit coverage⟩

/-- The signal of a reading that was made for `spec`. -/
def signal (n : Normalizer α) (reading : Reading α) (spec : Spec α) :
    Except (FusionError α) (Signal α) :=
  if reading.specId ≠ spec.id then .error (.specMismatch spec.id reading.specId)
  else
    match reading.value with
    | .missing => .ok (Signal.noData spec.id spec.kind)
    | .invalid => .ok (Signal.noData spec.id spec.kind)
    | .present raw =>
      match (n.strategy spec.kind).bind fun place => place spec.indicator raw with
      | none => .error (.unsupportedReading spec.id spec.kind)
      | some placement => .ok (settle spec placement reading.coverage)

end Normalizer

end MarketVerdict
