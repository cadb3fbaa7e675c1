import MarketVerdict.Decimal.Layout
import MarketVerdict.Direction
import MarketVerdict.Reading

/-!
# Curves from readings to magnitudes

One curve for each form of reading. A level counts by its distance from the middle of its range once
it leaves the band between `lower` and `upper`; a spread and a flow count in proportion to a full
scale beyond a neutral band; a price counts by how far it lies outside its envelope. Levels and
envelopes speak against the move, spreads and flows with it.
-/

namespace MarketVerdict

open Scalar

variable {α : Type}

structure OscillatorBands (α : Type) where
  min : α
  max : α
  /-- At or below, the price has fallen too far. -/
  lower : α
  /-- At or above, the price has risen too far. -/
  upper : α
  deriving DecidableEq

structure TrendCurve (α : Type) where
  neutralBand : α
  fullScale : α
  /-- Added to the magnitude when the lines crossed on the last bar, in the same direction. -/
  crossoverBoost : α
  deriving DecidableEq

/-- Positions in an envelope are counted in half widths. -/
structure BandCurve (α : Type) where
  edge : α
  saturation : α
  deriving DecidableEq

structure FlowCurve (α : Type) where
  neutralBand : α
  fullScale : α
  deriving DecidableEq

inductive CurveFault (α : Type) where
  | bandsNotFinite
  | bandsOrder (bands : OscillatorBands α)
  | trendNeutralBand
  | trendFullScale
  | trendBoost
  | bandEdge
  | bandSaturation
  | flowNeutralBand
  | flowFullScale
  deriving DecidableEq

def CurveFault.message : CurveFault Float → String
  | bandsNotFinite => "oscillator bands must be finite"
  | bandsOrder b =>
    "expected min < lower < upper < max, got " ++ Decimal.plain b.min ++ "/" ++
      Decimal.plain b.lower ++ "/" ++ Decimal.plain b.upper ++ "/" ++ Decimal.plain b.max
  | trendNeutralBand => "trend neutral_band must be finite and non-negative"
  | trendFullScale => "trend full_scale must be finite and positive"
  | trendBoost => "trend crossover_boost must be within [0, 1]"
  | bandEdge => "band edge must be finite and positive"
  | bandSaturation => "band saturation must be finite and not below the edge"
  | flowNeutralBand => "flow neutral_band must be finite and non-negative"
  | flowFullScale => "flow full_scale must be finite and positive"

variable [Scalar α]

/-- The place of a value between `min`, at minus one, and `max`, at one. -/
def normalizeScore (value min max : α) : α :=
  if max == min then 0 else clampSigned (2 * ((value - min) / (max - min)) - 1)

def distanceFromMidpoint (value min max : α) : α := abs (normalizeScore value min max)

def relativeSpread (fast slow reference : α) : α :=
  if reference == 0 then 0 else (fast - slow) / abs reference

/-- The place of a price in an envelope, in half widths from the middle; an envelope without width
on the price's side has no places. -/
def bandPosition (price lower middle upper : α) : Option α :=
  let halfWidth := if middle ≤ price then upper - middle else middle - lower
  if 0 < halfWidth then some ((price - middle) / halfWidth) else none

/-- A direction and a magnitude before it is clipped. -/
abbrev Placement (α : Type) := Direction × α

def unmoved : Placement α := (.neutral, 0)

def OscillatorBands.check (b : OscillatorBands α) : Except (CurveFault α) Unit :=
  if ¬ (isFinite b.min && isFinite b.max && isFinite b.lower && isFinite b.upper) then
    .error .bandsNotFinite
  else if ¬ (b.min < b.lower ∧ b.lower < b.upper ∧ b.upper < b.max) then .error (.bandsOrder b)
  else .ok ()

def OscillatorBands.place (b : OscillatorBands α) (value : α) : Placement α :=
  if value ≤ b.lower then (.bullish, distanceFromMidpoint value b.min b.max)
  else if b.upper ≤ value then (.bearish, distanceFromMidpoint value b.min b.max)
  else unmoved

def TrendCurve.standard : TrendCurve α := ⟨0.0005, 0.02, 0.25⟩

def TrendCurve.check (c : TrendCurve α) : Except (CurveFault α) Unit :=
  if ¬ (isFinite c.neutralBand ∧ 0 ≤ c.neutralBand) then .error .trendNeutralBand
  else if ¬ (isFinite c.fullScale ∧ 0 < c.fullScale) then .error .trendFullScale
  else if ¬ inUnit c.crossoverBoost then .error .trendBoost
  else .ok ()

def TrendCurve.place (c : TrendCurve α) (fast slow reference : α) (crossed : Option Direction) :
    Placement α :=
  let spread := relativeSpread fast slow reference
  if abs spread ≤ c.neutralBand then unmoved
  else
    let direction := Direction.ofSign spread
    let magnitude := abs spread / c.fullScale
    (direction,
      clampUnit (if crossed = some direction then magnitude + c.crossoverBoost else magnitude))

def BandCurve.standard : BandCurve α := ⟨1, 2⟩

def BandCurve.check (c : BandCurve α) : Except (CurveFault α) Unit :=
  if ¬ (isFinite c.edge ∧ 0 < c.edge) then .error .bandEdge
  else if ¬ (isFinite c.saturation ∧ c.edge ≤ c.saturation) then .error .bandSaturation
  else .ok ()

def BandCurve.place (c : BandCurve α) (price lower middle upper : α) : Placement α :=
  match bandPosition price lower middle upper with
  | none => unmoved
  | some position =>
    if abs position < c.edge then unmoved
    else (Direction.ofSign (-position), clampUnit (abs position / c.saturation))

def FlowCurve.standard : FlowCurve α := ⟨0.1, 2⟩

def FlowCurve.check (c : FlowCurve α) : Except (CurveFault α) Unit :=
  if ¬ (isFinite c.neutralBand ∧ 0 ≤ c.neutralBand) then .error .flowNeutralBand
  else if ¬ (isFinite c.fullScale ∧ 0 < c.fullScale) then .error .flowFullScale
  else .ok ()

def FlowCurve.place (c : FlowCurve α) (delta scale : α) : Placement α :=
  if scale ≤ 0 then unmoved
  else
    let ratio := delta / scale
    if abs ratio ≤ c.neutralBand then unmoved
    else (Direction.ofSign ratio, clampUnit (abs ratio / c.fullScale))

end MarketVerdict
