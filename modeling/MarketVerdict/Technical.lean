import MarketVerdict.Indicator.Crossover
import MarketVerdict.Indicator.Envelope
import MarketVerdict.Indicator.OnBalance
import MarketVerdict.Indicator.Range
import MarketVerdict.Indicator.Rsi
import MarketVerdict.Reading

/-!
# The built-in indicators

`Technical.reading` evaluates any specification at the last bar of a series. A history shorter than
the indicator's minimum gives a missing reading.
-/

namespace MarketVerdict.Technical

variable {α : Type} [Scalar α]

def ofCross (c : Cross α) : Raw α := .spread c.fast c.slow c.slow c.crossed

def raw (params : Params α) (s : Series α) : Option (Raw α) :=
  match params with
  | .rsi period => (rsi s.closes period).map .level
  | .stochastic kPeriod dPeriod => (stochastic s.bars kPeriod dPeriod).map fun v => .level v.d
  | .williamsR period => (williamsR s.bars period).map .level
  | .macd fast slow signal => do
    let last ← s.last?
    let m ← macd s.closes fast slow signal
    return .spread m.macd m.signal last.close m.crossed
  | .smaCross fast slow => (smaCross s.closes fast slow).map ofCross
  | .emaCross fast slow => (emaCross s.closes fast slow).map ofCross
  | .bollinger period width => do
    let last ← s.last?
    let b ← bollinger s.closes period width
    return .band last.close b.lower b.middle b.upper
  | .obv period => (onBalance s.bars period).map fun v => .flow (v.volume - v.baseline) v.averageVolume

def reading (spec : Spec α) (s : Series α) : Reading α :=
  if s.length < spec.params.minHistory then Reading.missing spec s.length
  else
    match raw spec.params s with
    | some r => Reading.present spec r s.length
    | none => Reading.missing spec s.length

end MarketVerdict.Technical
