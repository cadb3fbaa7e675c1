import MarketVerdict.Config
import MarketVerdict.Json.Decode

/-!
# Configurations as JSON

A field that is left out has its default. Bands and trend curves given for some indicators stand
beside the built-in ones for the others; a trend curve takes its missing fields from the standard
curve, bands have no missing fields. `Config.encode` writes every field.
-/

namespace MarketVerdict

open Json

namespace OscillatorBands

def fields : List (String × (Assignment String Float → Float → Assignment String Float)) :=
  ["min", "max", "lower", "upper"].map fun name => (name, fun found x => found.set name x)

def schema : Schema (Assignment String Float) := numberSchema fields

def read : Read (OscillatorBands Float) := fun j => do
  let found ← readRecord schema Assignment.none j
  return ⟨← required (found "min"), ← required (found "max"), ← required (found "lower"),
    ← required (found "upper")⟩

def encode (b : OscillatorBands Float) : Json :=
  record [("min", float b.min), ("max", float b.max), ("lower", float b.lower),
    ("upper", float b.upper)]

end OscillatorBands

namespace TrendCurve

def fields : List (String × (TrendCurve Float → Float → TrendCurve Float)) := [
  ("neutral_band", fun c v => { c with neutralBand := v }),
  ("full_scale", fun c v => { c with fullScale := v }),
  ("crossover_boost", fun c v => { c with crossoverBoost := v })]

def schema : Schema (TrendCurve Float) := numberSchema fields

def read : Read (TrendCurve Float) := readRecord schema standard

def encode (c : TrendCurve Float) : Json :=
  record [("neutral_band", float c.neutralBand), ("full_scale", float c.fullScale),
    ("crossover_boost", float c.crossoverBoost)]

end TrendCurve

namespace BandCurve

def fields : List (String × (BandCurve Float → Float → BandCurve Float)) := [
  ("edge", fun c v => { c with edge := v }),
  ("saturation", fun c v => { c with saturation := v })]

def schema : Schema (BandCurve Float) := numberSchema fields

def read : Read (BandCurve Float) := readRecord schema standard

def encode (c : BandCurve Float) : Json :=
  record [("edge", float c.edge), ("saturation", float c.saturation)]

end BandCurve

namespace FlowCurve

def fields : List (String × (FlowCurve Float → Float → FlowCurve Float)) := [
  ("neutral_band", fun c v => { c with neutralBand := v }),
  ("full_scale", fun c v => { c with fullScale := v })]

def schema : Schema (FlowCurve Float) := numberSchema fields

def read : Read (FlowCurve Float) := readRecord schema standard

def encode (c : FlowCurve Float) : Json :=
  record [("neutral_band", float c.neutralBand), ("full_scale", float c.fullScale)]

end FlowCurve

/-- An object with the assigned values of some indicators. -/
def encodeByIndicator {β : Type} (encode : β → Json) (a : Assignment Indicator β) : Json :=
  record ((a.entries Indicator.all).map fun e => (e.1.name, encode e.2))

namespace Curves

def schema : Schema (Curves Float) where
  fields := [
    field "oscillators" (readMap Indicator.ofName? OscillatorBands.read) fun c entries =>
      { c with oscillators := standardBands.setAll entries },
    field "trend" (readMap Indicator.ofName? TrendCurve.read) fun c entries =>
      { c with trend := standardTrend.setAll entries },
    field "trend_default" TrendCurve.read fun c v => { c with trendDefault := v },
    field "volatility" BandCurve.read fun c v => { c with volatility := v },
    field "volume" FlowCurve.read fun c v => { c with volume := v }]
  closed := false

def read : Read (Curves Float) := readRecord schema standard

def encode (c : Curves Float) : Json :=
  record [("oscillators", encodeByIndicator OscillatorBands.encode c.oscillators),
    ("trend", encodeByIndicator TrendCurve.encode c.trend),
    ("trend_default", c.trendDefault.encode), ("volatility", c.volatility.encode),
    ("volume", c.volume.encode)]

end Curves

namespace Thresholds

def fields : List (String × (Thresholds Float → Float → Thresholds Float)) := [
  ("strong_sell", fun t v => { t with strongSell := v }),
  ("sell", fun t v => { t with sell := v }),
  ("buy", fun t v => { t with buy := v }),
  ("strong_buy", fun t v => { t with strongBuy := v })]

def schema : Schema (Thresholds Float) := numberSchema fields

def read : Read (Thresholds Float) := readRecord schema standard

def encode (t : Thresholds Float) : Json :=
  record [("strong_sell", float t.strongSell), ("sell", float t.sell), ("buy", float t.buy),
    ("strong_buy", float t.strongBuy)]

end Thresholds

namespace KindWeights

def fields : List (String × (KindWeights Float → Float → KindWeights Float)) :=
  Kind.all.map fun kind => (kind.name, fun w x => w.set kind x)

def schema : Schema (KindWeights Float) := numberSchema fields

def read : Read (KindWeights Float) := readRecord schema standard

def encode (w : KindWeights Float) : Json :=
  record (w.entries.map fun e => (e.1.name, float e.2))

end KindWeights

/-- An object with the weights of some kinds. -/
def encodeByKind (a : Assignment Kind Float) : Json :=
  record ((a.entries Kind.all).map fun e => (e.1.name, float e.2))

/-- An object with the entries of a table. -/
def Table.encode {β : Type} (encode : β → Json) (t : Table β) : Json :=
  record (t.entries.map fun e => (e.1, encode e.2))

/-- A table, in which the last value of a repeated name counts. -/
def Table.read {β : Type} (value : Read β) : Read (Table β) := fun j => do
  return Table.ofList (← readMap some value j)

def readByKind : Read (Assignment Kind Float) := fun j => do
  return Assignment.ofList (← readMap Kind.ofName? readFloat j)

namespace Weights

def schema : Schema (Weights Float) where
  fields := [
    field "indicators" (Table.read readFloat) fun w v => { w with indicators := v },
    field "kinds" readByKind fun w v => { w with kinds := v }]
  closed := false

def read : Read (Weights Float) := readRecord schema empty

end Weights

namespace ProfileDefinition

def schema : Schema (ProfileDefinition Float) where
  fields := [
    field "indicators" (Table.read readFloat) fun d v => { d with weights.indicators := v },
    field "kinds" readByKind fun d v => { d with weights.kinds := v },
    field "inherit_defaults" readBool fun d v => { d with inherits := v }]
  closed := false

def read : Read (ProfileDefinition Float) := readRecord schema empty

def encode (d : ProfileDefinition Float) : Json :=
  record [("indicators", d.weights.indicators.encode float), ("kinds", encodeByKind d.weights.kinds),
    ("inherit_defaults", bool d.inherits)]

end ProfileDefinition

namespace Config

def schema : Schema Config where
  fields := [
    field "thresholds" Thresholds.read fun c v => { c with thresholds := v },
    field "normalization" Curves.read fun c v => { c with curves := v },
    field "kind_weights" KindWeights.read fun c v => { c with kindWeights := v },
    field "profiles" (Table.read ProfileDefinition.read) fun c v => { c with profiles := v },
    field "default_profile" readString fun c v => { c with defaultProfile := v },
    field "default_indicators" (readList readString) fun c v => { c with defaultIndicators := v }]
  closed := false

def read : Read Config := readRecord schema standard

def encode (c : Config) : Json :=
  record [("thresholds", c.thresholds.encode), ("normalization", c.curves.encode),
    ("kind_weights", c.kindWeights.encode), ("profiles", c.profiles.encode ProfileDefinition.encode),
    ("default_profile", text c.defaultProfile), ("default_indicators", texts c.defaultIndicators)]

/-- The configuration of a text, if it is a sound one. -/
def load (content : String) : Except ConfigError Config := do
  let c ← ((parse content).read read).mapError fun _ => .undecodable
  c.check
  return c

/-- The configuration of a file that may be given and may be missing. -/
def loadFile : Option (Option String) → Except ConfigError Config
  | none => .ok standard
  | some none => .error .unreadable
  | some (some content) => load content

end Config

end MarketVerdict
