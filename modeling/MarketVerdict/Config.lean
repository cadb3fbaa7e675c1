import MarketVerdict.Fusion

/-!
# Configuration of the engine

Edges, curves, weights, profiles and the indicators of a request that names none. Every part has a
default. A configuration that passes `Config.check` gives a context and default specifications.
-/

namespace MarketVerdict

open Scalar

structure Config where
  thresholds : Thresholds Float
  curves : Curves Float
  kindWeights : KindWeights Float
  /-- Built-in profiles stay, unless one is redefined here. -/
  profiles : Table (ProfileDefinition Float)
  defaultProfile : String
  defaultIndicators : List String

inductive ConfigFault where
  | curves (fault : CurvesFault Float)
  | kindWeight (kind : Kind)
  | noIndicators
  | indicator (cause : IndicatorError)

def ConfigFault.message : ConfigFault → String
  | curves fault => "invalid normalization configuration: " ++ fault.message
  | kindWeight kind =>
    "invalid kind_weights configuration: weight for '" ++ kind.name ++
      "' must be finite and non-negative"
  | noIndicators =>
    "invalid default_indicators configuration: at least one default indicator is required"
  | indicator cause => "invalid default_indicators configuration: " ++ cause.message

inductive ConfigError where
  /-- There is no such file. -/
  | unreadable
  /-- The text is no configuration. -/
  | undecodable
  | invalid (fault : ConfigFault)
  | fusion (cause : FusionError Float)

namespace Config

def standard : Config where
  thresholds := .standard
  curves := .standard
  kindWeights := .standard
  profiles := .empty
  defaultProfile := defaultProfileName
  defaultIndicators :=
    ["rsi:14", "stochastic:14,3", "macd:12,26,9", "sma_cross:50,200", "bollinger:20,2", "obv:20"]

/-- The built-in profiles with the configured ones over them. -/
def profileDefinitions (c : Config) : Table (ProfileDefinition Float) :=
  c.profiles.orElse builtinProfiles

def registry (c : Config) : Except (FusionError Float) (Registry Float) :=
  Registry.make c.profileDefinitions c.kindWeights c.defaultProfile

def context (c : Config) : Except (FusionError Float) (Context Float) := do
  let registry ← c.registry
  c.thresholds.check
  return ⟨Normalizer.ofCurves c.curves, registry, c.thresholds⟩

def defaultSpecs (c : Config) : Except ConfigError (List (Spec Float)) :=
  if c.defaultIndicators.isEmpty then .error (.invalid .noIndicators)
  else c.defaultIndicators.mapM fun s => (Spec.parse s).mapError fun e => .invalid (.indicator e)

def checkKindWeight (entry : Kind × Float) : Except ConfigError Unit :=
  if ¬ isFinite entry.2 ∨ entry.2 < 0 then .error (.invalid (.kindWeight entry.1)) else .ok ()

/-- Finds the first fault of the configuration. -/
def check (c : Config) : Except ConfigError Unit := do
  c.thresholds.check.mapError .fusion
  c.curves.check.mapError fun fault => .invalid (.curves fault)
  c.kindWeights.entries.forM checkKindWeight
  let _ ← c.defaultSpecs
  let _ ← c.registry.mapError .fusion

end Config

end MarketVerdict
