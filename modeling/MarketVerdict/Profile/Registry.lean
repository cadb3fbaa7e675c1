import MarketVerdict.Profile

/-!
# Named profiles

A registry resolves a name to a profile. The weights of a request go before those of the definition,
and these before the registry's weights by kind, which a definition may decline to inherit. Every
definition of a registry that was built resolves.
-/

namespace MarketVerdict

open Scalar

variable {α : Type}

/-- A weight for every kind. -/
structure KindWeights (α : Type) where
  oscillator : α
  trend : α
  volatility : α
  volume : α
  deriving DecidableEq

namespace KindWeights

def get (w : KindWeights α) : Kind → α
  | .oscillator => w.oscillator
  | .trend => w.trend
  | .volatility => w.volatility
  | .volume => w.volume

def set (w : KindWeights α) (k : Kind) (v : α) : KindWeights α :=
  match k with
  | .oscillator => { w with oscillator := v }
  | .trend => { w with trend := v }
  | .volatility => { w with volatility := v }
  | .volume => { w with volume := v }

def toAssignment (w : KindWeights α) : Assignment Kind α := fun k => some (w.get k)

def entries (w : KindWeights α) : List (Kind × α) := Kind.all.map fun k => (k, w.get k)

variable [Scalar α]

def standard : KindWeights α := ⟨0.25, 0.35, 0.2, 0.2⟩

def total (w : KindWeights α) : α := w.oscillator + w.trend + w.volatility + w.volume

end KindWeights

/-- A profile before it is resolved. -/
structure ProfileDefinition (α : Type) where
  weights : Weights α
  /-- Kinds without a weight here take the registry's. -/
  inherits : Bool

def ProfileDefinition.empty : ProfileDefinition α := ⟨Weights.empty, true⟩

def defaultProfileName : String := "balanced"

def KindWeights.alone (w : KindWeights α) : ProfileDefinition α :=
  ⟨⟨Table.empty, w.toAssignment⟩, false⟩

structure Registry (α : Type) where
  definitions : Table (ProfileDefinition α)
  defaults : KindWeights α
  defaultProfile : String

variable [Scalar α]

/-- The definitions that need no configuration. -/
def builtinProfiles : Table (ProfileDefinition α) :=
  Table.ofList [
    (defaultProfileName, ProfileDefinition.empty),
    ("conservative", KindWeights.alone ⟨0.15, 0.45, 0.25, 0.15⟩),
    ("momentum-focused", KindWeights.alone ⟨0.5, 0.2, 0.1, 0.2⟩),
    ("trend-following",
      let kinds := KindWeights.alone ⟨0.1, 0.6, 0.1, 0.2⟩
      ⟨⟨Table.ofList [("sma_cross_50_200", 1.2)], kinds.weights.kinds⟩, false⟩)]

namespace Registry

def standard : Registry α := ⟨builtinProfiles, .standard, defaultProfileName⟩

/-- What a definition weighs, before a request has its say. -/
def inherited (r : Registry α) (d : ProfileDefinition α) : Weights α :=
  if d.inherits then d.weights.orElse ⟨Table.empty, r.defaults.toAssignment⟩ else d.weights

/-- The profile of a name, or the default profile, under the weights of a request. -/
def resolve (r : Registry α) (name : Option String) (overrides : Option (Weights α)) :
    Except (FusionError α) (Profile α) :=
  let name := name.getD r.defaultProfile
  match r.definitions.get? name with
  | none => .error (.unknownProfile name)
  | some d => Profile.make name ((overrides.getD Weights.empty).orElse (r.inherited d))

/-- The registry of these definitions, if the default is one of them and all of them resolve. -/
def make (definitions : Table (ProfileDefinition α)) (defaults : KindWeights α)
    (defaultProfile : String) : Except (FusionError α) (Registry α) := do
  let r : Registry α := ⟨definitions, defaults, defaultProfile⟩
  if definitions.contains defaultProfile then
    definitions.keys.forM fun name => do
      let _ ← r.resolve (some name) none
    return r
  else .error (.unknownProfile defaultProfile)

def names (r : Registry α) : List String := r.definitions.keys

end Registry

end MarketVerdict
