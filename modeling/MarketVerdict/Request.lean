import MarketVerdict.Config.Document
import MarketVerdict.Environment

/-!
# Requests

A request names an instrument and may choose indicators, a profile and weights of its own. A replay
may also set its capital and its first window. All fields but the instrument can be left out or null.
-/

namespace MarketVerdict

open Json

structure EvaluationRequest where
  instrument : String
  indicators : Option (List String)
  profile : Option String
  weights : Option (Weights Float)

structure ReplayRequest extends EvaluationRequest where
  capital : Option Float
  /-- The bars of the first window. -/
  warmup : Option Nat

/-- The fields of a request as far as they have been read. -/
structure RequestDraft where
  instrument : Option String
  indicators : Option (List String)
  profile : Option String
  weights : Option (Weights Float)
  capital : Option Float
  warmup : Option Nat

namespace RequestDraft

def empty : RequestDraft := ⟨none, none, none, none, none, none⟩

def fields : List (String × (RequestDraft → Read RequestDraft)) := [
  field "instrument" readString fun d v => { d with instrument := some v },
  field "indicators" (readOptional (readList readString)) fun d v => { d with indicators := v },
  field "profile" (readOptional readString) fun d v => { d with profile := v },
  field "weights" (readOptional Weights.read) fun d v => { d with weights := v },
  field "initial_capital" (readOptional readFloat) fun d v => { d with capital := v },
  field "warmup" (readOptional (readNat ProcessSettings.sizeBound)) fun d v =>
    { d with warmup := v }]

/-- The schema of a request that knows the fields of the given names. -/
def schema (names : List String) (closed : Bool) : Schema RequestDraft where
  fields := fields.filter fun f => f.1 ∈ names
  closed := closed

def toEvaluation (d : RequestDraft) : Except ReadFault EvaluationRequest := do
  return ⟨← required d.instrument, d.indicators, d.profile, d.weights⟩

def toReplay (d : RequestDraft) : Except ReadFault ReplayRequest := do
  return ⟨← d.toEvaluation, d.capital, d.warmup⟩

end RequestDraft

namespace EvaluationRequest

def fields : List String := ["instrument", "indicators", "profile", "weights"]

/-- Reads a request; `closed` refuses fields that it does not know. -/
def readWith (names : List String) (closed : Bool) : Read EvaluationRequest := fun j => do
  (← readRecord (RequestDraft.schema names closed) RequestDraft.empty j).toEvaluation

def read : Read EvaluationRequest := readWith fields false

end EvaluationRequest

namespace ReplayRequest

def fields : List String := EvaluationRequest.fields ++ ["initial_capital", "warmup"]

def readWith (names : List String) (closed : Bool) : Read ReplayRequest := fun j => do
  (← readRecord (RequestDraft.schema names closed) RequestDraft.empty j).toReplay

def read : Read ReplayRequest := readWith fields false

end ReplayRequest

end MarketVerdict
