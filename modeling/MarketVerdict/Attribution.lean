import MarketVerdict.Profile
import MarketVerdict.Signal

/-!
# Attribution

How each signal takes part in a fusion. A signal without data is left out, and so is one to which
the profile gives no weight; every other signal counts with its weight times its reliability. Entries
are ranked by the size of their contribution, and entries of one size keep their order.
-/

namespace MarketVerdict

open Scalar

variable {α : Type}

inductive Exclusion where
  | noData
  | unweighted
  deriving DecidableEq

def Exclusion.name : Exclusion → String
  | noData => "no_data"
  | unweighted => "unweighted"

inductive Status where
  | included
  | excluded (reason : Exclusion)
  deriving DecidableEq

structure Attribution (α : Type) where
  signal : Signal α
  status : Status
  /-- The weight in the profile, where there is one. -/
  baseWeight : Option α
  effectiveWeight : α
  /-- The signed share of the score. -/
  contribution : α

namespace Attribution

def isIncluded (a : Attribution α) : Bool := a.status == .included

def exclusion? (a : Attribution α) : Option Exclusion :=
  match a.status with
  | .included => none
  | .excluded reason => some reason

variable [Scalar α]

def statusOf (signal : Signal α) (baseWeight : Option α) : Status :=
  if signal.reliability == 0 then .excluded .noData
  else if baseWeight.isNone then .excluded .unweighted
  else .included

/-- The entry of a signal before its contribution is known. -/
def weigh (profile : Profile α) (signal : Signal α) : Attribution α :=
  let baseWeight := profile.weights.weightFor signal.indicator signal.kind
  let status := statusOf signal baseWeight
  { signal := signal
    status := status
    baseWeight := baseWeight
    effectiveWeight :=
      match status with
      | .included => baseWeight.getD 0 * signal.reliability
      | .excluded _ => 0
    contribution := 0 }

/-- The weighted magnitude with the sign of the direction. -/
def evidence (a : Attribution α) : α :=
  if a.isIncluded then a.signal.direction.sign * a.signal.magnitude * a.effectiveWeight else 0

/-- Entries by falling size of their contribution. -/
def rank (entries : List (Attribution α)) : List (Attribution α) :=
  entries.mergeSort fun a b => !decide (abs a.contribution < abs b.contribution)

end Attribution

end MarketVerdict
