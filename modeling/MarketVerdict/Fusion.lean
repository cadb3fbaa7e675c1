import MarketVerdict.Attribution
import MarketVerdict.Normalizer
import MarketVerdict.Profile.Registry
import MarketVerdict.Recommendation
import MarketVerdict.Time.Instant

/-!
# Fusion

The signals of one instrument become one verdict. The score is the weighted mean of the signed
magnitudes; the agreement is the share of the directional evidence that points the way of the score;
the confidence is the size of the score times the agreement. Without any effective weight the verdict
is to hold, and says that the evidence was insufficient.
-/

namespace MarketVerdict

open Scalar

variable {α : Type}

structure Verdict (α : Type) where
  instrument : Option String
  price : Option α
  score : α
  recommendation : Recommendation
  confidence : α
  agreement : α
  totalWeight : α
  insufficient : Bool
  profile : String
  attribution : List (Attribution α)
  evaluatedAt : Instant

namespace Verdict

def included (v : Verdict α) : List (Attribution α) := v.attribution.filter Attribution.isIncluded

def excluded (v : Verdict α) : List (Attribution α) :=
  v.attribution.filter fun a => !a.isIncluded

/-- The verdict with the instrument and the last price that it was made for. -/
def forInstrument (v : Verdict α) (instrument : String) (price : Option α) : Verdict α :=
  { v with instrument := some instrument, price := price }

variable [Scalar α]

def direction (v : Verdict α) : Direction := Direction.ofSign v.score

/-- The first `n` entries that moved the score. -/
def topContributors (v : Verdict α) (n : Nat) : List (Attribution α) :=
  (v.included.filter fun a => !(a.contribution == 0)).take n

/-- The sum of the contributions of each kind that takes part. -/
def contributionByKind (v : Verdict α) : Assignment Kind α := fun k =>
  match v.included.filter fun a => a.signal.kind == k with
  | [] => none
  | entries => some (sum (entries.map Attribution.contribution))

end Verdict

variable [Scalar α]

namespace Signal

def check (s : Signal α) : Except (FusionError α) Unit :=
  if ¬ inUnit s.magnitude then .error (.invalidSignal s.indicator (.magnitude s.magnitude))
  else if ¬ inUnit s.reliability then
    .error (.invalidSignal s.indicator (.reliability s.reliability))
  else .ok ()

end Signal

namespace Fusion

/-- The entries that point somewhere. -/
def directional (entries : List (Attribution α)) : List (Attribution α) :=
  entries.filter fun a => a.isIncluded && a.signal.direction != .neutral

def weightedMagnitude (a : Attribution α) : α := a.signal.magnitude * a.effectiveWeight

/-- The share of the directional evidence that points the way of the score. -/
def agreement (entries : List (Attribution α)) (score : α) : α :=
  let direction := Direction.ofSign score
  if direction = .neutral then 0
  else
    let voting := directional entries
    let total := sum (voting.map weightedMagnitude)
    let agreeing :=
      sum ((voting.filter fun a => a.signal.direction == direction).map weightedMagnitude)
    if total ≤ 0 then 0 else clampUnit (agreeing / total)

def totalWeight (entries : List (Attribution α)) : α :=
  sum ((entries.filter Attribution.isIncluded).map Attribution.effectiveWeight)

/-- The entry with its share of the score. -/
def share (total : α) (a : Attribution α) : Attribution α :=
  { a with contribution := a.evidence / total }

/-- The verdict of entries that carry no weight. -/
def withoutEvidence (profile : Profile α) (entries : List (Attribution α)) (time : Instant) :
    Verdict α where
  instrument := none
  price := none
  score := 0
  recommendation := .hold
  confidence := 0
  agreement := 0
  totalWeight := 0
  insufficient := true
  profile := profile.name
  attribution := Attribution.rank entries
  evaluatedAt := time

/-- The verdict of entries with a positive total weight. -/
def weighted (thresholds : Thresholds α) (profile : Profile α) (entries : List (Attribution α))
    (total : α) (time : Instant) : Verdict α :=
  let entries := entries.map (share total)
  let score := clampSigned (sum (entries.map Attribution.contribution))
  let agreement := agreement entries score
  { instrument := none
    price := none
    score := score
    recommendation := thresholds.recommend score
    confidence := clampUnit (abs score * agreement)
    agreement := agreement
    totalWeight := total
    insufficient := false
    profile := profile.name
    attribution := Attribution.rank entries
    evaluatedAt := time }

/-- The verdict on a list of signals. -/
def fuse (thresholds : Thresholds α) (signals : List (Signal α)) (profile : Profile α)
    (time : Instant) : Except (FusionError α) (Verdict α) := do
  signals.forM Signal.check
  profile.check
  let entries := signals.map (Attribution.weigh profile)
  let total := totalWeight entries
  if ¬ isFinite total then .error (.invalidProfile profile.name .effectiveTotalNotFinite)
  else if total ≤ 0 then return withoutEvidence profile entries time
  else return weighted thresholds profile entries total time

end Fusion

/-- What a fusion needs besides its readings. -/
structure Context (α : Type) where
  normalizer : Normalizer α
  registry : Registry α
  thresholds : Thresholds α

namespace Context

def standard : Context α := ⟨Normalizer.ofCurves .standard, .standard, .standard⟩

/-- The signals of readings that were made for the specifications beside them. -/
def signals (c : Context α) (readings : List (Spec α × Reading α)) :
    Except (FusionError α) (List (Signal α)) :=
  readings.mapM fun r => c.normalizer.signal r.2 r.1

def fuse (c : Context α) (signals : List (Signal α)) (profile : Profile α) (time : Instant) :
    Except (FusionError α) (Verdict α) :=
  Fusion.fuse c.thresholds signals profile time

def evaluate (c : Context α) (readings : List (Spec α × Reading α)) (profile : Profile α)
    (time : Instant) : Except (FusionError α) (Verdict α) := do
  c.fuse (← c.signals readings) profile time

end Context

end MarketVerdict
