import MarketVerdict.Choice
import MarketVerdict.Replay
import MarketVerdict.Request
import MarketVerdict.Source

/-!
# The desk

The desk answers requests from a source of market data. The profile is resolved first, then the
choices are read, and only then the bars are fetched. In an evaluation a choice that gives no reading
takes part as a signal without data; a provider that stalls makes the whole request time out.
-/

namespace MarketVerdict

variable {α : Type}

namespace Choice

/-- What the provider answers for a choice; a degraded one is not asked. -/
def ask (p : Provider α) (s : Series α) : Choice α → Option (Answer α)
  | valid spec => some (p spec s)
  | degraded .. => none

variable [Scalar α]

/-- The signal of a choice that fared as `outcome` says. -/
def signal (n : Normalizer α) (c : Choice α) (outcome : Option (Answer α)) :
    Except (FusionError α) (Signal α) :=
  match c, outcome with
  | valid spec, some (.reading r) => n.signal r spec
  | c, _ => .ok (Signal.noData c.id c.kind)

/-- One signal for each choice, in their order. -/
def signals (n : Normalizer α) (outcomes : List (Choice α × Option (Answer α))) :
    Except (FusionError α) (List (Signal α)) :=
  outcomes.mapM fun o => signal n o.1 o.2

end Choice

def Answer.isStalled : Answer α → Bool
  | .halted .stalled => true
  | _ => false

variable [Scalar α]

/-- The verdict on the choices at the last bar of a series, reached within `timeout` milliseconds. -/
def Context.verdict (c : Context α) (p : Provider α) (timeout : Nat) (choices : List (Choice α))
    (profile : Profile α) (s : Series α) (time : Instant) :
    Except (FusionError α) (Verdict α) := do
  let outcomes := choices.map fun choice => (choice, choice.ask p s)
  if outcomes.any fun o => o.2.any Answer.isStalled then .error (.timeout timeout)
  else
    let signals ← Choice.signals c.normalizer outcomes
    let verdict ← c.fuse signals profile time
    return verdict.forInstrument s.instrument (s.last?.map Bar.close)

/-- The report of a replay that may take `timeout` milliseconds. -/
def Replay.runWithin (r : Replay α) (timeout : Nat) (s : Series α) (capital : α) (warmup : Nat) :
    Except (FusionError α) (Report α) :=
  (r.run s capital warmup).mapError fun
    | .failed cause => cause
    | .halted .crashed => .internal "the replay crashed"
    | .halted .stalled => .timeout timeout

/-- Limits in bars, times in milliseconds. -/
structure DeskSettings where
  historyLimit : Nat
  requestTimeout : Nat
  fetchRetries : Nat
  backtestHistoryLimit : Nat
  backtestTimeout : Nat

def DeskSettings.standard : DeskSettings := ⟨250, 5000, 3, 1000, 30000⟩

def DeskSettings.ofProcess (s : ProcessSettings) : DeskSettings :=
  { DeskSettings.standard with
    historyLimit := s.historyLimit
    requestTimeout := s.requestTimeout
    backtestHistoryLimit := s.backtestHistoryLimit
    backtestTimeout := s.backtestTimeout }

structure Desk where
  context : Context Float
  provider : Provider Float
  defaults : List (Spec Float)
  settings : DeskSettings

namespace Desk

/-- The profile and the choices of a request. -/
def plan (d : Desk) (request : EvaluationRequest) :
    Except (FusionError Float) (Profile Float × List (Choice Float)) := do
  let profile ← d.context.registry.resolve request.profile request.weights
  let choices ← Choice.ofSelections d.defaults request.indicators
  return (profile, choices)

/-- An answer from the latest `limit` bars, once the request has a plan. -/
def withBars {β : Type} (d : Desk) (request : EvaluationRequest) (limit : Nat)
    (answer : Profile Float → List (Choice Float) → Series Float → Except (FusionError Float) β)
    (source : Source) : Except (FusionError Float) β × Source :=
  match d.plan request with
  | .error e => (.error e, source)
  | .ok (profile, choices) =>
    match source.fetchRetrying d.settings.fetchRetries request.instrument limit with
    | (.error e, source) => (.error e.toFusionError, source)
    | (.ok series, source) => (answer profile choices series, source)

def evaluate (d : Desk) (request : EvaluationRequest) (time : Instant) (source : Source) :
    Except (FusionError Float) (Verdict Float) × Source :=
  d.withBars request d.settings.historyLimit
    (fun profile choices series =>
      d.context.verdict d.provider d.settings.requestTimeout choices profile series time)
    source

def backtest (d : Desk) (request : ReplayRequest) (source : Source) :
    Except (FusionError Float) (Report Float) × Source :=
  d.withBars request.toEvaluationRequest d.settings.backtestHistoryLimit
    (fun profile choices series =>
      let specs := Choice.specs choices
      let replay : Replay Float := ⟨d.context, d.provider, specs, profile⟩
      replay.runWithin d.settings.backtestTimeout series (request.capital.getD defaultCapital)
        (request.warmup.getD (defaultWarmup specs)))
    source

end Desk

end MarketVerdict
