import MarketVerdict.Counters
import MarketVerdict.Service.Response
import MarketVerdict.Service.Route

/-!
# The service

The service answers requests from its desk and counts what becomes of them. A request starts, is
handled and finishes; between these steps others may take theirs. What the desk never sees changes
no counter of verdicts, failures or replays.
-/

namespace MarketVerdict

open Json

structure Service where
  desk : Desk
  source : Source
  counters : Counters

namespace Service

def ofDesk (desk : Desk) (source : Source) : Service := ⟨desk, source, Counters.zero⟩

def start (s : Service) : Service := { s with counters := s.counters.start }

def finish (s : Service) : Service := { s with counters := s.counters.finish }

def healthReport : Json :=
  record [("status", text "healthy"), ("service", text "fusetrix-signal-fusion")]

def profileList (r : Registry Float) : Json :=
  record [("profiles", texts r.names), ("default", text r.defaultProfile)]

/-- The service after the desk has answered. -/
def counting {β : Type} (s : Service) (add : Counters → β → Counters)
    (outcome : Except (FusionError Float) β) (source : Source) : Service :=
  { s with
    source := source
    counters :=
      match outcome with
      | .ok b => add s.counters b
      | .error e => s.counters.addFailure e }

def evaluate (s : Service) (request : EvaluationRequest) (time : Instant) : Response × Service :=
  if Text.isBlankText request.instrument then (Response.blankInstrument, s)
  else
    let (outcome, source) := s.desk.evaluate request time s.source
    (Response.ofOutcome Verdict.encode outcome, s.counting Counters.addVerdict outcome source)

def backtest (s : Service) (request : ReplayRequest) : Response × Service :=
  if Text.isBlankText request.instrument then (Response.blankInstrument, s)
  else
    let (outcome, source) := s.desk.backtest request s.source
    (Response.ofOutcome Report.encode outcome, s.counting Counters.addReport outcome source)

/-- The service after a tool has answered. -/
def countingTool (s : Service) (outcome : Except ToolError ToolOutput) (source : Source) : Service :=
  { s with
    source := source
    counters :=
      match outcome with
      | .ok (.verdict v) => s.counters.addVerdict v
      | .ok (.report r) => s.counters.addReport r
      | .error (.fusion e) => s.counters.addFailure e
      | .error _ => s.counters }

def invoke (s : Service) (name : String) (arguments : Json) (time : Instant) :
    Response × Service :=
  let (outcome, source) := Tool.invoke s.desk name arguments time s.source
  let response := match outcome with
    | .ok output => Response.ok output.encode
    | .error e => Response.ofToolError e
  (response, s.countingTool outcome source)

/-- How deep the arguments of a tool may be nested. -/
def argumentDepth : Nat := 127

def readArguments : Read Json := fun j =>
  match j.settled? argumentDepth with
  | some j => .ok j
  | none => .error .malformed

/-- The answer to what a body says, if it can be read. -/
def withBody {β : Type} (s : Service) (read : Read β) (body : Document)
    (answer : β → Response × Service) : Response × Service :=
  match body.read read with
  | .ok b => answer b
  | .error fault => (Response.ofStatus fault.status, s)

def answer (s : Service) (call : Call) (time : Instant) : Response × Service :=
  match call with
  | .health => (Response.ok healthReport, s)
  | .metrics => (⟨200, .lines s.counters.exposition⟩, s)
  | .profiles => (Response.ok (profileList s.desk.context.registry), s)
  | .tools => (Response.ok (record [("tools", Tool.definitions)]), s)
  | .evaluate body => s.withBody EvaluationRequest.read body fun r => s.evaluate r time
  | .backtest body => s.withBody ReplayRequest.read body fun r => s.backtest r
  | .tool name body => s.withBody readArguments body fun j => s.invoke name j time

/-- The response to a request, which may ask for the head only. -/
def handle (s : Service) (request : ServiceRequest) (time : Instant) : Response × Service :=
  if request.method = "OPTIONS" then (Response.ofStatus 200, s)
  else
    match request.call with
    | .error status => (Response.ofStatus status, s)
    | .ok call =>
      let (response, s) := s.answer call time
      (if request.method = "HEAD" then response.withoutBody else response, s)

/-- A request that meets no other. -/
def serve (s : Service) (request : ServiceRequest) (time : Instant) : Response × Service :=
  let (response, s) := s.start.handle request time
  (response, s.finish)

end Service

end MarketVerdict
