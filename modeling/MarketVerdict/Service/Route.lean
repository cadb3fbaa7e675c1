import MarketVerdict.Json.Parser
import MarketVerdict.Service.MediaType
import MarketVerdict.Service.Target
import MarketVerdict.Text.Percent

/-!
# Routes

The path of a request picks an endpoint, which admits one method; an endpoint that is read may also
be asked for its head. What is posted must say that it is JSON. A request that finds no call gets a
status and nothing else.
-/

namespace MarketVerdict

open Json

structure ServiceRequest where
  method : String
  /-- The path, perhaps behind a host and before a query. -/
  target : String
  mediaType : Option String
  body : String

inductive Endpoint where
  | health
  | metrics
  | profiles
  | evaluate
  | backtest
  | tools
  /-- A tool by the last part of the path, as it is written there. -/
  | tool (segment : String)
  deriving DecidableEq

namespace Endpoint

def toolRoot : List Char := "/api/tools/".toList

/-- The endpoint of one tool, if the path names one. -/
def ofToolPath? (path : String) : Option Endpoint :=
  if toolRoot.isPrefixOf path.toList then
    let segment := path.toList.drop toolRoot.length
    if segment ≠ [] ∧ ¬ segment.contains '/' then some (tool (String.ofList segment)) else none
  else none

def ofPath? : String → Option Endpoint
  | "/health" => some health
  | "/metrics" => some metrics
  | "/api/profiles" => some profiles
  | "/api/signals/evaluate" => some evaluate
  | "/api/backtest" => some backtest
  | "/api/tools" => some tools
  | path => ofToolPath? path

/-- The endpoint takes a body. -/
def isPosted : Endpoint → Bool
  | evaluate => true
  | backtest => true
  | tool _ => true
  | _ => false

def admits (e : Endpoint) (method : String) : Bool :=
  if e.isPosted then method == "POST" else method == "GET" || method == "HEAD"

end Endpoint

/-- What is asked of the service. -/
inductive Call where
  | health
  | metrics
  | profiles
  | tools
  | evaluate (body : Document)
  | backtest (body : Document)
  | tool (name : String) (body : Document)

namespace ServiceRequest

def path (r : ServiceRequest) : String := Target.path r.target

def isJson (r : ServiceRequest) : Bool := (r.mediaType.bind MediaType.parse?).any MediaType.isJson

/-- The body, if it is said to be JSON. -/
def document (r : ServiceRequest) : Except Nat Document :=
  if r.isJson then .ok (parse r.body) else .error 415

/-- The call that a request makes, or the status that refuses it. -/
def call (r : ServiceRequest) : Except Nat Call :=
  match Endpoint.ofPath? r.path with
  | none => .error 404
  | some endpoint =>
    if endpoint.admits r.method then
      match endpoint with
      | .health => .ok .health
      | .metrics => .ok .metrics
      | .profiles => .ok .profiles
      | .tools => .ok .tools
      | .evaluate => do return .evaluate (← r.document)
      | .backtest => do return .backtest (← r.document)
      | .tool segment =>
        match Text.unescape? segment with
        | none => .error 400
        | some name => do return .tool name (← r.document)
    else .error 405

end ServiceRequest

end MarketVerdict
