import MarketVerdict.Json.Decode
import MarketVerdict.Tool

/-!
# Responses

A response is a status and perhaps a body. Failures have an object for a body, with the label of the
failure and its message.
-/

namespace MarketVerdict

open Json

def FusionError.status {α : Type} : FusionError α → Nat
  | invalidSpec .. => 400
  | invalidProfile .. => 400
  | invalidThresholds .. => 400
  | invalidBacktest .. => 400
  | unknownProfile .. => 404
  | instrumentNotFound .. => 404
  | invalidSignal .. => 422
  | timeout .. => 504
  | marketData .. => 502
  | specMismatch .. => 500
  | unsupportedReading .. => 500
  | internal .. => 500

inductive Body where
  | empty
  | json (j : Json)
  | lines (ls : List String)

structure Response where
  status : Nat
  body : Body

namespace Response

def ofStatus (status : Nat) : Response := ⟨status, .empty⟩

def ok (j : Json) : Response := ⟨200, .json j⟩

def failure (status : Nat) (label message : String) : Response :=
  ⟨status, .json (record [("error", text label), ("message", text message)])⟩

def ofFusionError (e : FusionError Float) : Response := failure e.status e.label e.message

def ofToolError (e : ToolError) : Response :=
  match e with
  | .unknownTool _ => failure 404 "unknown_tool" e.message
  | .invalidArguments _ => failure 400 "invalid_arguments" e.message
  | .fusion cause => ofFusionError cause

def blankInstrument : Response := failure 400 "bad_request" ArgumentFault.blankInstrument.message

def ofOutcome {β : Type} (encode : β → Json) : Except (FusionError Float) β → Response
  | .ok b => ok (encode b)
  | .error e => ofFusionError e

/-- The response to a request that asks for no body. -/
def withoutBody (r : Response) : Response := { r with body := .empty }

end Response

/-- The status of a body that cannot be read. -/
def Json.ReadFault.status : Json.ReadFault → Nat
  | .malformed => 400
  | .mismatch => 422

end MarketVerdict
