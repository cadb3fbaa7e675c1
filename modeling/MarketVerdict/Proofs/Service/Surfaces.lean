import MarketVerdict.Proofs.Fusion.Verdict
import MarketVerdict.Proofs.Service.Arguments

/-!
# Two ways to the desk

What the desk does can be asked for at an endpoint of its own and as a tool. The requests are read by
different readers, and the answers of a tool are wrapped and unwrapped again; both ways lead to one
operation of the service, so that response and counters come out the same. Only the time at which a
verdict was made differs, and nothing depends on it.
-/

namespace MarketVerdict

open Json Traversal

/-- A body of JSON is posted to a path. -/
structure ServiceRequest.Posts (r : ServiceRequest) (path : String) (j : Json) : Prop where
  method : r.method = "POST"
  path : r.path = path
  json : r.isJson = true
  body : parse r.body = ⟨j, false⟩

namespace Tool

/-- Where the tool is invoked. -/
def path (t : Tool) : String := "/api/tools/" ++ t.name

end Tool

namespace ServiceRequest.Posts

variable {r : ServiceRequest} {path : String} {j : Json} {t : Tool}

theorem document (h : r.Posts path j) : r.document = .ok ⟨j, false⟩ := by
  rw [ServiceRequest.document, if_pos h.json, h.body]

end ServiceRequest.Posts

/-! ### The time of an answer -/

/-- The value without the fields of a name. -/
def Json.without (name : String) : Json → Json
  | object fields => object (fields.filter fun f => f.1 != some name)
  | j => j

/-- The response without the fields of a name in its body. -/
def Response.without (name : String) (r : Response) : Response :=
  match r.body with
  | .json j => { r with body := .json (j.without name) }
  | _ => r

namespace Service

variable (s : Service) {a : Tool.Arguments} {t : Tool} {said : List (String × Json)}

/-- A service without market data. -/
def bare : Service := ofDesk ⟨.standard, .technical, [], .standard⟩ (Source.ofStore Table.empty)

def contrarian : Tool.Arguments := ⟨"BTC-USD", none, some "contrarian", none⟩

/-- Says the same at the other place, in another order and with a null. -/
def contrarianDirect : ServiceRequest where
  method := "POST"
  target := "/api/signals/evaluate?trace=1"
  mediaType := some "application/json; charset=utf-8"
  body := "\x7b \"profile\": \"contrarian\", \"indicators\": null, \"instrument\": \"BTC-USD\" \x7d"

end Service

end MarketVerdict
