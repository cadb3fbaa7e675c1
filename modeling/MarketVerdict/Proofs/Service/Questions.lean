import MarketVerdict.Proofs.Traversal
import MarketVerdict.Service

/-!
# What reaches the desk

A request asks the desk one question, or none, or it is turned away before: because no call fits it,
its body cannot be read, its instrument is blank, or its tool or the arguments of the tool are not
known. The desk's answer is the response and is counted once; a request that does not reach the desk
leaves the service as it was.
-/

namespace MarketVerdict

open Json Traversal

inductive Question where
  | evaluation (request : EvaluationRequest)
  | replay (request : ReplayRequest)

/-- Why a request is turned away before the desk is asked. -/
inductive Rejection where
  | refused (status : ℕ)
  | undecodable (fault : ReadFault)
  | blankInstrument
  | unknownTool (name : String)
  | invalidArguments

namespace Question

variable {β : Type}

/-- What a body asks that is read as a request. -/
def ofBody (read : Read β) (instrument : β → String) (ask : β → Question) (body : Document) :
    Except Rejection Question :=
  match body.read read with
  | .error fault => .error (.undecodable fault)
  | .ok request =>
    if Text.isBlankText (instrument request) then .error .blankInstrument else .ok (ask request)

/-- What the arguments of a tool ask. -/
def ofArguments (arguments : Json) : Tool → Except ToolError Question
  | .fuseSignals => (Tool.readEvaluation arguments).map evaluation
  | .runBacktest => (Tool.readReplay arguments).map replay

/-- What a body asks of the tool of a name. -/
def ofTool (name : String) (body : Document) : Except Rejection Question :=
  match body.read Service.readArguments with
  | .error fault => .error (.undecodable fault)
  | .ok arguments =>
    match Tool.ofName? name with
    | none => .error (.unknownTool name)
    | some t => (ofArguments arguments t).mapError fun _ => .invalidArguments

end Question

/-- The question of a call to the desk; other calls have none. -/
def Call.question : Call → Except Rejection (Option Question)
  | .evaluate body =>
    (Question.ofBody EvaluationRequest.read (·.instrument) .evaluation body).map some
  | .backtest body => (Question.ofBody ReplayRequest.read (·.instrument) .replay body).map some
  | .tool name body => (Question.ofTool name body).map some
  | .health | .metrics | .profiles | .tools => .ok none

def ServiceRequest.question (r : ServiceRequest) : Except Rejection (Option Question) :=
  if r.method = "OPTIONS" then .ok none
  else
    match r.call with
    | .error status => .error (.refused status)
    | .ok call => call.question

/-- Only what is posted can ask the desk. -/
theorem ServiceRequest.posted_or_unasked {r : ServiceRequest} {call : Call}
    (h : r.call = .ok call) : r.method = "POST" ∨ call.question = .ok none := by
  unfold ServiceRequest.call at h
  split at h
  · cases h
  · split at h
    · next endpoint _ hadmits =>
      cases endpoint with
      | health | metrics | profiles | tools =>
        cases h
        exact Or.inr rfl
      | evaluate | backtest | tool segment =>
        exact Or.inl (beq_iff_eq.mp hadmits)
    · cases h

/-- What the desk says to a question. -/
inductive Outcome where
  | evaluation (outcome : Except (FusionError Float) (Verdict Float))
  | replay (outcome : Except (FusionError Float) (Report Float))

namespace Outcome

/-- What a tool gives for it. -/
def output : Outcome → Except ToolError ToolOutput
  | evaluation outcome => (outcome.mapError .fusion).map .verdict
  | replay outcome => (outcome.mapError .fusion).map .report

def response : Outcome → Response
  | evaluation outcome => Response.ofOutcome Verdict.encode outcome
  | replay outcome => Response.ofOutcome Report.encode outcome

def verdict? : Outcome → Option (Verdict Float)
  | evaluation (.ok v) => some v
  | _ => none

def report? : Outcome → Option (Report Float)
  | replay (.ok r) => some r
  | _ => none

def failure? : Outcome → Option (FusionError Float)
  | evaluation (.error e) => some e
  | replay (.error e) => some e
  | _ => none

theorem response_output (o : Outcome) :
    (match o.output with
      | .ok output => Response.ok output.encode
      | .error e => Response.ofToolError e) = o.response := by
  cases o with
  | evaluation outcome | replay outcome => cases outcome <;> rfl

end Outcome

def Question.answer (d : Desk) (time : Instant) (source : Source) : Question → Outcome × Source
  | evaluation request =>
    let (outcome, source) := d.evaluate request time source
    (.evaluation outcome, source)
  | replay request =>
    let (outcome, source) := d.backtest request source
    (.replay outcome, source)

namespace Tool

variable {d : Desk} {t : Tool} {arguments : Json} {time : Instant} {source : Source}

theorem call_eq :
    t.call d arguments time source =
      match Question.ofArguments arguments t with
      | .error e => (.error e, source)
      | .ok q => ((q.answer d time source).1.output, (q.answer d time source).2) := by
  cases t with
  | fuseSignals =>
    rw [call, Question.ofArguments]
    cases readEvaluation arguments <;> rfl
  | runBacktest =>
    rw [call, Question.ofArguments]
    cases readReplay arguments <;> rfl

theorem invalidArguments_of_read {β : Type} {read : Read β} {instrument : β → String}
    {e : ToolError} (h : (do
      let request ← readArguments read arguments
      withInstrument (instrument request) request) = .error e) :
    ∃ fault, e = .invalidArguments fault := by
  rcases bind_eq_error_iff.mp h with h | ⟨request, _, h⟩
  · obtain ⟨_, _, rfl⟩ := mapError_eq_error_iff.mp h
    exact ⟨_, rfl⟩
  · unfold withInstrument at h
    split at h
    · exact ⟨_, (Except.error.inj h).symm⟩
    · cases h

/-- Reading the arguments finds fault with nothing else. -/
theorem invalidArguments_of_error {e : ToolError}
    (h : Question.ofArguments arguments t = .error e) : ∃ fault, e = .invalidArguments fault := by
  cases t with
  | fuseSignals => exact invalidArguments_of_read (exceptMap_eq_error_iff.mp h)
  | runBacktest => exact invalidArguments_of_read (exceptMap_eq_error_iff.mp h)

end Tool

/-- The counters after one more outcome. -/
def Counters.record (c : Counters) : Outcome → Counters
  | .evaluation (.ok v) => c.addVerdict v
  | .replay (.ok r) => c.addReport r
  | .evaluation (.error e) => c.addFailure e
  | .replay (.error e) => c.addFailure e

namespace Service

/-- The service after the desk has answered a question. -/
def recording (s : Service) (answered : Outcome × Source) : Service :=
  { s with source := answered.2, counters := s.counters.record answered.1 }

/-- Response and service once the desk has been asked. -/
def asking (s : Service) (q : Question) (time : Instant) : Response × Service :=
  ((q.answer s.desk time s.source).1.response, s.recording (q.answer s.desk time s.source))

/-- What the desk says to a request, if it is asked. -/
def outcome? (s : Service) (r : ServiceRequest) (time : Instant) : Option Outcome :=
  match r.question with
  | .ok (some q) => some (q.answer s.desk time s.source).1
  | _ => none

variable (s : Service) {q : Question} {call : Call} {r : ServiceRequest} {rejection : Rejection}
  {time : Instant}

theorem evaluate_of_named {request : EvaluationRequest}
    (h : ¬ Text.isBlankText request.instrument = true) :
    s.evaluate request time = s.asking (.evaluation request) time := by
  rw [evaluate, if_neg h, asking, Question.answer]
  obtain ⟨outcome, source⟩ := s.desk.evaluate request time s.source
  cases outcome <;> rfl

theorem backtest_of_named {request : ReplayRequest}
    (h : ¬ Text.isBlankText request.instrument = true) :
    s.backtest request = s.asking (.replay request) time := by
  rw [backtest, if_neg h, asking, Question.answer]
  obtain ⟨outcome, source⟩ := s.desk.backtest request s.source
  cases outcome <;> rfl

/-- How the service deals with a request: it asks the desk, or it stays as it was. -/
inductive Follows (s : Service) (time : Instant) :
    Except Rejection (Option Question) → Response × Service → Prop
  | asked {result : Response × Service} (q : Question) (h : result = s.asking q time) :
      Follows s time (.ok (some q)) result
  | unasked (response : Response) : Follows s time (.ok none) (response, s)
  | rejected (rejection : Rejection) (response : Response) :
      Follows s time (.error rejection) (response, s)

theorem follows_withBody {β : Type} {read : Read β} {instrument : β → String} {ask : β → Question}
    {body : Document} {answer : β → Response × Service}
    (hnamed : ∀ b, ¬ Text.isBlankText (instrument b) = true → answer b = s.asking (ask b) time)
    (hblank : ∀ b, Text.isBlankText (instrument b) = true →
      answer b = (Response.blankInstrument, s)) :
    s.Follows time ((Question.ofBody read instrument ask body).map some)
      (s.withBody read body answer) := by
  unfold Question.ofBody withBody
  cases body.read read with
  | error fault => exact .rejected _ _
  | ok b =>
    dsimp only
    by_cases h : Text.isBlankText (instrument b) = true
    · rw [if_pos h, hblank b h]
      exact .rejected _ _
    · rw [if_neg h]
      exact .asked _ (hnamed b h)

theorem countingTool_output (o : Outcome) (source : Source) :
    s.countingTool o.output source = s.recording (o, source) := by
  cases o with
  | evaluation outcome | replay outcome => cases outcome <;> rfl

theorem follows_invoke {name : String} {body : Document} :
    s.Follows time ((Question.ofTool name body).map some)
      (s.withBody readArguments body fun j => s.invoke name j time) := by
  unfold Question.ofTool withBody
  cases body.read readArguments with
  | error fault => exact .rejected _ _
  | ok arguments =>
    dsimp only
    unfold invoke Tool.invoke
    cases Tool.ofName? name with
    | none => exact .rejected _ _
    | some t =>
      dsimp only
      rw [Tool.call_eq]
      cases h : Question.ofArguments arguments t with
      | error e =>
        obtain ⟨fault, rfl⟩ := Tool.invalidArguments_of_error h
        exact .rejected _ _
      | ok q =>
        exact .asked q (congrArg₂ Prod.mk (Outcome.response_output _) (s.countingTool_output _ _))

theorem follows_answer : s.Follows time call.question (s.answer call time) := by
  cases call with
  | health | metrics | profiles | tools => exact .unasked _
  | evaluate body => exact s.follows_withBody (fun _ => s.evaluate_of_named) fun _ h => if_pos h
  | backtest body => exact s.follows_withBody (fun _ => s.backtest_of_named) fun _ h => if_pos h
  | tool name body => exact s.follows_invoke

theorem follows_handle : s.Follows time r.question (s.handle r time) := by
  unfold ServiceRequest.question handle
  split
  · exact .unasked _
  · cases hcall : r.call with
    | error status => exact .rejected _ _
    | ok call =>
      dsimp only
      have hanswer : s.Follows time call.question (s.answer call time) := s.follows_answer
      rcases ServiceRequest.posted_or_unasked hcall with hposted | hunasked
      · have hhead : r.method ≠ "HEAD" := by rw [hposted]; decide
        simp only [if_neg hhead]
        exact hanswer
      · rw [hunasked] at hanswer ⊢
        generalize s.answer call time = answered at hanswer ⊢
        cases hanswer
        exact .unasked _

end Service

end MarketVerdict
