import MarketVerdict.Proofs.Service.Questions
import MarketVerdict.Proofs.Service.Surfaces

/-!
# What the counters count

Requests arrive, are handled and are completed in any order and any number of them at a time. Whatever
the order, the counters of requests tell how many are complete and how many are under way, and the
other counters tell what the desk said: its verdicts by recommendation, what these left out by reason,
its failures by label, its reports and their trades. What the desk was not asked is counted nowhere.
-/

namespace MarketVerdict

open Traversal

theorem Recommendation.name_injective : Function.Injective Recommendation.name := fun r r' h =>
  Option.some.inj (by rw [← ofName?_name, h, ofName?_name])

theorem Exclusion.name_injective : Function.Injective Exclusion.name := by
  intro e e'
  cases e <;> cases e' <;> decide

theorem Attribution.exclusion?_eq_some_iff {α : Type} {a : Attribution α} {reason : Exclusion} :
    a.exclusion? = some reason ↔ a.status = .excluded reason := by
  unfold exclusion?
  cases a.status with
  | included => exact iff_of_false nofun nofun
  | excluded reason' => rw [Option.some.injEq, Status.excluded.injEq]

theorem Table.count_foldl_tally {β : Type} (name : β → String) (xs : List β) (t : Table ℕ)
    (k : String) :
    (xs.foldl (fun t x => t.tally (name x)) t).count k =
      t.count k + xs.countP fun x => name x = k := by
  induction xs generalizing t with
  | nil => rfl
  | cons x xs ih =>
    rw [List.foldl_cons, ih, count_tally, List.countP_cons]
    simp only [decide_eq_true_eq]
    omega

/-! ### Outcomes -/

/-- The counters that depend on what the desk said tell of these outcomes. -/
structure Counters.Tallied (c : Counters) (outcomes : List Outcome) : Prop where
  evaluations : ∀ r : Recommendation, c.evaluations.count r.name =
    (outcomes.filterMap Outcome.verdict?).countP fun v => v.recommendation = r
  exclusions : ∀ reason : Exclusion, c.exclusions.count reason.name =
    ((outcomes.filterMap Outcome.verdict?).map fun v =>
      v.attribution.countP fun a => a.status = .excluded reason).sum
  failures : ∀ label, c.failures.count label =
    (outcomes.filterMap Outcome.failure?).countP fun e => e.label = label
  backtests : c.backtests = (outcomes.filterMap Outcome.report?).length
  trades : c.trades = ((outcomes.filterMap Outcome.report?).map Report.totalTrades).sum

namespace Counters

variable {c : Counters} {outcomes : List Outcome}

/-- Requests are counted apart from what the desk says. -/
theorem record_elim (c : Counters) (outcome : Option Outcome) :
    (outcome.elim c c.record).requests = c.requests ∧
      (outcome.elim c c.record).inFlight = c.inFlight := by
  cases outcome with
  | none => exact ⟨rfl, rfl⟩
  | some o =>
    cases o with
    | evaluation outcome | replay outcome => cases outcome <;> exact ⟨rfl, rfl⟩

theorem tallied_zero : zero.Tallied [] :=
  ⟨fun _ => rfl, fun _ => rfl, fun _ => rfl, rfl, rfl⟩

theorem count_exclusions_addVerdict (c : Counters) (v : Verdict Float) (reason : Exclusion) :
    (c.addVerdict v).exclusions.count reason.name = c.exclusions.count reason.name +
      v.attribution.countP fun a => a.status = .excluded reason := by
  rw [addVerdict, Table.count_foldl_tally, List.countP_filterMap]
  congr 2
  funext a
  simp only [Exclusion.name_injective.eq_iff, ← Attribution.exclusion?_eq_some_iff]
  cases a.exclusion? <;> simp

theorem Tallied.addVerdict (h : c.Tallied outcomes) (v : Verdict Float) :
    (c.addVerdict v).Tallied (.evaluation (.ok v) :: outcomes) where
  evaluations := by
    intro r
    change (c.evaluations.tally v.recommendation.name).count r.name =
      (v :: outcomes.filterMap Outcome.verdict?).countP _
    rw [Table.count_tally, h.evaluations, List.countP_cons]
    simp only [Recommendation.name_injective.eq_iff, decide_eq_true_eq]
  exclusions := by
    intro reason
    rw [count_exclusions_addVerdict, h.exclusions, Nat.add_comm]
    rfl
  failures := h.failures
  backtests := h.backtests
  trades := h.trades

theorem Tallied.addReport (h : c.Tallied outcomes) (r : Report Float) :
    (c.addReport r).Tallied (.replay (.ok r) :: outcomes) where
  evaluations := h.evaluations
  exclusions := h.exclusions
  failures := h.failures
  backtests := congrArg (· + 1) h.backtests
  trades := by
    change c.trades + r.totalTrades = ((r :: outcomes.filterMap Outcome.report?).map _).sum
    rw [h.trades, List.map_cons, List.sum_cons, Nat.add_comm]

theorem Tallied.record (h : c.Tallied outcomes) (o : Outcome) :
    (c.record o).Tallied (o :: outcomes) := by
  have hfailure : ∀ (e : FusionError Float) label, (c.addFailure e).failures.count label =
      (e :: outcomes.filterMap Outcome.failure?).countP fun e => e.label = label := by
    intro e label
    rw [addFailure, Table.count_tally, h.failures, List.countP_cons]
    simp only [decide_eq_true_eq]
  cases o with
  | evaluation outcome =>
    cases outcome with
    | ok v => exact h.addVerdict v
    | error e => exact ⟨h.evaluations, h.exclusions, hfailure e, h.backtests, h.trades⟩
  | replay outcome =>
    cases outcome with
    | ok r => exact h.addReport r
    | error e => exact ⟨h.evaluations, h.exclusions, hfailure e, h.backtests, h.trades⟩

end Counters

/-! ### Requests under way -/

/-- What happens to a request. -/
inductive Event where
  | arrived (request : ServiceRequest)
  /-- With the response, and with what the desk said if it was asked. -/
  | handled (request : ServiceRequest) (response : Response) (outcome : Option Outcome)
  | completed (response : Response)

namespace Event

def isArrival : Event → Bool
  | arrived _ => true
  | _ => false

def isCompletion : Event → Bool
  | completed _ => true
  | _ => false

def outcome? : Event → Option Outcome
  | handled _ _ outcome => outcome
  | _ => none

end Event

/-- A service with the requests that it has not handled yet and the responses that it has not sent. -/
structure Traffic where
  service : Service
  waiting : List ServiceRequest
  answered : List Response

/-- One step of one request, with any of those that are ready. -/
inductive Step : Traffic → Event → Traffic → Prop
  | arrive (s : Service) (waiting : List ServiceRequest) (answered : List Response)
      (r : ServiceRequest) :
      Step ⟨s, waiting, answered⟩ (.arrived r) ⟨s.start, r :: waiting, answered⟩
  | handle (s : Service) (front back : List ServiceRequest) (answered : List Response)
      (r : ServiceRequest) (time : Instant) :
      Step ⟨s, front ++ r :: back, answered⟩
        (.handled r (s.handle r time).1 (s.outcome? r time))
        ⟨(s.handle r time).2, front ++ back, (s.handle r time).1 :: answered⟩
  | complete (s : Service) (waiting : List ServiceRequest) (front back : List Response)
      (response : Response) :
      Step ⟨s, waiting, front ++ response :: back⟩ (.completed response)
        ⟨s.finish, waiting, front ++ back⟩

/-- What has happened since the service was idle, the latest first. -/
inductive Run (s : Service) : List Event → Traffic → Prop
  | idle : Run s [] ⟨s, [], []⟩
  | step {events : List Event} {t t' : Traffic} {e : Event} (h : Run s events t) (he : Step t e t') :
      Run s (e :: events) t'

namespace Service

variable (s : Service) {r : ServiceRequest} {time : Instant} {rejection : Rejection}

/-- What the desk says is the response and is counted once. -/
theorem handle_outcome (r : ServiceRequest) (time : Instant) :
    (s.handle r time).2.counters = (s.outcome? r time).elim s.counters s.counters.record ∧
      ∀ o ∈ s.outcome? r time, (s.handle r time).1 = o.response := by
  have hfollows : s.Follows time r.question (s.handle r time) := s.follows_handle
  unfold outcome?
  generalize r.question = question at hfollows ⊢
  generalize s.handle r time = result at hfollows ⊢
  cases hfollows with
  | asked q h =>
    rw [h]
    exact ⟨rfl, fun o ho => (Option.some.inj ho) ▸ rfl⟩
  | unasked => exact ⟨rfl, fun o ho => absurd ho (Option.not_mem_none o)⟩
  | rejected => exact ⟨rfl, fun o ho => absurd ho (Option.not_mem_none o)⟩

theorem handle_of_rejected (h : r.question = .error rejection) : (s.handle r time).2 = s := by
  have hfollows : s.Follows time r.question (s.handle r time) := s.follows_handle
  rw [h] at hfollows
  generalize s.handle r time = result at hfollows ⊢
  cases hfollows
  rfl

theorem isSome_outcome?_iff : (s.outcome? r time).isSome ↔ ∃ q, r.question = .ok (some q) := by
  unfold outcome?
  split
  · next q hq => exact iff_of_true rfl ⟨q, hq⟩
  · next hnone => exact iff_of_false nofun fun ⟨q, hq⟩ => hnone q hq

end Service

/-- What the counters tell of a run, and the responses that went with it. -/
structure Accounted (events : List Event) (t : Traffic) : Prop where
  requests : t.service.counters.requests = events.countP Event.isCompletion
  arrivals : events.countP Event.isArrival =
    events.countP Event.isCompletion + (t.waiting.length + t.answered.length)
  inFlight : t.service.counters.inFlight = (t.waiting.length + t.answered.length : ℕ)
  outcomes : t.service.counters.Tallied (events.filterMap Event.outcome?)
  responses : ∀ r response outcome, .handled r response outcome ∈ events →
    (outcome.isSome ↔ ∃ q, r.question = .ok (some q)) ∧ ∀ o ∈ outcome, response = o.response

namespace Accounted

variable {events : List Event} {t t' : Traffic} {e : Event}

theorem idle (desk : Desk) (source : Source) : Accounted [] ⟨Service.ofDesk desk source, [], []⟩ where
  requests := rfl
  arrivals := rfl
  inFlight := rfl
  outcomes := Counters.tallied_zero
  responses := fun _ _ _ hmem => absurd hmem List.not_mem_nil

theorem arrive {s : Service} {waiting : List ServiceRequest} {answered : List Response}
    (h : Accounted events ⟨s, waiting, answered⟩) (r : ServiceRequest) :
    Accounted (.arrived r :: events) ⟨s.start, r :: waiting, answered⟩ where
  requests := h.requests
  arrivals := by
    have := h.arrivals
    rw [List.countP_cons_of_pos rfl, List.countP_cons_of_neg Bool.false_ne_true]
    simp only [List.length_cons] at this ⊢
    omega
  inFlight := by
    have := h.inFlight
    simp only [Service.start, Counters.start, List.length_cons] at this ⊢
    omega
  outcomes := { h.outcomes with }
  responses := fun r' response outcome hmem => h.responses r' response outcome
    ((List.mem_cons.mp hmem).resolve_left nofun)

theorem complete {s : Service} {waiting : List ServiceRequest} {front back : List Response}
    {response : Response} (h : Accounted events ⟨s, waiting, front ++ response :: back⟩) :
    Accounted (.completed response :: events) ⟨s.finish, waiting, front ++ back⟩ where
  requests := by
    rw [List.countP_cons_of_pos rfl]
    exact congrArg (· + 1) h.requests
  arrivals := by
    have := h.arrivals
    rw [List.countP_cons_of_neg Bool.false_ne_true, List.countP_cons_of_pos rfl]
    simp only [List.length_append, List.length_cons] at this ⊢
    omega
  inFlight := by
    have := h.inFlight
    simp only [Service.finish, Counters.finish, List.length_append, List.length_cons] at this ⊢
    omega
  outcomes := { h.outcomes with }
  responses := fun r' response' outcome hmem => h.responses r' response' outcome
    ((List.mem_cons.mp hmem).resolve_left nofun)

/-- What is handled stays under way. -/
theorem handle {s : Service} {front back : List ServiceRequest} {answered : List Response}
    {r : ServiceRequest} (h : Accounted events ⟨s, front ++ r :: back, answered⟩) (time : Instant) :
    Accounted (.handled r (s.handle r time).1 (s.outcome? r time) :: events)
      ⟨(s.handle r time).2, front ++ back, (s.handle r time).1 :: answered⟩ := by
  obtain ⟨hcounters, hresponse⟩ := s.handle_outcome r time
  obtain ⟨hrequests, hinFlight⟩ := s.counters.record_elim (s.outcome? r time)
  rw [← hcounters] at hrequests hinFlight
  constructor
  · rw [List.countP_cons_of_neg Bool.false_ne_true, ← h.requests]
    exact hrequests
  · have := h.arrivals
    rw [List.countP_cons_of_neg Bool.false_ne_true, List.countP_cons_of_neg Bool.false_ne_true]
    simp only [List.length_append, List.length_cons] at this ⊢
    omega
  · have := h.inFlight
    simp only [List.length_append, List.length_cons] at this ⊢
    omega
  · change (s.handle r time).2.counters.Tallied _
    rw [hcounters]
    cases s.outcome? r time with
    | none => exact h.outcomes
    | some o => exact h.outcomes.record o
  · intro r' response outcome hmem
    rcases List.mem_cons.mp hmem with heq | hmem
    · cases heq
      exact ⟨s.isSome_outcome?_iff, hresponse⟩
    · exact h.responses r' response outcome hmem

end Accounted

theorem Step.accounted {events : List Event} {t t' : Traffic} {e : Event} (he : Step t e t')
    (h : Accounted events t) : Accounted (e :: events) t' := by
  cases he with
  | arrive s waiting answered r => exact h.arrive r
  | handle s front back answered r time => exact h.handle time
  | complete s waiting front back response => exact h.complete

theorem Run.accounted {desk : Desk} {source : Source} {events : List Event} {t : Traffic}
    (h : Run (Service.ofDesk desk source) events t) : Accounted events t := by
  induction h with
  | idle => exact .idle desk source
  | step _ he ih => exact he.accounted ih

namespace Service

/-- A service that starts with its counters at zero counts, however its requests are interleaved,
what becomes of them, and nothing for a request that it turns away before it asks the desk. -/
theorem counters_account (desk : Desk) (source : Source) :
    (∀ events t, Run (ofDesk desk source) events t → Accounted events t) ∧
      ∀ (s : Service) (r : ServiceRequest) (time : Instant) (rejection : Rejection),
        r.question = .error rejection → (s.handle r time).2 = s :=
  ⟨fun _ _ h => h.accounted, fun s _ _ _ h => s.handle_of_rejected h⟩

/-- Has nothing but a blank for an instrument. -/
def nameless : ServiceRequest where
  method := "POST"
  target := "/api/backtest"
  mediaType := some "application/json"
  body := "\x7b\"instrument\":\" \"\x7d"

theorem question_nameless : nameless.question = .error .blankInstrument := by cbv

theorem question_contrarianDirect :
    contrarianDirect.question = .ok (some (.evaluation contrarian.evaluation)) := by cbv

/-- Two requests at a time, of which the one that came later is complete. -/
theorem counters_account_overtaken :
    ∃ events t, Run bare events t ∧ Accounted events t ∧
      t.service.counters.failures.count "unknown_profile" = 1 ∧ t.service.counters.requests = 1 ∧
      t.service.counters.inFlight = 1 ∧ (t.service.handle nameless ⟨0, 0⟩).2 = t.service := by
  have hfirst : Run bare _ _ := .step .idle (.arrive bare [] [] contrarianDirect)
  have hsecond := hfirst.step (.arrive _ _ _ nameless)
  have hmissed := hsecond.step (.handle _ [nameless] [] [] contrarianDirect ⟨0, 0⟩)
  have hblank := hmissed.step (.handle _ [] [] _ nameless ⟨60, 0⟩)
  have hrun := hblank.step (.complete _ [] [] [_] _)
  obtain ⟨haccounted, hrejected⟩ := counters_account bare.desk bare.source
  have h := haccounted _ _ hrun
  refine ⟨_, _, hrun, h, ?_, h.requests, h.inFlight, hrejected _ _ _ _ question_nameless⟩
  have hnone (s : Service) : s.outcome? nameless ⟨60, 0⟩ = none := by
    rw [outcome?, question_nameless]
  have hsome : bare.start.start.outcome? contrarianDirect ⟨0, 0⟩ =
      some (.evaluation (.error (.unknownProfile "contrarian"))) := by
    rw [outcome?, question_contrarianDirect]
    rfl
  rw [h.outcomes.failures, hnone, hsome]
  rfl

end Service

end MarketVerdict
