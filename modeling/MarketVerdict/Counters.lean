import MarketVerdict.Replay
import MarketVerdict.Table

/-!
# Counters of the service

Requests are counted when they are complete, and those under way by a gauge. Verdicts are counted by
recommendation, the entries that they leave out by reason, failures by label. `Counters.exposition`
writes them as lines of text, a family of counters at a time; a family that is divided by a label
appears once it has a member.
-/

namespace MarketVerdict

open Decimal

namespace Table

def count (t : Table Nat) (k : String) : Nat := (t.get? k).getD 0

/-- The table in which `k` has been counted once more. -/
def tally (t : Table Nat) (k : String) : Table Nat := t.insert k (t.count k + 1)

theorem count_tally (t : Table Nat) (k k' : String) :
    (t.tally k).count k' = t.count k' + if k = k' then 1 else 0 := by
  unfold count tally
  rw [get?_insert]
  split
  · next h => simp [h, count]
  · simp

end Table

structure Counters where
  /-- Complete requests. -/
  requests : Nat
  inFlight : Int
  evaluations : Table Nat
  exclusions : Table Nat
  failures : Table Nat
  backtests : Nat
  trades : Nat

namespace Counters

def zero : Counters := ⟨0, 0, Table.empty, Table.empty, Table.empty, 0, 0⟩

/-- A request has arrived. -/
def start (c : Counters) : Counters := { c with inFlight := c.inFlight + 1 }

/-- A request is complete. -/
def finish (c : Counters) : Counters :=
  { c with inFlight := c.inFlight - 1, requests := c.requests + 1 }

variable {α : Type}

def addVerdict (c : Counters) (v : Verdict α) : Counters :=
  { c with
    evaluations := c.evaluations.tally v.recommendation.name
    exclusions :=
      (v.attribution.filterMap Attribution.exclusion?).foldl
        (fun t reason => t.tally reason.name) c.exclusions }

def addReport (c : Counters) (r : Report α) : Counters :=
  { c with backtests := c.backtests + 1, trades := c.trades + r.totalTrades }

def addFailure (c : Counters) (e : FusionError α) : Counters :=
  { c with failures := c.failures.tally e.label }

end Counters

/-- Counters under one name. -/
structure MetricFamily where
  name : String
  help : String
  type : String
  /-- What follows the name, and the value. -/
  samples : List (String × String)

namespace MetricFamily

def lines (f : MetricFamily) : List String :=
  if f.samples.isEmpty then []
  else
    ("# HELP " ++ f.name ++ " " ++ f.help) :: ("# TYPE " ++ f.name ++ " " ++ f.type) ::
      f.samples.map fun s => f.name ++ s.1 ++ " " ++ s.2

/-- The samples of a table of counters, under the values of one label. -/
def labelled (label : String) (t : Table Nat) : List (String × String) :=
  t.entries.map fun e =>
    ("\x7b" ++ label ++ "=\"" ++ e.1 ++ "\"\x7d", natText e.2)

end MetricFamily

namespace Counters

/-- The families in the order of their names. -/
def families (c : Counters) : List MetricFamily := [
  ⟨"backtest_trades_total", "Simulated trades across completed backtests", "counter",
    [("", natText c.trades)]⟩,
  ⟨"backtests_total", "Completed backtests", "counter", [("", natText c.backtests)]⟩,
  ⟨"fusion_evaluations_total", "Completed fusions by recommendation", "counter",
    MetricFamily.labelled "recommendation" c.evaluations⟩,
  ⟨"fusion_failures_total", "Failed fusion requests by error", "counter",
    MetricFamily.labelled "error" c.failures⟩,
  ⟨"http_request_duration_seconds", "HTTP request latency in seconds", "histogram",
    [("_count", natText c.requests)]⟩,
  ⟨"http_requests_in_flight", "HTTP requests currently being served", "gauge",
    [("", intText c.inFlight)]⟩,
  ⟨"http_requests_total", "Total HTTP requests", "counter", [("", natText c.requests)]⟩,
  ⟨"indicator_exclusions_total", "Indicators left out of a fusion by reason", "counter",
    MetricFamily.labelled "reason" c.exclusions⟩]

def exposition (c : Counters) : List String := c.families.flatMap MetricFamily.lines

end Counters

end MarketVerdict
