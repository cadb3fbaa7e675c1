import MarketVerdict.Fusion
import MarketVerdict.Portfolio
import MarketVerdict.Provider

/-!
# Replays

A replay evaluates every head of a series from `warmup` bars on and lets a portfolio follow each
verdict at the last close of that head. An indicator that fails on a head counts as missing there.
-/

namespace MarketVerdict

open Scalar

variable {α : Type}

/-- What is replayed. -/
structure Replay (α : Type) where
  context : Context α
  provider : Provider α
  specs : List (Spec α)
  profile : Profile α

/-- Why a replay gives no report. -/
inductive ReplayError (α : Type) where
  | failed (cause : FusionError α)
  | halted (how : Halt)

structure Report (α : Type) where
  instrument : String
  profile : String
  initialCapital : α
  /-- Cash, with the open position at the last close. -/
  finalCapital : α
  totalReturnPercent : α
  cagrPercent : α
  warmup : Nat
  barsEvaluated : Nat
  start : Option Instant
  finish : Option Instant
  trades : List (Trade α)

def Report.totalTrades (r : Report α) : Nat := r.trades.length

/-- The longest minimum history, and at least one bar. -/
def defaultWarmup (specs : List (Spec α)) : Nat :=
  specs.foldl (fun n spec => max n spec.params.minHistory) 1

variable [Scalar α]

def defaultCapital : α := 10000

/-- The percentage of growth in a year. -/
def cagrPercent (initial last years : α) : α :=
  if years ≤ 0 ∨ initial ≤ 0 ∨ last ≤ 0 then 0
  else (pow (last / initial) (1 / years) - 1) * 100

def secondsPerYear : α := 365.25 * 86400

def ofSeconds (s : Int) : α := if s < 0 then -(s.natAbs : α) else (s.natAbs : α)

namespace Replay

/-- A reading for every specification, unless one of them comes to a halt. -/
def readings (provider : Provider α) (specs : List (Spec α)) (window : Series α) :
    Except Halt (List (Spec α × Reading α)) :=
  specs.mapM fun spec =>
    match provider spec window with
    | .reading r => .ok (spec, r)
    | .failed _ => .ok (spec, Reading.missing spec window.length)
    | .halted how => .error how

/-- The verdict at the last bar of a window. -/
def verdict (r : Replay α) (window : Series α) (time : Instant) :
    Except (ReplayError α) (Verdict α) := do
  let readings ← (readings r.provider r.specs window).mapError .halted
  (r.context.evaluate readings r.profile time).mapError .failed

structure State (α : Type) where
  portfolio : Portfolio α
  barsEvaluated : Nat

/-- One window: the first `n` bars. -/
def step (r : Replay α) (s : Series α) (state : State α) (n : Nat) :
    Except (ReplayError α) (State α) :=
  let window := s.head n
  match window.last? with
  | none => .ok state
  | some bar => do
    let v ← r.verdict window bar.time
    let (portfolio, _) := state.portfolio.apply v.recommendation bar.close bar.time v.score
    return ⟨portfolio, state.barsEvaluated + 1⟩

/-- The lengths of the windows of `bars` bars. -/
def lengths (warmup bars : Nat) : List Nat := List.range' warmup (bars + 1 - warmup)

def years (start finish : Option Instant) : α :=
  match start, finish with
  | some start, some finish => ofSeconds (finish.secondsSince start) / secondsPerYear
  | _, _ => 0

def report (r : Replay α) (s : Series α) (capital : α) (warmup : Nat) (state : State α) :
    Report α :=
  let start := s.bars.head?.map Bar.time
  let finish := s.last?.map Bar.time
  let lastClose := (s.last?.map Bar.close).getD 0
  let final := state.portfolio.equity lastClose
  { instrument := s.instrument
    profile := r.profile.name
    initialCapital := capital
    finalCapital := final
    totalReturnPercent := (final - capital) / capital * 100
    cagrPercent := cagrPercent capital final (years start finish)
    warmup := warmup
    barsEvaluated := state.barsEvaluated
    start := start
    finish := finish
    trades := state.portfolio.trades }

def run (r : Replay α) (s : Series α) (capital : α) (warmup : Nat) :
    Except (ReplayError α) (Report α) := do
  if ¬ (isFinite capital ∧ 0 < capital) then
    .error (.failed (.invalidBacktest (.capital capital)))
  else
    let warmup := max warmup 1
    let state ← (lengths warmup s.length).foldlM (step r s) ⟨Portfolio.ofCash capital, 0⟩
    return report r s capital warmup state

end Replay

end MarketVerdict
