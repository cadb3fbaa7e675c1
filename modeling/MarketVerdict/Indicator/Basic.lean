import MarketVerdict.Scalar

/-!
# Indicators and their parameters

An indicator has a kind, which says what it measures. Its parameters fix how many bars it needs:
`minHistory` for a value at all, `stableLookback` for one that no longer depends on where the
history starts. A specification names one indicator to evaluate.
-/

namespace MarketVerdict

/-- What an indicator measures. -/
inductive Kind where
  | oscillator
  | trend
  | volatility
  | volume
  deriving DecidableEq

namespace Kind

def name : Kind → String
  | oscillator => "oscillator"
  | trend => "trend"
  | volatility => "volatility"
  | volume => "volume"

def all : List Kind := [oscillator, trend, volatility, volume]

def ofName? (s : String) : Option Kind := all.find? fun k => k.name == s

theorem mem_all (k : Kind) : k ∈ all := by cases k <;> decide

theorem ofName?_name (k : Kind) : ofName? k.name = some k := by cases k <;> decide

end Kind

inductive Indicator where
  | rsi
  | stochastic
  | williamsR
  | macd
  | smaCross
  | emaCross
  | bollinger
  | obv
  deriving DecidableEq

namespace Indicator

def name : Indicator → String
  | rsi => "rsi"
  | stochastic => "stochastic"
  | williamsR => "williams_r"
  | macd => "macd"
  | smaCross => "sma_cross"
  | emaCross => "ema_cross"
  | bollinger => "bollinger"
  | obv => "obv"

def all : List Indicator := [rsi, stochastic, williamsR, macd, smaCross, emaCross, bollinger, obv]

def ofName? (s : String) : Option Indicator := all.find? fun i => i.name == s

/-- The kind of an indicator's readings, unless a specification declares another. -/
def defaultKind : Indicator → Kind
  | rsi | stochastic | williamsR => .oscillator
  | macd | smaCross | emaCross => .trend
  | bollinger => .volatility
  | obv => .volume

theorem mem_all (i : Indicator) : i ∈ all := by cases i <;> decide

theorem ofName?_name (i : Indicator) : ofName? i.name = some i := by cases i <;> decide

end Indicator

inductive Params (α : Type) where
  | rsi (period : Nat)
  | stochastic (kPeriod dPeriod : Nat)
  | williamsR (period : Nat)
  | macd (fast slow signal : Nat)
  | smaCross (fast slow : Nat)
  | emaCross (fast slow : Nat)
  | bollinger (period : Nat) (width : α)
  | obv (period : Nat)
  deriving DecidableEq

/-- What is wrong with the parameters of an indicator. -/
inductive ParamFault where
  | zeroPeriod (name : String)
  | fastNotShorter (fast slow : Nat)
  | width
  deriving DecidableEq

namespace Params

variable {α : Type}

def indicator : Params α → Indicator
  | rsi .. => .rsi
  | stochastic .. => .stochastic
  | williamsR .. => .williamsR
  | macd .. => .macd
  | smaCross .. => .smaCross
  | emaCross .. => .emaCross
  | bollinger .. => .bollinger
  | obv .. => .obv

/-- The parameters that count bars. -/
def periods : Params α → List Nat
  | rsi period | williamsR period | obv period | bollinger period _ => [period]
  | stochastic kPeriod dPeriod => [kPeriod, dPeriod]
  | macd fast slow signal => [fast, slow, signal]
  | smaCross fast slow | emaCross fast slow => [fast, slow]

/-- The parameters that do not count bars. -/
def factors : Params α → List α
  | bollinger _ width => [width]
  | _ => []

/-- The fewest bars that give a value. -/
def minHistory : Params α → Nat
  | rsi period => period + 1
  | stochastic kPeriod dPeriod => kPeriod + dPeriod - 1
  | williamsR period => period
  | macd _ slow signal => slow + signal - 1
  | smaCross _ slow => slow
  | emaCross _ slow => slow
  | bollinger period _ => period
  | obv period => period + 1

/-- The bars from which on a value counts in full. Smoothed averages need several periods to forget
their start; a crossing needs one bar more than the averages that cross. -/
def stableLookback : Params α → Nat
  | rsi period => 3 * period + 1
  | stochastic kPeriod dPeriod => kPeriod + dPeriod - 1
  | williamsR period => period
  | macd _ slow signal => 3 * slow + signal
  | smaCross _ slow => slow + 1
  | emaCross _ slow => 3 * slow
  | bollinger period _ => period
  | obv period => 2 * period + 1

def positive (name : String) (n : Nat) : Except ParamFault Unit :=
  if n = 0 then .error (.zeroPeriod name) else .ok ()

def fastBelowSlow (fast slow : Nat) : Except ParamFault Unit := do
  positive "fast period" fast
  positive "slow period" slow
  if slow ≤ fast then .error (.fastNotShorter fast slow)

/-- Finds the first fault of the parameters. -/
def check [Scalar α] : Params α → Except ParamFault Unit
  | rsi period | williamsR period | obv period => positive "period" period
  | stochastic kPeriod dPeriod => do
    positive "%K period" kPeriod
    positive "%D period" dPeriod
  | macd fast slow signal => do
    fastBelowSlow fast slow
    positive "signal period" signal
  | smaCross fast slow | emaCross fast slow => fastBelowSlow fast slow
  | bollinger period width => do
    positive "period" period
    if !Scalar.isFinite width || decide (width ≤ 0) then .error .width

theorem minHistory_le_stableLookback (p : Params α) : p.minHistory ≤ p.stableLookback := by
  cases p <;> simp only [minHistory, stableLookback] <;> omega

theorem positive_eq_ok_iff {name : String} {n : Nat} : positive name n = .ok () ↔ 0 < n := by
  unfold positive
  split <;> simp <;> omega

end Params

/-- One indicator to evaluate. The identity names the evaluation in profiles and accounts. -/
structure Spec (α : Type) where
  id : String
  kind : Kind
  params : Params α
  deriving DecidableEq

def Spec.indicator {α : Type} (s : Spec α) : Indicator := s.params.indicator

/-- Problems with a single indicator. -/
inductive IndicatorError where
  | unknown (name : String)
  | notNumber (text : String)
  | wrongCount (indicator : Indicator) (expected : String) (found : Nat)
  | invalid (indicator : Indicator) (fault : ParamFault)
  | computation (indicator reason : String)
  deriving DecidableEq

end MarketVerdict
