import MarketVerdict.Decimal.Layout
import MarketVerdict.Indicator.Basic
import MarketVerdict.Text.Number

/-!
# Selections

A selection is a text that names an indicator and, behind a colon, its parameters with commas between
them: `rsi`, `rsi:21`, `bollinger:20,2.5`. An indicator without parameters has the conventional ones.
`Params.selection` writes the text that selects given parameters, and `Spec.parse` reads one.
-/

namespace MarketVerdict

open Decimal Text

/-- The largest number that a period can be. -/
def periodBound : Nat := 4294967295

def ParamFault.message : ParamFault → String
  | zeroPeriod name => name ++ " must be positive"
  | fastNotShorter fast slow =>
    "fast period " ++ natText fast ++ " must be shorter than slow period " ++ natText slow
  | width => "standard deviation multiplier must be positive"

def IndicatorError.message : IndicatorError → String
  | unknown name => "unknown indicator '" ++ name ++ "'"
  | notNumber text => "invalid numeric format: " ++ text
  | wrongCount indicator expected found =>
    indicator.name ++ " expects " ++ expected ++ " parameter(s), got " ++ natText found
  | invalid indicator fault => "invalid " ++ indicator.name ++ " parameter: " ++ fault.message
  | computation indicator reason => indicator ++ " computation failed: " ++ reason

namespace Params

/-- The parameters as texts, in the order in which a selection gives them. -/
def arguments : Params Float → List String
  | rsi period | williamsR period | obv period => [natText period]
  | stochastic kPeriod dPeriod => [natText kPeriod, natText dPeriod]
  | macd fast slow signal => [natText fast, natText slow, natText signal]
  | smaCross fast slow | emaCross fast slow => [natText fast, natText slow]
  | bollinger period width => [natText period, plain width]

/-- The identity of an evaluation with these parameters. -/
def id (p : Params Float) : String := "_".intercalate (p.indicator.name :: p.arguments)

/-- The selection of these parameters. -/
def selection (p : Params Float) : String := p.indicator.name ++ ":" ++ ",".intercalate p.arguments

/-- The parameters of an indicator that is selected by its name alone. -/
def default : Indicator → Params Float
  | .rsi => .rsi 14
  | .stochastic => .stochastic 14 3
  | .williamsR => .williamsR 14
  | .macd => .macd 12 26 9
  | .smaCross => .smaCross 50 200
  | .emaCross => .emaCross 20 50
  | .bollinger => .bollinger 20 2
  | .obv => .obv 20

end Params

/-- The indicator of a name, with blanks around it and letters of either case. -/
def Indicator.parse (s : String) : Except IndicatorError Indicator :=
  let name := lowerLetters (trim s)
  match name with
  | "stoch" => .ok .stochastic
  | "willr" => .ok .williamsR
  | "williamsr" => .ok .williamsR
  | "ma_cross" => .ok .smaCross
  | "bbands" => .ok .bollinger
  | "bb" => .ok .bollinger
  | name =>
    match Indicator.ofName? name with
    | some indicator => .ok indicator
    | none => .error (.unknown name)

def parsePeriod (s : String) : Except IndicatorError Nat :=
  match readNat? periodBound (trim s) with
  | some n => .ok n
  | none => .error (.notNumber s)

def parseFactor (s : String) : Except IndicatorError Float :=
  match readFloat? (trim s) with
  | some x => .ok x
  | none => .error (.notNumber s)

namespace Params

/-- Reads the arguments of an indicator. -/
def parse (indicator : Indicator) (args : List String) : Except IndicatorError (Params Float) :=
  match indicator, args with
  | indicator, [] => .ok (default indicator)
  | .rsi, [p] => do return .rsi (← parsePeriod p)
  | .williamsR, [p] => do return .williamsR (← parsePeriod p)
  | .obv, [p] => do return .obv (← parsePeriod p)
  | .stochastic, [k] => do return .stochastic (← parsePeriod k) 3
  | .stochastic, [k, d] => do return .stochastic (← parsePeriod k) (← parsePeriod d)
  | .macd, [f, s, g] => do return .macd (← parsePeriod f) (← parsePeriod s) (← parsePeriod g)
  | .smaCross, [f, s] => do return .smaCross (← parsePeriod f) (← parsePeriod s)
  | .emaCross, [f, s] => do return .emaCross (← parsePeriod f) (← parsePeriod s)
  | .bollinger, [p] => do return .bollinger (← parsePeriod p) 2
  | .bollinger, [p, w] => do return .bollinger (← parsePeriod p) (← parseFactor w)
  | .rsi, args => .error (.wrongCount .rsi "1" args.length)
  | .williamsR, args => .error (.wrongCount .williamsR "1" args.length)
  | .obv, args => .error (.wrongCount .obv "1" args.length)
  | .stochastic, args => .error (.wrongCount .stochastic "1 or 2" args.length)
  | .macd, args => .error (.wrongCount .macd "3" args.length)
  | .smaCross, args => .error (.wrongCount .smaCross "2" args.length)
  | .emaCross, args => .error (.wrongCount .emaCross "2" args.length)
  | .bollinger, args => .error (.wrongCount .bollinger "1 or 2" args.length)

end Params

/-- The pieces of a list between the elements that satisfy `p`. -/
def splitAt {β : Type} (p : β → Bool) : List β → List (List β)
  | [] => [[]]
  | c :: rest =>
    match splitAt p rest with
    | [] => [[c]]
    | piece :: pieces => if p c then [] :: piece :: pieces else (c :: piece) :: pieces

/-- The name and the arguments of a selection. -/
def splitSelection (s : String) : String × List String :=
  let name := s.toList.takeWhile (· ≠ ':')
  match s.toList.dropWhile (· ≠ ':') with
  | [] => (s, [])
  | _ :: rest => (String.ofList name, (splitAt (· = ',') rest).map String.ofList)

namespace Spec

def ofParamsAs (params : Params Float) (kind : Kind) : Except IndicatorError (Spec Float) :=
  match params.check with
  | .error fault => .error (.invalid params.indicator fault)
  | .ok () => .ok ⟨params.id, kind, params⟩

/-- The specification with these parameters and the indicator's own kind. -/
def ofParams (params : Params Float) : Except IndicatorError (Spec Float) :=
  ofParamsAs params params.indicator.defaultKind

def parse (selection : String) : Except IndicatorError (Spec Float) := do
  let (name, args) := splitSelection selection
  let indicator ← Indicator.parse name
  let params ← Params.parse indicator args
  ofParams params

variable {params : Params Float} {kind : Kind} {spec : Spec Float}

theorem ofParamsAs_eq_ok_iff :
    ofParamsAs params kind = .ok spec ↔ params.check = .ok () ∧ spec = ⟨params.id, kind, params⟩ := by
  rw [ofParamsAs]
  split
  · next hcheck => simp [hcheck]
  · next hcheck =>
    rw [Except.ok.injEq, eq_comm, hcheck]
    exact (and_iff_right rfl).symm

theorem eq_of_ofParamsAs (h : ofParamsAs params kind = .ok spec) :
    spec = ⟨params.id, kind, params⟩ :=
  (ofParamsAs_eq_ok_iff.mp h).2

end Spec

end MarketVerdict
