import MarketVerdict.Selection

/-!
# Why a fusion fails

A failure names its cause. `FusionError.label` is the short name under which failures are counted,
`FusionError.message` the sentence for the caller.
-/

namespace MarketVerdict

open Decimal

/-- The first thing wrong with a set of weights; `stated` is a reason given in words. -/
inductive WeightFault (α : Type) where
  | notFinite (key : String)
  | negative (key : String) (weight : α)
  | totalNotFinite
  | allZero
  | effectiveTotalNotFinite
  | stated (reason : String)
  deriving DecidableEq

inductive SignalFault (α : Type) where
  | magnitude (value : α)
  | reliability (value : α)
  | stated (reason : String)
  deriving DecidableEq

inductive ThresholdFault (α : Type) where
  | outOfRange
  | sellSide (strongSell sell : α)
  | buySide (buy strongBuy : α)
  | stated (reason : String)
  deriving DecidableEq

inductive BacktestFault (α : Type) where
  | capital (amount : α)
  | stated (reason : String)
  deriving DecidableEq

inductive FusionError (α : Type) where
  | invalidSpec (indicator reason : String)
  | invalidSignal (indicator : String) (fault : SignalFault α)
  | invalidProfile (profile : String) (fault : WeightFault α)
  | unknownProfile (name : String)
  | specMismatch (expected found : String)
  | unsupportedReading (indicator : String) (kind : Kind)
  | invalidThresholds (fault : ThresholdFault α)
  | instrumentNotFound (instrument : String)
  | marketData (reason : String)
  | timeout (milliseconds : Nat)
  | invalidBacktest (fault : BacktestFault α)
  | internal (reason : String)
  deriving DecidableEq

def WeightFault.message : WeightFault Float → String
  | notFinite key => "weight for '" ++ key ++ "' is not finite"
  | negative key weight => "weight for '" ++ key ++ "' is negative (" ++ plain weight ++ ")"
  | totalNotFinite => "total weight is not finite"
  | allZero => "all weights are zero"
  | effectiveTotalNotFinite => "effective weight total is not finite"
  | stated reason => reason

def SignalFault.message : SignalFault Float → String
  | magnitude value => "magnitude " ++ plain value ++ " is outside [0, 1]"
  | reliability value => "reliability " ++ plain value ++ " is outside [0, 1]"
  | stated reason => reason

def ThresholdFault.message : ThresholdFault Float → String
  | outOfRange => "thresholds must be finite and within [-1, 1]"
  | sellSide strongSell sell =>
    "expected strong_sell <= sell < 0, got " ++ plain strongSell ++ " / " ++ plain sell
  | buySide buy strongBuy =>
    "expected 0 < buy <= strong_buy, got " ++ plain buy ++ " / " ++ plain strongBuy
  | stated reason => reason

def BacktestFault.message : BacktestFault Float → String
  | capital amount => "initial capital must be finite and positive, got " ++ plain amount
  | stated reason => reason

namespace FusionError

def label {α : Type} : FusionError α → String
  | invalidSpec .. => "invalid_spec"
  | invalidSignal .. => "invalid_signal"
  | invalidProfile .. => "invalid_profile"
  | unknownProfile .. => "unknown_profile"
  | specMismatch .. => "spec_mismatch"
  | unsupportedReading .. => "unsupported_reading"
  | invalidThresholds .. => "invalid_thresholds"
  | instrumentNotFound .. => "instrument_not_found"
  | marketData .. => "market_data"
  | timeout .. => "timeout"
  | invalidBacktest .. => "invalid_backtest"
  | internal .. => "internal"

def message : FusionError Float → String
  | invalidSpec indicator reason => "invalid indicator spec '" ++ indicator ++ "': " ++ reason
  | invalidSignal indicator fault => "invalid signal from '" ++ indicator ++ "': " ++ fault.message
  | invalidProfile profile fault =>
    "invalid weighting profile '" ++ profile ++ "': " ++ fault.message
  | unknownProfile name => "unknown weighting profile '" ++ name ++ "'"
  | specMismatch expected found =>
    "reading computed for '" ++ found ++ "' was normalized against spec '" ++ expected ++ "'"
  | unsupportedReading indicator kind =>
    "no " ++ kind.name ++ " normalization accepts the reading produced by '" ++ indicator ++ "'"
  | invalidThresholds fault => "invalid recommendation thresholds: " ++ fault.message
  | instrumentNotFound instrument => "instrument '" ++ instrument ++ "' not found"
  | marketData reason => "market data error: " ++ reason
  | timeout milliseconds =>
    "indicator computation timed out after " ++ natText milliseconds ++ " ms"
  | invalidBacktest fault => "invalid backtest: " ++ fault.message
  | internal reason => "internal error: " ++ reason

end FusionError

/-- The failure of a request that selects an indicator which cannot be evaluated. -/
def IndicatorError.toSpecError {α : Type} (e : IndicatorError) (selection : String) :
    FusionError α :=
  .invalidSpec selection e.message

end MarketVerdict
