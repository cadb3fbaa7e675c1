import MarketVerdict.Decimal.Layout
import MarketVerdict.Fusion

/-!
# Verdicts in words

One line for each entry of the attribution, in its order.
-/

namespace MarketVerdict

open Decimal

def Attribution.explain (a : Attribution Float) : String :=
  let subject := a.signal.indicator ++ " (" ++ a.signal.kind.name ++ ") "
  match a.status with
  | .included =>
    subject ++ a.signal.direction.name ++ " magnitude " ++ fixed 2 false a.signal.magnitude ++
      ", weight " ++ fixed 3 false a.effectiveWeight ++
      ", contribution " ++ fixed 3 true a.contribution
  | .excluded reason => subject ++ "excluded: " ++ reason.name

def Verdict.explain (v : Verdict Float) : List String := v.attribution.map Attribution.explain

end MarketVerdict
