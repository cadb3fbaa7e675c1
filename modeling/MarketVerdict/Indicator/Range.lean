import MarketVerdict.Average
import MarketVerdict.Series

/-!
# Oscillators of the price range

Both place the last close inside the range of the latest bars. The stochastic runs from zero to one
hundred, and its `d` line averages the latest values of `k`; the other oscillator runs from minus
one hundred to zero. A range without extent gives the middle.
-/

namespace MarketVerdict

open Scalar

variable {α : Type}

/-- All runs of `n` neighbours, from the oldest. -/
def windows {β : Type} (n : Nat) : List β → List (List β)
  | [] => []
  | b :: rest =>
    let w := (b :: rest).take n
    if w.length < n then [] else w :: windows n rest

structure Stochastic (α : Type) where
  k : α
  d : α

variable [Scalar α]

/-- The place of the last close between the lowest low and the highest high. -/
def percentK (window : List (Bar α)) : Option α := do
  let last ← window.getLast?
  let highest ← largest? least? (window.map Bar.high)
  let lowest ← smallest? greatest? (window.map Bar.low)
  let range := highest - lowest
  return if range == 0 then 50 else 100 * (last.close - lowest) / range

def stochastic (bars : List (Bar α)) (kPeriod dPeriod : Nat) : Option (Stochastic α) :=
  if kPeriod = 0 ∨ dPeriod = 0 ∨ bars.length < kPeriod + dPeriod - 1 then none
  else do
    let ks ← (windows kPeriod bars).mapM percentK
    let k ← ks.getLast?
    let d ← Average.mean ks dPeriod
    return ⟨k, d⟩

def williamsR (bars : List (Bar α)) (period : Nat) : Option α := do
  let highest ← Average.highest (bars.map Bar.high) period
  let lowest ← Average.lowest (bars.map Bar.low) period
  let last ← bars.getLast?
  let range := highest - lowest
  return if range == 0 then -50 else -100 * (highest - last.close) / range

end MarketVerdict
