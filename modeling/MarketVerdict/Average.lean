import MarketVerdict.Scalar

/-!
# Averages over the latest values

A list of values runs from the oldest to the latest. `mean`, `deviation`, `highest` and `lowest`
look at the last `period` values; `means` and `exponentialMeans` have one element for every
complete window, the first of them at the value with index `period - 1`. All are undefined, or
empty, when the list is shorter than the period or the period is zero.
-/

namespace MarketVerdict.Average

open Scalar

variable {α : Type}

/-- The last `period` values, when there are that many and at least one is asked for. -/
def window? (values : List α) (period : Nat) : Option (List α) :=
  if period = 0 ∨ values.length < period then none
  else some (values.drop (values.length - period))

variable [Scalar α]

def mean (values : List α) (period : Nat) : Option α :=
  (window? values period).map fun w => sum w / period

/-- Each step adds what enters the window less what leaves it. -/
def rolling (period : Nat) (total : α) : List α → List α
  | [] => []
  | change :: rest => (total + change) / period :: rolling period (total + change) rest

def means (values : List α) (period : Nat) : List α :=
  if period = 0 ∨ values.length < period then []
  else
    let first := sum (values.take period)
    first / period ::
      rolling period first ((values.drop period).zipWith (· - ·) values)

def exponentialStep (value previous : α) (period : Nat) : α :=
  let k := 2 / ((period : α) + 1)
  value * k + previous * (1 - k)

def smoothed (period : Nat) (previous : α) : List α → List α
  | [] => []
  | value :: rest =>
    exponentialStep value previous period :: smoothed period (exponentialStep value previous period) rest

/-- The average of the first window, then one smoothing step for each later value. -/
def exponentialMeans (values : List α) (period : Nat) : List α :=
  if period = 0 ∨ values.length < period then []
  else
    let first := sum (values.take period) / period
    first :: smoothed period first (values.drop period)

/-- The population standard deviation. -/
def deviation (values : List α) (period : Nat) : Option α := do
  let m ← mean values period
  let w ← window? values period
  return sqrt (sum (w.map fun v => (v - m) * (v - m)) / period)

def highest (values : List α) (period : Nat) : Option α :=
  (window? values period).bind (largest? none)

def lowest (values : List α) (period : Nat) : Option α :=
  (window? values period).bind (smallest? none)

theorem length_rolling (period : Nat) (total : α) (changes : List α) :
    (rolling period total changes).length = changes.length := by
  induction changes generalizing total with
  | nil => rfl
  | cons c cs ih => simp [rolling, ih]

theorem length_means {values : List α} {period : Nat} (hp : 0 < period)
    (hl : period ≤ values.length) :
    (means values period).length = values.length - period + 1 := by
  have hp' : period ≠ 0 := by omega
  have hl' : ¬ values.length < period := by omega
  simp only [means, hp', hl', or_self, if_false, List.length_cons, length_rolling,
    List.length_zipWith, List.length_drop]
  omega

theorem length_smoothed (period : Nat) (previous : α) (values : List α) :
    (smoothed period previous values).length = values.length := by
  induction values generalizing previous with
  | nil => rfl
  | cons v vs ih => simp [smoothed, ih]

theorem length_exponentialMeans {values : List α} {period : Nat} (hp : 0 < period)
    (hl : period ≤ values.length) :
    (exponentialMeans values period).length = values.length - period + 1 := by
  have hp' : period ≠ 0 := by omega
  have hl' : ¬ values.length < period := by omega
  simp [exponentialMeans, hp', hl', length_smoothed]

end MarketVerdict.Average
