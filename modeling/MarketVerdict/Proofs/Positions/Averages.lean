import Mathlib.Data.List.Basic
import MarketVerdict.Average

/-!
# Averages by position

The averages take windows and prefixes of a list. Here each is written as a walk over positions: it
asks for every element, for every slice and for every difference of two positions, and one that is
out of range ends the walk with an overrun. The walks come to the averages themselves, so none of them
overruns, whatever the values and the period.
-/

namespace MarketVerdict.Positions

open Scalar

variable {β γ : Type}

/-- What was out of range. -/
inductive Overrun where
  | element (position length : ℕ)
  | slice (first last length : ℕ)
  | difference (a b : ℕ)
  deriving DecidableEq

/-- A walk ends with a value or without one, unless it overruns. -/
abbrev Walk (β : Type) := OptionT (Except Overrun) β

namespace Walk

def of (o : Option β) : Walk β := OptionT.mk (.ok o)

def overrun (o : Overrun) : Walk β := OptionT.mk (.error o)

theorem of_bind {o : Option β} {f : β → Walk γ} {g : β → Option γ}
    (h : ∀ b, o = some b → f b = of (g b)) : (of o >>= f) = of (o.bind g) := by
  cases o with
  | none => rfl
  | some b => exact h b rfl

end Walk

def element (xs : List β) (i : ℕ) : Walk β :=
  match xs[i]? with
  | some x => pure x
  | none => Walk.overrun (.element i xs.length)

/-- The elements from position `first` to just before position `last`. -/
def slice (xs : List β) (first last : ℕ) : Walk (List β) :=
  if first ≤ last ∧ last ≤ xs.length then pure ((xs.take last).drop first)
  else Walk.overrun (.slice first last xs.length)

def minus (a b : ℕ) : Walk ℕ :=
  if b ≤ a then pure (a - b) else Walk.overrun (.difference a b)

theorem element_eq {xs : List β} {i : ℕ} (h : i < xs.length) : element xs i = pure xs[i] := by
  rw [element, List.getElem?_eq_getElem h]

theorem slice_eq {xs : List β} {first last : ℕ} (h : first ≤ last) (h' : last ≤ xs.length) :
    slice xs first last = pure ((xs.take last).drop first) := if_pos ⟨h, h'⟩

theorem minus_eq {a b : ℕ} (h : b ≤ a) : minus a b = pure (a - b) := if_pos h

def first (xs : List β) (n : ℕ) : Walk (List β) := slice xs 0 n

def after (xs : List β) (n : ℕ) : Walk (List β) := slice xs n xs.length

def latest (xs : List β) (n : ℕ) : Walk (List β) := do after xs (← minus xs.length n)

theorem first_eq {xs : List β} {n : ℕ} (h : n ≤ xs.length) : first xs n = pure (xs.take n) :=
  slice_eq (Nat.zero_le n) h

theorem after_eq {xs : List β} {n : ℕ} (h : n ≤ xs.length) : after xs n = pure (xs.drop n) := by
  rw [after, slice_eq h (Nat.le_refl _), List.take_length]

theorem latest_eq {xs : List β} {n : ℕ} (h : n ≤ xs.length) :
    latest xs n = pure (xs.drop (xs.length - n)) := by
  rw [latest, minus_eq h, pure_bind, after_eq (Nat.sub_le _ _)]

def window (values : List β) (period : ℕ) : Walk (List β) :=
  if period = 0 ∨ values.length < period then Walk.of none else latest values period

theorem window_eq (values : List β) (period : ℕ) :
    window values period = Walk.of (Average.window? values period) := by
  unfold window Average.window?
  split
  · rfl
  · next h =>
    rw [not_or, Nat.not_lt] at h
    exact latest_eq h.2

variable {α : Type} [Scalar α]

def mean (values : List α) (period : ℕ) : Walk α := do
  return sum (← window values period) / period

def deviation (values : List α) (period : ℕ) : Walk α := do
  let m ← mean values period
  let w ← latest values period
  return sqrt (sum (w.map fun v => (v - m) * (v - m)) / period)

def highest (values : List α) (period : ℕ) : Walk α := do
  Walk.of (largest? none (← window values period))

def lowest (values : List α) (period : ℕ) : Walk α := do
  Walk.of (smallest? none (← window values period))

theorem mean_eq (values : List α) (period : ℕ) :
    mean values period = Walk.of (Average.mean values period) := by
  rw [mean, window_eq, Average.mean, Option.map_eq_bind]
  exact Walk.of_bind fun _ _ => rfl

theorem highest_eq (values : List α) (period : ℕ) :
    highest values period = Walk.of (Average.highest values period) := by
  rw [highest, window_eq, Average.highest]
  exact Walk.of_bind fun _ _ => rfl

theorem lowest_eq (values : List α) (period : ℕ) :
    lowest values period = Walk.of (Average.lowest values period) := by
  rw [lowest, window_eq, Average.lowest]
  exact Walk.of_bind fun _ _ => rfl

theorem deviation_eq (values : List α) (period : ℕ) :
    deviation values period = Walk.of (Average.deviation values period) := by
  rw [deviation, mean_eq, Average.deviation]
  refine Walk.of_bind fun m hm => ?_
  -- The window is taken a second time without a test; that there is a mean says that it fits.
  obtain ⟨w, hw, _⟩ := Option.map_eq_some_iff.mp hm
  have hlatest : latest values period = Walk.of (some w) := by
    rw [← hw, ← window_eq, window, if_neg]
    intro h
    rw [Average.window?, if_pos h] at hw
    cases hw
  rw [hlatest, hw]
  rfl

/-- One value for each of the positions: what stands there enters the total, and what stands
`period` positions before leaves it. -/
def rolling (values : List α) (period : ℕ) (total : α) : List ℕ → Walk (List α)
  | [] => pure []
  | i :: rest => do
    let entering ← element values i
    let leaving ← element values (← minus i period)
    let total := total + (entering - leaving)
    return total / period :: (← rolling values period total rest)

def means (values : List α) (period : ℕ) : Walk (List α) :=
  if period = 0 ∨ values.length < period then pure []
  else do
    let later ← minus values.length period
    let total := sum (← first values period)
    return total / period :: (← rolling values period total (List.range' period later))

def exponentialMeans (values : List α) (period : ℕ) : Walk (List α) :=
  if period = 0 ∨ values.length < period then pure []
  else do
    let _ ← minus values.length period
    let seed := sum (← first values period) / period
    return seed :: Average.smoothed period seed (← after values period)

theorem rolling_eq (values : List α) (period : ℕ) (total : α) {i n : ℕ} (hi : period ≤ i)
    (hn : i + n = values.length) :
    rolling values period total (List.range' i n) =
      pure (Average.rolling period total
        ((values.drop i).zipWith (· - ·) (values.drop (i - period)))) := by
  induction n generalizing i total with
  | zero => rw [List.range'_zero, List.drop_eq_nil_of_le (by omega : values.length ≤ i)]; rfl
  | succ n ih =>
    have hentering : i < values.length := by omega
    have hleaving : i - period < values.length := by omega
    have hnext : i + 1 - period = i - period + 1 := by omega
    rw [List.range'_succ, rolling, element_eq hentering, pure_bind, minus_eq hi, pure_bind,
      element_eq hleaving, pure_bind]
    dsimp only
    rw [ih _ (by omega) (by omega), pure_bind, hnext, List.drop_eq_getElem_cons hentering,
      List.drop_eq_getElem_cons hleaving]
    rfl

theorem means_eq (values : List α) (period : ℕ) :
    means values period = pure (Average.means values period) := by
  unfold means Average.means
  split
  · rfl
  · next h =>
    rw [not_or, Nat.not_lt] at h
    rw [minus_eq h.2, pure_bind, first_eq h.2, pure_bind]
    dsimp only
    rw [rolling_eq values period _ (Nat.le_refl _) (by omega), pure_bind, Nat.sub_self,
      List.drop_zero]

theorem exponentialMeans_eq (values : List α) (period : ℕ) :
    exponentialMeans values period = pure (Average.exponentialMeans values period) := by
  unfold exponentialMeans Average.exponentialMeans
  split
  · rfl
  · next h =>
    rw [not_or, Nat.not_lt] at h
    rw [minus_eq h.2, pure_bind, first_eq h.2, pure_bind, after_eq h.2, pure_bind]

end MarketVerdict.Positions
