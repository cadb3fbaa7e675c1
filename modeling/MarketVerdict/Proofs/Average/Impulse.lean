import Mathlib
import MarketVerdict.Indicator.Rsi
import MarketVerdict.Proofs.Indicator.Envelope

/-!
# Averages of a single move

Values that were zero all along and moved once, at the end. Every average that has seen the move is
a part of it, which the period alone decides, and the averages before it are zero: the averages of a
single move are again a single move.
-/

namespace MarketVerdict

open Scalar

/-- Nothing for `n` values, then `x`. -/
noncomputable def impulse (n : ℕ) (x : ℝ) : List ℝ := List.replicate n 0 ++ [x]

section Impulse

variable {n k : ℕ} {x : ℝ}

@[simp] theorem length_impulse (n : ℕ) (x : ℝ) : (impulse n x).length = n + 1 := by simp [impulse]

@[simp] theorem getLast?_impulse (n : ℕ) (x : ℝ) : (impulse n x).getLast? = some x := by
  simp [impulse]

theorem impulse_succ (n : ℕ) (x : ℝ) : impulse (n + 1) x = 0 :: impulse n x := by
  rw [impulse, List.replicate_succ, List.cons_append, impulse]

theorem drop_impulse (h : k ≤ n) (x : ℝ) : (impulse n x).drop k = impulse (n - k) x := by
  rw [impulse, List.drop_append_of_le_length (by simpa using h), List.drop_replicate, impulse]

theorem take_impulse (h : k ≤ n) (x : ℝ) : (impulse n x).take k = List.replicate k 0 := by
  rw [impulse, List.take_append_of_le_length (by simpa using h), List.take_replicate,
    Nat.min_eq_left h]

theorem sum_impulse (n : ℕ) (x : ℝ) : (impulse n x).sum = x := by simp [impulse]

theorem map_impulse {f : ℝ → ℝ} (h : f 0 = 0) (n : ℕ) (x : ℝ) :
    (impulse n x).map f = impulse n (f x) := by
  simp [impulse, h]

theorem zipWith_sub_impulse (n : ℕ) (x y : ℝ) :
    (impulse n x).zipWith (· - ·) (impulse n y) = impulse n (x - y) := by
  induction n with
  | zero => rfl
  | succ n ih => rw [impulse_succ, impulse_succ, List.zipWith_cons_cons, ih, sub_zero, impulse_succ]

/-- The move meets one of the zeros before it. -/
theorem zipWith_sub_impulse_of_lt (h : k < n) (x y : ℝ) :
    (impulse k x).zipWith (· - ·) (impulse n y) = impulse k x := by
  obtain ⟨m, rfl⟩ : ∃ m, n = m + 1 := ⟨n - 1, by omega⟩
  induction k generalizing m with
  | zero => rw [impulse_succ, impulse, List.replicate_zero, List.nil_append, List.zipWith_cons_cons,
      List.zipWith_nil_left, sub_zero]
  | succ k ih =>
    obtain ⟨l, rfl⟩ : ∃ l, m = l + 1 := ⟨m - 1, by omega⟩
    rw [impulse_succ, impulse_succ (l + 1), List.zipWith_cons_cons, ih l (by omega), sub_zero]

theorem sum_replicate_zero (k : ℕ) : Scalar.sum (List.replicate k (0 : ℝ)) = 0 := by
  rw [sum_real, List.sum_replicate, smul_zero]

end Impulse

namespace Average

variable {n period : ℕ}

theorem mean_impulse (hp : 0 < period) (h : period ≤ n + 1) (x : ℝ) :
    mean (impulse n x) period = some (x / period) := by
  rw [mean, window?, length_impulse, if_neg (by omega), drop_impulse (by omega), Option.map_some,
    sum_real, sum_impulse]

theorem rolling_impulse (period n : ℕ) (x : ℝ) :
    rolling period 0 (impulse n x) = impulse n (x / period) := by
  induction n with
  | zero => simp [impulse, rolling]
  | succ n ih => rw [impulse_succ, rolling, zero_add, zero_div, ih, impulse_succ]

theorem means_impulse (hp : 0 < period) (h : period ≤ n) (x : ℝ) :
    means (impulse n x) period = impulse (n - period + 1) (x / period) := by
  rw [means, length_impulse, if_neg (by omega), take_impulse h, drop_impulse h,
    zipWith_sub_impulse_of_lt (by omega), sum_replicate_zero]
  dsimp only
  rw [rolling_impulse, zero_div, impulse_succ]

/-- The part of a move that the first smoothing step takes in. -/
noncomputable def response (period : ℕ) : ℝ := 2 / ((period : ℝ) + 1)

theorem smoothed_impulse (period n : ℕ) (x : ℝ) :
    smoothed period 0 (impulse n x) = impulse n (x * response period) := by
  induction n with
  | zero => simp [impulse, smoothed, exponentialStep, response]
  | succ n ih =>
    have hstep : exponentialStep (0 : ℝ) 0 period = 0 := by simp [exponentialStep]
    rw [impulse_succ, smoothed, hstep, ih, impulse_succ]

theorem exponentialMeans_impulse (hp : 0 < period) (h : period ≤ n) (x : ℝ) :
    exponentialMeans (impulse n x) period = impulse (n - period + 1) (x * response period) := by
  rw [exponentialMeans, length_impulse, if_neg (by omega), take_impulse h, drop_impulse h,
    sum_replicate_zero]
  dsimp only
  rw [zero_div, smoothed_impulse, impulse_succ]

/-- A smoothing over one value keeps nothing of what was before it. -/
theorem exponentialMeans_one (values : List ℝ) : exponentialMeans values 1 = values := by
  have hstep (value previous : ℝ) : exponentialStep value previous 1 = value := by
    norm_num [exponentialStep]
  have hsmoothed (previous : ℝ) (rest : List ℝ) : smoothed 1 previous rest = rest := by
    induction rest generalizing previous with
    | nil => rfl
    | cons value rest ih => rw [smoothed, ih, hstep]
  cases values with
  | nil => rfl
  | cons value rest =>
    have hlength : ¬ (1 = 0 ∨ (value :: rest).length < 1) := by simp
    rw [exponentialMeans, if_neg hlength]
    simp [hsmoothed, sum_real]

theorem dispersion_impulse (n : ℕ) (x m : ℝ) :
    dispersion (impulse n x) m = n * (m * m) + (x - m) * (x - m) := by
  simp [dispersion, impulse]

end Average

theorem Rsi.changes_impulse (n : ℕ) (x : ℝ) : changes (impulse (n + 1) x) = impulse n x := by
  rw [changes, drop_impulse (Nat.le_add_left 1 n), zipWith_sub_impulse_of_lt (by omega)]
  rfl

theorem Rsi.smoothed_impulse {period n : ℕ} (h : period ≤ n) (x : ℝ) :
    smoothed period (impulse n x) = x / period := by
  have hquiet (k : ℕ) : (List.replicate k (0 : ℝ)).foldl (smoothStep period) 0 = 0 := by
    induction k with
    | zero => rfl
    | succ k ih =>
      have hstep : smoothStep period (0 : ℝ) 0 = 0 := by simp [smoothStep]
      rw [List.replicate_succ, List.foldl_cons, hstep, ih]
  rw [smoothed, take_impulse h, drop_impulse h, sum_replicate_zero, zero_div, impulse,
    List.foldl_append, hquiet]
  simp [smoothStep]

end MarketVerdict
