import Mathlib
import MarketVerdict.Average
import MarketVerdict.Proofs.Arithmetic.Real

/-!
# Averages in other units

Quoting values in another unit, or from another origin, sends each of them to `a * x + b`. Averages
of every sort move along with the values, and a deviation, which measures distances only, is
multiplied by the size of `a`. Extremes move along under every map that keeps the order.
-/

namespace MarketVerdict

namespace Scalar

theorem sum_map_affine (a b : ℝ) (xs : List ℝ) :
    sum (xs.map fun x => a * x + b) = a * sum xs + xs.length * b := by
  rw [sum_real, sum_real, List.sum_map_add, List.sum_map_mul_left, List.map_id', List.map_const',
    List.sum_replicate, nsmul_eq_mul]

theorem largest?_map {f : ℝ → ℝ} (hf : Monotone f) (xs : List ℝ) :
    largest? none (xs.map f) = (largest? none xs).map f := by
  cases xs with
  | nil => rfl
  | cons x xs =>
    rw [List.map_cons, largest?, List.foldl_map]
    refine congrArg some (List.foldl_hom f fun m y => ?_)
    rw [larger_real, larger_real, hf.map_max]

theorem smallest?_map {f : ℝ → ℝ} (hf : Monotone f) (xs : List ℝ) :
    smallest? none (xs.map f) = (smallest? none xs).map f := by
  cases xs with
  | nil => rfl
  | cons x xs =>
    rw [List.map_cons, smallest?, List.foldl_map]
    refine congrArg some (List.foldl_hom f fun m y => ?_)
    rw [smaller_real, smaller_real, hf.map_min]

/-- A map that turns the order around makes the smallest the largest. -/
theorem largest?_map_antitone {f : ℝ → ℝ} (hf : Antitone f) (xs : List ℝ) :
    largest? none (xs.map f) = (smallest? none xs).map f := by
  cases xs with
  | nil => rfl
  | cons x xs =>
    rw [List.map_cons, largest?, List.foldl_map]
    refine congrArg some (List.foldl_hom f fun m y => ?_)
    rw [larger_real, smaller_real, hf.map_min]

theorem smallest?_map_antitone {f : ℝ → ℝ} (hf : Antitone f) (xs : List ℝ) :
    smallest? none (xs.map f) = (largest? none xs).map f := by
  cases xs with
  | nil => rfl
  | cons x xs =>
    rw [List.map_cons, smallest?, List.foldl_map]
    refine congrArg some (List.foldl_hom f fun m y => ?_)
    rw [smaller_real, larger_real, hf.map_max]

end Scalar

namespace Average

open Scalar

theorem window?_map {β γ : Type} (f : β → γ) (values : List β) (period : ℕ) :
    window? (values.map f) period = (window? values period).map (List.map f) := by
  unfold window?
  rw [List.length_map]
  split
  · rfl
  · rw [Option.map_some, List.map_drop]

theorem length_of_window? {β : Type} {values w : List β} {period : ℕ}
    (h : window? values period = some w) : 0 < period ∧ w.length = period := by
  unfold window? at h
  split at h
  · cases h
  · cases h
    rw [List.length_drop]
    omega

theorem highest_map {f : ℝ → ℝ} (hf : Monotone f) (values : List ℝ) (period : ℕ) :
    highest (values.map f) period = (highest values period).map f := by
  rw [highest, highest, window?_map, Option.bind_map, Option.map_bind]
  exact congrArg _ (funext fun w => largest?_map hf w)

theorem lowest_map {f : ℝ → ℝ} (hf : Monotone f) (values : List ℝ) (period : ℕ) :
    lowest (values.map f) period = (lowest values period).map f := by
  rw [lowest, lowest, window?_map, Option.bind_map, Option.map_bind]
  exact congrArg _ (funext fun w => smallest?_map hf w)

theorem highest_map_antitone {f : ℝ → ℝ} (hf : Antitone f) (values : List ℝ) (period : ℕ) :
    highest (values.map f) period = (lowest values period).map f := by
  rw [highest, lowest, window?_map, Option.bind_map, Option.map_bind]
  exact congrArg _ (funext fun w => largest?_map_antitone hf w)

theorem lowest_map_antitone {f : ℝ → ℝ} (hf : Antitone f) (values : List ℝ) (period : ℕ) :
    lowest (values.map f) period = (highest values period).map f := by
  rw [lowest, highest, window?_map, Option.bind_map, Option.map_bind]
  exact congrArg _ (funext fun w => smallest?_map_antitone hf w)

variable (a b : ℝ)

theorem div_affine {period : ℕ} (hp : 0 < period) (total : ℝ) :
    (a * total + period * b) / period = a * (total / period) + b := by
  have hp : (period : ℝ) ≠ 0 := Nat.cast_ne_zero.mpr hp.ne'
  field_simp

theorem mean_affine (values : List ℝ) (period : ℕ) :
    mean (values.map fun x => a * x + b) period =
      (mean values period).map fun x => a * x + b := by
  rw [mean, mean, window?_map]
  cases h : window? values period with
  | none => rfl
  | some w =>
    obtain ⟨hp, hw⟩ := length_of_window? h
    simp only [Option.map_some, sum_map_affine, hw, div_affine a b hp]

theorem differences_affine (xs ys : List ℝ) :
    (xs.map fun x => a * x + b).zipWith (· - ·) (ys.map fun y => a * y + b) =
      (xs.zipWith (· - ·) ys).map (a * ·) := by
  rw [List.zipWith_map, List.map_zipWith]
  congr 1
  funext x y
  ring

theorem rolling_affine {period : ℕ} (hp : 0 < period) (total : ℝ) (changes : List ℝ) :
    rolling period (a * total + period * b) (changes.map (a * ·)) =
      (rolling period total changes).map fun x => a * x + b := by
  induction changes generalizing total with
  | nil => rfl
  | cons change rest ih =>
    have hnext : a * total + period * b + a * change = a * (total + change) + period * b := by ring
    rw [List.map_cons, rolling, hnext, div_affine a b hp, ih]
    rfl

theorem means_affine (values : List ℝ) (period : ℕ) :
    means (values.map fun x => a * x + b) period =
      (means values period).map fun x => a * x + b := by
  unfold means
  rw [List.length_map]
  split
  · rfl
  next h =>
    obtain ⟨hp, hl⟩ : 0 < period ∧ period ≤ values.length := by omega
    have hw : (values.take period).length = period := List.length_take_of_le hl
    rw [← List.map_take, ← List.map_drop, differences_affine]
    simp only [sum_map_affine, hw, div_affine a b hp, rolling_affine a b hp, List.map_cons]

theorem exponentialStep_affine (value previous : ℝ) (period : ℕ) :
    exponentialStep (a * value + b) (a * previous + b) period =
      a * exponentialStep value previous period + b := by
  unfold exponentialStep
  ring

theorem smoothed_affine (period : ℕ) (previous : ℝ) (values : List ℝ) :
    smoothed period (a * previous + b) (values.map fun x => a * x + b) =
      (smoothed period previous values).map fun x => a * x + b := by
  induction values generalizing previous with
  | nil => rfl
  | cons value rest ih =>
    rw [List.map_cons, smoothed, exponentialStep_affine, ih]
    rfl

theorem exponentialMeans_affine (values : List ℝ) (period : ℕ) :
    exponentialMeans (values.map fun x => a * x + b) period =
      (exponentialMeans values period).map fun x => a * x + b := by
  unfold exponentialMeans
  rw [List.length_map]
  split
  · rfl
  next h =>
    obtain ⟨hp, hl⟩ : 0 < period ∧ period ≤ values.length := by omega
    have hw : (values.take period).length = period := List.length_take_of_le hl
    rw [← List.map_take, ← List.map_drop]
    simp only [sum_map_affine, hw, div_affine a b hp, smoothed_affine, List.map_cons]

theorem deviation_affine (values : List ℝ) (period : ℕ) :
    deviation (values.map fun x => a * x + b) period =
      (deviation values period).map (|a| * ·) := by
  have hroot (w : List ℝ) (m : ℝ) :
      Scalar.sqrt (sum ((w.map fun x => a * x + b).map
          fun v => (v - (a * m + b)) * (v - (a * m + b))) / period) =
        |a| * Scalar.sqrt (sum (w.map fun v => (v - m) * (v - m)) / period) := by
    have hsquares : sum ((w.map fun x => a * x + b).map
          fun v => (v - (a * m + b)) * (v - (a * m + b))) =
        a * a * sum (w.map fun v => (v - m) * (v - m)) := by
      rw [sum_real, sum_real, ← List.sum_map_mul_left, List.map_map]
      congr 2
      funext v
      simp only [Function.comp_apply]
      ring
    rw [hsquares, mul_div_assoc, ← Real.sqrt_mul_self_eq_abs]
    exact Real.sqrt_mul (mul_self_nonneg a) _
  unfold deviation
  rw [mean_affine, window?_map]
  cases mean values period with
  | none => rfl
  | some m =>
    cases window? values period with
    | none => rfl
    | some w => exact congrArg some (hroot w m)

end Average

end MarketVerdict
