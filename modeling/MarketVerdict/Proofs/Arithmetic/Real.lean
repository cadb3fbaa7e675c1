import Mathlib.Algebra.BigOperators.Ring.List
import Mathlib.Algebra.Order.BigOperators.Group.List
import MarketVerdict.Proofs.Arithmetic.Exact
import MarketVerdict.Reading

/-!
# The operations on real numbers

What the operations of the library come to when values are real numbers: sums, extremes and absolute
values are the usual ones, nothing is other than a number, and clipping leaves alone what lies
within its bounds.
-/

namespace MarketVerdict

namespace Scalar

@[simp] theorem isFinite_real (x : ℝ) : isFinite x = true := rfl

@[simp] theorem isNaN_real (x : ℝ) : isNaN x = false := by simp [isNaN]

theorem least?_real : (Scalar.least? : Option ℝ) = none := rfl

theorem greatest?_real : (Scalar.greatest? : Option ℝ) = none := rfl

theorem abs_real (x : ℝ) : Scalar.abs x = |x| := rfl

theorem sum_real (xs : List ℝ) : Scalar.sum xs = xs.sum := List.sum_eq_foldl.symm

theorem larger_real (x y : ℝ) : larger x y = max x y := by
  rw [larger, isNaN_real, Bool.or_false, max_def_lt]
  simp

theorem smaller_real (x y : ℝ) : smaller x y = min x y := by
  rw [smaller, isNaN_real, Bool.or_false, min_comm, min_def_lt]
  simp

theorem clamp_real {lo hi : ℝ} (h : lo ≤ hi) (x : ℝ) : clamp x lo hi = max lo (min x hi) := by
  unfold clamp
  split_ifs with hlow hhigh
  · rw [max_eq_left ((min_le_left _ _).trans hlow.le)]
  · rw [min_eq_right hhigh.le, max_eq_right h]
  · rw [min_eq_left (not_lt.mp hhigh), max_eq_right (not_lt.mp hlow)]

theorem clampUnit_real (x : ℝ) : clampUnit x = max 0 (min x 1) := by
  rw [clampUnit, isNaN_real]
  exact clamp_real zero_le_one x

theorem clampSigned_real (x : ℝ) : clampSigned x = max (-1) (min x 1) := by
  rw [clampSigned, isNaN_real]
  exact clamp_real (by norm_num) x

theorem clampUnit_of_mem {x : ℝ} (h : x ∈ Set.Icc 0 1) : clampUnit x = x := by
  rw [clampUnit_real, min_eq_left h.2, max_eq_right h.1]

theorem clampSigned_of_mem {x : ℝ} (h : x ∈ Set.Icc (-1) 1) : clampSigned x = x := by
  rw [clampSigned_real, min_eq_left h.2, max_eq_right h.1]

theorem clampUnit_nonneg (x : ℝ) : 0 ≤ clampUnit x := by
  rw [clampUnit_real]
  exact le_max_left _ _

theorem clampUnit_mono {x y : ℝ} (h : x ≤ y) : clampUnit x ≤ clampUnit y := by
  rw [clampUnit_real, clampUnit_real]
  exact max_le_max_left _ (min_le_min_right _ h)

/-- The sum over the members that a test picks. -/
theorem sum_map_filter {β : Type} (p : β → Bool) (f : β → ℝ) (xs : List β) :
    ((xs.filter p).map f).sum = (xs.map fun x => if p x then f x else 0).sum := by
  have h := List.sum_map_ite (fun x => p x = true) f (fun _ => 0) xs
  simpa using h.symm

end Scalar

namespace Direction

theorem ofSign_of_pos {x : ℝ} (h : 0 < x) : ofSign x = bullish := if_pos h

theorem ofSign_of_neg {x : ℝ} (h : x < 0) : ofSign x = bearish := by
  rw [ofSign, if_neg h.not_gt, if_pos h]

@[simp] theorem ofSign_zero : ofSign (0 : ℝ) = neutral := by
  rw [ofSign, if_neg (lt_irrefl _), if_neg (lt_irrefl _)]

end Direction

theorem Raw.isFinite_real (raw : Raw ℝ) : raw.isFinite = true := by cases raw <;> rfl

/-- Every value is a number, so no reading is invalid. -/
theorem Measured.ofRaw_real (raw : Raw ℝ) : Measured.ofRaw raw = .present raw :=
  if_pos raw.isFinite_real

end MarketVerdict
