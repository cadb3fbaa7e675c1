import MarketVerdict.Scalar

/-!
# The order of an arithmetic

`LawfulScalar` states what the order of an arithmetic has to satisfy for the bounds on scores and
magnitudes to hold. The order need not be reflexive: the values that lie below themselves are the
numbers, and a value that is not a number is comparable to nothing.
-/

namespace MarketVerdict

open Scalar

class LawfulScalar (α : Type) [Scalar α] : Prop where
  le_trans : ∀ {x y z : α}, x ≤ y → y ≤ z → x ≤ z
  /-- Numbers are comparable. -/
  le_total : ∀ {x y : α}, x ≤ x → y ≤ y → x ≤ y ∨ y ≤ x
  lt_iff_le_not_le : ∀ {x y : α}, x < y ↔ x ≤ y ∧ ¬ y ≤ x
  beq_iff_le_le : ∀ {x y : α}, (x == y) = true ↔ x ≤ y ∧ y ≤ x
  le_self_of_isFinite : ∀ {x : α}, isFinite x = true → x ≤ x
  isFinite_of_between : ∀ {x y z : α}, isFinite x = true → isFinite z = true → x ≤ y → y ≤ z →
    isFinite y = true
  isFinite_zero : isFinite (0 : α) = true
  isFinite_one : isFinite (1 : α) = true
  zero_le_one : (0 : α) ≤ 1

namespace LawfulScalar

variable {α : Type} [Scalar α] [LawfulScalar α]

theorem le_of_not_lt {x y : α} (hx : x ≤ x) (hy : y ≤ y) (h : ¬ x < y) : y ≤ x := by
  rcases le_total hx hy with hxy | hyx
  · by_cases hyx : y ≤ x
    · exact hyx
    · exact absurd (lt_iff_le_not_le.mpr ⟨hxy, hyx⟩) h
  · exact hyx

theorem le_of_lt {x y : α} (h : x < y) : x ≤ y := (lt_iff_le_not_le.mp h).1

theorem not_le_of_lt {x y : α} (h : x < y) : ¬ y ≤ x := (lt_iff_le_not_le.mp h).2

theorem not_lt_of_le {x y : α} (h : x ≤ y) : ¬ y < x := fun hlt => not_le_of_lt hlt h

theorem lt_of_lt_of_le {x y z : α} (hxy : x < y) (hyz : y ≤ z) : x < z :=
  lt_iff_le_not_le.mpr ⟨le_trans (le_of_lt hxy) hyz, fun hzx => not_le_of_lt hxy (le_trans hyz hzx)⟩

theorem lt_of_le_of_lt {x y z : α} (hxy : x ≤ y) (hyz : y < z) : x < z :=
  lt_iff_le_not_le.mpr ⟨le_trans hxy (le_of_lt hyz), fun hzx => not_le_of_lt hyz (le_trans hzx hxy)⟩

theorem le_self_of_not_isNaN {x : α} (h : isNaN x = false) : x ≤ x :=
  (beq_iff_le_le.mp (by simpa [isNaN] using h)).1

theorem inUnit_iff {x : α} : inUnit x = true ↔ 0 ≤ x ∧ x ≤ 1 := by
  simp only [inUnit, Bool.and_eq_true, decide_eq_true_iff, and_assoc]
  constructor
  · exact And.right
  · exact fun h => ⟨isFinite_of_between isFinite_zero isFinite_one h.1 h.2, h⟩

theorem inUnit_zero : inUnit (0 : α) = true :=
  inUnit_iff.mpr ⟨le_self_of_isFinite isFinite_zero, zero_le_one⟩

theorem inUnit_one : inUnit (1 : α) = true :=
  inUnit_iff.mpr ⟨zero_le_one, le_self_of_isFinite isFinite_one⟩

/-- Whatever is clipped, infinite or not a number, ends up between zero and one. -/
theorem inUnit_clampUnit (x : α) : inUnit (clampUnit x) = true := by
  unfold clampUnit
  by_cases hnan : isNaN x = true
  · rw [if_pos hnan]
    exact inUnit_zero
  · rw [if_neg hnan]
    rw [Bool.not_eq_true] at hnan
    have hx : x ≤ x := le_self_of_not_isNaN hnan
    unfold clamp
    by_cases hlow : x < 0
    · rw [if_pos hlow]
      exact inUnit_zero
    · rw [if_neg hlow]
      by_cases hhigh : 1 < x
      · rw [if_pos hhigh]
        exact inUnit_one
      · rw [if_neg hhigh, inUnit_iff]
        exact ⟨le_of_not_lt hx (le_self_of_isFinite isFinite_zero) hlow,
          le_of_not_lt (le_self_of_isFinite isFinite_one) hx hhigh⟩

theorem not_isNaN_of_le_self {x : α} (h : x ≤ x) : isNaN x = false := by
  rw [isNaN, beq_iff_le_le.mpr ⟨h, h⟩, Bool.not_true]

theorem clampUnit_of_inUnit {x : α} (h : inUnit x = true) : clampUnit x = x := by
  obtain ⟨hlow, hhigh⟩ := inUnit_iff.mp h
  have hfinite : isFinite x = true := isFinite_of_between isFinite_zero isFinite_one hlow hhigh
  have hnan : isNaN x = false := not_isNaN_of_le_self (le_self_of_isFinite hfinite)
  rw [clampUnit, hnan, clamp, if_neg (not_lt_of_le hlow), if_neg (not_lt_of_le hhigh)]
  rfl

theorem clampUnit_clampUnit (x : α) : clampUnit (clampUnit x) = clampUnit x :=
  clampUnit_of_inUnit (inUnit_clampUnit x)

end LawfulScalar

end MarketVerdict
