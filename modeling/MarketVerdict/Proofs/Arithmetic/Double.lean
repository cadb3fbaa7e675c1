import Mathlib.Data.Prod.Lex
import Mathlib.Order.Compare
import MarketVerdict.Proofs.Arithmetic.Order

/-!
# The order of doubles

A double that is a number has a place on a line: its sign first, then, away from zero, its exponent
and its mantissa. Doubles compare as their places do, and a value that is not a number has no place
and compares to nothing, so doubles satisfy the laws of the order.
-/

namespace MarketVerdict

namespace Double

open Float.Model Scalar

/-- Places compare by sign, then by exponent, then by mantissa. -/
abbrev Place := ℤ ×ₗ ℤ ×ₗ ℤ

def place (sign exponent mantissa : ℤ) : Place := toLex (sign, toLex (exponent, mantissa))

def place? : UnpackedFloat → Option Place
  | .notANumber => none
  | .infinity .negative => some (place (-2) 0 0)
  | .infinity .positive => some (place 2 0 0)
  | .zero _ => some (place 0 0 0)
  | .finite .negative mantissa exponent _ => some (place (-1) (-exponent) (-mantissa))
  | .finite .positive mantissa exponent _ => some (place 1 exponent mantissa)

theorem compare_place (s e m s' e' m' : ℤ) :
    compare (place s e m) (place s' e' m') =
      (compare s s').then ((compare e e').then (compare m m')) := rfl

theorem place_lt_place {s e m s' e' m' : ℤ} (h : s < s') : place s e m < place s' e' m' :=
  Prod.Lex.toLex_lt_toLex.mpr (Or.inl h)

theorem compare_neg (a b : ℤ) : compare (-a) (-b) = (compare a b).swap := by
  rw [Int.compare_swap]
  rcases lt_trichotomy a b with h | h | h
  · rw [compare_gt_iff_gt.mpr h, compare_gt_iff_gt.mpr (Int.neg_lt_neg h)]
  · rw [h, compare_eq_iff_eq.mpr rfl, compare_eq_iff_eq.mpr rfl]
  · rw [compare_lt_iff_lt.mpr h, compare_lt_iff_lt.mpr (Int.neg_lt_neg h)]

theorem compare_cast (m n : ℕ) : compare (m : ℤ) n = compare m n := by
  rcases lt_trichotomy m n with h | h | h
  · rw [compare_lt_iff_lt.mpr h, compare_lt_iff_lt.mpr (Int.ofNat_lt.mpr h)]
  · rw [h, compare_eq_iff_eq.mpr rfl, compare_eq_iff_eq.mpr rfl]
  · rw [compare_gt_iff_gt.mpr h, compare_gt_iff_gt.mpr (Int.ofNat_lt.mpr h)]

/-- Values compare as their places do. -/
theorem compare_eq (a b : UnpackedFloat) :
    a.compare b = (place? a).bind fun p => (place? b).map fun q => compare p q := by
  cases a with
  | notANumber => rfl
  | infinity s =>
    cases b with
    | infinity s' => cases s <;> cases s' <;> rfl
    | notANumber => cases s <;> rfl
    | zero s' => cases s <;> rfl
    | finite s' m' e' _ => cases s <;> cases s' <;> rfl
  | zero s =>
    cases b with
    | infinity s' => cases s' <;> rfl
    | notANumber => rfl
    | zero s' => rfl
    | finite s' m' e' _ => cases s' <;> rfl
  | finite s m e _ =>
    cases b with
    | infinity s' => cases s <;> cases s' <;> rfl
    | notANumber => cases s <;> rfl
    | zero s' => cases s <;> rfl
    | finite s' m' e' _ =>
      cases s <;> cases s'
      -- Two negative values compare the other way round, and so do their negated places.
      · change some ((compare e e').then (compare m m')).swap =
          some (compare (place (-1) (-e) (-m)) (place (-1) (-e') (-m')))
        rw [compare_place, compare_neg e, compare_neg m, compare_cast, Ordering.swap_then]
        rfl
      · rfl
      · rfl
      · change some ((compare e e').then (compare m m')) =
          some (compare (place 1 e m) (place 1 e' m'))
        rw [compare_place, compare_cast]
        rfl

section Comparison

variable {P : Type} [LinearOrder P]

def comparison (a b : Option P) : Option Ordering :=
  a.bind fun p => b.map fun q => compare p q

theorem any_isLE_comparison (a b : Option P) :
    (comparison a b).any (·.isLE) = true ↔ ∃ p q, a = some p ∧ b = some q ∧ p ≤ q := by
  cases a <;> cases b <;> simp [comparison, Ordering.isLE_iff_ne_gt, compare_le_iff_le]

theorem comparison_beq_lt (a b : Option P) :
    (comparison a b == some .lt) = true ↔ ∃ p q, a = some p ∧ b = some q ∧ p < q := by
  cases a <;> cases b <;> simp [comparison, compare_lt_iff_lt]

theorem comparison_beq_eq (a b : Option P) :
    (comparison a b == some .eq) = true ↔ ∃ p, a = some p ∧ b = some p := by
  cases a with
  | none => simp [comparison]
  | some p => cases b <;> simp [comparison, eq_comm (a := p)]

theorem exists_lt_iff (a b : Option P) :
    (∃ p q, a = some p ∧ b = some q ∧ p < q) ↔
      (∃ p q, a = some p ∧ b = some q ∧ p ≤ q) ∧ ¬ ∃ q p, b = some q ∧ a = some p ∧ q ≤ p := by
  constructor
  · rintro ⟨p, q, ha, hb, hpq⟩
    refine ⟨⟨p, q, ha, hb, hpq.le⟩, ?_⟩
    rintro ⟨q', p', hb', ha', hqp⟩
    cases ha.symm.trans ha'
    cases hb.symm.trans hb'
    exact hpq.not_ge hqp
  · rintro ⟨⟨p, q, ha, hb, _⟩, hqp⟩
    exact ⟨p, q, ha, hb, lt_of_not_ge fun h => hqp ⟨q, p, hb, ha, h⟩⟩

theorem exists_eq_iff (a b : Option P) :
    (∃ p, a = some p ∧ b = some p) ↔
      (∃ p q, a = some p ∧ b = some q ∧ p ≤ q) ∧ ∃ q p, b = some q ∧ a = some p ∧ q ≤ p := by
  constructor
  · rintro ⟨p, ha, hb⟩
    exact ⟨⟨p, p, ha, hb, le_rfl⟩, p, p, hb, ha, le_rfl⟩
  · rintro ⟨⟨p, q, ha, hb, hpq⟩, q', p', hb', ha', hqp⟩
    cases ha.symm.trans ha'
    cases hb.symm.trans hb'
    cases le_antisymm hpq hqp
    exact ⟨p, ha, hb⟩

end Comparison

/-- The place of a double that is a number. -/
def at? (x : Float) : Option Place := place? x.toModel.unpack

theorem compare_at? (x y : Float) :
    x.toModel.unpack.compare y.toModel.unpack = comparison (at? x) (at? y) := compare_eq _ _

theorem le_iff {x y : Float} : x ≤ y ↔ ∃ p q, at? x = some p ∧ at? y = some q ∧ p ≤ q := by
  have hle : x ≤ y ↔ x.toModel.unpack.le y.toModel.unpack = true := decide_eq_true_iff
  rw [hle, UnpackedFloat.le, compare_at?, any_isLE_comparison]

theorem lt_iff {x y : Float} : x < y ↔ ∃ p q, at? x = some p ∧ at? y = some q ∧ p < q := by
  have hlt : x < y ↔ x.toModel.unpack.lt y.toModel.unpack = true := decide_eq_true_iff
  rw [hlt, UnpackedFloat.lt, compare_at?, comparison_beq_lt]

theorem beq_iff {x y : Float} : (x == y) = true ↔ ∃ p, at? x = some p ∧ at? y = some p := by
  change (x.toModel.unpack.compare y.toModel.unpack == some .eq) = true ↔ _
  rw [compare_at?, comparison_beq_eq]

theorem isFinite_iff {x : Float} :
    isFinite x = true ↔ ∃ p, at? x = some p ∧ place (-2) 0 0 < p ∧ p < place 2 0 0 := by
  change x.toModel.unpack.isFinite = true ↔ ∃ p, place? x.toModel.unpack = some p ∧ _ ∧ _
  generalize x.toModel.unpack = a
  have hnumber : ∀ {sign : ℤ} (e m : ℤ), -2 < sign → sign < 2 →
      ∃ p, some (place sign e m) = some p ∧ place (-2) 0 0 < p ∧ p < place 2 0 0 :=
    fun _ _ hlow hhigh => ⟨_, rfl, place_lt_place hlow, place_lt_place hhigh⟩
  cases a with
  | notANumber => exact iff_of_false nofun fun ⟨_, h, _⟩ => nomatch h
  | infinity s =>
    cases s with
    | negative => exact iff_of_false nofun fun ⟨_, h, hlow, _⟩ => hlow.ne (Option.some.inj h)
    | positive => exact iff_of_false nofun fun ⟨_, h, _, hhigh⟩ => hhigh.ne (Option.some.inj h).symm
  | zero s => exact iff_of_true rfl (hnumber 0 0 (by decide) (by decide))
  | finite s m e _ =>
    cases s with
    | negative => exact iff_of_true rfl (hnumber (-e) (-m) (by decide) (by decide))
    | positive => exact iff_of_true rfl (hnumber e m (by decide) (by decide))

theorem le_trans {x y z : Float} (hxy : x ≤ y) (hyz : y ≤ z) : x ≤ z := by
  obtain ⟨p, q, hx, hy, hpq⟩ := le_iff.mp hxy
  obtain ⟨q', r, hy', hz, hqr⟩ := le_iff.mp hyz
  cases hy.symm.trans hy'
  exact le_iff.mpr ⟨p, r, hx, hz, hpq.trans hqr⟩

theorem le_or_le {x y : Float} (hx : x ≤ x) (hy : y ≤ y) : x ≤ y ∨ y ≤ x := by
  obtain ⟨p, _, hp, _, _⟩ := le_iff.mp hx
  obtain ⟨q, _, hq, _, _⟩ := le_iff.mp hy
  rcases le_total p q with h | h
  · exact Or.inl (le_iff.mpr ⟨p, q, hp, hq, h⟩)
  · exact Or.inr (le_iff.mpr ⟨q, p, hq, hp, h⟩)

theorem le_self_of_isFinite {x : Float} (h : isFinite x = true) : x ≤ x := by
  obtain ⟨p, hp, _, _⟩ := isFinite_iff.mp h
  exact le_iff.mpr ⟨p, p, hp, hp, le_rfl⟩

theorem isFinite_of_between {x y z : Float} (hx : isFinite x = true) (hz : isFinite z = true)
    (hxy : x ≤ y) (hyz : y ≤ z) : isFinite y = true := by
  obtain ⟨p, hp, hlow, _⟩ := isFinite_iff.mp hx
  obtain ⟨r, hr, _, hhigh⟩ := isFinite_iff.mp hz
  obtain ⟨p', q, hp', hq, hpq⟩ := le_iff.mp hxy
  obtain ⟨q', r', hq', hr', hqr⟩ := le_iff.mp hyz
  cases hp.symm.trans hp'
  cases hq.symm.trans hq'
  cases hr.symm.trans hr'
  exact isFinite_iff.mpr ⟨q, hq, hlow.trans_le hpq, hqr.trans_lt hhigh⟩

end Double

open Double in
instance : LawfulScalar Float where
  le_trans := Double.le_trans
  le_total := le_or_le
  lt_iff_le_not_le :=
    lt_iff.trans ((exists_lt_iff _ _).trans (and_congr le_iff.symm (not_congr le_iff.symm)))
  beq_iff_le_le := beq_iff.trans ((exists_eq_iff _ _).trans (and_congr le_iff.symm le_iff.symm))
  le_self_of_isFinite := Double.le_self_of_isFinite
  isFinite_of_between := Double.isFinite_of_between
  isFinite_zero := by decide
  isFinite_one := by decide
  zero_le_one := by decide +kernel

end MarketVerdict
