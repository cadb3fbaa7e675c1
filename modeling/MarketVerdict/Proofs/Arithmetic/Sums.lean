import MarketVerdict.Proofs.Arithmetic.Rounding

/-!
# Sums of doubles that are not negative

A double is at least zero when its sign is positive or when it is a zero of either sign. Adding two
such doubles gives another one, whatever is rounded away, so that no sum of them falls below zero.
-/

namespace MarketVerdict

namespace Double

open Float.Model Float.Model.UnpackedFloat

/-- At least zero, where both zeros count. -/
def NotNegative : UnpackedFloat → Prop
  | .notANumber => False
  | .infinity s => s = .positive
  | .zero _ => True
  | .finite s .. => s = .positive

theorem zero_le_iff {x : Float} : 0 ≤ x ↔ NotNegative x.toModel.unpack := by
  have hzero : at? 0 = some (place 0 0 0) := rfl
  rw [le_iff, hzero]
  change (∃ p q, _ = some p ∧ place? x.toModel.unpack = some q ∧ p ≤ q) ↔ _
  cases x.toModel.unpack with
  | notANumber => simp [place?, NotNegative]
  | infinity s => cases s <;> simp [place?, NotNegative] <;> decide
  | zero s => simp [place?, NotNegative]
  | finite s m e h =>
    cases s with
    | negative =>
      simpa [place?, NotNegative] using place_lt_place (by decide)
    | positive =>
      simpa [place?, NotNegative] using (place_lt_place (by decide)).le

theorem notNegative_roundWithAccuracy (m : ℕ) (e : ℤ) (a : Accuracy) :
    NotNegative (roundWithAccuracy Format.binary64 .positive m e a) := by
  rw [roundWithAccuracy]
  dsimp only
  split <;> trivial

theorem notNegative_normalize {m : ℤ} (hm : 0 ≤ m) (e : ℤ) :
    NotNegative (UnpackedFloat.normalize Format.binary64 m e .positive) := by
  unfold UnpackedFloat.normalize
  split
  · next h => exact absurd (compare_lt_iff_lt.mp h) (not_lt.mpr hm)
  · trivial
  · exact notNegative_roundWithAccuracy _ _ _

theorem NotNegative.add {a b : UnpackedFloat} (ha : NotNegative a) (hb : NotNegative b) :
    NotNegative (UnpackedFloat.add Format.binary64 a b) := by
  cases a with
  | notANumber => exact ha.elim
  | infinity s =>
    obtain rfl : s = .positive := ha
    cases b with
    | notANumber => exact hb.elim
    | infinity s' =>
      obtain rfl : s' = .positive := hb
      rfl
    | zero s' => rfl
    | finite s' m' e' h' => rfl
  | zero s =>
    cases b with
    | notANumber => exact hb.elim
    | infinity s' => exact hb
    | zero s' => cases s <;> cases s' <;> trivial
    | finite s' m' e' h' => exact hb
  | finite s m e h =>
    obtain rfl : s = .positive := ha
    cases b with
    | notANumber => exact hb.elim
    | infinity s' => exact hb
    | zero s' => rfl
    | finite s' m' e' h' =>
      obtain rfl : s' = .positive := hb
      exact notNegative_normalize (Int.add_nonneg (Int.natCast_nonneg _) (Int.natCast_nonneg _)) _

/-- Bits with a positive sign hold no negative value. They hold a number unless all bits of the
exponent and some bit of the mantissa are set. -/
theorem notNegative_unpack {e : BitVec 11} {m : BitVec 52} (h : e ≠ -1#11 ∨ m = 0) :
    NotNegative (UnpackedFloat.unpack Format.binary64
      (packComponents Format.binary64 .positive e m)) := by
  simp only [UnpackedFloat.unpack, unpackExponent_packComponents, unpackMantissa_packComponents,
    sign_packComponents]
  split
  · next he =>
    obtain rfl : m = 0#52 := h.resolve_left (not_not_intro he)
    rfl
  · split
    · split <;> trivial
    · rfl

theorem NotNegative.pack {a : UnpackedFloat} (ha : NotNegative a) :
    NotNegative (Float.Model.pack a).unpack := by
  change NotNegative (UnpackedFloat.unpack Format.binary64 (UnpackedFloat.pack Format.binary64 a))
  have hinfinity : NotNegative (UnpackedFloat.unpack Format.binary64
      (packedInfinity Format.binary64 .positive)) := notNegative_unpack (Or.inr rfl)
  cases a with
  | notANumber => exact ha.elim
  | infinity s =>
    obtain rfl : s = .positive := ha
    exact hinfinity
  | zero s =>
    cases s with
    | positive => exact notNegative_unpack (Or.inr rfl)
    | negative => exact trivial
  | finite s m e h =>
    obtain rfl : s = .positive := ha
    simp only [UnpackedFloat.pack]
    split
    · exact hinfinity
    · next hguard =>
      split
      · refine notNegative_unpack (Or.inl fun hall => hguard ?_)
        have hnat := congrArg BitVec.toNat hall
        rw [BitVec.toNat_ofNat] at hnat
        exact Nat.succ_le_succ (hnat.symm.trans_le (Nat.mod_le _ _))
      · exact notNegative_unpack (Or.inl (by decide))

theorem zero_le_add {x y : Float} (hx : 0 ≤ x) (hy : 0 ≤ y) : 0 ≤ x + y :=
  zero_le_iff.mpr ((zero_le_iff.mp hx).add (zero_le_iff.mp hy)).pack

end Double

open Scalar in
theorem Scalar.zero_le_sum {xs : List Float} (h : ∀ x ∈ xs, 0 ≤ x) : 0 ≤ sum xs := by
  induction xs using List.reverseRecOn with
  | nil => exact LawfulScalar.le_self_of_isFinite LawfulScalar.isFinite_zero
  | append_singleton xs x ih =>
    rw [sum_append_singleton]
    rw [List.forall_mem_append] at h
    exact Double.zero_le_add (ih h.1) (h.2 x List.mem_cons_self)

end MarketVerdict
