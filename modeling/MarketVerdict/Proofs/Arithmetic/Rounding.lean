import Mathlib
import MarketVerdict.Proofs.Arithmetic.Double

/-!
# Rounding of doubles

A value is rounded by shifting its mantissa to 53 bits. What is shifted out is dropped, or adds one in
the last place, and only then can a mantissa of 53 ones carry over into the next exponent. A value
whose mantissa has 53 bits comes back from its bits as it was, and one whose exponent is too large
comes back as an infinity.
-/

namespace MarketVerdict.Double

open Float.Model Float.Model.UnpackedFloat

theorem mantissa_shiftRight (em : ExtendedMantissa) (k : ℕ) :
    (em >>> k).mantissa = em.mantissa / 2 ^ k := by
  induction k with
  | zero => exact (Nat.div_one _).symm
  | succ k ih =>
    change (em >>> k).mantissa / 2 = _
    rw [ih, Nat.div_div_eq_div_mul, Nat.pow_succ]

theorem shiftRight_mul_two_pow (m k : ℕ) :
    (⟨m * 2 ^ k, false, false⟩ : ExtendedMantissa) >>> k = ⟨m, false, false⟩ := by
  induction k generalizing m with
  | zero => simp [HShiftRight.hShiftRight, Nat.repeat]
  | succ k ih =>
    change ((⟨m * 2 ^ (k + 1), false, false⟩ : ExtendedMantissa) >>> k).shiftRightOne = _
    have hm : m * 2 ^ (k + 1) = (m * 2) * 2 ^ k := by
      rw [Nat.pow_succ, Nat.mul_comm (2 ^ k), Nat.mul_assoc]
    rw [hm, ih]
    simp [ExtendedMantissa.shiftRightOne]

theorem roundedMantissa_bounds (em : ExtendedMantissa) :
    em.mantissa ≤ em.roundedMantissa ∧ em.roundedMantissa ≤ em.mantissa + 1 := by
  obtain ⟨m, roundBit, stickyBit⟩ := em
  cases roundBit <;> cases stickyBit <;>
    simp only [ExtendedMantissa.roundedMantissa, ExtendedMantissa.accuracy,
      Accuracy.roundToNearestEven] <;> omega

theorem mantissa_ofMantissaAndAccuracy (m : ℕ) (a : Accuracy) :
    (ExtendedMantissa.ofMantissaAndAccuracy m a).mantissa = m := by
  cases a with
  | exact => rfl
  | inexact o => cases o <;> rfl

theorem targetExponent_normal {m k : ℕ} {e : ℤ} (hm : m.log2 = 52 + k) (he : -1074 ≤ e) :
    Format.binary64.targetExponent (totalExponent m e) = e + k := by
  simp only [Format.targetExponent, totalExponent, Format.mantissaBits, Format.minExponent, hm]
  push_cast
  omega

theorem shiftToTargetExponent_normal {m k : ℕ} {e : ℤ} (hm : m.log2 = 52 + k) (he : -1074 ≤ e)
    (a : Accuracy) :
    shiftToTargetExponent Format.binary64 m e a =
      (ExtendedMantissa.ofMantissaAndAccuracy m a >>> k, e + k) := by
  have hk : (e + (k : ℤ) - e).toNat = k := by omega
  rw [shiftToTargetExponent, targetExponent_normal hm he, shiftToExponent]
  simp only [hk]

theorem log2_eq_52_iff {m : ℕ} : m.log2 = 52 ↔ 2 ^ 52 ≤ m ∧ m < 2 ^ 53 := by
  rcases Nat.eq_zero_or_pos m with rfl | hm
  · simp
  · exact Nat.log2_eq_iff hm.ne'

theorem log2_mul_two_pow {m : ℕ} (hm : m ≠ 0) (k : ℕ) : (m * 2 ^ k).log2 = m.log2 + k := by
  obtain ⟨hlow, hhigh⟩ := (Nat.log2_eq_iff hm).mp rfl
  rw [Nat.log2_eq_iff (Nat.mul_ne_zero hm (Nat.two_pow_pos k).ne'), Nat.add_right_comm, Nat.pow_add,
    Nat.pow_add]
  exact ⟨Nat.mul_le_mul_right _ hlow, Nat.mul_lt_mul_of_pos_right hhigh (Nat.two_pow_pos k)⟩

theorem log2_div_two_pow {m k : ℕ} (hm : m.log2 = 52 + k) : (m / 2 ^ k).log2 = 52 := by
  have hpos : m ≠ 0 := by
    rintro rfl
    rw [Nat.log2_zero] at hm
    omega
  obtain ⟨hlow, hhigh⟩ := (Nat.log2_eq_iff hpos).mp hm
  rw [log2_eq_52_iff, Nat.le_div_iff_mul_le (Nat.two_pow_pos k),
    Nat.div_lt_iff_lt_mul (Nat.two_pow_pos k), ← Nat.pow_add, ← Nat.pow_add]
  exact ⟨hlow, by rwa [Nat.add_right_comm] at hhigh⟩

/-- A mantissa of at most 53 bits is only shifted when rounding has carried it over. -/
theorem shiftToTargetExponent_carry {r : ℕ} {e : ℤ} (hlow : 2 ^ 52 ≤ r) (hhigh : r ≤ 2 ^ 53)
    (he : -1074 ≤ e) :
    shiftToTargetExponent Format.binary64 r e .exact =
      if r < 2 ^ 53 then (⟨r, false, false⟩, e) else (⟨2 ^ 52, false, false⟩, e + 1) := by
  split
  · next hlt =>
    rw [shiftToTargetExponent_normal (k := 0) (log2_eq_52_iff.mpr ⟨hlow, hlt⟩) he]
    simp [HShiftRight.hShiftRight, Nat.repeat, ExtendedMantissa.ofMantissaAndAccuracy]
  · next hge =>
    obtain rfl : r = 2 ^ 53 := by omega
    rw [shiftToTargetExponent_normal (k := 1) (Nat.log2_two_pow (n := 53)) he,
      ExtendedMantissa.ofMantissaAndAccuracy]
    exact congrArg (·, e + 1) (shiftRight_mul_two_pow (2 ^ 52) 1)

/-- Rounding keeps 53 bits and either drops the rest or adds one in the last place. -/
theorem roundWithAccuracy_normal {m k : ℕ} {e : ℤ} (hm : m.log2 = 52 + k) (he : -1074 ≤ e)
    (s : Sign) (a : Accuracy) :
    ∃ r e' h, roundWithAccuracy Format.binary64 s m e a = .finite s r e' h ∧ r.log2 = 52 ∧
      (e' = e + k ∨ e' = e + k + 1 ∧ m / 2 ^ k = 2 ^ 53 - 1) := by
  have hfloor := log2_eq_52_iff.mp (log2_div_two_pow hm)
  have hbounds := roundedMantissa_bounds (ExtendedMantissa.ofMantissaAndAccuracy m a >>> k)
  rw [mantissa_shiftRight, mantissa_ofMantissaAndAccuracy] at hbounds
  rw [roundWithAccuracy, shiftToTargetExponent_normal hm he]
  dsimp only
  generalize (ExtendedMantissa.ofMantissaAndAccuracy m a >>> k).roundedMantissa = r at hbounds ⊢
  rw [shiftToTargetExponent_carry (hfloor.1.trans hbounds.1) (by omega) (by omega)]
  by_cases hr : r < 2 ^ 53
  · simp only [if_pos hr]
    have hpos : r ≠ 0 := by omega
    rw [dif_neg hpos]
    exact ⟨r, _, Nat.pos_of_ne_zero hpos, rfl,
      log2_eq_52_iff.mpr ⟨hfloor.1.trans hbounds.1, hr⟩, Or.inl rfl⟩
  · simp only [if_neg hr]
    exact ⟨2 ^ 52, _, Nat.two_pow_pos 52, rfl, Nat.log2_two_pow, Or.inr ⟨rfl, by omega⟩⟩

/-- A mantissa whose dropped bits are all zero is not changed. -/
theorem roundWithAccuracy_exact {m k : ℕ} {e : ℤ} (hm : m.log2 = 52) (he : -1074 ≤ e)
    (s : Sign) (hpos : 0 < m) :
    roundWithAccuracy Format.binary64 s (m * 2 ^ k) e .exact = .finite s m (e + k) hpos := by
  obtain ⟨hlow, hhigh⟩ := log2_eq_52_iff.mp hm
  have hk : (m * 2 ^ k).log2 = 52 + k := by rw [log2_mul_two_pow hpos.ne', hm]
  rw [roundWithAccuracy, shiftToTargetExponent_normal hk he, ExtendedMantissa.ofMantissaAndAccuracy,
    shiftRight_mul_two_pow]
  dsimp only
  have hr : (⟨m, false, false⟩ : ExtendedMantissa).roundedMantissa = m := rfl
  rw [hr, shiftToTargetExponent_carry hlow hhigh.le (by omega)]
  simp only [if_pos hhigh]
  rw [dif_neg hpos.ne']

theorem sign_packComponents (s : Sign) (e : BitVec 11) (m : BitVec 52) :
    Sign.ofBitVec (unpackSign (packComponents Format.binary64 s e m)) = s := by
  have hsign : unpackSign (packComponents Format.binary64 s e m) = s.toBitVec := by
    change (s.toBitVec ++ e ++ m).extractLsb' 63 1 = s.toBitVec
    rw [BitVec.extractLsb'_append_eq_of_le (by decide),
      BitVec.extractLsb'_append_eq_of_le (by decide)]
    cases s <;> rfl
  rw [hsign]
  cases s <;> rfl

theorem toNat_implicit_append {m : ℕ} (hm : m.log2 = 52) :
    (1#1 ++ BitVec.ofNat 52 m).toNat = m := by
  obtain ⟨hlow, hhigh⟩ := log2_eq_52_iff.mp hm
  simp only [BitVec.toNat_append, BitVec.toNat_ofNat, Nat.shiftLeft_eq]
  change 2 ^ 52 ||| m % 2 ^ 52 = m
  rw [Nat.or_comm, Nat.or_two_pow_eq_add_of_lt (Nat.mod_lt m (Nat.two_pow_pos 52))]
  omega

/-- A packed value in normal form is read back, unless its exponent is too large. -/
theorem unpack_pack {m : ℕ} {e : ℤ} (s : Sign) (hpos : 0 < m) (hm : m.log2 = 52) (hlow : -1074 ≤ e)
    (hhigh : e ≤ 971) :
    (Float.Model.pack (.finite s m e hpos)).unpack = .finite s m e hpos := by
  obtain ⟨n, hn⟩ := Int.eq_ofNat_of_zero_le (show 0 ≤ e + 1075 by omega)
  have hbiased : (e + Format.binary64.exponentBias +
      Format.binary64.mantissaBitsWithoutImplicit).toNat = n := by
    change (e + 1023 + 52).toNat = n
    omega
  have hguard : ¬ 2 ^ Format.binary64.exponentBits ≤ n + 1 := by
    change ¬ 2048 ≤ n + 1
    omega
  have hpack : UnpackedFloat.pack Format.binary64 (.finite s m e hpos) =
      packComponents Format.binary64 s (BitVec.ofNat 11 n) (BitVec.ofNat 52 m) := by
    simp only [UnpackedFloat.pack, hbiased, if_neg hguard, hm]
    exact if_pos rfl
  have hexponent : (BitVec.ofNat 11 n).toNat = n := Nat.mod_eq_of_lt (by omega)
  have hfinite : BitVec.ofNat 11 n ≠ -1#11 := fun h => by
    have hall : (BitVec.ofNat 11 n).toNat = 2047 := congrArg BitVec.toNat h
    omega
  have hnormal : BitVec.ofNat 11 n ≠ 0#11 := fun h => by
    have hzero : (BitVec.ofNat 11 n).toNat = 0 := congrArg BitVec.toNat h
    omega
  change UnpackedFloat.unpack Format.binary64 (UnpackedFloat.pack Format.binary64 _) = _
  rw [hpack]
  simp only [UnpackedFloat.unpack, unpackExponent_packComponents, unpackMantissa_packComponents,
    sign_packComponents]
  rw [if_neg hfinite, if_neg hnormal]
  simp only [hexponent, toNat_implicit_append hm]
  congr 1
  change (n : ℤ) - (1023 + 52) = e
  omega

theorem unpack_pack_of_lt {m : ℕ} {e : ℤ} (s : Sign) (hpos : 0 < m) (h : 971 < e) :
    (Float.Model.pack (.finite s m e hpos)).unpack = .infinity s := by
  have hguard : 2 ^ Format.binary64.exponentBits ≤ (e + Format.binary64.exponentBias +
      Format.binary64.mantissaBitsWithoutImplicit).toNat + 1 := by
    change 2048 ≤ (e + 1023 + 52).toNat + 1
    omega
  change UnpackedFloat.unpack Format.binary64 (UnpackedFloat.pack Format.binary64 _) = _
  simp only [UnpackedFloat.pack, if_pos hguard, packedInfinity, UnpackedFloat.unpack,
    unpackExponent_packComponents, unpackMantissa_packComponents, sign_packComponents]
  rfl

end MarketVerdict.Double
