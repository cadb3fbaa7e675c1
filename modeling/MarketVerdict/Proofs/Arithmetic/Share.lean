import Mathlib
import MarketVerdict.Proofs.Arithmetic.Exact
import MarketVerdict.Proofs.Arithmetic.Rounding

/-!
# Shares of a count

The part of a history that has been seen is a quotient of two counts. `LawfulShare` states what such a
quotient has to satisfy: it is positive, and it reaches one exactly when the first count reaches the
second. In exact arithmetic this is plain; a quotient of doubles could round up to one, and does not
while the second count is at most 2^52.
-/

namespace MarketVerdict

class LawfulShare (α : Type) [Scalar α] : Prop where
  zero_lt_share : ∀ {n m : ℕ}, 0 < n → n < m → m ≤ 2 ^ 52 → (0 : α) < (n : α) / (m : α)
  share_lt_one : ∀ {n m : ℕ}, 0 < n → n < m → m ≤ 2 ^ 52 → (n : α) / (m : α) < 1
  one_le_share : ∀ {n m : ℕ}, 0 < m → m ≤ n → m ≤ 2 ^ 52 → (1 : α) ≤ (n : α) / (m : α)

theorem lawfulShare_exact (K : Type) [Field K] [LinearOrder K] [IsStrictOrderedRing K]
    [FloorRing K] (sqrt : K → K) (pow : K → K → K) : @LawfulShare K (Scalar.exact K sqrt pow) :=
  letI := Scalar.exact K sqrt pow
  { zero_lt_share := fun hn h _ => div_pos (Nat.cast_pos.mpr hn) (Nat.cast_pos.mpr (hn.trans h))
    share_lt_one := fun hn h _ =>
      (div_lt_one (Nat.cast_pos.mpr (hn.trans h))).mpr (Nat.cast_lt.mpr h)
    one_le_share := fun hm h _ => (one_le_div (Nat.cast_pos.mpr hm)).mpr (Nat.cast_le.mpr h) }

instance : LawfulShare ℝ := lawfulShare_exact ..

instance : LawfulShare ℚ := lawfulShare_exact ..

namespace Double

open Float.Model Float.Model.UnpackedFloat

/-! ### Counts -/

/-- A count with its mantissa shifted to 53 bits. -/
def leading (n : ℕ) : ℕ := n * 2 ^ (52 - n.log2)

theorem log2_leading {n : ℕ} (hn : 0 < n) (hbound : n.log2 ≤ 52) : (leading n).log2 = 52 := by
  rw [leading, log2_mul_two_pow hn.ne']
  omega

theorem leading_pos {n : ℕ} (hn : 0 < n) : 0 < leading n :=
  Nat.mul_pos hn (Nat.two_pow_pos _)

theorem log2_le_52 {n : ℕ} (h : n < 2 ^ 53) : n.log2 ≤ 52 := by
  rcases Nat.eq_zero_or_pos n with rfl | hn
  · simp [Nat.log2_zero]
  · exact Nat.lt_succ_iff.mp ((Nat.log2_lt hn.ne').mpr h)

theorem model_ofNat {n : ℕ} (hn : 0 < n) (h : n < 2 ^ 53) :
    UnpackedFloat.ofNat Format.binary64 n =
      .finite .positive (leading n) (n.log2 - 52) (leading_pos hn) := by
  have hlog := log2_le_52 h
  have htarget : Format.binary64.targetExponent (totalExponent n 0) = n.log2 - 52 := by
    simp only [Format.targetExponent, totalExponent, Format.mantissaBits, Format.minExponent]
    push_cast
    omega
  have hshift : ((0 : ℤ) - ((n.log2 : ℤ) - 52)).toNat = 52 - n.log2 := by omega
  have hexponent : (0 : ℤ) - ((52 - n.log2 : ℕ) : ℤ) = n.log2 - 52 := by omega
  have hround := roundWithAccuracy_exact (k := 0) (e := n.log2 - 52) (log2_leading hn hlog)
    (by omega) .positive (leading_pos hn)
  rw [UnpackedFloat.ofNat, UnpackedFloat.ofInt, UnpackedFloat.normalize,
    Int.compare_eq_gt.mpr (by omega)]
  simp only [Int.toNat_natCast, UnpackedFloat.round, htarget, decreaseExponent, hshift, hexponent,
    Nat.shiftLeft_eq]
  simpa [leading] using hround

theorem unpack_one : (Float.ofBits 0x3FF0000000000000).toModel.unpack =
    .finite .positive (2 ^ 52) (-52) (by decide) := rfl

/-- A count below 2^53 is a double. -/
theorem unpack_ofNat {n : ℕ} (hn : 0 < n) (h : n < 2 ^ 53) :
    (Float.ofNat n).toModel.unpack =
      .finite .positive (leading n) (n.log2 - 52) (leading_pos hn) := by
  have hlog := log2_le_52 h
  have hm := log2_leading hn hlog
  have hword : n.toUInt64.toNat = n := by
    rw [Nat.toUInt64, UInt64.toNat_ofNat']
    exact Nat.mod_eq_of_lt (by omega)
  have hcount : (n.toUInt64.toFloat).toModel.unpack =
      .finite .positive (leading n) (n.log2 - 52) (leading_pos hn) := by
    change (Float.Model.pack (UnpackedFloat.ofNat Format.binary64 n.toUInt64.toNat)).unpack = _
    rw [hword, model_ofNat hn h]
    exact unpack_pack _ _ hm (by omega) (by omega)
  have hfast : Float.ofNat n = n.toUInt64.toFloat * Float.ofBits 0x3FF0000000000000 := by
    change Float.ofScientific n false 0 = _
    rw [Float.ofScientific, dif_pos ⟨h, Nat.zero_le _⟩]
    rfl
  have hproduct := roundWithAccuracy_exact (k := 52) (e := (n.log2 : ℤ) - 52 + -52) hm (by omega)
    .positive (leading_pos hn)
  rw [hfast]
  change (Float.Model.pack (UnpackedFloat.mul Format.binary64 _ _)).unpack = _
  rw [hcount, unpack_one]
  change (Float.Model.pack (roundWithAccuracy Format.binary64 .positive _ _ .exact)).unpack = _
  rw [hproduct, unpack_pack _ _ hm (by omega) (by omega)]
  congr 1
  omega

/-- A larger count keeps its 53 leading bits. -/
theorem model_ofNat_of_le {n : ℕ} (h : 2 ^ 53 ≤ n) :
    ∃ r e hpos, (Float.ofNat n).toModel = Float.Model.pack (.finite .positive r e hpos) ∧
      r.log2 = 52 ∧ 1 ≤ e ∧ e ≤ n.log2 - 51 := by
  have hslow : (Float.ofNat n).toModel = Float.Model.ofScientific n 0 := by
    change (Float.ofScientific n false 0).toModel = _
    rw [Float.ofScientific, dif_neg (by omega)]
    rfl
  have hn : n ≠ 0 := by omega
  have hlog : 53 ≤ n.log2 := (Nat.le_log2 hn).mpr h
  have hm : (n * 2 ^ 53 * 1).log2 = 52 + (n.log2 + 1) := by
    rw [Nat.mul_one, log2_mul_two_pow hn]
    omega
  have hmodel : UnpackedFloat.ofScientific Format.binary64 n 0 =
      roundWithAccuracy Format.binary64 .positive (n * 2 ^ 53 * 1) (-53 + 0) .exact := by
    have hlarge : ¬ (0 : ℤ) < -(2 ^ Format.binary64.exponentBits + n.log2) := by
      change ¬ (0 : ℤ) < -(2 ^ 11 + n.log2)
      omega
    rw [UnpackedFloat.ofScientific, dif_neg hn, if_neg (by decide), if_neg hlarge,
      if_pos (le_refl 0), ← Nat.shiftLeft_eq]
    rfl
  obtain ⟨r, e, hpos, hround, hr, he⟩ := roundWithAccuracy_normal (e := -53 + 0) hm (by decide)
    .positive .exact
  refine ⟨r, e, hpos, ?_, hr, by omega, by omega⟩
  rw [hslow]
  change Float.Model.pack (UnpackedFloat.ofScientific Format.binary64 n 0) = _
  rw [hmodel, hround]

/-- A count beyond 2^53 has a double with 53 leading bits, or none. -/
theorem unpack_ofNat_of_le {n : ℕ} (h : 2 ^ 53 ≤ n) :
    (Float.ofNat n).toModel.unpack = .infinity .positive ∨
      ∃ r e hpos, (Float.ofNat n).toModel.unpack = .finite .positive r e hpos ∧
        r.log2 = 52 ∧ 1 ≤ e := by
  obtain ⟨r, e, hpos, hmodel, hr, he, _⟩ := model_ofNat_of_le h
  rw [hmodel]
  by_cases hhigh : e ≤ 971
  · rw [unpack_pack _ hpos hr (by omega) hhigh]
    exact Or.inr ⟨r, e, hpos, rfl, hr, he⟩
  · exact Or.inl (unpack_pack_of_lt _ hpos (by omega))

/-- A count of 64 bits is a double in normal form. -/
theorem unpack_ofNat_word {n : ℕ} (hn : 0 < n) (h : n < 2 ^ 64) :
    ∃ r e hpos, (Float.ofNat n).toModel.unpack = .finite .positive r e hpos ∧ r.log2 = 52 ∧
      -1074 ≤ e ∧ e ≤ 971 := by
  by_cases hsmall : n < 2 ^ 53
  · have hlog := log2_le_52 hsmall
    exact ⟨_, _, _, unpack_ofNat hn hsmall, log2_leading hn hlog, by omega, by omega⟩
  · obtain ⟨r, e, hpos, hmodel, hr, hlow, hhigh⟩ := model_ofNat_of_le (Nat.not_lt.mp hsmall)
    have hlog : n.log2 < 64 := (Nat.log2_lt hn.ne').mpr h
    rw [hmodel, unpack_pack _ hpos hr (by omega) (by omega)]
    exact ⟨r, e, hpos, rfl, hr, by omega, by omega⟩

theorem isFinite_ofNat {n : ℕ} (h : n < 2 ^ 64) : (Float.ofNat n).isFinite = true := by
  rcases Nat.eq_zero_or_pos n with rfl | hn
  · decide +kernel
  · obtain ⟨r, e, hpos, hunpack, _⟩ := unpack_ofNat_word hn h
    change (Float.ofNat n).toModel.unpack.isFinite = true
    rw [hunpack]
    rfl

theorem isFinite_neg_ofNat {n : ℕ} (h : n < 2 ^ 64) : (-Float.ofNat n).isFinite = true := by
  rcases Nat.eq_zero_or_pos n with rfl | hn
  · decide +kernel
  · obtain ⟨r, e, hpos, hunpack, hr, hlow, hhigh⟩ := unpack_ofNat_word hn h
    change (Float.Model.pack (Float.ofNat n).toModel.unpack.neg).unpack.isFinite = true
    rw [hunpack]
    change (Float.Model.pack (.finite .negative r e hpos)).unpack.isFinite = true
    rw [unpack_pack _ hpos hr hlow hhigh]
    rfl

/-! ### Quotients -/

theorem log2_quotient {m₁ m₂ : ℕ} (h₁ : m₁.log2 = 52) (h₂ : m₂.log2 = 52) :
    (m₁ * 2 ^ 53 / m₂).log2 = 52 + if m₁ < m₂ then 0 else 1 := by
  obtain ⟨hlow₁, hhigh₁⟩ := log2_eq_52_iff.mp h₁
  obtain ⟨hlow₂, hhigh₂⟩ := log2_eq_52_iff.mp h₂
  have hpos : 0 < m₂ := by omega
  have hq : m₁ * 2 ^ 53 / m₂ ≠ 0 :=
    (Nat.div_pos (by omega : m₂ ≤ m₁ * 2 ^ 53) hpos).ne'
  rw [Nat.log2_eq_iff hq, Nat.le_div_iff_mul_le hpos, Nat.div_lt_iff_lt_mul hpos]
  split <;> omega

/-- The exponent of a quotient is the difference of the exponents, less one when the first mantissa is
the smaller one, and one more when the quotient of the mantissas rounds up to two. -/
theorem div_normal {m₁ m₂ : ℕ} {e₁ e₂ : ℤ} (h₁ : 0 < m₁) (h₂ : 0 < m₂) (hm₁ : m₁.log2 = 52)
    (hm₂ : m₂.log2 = 52) (he : -1021 ≤ e₁ - e₂) :
    ∃ r e hpos, UnpackedFloat.div Format.binary64 (.finite .positive m₁ e₁ h₁)
        (.finite .positive m₂ e₂ h₂) = .finite .positive r e hpos ∧ r.log2 = 52 ∧
      (m₁ < m₂ → e = e₁ - e₂ - 53) ∧
      (m₂ ≤ m₁ → e = e₁ - e₂ - 52 ∨ e = e₁ - e₂ - 51 ∧ m₁ = 2 ^ 53 - 1) := by
  obtain ⟨hlow₁, hhigh₁⟩ := log2_eq_52_iff.mp hm₁
  obtain ⟨hlow₂, hhigh₂⟩ := log2_eq_52_iff.mp hm₂
  have htarget : Format.binary64.targetExponent (totalExponent m₁ e₁ - totalExponent m₂ e₂) =
      e₁ - e₂ - 53 := by
    simp only [Format.targetExponent, totalExponent, Format.mantissaBits, Format.minExponent, hm₁,
      hm₂]
    omega
  have hmin : min (e₁ - e₂) (e₁ - e₂ - 53) = e₁ - e₂ - 53 := by omega
  have hshift : (e₁ - e₂ - (e₁ - e₂ - 53)).toNat = 53 := by omega
  have hdiv : UnpackedFloat.div Format.binary64 (.finite .positive m₁ e₁ h₁)
      (.finite .positive m₂ e₂ h₂) =
      roundWithAccuracy Format.binary64 .positive (m₁ * 2 ^ 53 / m₂) (e₁ - e₂ - 53)
        (accuracyOfFraction (m₁ * 2 ^ 53 % m₂) m₂) := by
    simp only [UnpackedFloat.div, divCore, htarget, hmin, hshift, Nat.shiftLeft_eq]
    rfl
  obtain ⟨r, e, hpos, hround, hr, hexponent⟩ := roundWithAccuracy_normal (log2_quotient hm₁ hm₂)
    (by omega : -1074 ≤ e₁ - e₂ - 53) .positive (accuracyOfFraction (m₁ * 2 ^ 53 % m₂) m₂)
  refine ⟨r, e, hpos, hdiv.trans hround, hr, ?_, ?_⟩
  · intro hlt
    rw [if_pos hlt] at hexponent
    have hq : m₁ * 2 ^ 53 / m₂ < 2 ^ 53 - 1 := by
      rw [Nat.div_lt_iff_lt_mul h₂]
      omega
    omega
  · intro hle
    rw [if_neg (Nat.not_lt.mpr hle)] at hexponent
    refine hexponent.imp (fun h => by omega) ?_
    rintro ⟨h, hq⟩
    refine ⟨by omega, ?_⟩
    have hq : (2 ^ 53 - 1) * m₂ ≤ m₁ * 2 ^ 52 := by
      have hhalf : m₁ * 2 ^ 53 / m₂ / 2 ^ 1 = m₁ * 2 ^ 52 / m₂ := by
        rw [Nat.div_div_eq_div_mul, Nat.mul_comm m₂, ← Nat.div_div_eq_div_mul]
        congr 1
        omega
      rw [← Nat.le_div_iff_mul_le h₂, ← hhalf, hq]
    omega

theorem at?_one : at? 1 = some (place 1 (-52) (2 ^ 52)) := rfl

theorem at?_zero : at? 0 = some (place 0 0 0) := rfl

section Normal

variable {x : Float} {r : ℕ} {e : ℤ} {hpos : 0 < r}

theorem at?_of_unpack (hx : x.toModel.unpack = .finite .positive r e hpos) :
    at? x = some (place 1 e r) := by
  rw [at?, hx]
  rfl

theorem zero_lt_of_unpack (hx : x.toModel.unpack = .finite .positive r e hpos) : 0 < x :=
  lt_iff.mpr ⟨_, _, at?_zero, at?_of_unpack hx, place_lt_place (by decide)⟩

theorem lt_one_of_unpack (hx : x.toModel.unpack = .finite .positive r e hpos) (he : e < -52) :
    x < 1 := by
  refine lt_iff.mpr ⟨_, _, at?_of_unpack hx, at?_one, ?_⟩
  exact Prod.Lex.toLex_lt_toLex.mpr (Or.inr ⟨rfl, Prod.Lex.toLex_lt_toLex.mpr (Or.inl he)⟩)

theorem one_le_of_unpack (hx : x.toModel.unpack = .finite .positive r e hpos) (hr : r.log2 = 52)
    (he : -52 ≤ e) : 1 ≤ x := by
  refine le_iff.mpr ⟨_, _, at?_one, at?_of_unpack hx, ?_⟩
  refine Prod.Lex.toLex_le_toLex.mpr (Or.inr ⟨rfl, Prod.Lex.toLex_le_toLex.mpr ?_⟩)
  rcases he.lt_or_eq with hlt | heq
  · exact Or.inl hlt
  · exact Or.inr ⟨heq, Int.ofNat_le.mpr (log2_eq_52_iff.mp hr).1⟩

end Normal

theorem one_le_of_unpack_infinity {x : Float} (hx : x.toModel.unpack = .infinity .positive) :
    1 ≤ x := by
  refine le_iff.mpr ⟨_, place 2 0 0, at?_one, by rw [at?, hx]; rfl, ?_⟩
  exact (place_lt_place (by decide)).le

/-! ### Shares of a count -/

theorem unpack_div (x y : Float) :
    (x / y).toModel.unpack = (Float.Model.pack
      (UnpackedFloat.div Format.binary64 x.toModel.unpack y.toModel.unpack)).unpack := rfl

theorem leading_lt_leading {n m : ℕ} (h : n < m) (hlog : n.log2 = m.log2) :
    leading n < leading m := by
  rw [leading, leading, hlog]
  exact Nat.mul_lt_mul_of_pos_right h (Nat.two_pow_pos _)

theorem log2_le_log2 {n m : ℕ} (h : n ≤ m) : n.log2 ≤ m.log2 := by
  rw [Nat.log2_eq_log_two, Nat.log2_eq_log_two]
  exact Nat.log_mono_right h

/-- A share below one does not round up to one: a mantissa that would carry is odd, and a count
below 2^52 is shifted. -/
theorem unpack_share {n m : ℕ} (hn : 0 < n) (h : n < m) (hm : m ≤ 2 ^ 52) :
    ∃ r e hpos, (Float.ofNat n / Float.ofNat m).toModel.unpack = .finite .positive r e hpos ∧
      e < -52 := by
  have hlogm : m.log2 ≤ 52 := log2_le_52 (by omega)
  have hlogn : n.log2 ≤ m.log2 := log2_le_log2 h.le
  have hlow : n.log2 < 52 := (Nat.log2_lt hn.ne').mpr (by omega)
  obtain ⟨r, e, hpos, hdiv, hr, hless, hmore⟩ := div_normal (leading_pos hn)
    (leading_pos (hn.trans h)) (log2_leading hn hlow.le) (log2_leading (hn.trans h) hlogm)
    (by omega : -1021 ≤ (n.log2 - 52 : ℤ) - (m.log2 - 52))
  have heven : leading n ≠ 2 ^ 53 - 1 := by
    obtain ⟨j, hj⟩ := Nat.exists_eq_add_of_lt hlow
    have hshift : 52 - n.log2 = j + 1 := by omega
    rw [leading, hshift, Nat.pow_succ, ← Nat.mul_assoc]
    omega
  have hexponent : e < -52 ∧ -1074 ≤ e := by
    by_cases hmantissa : leading n < leading m
    · have := hless hmantissa
      omega
    · have hlog : n.log2 ≠ m.log2 := fun hlog => hmantissa (leading_lt_leading h hlog)
      have := hmore (Nat.not_lt.mp hmantissa)
      omega
  refine ⟨r, e, hpos, ?_, hexponent.1⟩
  rw [unpack_div, unpack_ofNat hn (by omega), unpack_ofNat (hn.trans h) (by omega), hdiv,
    unpack_pack _ hpos hr hexponent.2 (by omega)]

theorem one_le_of_div_normal {n : Float} {m : ℕ} {m₁ : ℕ} {e₁ : ℤ} {h₁ : 0 < m₁} (hm : 0 < m)
    (hbound : m ≤ 2 ^ 52) (hn : n.toModel.unpack = .finite .positive m₁ e₁ h₁)
    (hm₁ : m₁.log2 = 52) (he : (m.log2 : ℤ) - 52 ≤ e₁)
    (hmantissa : e₁ = m.log2 - 52 → leading m ≤ m₁) : 1 ≤ n / Float.ofNat m := by
  have hlogm : m.log2 ≤ 52 := log2_le_52 (by omega)
  obtain ⟨r, e, hpos, hdiv, hr, hless, hmore⟩ := div_normal h₁ (leading_pos hm) hm₁
    (log2_leading hm hlogm) (by omega : -1021 ≤ e₁ - (m.log2 - 52))
  have hexponent : -52 ≤ e := by
    by_cases hlt : m₁ < leading m
    · have hne : e₁ ≠ m.log2 - 52 := fun h => Nat.not_le.mpr hlt (hmantissa h)
      have := hless hlt
      omega
    · have := hmore (Nat.not_lt.mp hlt)
      omega
  have hvalue : (n / Float.ofNat m).toModel.unpack =
      (Float.Model.pack (.finite .positive r e hpos)).unpack := by
    rw [unpack_div, hn, unpack_ofNat hm (by omega), hdiv]
  by_cases hhigh : e ≤ 971
  · rw [unpack_pack _ hpos hr (by omega) hhigh] at hvalue
    exact one_le_of_unpack hvalue hr hexponent
  · rw [unpack_pack_of_lt _ hpos (by omega)] at hvalue
    exact one_le_of_unpack_infinity hvalue

theorem one_le_share {n m : ℕ} (hm : 0 < m) (h : m ≤ n) (hbound : m ≤ 2 ^ 52) :
    1 ≤ Float.ofNat n / Float.ofNat m := by
  have hlogm : m.log2 ≤ 52 := log2_le_52 (by omega)
  have hlog : m.log2 ≤ n.log2 := log2_le_log2 h
  by_cases hsmall : n < 2 ^ 53
  · refine one_le_of_div_normal hm hbound (unpack_ofNat (hm.trans_le h) hsmall)
      (log2_leading (hm.trans_le h) (log2_le_52 hsmall)) (by omega) fun heq => ?_
    have hlog : m.log2 = n.log2 := by omega
    rw [leading, leading, hlog]
    exact Nat.mul_le_mul_right _ h
  · rcases unpack_ofNat_of_le (Nat.not_lt.mp hsmall) with hn | ⟨r, e, hpos, hn, hr, he⟩
    · refine one_le_of_unpack_infinity ?_
      rw [unpack_div, hn, unpack_ofNat hm (by omega)]
      change (Float.Model.pack (.infinity .positive)).unpack = _
      rfl
    · exact one_le_of_div_normal hm hbound hn hr (by omega) (by omega)

end Double

instance : LawfulShare Float where
  zero_lt_share hn h hm :=
    let ⟨_, _, _, hshare, _⟩ := Double.unpack_share hn h hm
    Double.zero_lt_of_unpack hshare
  share_lt_one hn h hm :=
    let ⟨_, _, _, hshare, he⟩ := Double.unpack_share hn h hm
    Double.lt_one_of_unpack hshare he
  one_le_share := Double.one_le_share

end MarketVerdict
