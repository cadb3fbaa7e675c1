import MarketVerdict.Direction
import MarketVerdict.Proofs.Arithmetic.Share

/-!
# Signs of doubles

Which way a double points: up when it lies above zero, down when it lies below, and nowhere when it is
a zero of either sign or not a number. Negation turns a double around, and dividing by an absolute
value keeps its direction unless the quotient vanishes or is not a number. What is computed from a
value that is not a number is not a number either.
-/

namespace MarketVerdict

namespace Double

open Float.Model Float.Model.UnpackedFloat Scalar

/-! ### Values that are read back -/

/-- A mantissa without its leading bit stands at the least exponent. -/
theorem unpack_pack_subnormal {m : ℕ} (s : Sign) (hpos : 0 < m) (hm : m < 2 ^ 52) :
    (Float.Model.pack (.finite s m (-1074) hpos)).unpack = .finite s m (-1074) hpos := by
  have hlog : m.log2 + 1 ≠ Format.binary64.mantissaBits := by
    have := (Nat.log2_lt hpos.ne').mpr hm
    change m.log2 + 1 ≠ 53
    omega
  have hmantissa : (BitVec.ofNat 52 m).toNat = m := Nat.mod_eq_of_lt hm
  have hne : BitVec.ofNat 52 m ≠ 0#52 := fun h => by
    rw [h] at hmantissa
    exact hpos.ne hmantissa
  have hpack : UnpackedFloat.pack Format.binary64 (.finite s m (-1074) hpos) =
      packComponents Format.binary64 s 0#11 (BitVec.ofNat 52 m) := by
    simp only [UnpackedFloat.pack, if_neg hlog]
    rfl
  change UnpackedFloat.unpack Format.binary64 (UnpackedFloat.pack Format.binary64 _) = _
  rw [hpack]
  simp only [UnpackedFloat.unpack, unpackExponent_packComponents, unpackMantissa_packComponents,
    sign_packComponents]
  rw [if_neg (by decide), if_pos trivial, dif_neg hne]
  simp only [hmantissa]
  rfl

theorem log2_implicit_append (v : BitVec 52) : (1#1 ++ v).toNat.log2 = 52 := by
  have hvalue : (1#1 ++ v).toNat = 2 ^ 52 + v.toNat := by
    rw [BitVec.toNat_append, ← Nat.shiftLeft_add_eq_or_of_lt v.isLt]
    rfl
  have := v.isLt
  rw [log2_eq_52_iff, hvalue]
  omega

/-- What is read from the bits of a double can be written and read again, with either sign. -/
theorem unpack_pack_of_unpack {x : Float} {s : Sign} {m : ℕ} {e : ℤ} {hpos : 0 < m}
    (hx : x.toModel.unpack = .finite s m e hpos) (s' : Sign) :
    (Float.Model.pack (.finite s' m e hpos)).unpack = .finite s' m e hpos := by
  change UnpackedFloat.unpack Format.binary64 x.toModel.toBits.toBitVec = _ at hx
  generalize x.toModel.toBits.toBitVec = bits at hx
  let exponent : BitVec 11 := @unpackExponent Format.binary64 bits
  let mantissa : BitVec 52 := @unpackMantissa Format.binary64 bits
  simp only [UnpackedFloat.unpack] at hx
  split at hx
  · split at hx <;> cases hx
  · next hfinite =>
    split at hx
    · next hzero =>
      split at hx
      · cases hx
      · cases hx
        rw [hzero]
        exact unpack_pack_subnormal s' _ mantissa.isLt
    · next hnonzero =>
      cases hx
      have hlow : exponent.toNat ≠ 0 := fun h => hnonzero (BitVec.eq_of_toNat_eq h)
      have hhigh : exponent.toNat ≠ 2047 := fun h => hfinite (BitVec.eq_of_toNat_eq h)
      have hbound : exponent.toNat < 2048 := exponent.isLt
      exact unpack_pack s' _ (log2_implicit_append mantissa)
        (show (-1074 : ℤ) ≤ exponent.toNat - 1075 by omega)
        (show (exponent.toNat : ℤ) - 1075 ≤ 971 by omega)

theorem unpack_neg (x : Float) : (-x).toModel.unpack = x.toModel.unpack.neg := by
  change (Float.Model.pack x.toModel.unpack.neg).unpack = _
  cases hx : x.toModel.unpack with
  | notANumber => rfl
  | infinity s | zero s => cases s <;> rfl
  | finite s m e hpos => exact unpack_pack_of_unpack hx (-s)

theorem unpack_abs (x : Float) : (Scalar.abs x).toModel.unpack = x.toModel.unpack.abs := by
  change (Float.Model.pack x.toModel.unpack.abs).unpack = _
  cases hx : x.toModel.unpack with
  | notANumber => rfl
  | infinity s | zero s => cases s <;> rfl
  | finite s m e hpos => exact unpack_pack_of_unpack hx .positive

/-! ### Directions -/

def Sign.direction : Sign → Direction
  | .negative => .bearish
  | .positive => .bullish

/-- Where a value lies from zero. -/
def direction : UnpackedFloat → Direction
  | .notANumber => .neutral
  | .infinity s => Sign.direction s
  | .zero _ => .neutral
  | .finite s .. => Sign.direction s

theorem zero_lt_iff {x : Float} : 0 < x ↔ direction x.toModel.unpack = .bullish := by
  rw [lt_iff, at?_zero, at?]
  cases x.toModel.unpack with
  | notANumber => simp [place?, direction]
  | zero s => simp [place?, direction]
  | infinity s => cases s <;> simp [place?, direction, Sign.direction] <;> decide
  | finite s m e hpos =>
    cases s with
    | negative => simpa [place?, direction, Sign.direction] using (place_lt_place (by decide)).le
    | positive => simpa [place?, direction, Sign.direction] using place_lt_place (by decide)

theorem lt_zero_iff {x : Float} : x < 0 ↔ direction x.toModel.unpack = .bearish := by
  rw [lt_iff, at?_zero, at?]
  cases x.toModel.unpack with
  | notANumber => simp [place?, direction]
  | zero s => simp [place?, direction]
  | infinity s => cases s <;> simp [place?, direction, Sign.direction] <;> decide
  | finite s m e hpos =>
    cases s with
    | negative => simpa [place?, direction, Sign.direction] using place_lt_place (by decide)
    | positive => simpa [place?, direction, Sign.direction] using (place_lt_place (by decide)).le

theorem ofSign_eq (x : Float) : Direction.ofSign x = direction x.toModel.unpack := by
  rw [Direction.ofSign]
  simp only [zero_lt_iff, lt_zero_iff]
  cases direction x.toModel.unpack <;> rfl

theorem isNaN_iff {x : Float} : Scalar.isNaN x = true ↔ x.toModel.unpack = .notANumber := by
  have hbeq : (x == x) = true ↔ (at? x).isSome = true := by
    simp only [beq_iff, and_self, Option.isSome_iff_exists]
  rw [Scalar.isNaN, Bool.not_eq_true', ← Bool.not_eq_true, hbeq, at?]
  cases x.toModel.unpack with
  | notANumber | zero s => simp [place?]
  | infinity s | finite s m e hpos => cases s <;> simp [place?]

/-- What points nowhere and is not a zero is not a number. -/
theorem isNaN_of_neutral {x : Float} (h : Direction.ofSign x = .neutral)
    (hx : ¬ Scalar.abs x ≤ 0) : Scalar.isNaN x = true := by
  rw [ofSign_eq] at h
  rw [isNaN_iff]
  cases hunpack : x.toModel.unpack with
  | notANumber => rfl
  | infinity s | finite s m e hpos =>
    rw [hunpack] at h
    cases s <;> cases h
  | zero s =>
    refine absurd (le_iff.mpr ⟨place 0 0 0, place 0 0 0, ?_, rfl, le_rfl⟩) hx
    rw [at?, unpack_abs, hunpack]
    rfl

theorem ofSign_neg_eq_neutral_iff {x : Float} :
    Direction.ofSign (-x) = .neutral ↔ Direction.ofSign x = .neutral := by
  rw [ofSign_eq, ofSign_eq, unpack_neg]
  cases x.toModel.unpack with
  | notANumber | zero s => exact Iff.rfl
  | infinity s | finite s m e hpos => cases s <;> exact iff_of_false nofun nofun

theorem isNaN_abs {x : Float} (h : Scalar.isNaN x = true) : Scalar.isNaN (Scalar.abs x) = true := by
  rw [isNaN_iff] at h ⊢
  rw [unpack_abs, h]
  rfl

theorem isNaN_div {x : Float} (h : Scalar.isNaN x = true) (y : Float) :
    Scalar.isNaN (x / y) = true := by
  rw [isNaN_iff] at h ⊢
  rw [unpack_div, h, UnpackedFloat.div]
  rfl

theorem isNaN_add {x : Float} (h : Scalar.isNaN x = true) (y : Float) :
    Scalar.isNaN (x + y) = true := by
  rw [isNaN_iff] at h ⊢
  change (Float.Model.pack (UnpackedFloat.add Format.binary64 x.toModel.unpack _)).unpack = _
  rw [h, UnpackedFloat.add]
  rfl

/-! ### Quotients -/

/-- Points one way, or nowhere. -/
def Keeps (d : Direction) (a : UnpackedFloat) : Prop := direction a = d ∨ direction a = .neutral

theorem keeps_unpack_packComponents (s : Sign) (e : BitVec 11) (m : BitVec 52) :
    Keeps (Sign.direction s) (UnpackedFloat.unpack Format.binary64
      (packComponents Format.binary64 s e m)) := by
  simp only [UnpackedFloat.unpack, unpackExponent_packComponents, unpackMantissa_packComponents,
    sign_packComponents]
  split
  · split
    · exact Or.inl rfl
    · exact Or.inr rfl
  · split
    · split
      · exact Or.inr rfl
      · exact Or.inl rfl
    · exact Or.inl rfl

/-- Writing a value may lose its direction and does not turn it around. -/
theorem Keeps.pack {d : Direction} {a : UnpackedFloat} (h : Keeps d a) :
    Keeps d (Float.Model.pack a).unpack := by
  rcases h with rfl | hneutral
  · change Keeps _ (UnpackedFloat.unpack Format.binary64 (UnpackedFloat.pack Format.binary64 a))
    cases a with
    | notANumber => exact Or.inr rfl
    | zero s => cases s <;> exact Or.inr rfl
    | infinity s => exact keeps_unpack_packComponents s _ _
    | finite s m e hpos =>
      simp only [UnpackedFloat.pack]
      split
      · exact keeps_unpack_packComponents s _ _
      · split <;> exact keeps_unpack_packComponents s _ _
  · cases a with
    | notANumber => exact Or.inr rfl
    | zero s => cases s <;> exact Or.inr rfl
    | infinity s | finite s m e hpos => cases s <;> cases hneutral

theorem keeps_roundWithAccuracy (s : Sign) (m : ℕ) (e : ℤ) (a : Accuracy) :
    Keeps (Sign.direction s) (roundWithAccuracy Format.binary64 s m e a) := by
  rw [roundWithAccuracy]
  dsimp only
  split
  · exact Or.inr rfl
  · exact Or.inl rfl

theorem div_positive (s : Sign) : s / Sign.positive = s := by cases s <;> rfl

theorem keeps_div_abs (a b : UnpackedFloat) :
    Keeps (direction a) (UnpackedFloat.div Format.binary64 a b.abs) := by
  cases a with
  | notANumber => exact Or.inr rfl
  | zero s => cases b <;> exact Or.inr rfl
  | infinity s =>
    cases b with
    | notANumber | infinity s' => exact Or.inr rfl
    | zero s' | finite s' m' e' hpos' => exact Or.inl (congrArg Sign.direction (div_positive s))
  | finite s m e hpos =>
    cases b with
    | notANumber | infinity s' => exact Or.inr rfl
    | zero s' => exact Or.inl (congrArg Sign.direction (div_positive s))
    | finite s' m' e' hpos' =>
      change Keeps (Sign.direction s) (roundWithAccuracy Format.binary64 (s / Sign.positive) _ _ _)
      rw [div_positive]
      exact keeps_roundWithAccuracy s _ _ _

/-- A quotient by an absolute value points the same way, or nowhere. -/
theorem ofSign_div_abs (x y : Float) :
    Direction.ofSign (x / Scalar.abs y) = Direction.ofSign x ∨
      Direction.ofSign (x / Scalar.abs y) = .neutral := by
  rw [ofSign_eq, ofSign_eq, unpack_div, unpack_abs]
  exact (keeps_div_abs _ _).pack

end Double

end MarketVerdict
