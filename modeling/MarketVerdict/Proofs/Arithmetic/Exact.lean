import Mathlib.Algebra.Order.Floor.Ring
import Mathlib.Analysis.SpecialFunctions.Pow.Real
import Mathlib.Data.Rat.Sqrt
import MarketVerdict.Proofs.Arithmetic.Order

/-!
# Exact arithmetic

In an ordered field with whole parts nothing is rounded, every value is a number and none is
infinite. Roots and powers are those that the field has: all of them among the reals, and among the
fractions roots of squares and powers to whole exponents.
-/

namespace MarketVerdict

open Scalar

/-- The arithmetic of an ordered field. -/
@[reducible] def Scalar.exact (K : Type) [Field K] [LinearOrder K] [FloorRing K] (sqrt : K → K)
    (pow : K → K → K) : Scalar K where
  toZero := inferInstance
  toOne := inferInstance
  toNatCast := inferInstance
  toOfScientific := inferInstance
  toAdd := inferInstance
  toSub := inferInstance
  toMul := inferInstance
  toDiv := inferInstance
  toNeg := inferInstance
  toLT := inferInstance
  toLE := inferInstance
  toBEq := inferInstance
  ltDecidable := inferInstance
  leDecidable := inferInstance
  abs := fun x => max x (-x)
  sqrt := sqrt
  floor := fun x => ⌊x⌋
  pow := pow
  isFinite := fun _ => true
  least? := none
  greatest? := none

theorem lawfulScalar_exact (K : Type) [Field K] [LinearOrder K] [IsStrictOrderedRing K]
    [FloorRing K] (sqrt : K → K) (pow : K → K → K) : @LawfulScalar K (Scalar.exact K sqrt pow) :=
  letI := Scalar.exact K sqrt pow
  { le_trans := fun h h' => h.trans h'
    le_total := fun {x y} _ _ => le_total x y
    lt_iff_le_not_le := lt_iff_le_not_ge
    beq_iff_le_le := beq_iff_eq.trans le_antisymm_iff
    le_self_of_isFinite := fun {x} _ => le_refl x
    isFinite_of_between := fun _ _ _ _ => rfl
    isFinite_zero := rfl
    isFinite_one := rfl
    zero_le_one := zero_le_one }

noncomputable instance : Scalar ℝ := Scalar.exact ℝ Real.sqrt Real.rpow

instance : Scalar ℚ := Scalar.exact ℚ Rat.sqrt fun x y => x ^ ⌊y⌋

instance : LawfulScalar ℝ := lawfulScalar_exact ..

instance : LawfulScalar ℚ := lawfulScalar_exact ..

end MarketVerdict
