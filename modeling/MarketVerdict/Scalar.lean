/-!
# The arithmetic of prices and weights

Every numeric definition of the library is written once over `Scalar`, the operations and order
tests that indicators, curves, fusion and replays need. `Float` is the arithmetic that runs; an
ordered field with square roots is one in which the exact laws hold.

A value that differs from itself is not a number. `larger` and `smaller` pass over such a value,
and `clampUnit` and `clampSigned` send it to zero.
-/

namespace MarketVerdict

/-- The arithmetic that prices, levels and weights are computed in. -/
class Scalar (α : Type) extends Zero α, One α, NatCast α, OfScientific α,
    Add α, Sub α, Mul α, Div α, Neg α, LT α, LE α, BEq α where
  ltDecidable : DecidableLT α
  leDecidable : DecidableLE α
  abs : α → α
  sqrt : α → α
  floor : α → α
  pow : α → α → α
  isFinite : α → Bool
  /-- The least value that is not infinite, in an arithmetic that has one. -/
  least? : Option α
  /-- The greatest value that is not infinite, in an arithmetic that has one. -/
  greatest? : Option α

attribute [reducible, instance] Scalar.ltDecidable Scalar.leDecidable

instance (priority := low) Scalar.instOfNat {α : Type} [Scalar α] {n : Nat} : OfNat α n where
  ofNat := Nat.cast (OfNat.ofNat n)

instance Scalar.natCastFloat : NatCast Float where
  natCast := Float.ofNat

instance Scalar.ofFloat : Scalar Float where
  zero := 0
  one := 1
  ltDecidable := inferInstance
  leDecidable := inferInstance
  abs := Float.abs
  sqrt := Float.sqrt
  floor := Float.floor
  pow := Float.pow
  isFinite := Float.isFinite
  least? := some (-1.7976931348623157e308)
  greatest? := some 1.7976931348623157e308

namespace Scalar

variable {α : Type} [Scalar α]

def isNaN (x : α) : Bool := !(x == x)

def larger (x y : α) : α := if x < y || isNaN x then y else x

def smaller (x y : α) : α := if y < x || isNaN x then y else x

/-- The nearest value to `x` between `lo` and `hi`. -/
def clamp (x lo hi : α) : α := if x < lo then lo else if hi < x then hi else x

def clampUnit (x : α) : α := if isNaN x then 0 else clamp x 0 1

def clampSigned (x : α) : α := if isNaN x then 0 else clamp x (-1) 1

def inUnit (x : α) : Bool := isFinite x && decide (0 ≤ x) && decide (x ≤ 1)

/-- The sum from left to right. -/
def sum (xs : List α) : α := xs.foldl (· + ·) 0

/-- The largest of the values, counted from `seed` where there is one. -/
def largest? (seed : Option α) (xs : List α) : Option α :=
  match seed, xs with
  | some m, xs => some (xs.foldl larger m)
  | none, [] => none
  | none, x :: xs => some (xs.foldl larger x)

/-- The smallest of the values, counted from `seed` where there is one. -/
def smallest? (seed : Option α) (xs : List α) : Option α :=
  match seed, xs with
  | some m, xs => some (xs.foldl smaller m)
  | none, [] => none
  | none, x :: xs => some (xs.foldl smaller x)

@[simp] theorem sum_nil : sum ([] : List α) = 0 := rfl

theorem sum_append_singleton (xs : List α) (x : α) : sum (xs ++ [x]) = sum xs + x := by
  simp [sum]

theorem largest?_isSome_cons (seed : Option α) (x : α) (xs : List α) :
    (largest? seed (x :: xs)).isSome := by
  cases seed <;> rfl

theorem smallest?_isSome_cons (seed : Option α) (x : α) (xs : List α) :
    (smallest? seed (x :: xs)).isSome := by
  cases seed <;> rfl

end Scalar

end MarketVerdict
