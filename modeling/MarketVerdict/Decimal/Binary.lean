/-!
# Finite binary values as exact numbers

A finite double is a sign, a natural mantissa and a power of two. `Binary.roundsTo` asks whether a
decimal lies among the reals that round to the value: from halfway to the value below to halfway to
the value above, the ends included exactly when the mantissa is even.
-/

namespace MarketVerdict.Decimal

def twoTo (k : Nat) : Nat := Nat.pow 2 k

def tenTo (k : Nat) : Nat := Nat.pow 10 k

/-- A finite value, up to its sign: `mantissa * 2 ^ exponent`. -/
structure Binary where
  negative : Bool
  mantissa : Nat
  exponent : Int
  /-- The gap below is half the gap above. -/
  narrowBelow : Bool
  deriving DecidableEq

namespace Binary

def ofBits (bits : UInt64) : Binary :=
  let scale := ((bits >>> 52) &&& 0x7FF).toNat
  let fraction := (bits &&& 0xFFFFFFFFFFFFF).toNat
  let negative := bits >>> 63 == 1
  if scale = 0 then
    ⟨negative, fraction, -1074, false⟩
  else
    ⟨negative, twoTo 52 + fraction, (scale : Int) - 1075, fraction == 0 && decide (1 < scale)⟩

/-- The value of a double that is neither infinite nor undefined. -/
def ofFloat (x : Float) : Binary := ofBits x.toBits

/-- The value without its sign, as a quotient of naturals. -/
def quotient (b : Binary) : Nat × Nat :=
  (b.mantissa * twoTo b.exponent.toNat, twoTo (-b.exponent).toNat)

end Binary

/-- The decimal `digits * 10 ^ exponent`. -/
structure Digits where
  digits : Nat
  exponent : Int
  deriving DecidableEq

/-- The order of `a * 10 ^ i` and `n * 2 ^ j`. -/
def compareScaled (a : Nat) (i : Int) (n : Nat) (j : Int) : Ordering :=
  compare (a * tenTo i.toNat * twoTo (-j).toNat) (n * twoTo j.toNat * tenTo (-i).toNat)

def Binary.roundsTo (b : Binary) (d : Digits) : Bool :=
  let low := if b.narrowBelow then 4 * b.mantissa - 1 else 4 * b.mantissa - 2
  let fromLow := compareScaled d.digits d.exponent low (b.exponent - 2)
  let fromHigh := compareScaled d.digits d.exponent (4 * b.mantissa + 2) (b.exponent - 2)
  let even := b.mantissa % 2 == 0
  (fromLow == .gt || (even && fromLow == .eq)) && (fromHigh == .lt || (even && fromHigh == .eq))

end MarketVerdict.Decimal
