import MarketVerdict.Decimal.Binary

/-!
# The fewest digits that read back

`shortest` gives the decimal with the fewest digits among those that round to a value. Grids of one
digit, two digits and so on are tried in turn; on each the two neighbours of the value are tested.
Of two neighbours that both round to it the closer is taken, and the upper one on a tie.
-/

namespace MarketVerdict.Decimal

/-- The digits of a natural number in base ten, the first one first. -/
def numerals (n : Nat) : List Char := Nat.toDigits 10 n

/-- The least `k` with `b < 10 ^ k`, for a value other than zero. -/
def Binary.magnitude (b : Binary) : Int :=
  let (num, den) := b.quotient
  if den ≤ num then (numerals (num / den)).length
  else
    let inverse := (den + num - 1) / num
    1 - ((numerals (inverse - 1)).length : Int)

/-- The neighbours of the value on the grid of multiples of `10 ^ e`, and whether the upper one is
at least as close. -/
def Binary.neighbours (b : Binary) (e : Int) : Digits × Digits × Bool :=
  let (num, den) := b.quotient
  let n := num * tenTo (-e).toNat
  let d := den * tenTo e.toNat
  let below := n / d
  (⟨below, e⟩, ⟨below + 1, e⟩, decide ((2 * below + 1) * d ≤ 2 * n))

def Binary.onGrid? (b : Binary) (e : Int) : Option Digits :=
  let (below, above, upper) := b.neighbours e
  match b.roundsTo below, b.roundsTo above with
  | true, true => some (if upper then above else below)
  | true, false => some below
  | false, true => some above
  | false, false => none

/-- The same decimal without zeros at its end; `fuel` bounds their number. -/
def Digits.trimmed (d : Digits) : (fuel : Nat) → Digits
  | 0 => d
  | fuel + 1 =>
    if d.digits ≠ 0 ∧ d.digits % 10 = 0 then
      Digits.trimmed ⟨d.digits / 10, d.exponent + 1⟩ fuel
    else d

/-- The exact value: a power of two below one is a power of five over a power of ten. -/
def Binary.exact (b : Binary) : Digits :=
  ⟨b.mantissa * twoTo b.exponent.toNat * Nat.pow 5 (-b.exponent).toNat,
    -((-b.exponent).toNat : Int)⟩

/-- The shortest decimal that rounds to the value, up to its sign. -/
def shortest (b : Binary) : Digits :=
  if b.mantissa = 0 then ⟨0, 0⟩
  else
    let k := b.magnitude
    let found := (List.range 17).findSome? fun n => b.onGrid? (k - (n + 1 : Nat))
    (found.getD b.exact).trimmed 20

end MarketVerdict.Decimal
