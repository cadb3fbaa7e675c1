import MarketVerdict.Text.Blank

/-!
# Reading numbers

`readNat?` reads a natural number within a bound, with an optional plus sign. `readFloat?` reads a
decimal with an optional sign, point and exponent, rounded to the nearest double, or one of the
names of the infinities and of the undefined value in any case. Neither skips blanks.
-/

namespace MarketVerdict.Text

def digitValue? (c : Char) : Option Nat :=
  if '0' ≤ c ∧ c ≤ '9' then some (c.toNat - '0'.toNat) else none

def isDigit (c : Char) : Bool := (digitValue? c).isSome

/-- The number that a list of digits denotes, read on from `start`. -/
def digitsValue (start : Nat) (cs : List Char) : Nat :=
  cs.foldl (fun n c => 10 * n + (c.toNat - '0'.toNat)) start

def withoutPlus : List Char → List Char
  | '+' :: rest => rest
  | cs => cs

def readNat? (bound : Nat) (s : String) : Option Nat :=
  let cs := withoutPlus s.toList
  if cs.isEmpty ∨ ¬ cs.all isDigit ∨ bound < digitsValue 0 cs then none
  else some (digitsValue 0 cs)

theorem readNat?_le {bound : Nat} {s : String} {n : Nat} (h : readNat? bound s = some n) :
    n ≤ bound := by
  simp only [readNat?] at h
  split at h
  · simp at h
  · next hc =>
    simp only [Option.some.injEq] at h
    omega

/-- A decimal `coefficient * 10 ^ exponent` with its sign. -/
structure Scientific where
  negative : Bool
  coefficient : Nat
  exponent : Int
  deriving DecidableEq

/-- The nearest double. A decimal beyond `10 ^ 310` is infinite and one below `10 ^ -330` is zero
without being expanded. -/
def Scientific.toFloat (d : Scientific) : Float :=
  let bits : Int := Nat.log2 d.coefficient
  let x : Float :=
    if d.coefficient = 0 ∨ d.exponent + bits / 3 + 1 < -330 then 0
    else if 310 < d.exponent + bits * 3 / 10 then 1 / 0
    else Float.ofScientific d.coefficient (decide (d.exponent < 0)) d.exponent.natAbs
  if d.negative then -x else x

/-- An exponent mark, an optional sign and at least one digit; nothing at all is the exponent zero. -/
def readExponent? (cs : List Char) : Option Int :=
  match cs with
  | [] => some 0
  | mark :: rest =>
    if mark ≠ 'e' ∧ mark ≠ 'E' then none
    else
      let (negative, digits) := match rest with
        | '+' :: ds => (false, ds)
        | '-' :: ds => (true, ds)
        | ds => (false, ds)
      if digits.isEmpty ∨ ¬ digits.all isDigit then none
      else
        let n : Int := digitsValue 0 digits
        some (if negative then -n else n)

def readScientific? (negative : Bool) (cs : List Char) : Option Scientific := do
  let whole := cs.takeWhile isDigit
  let (fraction, rest) := match cs.dropWhile isDigit with
    | '.' :: r => (r.takeWhile isDigit, r.dropWhile isDigit)
    | r => ([], r)
  if whole.isEmpty && fraction.isEmpty then none
  let e ← readExponent? rest
  return ⟨negative, digitsValue (digitsValue 0 whole) fraction, e - fraction.length⟩

def readFloat? (s : String) : Option Float :=
  let (negative, cs) := match s.toList with
    | '+' :: rest => (false, rest)
    | '-' :: rest => (true, rest)
    | cs => (false, cs)
  let word := lowerLetters (String.ofList cs)
  if word = "inf" ∨ word = "infinity" then some (if negative then -1 / 0 else 1 / 0)
  else if word = "nan" then some (0 / 0)
  else (readScientific? negative cs).map Scientific.toFloat

end MarketVerdict.Text
