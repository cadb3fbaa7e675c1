import MarketVerdict.Decimal.Shortest

/-!
# Writing numbers

Three layouts are in use. `plain` stands inside sentences and names: the fewest digits, always
positional, without a point for whole numbers. `marked` stands for a number in a document: the same
digits, always with a point or an exponent, so that it reads back as a number that need not be
whole. `fixed` has a set number of places; the exact value is rounded to the nearest, a half goes to
the even neighbour, and the sign is kept even when every digit is zero.
-/

namespace MarketVerdict.Decimal

def zeros (n : Nat) : List Char := List.replicate n '0'

def natText (n : Nat) : String := String.ofList (numerals n)

def intText (i : Int) : String :=
  if i < 0 then "-" ++ natText i.natAbs else natText i.natAbs

/-- Digits with the point where the exponent puts it. -/
def Digits.positional (d : Digits) : List Char :=
  let cs := numerals d.digits
  if 0 ≤ d.exponent then cs ++ zeros d.exponent.toNat
  else
    let places := (-d.exponent).toNat
    if places < cs.length then cs.take (cs.length - places) ++ '.' :: cs.drop (cs.length - places)
    else '0' :: '.' :: zeros (places - cs.length) ++ cs

def signText (negative : Bool) : List Char := if negative then ['-'] else []

/-- The fewest digits that read back, positional, without a point for whole numbers. -/
def plain (x : Float) : String :=
  if x.isNaN then "NaN"
  else if x.isInf then (if x < 0 then "-inf" else "inf")
  else
    let b := Binary.ofFloat x
    String.ofList (signText b.negative ++ (shortest b).positional)

/-- The exponent of the leading digit, with the digits after it behind a point. -/
def Digits.scientific (d : Digits) : List Char :=
  let cs := numerals d.digits
  let e := d.exponent + cs.length - 1
  let tail := match cs.drop 1 with
    | [] => []
    | rest => '.' :: rest
  cs.take 1 ++ tail ++ 'e' :: (if e < 0 then ['-'] else ['+']) ++ numerals e.natAbs

/-- The fewest digits that read back: positional from `0.00001` up to below `1e+16`, always with a
point or an exponent. The sign of zero is dropped. -/
def marked (x : Float) : String :=
  let b := Binary.ofFloat x
  let d := shortest b
  let point := d.exponent + (numerals d.digits).length
  let body :=
    if d.digits = 0 then ['0', '.', '0']
    else if point ≤ -5 ∨ 16 < point then d.scientific
    else if 0 ≤ d.exponent then d.positional ++ ['.', '0']
    else d.positional
  String.ofList (signText (b.negative && d.digits != 0) ++ body)

/-- The natural number nearest to `num / den`; a half goes to the even neighbour. -/
def roundHalfEven (num den : Nat) : Nat :=
  let q := num / den
  let r := num % den
  if 2 * r < den then q
  else if den < 2 * r then q + 1
  else if q % 2 = 0 then q else q + 1

/-- The value with `places` digits behind the point; with `plus`, a sign in front of every value. -/
def fixed (places : Nat) (plus : Bool) (x : Float) : String :=
  let sign (negative : Bool) : List Char := if negative then ['-'] else if plus then ['+'] else []
  if x.isNaN then "NaN"
  else if x.isInf then String.ofList (sign (decide (x < 0)) ++ ['i', 'n', 'f'])
  else
    let b := Binary.ofFloat x
    let (num, den) := b.quotient
    let cs := numerals (roundHalfEven (num * tenTo places) den)
    let padded := zeros (places + 1 - cs.length) ++ cs
    let whole := padded.take (padded.length - places)
    let tail := if places = 0 then [] else '.' :: padded.drop (padded.length - places)
    String.ofList (sign b.negative ++ whole ++ tail)

end MarketVerdict.Decimal
