/-!
# Percent escapes

A byte may be written as a percent sign and two hexadecimal digits. A percent sign without two such
digits after it stands for itself.
-/

namespace MarketVerdict.Text

def hexDigitValue? (b : UInt8) : Option UInt8 :=
  if 48 ≤ b ∧ b ≤ 57 then some (b - 48)
  else if 97 ≤ b ∧ b ≤ 102 then some (b - 87)
  else if 65 ≤ b ∧ b ≤ 70 then some (b - 55)
  else none

def unescapeBytes : List UInt8 → List UInt8
  | [] => []
  | [b] => [b]
  | [b, c] => [b, c]
  | b :: c :: d :: rest =>
    if b = 37 then
      match hexDigitValue? c, hexDigitValue? d with
      | some hi, some lo => (16 * hi + lo) :: unescapeBytes rest
      | _, _ => b :: unescapeBytes (c :: d :: rest)
    else b :: unescapeBytes (c :: d :: rest)

/-- The text without escapes, if its bytes are one. -/
def unescape? (s : String) : Option String :=
  String.fromUTF8? ⟨(unescapeBytes s.toUTF8.toList).toArray⟩

end MarketVerdict.Text
