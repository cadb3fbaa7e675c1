import MarketVerdict.Json.Basic
import MarketVerdict.Text.Number

/-!
# Reading JSON

`Json.parse` reads any text. Where the text stops being JSON the value holds `broken`, and what was
read before stays in place, so that a reader of the value can tell which fault comes first.
-/

namespace MarketVerdict.Json

open Text

/-- A whole text: its value, and whether something other than blanks follows it. -/
structure Document where
  root : Json
  trailing : Bool

def isGap (c : Char) : Bool := c = ' ' || c = '\n' || c = '\t' || c = '\r'

def skipGaps (cs : List Char) : List Char := cs.dropWhile isGap

def hexValue? (c : Char) : Option Nat :=
  if '0' ≤ c ∧ c ≤ '9' then some (c.toNat - '0'.toNat)
  else if 'a' ≤ c ∧ c ≤ 'f' then some (c.toNat - 'a'.toNat + 10)
  else if 'A' ≤ c ∧ c ≤ 'F' then some (c.toNat - 'A'.toNat + 10)
  else none

def unit? (a b c d : Char) : Option Nat := do
  let a ← hexValue? a
  let b ← hexValue? b
  let c ← hexValue? c
  let d ← hexValue? d
  return ((a * 16 + b) * 16 + c) * 16 + d

def escaped? : Char → Option Nat
  | '"' => some 0x22
  | '\\' => some 0x5C
  | '/' => some 0x2F
  | 'b' => some 0x08
  | 'f' => some 0x0C
  | 'n' => some 0x0A
  | 'r' => some 0x0D
  | 't' => some 0x09
  | _ => none

/-- The code points and escaped units of a string up to its closing quote, and what follows. -/
def stringUnits (found : List Nat) : List Char → Option (List Nat × List Char)
  | '"' :: rest => some (found.reverse, rest)
  | '\\' :: 'u' :: a :: b :: c :: d :: rest =>
    match unit? a b c d with
    | some u => stringUnits (u :: found) rest
    | none => none
  | '\\' :: e :: rest =>
    match escaped? e with
    | some u => stringUnits (u :: found) rest
    | none => none
  | c :: rest => if c.toNat < 0x20 then none else stringUnits (c.toNat :: found) rest
  | [] => none

def isLead (u : Nat) : Bool := decide (0xD800 ≤ u) && decide (u < 0xDC00)

def isTrail (u : Nat) : Bool := decide (0xDC00 ≤ u) && decide (u < 0xE000)

/-- The characters of a list of units; half of a surrogate pair is no character. -/
def pairUnits? : List Nat → Option (List Char)
  | [] => some []
  | u :: v :: rest =>
    if isLead u && isTrail v then
      (pairUnits? rest).map (Char.ofNat (0x10000 + (u - 0xD800) * 0x400 + (v - 0xDC00)) :: ·)
    else if isLead u || isTrail u then none
    else (pairUnits? (v :: rest)).map (Char.ofNat u :: ·)
  | [u] => if isLead u || isTrail u then none else some [Char.ofNat u]

/-- A string after its opening quote: its text where it has one, and what follows. -/
def readText? (cs : List Char) : Option (Option String × List Char) :=
  (stringUnits [] cs).map fun (units, rest) => ((pairUnits? units).map String.ofList, rest)

def wholeNumber (negative : Bool) (n : Nat) : Json :=
  if negative then
    if 0 < n ∧ n ≤ 9223372036854775808 then number (.negative n)
    else number (.real (Scientific.mk true n 0).toFloat)
  else if n ≤ 18446744073709551615 then number (.natural n)
  else number (.real (Scientific.mk false n 0).toFloat)

def realNumber (d : Scientific) : Json :=
  let x := d.toFloat
  if x.isFinite then number (.real x) else unreadable

/-- The digits behind a point, if a point follows. -/
def readFraction? : List Char → Option (Option (List Char) × List Char)
  | '.' :: rest =>
    let digits := rest.takeWhile isDigit
    if digits.isEmpty then none else some (some digits, rest.dropWhile isDigit)
  | cs => some (none, cs)

/-- The power of ten, if an exponent mark follows. -/
def readPower? : List Char → Option (Option Int × List Char)
  | [] => some (none, [])
  | mark :: rest =>
    if mark ≠ 'e' ∧ mark ≠ 'E' then some (none, mark :: rest)
    else
      let (negative, rest) := match rest with
        | '+' :: r => (false, r)
        | '-' :: r => (true, r)
        | r => (false, r)
      let digits := rest.takeWhile isDigit
      if digits.isEmpty then none
      else
        let n : Int := digitsValue 0 digits
        some (some (if negative then -n else n), rest.dropWhile isDigit)

def readNumber? (cs : List Char) : Option (Json × List Char) := do
  let (negative, cs) := match cs with
    | '-' :: rest => (true, rest)
    | cs => (false, cs)
  let whole := cs.takeWhile isDigit
  if whole.isEmpty || (whole.head? == some '0' && whole.length != 1) then none
  let (fraction, rest) ← readFraction? (cs.dropWhile isDigit)
  let (power, rest) ← readPower? rest
  match fraction, power with
  | none, none =>
    let j := wholeNumber negative (digitsValue 0 whole)
    match j with
    | number (.real x) => return (if x.isFinite then j else unreadable, rest)
    | j => return (j, rest)
  | fraction, power =>
    let digits := fraction.getD []
    let coefficient := digitsValue (digitsValue 0 whole) digits
    return (realNumber ⟨negative, coefficient, power.getD 0 - digits.length⟩, rest)

def readWord? (word : List Char) (j : Json) (cs : List Char) : Option (Json × List Char) :=
  if word.isPrefixOf cs then some (j, cs.drop word.length) else none

/-- A value and what follows it; nothing follows a text that breaks off. -/
abbrev Reading := Json × Option (List Char)

def ofLiteral : Option (Json × List Char) → Reading
  | some (j, rest) => (j, some rest)
  | none => (broken, none)

def ofText : Option (Option String × List Char) → Reading
  | some (some s, rest) => (text s, some rest)
  | some (none, rest) => (unreadable, some rest)
  | none => (broken, none)

mutual

/-- A value at the head of a text that starts with no blank; `fuel` bounds the steps left. -/
def readValue : (fuel : Nat) → List Char → Reading
  | 0, _ => (broken, none)
  | fuel + 1, cs =>
    match cs with
    | '{' :: rest =>
      match skipGaps rest with
      | '}' :: rest => (object [], some rest)
      | rest =>
        let (fields, rest) := readFields fuel rest
        (object fields, rest)
    | '[' :: rest =>
      match skipGaps rest with
      | ']' :: rest => (array [], some rest)
      | rest =>
        let (items, rest) := readItems fuel rest
        (array items, rest)
    | '"' :: rest => ofText (readText? rest)
    | 't' :: _ => ofLiteral (readWord? ['t', 'r', 'u', 'e'] (bool true) cs)
    | 'f' :: _ => ofLiteral (readWord? ['f', 'a', 'l', 's', 'e'] (bool false) cs)
    | 'n' :: _ => ofLiteral (readWord? ['n', 'u', 'l', 'l'] null cs)
    | cs => ofLiteral (readNumber? cs)

/-- The items of an array that is not empty, up to its bracket. -/
def readItems : (fuel : Nat) → List Char → List Json × Option (List Char)
  | 0, _ => ([broken], none)
  | fuel + 1, cs =>
    match readValue fuel cs with
    | (j, none) => ([j], none)
    | (j, some rest) =>
      match skipGaps rest with
      | ']' :: rest => ([j], some rest)
      | ',' :: rest =>
        let (items, rest) := readItems fuel (skipGaps rest)
        (j :: items, rest)
      | _ => ([j, broken], none)

/-- The fields of an object that is not empty, up to its brace. -/
def readFields : (fuel : Nat) → List Char → List (Option String × Json) × Option (List Char)
  | 0, _ => ([(none, broken)], none)
  | fuel + 1, cs =>
    match cs with
    | '"' :: rest =>
      match readText? rest with
      | none => ([(none, broken)], none)
      | some (name, rest) =>
        match skipGaps rest with
        | ':' :: rest =>
          match readValue fuel (skipGaps rest) with
          | (j, none) => ([(name, j)], none)
          | (j, some rest) =>
            match skipGaps rest with
            | '}' :: rest => ([(name, j)], some rest)
            | ',' :: rest =>
              let (fields, rest) := readFields fuel (skipGaps rest)
              ((name, j) :: fields, rest)
            | _ => ([(name, j), (none, broken)], none)
        | _ => ([(name, broken)], none)
    | _ => ([(none, broken)], none)

end

def parse (s : String) : Document :=
  let cs := skipGaps s.toList
  match readValue (2 * cs.length + 2) cs with
  | (j, none) => ⟨j, false⟩
  | (j, some rest) => ⟨j, ¬ (skipGaps rest).isEmpty⟩

end MarketVerdict.Json
