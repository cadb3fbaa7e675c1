import MarketVerdict.Text.Blank

/-!
# Media types

The type of a body: a main type, a slash, a subtype that may end in a suffix behind a plus sign, and
parameters, each behind a semicolon, whose values are tokens or quoted. Blanks may precede a
parameter and follow a quoted value, and stand nowhere else. Letters have no case.
-/

namespace MarketVerdict

structure MediaType where
  main : String
  /-- The subtype up to its last plus sign. -/
  sub : String
  suffix : Option String
  deriving DecidableEq

namespace MediaType

def tokenSigns : List Char :=
  ['!', '#', '$', '%', '&', '\x27', '*', '+', '-', '.', '^', '_', '\x60', '|', '~']

def isToken (c : Char) : Bool := c.isAlphanum || tokenSigns.contains c

/-- A character that may stand between quotes. -/
def isQuotable (c : Char) : Bool := decide (0x1F < c.toNat) && decide (c.toNat < 0x7F)

/-- What follows a quoted value and its closing quote. A value has a first character, which may itself
be a quote, and runs to the next quote; no character escapes another. -/
def afterQuoted : List Char → Option (List Char)
  | [] => none
  | first :: rest =>
    if isQuotable first then
      match rest.dropWhile fun c => isQuotable c && c != '"' with
      | '"' :: rest => some rest
      | _ => none
    else none

/-- What follows the value of a parameter and its separator. -/
def afterValue (cs : List Char) : Option (List Char) :=
  match cs with
  | '"' :: rest => do
    match (← afterQuoted rest).dropWhile (· = ' ') with
    | [] => some []
    | ';' :: rest => some rest
    | _ => none
  | cs =>
    match cs.dropWhile isToken with
    | [] => some []
    | ';' :: rest => if cs.head? = some ';' then none else some rest
    | _ => none

/-- The text is a list of parameters; `fuel` bounds their number. -/
def isParameters : (fuel : Nat) → List Char → Bool
  | 0, _ => false
  | fuel + 1, cs =>
    match cs.dropWhile (· = ' ') with
    | [] => true
    | cs =>
      match cs.takeWhile isToken, cs.dropWhile isToken with
      | _ :: _, '=' :: rest =>
        match afterValue rest with
        | some rest => isParameters fuel rest
        | none => false
      | _, _ => false

/-- The subtype and its suffix, if there is a plus sign behind the first character. -/
def ofSubtype (main : String) (sub : List Char) : MediaType :=
  let tail := (sub.reverse.takeWhile (· ≠ '+')).reverse
  let length := sub.length - tail.length - 1
  if 1 ≤ length ∧ tail.length < sub.length then
    ⟨main, String.ofList (sub.take length), some (String.ofList tail)⟩
  else ⟨main, String.ofList sub, none⟩

def parse? (s : String) : Option MediaType :=
  let cs := (Text.lowerLetters s).toList
  match cs.takeWhile isToken, cs.dropWhile isToken with
  | c :: main, '/' :: rest =>
    let sub := rest.takeWhile isToken
    let found := ofSubtype (String.ofList (c :: main)) sub
    match rest.dropWhile isToken with
    | [] => some found
    | ';' :: parameters =>
      if sub ≠ [] ∧ isParameters (parameters.length + 1) parameters then some found else none
    | _ => none
  | _, _ => none

/-- The body is JSON, or of a format that is written in JSON. -/
def isJson (m : MediaType) : Bool :=
  m.main == "application" && (m.sub == "json" || m.suffix == some "json")

end MediaType

end MarketVerdict
