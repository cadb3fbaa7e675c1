/-!
# JSON values as they were written

Objects keep the order and the repetition of their fields. Two leaves record what a text failed to
say. `unreadable` is a literal of the right form that denotes no value: a number beyond the range of
doubles, or a string with half of a surrogate pair. `broken` marks the place where the text stops
being JSON; nothing follows it. A field whose name is `none` is one whose name could not be read.
-/

namespace MarketVerdict

/-- Whole numbers keep their value up to 64 bits; every other number is a double. -/
inductive Json.Number where
  | natural (n : Nat)
  | negative (n : Nat)
  | real (x : Float)
  deriving DecidableEq

inductive Json where
  | null
  | bool (b : Bool)
  | number (n : Json.Number)
  | text (s : String)
  | array (items : List Json)
  | object (fields : List (Option String × Json))
  | unreadable
  | broken

namespace Json

def Number.toFloat : Number → Float
  | natural n => Float.ofNat n
  | negative n => -Float.ofNat n
  | real x => x

def nat (n : Nat) : Json := number (.natural n)

/-- A double; one that is infinite or undefined has no number and is null. -/
def float (x : Float) : Json := if x.isFinite then number (.real x) else null

def record (fields : List (String × Json)) : Json :=
  object (fields.map fun f => (some f.1, f.2))

def list (items : List Json) : Json := array items

def texts (items : List String) : Json := array (items.map text)

/-- The value of the last field of this name. -/
def get? (name : String) : Json → Option Json
  | object fields => (fields.reverse.find? fun f => f.1 == some name).map (·.2)
  | _ => none

mutual

/-- The text breaks off inside this value. -/
def isBroken : Json → Bool
  | broken => true
  | array items => anyBroken items
  | object fields => anyFieldBroken fields
  | _ => false

def anyBroken : List Json → Bool
  | [] => false
  | j :: rest => isBroken j || anyBroken rest

def anyFieldBroken : List (Option String × Json) → Bool
  | [] => false
  | (_, j) :: rest => isBroken j || anyFieldBroken rest

end

/-- Fields with the last value of each name, in the order of their last occurrence. -/
def lastFields (fields : List (String × Json)) : List (String × Json) :=
  fields.foldr (fun f rest => if rest.any (·.1 == f.1) then rest else f :: rest) []

mutual

/-- The value itself, with each name at most once in every object, provided that all of it is
readable and containers lie at most `depth` deep. -/
def settled? (depth : Nat) : Json → Option Json
  | unreadable => none
  | broken => none
  | array items =>
    match depth with
    | 0 => none
    | depth + 1 => (settledItems? depth items).map array
  | object fields =>
    match depth with
    | 0 => none
    | depth + 1 => (settledFields? depth fields).map fun fs => record (lastFields fs)
  | j => some j

def settledItems? (depth : Nat) : List Json → Option (List Json)
  | [] => some []
  | j :: rest => do
    let j ← settled? depth j
    let rest ← settledItems? depth rest
    return j :: rest

def settledFields? (depth : Nat) : List (Option String × Json) → Option (List (String × Json))
  | [] => some []
  | (name, j) :: rest => do
    let name ← name
    let j ← settled? depth j
    let rest ← settledFields? depth rest
    return (name, j) :: rest

end

end Json

end MarketVerdict
