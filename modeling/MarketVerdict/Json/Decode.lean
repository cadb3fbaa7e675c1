import MarketVerdict.Json.Parser

/-!
# Typed readings of JSON

A value is read in the order of its text, and the first fault decides. A field that a record does
not know is passed over as long as the text does not break off inside it. A known field may stand
only once; of a repeated name in a map the last value counts. A record may also stand as the list of
its values, of which the last ones can be missing. Null is a value for optional fields only.
-/

namespace MarketVerdict.Json

/-- Why a text gives no value: it is not JSON, or not of the wanted type. -/
inductive ReadFault where
  | malformed
  | mismatch
  deriving DecidableEq

abbrev Read (β : Type) := Json → Except ReadFault β

/-- What is wrong with a value that is not of the wanted type. -/
def fault : Json → ReadFault
  | unreadable => .malformed
  | broken => .malformed
  | _ => .mismatch

def readFloat : Read Float
  | number n => .ok n.toFloat
  | j => .error j.fault

/-- A whole number up to `bound`. -/
def readNat (bound : Nat) : Read Nat
  | number (.natural n) => if n ≤ bound then .ok n else .error .mismatch
  | j => .error j.fault

def readString : Read String
  | text s => .ok s
  | j => .error j.fault

def readBool : Read Bool
  | bool b => .ok b
  | j => .error j.fault

def readList {β : Type} (item : Read β) : Read (List β)
  | array items => items.mapM item
  | j => .error j.fault

def readOptional {β : Type} (value : Read β) : Read (Option β)
  | null => .ok none
  | j => (value j).map some

/-- A named value that is read and put into a record. -/
def field {σ β : Type} (name : String) (value : Read β) (put : σ → β → σ) :
    String × (σ → Read σ) :=
  (name, fun state j => (value j).map (put state))

/-- How the fields of a record are read into `σ`. -/
structure Schema (σ : Type) where
  /-- The names that the record knows with the readers of their values, in the order of a list. -/
  fields : List (String × (σ → Read σ))
  /-- Other names are faults. -/
  closed : Bool

def Schema.readFields {σ : Type} (schema : Schema σ) (seen : List String) (state : σ) :
    List (Option String × Json) → Except ReadFault σ
  | [] => .ok state
  | (none, _) :: _ => .error .malformed
  | (some name, j) :: rest =>
    match schema.fields.lookup name with
    | some read =>
      if name ∈ seen then .error .mismatch
      else
        match read state j with
        | .ok state => schema.readFields (name :: seen) state rest
        | .error e => .error e
    | none =>
      if schema.closed then .error .mismatch
      else if j.isBroken then .error .malformed
      else schema.readFields seen state rest

/-- Reads the values of a list as those of the given fields. -/
def readPlaces {σ : Type} : List (String × (σ → Read σ)) → σ → List Json → Except ReadFault σ
  | _, state, [] => .ok state
  | [], _, _ :: _ => .error .malformed
  | (_, read) :: fields, state, j :: rest =>
    match read state j with
    | .ok state => readPlaces fields state rest
    | .error e => .error e

def readRecord {σ : Type} (schema : Schema σ) (start : σ) : Read σ
  | object fields => schema.readFields [] start fields
  | array items => readPlaces schema.fields start items
  | j => .error j.fault

/-- A schema of which all fields are numbers, with how each is put into the record. -/
def numberSchema {σ : Type} (fields : List (String × (σ → Float → σ))) : Schema σ where
  fields := fields.map fun f => field f.1 readFloat f.2
  closed := false

/-- The entries of a map in the order of the text. -/
def readEntries {κ β : Type} (key : String → Option κ) (value : Read β) :
    List (Option String × Json) → Except ReadFault (List (κ × β))
  | [] => .ok []
  | (none, _) :: _ => .error .malformed
  | (some name, j) :: rest =>
    match key name with
    | none => .error .mismatch
    | some k =>
      match value j with
      | .error e => .error e
      | .ok v => (readEntries key value rest).map ((k, v) :: ·)

def readMap {κ β : Type} (key : String → Option κ) (value : Read β) : Read (List (κ × β))
  | object fields => readEntries key value fields
  | j => .error j.fault

/-- The value of a whole text, in which nothing but blanks may follow it. -/
def Document.read {β : Type} (d : Document) (value : Read β) : Except ReadFault β :=
  match value d.root with
  | .error e => .error e
  | .ok v => if d.trailing then .error .malformed else .ok v

/-- Demands a value that a record must hold. -/
def required {β : Type} : Option β → Except ReadFault β
  | some v => .ok v
  | none => .error .mismatch

end MarketVerdict.Json
