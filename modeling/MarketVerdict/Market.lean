import MarketVerdict.Config.Document
import MarketVerdict.Series
import MarketVerdict.Time.Stamp

/-!
# Market data

A store keeps one series for each instrument and serves its latest bars. A store can be read from a
text that lists the bars of every instrument.
-/

namespace MarketVerdict

open Json

inductive MarketError where
  | notFound (instrument : String)
  /-- Asking again may help. -/
  | unavailable (reason : String)
  | invalidSeries (cause : SeriesError)
  | load (reason : String)

namespace MarketError

def message : MarketError → String
  | notFound instrument => "instrument '" ++ instrument ++ "' not found"
  | unavailable reason => "market data unavailable: " ++ reason
  | invalidSeries cause => cause.message
  | load reason => "failed to load market data: " ++ reason

def isTransient : MarketError → Bool
  | unavailable _ => true
  | _ => false

/-- The failure of a request that needed the data. -/
def toFusionError {α : Type} : MarketError → FusionError α
  | notFound instrument => .instrumentNotFound instrument
  | e => .marketData e.message

end MarketError

def readInstant : Read Instant := fun j => do
  match Stamp.read? (← readString j) with
  | some t => return t
  | none => .error .mismatch

namespace Bar

structure Draft where
  time : Option Instant
  numbers : Assignment String Float

def schema : Schema Draft where
  fields :=
    (field "timestamp" readInstant fun d t => { d with time := some t }) ::
      ["open", "high", "low", "close", "volume"].map fun name =>
        field name readFloat fun d x => { d with numbers := d.numbers.set name x }
  closed := false

def read : Read (Bar Float) := fun j => do
  let d ← readRecord schema ⟨none, Assignment.none⟩ j
  return ⟨← required d.time, ← required (d.numbers "open"), ← required (d.numbers "high"),
    ← required (d.numbers "low"), ← required (d.numbers "close"), ← required (d.numbers "volume")⟩

end Bar

/-- Series by instrument. -/
abbrev Store := Table (Series Float)

namespace Store

def put (store : Store) (s : Series Float) : Store := store.insert s.instrument s

/-- The latest `limit` bars of an instrument. -/
def latest (store : Store) (instrument : String) (limit : Nat) :
    Except MarketError (Series Float) :=
  match store.get? instrument with
  | some s => .ok (s.tail limit)
  | none => .error (.notFound instrument)

/-- The store of a text with the bars of every instrument. -/
def load (content : String) : Except MarketError Store := do
  match (parse content).read (Table.read (readList Bar.read)) with
  | .error _ => .error (.load "not a list of bars for each instrument")
  | .ok bars =>
    bars.entries.foldlM (fun store entry => do
      let s ← (Series.ofBars entry.1 entry.2).mapError .invalidSeries
      return store.put s) Table.empty

/-- The store of a file that may be given and may be missing. -/
def loadFile : Option (Option String) → Except MarketError Store
  | none => .ok Table.empty
  | some none => .error (.load "no such file")
  | some (some content) => load content

end Store

end MarketVerdict
