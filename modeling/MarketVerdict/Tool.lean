import MarketVerdict.Desk
import MarketVerdict.Results

/-!
# Tools

The desk's two services as named tools with described arguments. A tool refuses arguments that it
does not know, and a blank instrument, before it asks the desk.
-/

namespace MarketVerdict

open Json

inductive Tool where
  | fuseSignals
  | runBacktest
  deriving DecidableEq

inductive ArgumentFault where
  /-- The arguments do not have the form that the tool describes. -/
  | undecodable
  | blankInstrument
  deriving DecidableEq

inductive ToolError where
  | unknownTool (name : String)
  | invalidArguments (fault : ArgumentFault)
  | fusion (cause : FusionError Float)

inductive ToolOutput where
  | verdict (v : Verdict Float)
  | report (r : Report Float)

def ArgumentFault.message : ArgumentFault → String
  | undecodable => "the arguments do not match the schema of the tool"
  | blankInstrument => "instrument must not be empty"

def ToolError.message : ToolError → String
  | unknownTool name => "unknown tool '" ++ name ++ "'"
  | invalidArguments fault => "invalid arguments: " ++ fault.message
  | fusion cause => cause.message

def ToolOutput.encode : ToolOutput → Json
  | verdict v => v.encode
  | report r => r.encode

namespace Tool

def name : Tool → String
  | fuseSignals => "fuse_signals"
  | runBacktest => "run_backtest"

def all : List Tool := [fuseSignals, runBacktest]

def ofName? (s : String) : Option Tool := all.find? fun t => t.name == s

theorem ofName?_name (t : Tool) : ofName? t.name = some t := by cases t <;> decide

def description : Tool → String
  | fuseSignals =>
    "Fuse technical indicator readings for an instrument into one buy/sell/hold recommendation " ++
      "with confidence and per-indicator attribution."
  | runBacktest =>
    "Replay signal fusion over an instrument's stored history, trading buy/sell recommendations " ++
      "long/flat, and report final capital, total return, CAGR and trades."

/-- What a text argument means. -/
def textProperty (description : String) : Json :=
  record [("type", text "string"), ("description", text description)]

def selectionsProperty (description : String) : Json :=
  record [("type", text "array"), ("items", record [("type", text "string")]),
    ("description", text description)]

def instrumentProperty : Json := textProperty "Instrument identifier, e.g. BTC-USD"

def profileProperty : Json :=
  textProperty "Weighting profile name. Defaults to the configured default profile."

def capitalProperty : Json :=
  record [("type", text "number"), ("exclusiveMinimum", nat 0),
    ("description", text "Starting cash. Defaults to 10000.")]

def properties : Tool → Json
  | fuseSignals =>
    record [("instrument", instrumentProperty),
      ("indicators", selectionsProperty
        ("Indicator selections such as rsi:14, macd:12,26,9 or sma_cross:50,200. " ++
          "Defaults to the configured set.")),
      ("profile", profileProperty)]
  | runBacktest =>
    record [("instrument", instrumentProperty),
      ("indicators",
        selectionsProperty "Indicator selections. Defaults to the configured set."),
      ("profile", profileProperty), ("initial_capital", capitalProperty)]

/-- The schema of the arguments. -/
def inputSchema (t : Tool) : Json :=
  record [("type", text "object"), ("properties", t.properties),
    ("required", texts ["instrument"]), ("additionalProperties", bool false)]

def definition (t : Tool) : Json :=
  record [("name", text t.name), ("description", text t.description),
    ("input_schema", t.inputSchema)]

def definitions : Json := list (all.map definition)

/-- The names of the arguments. -/
def argumentNames : Tool → List String
  | fuseSignals => ["instrument", "indicators", "profile"]
  | runBacktest => ["instrument", "indicators", "profile", "initial_capital"]

/-- A request with its instrument, unless it is blank. -/
def withInstrument {β : Type} (instrument : String) (request : β) : Except ToolError β :=
  if Text.isBlankText instrument then .error (.invalidArguments .blankInstrument)
  else .ok request

def readArguments {β : Type} (read : Read β) (arguments : Json) : Except ToolError β :=
  (read arguments).mapError fun _ => .invalidArguments .undecodable

def readEvaluation (arguments : Json) : Except ToolError EvaluationRequest := do
  let request ←
    readArguments (EvaluationRequest.readWith fuseSignals.argumentNames true) arguments
  withInstrument request.instrument request

def readReplay (arguments : Json) : Except ToolError ReplayRequest := do
  let request ← readArguments (ReplayRequest.readWith runBacktest.argumentNames true) arguments
  withInstrument request.instrument request

def call (d : Desk) (t : Tool) (arguments : Json) (time : Instant) (source : Source) :
    Except ToolError ToolOutput × Source :=
  match t with
  | fuseSignals =>
    match readEvaluation arguments with
    | .error e => (.error e, source)
    | .ok request =>
      let (answer, source) := d.evaluate request time source
      ((answer.mapError ToolError.fusion).map ToolOutput.verdict, source)
  | runBacktest =>
    match readReplay arguments with
    | .error e => (.error e, source)
    | .ok request =>
      let (answer, source) := d.backtest request source
      ((answer.mapError ToolError.fusion).map ToolOutput.report, source)

/-- The answer of the tool of a name, if there is one. -/
def invoke (d : Desk) (name : String) (arguments : Json) (time : Instant) (source : Source) :
    Except ToolError ToolOutput × Source :=
  match ofName? name with
  | some t => t.call d arguments time source
  | none => (.error (.unknownTool name), source)

end Tool

end MarketVerdict
