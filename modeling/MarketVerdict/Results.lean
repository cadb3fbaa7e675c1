import MarketVerdict.Config.Document
import MarketVerdict.Replay
import MarketVerdict.Time.Stamp

/-!
# Results as JSON

A field without a value is left out, times are written as stamps, and a number that is not finite is
null.
-/

namespace MarketVerdict

open Json

/-- The field of a value that may be missing. -/
def optionalField {β : Type} (name : String) (encode : β → Json) (value : Option β) :
    List (String × Json) :=
  match value with
  | some v => [(name, encode v)]
  | none => []

def Instant.encode (t : Instant) : Json := text t.stamp

def Params.encode (p : Params Float) : Json :=
  let parameters := match p with
    | .rsi period => [("period", nat period)]
    | .williamsR period => [("period", nat period)]
    | .obv period => [("period", nat period)]
    | .stochastic kPeriod dPeriod => [("k_period", nat kPeriod), ("d_period", nat dPeriod)]
    | .macd fast slow signal => [("fast", nat fast), ("slow", nat slow), ("signal", nat signal)]
    | .smaCross fast slow => [("fast", nat fast), ("slow", nat slow)]
    | .emaCross fast slow => [("fast", nat fast), ("slow", nat slow)]
    | .bollinger period width => [("period", nat period), ("std_dev", float width)]
  record (("indicator", text p.indicator.name) :: parameters)

def Raw.encode : Raw Float → Json
  | .level value => record [("shape", text "level"), ("value", float value)]
  | .spread fast slow reference crossed =>
    record [("shape", text "spread"), ("fast", float fast), ("slow", float slow),
      ("reference", float reference),
      ("crossed", (crossed.map fun d => text d.name).getD null)]
  | .band price lower middle upper =>
    record [("shape", text "band"), ("price", float price), ("lower", float lower),
      ("middle", float middle), ("upper", float upper)]
  | .flow delta scale =>
    record [("shape", text "flow"), ("delta", float delta), ("scale", float scale)]

def Measured.name : Measured Float → String
  | .missing => "missing"
  | .invalid => "invalid"
  | .present _ => "present"

def Measured.encode (m : Measured Float) : Json :=
  let raw := match m with
    | .present raw => [("raw", raw.encode)]
    | _ => []
  record (("status", text m.name) :: raw)

namespace Signal

def fields (s : Signal Float) : List (String × Json) :=
  [("indicator", text s.indicator), ("kind", text s.kind.name),
    ("direction", text s.direction.name), ("magnitude", float s.magnitude),
    ("reliability", float s.reliability)]

def encode (s : Signal Float) : Json := record s.fields

end Signal

def Status.encode : Status → Json
  | .included => text "included"
  | .excluded reason => record [("excluded", text reason.name)]

def Attribution.encode (a : Attribution Float) : Json :=
  record (a.signal.fields ++ [("status", a.status.encode)] ++
    optionalField "base_weight" float a.baseWeight ++
    [("effective_weight", float a.effectiveWeight), ("contribution", float a.contribution)])

namespace Verdict

/-- What a verdict says, apart from when it was made. -/
def fields (v : Verdict Float) : List (String × Json) :=
  optionalField "instrument" text v.instrument ++ optionalField "price" float v.price ++
    [("composite_score", float v.score), ("recommendation", text v.recommendation.name),
      ("confidence", float v.confidence), ("agreement", float v.agreement),
      ("total_weight", float v.totalWeight), ("insufficient_evidence", bool v.insufficient),
      ("profile", text v.profile), ("attribution", list (v.attribution.map Attribution.encode))]

def encode (v : Verdict Float) : Json :=
  record (v.fields ++ [("evaluated_at", v.evaluatedAt.encode)])

end Verdict

def Trade.encode (t : Trade Float) : Json :=
  record [("timestamp", t.time.encode), ("side", text t.side.name), ("price", float t.price),
    ("quantity", float t.quantity), ("composite_score", float t.score)]

def Report.encode (r : Report Float) : Json :=
  record ([("instrument", text r.instrument), ("profile", text r.profile),
      ("initial_capital", float r.initialCapital), ("final_capital", float r.finalCapital),
      ("total_return_percent", float r.totalReturnPercent),
      ("cagr_percent", float r.cagrPercent), ("total_trades", nat r.totalTrades),
      ("warmup", nat r.warmup), ("bars_evaluated", nat r.barsEvaluated)] ++
    optionalField "start" Instant.encode r.start ++ optionalField "end" Instant.encode r.finish ++
    [("trades", list (r.trades.map Trade.encode))])

end MarketVerdict
