import MarketVerdict.Attribution
import MarketVerdict.Average
import MarketVerdict.Choice
import MarketVerdict.Config
import MarketVerdict.Config.Document
import MarketVerdict.Counters
import MarketVerdict.Curve
import MarketVerdict.Decimal.Binary
import MarketVerdict.Decimal.Layout
import MarketVerdict.Decimal.Shortest
import MarketVerdict.Desk
import MarketVerdict.Direction
import MarketVerdict.Environment
import MarketVerdict.Explanation
import MarketVerdict.Fault
import MarketVerdict.Fusion
import MarketVerdict.Indicator.Basic
import MarketVerdict.Indicator.Crossover
import MarketVerdict.Indicator.Envelope
import MarketVerdict.Indicator.OnBalance
import MarketVerdict.Indicator.Range
import MarketVerdict.Indicator.Rsi
import MarketVerdict.Json.Basic
import MarketVerdict.Json.Decode
import MarketVerdict.Json.Parser
import MarketVerdict.Json.Printer
import MarketVerdict.Market
import MarketVerdict.Normalizer
import MarketVerdict.Portfolio
import MarketVerdict.Profile
import MarketVerdict.Profile.Registry
import MarketVerdict.Proofs.Arithmetic.Double
import MarketVerdict.Proofs.Arithmetic.Exact
import MarketVerdict.Proofs.Arithmetic.Order
import MarketVerdict.Proofs.Arithmetic.Real
import MarketVerdict.Proofs.Arithmetic.Rounding
import MarketVerdict.Proofs.Arithmetic.Share
import MarketVerdict.Proofs.Arithmetic.Sums
import MarketVerdict.Proofs.Average.Affine
import MarketVerdict.Proofs.Choice.Asking
import MarketVerdict.Proofs.Choice.Identity
import MarketVerdict.Proofs.Choice.Isolation
import MarketVerdict.Proofs.Choice.Listing
import MarketVerdict.Proofs.Choice.Repetition
import MarketVerdict.Proofs.Config.RoundTrip
import MarketVerdict.Proofs.Config.Sufficiency
import MarketVerdict.Proofs.Config.Written
import MarketVerdict.Proofs.Decimal.Characters
import MarketVerdict.Proofs.Fusion.Evidence
import MarketVerdict.Proofs.Fusion.Reference
import MarketVerdict.Proofs.Fusion.Shape
import MarketVerdict.Proofs.Fusion.Silence
import MarketVerdict.Proofs.Fusion.Unanimity
import MarketVerdict.Proofs.Fusion.Verdict
import MarketVerdict.Proofs.Indicator.Totality
import MarketVerdict.Proofs.Json.Finite
import MarketVerdict.Proofs.Json.Records
import MarketVerdict.Proofs.Json.Written
import MarketVerdict.Proofs.Lookback.Coverage
import MarketVerdict.Proofs.Lookback.Stability
import MarketVerdict.Proofs.Lookback.Windows
import MarketVerdict.Proofs.Portfolio.Advice
import MarketVerdict.Proofs.Positions.Averages
import MarketVerdict.Proofs.Positions.Indicators
import MarketVerdict.Proofs.Profile.Precedence
import MarketVerdict.Proofs.Profile.Weights
import MarketVerdict.Proofs.Replay.Agreement
import MarketVerdict.Proofs.Replay.Justification
import MarketVerdict.Proofs.Replay.Ledger
import MarketVerdict.Proofs.Replay.Lookahead
import MarketVerdict.Proofs.Replay.Stops
import MarketVerdict.Proofs.Replay.Technical
import MarketVerdict.Proofs.Rescaling.Indicators
import MarketVerdict.Proofs.Rescaling.Replay
import MarketVerdict.Proofs.Rescaling.Signals
import MarketVerdict.Proofs.Selection.RoundTrip
import MarketVerdict.Proofs.Selection.Trimming
import MarketVerdict.Proofs.Selection.Writing
import MarketVerdict.Proofs.Table
import MarketVerdict.Proofs.Traversal
import MarketVerdict.Provider
import MarketVerdict.Reading
import MarketVerdict.Recommendation
import MarketVerdict.Replay
import MarketVerdict.Request
import MarketVerdict.Results
import MarketVerdict.Scalar
import MarketVerdict.Selection
import MarketVerdict.Series
import MarketVerdict.Service
import MarketVerdict.Service.MediaType
import MarketVerdict.Service.Response
import MarketVerdict.Service.Route
import MarketVerdict.Service.Startup
import MarketVerdict.Service.Target
import MarketVerdict.Signal
import MarketVerdict.Source
import MarketVerdict.Table
import MarketVerdict.Technical
import MarketVerdict.Text.Blank
import MarketVerdict.Text.Number
import MarketVerdict.Text.Percent
import MarketVerdict.Time.Calendar
import MarketVerdict.Time.Instant
import MarketVerdict.Time.Stamp
import MarketVerdict.Tool
import MarketVerdict.Proofs.Fusion.Accounting
import MarketVerdict.Proofs.Fusion.Strengthening
import MarketVerdict.Proofs.Reflection.Indicators
import MarketVerdict.Proofs.Reflection.Signals
import MarketVerdict.Proofs.Json.Settled
import MarketVerdict.Proofs.Service.Arguments
import MarketVerdict.Proofs.Service.Surfaces
import MarketVerdict.Proofs.Arithmetic.Signs
import MarketVerdict.Proofs.Fusion.Faults
import MarketVerdict.Proofs.Normalizer.Admission
import MarketVerdict.Proofs.Crossover.Beginnings
import MarketVerdict.Proofs.Crossover.Freshness
import MarketVerdict.Proofs.Service.Questions
import MarketVerdict.Proofs.Service.Metrics
import MarketVerdict.Proofs.Curve.Accepted
import MarketVerdict.Proofs.Curve.Strength
import MarketVerdict.Proofs.Curve.Bands
import MarketVerdict.Proofs.Indicator.Share
import MarketVerdict.Proofs.Average.Forgetting
import MarketVerdict.Proofs.Indicator.Range
import MarketVerdict.Proofs.Indicator.Envelope
import MarketVerdict.Proofs.Average.Impulse
import MarketVerdict.Proofs.Indicator.Plunge
import MarketVerdict.Proofs.Normalizer.Voice
import MarketVerdict.Proofs.Replay.Returns
import MarketVerdict.Proofs.Average.Pointwise
import MarketVerdict.Proofs.Fusion.Proportion
import MarketVerdict.Proofs.Fusion.Mirror
import MarketVerdict.Proofs.Series.Construction
import MarketVerdict.Proofs.Series.Provenance
