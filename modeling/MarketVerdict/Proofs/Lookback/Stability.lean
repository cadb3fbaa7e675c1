import Mathlib
import MarketVerdict.Proofs.Choice.Asking
import MarketVerdict.Proofs.Curve.Bands
import MarketVerdict.Proofs.Fusion.Shape
import MarketVerdict.Proofs.Lookback.Windows

/-!
# The stable lookback is enough

For the indicators that look at a window of bars, the stable lookback covers all that the last value
and its crossing can depend on. As many of the latest bars give the value that the whole history
gives, at full reliability, so that a verdict on such indicators does not depend on how many more bars
were fetched. The other indicators smooth over all bars, and for them the lookback is a convention.
-/

namespace MarketVerdict

open Scalar Traversal

/-- The indicators that look at a window of bars. -/
def Indicator.windowed : Indicator → Bool
  | stochastic | williamsR | bollinger | smaCross | obv => true
  | rsi | macd | emaCross => false

namespace Series

variable {s : Series ℝ} {n : ℕ}

theorem last?_tail (hpos : 0 < n) (hn : n ≤ s.length) : (s.tail n).last? = s.last? :=
  getLast?_drop ((Nat.sub_sub_self hn).symm ▸ hpos)

end Series

namespace Technical

/-- The latest bars, as many as the stable lookback, have the value of the whole history. -/
theorem raw_tail {params : Params ℝ} (hvalid : params.Valid)
    (hwindowed : params.indicator.windowed = true) {s : Series ℝ} {n : ℕ}
    (h : params.stableLookback ≤ n) (hn : n ≤ s.length) :
    raw params (s.tail n) = raw params s := by
  have hbars : s.bars.length - (s.length - n) = n := Nat.sub_sub_self hn
  have hcloses : s.closes.length - (s.length - n) = n := by
    rwa [Series.closes, List.length_map]
  have htail : (s.tail n).closes = s.closes.drop (s.length - n) := List.map_drop
  cases params with
  | rsi | macd | emaCross => cases hwindowed
  | stochastic kPeriod dPeriod =>
    rw [raw, raw, Series.tail_bars, stochastic_drop hvalid.1 hvalid.2 (hbars.symm ▸ h)]
  | williamsR period =>
    rw [raw, raw, Series.tail_bars, williamsR_drop hvalid (hbars.symm ▸ h)]
  | smaCross fast slow =>
    rw [raw, raw, htail, smaCross_drop hvalid.1 hvalid.2 (hcloses.symm ▸ h)]
  | bollinger period width =>
    rw [raw, raw, Series.last?_tail (Nat.lt_of_lt_of_le hvalid.1 h) hn, htail,
      bollinger_drop (hcloses.symm ▸ h)]
  | obv period =>
    have hhistory : period + 1 ≤ s.bars.length - (s.length - n) := by
      have : 2 * period + 1 ≤ n := h
      omega
    obtain ⟨x, hx⟩ := exists_onBalance_drop hvalid hhistory
    rw [raw, raw, Series.tail_bars, hx, Option.map_map]
    refine congrArg (Option.map · _) (funext fun v => ?_)
    exact congrArg (Raw.flow · _) (add_sub_add_right_eq_sub _ _ x).symm

/-- A long enough history gives a reading with a value. -/
theorem exists_reading {spec : Spec ℝ} (hvalid : spec.params.Valid) {s : Series ℝ}
    (h : spec.params.minHistory ≤ s.length) :
    ∃ value, raw spec.params s = some value ∧
      reading spec s = ⟨spec.id, .present value, s.length, spec.params.stableLookback⟩ := by
  obtain ⟨value, hvalue, hreading⟩ := exists_reading_of_le hvalid h
  refine ⟨value, hvalue, ?_⟩
  rw [hreading, Reading.present, Measured.ofRaw_real]

/-- The two readings, of the latest bars and of the whole history, differ in the size of their samples
only. -/
theorem exists_reading_tail {spec : Spec ℝ} (hvalid : spec.params.Valid)
    (hwindowed : spec.indicator.windowed = true) {s : Series ℝ} {n : ℕ}
    (h : spec.params.stableLookback ≤ n) (hn : n ≤ s.length) :
    ∃ value,
      reading spec (s.tail n) = ⟨spec.id, .present value, n, spec.params.stableLookback⟩ ∧
      reading spec s = ⟨spec.id, .present value, s.length, spec.params.stableLookback⟩ := by
  have hlength : (s.tail n).length = n := by rw [Series.length_tail, Nat.min_eq_left hn]
  have hmin : spec.params.minHistory ≤ n := spec.params.minHistory_le_stableLookback.trans h
  obtain ⟨value, hvalue, hwhole⟩ := exists_reading hvalid (hmin.trans hn)
  obtain ⟨value', hvalue', htail⟩ := exists_reading hvalid (hmin.trans hlength.ge)
  rw [raw_tail hvalid hwindowed h hn, hvalue] at hvalue'
  cases hvalue'
  exact ⟨value, by rw [htail, hlength], hwhole⟩

end Technical

theorem Reading.coverage_of_stable {r : Reading ℝ} (h : r.stableLookback ≤ r.sampleSize) :
    r.coverage = 1 := by
  unfold coverage
  split
  · rfl
  next hzero =>
  rw [smaller_real, min_eq_right]
  rw [one_le_div (Nat.cast_pos.mpr (Nat.pos_of_ne_zero hzero))]
  exact Nat.cast_le.mpr h

namespace Normalizer

/-- The signal of a value from a history that reached the stable lookback. -/
theorem signal_of_stable (n : Normalizer ℝ) (spec : Spec ℝ) (value : Raw ℝ) {size : ℕ}
    (h : spec.params.stableLookback ≤ size) :
    n.signal ⟨spec.id, .present value, size, spec.params.stableLookback⟩ spec =
      match (n.strategy spec.kind).bind fun place => place spec.indicator value with
      | none => .error (.unsupportedReading spec.id spec.kind)
      | some placement => .ok (settle spec placement 1) := by
  have hcoverage : Reading.coverage (α := ℝ)
      ⟨spec.id, .present value, size, spec.params.stableLookback⟩ = 1 :=
    Reading.coverage_of_stable h
  rw [signal, if_neg (not_not_intro rfl), hcoverage]
  dsimp only
  cases (n.strategy spec.kind).bind fun place => place spec.indicator value <;> rfl

theorem reliability_of_stable {n : Normalizer ℝ} {spec : Spec ℝ} {value : Raw ℝ} {size : ℕ}
    (h : spec.params.stableLookback ≤ size) {signal : Signal ℝ}
    (hsignal : n.signal ⟨spec.id, .present value, size, spec.params.stableLookback⟩ spec =
      .ok signal) : signal.reliability = 1 := by
  rw [signal_of_stable n spec value h] at hsignal
  split at hsignal
  · cases hsignal
  · cases hsignal
    exact clampUnit_of_mem ⟨zero_le_one, le_rfl⟩

/-- At an end of its bands, and on a history that reached the stable lookback, an oscillator speaks
without reserve. -/
theorem signal_of_end {curves : Curves ℝ} {spec : Spec ℝ} {bands : OscillatorBands ℝ}
    (hkind : spec.kind = .oscillator) (hbands : curves.oscillators spec.indicator = some bands)
    {s : Series ℝ} (hstable : spec.params.stableLookback ≤ s.length) {level : ℝ} {d : Direction}
    (hlevel : Technical.raw spec.params s = some (.level level))
    (hplace : bands.place level = (d, 1)) :
    (ofCurves curves).signal (Technical.reading spec s) spec =
      .ok ⟨spec.id, .oscillator, d, 1, 1⟩ := by
  have hreading : Technical.reading spec s =
      ⟨spec.id, .present (.level level), s.length, spec.params.stableLookback⟩ := by
    rw [Technical.reading_of_raw (spec.params.minHistory_le_stableLookback.trans hstable) hlevel,
      Reading.present, Measured.ofRaw_real]
  have hstrategy : (((ofCurves curves).strategy spec.kind).bind fun place =>
      place spec.indicator (.level level)) = some (d, 1) := by
    simp only [ofCurves, hkind, Option.bind_some, Curves.strategy, hbands, Option.map_some, hplace]
  have hone : (1 : ℝ) ∈ Set.Icc 0 1 := ⟨zero_le_one, le_rfl⟩
  rw [hreading, signal_of_stable _ spec _ hstable, hstrategy]
  dsimp only
  rw [settle_of_mem spec d hone, if_neg one_ne_zero, clampUnit_of_mem hone, hkind]

variable (n : Normalizer ℝ) {spec : Spec ℝ} {s : Series ℝ} {size : ℕ}

theorem signal_tail (hvalid : spec.params.Valid) (hwindowed : spec.indicator.windowed = true)
    (h : spec.params.stableLookback ≤ size) (hsize : size ≤ s.length) :
    n.signal (Technical.reading spec (s.tail size)) spec =
      n.signal (Technical.reading spec s) spec := by
  obtain ⟨value, htail, hwhole⟩ := Technical.exists_reading_tail hvalid hwindowed h hsize
  rw [htail, hwhole, signal_of_stable n spec value h, signal_of_stable n spec value (h.trans hsize)]

end Normalizer

/-- A verdict on window indicators does not see more bars than the longest lookback among them. -/
theorem Context.verdict_tail {context : Context ℝ} {choices : List (Choice ℝ)}
    (hchoices : ∀ spec ∈ Choice.specs choices,
      spec.params.Valid ∧ spec.indicator.windowed = true)
    {n : ℕ} (hpos : 0 < n)
    (h : ∀ spec ∈ Choice.specs choices, spec.params.stableLookback ≤ n) (s : Series ℝ)
    (timeout : ℕ) (profile : Profile ℝ) (time : Instant) :
    context.verdict Provider.technical timeout choices profile (s.tail n) time =
      context.verdict Provider.technical timeout choices profile s time := by
  rcases Nat.le_total s.length n with hlength | hlength
  · rw [Series.tail_of_length_le hlength]
  have hsignals : Choice.signals context.normalizer
        (Choice.asked Provider.technical (s.tail n) choices) =
      Choice.signals context.normalizer (Choice.asked Provider.technical s choices) := by
    rw [Choice.signals, Choice.signals, Choice.asked, Choice.asked, List.mapM_map, List.mapM_map]
    refine mapM_congr fun choice hchoice => ?_
    cases choice with
    | degraded id kind => rfl
    | valid spec =>
      have hspec : spec ∈ Choice.specs choices :=
        List.mem_filterMap.mpr ⟨.valid spec, hchoice, rfl⟩
      obtain ⟨hvalid, hwindowed⟩ := hchoices spec hspec
      exact context.normalizer.signal_tail hvalid hwindowed (h spec hspec) hlength
  rw [verdict_of_total Provider.total_technical, verdict_of_total Provider.total_technical, hsignals,
    Series.last?_tail hpos hlength, Series.tail_instrument]

/-- For the window indicators, as many of the latest bars as the stable lookback give the value and the
signal of the whole history, and that signal is fully reliable; and no verdict on such indicators
changes with the number of bars that were fetched, once it reaches their longest lookback. -/
theorem stableLookback_suffices {curves : Curves ℝ} (hcurves : curves.check = .ok ())
    (s : Series ℝ) :
    (∀ spec : Spec ℝ, spec.params.check = .ok () → spec.indicator.windowed = true →
      ∀ n, spec.params.stableLookback ≤ n → n ≤ s.length →
        (∃ value, (Technical.reading spec (s.tail n)).value = .present value ∧
          (Technical.reading spec s).value = .present value) ∧
        (Normalizer.ofCurves curves).signal (Technical.reading spec (s.tail n)) spec =
          (Normalizer.ofCurves curves).signal (Technical.reading spec s) spec ∧
        (spec.kind = spec.indicator.defaultKind →
          ∃ signal, (Normalizer.ofCurves curves).signal (Technical.reading spec s) spec =
            .ok signal ∧ signal.reliability = 1)) ∧
    ∀ choices : List (Choice ℝ),
      (∀ spec ∈ Choice.specs choices,
        spec.params.check = .ok () ∧ spec.indicator.windowed = true) →
      ∀ n, 0 < n → (∀ spec ∈ Choice.specs choices, spec.params.stableLookback ≤ n) →
        ∀ registry thresholds timeout profile time,
          (⟨Normalizer.ofCurves curves, registry, thresholds⟩ : Context ℝ).verdict
              Provider.technical timeout choices profile (s.tail n) time =
            (⟨Normalizer.ofCurves curves, registry, thresholds⟩ : Context ℝ).verdict
              Provider.technical timeout choices profile s time := by
  constructor
  · intro spec hcheck hwindowed n h hn
    have hvalid := Params.check_eq_ok_iff.mp hcheck
    obtain ⟨value, htail, hwhole⟩ := Technical.exists_reading_tail hvalid hwindowed h hn
    refine ⟨⟨value, by rw [htail], by rw [hwhole]⟩, Normalizer.signal_tail _ hvalid hwindowed h hn,
      fun hkind => ?_⟩
    obtain ⟨signal, hsignal⟩ : ∃ signal,
        (Normalizer.ofCurves curves).signal (Technical.reading spec s) spec = .ok signal :=
      Normalizer.exists_signal_technical (Curves.complete_of_check hcurves) hkind
    have hreliability := hsignal
    rw [hwhole] at hreliability
    exact ⟨signal, hsignal, Normalizer.reliability_of_stable (h.trans hn) hreliability⟩
  · intro choices hchoices n hpos h registry thresholds timeout profile time
    exact Context.verdict_tail
      (fun spec hspec => ⟨Params.check_eq_ok_iff.mp (hchoices spec hspec).1,
        (hchoices spec hspec).2⟩) hpos h s timeout profile time

/-- Falls, then turns on the last bar. -/
noncomputable def turning : Series ℝ :=
  ⟨"turning", [⟨⟨0, 0⟩, 9, 9, 9, 9, 1⟩, ⟨⟨1, 0⟩, 8, 8, 8, 8, 1⟩, ⟨⟨2, 0⟩, 7, 7, 7, 7, 1⟩,
    ⟨⟨3, 0⟩, 9, 9, 9, 9, 1⟩],
    by simp [Instant.lt_def]⟩

def quickCross : Spec ℝ := ⟨"sma_cross_1_2", .trend, .smaCross 1 2⟩

theorem stableLookback_suffices_turning :
    ∃ value signal, (Technical.reading quickCross (turning.tail 3)).value = .present value ∧
      (Technical.reading quickCross turning).value = .present value ∧
      (Normalizer.ofCurves .standard).signal (Technical.reading quickCross (turning.tail 3))
        quickCross = .ok signal ∧
      signal.reliability = 1 := by
  have hcheck : quickCross.params.check = .ok () := Params.check_eq_ok_iff.mpr ⟨by decide, by decide⟩
  obtain ⟨⟨value, htail, hwhole⟩, hsignal, hreliable⟩ :=
    (stableLookback_suffices check_standard_curves turning).1 quickCross hcheck rfl 3 (by decide)
      (by decide)
  obtain ⟨signal, hok, hreliability⟩ := hreliable rfl
  exact ⟨value, signal, htail, hwhole, hsignal.trans hok, hreliability⟩

end MarketVerdict
