import Mathlib
import MarketVerdict.Proofs.Curve.Accepted
import MarketVerdict.Proofs.Fusion.Shape
import MarketVerdict.Proofs.Reflection.Indicators

/-!
# Signals on reflected prices

The standard curves treat both directions alike: the bands of an oscillator lie evenly within its
bounds, and a place in an envelope and a flow are judged by their size before their sign. A reading
on reflected prices therefore gets the signal of the original in the opposite direction, of the same
magnitude and reliability. Spreads are the exception: they are measured against the price, which a
reflection does not keep, so that only their difference and their crossing turn over.
-/

namespace MarketVerdict

open Scalar

def Placement.mirror (p : Placement ℝ) : Placement ℝ := (p.1.opposite, p.2)

def Signal.mirror (s : Signal ℝ) : Signal ℝ := { s with direction := s.direction.opposite }

/-! ### Curves -/

theorem Scalar.clampSigned_neg (x : ℝ) : clampSigned (-x) = -clampSigned x := by
  simp only [clampSigned, isNaN_real, clamp, Bool.false_eq_true, if_false]
  split_ifs <;> linarith

/-- Both bounds of a range are as far from a value as the opposite ones are from its reflection. -/
theorem normalizeScore_reflect (value min max : ℝ) :
    normalizeScore (min + max - value) min max = -normalizeScore value min max := by
  simp only [normalizeScore, beq_iff_eq]
  by_cases h : max = min
  · simp [h]
  · rw [if_neg h, if_neg h, ← clampSigned_neg]
    have hrange : max - min ≠ 0 := sub_ne_zero.mpr h
    congr 1
    field_simp
    ring

theorem OscillatorBands.place_reflect {bands : OscillatorBands ℝ} {span : ℝ}
    (horder : bands.lower < bands.upper) (hbounds : bands.min + bands.max = span)
    (hbands : bands.lower + bands.upper = span) (value : ℝ) :
    bands.place (span - value) = Placement.mirror (bands.place value) := by
  have hlower : span - value ≤ bands.lower ↔ bands.upper ≤ value := by
    rw [← hbands, sub_le_iff_le_add, add_le_add_iff_left]
  have hupper : bands.upper ≤ span - value ↔ value ≤ bands.lower := by
    rw [← hbands, le_sub_iff_add_le, add_comm, add_le_add_iff_right]
  have hdistance : distanceFromMidpoint (span - value) bands.min bands.max =
      distanceFromMidpoint value bands.min bands.max := by
    rw [← hbounds, distanceFromMidpoint, normalizeScore_reflect, abs_real, abs_neg]
    rfl
  simp only [place, hlower, hupper, hdistance]
  split_ifs with hhigh hlow
  · exact absurd (hhigh.trans hlow) horder.not_ge
  all_goals rfl

theorem bandPosition_reflect (K : ℝ) {price middle : ℝ} (h : price ≠ middle) (lower upper : ℝ) :
    bandPosition (K - price) (K - upper) (K - middle) (K - lower) =
      (bandPosition price lower middle upper).map (- ·) := by
  have hturn : price - middle = -(middle - price) := (neg_sub _ _).symm
  simp only [bandPosition, sub_le_sub_iff_left, sub_sub_sub_cancel_left]
  rcases h.lt_or_gt with h | h
  · rw [if_pos h.le, if_neg h.not_ge, hturn, neg_div]
    split <;> simp
  · rw [if_neg h.not_ge, if_pos h.le, hturn, neg_div]
    split <;> simp

theorem BandCurve.place_middle {curve : BandCurve ℝ} (hedge : 0 < curve.edge)
    (lower middle upper : ℝ) : curve.place middle lower middle upper = unmoved := by
  simp only [place, bandPosition, le_refl, if_true, sub_self, zero_div]
  by_cases hwidth : 0 < upper - middle
  · simp only [hwidth, if_true, abs_real, abs_zero, hedge]
  · simp only [hwidth, if_false]

theorem BandCurve.place_reflect {curve : BandCurve ℝ} (hedge : 0 < curve.edge)
    (K price lower middle upper : ℝ) :
    curve.place (K - price) (K - upper) (K - middle) (K - lower) =
      Placement.mirror (curve.place price lower middle upper) := by
  by_cases h : price = middle
  -- a price in the middle is measured by either half of the band
  · rw [h, place_middle hedge, place_middle hedge]
    rfl
  · simp only [place, bandPosition_reflect K h]
    cases bandPosition price lower middle upper with
    | none => rfl
    | some position =>
      simp only [Option.map_some, abs_real, abs_neg, Direction.ofSign_neg]
      split <;> simp [Placement.mirror, unmoved, Direction.opposite]

theorem FlowCurve.place_neg (curve : FlowCurve ℝ) (delta scale : ℝ) :
    curve.place (-delta) scale = Placement.mirror (curve.place delta scale) := by
  simp only [place, neg_div, abs_real, abs_neg, Direction.ofSign_neg]
  by_cases hscale : scale ≤ 0
  · simp only [hscale, if_true]
    rfl
  · by_cases hsmall : |delta / scale| ≤ curve.neutralBand
    · simp only [hscale, hsmall, if_true, if_false]
      rfl
    · simp only [hscale, hsmall, if_false]
      rfl

/-- The standard bands lie evenly around the middle of their bounds. -/
theorem Curves.standardBands_even (K : ℝ) {params : Params ℝ} {bands : OscillatorBands ℝ}
    (h : standardBands params.indicator = some bands) :
    bands.lower < bands.upper ∧ bands.min + bands.max = params.span K ∧
      bands.lower + bands.upper = params.span K := by
  cases params with
  | rsi | stochastic | williamsR =>
    cases h
    norm_num [Params.span]
  | macd | smaCross | emaCross | bollinger | obv => cases h

theorem Curves.strategy_reflect (K : ℝ) {params : Params ℝ} {value : Raw ℝ}
    (hvalue : value.kind = params.indicator.defaultKind)
    (htrend : params.indicator.defaultKind ≠ .trend) (k : Kind) :
    (standard : Curves ℝ).strategy k params.indicator (value.reflect K (params.span K)) =
      ((standard : Curves ℝ).strategy k params.indicator value).map Placement.mirror := by
  cases value with
  | level level =>
    cases k with
    | oscillator =>
      simp only [strategy, Raw.reflect, Option.map_map]
      refine Option.map_congr fun bands hbands => ?_
      obtain ⟨horder, hbounds, hspan⟩ := standardBands_even K hbands
      exact OscillatorBands.place_reflect horder hbounds hspan level
    | _ => rfl
  | spread => exact absurd hvalue.symm htrend
  | band price lower middle upper =>
    have hspan : params.span K = K := by
      cases params with
      | bollinger => rfl
      | _ => cases hvalue
    cases k with
    | volatility =>
      simp only [strategy, Raw.reflect, hspan, Option.map_some]
      exact congrArg some (BandCurve.place_reflect one_pos K price lower middle upper)
    | _ => rfl
  | flow delta scale =>
    have hspan : params.span K = 0 := by
      cases params with
      | obv => rfl
      | _ => cases hvalue
    cases k with
    | volume =>
      simp only [strategy, Raw.reflect, hspan, zero_sub, FlowCurve.place_neg, Option.map_some]
    | _ => rfl

/-! ### Readings -/

/-- A signal without strength has no direction to turn over. -/
theorem Normalizer.settle_mirror (spec : Spec ℝ) (placement : Placement ℝ) (coverage : ℝ) :
    settle spec (Placement.mirror placement) coverage =
      (settle spec placement coverage).mirror := by
  simp only [settle, Placement.mirror, Signal.mirror, beq_iff_eq]
  split <;> rfl

namespace Normalizer

theorem signal_reflect (K : ℝ) {spec : Spec ℝ} (htrend : spec.indicator.defaultKind ≠ .trend)
    (s : Series ℝ) :
    (ofCurves .standard).signal (Technical.reading spec (s.reflect K)) spec =
      ((ofCurves .standard).signal (Technical.reading spec s) spec).map Signal.mirror := by
  have hmissing : (ofCurves .standard).signal (Reading.missing spec s.length) spec =
      ((ofCurves .standard).signal (Reading.missing spec s.length) spec).map Signal.mirror := by
    rw [signal_missing]
    rfl
  unfold Technical.reading
  rw [Series.length_reflect, Technical.raw_reflect]
  split
  · exact hmissing
  cases hraw : Technical.raw spec.params s with
  | none => exact hmissing
  | some value =>
    have hplaced : (((ofCurves .standard).strategy spec.kind).bind fun place =>
          place spec.indicator (value.reflect K (spec.params.span K))) =
        (((ofCurves .standard).strategy spec.kind).bind fun place =>
          place spec.indicator value).map Placement.mirror :=
      Curves.strategy_reflect K (Technical.kind_of_raw hraw) htrend spec.kind
    simp only [Option.map_some]
    rw [signal_present _ _ (Raw.isFinite_real _), signal_present _ _ (Raw.isFinite_real _), hplaced]
    cases ((ofCurves .standard).strategy spec.kind).bind fun place =>
      place spec.indicator value with
    | none => rfl
    | some placement => exact congrArg Except.ok (settle_mirror spec placement _)

end Normalizer

/-- What the built-in indicators and the standard curves make of a series and of its reflection. -/
structure Series.Unbiased (K : ℝ) (s : Series ℝ) : Prop where
  rsi : ∀ period v, Technical.raw (.rsi period) s = some (.level v) →
    Technical.raw (.rsi period) (s.reflect K) = some (.level (100 - v))
  stochastic : ∀ kPeriod dPeriod v,
    Technical.raw (.stochastic kPeriod dPeriod) s = some (.level v) →
      Technical.raw (.stochastic kPeriod dPeriod) (s.reflect K) = some (.level (100 - v))
  williamsR : ∀ period v, Technical.raw (.williamsR period) s = some (.level v) →
    Technical.raw (.williamsR period) (s.reflect K) = some (.level (-100 - v))
  spread : ∀ params fast slow reference crossed,
    Technical.raw params s = some (.spread fast slow reference crossed) →
      ∃ fast' slow' reference',
        Technical.raw params (s.reflect K) =
            some (.spread fast' slow' reference' (crossed.map Direction.opposite)) ∧
          fast' - slow' = -(fast - slow)
  undefined : ∀ params, Technical.raw params s = none → Technical.raw params (s.reflect K) = none
  signal : ∀ spec : Spec ℝ, spec.indicator.defaultKind ≠ .trend →
    (Normalizer.ofCurves .standard).signal (Technical.reading spec (s.reflect K)) spec =
      ((Normalizer.ofCurves .standard).signal (Technical.reading spec s) spec).map Signal.mirror
  answered : ∀ spec : Spec ℝ, spec.kind = spec.indicator.defaultKind →
    ∃ signal, (Normalizer.ofCurves .standard).signal (Technical.reading spec s) spec = .ok signal

/-- Whatever is said of rising prices is said of falling ones in the same way. -/
theorem reflection_unbiased (K : ℝ) (s : Series ℝ) : s.Unbiased K := by
  have hraw {params : Params ℝ} {value : Raw ℝ} (h : Technical.raw params s = some value) :
      Technical.raw params (s.reflect K) = some (value.reflect K (params.span K)) := by
    rw [Technical.raw_reflect, h, Option.map_some]
  have hcurves := Curves.complete_of_check check_standard_curves
  exact {
    rsi := fun _ _ h => hraw h
    stochastic := fun _ _ _ h => hraw h
    williamsR := fun _ _ h => hraw h
    spread := fun _ _ _ _ _ h => ⟨_, _, _, hraw h, by ring⟩
    undefined := fun _ h => by rw [Technical.raw_reflect, h, Option.map_none]
    signal := fun _ htrend => Normalizer.signal_reflect K htrend s
    answered := fun _ hkind => Normalizer.exists_signal_technical hcurves hkind }

/-- One bar that closes at its low. -/
noncomputable def slump : Series ℝ :=
  ⟨"slump", [⟨⟨0, 0⟩, 12, 12, 8, 8, 5⟩], List.pairwise_singleton _ _⟩

noncomputable def lastRange : Spec ℝ := ⟨"williams_r_1", .oscillator, .williamsR 1⟩

/-- The slump calls for a rise, its reflection for a fall. -/
theorem reflection_unbiased_slump :
    (Normalizer.ofCurves .standard).signal (Technical.reading lastRange slump) lastRange =
        .ok ⟨"williams_r_1", .oscillator, .bullish, 1, 1⟩ ∧
      (Normalizer.ofCurves .standard).signal (Technical.reading lastRange (slump.reflect 20))
          lastRange = .ok ⟨"williams_r_1", .oscillator, .bearish, 1, 1⟩ := by
  have hsignal : (Normalizer.ofCurves .standard).signal (Technical.reading lastRange slump)
      lastRange = .ok ⟨"williams_r_1", .oscillator, .bullish, 1, 1⟩ := by
    have hraw : Technical.raw lastRange.params slump = some (.level (-100)) := by
      change some (Raw.level (if (12 - 8 : ℝ) == 0 then -50 else -100 * (12 - 8) / (12 - 8))) = _
      norm_num
    have hplace : (⟨-100, 0, -80, -20⟩ : OscillatorBands ℝ).place (-100) = (.bullish, 1) := by
      norm_num [OscillatorBands.place, distanceFromMidpoint, normalizeScore, clampSigned, clamp,
        abs_real]
    have hreading : Technical.reading lastRange slump =
        Reading.present lastRange (.level (-100)) 1 := by
      rw [Technical.reading, hraw]
      rfl
    have hcoverage : (Reading.present lastRange (.level (-100)) 1).coverage = (1 : ℝ) := by
      rw [Reading.coverage, if_neg (by decide), smaller_real]
      norm_num [Reading.present, lastRange, Params.stableLookback]
    rw [hreading, Normalizer.signal_present _ _ rfl, hcoverage]
    change Except.ok (Normalizer.settle lastRange (OscillatorBands.place _ _) 1) = _
    rw [hplace]
    norm_num [Normalizer.settle, clampUnit_of_mem, lastRange]
  refine ⟨hsignal, ?_⟩
  rw [(reflection_unbiased 20 slump).signal lastRange (by decide), hsignal]
  rfl

end MarketVerdict
