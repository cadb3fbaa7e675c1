import MarketVerdict.Proofs.Fusion.Shape
import MarketVerdict.Proofs.Rescaling.Indicators

/-!
# Signals in other units

Curves look at levels and at quotients of two quantities in the same unit: a spread over its reference
price, a place in a band over its width, a flow over its scale. A change of units leaves all of these
as they are, and with them the signals and every verdict on the signals.
-/

namespace MarketVerdict

open Scalar Traversal

/-! ### Curves -/

section Curves

variable {c : ℝ}

theorem relativeSpread_scale (hc : 0 < c) (fast slow reference : ℝ) :
    relativeSpread (c * fast) (c * slow) (c * reference) = relativeSpread fast slow reference := by
  simp only [relativeSpread, beq_iff_eq, mul_eq_zero, hc.ne', false_or, abs_real, abs_mul,
    abs_of_pos hc, ← mul_sub, mul_div_mul_left _ _ hc.ne']

theorem bandPosition_scale (hc : 0 < c) (price lower middle upper : ℝ) :
    bandPosition (c * price) (c * lower) (c * middle) (c * upper) =
      bandPosition price lower middle upper := by
  simp only [bandPosition, mul_le_mul_iff_right₀ hc, ← mul_sub, ← mul_ite,
    mul_pos_iff_of_pos_left hc, mul_div_mul_left _ _ hc.ne']

theorem FlowCurve.place_scale (hc : 0 < c) (curve : FlowCurve ℝ) (delta scale : ℝ) :
    curve.place (c * delta) (c * scale) = curve.place delta scale := by
  have hsign : c * scale ≤ 0 ↔ scale ≤ 0 := smul_nonpos_iff_nonpos_of_pos_left hc
  simp only [FlowCurve.place, hsign, mul_div_mul_left _ _ hc.ne']

end Curves

variable (u : Rescaling)

theorem Curves.strategy_rescale (curves : Curves ℝ) (k : Kind) (i : Indicator) (raw : Raw ℝ) :
    curves.strategy k i (raw.rescale u) = curves.strategy k i raw := by
  cases raw with
  | level value => rfl
  | spread fast slow reference crossed =>
    cases k with
    | trend =>
      simp only [strategy, Raw.rescale, TrendCurve.place, relativeSpread_scale u.price_pos]
    | _ => rfl
  | band price lower middle upper =>
    cases k with
    | volatility =>
      simp only [strategy, Raw.rescale, BandCurve.place, bandPosition_scale u.price_pos]
    | _ => rfl
  | flow delta scale =>
    cases k with
    | volume => simp only [strategy, Raw.rescale, FlowCurve.place_scale u.volume_pos]
    | _ => rfl

/-! ### Readings and verdicts -/

def Measured.rescale : Measured ℝ → Measured ℝ
  | missing => missing
  | invalid => invalid
  | present raw => present (raw.rescale u)

def Reading.rescale (r : Reading ℝ) : Reading ℝ := { r with value := r.value.rescale u }

theorem Technical.reading_rescale (spec : Spec ℝ) (s : Series ℝ) :
    reading spec (s.rescale u) = (reading spec s).rescale u := by
  unfold reading
  rw [Series.length_rescale, raw_rescale]
  split
  · rfl
  cases raw spec.params s with
  | none => rfl
  | some value =>
    simp only [Option.map_some, Reading.present, Measured.ofRaw_real]
    rfl

theorem Normalizer.signal_rescale (curves : Curves ℝ) (r : Reading ℝ) (spec : Spec ℝ) :
    (ofCurves curves).signal (r.rescale u) spec = (ofCurves curves).signal r spec := by
  obtain ⟨id, value, size, lookback⟩ := r
  cases value with
  | missing => rfl
  | invalid => rfl
  | present raw =>
    simp only [signal, Reading.rescale, Measured.rescale, ofCurves, Option.bind_some,
      Curves.strategy_rescale]
    rfl

theorem Context.evaluate_rescale {context : Context ℝ} {curves : Curves ℝ}
    (hn : context.normalizer = Normalizer.ofCurves curves) (specs : List (Spec ℝ)) (s : Series ℝ)
    (profile : Profile ℝ) (time : Instant) :
    context.evaluate (Technical.readings specs (s.rescale u)) profile time =
      context.evaluate (Technical.readings specs s) profile time := by
  have hsignals : context.signals (Technical.readings specs (s.rescale u)) =
      context.signals (Technical.readings specs s) := by
    simp only [signals, Technical.readings, List.mapM_map]
    refine mapM_congr fun spec _ => ?_
    simp only [Function.comp_apply, hn, Technical.reading_rescale, Normalizer.signal_rescale]
  rw [evaluate, evaluate, hsignals]

end MarketVerdict
