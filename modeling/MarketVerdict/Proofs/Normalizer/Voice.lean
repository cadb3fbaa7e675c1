import MarketVerdict.Proofs.Curve.Bands
import MarketVerdict.Proofs.Indicator.Plunge
import MarketVerdict.Proofs.Reflection.Signals

/-!
# Selections with a voice

Under the standard curves almost every indicator calls for a rise on one history and for a fall on
another. One history is enough to show it, with its reflections: the reading of a history that ends
in a fall leaves the silent band, and a reflection sends it to the other side. The parameters without
a voice are those of an average over a single value, which is compared with that value, and those of
an envelope that is too wide for the closes it is made of. Their signals count in every total and
move none.
-/

namespace MarketVerdict

open Scalar

/-! ### Beyond the silent band -/

/-- In a direction, with something behind it. -/
structure Placement.Moves (p : Placement ℝ) (d : Direction) : Prop where
  direction : p.1 = d
  magnitude : 0 < p.2

theorem Scalar.clampUnit_pos {x : ℝ} (h : 0 < x) : 0 < clampUnit x := by
  rw [clampUnit_real]
  exact lt_max_of_lt_right (lt_min h one_pos)

theorem OscillatorBands.moves_place_min {b : OscillatorBands ℝ} (h : b.check = .ok ()) :
    (b.place b.min).Moves .bullish := by
  rw [place_min h]
  exact ⟨rfl, one_pos⟩

theorem TrendCurve.moves_place {c : TrendCurve ℝ} (hc : c.check = .ok ()) {fast slow reference : ℝ}
    (crossed : Option Direction) (h : c.neutralBand < |relativeSpread fast slow reference|) :
    (c.place fast slow reference crossed).Moves
      (Direction.ofSign (relativeSpread fast slow reference)) := by
  obtain ⟨⟨_, hneutral⟩, ⟨_, hscale⟩, hboost⟩ := check_eq_ok_iff.mp hc
  have hsize : 0 < |relativeSpread fast slow reference| / c.fullScale :=
    div_pos (hneutral.trans_lt h) hscale
  rw [place, abs_real, if_neg h.not_ge]
  refine ⟨rfl, clampUnit_pos ?_⟩
  split
  · exact add_pos_of_pos_of_nonneg hsize (LawfulScalar.inUnit_iff.mp hboost).1
  · exact hsize

theorem BandCurve.moves_place {c : BandCurve ℝ} (hc : c.check = .ok ())
    {price lower middle upper position : ℝ}
    (hposition : bandPosition price lower middle upper = some position)
    (h : c.edge ≤ |position|) :
    (c.place price lower middle upper).Moves (Direction.ofSign (-position)) := by
  obtain ⟨⟨_, hedge⟩, _, hsaturation⟩ := check_eq_ok_iff.mp hc
  rw [place, hposition]
  dsimp only
  rw [abs_real, if_neg h.not_gt]
  exact ⟨rfl, clampUnit_pos (div_pos (hedge.trans_le h) (hedge.trans_le hsaturation))⟩

theorem FlowCurve.moves_place {c : FlowCurve ℝ} (hc : c.check = .ok ()) {delta scale : ℝ}
    (hscale : 0 < scale) (h : c.neutralBand < |delta / scale|) :
    (c.place delta scale).Moves (Direction.ofSign (delta / scale)) := by
  obtain ⟨⟨_, hneutral⟩, _, hfull⟩ := check_eq_ok_iff.mp hc
  rw [place, if_neg hscale.not_ge]
  dsimp only
  rw [abs_real, if_neg h.not_ge]
  exact ⟨rfl, clampUnit_pos (div_pos (hneutral.trans_lt h) hfull)⟩

/-! ### Signals that count -/

/-- A call in a direction that a fusion counts. -/
structure Signal.Calls (s : Signal ℝ) (d : Direction) : Prop where
  direction : s.direction = d
  magnitude : 0 < s.magnitude
  reliability : 0 < s.reliability

theorem Signal.Calls.mirror {s : Signal ℝ} {d : Direction} (h : s.Calls d) :
    s.mirror.Calls d.opposite :=
  ⟨congrArg Direction.opposite h.direction, h.magnitude, h.reliability⟩

/-- Some history makes the indicator call. -/
def Spec.Calls (spec : Spec ℝ) (d : Direction) : Prop :=
  ∃ s signal, (Normalizer.ofCurves .standard).signal (Technical.reading spec s) spec = .ok signal ∧
    signal.Calls d

theorem Reading.coverage_pos {r : Reading ℝ} (h : 0 < r.sampleSize) : 0 < r.coverage := by
  unfold coverage
  split
  · exact one_pos
  · next hzero =>
    have hlookback : (0 : ℝ) < r.stableLookback := Nat.cast_pos.mpr (Nat.pos_of_ne_zero hzero)
    rw [smaller_real]
    exact lt_min (div_pos (Nat.cast_pos.mpr h) hlookback) one_pos

section Signals

variable {spec : Spec ℝ} {s : Series ℝ} {signal : Signal ℝ}

theorem Normalizer.reliability_pos {n : Normalizer ℝ} (hvalid : spec.params.Valid)
    (hl : spec.params.minHistory ≤ s.length)
    (hsignal : n.signal (Technical.reading spec s) spec = .ok signal) : 0 < signal.reliability := by
  obtain ⟨value, _, hreading⟩ := Technical.exists_reading_of_le hvalid hl
  rw [hreading] at hsignal
  obtain ⟨placement, _, rfl⟩ := placed_of_signal (Measured.ofRaw_real value) hsignal
  exact clampUnit_pos (Reading.coverage_pos (hvalid.minHistory_pos.trans_le hl))

theorem Spec.calls_of_moves (hvalid : spec.params.Valid) (hl : spec.params.minHistory ≤ s.length)
    {value : Raw ℝ} (hraw : Technical.raw spec.params s = some value) {placement : Placement ℝ}
    (hplaced :
      (Curves.standard : Curves ℝ).strategy spec.kind spec.indicator value = some placement)
    {d : Direction} (hmoves : placement.Moves d) : spec.Calls d := by
  have hsignal : (Normalizer.ofCurves .standard).signal (Technical.reading spec s) spec =
      .ok (Normalizer.settle spec placement (Reading.present spec value s.length).coverage) := by
    rw [Technical.reading_of_raw hl hraw, Normalizer.signal_present _ _ value.isFinite_real]
    simp only [Normalizer.ofCurves, Option.bind_some, hplaced]
  have hmagnitude := clampUnit_pos hmoves.magnitude
  refine ⟨s, _, hsignal, ?_, hmagnitude, Normalizer.reliability_pos hvalid hl hsignal⟩
  simp [Normalizer.settle, hmagnitude.ne', hmoves.direction]

/-- What is called for on a history is called against on its reflection. -/
theorem Spec.Calls.opposite (htrend : spec.indicator.defaultKind ≠ .trend) {d : Direction}
    (h : spec.Calls d) : spec.Calls d.opposite := by
  obtain ⟨s, signal, hsignal, hcalls⟩ := h
  refine ⟨s.reflect 0, signal.mirror, ?_, hcalls.mirror⟩
  rw [Normalizer.signal_reflect 0 htrend s, hsignal]
  rfl

end Signals

/-! ### Parameters without a voice -/

/-- A smoothing over one value, a width that no close outgrows, a baseline of one total. -/
def Params.Mute : Params ℝ → Prop
  | macd _ _ signal => signal = 1
  | bollinger period width => (period : ℝ) - 1 < width ^ 2
  | obv period => period = 1
  | _ => False

namespace Technical

variable {s : Series ℝ} {value : Raw ℝ}

/-- Smoothed over a single value, a line is its own signal line. -/
theorem spread_of_macd_one {fast slow : ℕ} (h : raw (.macd fast slow 1) s = some value) :
    ∃ line reference crossed, value = .spread line line reference crossed := by
  obtain ⟨last, _, h⟩ := Option.bind_eq_some_iff.mp h
  obtain ⟨m, hm, h⟩ := Option.bind_eq_some_iff.mp h
  cases h
  unfold macd at hm
  split at hm
  · cases hm
  obtain ⟨_, _, hm⟩ := Option.bind_eq_some_iff.mp hm
  obtain ⟨x, hx, hm⟩ := Option.bind_eq_some_iff.mp hm
  obtain ⟨y, hy, hm⟩ := Option.bind_eq_some_iff.mp hm
  cases hm
  rw [Average.exponentialMeans_one, hx] at hy
  cases hy
  exact ⟨_, _, _, rfl⟩

/-- The average of a single total is that total. -/
theorem flow_of_obv_one (h : raw (.obv 1) s = some value) :
    ∃ scale, value = .flow 0 scale := by
  obtain ⟨v, hv, rfl⟩ := Option.map_eq_some_iff.mp h
  unfold onBalance at hv
  split at hv
  · cases hv
  obtain ⟨x, hx, hv⟩ := Option.bind_eq_some_iff.mp hv
  obtain ⟨y, hy, hv⟩ := Option.bind_eq_some_iff.mp hv
  obtain ⟨z, _, hv⟩ := Option.bind_eq_some_iff.mp hv
  cases hv
  rw [Average.mean_one, hx] at hy
  cases hy
  exact ⟨z, by rw [sub_self]⟩

end Technical

theorem TrendCurve.place_same {c : TrendCurve ℝ} (hc : c.check = .ok ()) (line reference : ℝ)
    (crossed : Option Direction) : c.place line line reference crossed = unmoved := by
  have hzero : relativeSpread line line reference = 0 := by simp [relativeSpread]
  rw [place, hzero, abs_real, abs_zero, if_pos (check_eq_ok_iff.mp hc).1.2]

theorem FlowCurve.place_zero {c : FlowCurve ℝ} (hc : c.check = .ok ()) (scale : ℝ) :
    c.place 0 scale = unmoved := by
  unfold place
  split
  · rfl
  · dsimp only
    rw [zero_div, abs_real, abs_zero, if_pos (check_eq_ok_iff.mp hc).1.2]

/-- Without a voice an indicator stays unmoved by every value that it can have. -/
theorem Params.Mute.unmoved {params : Params ℝ} (h : params.Mute) (hvalid : params.Valid)
    {s : Series ℝ} {value : Raw ℝ} (hvalue : Technical.raw params s = some value) :
    (Curves.standard : Curves ℝ).strategy params.indicator.defaultKind params.indicator value =
      some unmoved := by
  obtain ⟨htrend, _, hvolume⟩ := Curves.checks_of_check check_standard_curves
  cases params with
  | rsi | stochastic | williamsR | smaCross | emaCross => exact h.elim
  | macd fast slow signal =>
    cases h
    obtain ⟨line, reference, crossed, rfl⟩ := Technical.spread_of_macd_one hvalue
    exact congrArg some (TrendCurve.place_same (htrend .macd) line reference crossed)
  | bollinger period width =>
    obtain ⟨hp, _, hwidth⟩ := hvalid
    have hwidth : 0 < width := not_le.mp hwidth
    have hreach : √((period : ℝ) - 1) / width < (BandCurve.standard : BandCurve ℝ).edge := by
      have hedge : (BandCurve.standard : BandCurve ℝ).edge = 1 := rfl
      rw [hedge, div_lt_one hwidth]
      exact (Real.sqrt_lt' hwidth).mpr h
    obtain ⟨_, _, _, _, rfl, hplace⟩ := Technical.place_bollinger hp hwidth hreach hvalue
    exact congrArg some hplace
  | obv period =>
    cases h
    obtain ⟨scale, rfl⟩ := Technical.flow_of_obv_one hvalue
    exact congrArg some (FlowCurve.place_zero hvolume scale)

theorem Spec.exists_mute {spec : Spec ℝ} (hvalid : spec.params.Valid)
    (hkind : spec.kind = spec.indicator.defaultKind) (hmute : spec.params.Mute) (s : Series ℝ) :
    ∃ signal, (Normalizer.ofCurves .standard).signal (Technical.reading spec s) spec = .ok signal ∧
      signal.Mute := by
  refine Normalizer.exists_mute (Curves.complete_of_check check_standard_curves) hkind
    fun value hvalue => ?_
  rw [hkind]
  exact hmute.unmoved hvalid hvalue

theorem Spec.not_calls_of_mute {spec : Spec ℝ} (hvalid : spec.params.Valid)
    (hkind : spec.kind = spec.indicator.defaultKind) (hmute : spec.params.Mute) (d : Direction) :
    ¬ spec.Calls d := by
  rintro ⟨s, signal, hsignal, hcalls⟩
  obtain ⟨signal', hsignal', hsilent⟩ := exists_mute hvalid hkind hmute s
  cases hsignal.symm.trans hsignal'
  exact hcalls.magnitude.ne' hsilent.magnitude

/-- A volume that is compared with itself. -/
def ownBaseline : Spec ℝ := ⟨"obv_1", .volume, .obv 1⟩

theorem ownBaseline_never_calls :
    ownBaseline.params.check = .ok () ∧ ownBaseline.kind = ownBaseline.indicator.defaultKind ∧
      ¬ ownBaseline.Calls .bullish ∧ ¬ ownBaseline.Calls .bearish := by
  have hvalid : ownBaseline.params.Valid := Nat.one_pos
  have hmute : ownBaseline.params.Mute := rfl
  exact ⟨Params.check_eq_ok_iff.mpr hvalid, rfl, Spec.not_calls_of_mute hvalid rfl hmute _,
    Spec.not_calls_of_mute hvalid rfl hmute _⟩

/-! ### Parameters with a voice -/

namespace Technical

/-- A spread as wide as its reference, in either direction, from any spread at all. -/
theorem exists_reflect_spread {params : Params ℝ} {s : Series ℝ} {fast slow reference : ℝ}
    {crossed : Option Direction} (h : raw params s = some (.spread fast slow reference crossed)) :
    ∃ K fast' slow' reference' crossed',
      raw params (s.reflect K) = some (.spread fast' slow' reference' crossed') ∧
        relativeSpread fast' slow' reference' = (slow - fast) / |slow - fast| := by
  refine ⟨reference + |slow - fast|, _, _, _, _, by rw [raw_reflect, h]; rfl, ?_⟩
  rw [add_sub_cancel_left, relativeSpread]
  rcases eq_or_ne (slow - fast) 0 with hzero | hne
  · simp [hzero]
  · have hsize : ¬ (|slow - fast| == 0) = true := by simpa using hne
    rw [if_neg hsize, abs_real, abs_abs, sub_sub_sub_cancel_left]

/-- Where an indicator of spreads has a voice, its fast line is below its slow one after a fall. -/
theorem exists_spread_plunge {params : Params ℝ} (hvalid : params.Valid) (hmute : ¬ params.Mute)
    (htrend : params.indicator.defaultKind = .trend) {n : ℕ} (hn : params.stableLookback ≤ n) :
    ∃ fast slow reference crossed,
      raw params (plunge n) = some (.spread fast slow reference crossed) ∧ fast < slow := by
  cases params with
  | rsi | stochastic | williamsR | bollinger | obv => cases htrend
  | macd fast slow signal =>
    obtain ⟨⟨hf, hs⟩, hsignal⟩ := hvalid
    have hone : signal ≠ 1 := hmute
    have hn : 3 * slow + signal ≤ n := hn
    obtain ⟨m, hm, hlt⟩ := exists_macd_plunge hf hs (by omega) (by omega : slow + signal ≤ n)
    exact ⟨_, _, _, _, by rw [raw, last?_plunge, hm]; rfl, hlt⟩
  | smaCross fast slow =>
    have hn : slow + 1 ≤ n := hn
    obtain ⟨c, hc, hlt⟩ := exists_smaCross_plunge hvalid.1 hvalid.2 (by omega : slow ≤ n)
    exact ⟨_, _, _, _, by rw [raw, hc]; rfl, hlt⟩
  | emaCross fast slow =>
    have hn : 3 * slow ≤ n := hn
    obtain ⟨c, hc, hlt⟩ := exists_emaCross_plunge hvalid.1 hvalid.2 (by omega : slow ≤ n)
    exact ⟨_, _, _, _, by rw [raw, hc]; rfl, hlt⟩

/-- The oscillators are at the bottom of their ranges. -/
theorem raw_plunge_min {params : Params ℝ} {bands : OscillatorBands ℝ}
    (hbands : Curves.standardBands params.indicator = some bands) (hvalid : params.Valid) {n : ℕ}
    (hn : params.stableLookback ≤ n) : raw params (plunge n) = some (.level bands.min) := by
  have hbars : (plunge n).bars.length = n + 1 := length_plunge n
  cases params with
  | macd | smaCross | emaCross | bollinger | obv => cases hbands
  | rsi period =>
    have hn : 3 * period + 1 ≤ n := hn
    cases hbands
    rw [raw, rsi_plunge hvalid (by omega)]
    rfl
  | stochastic kPeriod dPeriod =>
    have hn : kPeriod + dPeriod - 1 ≤ n := hn
    cases hbands
    rw [raw, (falling_plunge n).stochastic_eq_zero hvalid.1 hvalid.2 (by omega)]
    rfl
  | williamsR period =>
    have hn : period ≤ n := hn
    cases hbands
    rw [raw, (falling_plunge n).williamsR_eq hvalid (by omega)]
    rfl

theorem exists_min_plunge {params : Params ℝ} {bands : OscillatorBands ℝ}
    (hbands : Curves.standardBands params.indicator = some bands) (hvalid : params.Valid) {n : ℕ}
    (hn : params.stableLookback ≤ n) :
    ∃ value placement, raw params (plunge n) = some value ∧
      (Curves.standard : Curves ℝ).strategy .oscillator params.indicator value = some placement ∧
      placement.Moves .bullish := by
  refine ⟨.level bands.min, bands.place bands.min, raw_plunge_min hbands hvalid hn, ?_,
    OscillatorBands.moves_place_min
      (Curves.check_of_oscillators check_standard_curves hbands)⟩
  simp only [Curves.strategy, Curves.standard, hbands, Option.map_some]

theorem exists_band_plunge {period : ℕ} {width : ℝ} (hwidth : 0 < width)
    (hreach : width ^ 2 ≤ (period : ℝ) - 1) {n : ℕ} (hn : period ≤ n) :
    ∃ price lower middle upper position,
      raw (.bollinger period width) (plunge n) = some (.band price lower middle upper) ∧
        bandPosition price lower middle upper = some position ∧ position ≤ -1 := by
  have hone : 1 < period := by
    have hsq := pow_pos hwidth 2
    have : (1 : ℝ) < period := by linarith
    exact_mod_cast this
  have hfar : 1 ≤ √((period : ℝ) - 1) / width := by
    rw [one_le_div hwidth]
    exact Real.le_sqrt_of_sq_le hreach
  obtain ⟨b, hb, hposition⟩ := exists_bollinger_plunge hone hn hwidth
  exact ⟨_, _, _, _, _, by rw [raw, last?_plunge, hb]; rfl, hposition, neg_le_neg hfar⟩

theorem exists_flow_plunge {period : ℕ} (hp : 1 < period) {n : ℕ} (hn : period ≤ n) :
    ∃ delta, raw (.obv period) (plunge n) = some (.flow delta 1) ∧ delta ≤ -(1 / 2) := by
  have htwo : (2 : ℝ) ≤ period := by exact_mod_cast hp
  have hshare : 1 / (period : ℝ) ≤ 1 / 2 := one_div_le_one_div_of_le two_pos htwo
  refine ⟨-1 - -1 / period, by rw [raw, onBalance_plunge (by omega) hn]; rfl, ?_⟩
  rw [neg_div]
  linarith

/-- Where an indicator of another kind has a voice, the reading after a fall leaves the silent
band. -/
theorem exists_moves_plunge {params : Params ℝ} (hvalid : params.Valid) (hmute : ¬ params.Mute)
    (htrend : params.indicator.defaultKind ≠ .trend) {n : ℕ} (hn : params.stableLookback ≤ n) :
    ∃ value placement d, raw params (plunge n) = some value ∧
      (Curves.standard : Curves ℝ).strategy params.indicator.defaultKind params.indicator value =
        some placement ∧
      placement.Moves d ∧ (d = .bullish ∨ d = .bearish) := by
  obtain ⟨_, hvolatility, hvolume⟩ := Curves.checks_of_check check_standard_curves
  cases params with
  | macd | smaCross | emaCross => exact absurd rfl htrend
  | rsi | stochastic | williamsR =>
    obtain ⟨value, placement, hraw, hplaced, hmoves⟩ := exists_min_plunge rfl hvalid hn
    exact ⟨value, placement, .bullish, hraw, hplaced, hmoves, Or.inl rfl⟩
  | bollinger period width =>
    obtain ⟨_, _, hwidth⟩ := hvalid
    obtain ⟨price, lower, middle, upper, position, hraw, hposition, hfar⟩ :=
      exists_band_plunge (not_le.mp hwidth) (not_lt.mp hmute) hn
    refine ⟨_, _, _, hraw, rfl, BandCurve.moves_place hvolatility hposition ?_, Or.inl ?_⟩
    · rw [abs_of_neg (by linarith)]
      exact le_neg.mp hfar
    · exact Direction.ofSign_of_pos (by linarith)
  | obv period =>
    have hvalid : 0 < period := hvalid
    have hone : period ≠ 1 := hmute
    have hn : 2 * period + 1 ≤ n := hn
    obtain ⟨delta, hraw, hdelta⟩ :=
      exists_flow_plunge (by omega : 1 < period) (by omega : period ≤ n)
    have hband : (Curves.standard : Curves ℝ).volume.neutralBand < 1 / 2 := by
      norm_num [Curves.standard, FlowCurve.standard]
    refine ⟨_, _, _, hraw, rfl, FlowCurve.moves_place hvolume one_pos ?_, Or.inr ?_⟩
    · rw [div_one, abs_of_neg (by linarith)]
      linarith
    · rw [div_one]
      exact Direction.ofSign_of_neg (by linarith)

end Technical

namespace Spec

variable {spec : Spec ℝ}

theorem calls_of_spread (hvalid : spec.params.Valid) (hkind : spec.kind = .trend) {s : Series ℝ}
    (hl : spec.params.minHistory ≤ s.length) {fast slow reference : ℝ} {crossed : Option Direction}
    (hraw : Technical.raw spec.params s = some (.spread fast slow reference crossed))
    (hne : slow - fast ≠ 0) : spec.Calls (Direction.ofSign (slow - fast)) := by
  obtain ⟨htrend, _⟩ := Curves.checks_of_check check_standard_curves
  obtain ⟨K, fast', slow', reference', crossed', hraw', hspread⟩ :=
    Technical.exists_reflect_spread hraw
  have hband : ((Curves.standard : Curves ℝ).trendCurve spec.indicator).neutralBand <
      |relativeSpread fast' slow' reference'| := by
    rw [hspread, abs_div, abs_abs, div_self (abs_ne_zero.mpr hne)]
    cases spec.indicator <;>
      norm_num [Curves.trendCurve, Curves.standard, Curves.standardTrend, TrendCurve.standard]
  have hmoves := TrendCurve.moves_place (htrend spec.indicator) crossed' hband
  have hdirection : Direction.ofSign ((slow - fast) / |slow - fast|) =
      Direction.ofSign (slow - fast) := by
    have hsize : 0 < |slow - fast| := abs_pos.mpr hne
    rcases hne.lt_or_gt with h | h
    · rw [Direction.ofSign_of_neg h, Direction.ofSign_of_neg (div_neg_of_neg_of_pos h hsize)]
    · rw [Direction.ofSign_of_pos h, Direction.ofSign_of_pos (div_pos h hsize)]
  rw [hspread, hdirection] at hmoves
  refine calls_of_moves hvalid ?_ hraw' ?_ hmoves
  · rw [Series.length_reflect]
    exact hl
  · rw [hkind]
    rfl

/-- A spread that fits its reference calls one way, and turned over first it calls the other way. -/
theorem calls_both_of_spread (hvalid : spec.params.Valid) (hkind : spec.kind = .trend)
    {s : Series ℝ} (hl : spec.params.minHistory ≤ s.length) {fast slow reference : ℝ}
    {crossed : Option Direction}
    (hraw : Technical.raw spec.params s = some (.spread fast slow reference crossed))
    (hlt : fast < slow) : spec.Calls .bullish ∧ spec.Calls .bearish := by
  have hrise := calls_of_spread hvalid hkind hl hraw (sub_pos.mpr hlt).ne'
  have hturned : Technical.raw spec.params (s.reflect 0) =
      some (.spread (spec.params.span 0 - fast) (spec.params.span 0 - slow) (0 - reference)
        (crossed.map Direction.opposite)) := by
    rw [Technical.raw_reflect, hraw]
    rfl
  have hturnedSub : spec.params.span 0 - slow - (spec.params.span 0 - fast) < 0 := by linarith
  have hfall := calls_of_spread hvalid hkind (by rwa [Series.length_reflect]) hturned hturnedSub.ne
  rw [Direction.ofSign_of_pos (sub_pos.mpr hlt)] at hrise
  rw [Direction.ofSign_of_neg hturnedSub] at hfall
  exact ⟨hrise, hfall⟩

theorem calls_of_not_mute (hvalid : spec.params.Valid)
    (hkind : spec.kind = spec.indicator.defaultKind) (hmute : ¬ spec.params.Mute) :
    spec.Calls .bullish ∧ spec.Calls .bearish := by
  have hl : spec.params.minHistory ≤ (plunge spec.params.stableLookback).length := by
    have := spec.params.minHistory_le_stableLookback
    rw [length_plunge]
    omega
  by_cases htrend : spec.indicator.defaultKind = .trend
  · obtain ⟨fast, slow, reference, crossed, hraw, hlt⟩ :=
      Technical.exists_spread_plunge hvalid hmute htrend le_rfl
    exact calls_both_of_spread hvalid (hkind.trans htrend) hl hraw hlt
  · obtain ⟨value, placement, d, hraw, hplaced, hmoves, hd⟩ :=
      Technical.exists_moves_plunge hvalid hmute htrend le_rfl
    have hcalls : spec.Calls d := calls_of_moves hvalid hl hraw (hkind ▸ hplaced) hmoves
    rcases hd with rfl | rfl
    · exact ⟨hcalls, hcalls.opposite htrend⟩
    · exact ⟨hcalls.opposite htrend, hcalls⟩

end Spec

/-- Accepted parameters call for a rise on one history and for a fall on another, unless they have
no voice; and without one they are mute on every history, though a history that is long enough makes
their signal count in the total. -/
theorem accepted_calls_or_mute {spec : Spec ℝ} (hcheck : spec.params.check = .ok ())
    (hkind : spec.kind = spec.indicator.defaultKind) :
    (¬ spec.params.Mute → spec.Calls .bullish ∧ spec.Calls .bearish) ∧
    (spec.params.Mute → ∀ s : Series ℝ, ∃ signal,
      (Normalizer.ofCurves .standard).signal (Technical.reading spec s) spec = .ok signal ∧
        signal.Mute ∧ (spec.params.minHistory ≤ s.length → 0 < signal.reliability)) := by
  have hvalid := Params.check_eq_ok_iff.mp hcheck
  refine ⟨Spec.calls_of_not_mute hvalid hkind, fun hmute s => ?_⟩
  obtain ⟨signal, hsignal, hsilent⟩ := Spec.exists_mute hvalid hkind hmute s
  exact ⟨signal, hsignal, hsilent, fun hl => Normalizer.reliability_pos hvalid hl hsignal⟩

/-- An envelope that a close can just reach. -/
noncomputable def brim : Spec ℝ := ⟨"bollinger_5_2", .volatility, .bollinger 5 2⟩

theorem accepted_calls_or_mute_brim :
    (brim.params.check = .ok () ∧ brim.kind = brim.indicator.defaultKind ∧ ¬ brim.params.Mute ∧
      brim.Calls .bullish ∧ brim.Calls .bearish) ∧
    ownBaseline.params.check = .ok () ∧ ownBaseline.kind = ownBaseline.indicator.defaultKind ∧
      ownBaseline.params.Mute ∧ ∀ s : Series ℝ, ∃ signal,
        (Normalizer.ofCurves .standard).signal (Technical.reading ownBaseline s) ownBaseline =
          .ok signal ∧ signal.Mute := by
  have hbrim : brim.params.check = .ok () :=
    Params.check_eq_ok_iff.mpr ⟨by decide, rfl, by norm_num⟩
  have hvoice : ¬ brim.params.Mute := by norm_num [brim, Params.Mute]
  have hown : ownBaseline.params.check = .ok () := Params.check_eq_ok_iff.mpr Nat.one_pos
  obtain ⟨hrise, hfall⟩ := (accepted_calls_or_mute hbrim rfl).1 hvoice
  refine ⟨⟨hbrim, rfl, hvoice, hrise, hfall⟩, hown, rfl, rfl, fun s => ?_⟩
  obtain ⟨signal, hsignal, hmute, _⟩ := (accepted_calls_or_mute hown rfl).2 rfl s
  exact ⟨signal, hsignal, hmute⟩

end MarketVerdict
