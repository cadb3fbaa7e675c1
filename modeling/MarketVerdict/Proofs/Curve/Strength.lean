import Mathlib
import MarketVerdict.Proofs.Curve.Accepted
import MarketVerdict.Proofs.Fusion.Shape
import MarketVerdict.Proofs.Indicator.Affine

/-!
# The strength of a signal

The strength of a signal is its magnitude with the sign of its direction. A curve for spreads, places
in an envelope or flows is silent in a band around zero and counts the size on either side of it up to
one, where a crossing may add to the size on its own side. Such a strength moves one way only: with
the fast line of a spread, against the price in an envelope, with the delta of a flow.
-/

namespace MarketVerdict

open Scalar

/-- The clipped magnitude with the sign of the direction. -/
noncomputable def Placement.strength (p : Placement ℝ) : ℝ := p.1.sign * clampUnit p.2

theorem Placement.strength_unmoved : strength unmoved = 0 := zero_mul _

theorem Normalizer.strength_settle (spec : Spec ℝ) (placement : Placement ℝ) (coverage : ℝ) :
    (settle spec placement coverage).strength = placement.strength := by
  simp only [settle, Signal.strength, Placement.strength, beq_iff_eq]
  split
  · next h => rw [h, mul_zero, mul_zero]
  · rfl

/-- A quantity counted by its size, on the side of its sign. -/
noncomputable def sided (side : Direction → ℝ → ℝ) (x : ℝ) : ℝ :=
  (Direction.ofSign x).sign * side (Direction.ofSign x) (Scalar.abs x)

section Sided

variable {side : Direction → ℝ → ℝ} {x : ℝ}

theorem sided_of_pos (h : 0 < x) : sided side x = side .bullish x := by
  rw [sided, Direction.ofSign_of_pos h, abs_real, abs_of_pos h]
  exact one_mul _

theorem sided_of_neg (h : x < 0) : sided side x = -side .bearish (-x) := by
  rw [sided, Direction.ofSign_of_neg h, abs_real, abs_of_neg h]
  exact neg_one_mul _

theorem sided_zero : sided side 0 = 0 := by
  rw [sided, Direction.ofSign_zero]
  exact zero_mul _

theorem sided_nonneg (hside : ∀ d size, 0 ≤ side d size) (h : 0 ≤ x) : 0 ≤ sided side x := by
  rcases h.eq_or_lt with rfl | h
  · rw [sided_zero]
  · rw [sided_of_pos h]
    exact hside _ _

theorem sided_nonpos (hside : ∀ d size, 0 ≤ side d size) (h : x ≤ 0) : sided side x ≤ 0 := by
  rcases h.eq_or_lt with rfl | h
  · rw [sided_zero]
  · rw [sided_of_neg h]
    exact neg_nonpos.mpr (hside _ _)

/-- What grows with the size on both sides of zero grows throughout. -/
theorem monotone_sided (hside : ∀ d size, 0 ≤ side d size) (hmono : ∀ d, Monotone (side d)) :
    Monotone (sided side) := by
  intro x y h
  rcases le_or_gt 0 x with hx | hx
  · rcases hx.eq_or_lt with rfl | hx
    · rw [sided_zero]
      exact sided_nonneg hside h
    · rw [sided_of_pos hx, sided_of_pos (hx.trans_le h)]
      exact hmono _ h
  · rcases le_or_gt 0 y with hy | hy
    · exact (sided_nonpos hside hx.le).trans (sided_nonneg hside hy)
    · rw [sided_of_neg hx, sided_of_neg hy]
      exact neg_le_neg (hmono _ (neg_le_neg h))

end Sided

/-- Nothing as long as the size is quiet, and what it counts for, clipped, beyond. -/
noncomputable def beyond (quiet : ℝ → Prop) [DecidablePred quiet] (f : ℝ → ℝ) (size : ℝ) : ℝ :=
  if quiet size then 0 else clampUnit (f size)

section Beyond

variable {quiet : ℝ → Prop} [DecidablePred quiet] {f : ℝ → ℝ}

theorem beyond_nonneg (size : ℝ) : 0 ≤ beyond quiet f size := by
  unfold beyond
  split
  · exact le_rfl
  · exact clampUnit_nonneg _

theorem monotone_beyond (hquiet : ∀ {x y}, x ≤ y → quiet y → quiet x) (hf : Monotone f) :
    Monotone (beyond quiet f) := by
  intro x y h
  by_cases hx : quiet x
  · rw [beyond, if_pos hx]
    exact beyond_nonneg y
  · rw [beyond, if_neg hx, beyond, if_neg fun hy => hx (hquiet h hy)]
    exact clampUnit_mono (hf h)

end Beyond

/-! ### Spreads -/

theorem monotone_relativeSpread (slow reference : ℝ) :
    Monotone fun fast => relativeSpread fast slow reference := by
  intro fast fast' h
  simp only [relativeSpread, beq_iff_eq, abs_real]
  split
  · exact le_rfl
  · exact div_le_div_of_nonneg_right (sub_le_sub_right h slow) (abs_nonneg reference)

namespace TrendCurve

/-- What the size of a spread counts for in one direction, which may be that of a crossing. -/
noncomputable def side (c : TrendCurve ℝ) (crossed : Option Direction) (d : Direction) : ℝ → ℝ :=
  beyond (· ≤ c.neutralBand) fun size =>
    if crossed = some d then size / c.fullScale + c.crossoverBoost else size / c.fullScale

theorem strength_place (c : TrendCurve ℝ) (fast slow reference : ℝ) (crossed : Option Direction) :
    Placement.strength (c.place fast slow reference crossed) =
      sided (c.side crossed) (relativeSpread fast slow reference) := by
  simp only [place, sided, side, beyond]
  split
  · rw [mul_zero, Placement.strength_unmoved]
  · rw [Placement.strength, LawfulScalar.clampUnit_clampUnit]

theorem strength_mono {c : TrendCurve ℝ} (h : c.check = .ok ()) (slow reference : ℝ)
    (crossed : Option Direction) :
    Monotone fun fast => Placement.strength (c.place fast slow reference crossed) := by
  obtain ⟨_, ⟨_, hscale⟩, _⟩ := check_eq_ok_iff.mp h
  have hside (d : Direction) : Monotone (c.side crossed d) := by
    refine monotone_beyond le_trans fun size size' hsize => ?_
    have hquotient := div_le_div_of_nonneg_right hsize hscale.le
    split
    · exact add_le_add_left hquotient _
    · exact hquotient
  simp only [strength_place]
  exact (monotone_sided (fun _ => beyond_nonneg) hside).comp (monotone_relativeSpread slow reference)

end TrendCurve

/-! ### Envelopes -/

/-- Without a place a price counts as in the middle. -/
theorem monotone_bandPosition (lower middle upper : ℝ) :
    Monotone fun price => (bandPosition price lower middle upper).getD 0 := by
  intro price price' h
  have hhalf {width x y : ℝ} (hxy : x ≤ y) :
      (if 0 < width then some (x / width) else none).getD 0 ≤
        (if 0 < width then some (y / width) else none).getD 0 := by
    split
    · next hwidth => exact div_le_div_of_nonneg_right hxy hwidth.le
    · exact le_rfl
  have hsub : price - middle ≤ price' - middle := sub_le_sub_right h middle
  simp only [bandPosition]
  by_cases hprice : middle ≤ price
  · rw [if_pos hprice, if_pos (hprice.trans h)]
    exact hhalf hsub
  · rw [if_neg hprice]
    by_cases hprice' : middle ≤ price'
    · rw [if_pos hprice']
      refine le_trans (b := 0) ?_ ?_
      · split
        · next hwidth => exact div_nonpos_of_nonpos_of_nonneg (by linarith) hwidth.le
        · exact le_rfl
      · split
        · next hwidth => exact div_nonneg (by linarith) hwidth.le
        · exact le_rfl
    · rw [if_neg hprice']
      exact hhalf hsub

namespace BandCurve

noncomputable def side (c : BandCurve ℝ) : ℝ → ℝ := beyond (· < c.edge) (· / c.saturation)

/-- An envelope speaks against the place of the price in it. -/
theorem strength_place (c : BandCurve ℝ) (price lower middle upper : ℝ) :
    Placement.strength (c.place price lower middle upper) =
      sided (fun _ => c.side) (-(bandPosition price lower middle upper).getD 0) := by
  unfold place
  cases bandPosition price lower middle upper with
  | none => rw [Option.getD_none, neg_zero, sided_zero, Placement.strength_unmoved]
  | some position =>
    have hsize : Scalar.abs (-position) = Scalar.abs position := abs_neg position
    simp only [Option.getD_some, sided, side, beyond, hsize]
    split
    · rw [mul_zero, Placement.strength_unmoved]
    · rw [Placement.strength, LawfulScalar.clampUnit_clampUnit]

theorem strength_anti {c : BandCurve ℝ} (h : c.check = .ok ()) (lower middle upper : ℝ) :
    Antitone fun price => Placement.strength (c.place price lower middle upper) := by
  obtain ⟨⟨_, hedge⟩, _, hsaturation⟩ := check_eq_ok_iff.mp h
  have hside : Monotone c.side := monotone_beyond lt_of_le_of_lt fun size size' hsize =>
    div_le_div_of_nonneg_right hsize (hedge.le.trans hsaturation)
  simp only [strength_place]
  exact (monotone_sided (fun _ => beyond_nonneg) fun _ => hside).comp_antitone
    (monotone_bandPosition lower middle upper).neg

end BandCurve

/-! ### Flows -/

namespace FlowCurve

noncomputable def side (c : FlowCurve ℝ) : ℝ → ℝ := beyond (· ≤ c.neutralBand) (· / c.fullScale)

theorem strength_place {c : FlowCurve ℝ} {scale : ℝ} (h : 0 < scale) (delta : ℝ) :
    Placement.strength (c.place delta scale) = sided (fun _ => c.side) (delta / scale) := by
  simp only [place, if_neg h.not_ge, sided, side, beyond]
  split
  · rw [mul_zero, Placement.strength_unmoved]
  · rw [Placement.strength, LawfulScalar.clampUnit_clampUnit]

theorem strength_mono {c : FlowCurve ℝ} (h : c.check = .ok ()) (scale : ℝ) :
    Monotone fun delta => Placement.strength (c.place delta scale) := by
  obtain ⟨_, _, hfull⟩ := check_eq_ok_iff.mp h
  rcases le_or_gt scale 0 with hscale | hscale
  · simp only [place, if_pos hscale]
    exact monotone_const
  · have hside : Monotone c.side := monotone_beyond le_trans fun size size' hsize =>
      div_le_div_of_nonneg_right hsize hfull.le
    simp only [strength_place hscale]
    exact (monotone_sided (fun _ => beyond_nonneg) fun _ => hside).comp fun delta delta' hdelta =>
      div_le_div_of_nonneg_right hdelta hscale.le

end FlowCurve

/-! ### Readings -/

/-- The reading with another value. -/
def Reading.withValue {α : Type} (given : Reading α) (raw : Raw α) : Reading α :=
  { given with value := .present raw }

namespace Normalizer

/-- The signals of the readings that differ in their values only. -/
def Answers {α : Type} [Scalar α] (n : Normalizer α) (given : Reading α) (spec : Spec α)
    (raw : α → Raw α) (signal : α → Signal α) : Prop :=
  ∀ x, n.signal (given.withValue (raw x)) spec = .ok (signal x)

theorem answers_settle {α : Type} [Scalar α] {n : Normalizer α} {given : Reading α} {spec : Spec α}
    (hid : given.specId = spec.id) {raw : α → Raw α} (place : α → Placement α)
    (hplace : ∀ x, ((n.strategy spec.kind).bind fun strategy => strategy spec.indicator (raw x)) =
      some (place x)) :
    n.Answers given spec raw fun x => settle spec (place x) given.coverage := by
  intro x
  simp only [signal, Reading.withValue, hid, ne_eq, not_true_eq_false, if_false, hplace]
  rfl

/-- Whatever the other numbers of a reading are, its signal speaks the more for a rise the higher the
fast line or the delta is, and the less the higher the price is. -/
theorem strength_follows_value {c : Curves ℝ} (hc : c.check = .ok ()) (given : Reading ℝ)
    (spec : Spec ℝ) (hid : given.specId = spec.id) :
    (spec.kind = .trend → ∀ slow reference crossed, ∃ signal,
      (ofCurves c).Answers given spec (.spread · slow reference crossed) signal ∧
        Monotone fun fast => (signal fast).strength) ∧
    (spec.kind = .volatility → ∀ lower middle upper, ∃ signal,
      (ofCurves c).Answers given spec (.band · lower middle upper) signal ∧
        Antitone fun price => (signal price).strength) ∧
    (spec.kind = .volume → ∀ scale, ∃ signal,
      (ofCurves c).Answers given spec (.flow · scale) signal ∧
        Monotone fun delta => (signal delta).strength) := by
  obtain ⟨htrend, hvolatility, hvolume⟩ := Curves.checks_of_check hc
  refine ⟨fun hkind slow reference crossed => ?_, fun hkind lower middle upper => ?_,
    fun hkind scale => ?_⟩
  · refine ⟨_, answers_settle hid
      (fun fast => (c.trendCurve spec.indicator).place fast slow reference crossed)
      fun fast => ?_, ?_⟩
    · rw [hkind]
      rfl
    · simp only [strength_settle]
      exact TrendCurve.strength_mono (htrend spec.indicator) slow reference crossed
  · refine ⟨_, answers_settle hid (fun price => c.volatility.place price lower middle upper)
      fun price => ?_, ?_⟩
    · rw [hkind]
      rfl
    · simp only [strength_settle]
      exact BandCurve.strength_anti hvolatility lower middle upper
  · refine ⟨_, answers_settle hid (fun delta => c.volume.place delta scale) fun delta => ?_, ?_⟩
    · rw [hkind]
      rfl
    · simp only [strength_settle]
      exact FlowCurve.strength_mono hvolume scale

theorem Answers.strength_eq {n : Normalizer ℝ} {given : Reading ℝ} {spec : Spec ℝ} {raw : ℝ → Raw ℝ}
    {signal : ℝ → Signal ℝ} (h : n.Answers given spec raw signal) (hid : given.specId = spec.id)
    (place : ℝ → Placement ℝ)
    (hplace : ∀ x, ((n.strategy spec.kind).bind fun strategy => strategy spec.indicator (raw x)) =
      some (place x)) (x : ℝ) : (signal x).strength = Placement.strength (place x) := by
  rw [Except.ok.inj ((h x).symm.trans (answers_settle hid place hplace x)), strength_settle]

def quickCrossover : Spec ℝ := ⟨"ema_cross_1_2", .trend, .emaCross 1 2⟩

noncomputable def quickEnvelope : Spec ℝ := ⟨"bollinger_2_2", .volatility, .bollinger 2 2⟩

/-- The standard curve of that crossing. -/
noncomputable def quickCurve : TrendCurve ℝ := ⟨0.0005, 0.03, 0.25⟩

theorem strength_quickCurve_rise :
    Placement.strength (quickCurve.place 101 100 (-100) (some .bullish)) = 7 / 12 := by
  have hspread : relativeSpread (101 : ℝ) 100 (-100) = 1 / 100 := by
    norm_num [relativeSpread, abs_real]
  rw [TrendCurve.strength_place, hspread, sided_of_pos (by norm_num), TrendCurve.side]
  norm_num [beyond, quickCurve, clampUnit_real]

theorem strength_quickCurve_fall :
    Placement.strength (quickCurve.place 99 100 (-100) (some .bullish)) = -1 / 3 := by
  have hspread : relativeSpread (99 : ℝ) 100 (-100) = -1 / 100 := by
    norm_num [relativeSpread, abs_real]
  rw [TrendCurve.strength_place, hspread, sided_of_neg (by norm_num), TrendCurve.side]
  simp only [Option.some.injEq, reduceCtorEq, if_false]
  norm_num [beyond, quickCurve, clampUnit_real]

theorem strength_below_inverted :
    Placement.strength ((BandCurve.standard : BandCurve ℝ).place 80 90 100 95) = 1 := by
  have hposition : bandPosition (80 : ℝ) 90 100 95 = some (-2) := by norm_num [bandPosition]
  simp [BandCurve.place, hposition, BandCurve.standard, Placement.strength, clampUnit_real,
    Direction.sign, abs_real, Direction.ofSign]

theorem strength_above_inverted :
    Placement.strength ((BandCurve.standard : BandCurve ℝ).place 120 90 100 95) = 0 := by
  have hposition : bandPosition (120 : ℝ) 90 100 95 = none := by norm_num [bandPosition]
  simp [BandCurve.place, hposition, Placement.strength_unmoved]

/-- A crossing at prices below zero, and an envelope whose upper line lies below its middle. -/
theorem strength_follows_value_inverted :
    (∃ signal, (ofCurves .standard).Answers ⟨quickCrossover.id, .missing, 1, 8⟩ quickCrossover
        (.spread · 100 (-100) (some .bullish)) signal ∧
      (signal 99).strength ≤ (signal 101).strength ∧
      (signal 99).strength = -1 / 3 ∧ (signal 101).strength = 7 / 12) ∧
    ∃ signal, (ofCurves .standard).Answers ⟨quickEnvelope.id, .missing, 1, 8⟩ quickEnvelope
        (.band · 90 100 95) signal ∧
      (signal 120).strength ≤ (signal 80).strength ∧
      (signal 120).strength = 0 ∧ (signal 80).strength = 1 := by
  obtain ⟨htrend, _⟩ :=
    strength_follows_value check_standard_curves ⟨quickCrossover.id, .missing, 1, 8⟩
      quickCrossover rfl
  obtain ⟨_, hvolatility, _⟩ :=
    strength_follows_value check_standard_curves ⟨quickEnvelope.id, .missing, 1, 8⟩
      quickEnvelope rfl
  obtain ⟨crossing, hcrossing, hrise⟩ := htrend rfl 100 (-100) (some .bullish)
  obtain ⟨inverted, hinverted, hfall⟩ := hvolatility rfl 90 100 95
  have hspread := hcrossing.strength_eq rfl
    (fun fast => quickCurve.place fast 100 (-100) (some .bullish)) fun _ => rfl
  have hband := hinverted.strength_eq rfl
    (fun price => BandCurve.standard.place price 90 100 95) fun _ => rfl
  exact ⟨⟨crossing, hcrossing, hrise (by norm_num), (hspread 99).trans strength_quickCurve_fall,
      (hspread 101).trans strength_quickCurve_rise⟩,
    inverted, hinverted, hfall (by norm_num), (hband 120).trans strength_above_inverted,
    (hband 80).trans strength_below_inverted⟩

end Normalizer

end MarketVerdict
