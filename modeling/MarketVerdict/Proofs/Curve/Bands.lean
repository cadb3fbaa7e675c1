import Mathlib
import MarketVerdict.Proofs.Curve.Strength

/-!
# Levels outside their bands

A level speaks once it leaves the band between the lower and the upper edge, for a rise below it and
for a fall above it, and its magnitude is the distance from the middle of the range. The edges may lie
anywhere within the range. Where the middle is inside the band, the strength falls as the level rises;
where an edge is beyond the middle, the levels between the two are outside the band and count the more
the farther they are from the middle, and the middle itself, outside the band as well, is silent.
-/

namespace MarketVerdict

open Scalar

theorem Scalar.abs_clampSigned (x : ℝ) : Scalar.abs (clampSigned x) = min |x| 1 := by
  rw [abs_real, clampSigned_real]
  rcases le_or_gt 0 x with h | h
  · have hmin : 0 ≤ min x 1 := le_min h zero_le_one
    rw [max_eq_right (by linarith), abs_of_nonneg hmin, abs_of_nonneg h]
  · rw [min_eq_left (by linarith), abs_of_neg h, abs_of_nonpos (max_le (by norm_num) h.le), max_def,
      min_def]
    split_ifs <;> linarith

theorem Normalizer.settle_of_mem (spec : Spec ℝ) (d : Direction) {magnitude : ℝ}
    (h : magnitude ∈ Set.Icc 0 1) (coverage : ℝ) :
    settle spec (d, magnitude) coverage =
      ⟨spec.id, spec.kind, if magnitude = 0 then .neutral else d, magnitude,
        clampUnit coverage⟩ := by
  simp only [settle, clampUnit_of_mem h, beq_iff_eq]

namespace OscillatorBands

variable {b : OscillatorBands ℝ}

noncomputable def midpoint (b : OscillatorBands ℝ) : ℝ := (b.min + b.max) / 2

/-- The distance from the middle of the range, up to the half range. -/
noncomputable def distance (b : OscillatorBands ℝ) (value : ℝ) : ℝ :=
  Min.min (|value - b.midpoint| / (b.max - b.midpoint)) 1

theorem min_lt_max (h : b.check = .ok ()) : b.min < b.max := by
  obtain ⟨_, hlower, hband, hupper⟩ := check_eq_ok_iff.mp h
  exact hlower.trans (hband.trans hupper)

theorem midpoint_lt_max (h : b.check = .ok ()) : b.midpoint < b.max := by
  have := min_lt_max h
  rw [midpoint]
  linarith

theorem distanceFromMidpoint_eq (h : b.check = .ok ()) (value : ℝ) :
    distanceFromMidpoint value b.min b.max = b.distance value := by
  have hrange := min_lt_max h
  have hhalf : 0 < b.max - b.midpoint := sub_pos.mpr (midpoint_lt_max h)
  have hplace : 2 * ((value - b.min) / (b.max - b.min)) - 1 =
      (value - b.midpoint) / (b.max - b.midpoint) := by
    have hwidth : b.max - b.min ≠ 0 := (sub_pos.mpr hrange).ne'
    have hmid : b.max - b.midpoint = (b.max - b.min) / 2 := by
      rw [midpoint]
      ring
    rw [hmid, midpoint]
    field_simp
    ring
  rw [distanceFromMidpoint, normalizeScore, if_neg (by simpa using hrange.ne'), hplace,
    abs_clampSigned, abs_div, abs_of_pos hhalf, distance]

theorem distance_mem (h : b.check = .ok ()) (value : ℝ) : b.distance value ∈ Set.Icc 0 1 :=
  ⟨le_min (div_nonneg (abs_nonneg _) (sub_pos.mpr (midpoint_lt_max h)).le) zero_le_one,
    min_le_right _ _⟩

theorem distance_pos_iff (h : b.check = .ok ()) {value : ℝ} :
    0 < b.distance value ↔ value ≠ b.midpoint := by
  rw [distance, lt_min_iff, div_pos_iff_of_pos_right (sub_pos.mpr (midpoint_lt_max h)), abs_pos,
    sub_ne_zero, and_iff_left zero_lt_one]

theorem distance_midpoint (b : OscillatorBands ℝ) : b.distance b.midpoint = 0 := by
  rw [distance, sub_self, abs_zero, zero_div, min_eq_left zero_le_one]

/-- Both ends of the range are a half range away from its middle. -/
theorem distance_eq_one (h : b.check = .ok ()) {value : ℝ}
    (hend : |value - b.midpoint| = b.max - b.midpoint) : b.distance value = 1 := by
  rw [distance, hend, div_self (sub_pos.mpr (midpoint_lt_max h)).ne', min_self]

theorem distance_min (h : b.check = .ok ()) : b.distance b.min = 1 := by
  have hrange := min_lt_max h
  refine distance_eq_one h ?_
  rw [midpoint, abs_of_neg (by linarith)]
  ring

theorem distance_max (h : b.check = .ok ()) : b.distance b.max = 1 :=
  distance_eq_one h (abs_of_pos (sub_pos.mpr (midpoint_lt_max h)))

theorem distance_le_distance (h : b.check = .ok ()) {value value' : ℝ}
    (hle : |value - b.midpoint| ≤ |value' - b.midpoint|) : b.distance value ≤ b.distance value' :=
  min_le_min_right _ (div_le_div_of_nonneg_right hle (sub_pos.mpr (midpoint_lt_max h)).le)

/-! ### The strength of a level -/

noncomputable def strength (b : OscillatorBands ℝ) (value : ℝ) : ℝ :=
  if value ≤ b.lower then b.distance value else if b.upper ≤ value then -b.distance value else 0

theorem place_of_le_lower (h : b.check = .ok ()) {value : ℝ} (hlower : value ≤ b.lower) :
    b.place value = (.bullish, b.distance value) := by
  rw [place, if_pos hlower, distanceFromMidpoint_eq h]

theorem place_of_upper_le (h : b.check = .ok ()) {value : ℝ} (hupper : b.upper ≤ value) :
    b.place value = (.bearish, b.distance value) := by
  obtain ⟨_, _, hband, _⟩ := check_eq_ok_iff.mp h
  rw [place, if_neg (hband.trans_le hupper).not_ge, if_pos hupper, distanceFromMidpoint_eq h]

theorem place_min (h : b.check = .ok ()) : b.place b.min = (.bullish, 1) := by
  obtain ⟨_, hlower, _⟩ := check_eq_ok_iff.mp h
  rw [place_of_le_lower h hlower.le, distance_min h]

theorem place_max (h : b.check = .ok ()) : b.place b.max = (.bearish, 1) := by
  obtain ⟨_, _, _, hupper⟩ := check_eq_ok_iff.mp h
  rw [place_of_upper_le h hupper.le, distance_max h]

theorem place_of_inside {value : ℝ} (hlower : b.lower < value) (hupper : value < b.upper) :
    b.place value = unmoved := by
  rw [place, if_neg hlower.not_ge, if_neg hupper.not_ge]

theorem strength_place (h : b.check = .ok ()) (value : ℝ) :
    Placement.strength (b.place value) = b.strength value := by
  have hclip := clampUnit_of_mem (distance_mem h value)
  unfold place strength
  rw [distanceFromMidpoint_eq h]
  split_ifs
  · rw [Placement.strength, hclip]
    exact one_mul _
  · rw [Placement.strength, hclip]
    exact neg_one_mul _
  · exact Placement.strength_unmoved

theorem strength_of_le_lower {value : ℝ} (h : value ≤ b.lower) :
    b.strength value = b.distance value := if_pos h

theorem strength_of_upper_le (h : b.check = .ok ()) {value : ℝ} (hupper : b.upper ≤ value) :
    b.strength value = -b.distance value := by
  obtain ⟨_, _, hband, _⟩ := check_eq_ok_iff.mp h
  rw [strength, if_neg (hband.trans_le hupper).not_ge, if_pos hupper]

theorem strength_nonneg (h : b.check = .ok ()) {value : ℝ} (hvalue : value < b.upper) :
    0 ≤ b.strength value := by
  rw [strength, if_neg hvalue.not_ge]
  split
  · exact (distance_mem h value).1
  · exact le_rfl

theorem strength_nonpos (h : b.check = .ok ()) {value : ℝ} (hvalue : b.lower < value) :
    b.strength value ≤ 0 := by
  rw [strength, if_neg hvalue.not_ge]
  split
  · exact neg_nonpos.mpr (distance_mem h value).1
  · exact le_rfl

/-- A higher level is no stronger, unless both levels are beyond the same edge and the one that is
nearer to the band lies across the middle. -/
theorem strength_le_strength (h : b.check = .ok ()) {value value' : ℝ} (hle : value ≤ value')
    (hlower : value' ≤ b.lower → value' ≤ b.midpoint)
    (hupper : b.upper ≤ value → b.midpoint ≤ value) : b.strength value' ≤ b.strength value := by
  rcases le_or_gt value' b.lower with hlow | hlow
  · have hmid := hlower hlow
    rw [strength_of_le_lower hlow, strength_of_le_lower (hle.trans hlow)]
    refine distance_le_distance h ?_
    rw [abs_of_nonpos (by linarith), abs_of_nonpos (by linarith)]
    linarith
  · rcases lt_or_ge value b.upper with hhigh | hhigh
    · exact (strength_nonpos h hlow).trans (strength_nonneg h hhigh)
    · have hmid := hupper hhigh
      rw [strength_of_upper_le h hhigh, strength_of_upper_le h (hhigh.trans hle)]
      refine neg_le_neg (distance_le_distance h ?_)
      rw [abs_of_nonneg (by linarith), abs_of_nonneg (by linarith)]
      linarith

theorem antitone_strength_iff (h : b.check = .ok ()) :
    Antitone b.strength ↔ b.lower ≤ b.midpoint ∧ b.midpoint ≤ b.upper := by
  constructor
  · intro hanti
    constructor
    · by_contra hlower
      rw [not_le] at hlower
      have hfall := hanti hlower.le
      rw [strength_of_le_lower le_rfl, strength_of_le_lower hlower.le, distance_midpoint] at hfall
      exact absurd hfall (not_le.mpr ((distance_pos_iff h).mpr hlower.ne'))
    · by_contra hupper
      rw [not_le] at hupper
      have hfall := hanti hupper.le
      rw [strength_of_upper_le h le_rfl, strength_of_upper_le h hupper.le, distance_midpoint,
        neg_zero] at hfall
      exact absurd (neg_nonneg.mp hfall) (not_le.mpr ((distance_pos_iff h).mpr hupper.ne))
  · rintro ⟨hlower, hupper⟩ value value' hle
    exact strength_le_strength h hle hlower.trans' hupper.trans

/-! ### Signals -/

/-- What the bands make of a level. -/
structure Hears (b : OscillatorBands ℝ) (value : ℝ) (s : Signal ℝ) : Prop where
  bullish : value ≤ b.lower → value ≠ b.midpoint → s.direction = .bullish ∧ 0 < s.magnitude
  bearish : b.upper ≤ value → value ≠ b.midpoint → s.direction = .bearish ∧ 0 < s.magnitude
  neutral : b.lower < value ∧ value < b.upper ∨ value = b.midpoint →
    s.direction = .neutral ∧ s.magnitude = 0
  magnitude : value ≤ b.lower ∨ b.upper ≤ value →
    s.magnitude = Min.min (|value - b.midpoint| / (b.max - b.midpoint)) 1

theorem place_midpoint (h : b.check = .ok ()) : ∃ d, b.place b.midpoint = (d, 0) := by
  rcases le_or_gt b.midpoint b.lower with hlower | hlower
  · exact ⟨_, by rw [place_of_le_lower h hlower, distance_midpoint]⟩
  · rcases le_or_gt b.upper b.midpoint with hupper | hupper
    · exact ⟨_, by rw [place_of_upper_le h hupper, distance_midpoint]⟩
    · exact ⟨_, place_of_inside hlower hupper⟩

theorem hears_settle (h : b.check = .ok ()) (spec : Spec ℝ) (value coverage : ℝ) :
    b.Hears value (Normalizer.settle spec (b.place value) coverage) := by
  have hsettle (d : Direction) := Normalizer.settle_of_mem spec d (distance_mem h value) coverage
  have hloud (d : Direction) (hne : value ≠ b.midpoint) :
      (Normalizer.settle spec (d, b.distance value) coverage).direction = d ∧
        0 < (Normalizer.settle spec (d, b.distance value) coverage).magnitude := by
    have hpos := (distance_pos_iff h).mpr hne
    rw [hsettle]
    exact ⟨if_neg hpos.ne', hpos⟩
  have hsilent (d : Direction) : (Normalizer.settle spec (d, 0) coverage).direction = .neutral ∧
      (Normalizer.settle spec (d, 0) coverage).magnitude = 0 := by
    rw [Normalizer.settle_of_mem spec d ⟨le_rfl, zero_le_one⟩]
    exact ⟨if_pos rfl, rfl⟩
  constructor
  case bullish =>
    intro hlower hne
    rw [place_of_le_lower h hlower]
    exact hloud .bullish hne
  case bearish =>
    intro hupper hne
    rw [place_of_upper_le h hupper]
    exact hloud .bearish hne
  case neutral =>
    rintro (⟨hlower, hupper⟩ | rfl)
    · rw [place_of_inside hlower hupper]
      exact hsilent .neutral
    · obtain ⟨d, hplace⟩ := place_midpoint h
      rw [hplace]
      exact hsilent d
  case magnitude =>
    rintro (hlower | hupper)
    · rw [place_of_le_lower h hlower, hsettle]
      rfl
    · rw [place_of_upper_le h hupper, hsettle]
      rfl

end OscillatorBands

namespace Normalizer

/-- Levels follow the bands of their indicator, and their strength falls all the way exactly when the
middle of the range lies between the edges. -/
theorem levels_follow_bands {b : OscillatorBands ℝ} (hb : b.check = .ok ()) {c : Curves ℝ}
    {spec : Spec ℝ} (hbands : c.oscillators spec.indicator = some b)
    (hkind : spec.kind = .oscillator) (given : Reading ℝ) (hid : given.specId = spec.id) :
    ∃ signal, (ofCurves c).Answers given spec .level signal ∧
      (∀ value, b.Hears value (signal value)) ∧
      (∀ value value', value ≤ value' → (value' ≤ b.lower → value' ≤ b.midpoint) →
        (b.upper ≤ value → b.midpoint ≤ value) →
        (signal value').strength ≤ (signal value).strength) ∧
      (Antitone (fun value => (signal value).strength) ↔
        b.lower ≤ b.midpoint ∧ b.midpoint ≤ b.upper) := by
  refine ⟨_, answers_settle hid b.place fun value => ?_, fun value =>
    OscillatorBands.hears_settle hb spec value _, ?_, ?_⟩
  · rw [hkind]
    change (c.oscillators spec.indicator).map _ = _
    rw [hbands]
    rfl
  · intro value value' hle hlower hupper
    rw [strength_settle, strength_settle, OscillatorBands.strength_place hb,
      OscillatorBands.strength_place hb]
    exact OscillatorBands.strength_le_strength hb hle hlower hupper
  · simp only [strength_settle, OscillatorBands.strength_place hb]
    exact OscillatorBands.antitone_strength_iff hb

/-- Edges that both lie above the middle of the range. -/
noncomputable def lopsided : OscillatorBands ℝ := ⟨0, 100, 70, 80⟩

noncomputable def lopsidedCurves : Curves ℝ :=
  { Curves.standard with oscillators := Curves.standardBands.set .rsi lopsided }

def usualRsi : Spec ℝ := ⟨"rsi_14", .oscillator, .rsi 14⟩

def usualReading : Reading ℝ := ⟨"rsi_14", .missing, 100, 42⟩

theorem check_lopsided : lopsided.check = .ok () := by
  norm_num [OscillatorBands.check_eq_ok_iff, lopsided]

theorem midpoint_lopsided : lopsided.midpoint = 50 := by
  norm_num [OscillatorBands.midpoint, lopsided]

theorem answers_lopsided :
    (ofCurves lopsidedCurves).Answers usualReading usualRsi .level fun value =>
      settle usualRsi (lopsided.place value) usualReading.coverage :=
  answers_settle rfl lopsided.place fun _ => rfl

theorem levels_follow_bands_lopsided :
    ∃ signal, (ofCurves lopsidedCurves).Answers usualReading usualRsi .level signal ∧
      lopsided.Hears 60 (signal 60) ∧ (signal 90).strength ≤ (signal 60).strength ∧
      ¬ Antitone fun value => (signal value).strength := by
  have hbands : lopsidedCurves.oscillators usualRsi.indicator = some lopsided := rfl
  obtain ⟨signal, hanswers, hhears, hfalls, hthroughout⟩ :=
    levels_follow_bands check_lopsided hbands rfl usualReading rfl
  refine ⟨signal, hanswers, hhears 60, hfalls 60 90 (by norm_num) ?_ ?_, fun hanti => ?_⟩
  · norm_num [lopsided]
  · norm_num [lopsided]
  · have hlower : (70 : ℝ) ≤ lopsided.midpoint := (hthroughout.mp hanti).1
    rw [midpoint_lopsided] at hlower
    norm_num at hlower

/-- Below an edge that lies beyond the middle, the middle itself is silent and a higher level is
stronger. -/
theorem lower_edge_beyond_midpoint :
    lopsided.check = .ok () ∧ ∃ s s',
      (ofCurves lopsidedCurves).signal (usualReading.withValue (.level 50)) usualRsi = .ok s ∧
      (ofCurves lopsidedCurves).signal (usualReading.withValue (.level 60)) usualRsi = .ok s' ∧
      (50 : ℝ) ≤ lopsided.lower ∧ (60 : ℝ) ≤ lopsided.lower ∧
      s.direction = .neutral ∧ s.magnitude = 0 ∧ s.strength < s'.strength := by
  have hlower : (50 : ℝ) ≤ lopsided.lower ∧ (60 : ℝ) ≤ lopsided.lower := by norm_num [lopsided]
  have hsilent := (OscillatorBands.hears_settle check_lopsided usualRsi 50
    usualReading.coverage).neutral (Or.inr midpoint_lopsided.symm)
  refine ⟨check_lopsided, _, _, answers_lopsided 50, answers_lopsided 60, hlower.1, hlower.2,
    hsilent.1, hsilent.2, ?_⟩
  rw [strength_settle, strength_settle, OscillatorBands.strength_place check_lopsided,
    OscillatorBands.strength_place check_lopsided, OscillatorBands.strength_of_le_lower hlower.1,
    OscillatorBands.strength_of_le_lower hlower.2, ← midpoint_lopsided,
    OscillatorBands.distance_midpoint]
  refine (OscillatorBands.distance_pos_iff check_lopsided).mpr ?_
  norm_num [midpoint_lopsided]

end Normalizer

end MarketVerdict
