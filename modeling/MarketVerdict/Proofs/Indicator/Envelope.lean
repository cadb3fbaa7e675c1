import Mathlib.Algebra.Order.Chebyshev
import MarketVerdict.Proofs.Arithmetic.Real
import MarketVerdict.Proofs.Curve.Accepted
import MarketVerdict.Proofs.Fusion.Shape
import MarketVerdict.Proofs.Indicator.Totality

/-!
# The last close in its envelope

The envelope is even about the average of the latest closes and has no width exactly when all of
them are the same. The last close is one of the closes that the deviation is taken of, and no member
of a list is farther from the average than the square root of the number of the others, in
deviations. An envelope that is wide enough for its period is therefore never left.
-/

namespace MarketVerdict

open Scalar

namespace Average

/-! ### Distances from the average -/

/-- The sum of the squared distances from `m`. -/
noncomputable def dispersion (xs : List ℝ) (m : ℝ) : ℝ := (xs.map fun x => (x - m) * (x - m)).sum

theorem dispersion_nonneg (xs : List ℝ) (m : ℝ) : 0 ≤ dispersion xs m := by
  refine List.sum_nonneg fun y hy => ?_
  obtain ⟨x, _, rfl⟩ := List.mem_map.mp hy
  exact mul_self_nonneg _

theorem dispersion_cons (x : ℝ) (xs : List ℝ) (m : ℝ) :
    dispersion (x :: xs) m = (x - m) * (x - m) + dispersion xs m := by
  rw [dispersion, List.map_cons, List.sum_cons, dispersion]

theorem dispersion_perm {xs ys : List ℝ} (h : xs.Perm ys) (m : ℝ) :
    dispersion xs m = dispersion ys m :=
  (h.map _).sum_eq

theorem sum_sub (xs : List ℝ) (m : ℝ) : (xs.map (· - m)).sum = xs.sum - xs.length * m := by
  induction xs with
  | nil => simp
  | cons x xs ih =>
    rw [List.map_cons, List.sum_cons, ih, List.sum_cons, List.length_cons]
    push_cast
    ring

/-- The square of a sum is at most the sum of the squares, as often as there are terms. -/
theorem sq_sum_sub_le (xs : List ℝ) (m : ℝ) :
    (xs.sum - xs.length * m) ^ 2 ≤ xs.length * dispersion xs m := by
  have h := sq_sum_le_card_mul_sum_sq (s := Finset.univ)
    (f := fun i : Fin xs.length => xs[i] - m)
  have hsum : ∑ i : Fin xs.length, (xs[i] - m) = (xs.map (· - m)).sum :=
    Fin.sum_univ_fun_getElem xs (· - m)
  have hsquares : ∑ i : Fin xs.length, (xs[i] - m) ^ 2 = dispersion xs m := by
    simp only [sq]
    exact Fin.sum_univ_fun_getElem xs fun x => (x - m) * (x - m)
  rwa [Finset.card_univ, Fintype.card_fin, hsum, hsquares, sum_sub] at h

variable {xs : List ℝ} {m x : ℝ}

/-- The distances of the others cancel that of `x`, so they account for their share of the
dispersion at least. -/
theorem length_mul_sq_le (hsum : xs.sum = xs.length * m) (hx : x ∈ xs) :
    xs.length * (x - m) ^ 2 ≤ (xs.length - 1) * dispersion xs m := by
  obtain ⟨others, hperm⟩ : ∃ others, xs.Perm (x :: others) := ⟨_, List.perm_cons_erase hx⟩
  have hlength : (xs.length : ℝ) = others.length + 1 := by
    rw [hperm.length_eq, List.length_cons, Nat.cast_add, Nat.cast_one]
  have hrest : others.sum - others.length * m = -(x - m) := by
    have hcons : x + others.sum = (others.length + 1) * m := by
      rw [← List.sum_cons, ← hperm.sum_eq, hsum, hlength]
    linarith
  have hothers := sq_sum_sub_le others m
  rw [hrest] at hothers
  rw [dispersion_perm hperm, dispersion_cons, hlength]
  linarith

/-- Without dispersion all members are the average, and the other way round. -/
theorem dispersion_eq_zero_iff (hsum : xs.sum = xs.length * m) :
    dispersion xs m = 0 ↔ ∀ x ∈ xs, x = m := by
  constructor
  · intro hzero x hx
    have hpos : (0 : ℝ) < xs.length := by exact_mod_cast List.length_pos_of_mem hx
    have hle := length_mul_sq_le hsum hx
    rw [hzero, mul_zero] at hle
    have hsq : (x - m) ^ 2 = 0 :=
      le_antisymm (nonpos_of_mul_nonpos_right hle hpos) (sq_nonneg _)
    exact sub_eq_zero.mp (pow_eq_zero_iff two_ne_zero |>.mp hsq)
  · intro hall
    refine List.sum_eq_zero fun y hy => ?_
    obtain ⟨x, hx, rfl⟩ := List.mem_map.mp hy
    rw [hall x hx, sub_self, mul_zero]

theorem forall_eq_mean_iff (hsum : xs.sum = xs.length * m) (hx : x ∈ xs) :
    (∀ y ∈ xs, y = m) ↔ ∀ y ∈ xs, y = x := by
  constructor
  · intro hall y hy
    rw [hall y hy, hall x hx]
  · intro hall y hy
    have hpos : (0 : ℝ) < xs.length := by exact_mod_cast List.length_pos_of_mem hx
    have htotal := List.sum_eq_card_nsmul xs x hall
    rw [nsmul_eq_mul, hsum] at htotal
    rw [hall y hy]
    exact (mul_left_cancel₀ hpos.ne' htotal).symm

end Average

/-! ### The envelope -/

namespace Bollinger

/-- The envelope with its lines at one distance on both sides of the middle. -/
noncomputable def around (middle half : ℝ) : Bollinger ℝ :=
  ⟨middle + half, middle, middle - half⟩

noncomputable def position (b : Bollinger ℝ) (price : ℝ) : Option ℝ :=
  bandPosition price b.lower b.middle b.upper

theorem position_around (middle half price : ℝ) :
    (around middle half).position price =
      if 0 < half then some ((price - middle) / half) else none := by
  simp only [position, bandPosition, around, add_sub_cancel_left, sub_sub_cancel, ite_self]

/-- What an envelope says about the closes that it was made of, the last of them `close`. -/
structure Encloses (b : Bollinger ℝ) (period : ℕ) (width : ℝ) (closes : List ℝ) (close : ℝ) :
    Prop where
  lower_le : b.lower ≤ b.middle
  le_upper : b.middle ≤ b.upper
  even : b.middle - b.lower = b.upper - b.middle
  flat_iff : (∀ price, b.position price = none) ↔ ∀ c ∈ closes, ∀ c' ∈ closes, c = c'
  place : (∃ c ∈ closes, ∃ c' ∈ closes, c ≠ c') →
    ∃ p, b.position close = some p ∧ |p| ≤ √(period - 1) / width

/-- Where the last close has a place at all, it is within the bound. -/
theorem Encloses.abs_le {b : Bollinger ℝ} {period : ℕ} {width close : ℝ} {closes : List ℝ}
    (h : b.Encloses period width closes close) {p : ℝ} (hp : b.position close = some p) :
    |p| ≤ √(period - 1) / width := by
  have hmoved : ∃ c ∈ closes, ∃ c' ∈ closes, c ≠ c' := by
    by_contra hsame
    push Not at hsame
    rw [h.flat_iff.mpr hsame close] at hp
    cases hp
  obtain ⟨p', hp', hle⟩ := h.place hmoved
  cases hp.symm.trans hp'
  exact hle

section Around

variable {closes : List ℝ} {middle width close : ℝ}

/-- The distance from the middle to either line. -/
noncomputable def half (closes : List ℝ) (middle width : ℝ) : ℝ :=
  width * √(Average.dispersion closes middle / closes.length)

theorem half_nonneg (hwidth : 0 < width) : 0 ≤ half closes middle width :=
  mul_nonneg hwidth.le (Real.sqrt_nonneg _)

theorem half_pos_iff (hwidth : 0 < width) (hsum : closes.sum = closes.length * middle)
    (hclose : close ∈ closes) :
    0 < half closes middle width ↔ ¬ ∀ c ∈ closes, c = close := by
  have hlength : (0 : ℝ) < closes.length := by exact_mod_cast List.length_pos_of_mem hclose
  have hdispersion := Average.dispersion_nonneg closes middle
  rw [half, mul_pos_iff_of_pos_left hwidth, Real.sqrt_pos, div_pos_iff_of_pos_right hlength,
    hdispersion.lt_iff_ne', ne_eq, Average.dispersion_eq_zero_iff hsum,
    Average.forall_eq_mean_iff hsum hclose]

theorem forall_eq_iff_pairwise (hclose : close ∈ closes) :
    (∀ c ∈ closes, c = close) ↔ ∀ c ∈ closes, ∀ c' ∈ closes, c = c' :=
  ⟨fun h c hc c' hc' => (h c hc).trans (h c' hc').symm, fun h c hc => h c hc close hclose⟩

/-- No close of the window is farther out than the root of the number of the others, counted in
deviations. -/
theorem abs_sub_le (hsum : closes.sum = closes.length * middle) (hclose : close ∈ closes) :
    |close - middle| ≤
      √(closes.length - 1) * √(Average.dispersion closes middle / closes.length) := by
  have hlength : (1 : ℝ) ≤ closes.length := by exact_mod_cast List.length_pos_of_mem hclose
  have hsq : (close - middle) ^ 2 ≤
      (closes.length - 1) * (Average.dispersion closes middle / closes.length) := by
    rw [← mul_div_assoc, le_div_iff₀ (by linarith), mul_comm]
    exact Average.length_mul_sq_le hsum hclose
  rw [← Real.sqrt_mul (by linarith)]
  exact Real.abs_le_sqrt hsq

theorem abs_position_le (hwidth : 0 < width) (hsum : closes.sum = closes.length * middle)
    (hclose : close ∈ closes) (hhalf : 0 < half closes middle width) :
    |(close - middle) / half closes middle width| ≤ √(closes.length - 1) / width := by
  rw [abs_div, abs_of_pos hhalf, div_le_div_iff₀ hhalf hwidth, half]
  calc |close - middle| * width
      ≤ √(closes.length - 1) * √(Average.dispersion closes middle / closes.length) * width :=
        mul_le_mul_of_nonneg_right (abs_sub_le hsum hclose) hwidth.le
    _ = √(closes.length - 1) * (width * √(Average.dispersion closes middle / closes.length)) := by
        ring

theorem encloses_around (hwidth : 0 < width) (hsum : closes.sum = closes.length * middle)
    (hclose : close ∈ closes) :
    (around middle (half closes middle width)).Encloses closes.length width closes close where
  lower_le := sub_le_self _ (half_nonneg hwidth)
  le_upper := le_add_of_nonneg_right (half_nonneg hwidth)
  even := by rw [around, sub_sub_cancel, add_sub_cancel_left]
  flat_iff := by
    rw [← forall_eq_iff_pairwise hclose, ← not_iff_not, ← half_pos_iff hwidth hsum hclose]
    simp only [position_around]
    by_cases hhalf : 0 < half closes middle width <;> simp [hhalf]
  place := by
    rintro ⟨c, hc, c', hc', hne⟩
    have hhalf : 0 < half closes middle width := by
      rw [half_pos_iff hwidth hsum hclose, forall_eq_iff_pairwise hclose]
      exact fun h => hne (h c hc c' hc')
    refine ⟨_, ?_, abs_position_le hwidth hsum hclose hhalf⟩
    rw [position_around, if_pos hhalf]

end Around

end Bollinger

section Latest

variable {closes : List ℝ} {period : ℕ}

theorem bollinger_eq_around (hp : 0 < period) (h : period ≤ closes.length) (width : ℝ) :
    ∃ middle, (closes.drop (closes.length - period)).sum = period * middle ∧
      bollinger closes period width = some (Bollinger.around middle
        (Bollinger.half (closes.drop (closes.length - period)) middle width)) := by
  have hwindow : Average.window? closes period = some (closes.drop (closes.length - period)) :=
    if_neg (by omega)
  have hpos : (period : ℝ) ≠ 0 := Nat.cast_ne_zero.mpr hp.ne'
  refine ⟨(closes.drop (closes.length - period)).sum / period, by field_simp, ?_⟩
  simp only [bollinger, Average.deviation, Average.mean, hwindow, Option.map_some, sum_real]
  rw [Bollinger.half, length_latest h]
  rfl

theorem getLast_mem_latest (hp : 0 < period) (h : period ≤ closes.length) {close : ℝ}
    (hlast : closes.getLast? = some close) : close ∈ closes.drop (closes.length - period) := by
  have hdrop : (closes.drop (closes.length - period)).getLast? = some close := by
    rw [List.getLast?_drop, if_neg (by omega), hlast]
  exact List.mem_of_getLast? hdrop

theorem exists_encloses (hp : 0 < period) (h : period ≤ closes.length) {width : ℝ}
    (hwidth : 0 < width) {close : ℝ} (hlast : closes.getLast? = some close) :
    ∃ b, bollinger closes period width = some b ∧
      b.Encloses period width (closes.drop (closes.length - period)) close := by
  have hlength := length_latest h
  obtain ⟨middle, hsum, hb⟩ := bollinger_eq_around hp h width
  have hencloses := Bollinger.encloses_around hwidth (by rw [hsum, hlength])
    (getLast_mem_latest hp h hlast)
  rw [hlength] at hencloses
  exact ⟨_, hb, hencloses⟩

end Latest

/-! ### Signals -/

/-- Neither direction, and nothing behind it. -/
structure Signal.Mute (s : Signal ℝ) : Prop where
  direction : s.direction = .neutral
  magnitude : s.magnitude = 0

namespace Normalizer

variable {c : Curves ℝ} {spec : Spec ℝ} {s : Series ℝ}

theorem mute_settle_unmoved (spec : Spec ℝ) (coverage : ℝ) :
    (settle spec unmoved coverage).Mute := by
  have hzero : clampUnit (0 : ℝ) = 0 := clampUnit_of_mem ⟨le_rfl, zero_le_one⟩
  exact ⟨by simp [settle, unmoved], hzero⟩

/-- An indicator whose values all stay unmoved says nothing on any history. -/
theorem exists_mute (hc : c.Complete) (hkind : spec.kind = spec.indicator.defaultKind)
    (hvalues : ∀ value, Technical.raw spec.params s = some value →
      c.strategy spec.kind spec.indicator value = some unmoved) :
    ∃ signal, (ofCurves c).signal (Technical.reading spec s) spec = .ok signal ∧ signal.Mute := by
  obtain ⟨signal, hsignal⟩ := exists_signal_technical (s := s) hc hkind
  refine ⟨signal, hsignal, ?_⟩
  rcases cases_of_signal hsignal with ⟨_, rfl⟩ | ⟨value, placement, hvalue, hplaced, rfl⟩
  · exact ⟨rfl, rfl⟩
  · have hunmoved := hvalues value (Technical.raw_of_reading hvalue)
    cases hplaced.symm.trans hunmoved
    exact mute_settle_unmoved spec _

end Normalizer

theorem BandCurve.place_of_abs_lt {c : BandCurve ℝ} {b : Bollinger ℝ} {price : ℝ}
    (h : ∀ p, b.position price = some p → |p| < c.edge) :
    c.place price b.lower b.middle b.upper = unmoved := by
  unfold BandCurve.place
  split
  · rfl
  · next p hp => exact if_pos (h p hp)

theorem bollinger_eq_none {closes : List ℝ} {period : ℕ} (h : closes.length < period) (width : ℝ) :
    bollinger closes period width = none := by
  rw [bollinger, Average.mean, Average.window?, if_pos (Or.inr h)]
  rfl

/-- A close that can come no farther out than the edge leaves its envelope on no history. -/
theorem Technical.place_bollinger {period : ℕ} (hp : 0 < period) {width : ℝ} (hwidth : 0 < width)
    {c : BandCurve ℝ} (hedge : √((period : ℝ) - 1) / width < c.edge) {s : Series ℝ} {value : Raw ℝ}
    (hvalue : raw (.bollinger period width) s = some value) :
    ∃ price lower middle upper, value = .band price lower middle upper ∧
      c.place price lower middle upper = unmoved := by
  obtain ⟨last, hlast, hvalue⟩ := Option.bind_eq_some_iff.mp hvalue
  obtain ⟨b, hb, hvalue⟩ := Option.bind_eq_some_iff.mp hvalue
  cases hvalue
  have hl : period ≤ s.closes.length := by
    by_contra hshort
    rw [bollinger_eq_none (not_le.mp hshort)] at hb
    cases hb
  have hclose : s.closes.getLast? = some last.close := by
    rw [Series.closes, List.getLast?_map]
    exact congrArg (Option.map Bar.close) hlast
  obtain ⟨b', hb', hencloses⟩ := exists_encloses hp hl hwidth hclose
  cases hb.symm.trans hb'
  exact ⟨_, _, _, _, rfl, BandCurve.place_of_abs_lt fun p hposition =>
    (hencloses.abs_le hposition).trans_lt hedge⟩

/-- The bands are even about the average, they have no width exactly on equal closes, and otherwise
the root of the period less one, over the width, bounds the place of the last close. Where the curve
has its edge beyond this bound, the signal is mute on every history. -/
theorem bollinger_encloses {period : ℕ} (hp : 0 < period) {width : ℝ} (hwidth : 0 < width) :
    (∀ bars : List (Bar ℝ), period ≤ bars.length → ∃ b last,
      bollinger (bars.map Bar.close) period width = some b ∧ bars.getLast? = some last ∧
      b.Encloses period width ((bars.drop (bars.length - period)).map Bar.close) last.close) ∧
    ∀ c : Curves ℝ, c.check = .ok () →
      (period : ℝ) - 1 < (width * c.volatility.edge) ^ 2 →
        ∀ (spec : Spec ℝ) (s : Series ℝ), spec.params = .bollinger period width →
          spec.kind = spec.indicator.defaultKind →
            ∃ signal, (Normalizer.ofCurves c).signal (Technical.reading spec s) spec = .ok signal ∧
              signal.Mute := by
  constructor
  · intro bars hl
    obtain ⟨last, hlast⟩ := exists_getLast? (Nat.lt_of_lt_of_le hp hl)
    have hclose : (bars.map Bar.close).getLast? = some last.close := by
      rw [List.getLast?_map, hlast, Option.map_some]
    obtain ⟨b, hb, hencloses⟩ := exists_encloses hp (by simpa using hl) hwidth hclose
    rw [List.length_map, ← List.map_drop] at hencloses
    exact ⟨b, last, hb, hlast, hencloses⟩
  · intro c hc hnarrow spec s hparams hkind
    obtain ⟨_, hvolatility, _⟩ := Curves.checks_of_check hc
    have hedge : 0 < c.volatility.edge := (BandCurve.check_eq_ok_iff.mp hvolatility).1.2
    have hreach : √((period : ℝ) - 1) / width < c.volatility.edge := by
      rw [div_lt_iff₀' hwidth]
      exact (Real.sqrt_lt' (mul_pos hwidth hedge)).mpr hnarrow
    refine Normalizer.exists_mute (Curves.complete_of_check hc) hkind fun value hvalue => ?_
    rw [hparams] at hvalue
    obtain ⟨price, lower, middle, upper, rfl, hplace⟩ :=
      Technical.place_bollinger hp hwidth hreach hvalue
    rw [hkind, Spec.indicator, hparams]
    exact congrArg some hplace

/-- Two closes far apart. -/
noncomputable def leap : Series ℝ :=
  ⟨"leap", [⟨⟨0, 0⟩, 10, 10, 10, 10, 1⟩, ⟨⟨1, 0⟩, 1000, 1000, 1000, 1000, 1⟩],
    List.pairwise_pair.mpr (by decide)⟩

noncomputable def narrow : Spec ℝ := ⟨"bollinger_2_2", .volatility, .bollinger 2 2⟩

theorem bollinger_encloses_leap :
    0 < 2 ∧ (0 : ℝ) < 2 ∧ (∃ b, bollinger leap.closes 2 2 = some b ∧
      b.Encloses 2 2 [10, 1000] 1000) ∧
      (Curves.standard : Curves ℝ).check = .ok () ∧
      ((2 : ℕ) : ℝ) - 1 < (2 * (Curves.standard : Curves ℝ).volatility.edge) ^ 2 ∧
      ∃ signal, (Normalizer.ofCurves .standard).signal (Technical.reading narrow leap) narrow =
        .ok signal ∧ signal.Mute := by
  have hnarrow : ((2 : ℕ) : ℝ) - 1 < (2 * (Curves.standard : Curves ℝ).volatility.edge) ^ 2 := by
    norm_num [Curves.standard, BandCurve.standard]
  obtain ⟨hencloses, hmute⟩ := bollinger_encloses Nat.zero_lt_two (zero_lt_two (α := ℝ))
  obtain ⟨b, last, hb, hlast, hclose⟩ := hencloses leap.bars le_rfl
  cases hlast
  exact ⟨by decide, zero_lt_two, ⟨b, hb, hclose⟩, check_standard_curves, hnarrow,
    hmute .standard check_standard_curves hnarrow narrow leap rfl rfl⟩

end MarketVerdict
