import Mathlib
import MarketVerdict.Proofs.Fusion.Shape
import MarketVerdict.Proofs.Lookback.Windows

/-!
# Two names for the place in a range

Without smoothing, the stochastic counts the place of the last close from the bottom of the range,
and the other oscillator counts it from the top. The two scales differ by their origin alone, also
where the range has no extent or a close lies outside it, and the standard bands were moved along. A
history therefore gives both the same signal.
-/

namespace MarketVerdict

open Scalar

/-! ### The last window -/

theorem Average.window?_length {β : Type} {xs : List β} (h : 0 < xs.length) :
    window? xs xs.length = some xs := by
  rw [window?, if_neg (by omega), Nat.sub_self, List.drop_zero]

/-- The average of one value is that value. -/
theorem Average.mean_one (values : List ℝ) : mean values 1 = values.getLast? := by
  rcases List.eq_nil_or_concat' values with rfl | ⟨init, last, rfl⟩
  · rfl
  · have hwindow : window? (init ++ [last]) 1 = some [last] := by
      rw [window?, if_neg (by simp), List.length_append, List.length_singleton, Nat.add_sub_cancel,
        List.drop_left]
    simp [mean, hwindow, sum_real]

theorem windows_length {β : Type} {xs : List β} (h : 0 < xs.length) :
    windows xs.length xs = [xs] := by
  obtain ⟨x, rest, rfl⟩ := List.exists_cons_of_length_pos h
  have hrest : windows (x :: rest).length rest = [] := windows_eq_nil (by simp)
  rw [windows, hrest, List.take_length, if_neg (Nat.lt_irrefl _)]

section Bars

variable {bars : List (Bar ℝ)} {period : ℕ}

theorem stochastic_length (h : 0 < bars.length) :
    stochastic bars bars.length 1 = (percentK bars).map fun k => ⟨k, k⟩ := by
  rw [stochastic, if_neg (by omega), windows_length h, List.mapM_cons, List.mapM_nil]
  cases percentK bars with
  | none => rfl
  | some k =>
    change (Average.mean [k] 1).bind (fun d => some (⟨k, d⟩ : Stochastic ℝ)) = _
    rw [Average.mean_one]
    rfl

/-- What is missing to the top is what has come from the bottom, less all of it. -/
theorem share_from_top (high low close : ℝ) :
    (if high - low == 0 then -50 else -100 * (high - close) / (high - low)) =
      (if high - low == 0 then 50 else 100 * (close - low) / (high - low)) - 100 := by
  by_cases h : high - low = 0
  · norm_num [h]
  · simp only [beq_iff_eq, h, if_false]
    field_simp
    ring

theorem williamsR_length (h : 0 < bars.length) :
    williamsR bars bars.length = (percentK bars).map (· - 100) := by
  have hwindow (field : Bar ℝ → ℝ) :
      Average.window? (bars.map field) bars.length = some (bars.map field) := by
    rw [Average.window?_map, Average.window?_length h]
    rfl
  obtain ⟨last, hlast⟩ := exists_getLast? h
  rw [williamsR, percentK, Average.highest, Average.lowest, hwindow, hwindow, hlast, least?_real,
    greatest?_real, Option.bind_some, Option.bind_some]
  cases largest? none (bars.map Bar.high) with
  | none => rfl
  | some high =>
    cases smallest? none (bars.map Bar.low) with
    | none => rfl
    | some low => exact congrArg some (share_from_top high low last.close)

/-- Both oscillators see the latest bars only, and on these both are the place in their range. -/
theorem exists_percentK_latest (hp : 0 < period) (hl : period ≤ bars.length) :
    ∃ k, stochastic bars period 1 = some ⟨k, k⟩ ∧ williamsR bars period = some (k - 100) := by
  have hlength := length_latest hl
  have hpos : 0 < (bars.drop (bars.length - period)).length := hlength.symm ▸ hp
  obtain ⟨k, hk⟩ := exists_percentK hpos
  have hstochastic := stochastic_length hpos
  have hwilliams := williamsR_length hpos
  rw [hlength, hk] at hstochastic hwilliams
  rw [stochastic_drop hp Nat.one_pos (by omega)] at hstochastic
  rw [williamsR_drop hp (by omega)] at hwilliams
  exact ⟨k, hstochastic, hwilliams⟩

theorem undefined_of_lt (h : bars.length < period) :
    stochastic bars period 1 = none ∧ williamsR bars period = none := by
  constructor
  · exact if_pos (by omega)
  · rw [williamsR, Average.highest, Average.window?, if_pos (by rw [List.length_map]; omega)]
    rfl

end Bars

/-! ### Signals -/

namespace OscillatorBands

/-- The bands for levels that are counted from another origin. -/
noncomputable def shift (b : OscillatorBands ℝ) (c : ℝ) : OscillatorBands ℝ :=
  ⟨b.min + c, b.max + c, b.lower + c, b.upper + c⟩

theorem place_shift (b : OscillatorBands ℝ) (c value : ℝ) :
    (b.shift c).place (value + c) = b.place value := by
  simp only [place, shift, distanceFromMidpoint, normalizeScore, add_le_add_iff_right,
    add_sub_add_right_eq_sub, beq_iff_eq, add_left_inj]

end OscillatorBands

theorem Curves.place_williamsR (k : ℝ) :
    (⟨-100, 0, -80, -20⟩ : OscillatorBands ℝ).place (k - 100) =
      (⟨0, 100, 20, 80⟩ : OscillatorBands ℝ).place k := by
  have hbands : (⟨-100, 0, -80, -20⟩ : OscillatorBands ℝ) =
      OscillatorBands.shift ⟨0, 100, 20, 80⟩ (-100) := by
    norm_num [OscillatorBands.shift]
  rw [hbands, sub_eq_add_neg, OscillatorBands.place_shift]

/-- Signals that differ at most in what they are signals of. -/
structure Signal.SaysAs (s t : Signal ℝ) : Prop where
  direction : s.direction = t.direction
  magnitude : s.magnitude = t.magnitude
  reliability : s.reliability = t.reliability

theorem Normalizer.exists_saysAs {top bottom : Spec ℝ} {period : ℕ} (hp : 0 < period)
    (htop : top.params = .williamsR period) (hbottom : bottom.params = .stochastic period 1)
    (hkind : top.kind = .oscillator) (hkind' : bottom.kind = .oscillator) (s : Series ℝ) :
    ∃ t b, (ofCurves .standard).signal (Technical.reading top s) top = .ok t ∧
      (ofCurves .standard).signal (Technical.reading bottom s) bottom = .ok b ∧ t.SaysAs b := by
  rcases Nat.lt_or_ge s.length period with h | h
  · have hmissing : Technical.reading top s = Reading.missing top s.length :=
      Technical.reading_of_lt (by rw [htop]; exact h)
    have hmissing' : Technical.reading bottom s = Reading.missing bottom s.length :=
      Technical.reading_of_lt (by rw [hbottom]; exact h)
    refine ⟨Signal.noData top.id top.kind, Signal.noData bottom.id bottom.kind, ?_, ?_,
      ⟨rfl, rfl, rfl⟩⟩
    · rw [hmissing]
      exact signal_missing _ top s.length
    · rw [hmissing']
      exact signal_missing _ bottom s.length
  · obtain ⟨k, hk, hr⟩ := exists_percentK_latest hp h
    have hreading : Technical.reading top s = Reading.present top (.level (k - 100)) s.length :=
      Technical.reading_of_raw (by rw [htop]; exact h) (by rw [htop, Technical.raw, hr]; rfl)
    have hreading' : Technical.reading bottom s = Reading.present bottom (.level k) s.length :=
      Technical.reading_of_raw (by rw [hbottom]; exact h) (by rw [hbottom, Technical.raw, hk]; rfl)
    have hcoverage : (Reading.present top (.level (k - 100)) s.length).coverage =
        (Reading.present bottom (.level k) s.length).coverage := by
      simp only [Reading.coverage, Reading.present, htop, hbottom]
      rfl
    have htopSignal : (ofCurves .standard).signal (Technical.reading top s) top =
        .ok (settle top ((⟨-100, 0, -80, -20⟩ : OscillatorBands ℝ).place (k - 100))
          (Reading.present top (.level (k - 100)) s.length).coverage) := by
      rw [hreading, signal_present _ _ rfl, hkind, Spec.indicator, htop]
      rfl
    have hbottomSignal : (ofCurves .standard).signal (Technical.reading bottom s) bottom =
        .ok (settle bottom ((⟨0, 100, 20, 80⟩ : OscillatorBands ℝ).place k)
          (Reading.present bottom (.level k) s.length).coverage) := by
      rw [hreading', signal_present _ _ rfl, hkind', Spec.indicator, hbottom]
      rfl
    refine ⟨_, _, htopSignal, hbottomSignal, ?_⟩
    rw [hcoverage, Curves.place_williamsR]
    exact ⟨rfl, rfl, rfl⟩

/-- Both oscillators have a value on the same bars, and the values are the same up to the origin of
the scale; under the standard curves the signals are the same on every series. -/
theorem range_oscillators_agree {period : ℕ} (hp : 0 < period) :
    (∀ bars : List (Bar ℝ),
      ((williamsR bars period).isSome = true ↔ (stochastic bars period 1).isSome = true) ∧
        ∀ r v, williamsR bars period = some r → stochastic bars period 1 = some v →
          r = v.k - 100 ∧ r = v.d - 100) ∧
    ∀ (s : Series ℝ) (top bottom : Spec ℝ),
      top.params = .williamsR period → bottom.params = .stochastic period 1 →
      top.kind = top.indicator.defaultKind → bottom.kind = bottom.indicator.defaultKind →
        ∃ t b, (Normalizer.ofCurves .standard).signal (Technical.reading top s) top = .ok t ∧
          (Normalizer.ofCurves .standard).signal (Technical.reading bottom s) bottom = .ok b ∧
          t.SaysAs b := by
  constructor
  · intro bars
    rcases Nat.lt_or_ge bars.length period with h | h
    · obtain ⟨hstochastic, hwilliams⟩ := undefined_of_lt h
      rw [hstochastic, hwilliams]
      exact ⟨Iff.rfl, nofun⟩
    · obtain ⟨k, hstochastic, hwilliams⟩ := exists_percentK_latest hp h
      rw [hstochastic, hwilliams]
      refine ⟨Iff.rfl, ?_⟩
      rintro r v ⟨⟩ ⟨⟩
      exact ⟨rfl, rfl⟩
  · intro s top bottom htop hbottom hkind hkind'
    rw [Spec.indicator, htop] at hkind
    rw [Spec.indicator, hbottom] at hkind'
    exact Normalizer.exists_saysAs hp htop hbottom hkind hkind' s

/-- Highs below lows, and a last close outside both. -/
noncomputable def inverted : Series ℝ :=
  ⟨"inverted", [⟨⟨0, 0⟩, 10, 9, 11, 10, 1⟩, ⟨⟨1, 0⟩, 10, 10, 12, 5, 1⟩],
    List.pairwise_pair.mpr (by decide)⟩

def fromTop : Spec ℝ := ⟨"williams_r_2", .oscillator, .williamsR 2⟩

def fromBottom : Spec ℝ := ⟨"stochastic_2_1", .oscillator, .stochastic 2 1⟩

theorem range_oscillators_agree_inverted :
    0 < 2 ∧ williamsR inverted.bars 2 = some 500 ∧
      (∃ v, stochastic inverted.bars 2 1 = some v ∧ v.k = 600 ∧ v.d = 600) ∧
      ∃ t b,
        (Normalizer.ofCurves .standard).signal (Technical.reading fromTop inverted) fromTop =
          .ok t ∧
        (Normalizer.ofCurves .standard).signal (Technical.reading fromBottom inverted) fromBottom =
          .ok b ∧
        t.SaysAs b := by
  have hwilliams : williamsR inverted.bars 2 = some 500 := by
    norm_num [williamsR, inverted, Average.highest, Average.lowest, Average.window?, largest?,
      smallest?, larger_real, smaller_real]
  obtain ⟨hvalues, hsignals⟩ := range_oscillators_agree (Nat.zero_lt_two)
  obtain ⟨hdefined, hshifted⟩ := hvalues inverted.bars
  obtain ⟨v, hv⟩ := Option.isSome_iff_exists.mp (hdefined.mp (by rw [hwilliams]; rfl))
  obtain ⟨hk, hd⟩ := hshifted 500 v hwilliams hv
  exact ⟨by decide, hwilliams, ⟨v, hv, by linarith, by linarith⟩,
    hsignals inverted fromTop fromBottom rfl rfl rfl rfl⟩

end MarketVerdict
