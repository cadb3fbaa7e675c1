import MarketVerdict.Normalizer
import MarketVerdict.Proofs.Arithmetic.Real
import MarketVerdict.Proofs.Table
import MarketVerdict.Proofs.Traversal

/-!
# Curves that pass their checks

A curve passes its check when its numbers are finite and lie as its form requires: bands in order,
scales positive, neutral bands not negative. Curves that pass together pass one by one, also the one
that an indicator follows for want of its own.
-/

namespace MarketVerdict

open Scalar Traversal

section Checks

variable {α : Type} [Scalar α]

namespace OscillatorBands

theorem check_eq_ok_iff {b : OscillatorBands α} :
    b.check = .ok () ↔
      (isFinite b.min && isFinite b.max && isFinite b.lower && isFinite b.upper) = true ∧
        b.min < b.lower ∧ b.lower < b.upper ∧ b.upper < b.max := by
  rw [check, guard_eq_ok_iff, guard_eq_ok_iff, and_iff_left rfl]

end OscillatorBands

namespace TrendCurve

theorem check_eq_ok_iff {c : TrendCurve α} :
    c.check = .ok () ↔ (isFinite c.neutralBand = true ∧ 0 ≤ c.neutralBand) ∧
      (isFinite c.fullScale = true ∧ 0 < c.fullScale) ∧ inUnit c.crossoverBoost = true := by
  rw [check, guard_eq_ok_iff, guard_eq_ok_iff, guard_eq_ok_iff, and_iff_left rfl]

end TrendCurve

namespace BandCurve

theorem check_eq_ok_iff {c : BandCurve α} :
    c.check = .ok () ↔ (isFinite c.edge = true ∧ 0 < c.edge) ∧
      isFinite c.saturation = true ∧ c.edge ≤ c.saturation := by
  rw [check, guard_eq_ok_iff, guard_eq_ok_iff, and_iff_left rfl]

end BandCurve

namespace FlowCurve

theorem check_eq_ok_iff {c : FlowCurve α} :
    c.check = .ok () ↔ (isFinite c.neutralBand = true ∧ 0 ≤ c.neutralBand) ∧
      isFinite c.fullScale = true ∧ 0 < c.fullScale := by
  rw [check, guard_eq_ok_iff, guard_eq_ok_iff, and_iff_left rfl]

end FlowCurve

/-- Every curve that a value can meet passes its own check. -/
theorem Curves.checks_of_check {c : Curves α} (h : c.check = .ok ()) :
    (∀ i, (c.trendCurve i).check = .ok ()) ∧ c.volatility.check = .ok () ∧
      c.volume.check = .ok () := by
  obtain ⟨_, h⟩ := check_bind_eq_ok_iff.mp h
  obtain ⟨_, h⟩ := check_bind_eq_ok_iff.mp h
  obtain ⟨htrend, h⟩ := check_bind_eq_ok_iff.mp h
  obtain ⟨hdefault, h⟩ := check_bind_eq_ok_iff.mp h
  obtain ⟨hvolatility, hvolume⟩ := check_bind_eq_ok_iff.mp h
  refine ⟨fun i => ?_, mapError_eq_ok_iff.mp hvolatility, mapError_eq_ok_iff.mp hvolume⟩
  unfold trendCurve
  cases hcurve : c.trend i with
  | none => exact mapError_eq_ok_iff.mp hdefault
  | some curve =>
    have hmem := Assignment.mem_entries_iff.mpr ⟨i.mem_all, hcurve⟩
    exact mapError_eq_ok_iff.mp (forM_eq_ok_iff.mp htrend _ hmem)

theorem Curves.check_of_oscillators {c : Curves α} (h : c.check = .ok ()) {i : Indicator}
    {bands : OscillatorBands α} (hbands : c.oscillators i = some bands) :
    bands.check = .ok () := by
  obtain ⟨_, h⟩ := check_bind_eq_ok_iff.mp h
  obtain ⟨hoscillators, _⟩ := check_bind_eq_ok_iff.mp h
  have hmem := Assignment.mem_entries_iff.mpr ⟨i.mem_all, hbands⟩
  exact mapError_eq_ok_iff.mp (forM_eq_ok_iff.mp hoscillators _ hmem)

end Checks

theorem check_standard_curves : (Curves.standard : Curves ℝ).check = .ok () := by
  simp only [Curves.check, check_bind_eq_ok_iff, forM_eq_ok_iff, mapError_eq_ok_iff,
    Curves.checkEntry]
  refine ⟨fun i _ => by cases i <;> rfl, ?_, ?_, ?_, ?_, ?_⟩
  · change ∀ x ∈ [(Indicator.rsi, (⟨0, 100, 30, 70⟩ : OscillatorBands ℝ)),
      (.stochastic, ⟨0, 100, 20, 80⟩), (.williamsR, ⟨-100, 0, -80, -20⟩)], x.2.check = .ok ()
    simp only [List.forall_mem_cons, OscillatorBands.check_eq_ok_iff]
    norm_num
  · change ∀ x ∈ [(Indicator.macd, (⟨0.0001, 0.005, 0.25⟩ : TrendCurve ℝ)),
      (.smaCross, ⟨0.001, 0.05, 0.25⟩), (.emaCross, ⟨0.0005, 0.03, 0.25⟩)], x.2.check = .ok ()
    simp only [List.forall_mem_cons, TrendCurve.check_eq_ok_iff, LawfulScalar.inUnit_iff]
    norm_num
  · norm_num [Curves.standard, TrendCurve.standard, TrendCurve.check_eq_ok_iff,
      LawfulScalar.inUnit_iff]
  · norm_num [Curves.standard, BandCurve.standard, BandCurve.check_eq_ok_iff]
  · norm_num [Curves.standard, FlowCurve.standard, FlowCurve.check_eq_ok_iff]

end MarketVerdict
