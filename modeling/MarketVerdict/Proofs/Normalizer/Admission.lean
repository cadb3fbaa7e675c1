import MarketVerdict.Proofs.Arithmetic.Signs
import MarketVerdict.Proofs.Curve.Accepted
import MarketVerdict.Proofs.Fusion.Faults

/-!
# Signals that are admitted

Checked curves turn every reading of the form of its kind into a signal that a fusion admits, also
where a quotient of its numbers has no value. A placement without a direction has either not left its
neutral band or no number behind it, and both are clipped to a magnitude of zero; a magnitude of zero
takes the direction away.
-/

namespace MarketVerdict

open Scalar Traversal

namespace Double

theorem zero_beq_zero : ((0 : Float) == 0) = true := by decide +kernel

theorem clampUnit_of_isNaN {x : Float} (h : isNaN x = true) : clampUnit x = 0 := if_pos h

/-- Clipping what is zero or not a number gives zero. -/
theorem clampUnit_clampUnit_of_isNaN {x : Float} (h : isNaN x = true) :
    clampUnit (clampUnit x) = 0 := by
  rw [clampUnit_of_isNaN h]
  decide +kernel

end Double

open Double

/-- What has no direction is clipped to zero. -/
def Placement.Settles (p : Placement Float) : Prop := p.1 = .neutral → clampUnit p.2 = 0

theorem Placement.settles_unmoved : Settles unmoved := fun _ => by
  change clampUnit 0 = 0
  decide +kernel

theorem not_abs_le_zero {x band : Float} (hband : 0 ≤ band) (hx : ¬ Scalar.abs x ≤ band) :
    ¬ Scalar.abs x ≤ 0 :=
  fun h => hx (LawfulScalar.le_trans h hband)

namespace TrendCurve

variable {c : TrendCurve Float}

theorem settles_place (h : c.check = .ok ()) (fast slow reference : Float)
    (crossed : Option Direction) : (c.place fast slow reference crossed).Settles := by
  unfold place
  dsimp only
  split
  · exact Placement.settles_unmoved
  · next hspread =>
    intro hneutral
    have hband := (check_eq_ok_iff.mp h).1.2
    have hnan := isNaN_of_neutral hneutral (not_abs_le_zero hband hspread)
    have hmagnitude := isNaN_div (isNaN_abs hnan) c.fullScale
    refine clampUnit_clampUnit_of_isNaN ?_
    split
    · exact isNaN_add hmagnitude c.crossoverBoost
    · exact hmagnitude

end TrendCurve

namespace BandCurve

variable {c : BandCurve Float}

theorem settles_place (h : c.check = .ok ()) (price lower middle upper : Float) :
    (c.place price lower middle upper).Settles := by
  unfold place
  split
  · exact Placement.settles_unmoved
  · next position _ =>
    split
    · exact Placement.settles_unmoved
    · next hposition =>
      intro hneutral
      have hzero : ¬ Scalar.abs position ≤ 0 :=
        fun hle => hposition (LawfulScalar.lt_of_le_of_lt hle (check_eq_ok_iff.mp h).1.2)
      have hnan := isNaN_of_neutral (ofSign_neg_eq_neutral_iff.mp hneutral) hzero
      exact clampUnit_clampUnit_of_isNaN (isNaN_div (isNaN_abs hnan) c.saturation)

end BandCurve

namespace FlowCurve

variable {c : FlowCurve Float}

theorem settles_place (h : c.check = .ok ()) (delta scale : Float) :
    (c.place delta scale).Settles := by
  unfold place
  split
  · exact Placement.settles_unmoved
  · dsimp only
    split
    · exact Placement.settles_unmoved
    · next hratio =>
      intro hneutral
      have hband := (check_eq_ok_iff.mp h).1.2
      have hnan := isNaN_of_neutral hneutral (not_abs_le_zero hband hratio)
      exact clampUnit_clampUnit_of_isNaN (isNaN_div (isNaN_abs hnan) c.fullScale)

end FlowCurve

theorem OscillatorBands.settles_place (b : OscillatorBands Float) (value : Float) :
    (b.place value).Settles := by
  unfold place
  split
  · nofun
  · split
    · nofun
    · exact Placement.settles_unmoved

namespace Curves

theorem settles_strategy {c : Curves Float} (h : c.check = .ok ()) {k : Kind} {i : Indicator}
    {raw : Raw Float} {placement : Placement Float} (hplaced : c.strategy k i raw = some placement) :
    placement.Settles := by
  obtain ⟨htrend, hvolatility, hvolume⟩ := checks_of_check h
  cases k <;> cases raw <;> try cases hplaced
  · obtain ⟨bands, _, rfl⟩ := Option.map_eq_some_iff.mp hplaced
    exact bands.settles_place _
  · exact TrendCurve.settles_place (htrend i) _ _ _ _
  · exact BandCurve.settles_place hvolatility _ _ _ _
  · exact FlowCurve.settles_place hvolume _ _

end Curves

theorem check_standard_doubles : (Curves.standard : Curves Float).check = .ok () := by
  decide +kernel

namespace Normalizer

/-- Why a reading has no signal. -/
inductive Refused (c : Curves Float) (spec : Spec Float) (given : Reading Float) :
    FusionError Float → Prop
  | mismatch (h : given.specId ≠ spec.id) : Refused c spec given (.specMismatch spec.id given.specId)
  | unsupported (hid : given.specId = spec.id) (raw : Raw Float) (hvalue : given.value = .present raw)
      (h : raw.kind ≠ spec.kind ∨ spec.kind = .oscillator ∧ c.oscillators spec.indicator = none) :
      Refused c spec given (.unsupportedReading spec.id spec.kind)

/-- A signal of a specification that a fusion admits: it passes, and it may be left out without any
other signal passing or failing for it. -/
structure Admitted (spec : Spec Float) (s : Signal Float) : Prop where
  indicator : s.indicator = spec.id
  kind : s.kind = spec.kind
  range : s.InRange
  neutral : s.direction = .neutral ↔ (s.magnitude == 0) = true
  passes : ∀ (t : Thresholds Float) (front back : List (Signal Float)) (p : Profile Float)
    (time : Instant) (i : String) (fault : SignalFault Float),
    Fusion.fuse t (front ++ s :: back) p time = .error (.invalidSignal i fault) ↔
      Fusion.fuse t (front ++ back) p time = .error (.invalidSignal i fault)

theorem neutral_settle {spec : Spec Float} {placement : Placement Float} {coverage : Float}
    (h : placement.Settles) :
    (settle spec placement coverage).direction = .neutral ↔
      ((settle spec placement coverage).magnitude == 0) = true := by
  unfold settle
  dsimp only
  split
  · next hzero => exact iff_of_true rfl hzero
  · next hzero =>
    refine iff_of_false (fun hneutral => hzero ?_) hzero
    rw [h hneutral]
    exact zero_beq_zero

variable {c : Curves Float} {spec : Spec Float} {given : Reading Float} {s : Signal Float}

theorem neutral_of_signal (hc : c.check = .ok ()) (h : (ofCurves c).signal given spec = .ok s) :
    s.direction = .neutral ↔ (s.magnitude == 0) = true := by
  rcases cases_of_signal h with ⟨_, rfl⟩ | ⟨_, _, _, hplaced, rfl⟩
  · exact iff_of_true rfl zero_beq_zero
  · exact neutral_settle (Curves.settles_strategy hc hplaced)

theorem admitted_of_signal (hc : c.check = .ok ()) (h : (ofCurves c).signal given spec = .ok s) :
    Admitted spec s := by
  obtain ⟨hindicator, hkind⟩ := named_of_signal h
  have hcheck : s.check = .ok () := check_of_signal h
  refine ⟨hindicator, hkind, Signal.check_eq_ok_iff_inRange.mp hcheck, neutral_of_signal hc h, ?_⟩
  intro t front back p time i fault
  rw [Fusion.fuse_eq_invalidSignal_iff, Fusion.fuse_eq_invalidSignal_iff,
    forM_append_cons_of_eq_ok hcheck]

theorem signal_eq_error_iff_refused {e : FusionError Float} :
    (ofCurves c).signal given spec = .error e ↔ Refused c spec given e := by
  by_cases hid : given.specId = spec.id
  · rw [signal_eq_error_iff hid]
    constructor
    · rintro ⟨⟨raw, hvalue, hnone⟩, rfl⟩
      exact .unsupported hid raw hvalue (Curves.strategy_eq_none_iff_or.mp hnone)
    · intro h
      cases h with
      | mismatch hne => exact absurd hid hne
      | unsupported _ raw hvalue h =>
        exact ⟨⟨raw, hvalue, Curves.strategy_eq_none_iff_or.mpr h⟩, rfl⟩
  · rw [signal, if_pos hid]
    constructor
    · intro h
      cases h
      exact .mismatch hid
    · intro h
      cases h with
      | mismatch => rfl
      | unsupported hid' => exact absurd hid' hid

/-- Under checked curves a reading without a value has the signal without data, and one that is not
refused has a signal that a fusion admits. -/
theorem signal_admitted (hc : c.check = .ok ()) (spec : Spec Float) (given : Reading Float) :
    (∀ e, (ofCurves c).signal given spec = .error e ↔ Refused c spec given e) ∧
    (∀ s, (ofCurves c).signal given spec = .ok s → Admitted spec s) ∧
    (given.specId = spec.id → given.value = .missing ∨ given.value = .invalid →
      (ofCurves c).signal given spec = .ok (Signal.noData spec.id spec.kind)) := by
  refine ⟨fun e => signal_eq_error_iff_refused, fun s h => admitted_of_signal hc h, ?_⟩
  rintro hid (hvalue | hvalue)
  · rw [signal, if_neg (not_not_intro hid), hvalue]
  · rw [signal, if_neg (not_not_intro hid), hvalue]

def envelope : Spec Float := ⟨(Params.bollinger 20 2 : Params Float).id, .volatility, .bollinger 20 2⟩

def reported (raw : Raw Float) : Reading Float := ⟨envelope.id, .present raw, 3, 40⟩

/-- An infinite price in an envelope without an upper line, which has no place in it. -/
def boundless : Raw Float := .band (1 / 0) 0 1 (1 / 0)

theorem signal_admitted_boundless :
    (Curves.standard : Curves Float).check = .ok () ∧
      Spec.ofParamsAs (.bollinger 20 2) .volatility = .ok envelope ∧
      (∃ s, (ofCurves .standard).signal (reported boundless) envelope = .ok s ∧
        Admitted envelope s ∧ s.direction = .neutral) ∧
      (ofCurves .standard).signal (reported (.level 0)) envelope =
        .error (.unsupportedReading envelope.id .volatility) := by
  refine ⟨check_standard_doubles, ?_, ?_, ?_⟩
  · exact Spec.ofParamsAs_eq_ok_iff.mpr ⟨by decide +kernel, rfl⟩
  · obtain ⟨_, hadmitted, _⟩ :=
      signal_admitted check_standard_doubles envelope (reported boundless)
    have hsignal : (ofCurves .standard).signal (reported boundless) envelope = .ok _ :=
      if_neg (not_not_intro rfl)
    have h := hadmitted _ hsignal
    exact ⟨_, hsignal, h, h.neutral.mpr (by decide +kernel)⟩
  · obtain ⟨hrefused, _⟩ :=
      signal_admitted check_standard_doubles envelope (reported (.level 0))
    exact (hrefused _).mpr (.unsupported rfl (.level 0) rfl (Or.inl (by decide)))

end Normalizer

end MarketVerdict
