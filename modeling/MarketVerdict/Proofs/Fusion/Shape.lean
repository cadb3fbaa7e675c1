import MarketVerdict.Proofs.Fusion.Verdict
import MarketVerdict.Provider

/-!
# Readings and the strategies that take them

Every built-in indicator gives its values in the form of its default kind, and the curves of a kind
take that form alone. A built-in reading therefore gets no signal exactly when it has a value and
its specification declares another kind. Signals that are made are sound, since magnitude and
reliability are clipped, so that a profile that is sound can fail on them only by its weights.
-/

namespace MarketVerdict

open Scalar Traversal

variable {α : Type}

/-- The kind whose curves take values of this form. -/
def Raw.kind : Raw α → Kind
  | level _ => .oscillator
  | spread .. => .trend
  | band .. => .volatility
  | flow .. => .volume

/-- Every oscillator has bands. -/
def Curves.Complete (c : Curves α) : Prop :=
  ∀ i : Indicator, i.defaultKind = .oscillator → (c.oscillators i).isSome = true

variable [Scalar α]

namespace Technical

/-- The readings of the built-in indicators at the last bar of a series. -/
def readings (specs : List (Spec α)) (s : Series α) : List (Spec α × Reading α) :=
  specs.map fun spec => (spec, reading spec s)

theorem kind_of_raw {params : Params α} {s : Series α} {value : Raw α}
    (h : raw params s = some value) : value.kind = params.indicator.defaultKind := by
  cases params with
  | rsi period | stochastic kPeriod dPeriod | williamsR period | smaCross fast slow
  | emaCross fast slow | obv period =>
    obtain ⟨_, _, rfl⟩ := Option.map_eq_some_iff.mp h
    rfl
  | macd fast slow signal | bollinger period width =>
    obtain ⟨_, _, h⟩ := Option.bind_eq_some_iff.mp h
    obtain ⟨_, _, h⟩ := Option.bind_eq_some_iff.mp h
    cases h
    rfl

theorem specId_reading (spec : Spec α) (s : Series α) : (reading spec s).specId = spec.id := by
  unfold reading
  split
  · rfl
  · split <;> rfl

/-- A reading has no value but that of its indicator. -/
theorem raw_of_reading {spec : Spec α} {s : Series α} {value : Raw α}
    (h : (reading spec s).value = .present value) : raw spec.params s = some value := by
  unfold reading at h
  split at h
  · cases h
  · split at h
    · next v hv =>
      simp only [Reading.present, Measured.ofRaw] at h
      split at h
      · cases h
        exact hv
      · cases h
    · cases h

theorem kind_of_reading {spec : Spec α} {s : Series α} {value : Raw α}
    (h : (reading spec s).value = .present value) : value.kind = spec.indicator.defaultKind :=
  kind_of_raw (raw_of_reading h)

end Technical

theorem Curves.complete_of_check {c : Curves α} (h : c.check = .ok ()) : c.Complete := by
  obtain ⟨_, hbands, _⟩ := bind_eq_ok_iff.mp h
  intro i hi
  have hcase := forM_eq_ok_iff.mp hbands i i.mem_all
  split at hcase
  · cases hcase
  · next hnone => simpa [hi, Option.isSome_iff_ne_none] using hnone

/-- The curves of a kind take the values of its form, if an oscillator has bands, and no others. -/
theorem Curves.strategy_eq_none_iff_or {c : Curves α} {k : Kind} {i : Indicator} {value : Raw α} :
    c.strategy k i value = none ↔
      value.kind ≠ k ∨ k = .oscillator ∧ c.oscillators i = none := by
  cases value <;> cases k <;> simp [strategy, Raw.kind]

/-- The curves of a kind take the values of its form and no others. -/
theorem Curves.strategy_eq_none_iff {c : Curves α} (hc : c.Complete) {k : Kind} {i : Indicator}
    {value : Raw α} (hvalue : value.kind = i.defaultKind) :
    c.strategy k i value = none ↔ k ≠ i.defaultKind := by
  rw [strategy_eq_none_iff_or, hvalue, ne_comm, or_iff_left_iff_imp]
  rintro ⟨rfl, hnone⟩ hoscillator
  have hbands := hc i hoscillator.symm
  rw [hnone] at hbands
  cases hbands

namespace Signal

theorem check_eq_ok_iff {s : Signal α} :
    s.check = .ok () ↔ inUnit s.magnitude = true ∧ inUnit s.reliability = true := by
  unfold check
  split
  · next h => simp [h]
  · next h =>
    rw [Decidable.not_not] at h
    split
    · next h' => simp [h']
    · next h' => exact iff_of_true rfl ⟨h, Decidable.not_not.mp h'⟩

end Signal

namespace Normalizer

variable {n : Normalizer α} {given : Reading α} {spec : Spec α} {signal : Signal α}

/-- A signal is without data, or it settles the placement that the strategy of its kind gave the
value. -/
theorem cases_of_signal (h : n.signal given spec = .ok signal) :
    (∀ value, given.value ≠ .present value) ∧ signal = Signal.noData spec.id spec.kind ∨
      ∃ value placement, given.value = .present value ∧
        ((n.strategy spec.kind).bind fun place => place spec.indicator value) = some placement ∧
        signal = settle spec placement given.coverage := by
  unfold Normalizer.signal at h
  split at h
  · cases h
  · split at h
    · next hmissing => exact Or.inl ⟨by rw [hmissing]; nofun, (Except.ok.inj h).symm⟩
    · next hinvalid => exact Or.inl ⟨by rw [hinvalid]; nofun, (Except.ok.inj h).symm⟩
    · next value hvalue =>
      split at h
      · cases h
      · next placement hplaced =>
        exact Or.inr ⟨value, placement, hvalue, hplaced, (Except.ok.inj h).symm⟩

theorem placed_of_signal {value : Raw α} (hvalue : given.value = .present value)
    (h : n.signal given spec = .ok signal) : ∃ placement,
      ((n.strategy spec.kind).bind fun place => place spec.indicator value) = some placement ∧
        signal = settle spec placement given.coverage := by
  rcases cases_of_signal h with ⟨hnone, _⟩ | ⟨value', placement, hvalue', hplaced, hsignal⟩
  · exact absurd hvalue (hnone value)
  · cases hvalue.symm.trans hvalue'
    exact ⟨placement, hplaced, hsignal⟩

theorem named_of_signal (h : n.signal given spec = .ok signal) :
    signal.indicator = spec.id ∧ signal.kind = spec.kind := by
  rcases cases_of_signal h with ⟨_, rfl⟩ | ⟨_, _, _, _, rfl⟩
  · exact ⟨rfl, rfl⟩
  · exact ⟨rfl, rfl⟩

theorem check_of_signal [LawfulScalar α] (h : n.signal given spec = .ok signal) :
    signal.check = .ok () := by
  rw [Signal.check_eq_ok_iff]
  rcases cases_of_signal h with ⟨_, rfl⟩ | ⟨_, _, _, _, rfl⟩
  · exact ⟨LawfulScalar.inUnit_zero, LawfulScalar.inUnit_zero⟩
  · exact ⟨LawfulScalar.inUnit_clampUnit _, LawfulScalar.inUnit_clampUnit _⟩

theorem signal_missing (n : Normalizer α) (spec : Spec α) (size : ℕ) :
    n.signal (Reading.missing spec size) spec = .ok (Signal.noData spec.id spec.kind) :=
  if_neg (not_not_intro rfl)

theorem signal_present (n : Normalizer α) (spec : Spec α) {value : Raw α}
    (h : value.isFinite = true) (size : ℕ) :
    n.signal (Reading.present spec value size) spec =
      match (n.strategy spec.kind).bind fun place => place spec.indicator value with
      | none => .error (.unsupportedReading spec.id spec.kind)
      | some placement =>
        .ok (settle spec placement (Reading.present spec value size).coverage) := by
  cases hplaced : (n.strategy spec.kind).bind fun place => place spec.indicator value <;>
    simp [signal, Reading.present, Measured.ofRaw, h, hplaced]

/-- Of the readings for a specification, only values that its kind cannot place have no signal. -/
theorem signal_eq_error_iff {e : FusionError α} (hid : given.specId = spec.id) :
    n.signal given spec = .error e ↔
      (∃ value, given.value = .present value ∧
        ((n.strategy spec.kind).bind fun place => place spec.indicator value) = none) ∧
      e = .unsupportedReading spec.id spec.kind := by
  unfold Normalizer.signal
  rw [if_neg (not_not_intro hid)]
  cases given.value with
  | missing | invalid => simp
  | present value =>
    simp only [Measured.present.injEq, exists_eq_left']
    split
    · next h => simp [h, eq_comm]
    · next h => simp [h]

/-- A built-in reading has no signal exactly when its value meets the curves of another kind. -/
theorem signal_technical_eq_error_iff {c : Curves α} (hc : c.Complete) {s : Series α}
    {e : FusionError α} :
    (ofCurves c).signal (Technical.reading spec s) spec = .error e ↔
      ((∃ value, (Technical.reading spec s).value = .present value) ∧
        spec.kind ≠ spec.indicator.defaultKind) ∧ e = .unsupportedReading spec.id spec.kind := by
  rw [signal_eq_error_iff (Technical.specId_reading spec s)]
  refine and_congr_left fun _ => ?_
  rw [← exists_and_right]
  refine exists_congr fun value => and_congr_right fun hvalue => ?_
  exact Curves.strategy_eq_none_iff hc (Technical.kind_of_reading hvalue)

theorem exists_signal_technical {c : Curves α} (hc : c.Complete) {s : Series α}
    (hkind : spec.kind = spec.indicator.defaultKind) :
    ∃ signal, (ofCurves c).signal (Technical.reading spec s) spec = .ok signal := by
  cases h : (ofCurves c).signal (Technical.reading spec s) spec with
  | ok signal => exact ⟨signal, rfl⟩
  | error e => exact absurd hkind ((signal_technical_eq_error_iff hc).mp h).1.2

end Normalizer

namespace Context

variable [LawfulScalar α] {context : Context α} {c : Curves α} {profile : Profile α}
  {given : List (Spec α × Reading α)} {s : Series α}

/-- With specifications of the default kinds, built-in readings get signals, and a fusion finds
nothing wrong with them. -/
theorem exists_signals_technical (hcontext : context.normalizer = Normalizer.ofCurves c)
    (hc : c.Complete)
    (hgiven : ∀ x ∈ given, x.1.kind = x.1.indicator.defaultKind ∧ x.2 = Technical.reading x.1 s) :
    ∃ signals, context.signals given = .ok signals ∧
      ∀ signal ∈ signals, signal.check = .ok () := by
  obtain ⟨signals, hsignals⟩ : ∃ signals, context.signals given = .ok signals := by
    apply exists_mapM_eq_ok
    intro x hx
    obtain ⟨hkind, hreading⟩ := hgiven x hx
    rw [hcontext, hreading]
    exact Normalizer.exists_signal_technical hc hkind
  refine ⟨signals, hsignals, fun signal hsignal => ?_⟩
  obtain ⟨x, _, hx⟩ := exists_mem_of_mapM_eq_ok hsignals hsignal
  exact Normalizer.check_of_signal hx

end Context

end MarketVerdict
