import MarketVerdict.Proofs.Arithmetic.Double
import MarketVerdict.Proofs.Fusion.Shape

/-!
# How a fusion fails

Every profile that was made passes its check, so that nothing but the signals and the weights that
they bring into effect can make its fusion fail. The signals come first: the first one out of range
is named, with its magnitude if that is at fault and with its reliability otherwise, whatever it
weighs. Signals in range get a verdict unless their weights in effect overflow.
-/

namespace MarketVerdict

open Scalar Traversal

variable {α : Type} [Scalar α]

namespace Signal

/-- Magnitude and reliability are numbers between zero and one. -/
structure InRange (s : Signal α) : Prop where
  magnitude : 0 ≤ s.magnitude ∧ s.magnitude ≤ 1
  reliability : 0 ≤ s.reliability ∧ s.reliability ≤ 1

/-- What is at fault in a signal, where the magnitude goes before the reliability. -/
inductive Faulty (s : Signal α) : SignalFault α → Prop
  | magnitude (h : ¬ (0 ≤ s.magnitude ∧ s.magnitude ≤ 1)) : Faulty s (.magnitude s.magnitude)
  | reliability (hmagnitude : 0 ≤ s.magnitude ∧ s.magnitude ≤ 1)
      (h : ¬ (0 ≤ s.reliability ∧ s.reliability ≤ 1)) : Faulty s (.reliability s.reliability)

variable [LawfulScalar α] {s : Signal α}

theorem check_eq_ok_iff_inRange : s.check = .ok () ↔ s.InRange := by
  rw [check_eq_ok_iff, LawfulScalar.inUnit_iff, LawfulScalar.inUnit_iff]
  exact ⟨fun h => ⟨h.1, h.2⟩, fun h => ⟨h.magnitude, h.reliability⟩⟩

theorem check_eq_error_iff {e : FusionError α} :
    s.check = .error e ↔ ∃ fault, s.Faulty fault ∧ e = .invalidSignal s.indicator fault := by
  simp only [check, LawfulScalar.inUnit_iff]
  constructor
  · intro h
    split at h
    · next hmagnitude =>
      cases h
      exact ⟨_, .magnitude hmagnitude, rfl⟩
    · next hmagnitude =>
      split at h
      · next hreliability =>
        cases h
        exact ⟨_, .reliability (Decidable.not_not.mp hmagnitude) hreliability, rfl⟩
      · cases h
  · rintro ⟨fault, hfault, rfl⟩
    cases hfault with
    | magnitude h => rw [if_pos h]
    | reliability hmagnitude h => rw [if_neg (not_not_intro hmagnitude), if_pos h]

end Signal

namespace Profile

/-- What a caller can hold: a profile that was made at once, or one built from single weights. -/
inductive Constructed : Profile α → Prop
  | made {name : String} {weights : Weights α} {p : Profile α} (h : make name weights = .ok p) :
      Constructed p
  | built {draft : ProfileDraft α} {p : Profile α} (h : draft.build = .ok p) : Constructed p

theorem Constructed.check {p : Profile α} (h : p.Constructed) : p.check = .ok () := by
  cases h with
  | made h | built h => exact (make_eq_ok_iff.mp h).1

/-- What a signal weighs when it takes part. -/
def effectiveWeight? (p : Profile α) (s : Signal α) : Option α :=
  if s.reliability == 0 then none
  else (p.weights.weightFor s.indicator s.kind).map (· * s.reliability)

/-- The weights in effect, added up in the order of the signals. -/
def effectiveTotal (p : Profile α) (signals : List (Signal α)) : α :=
  sum (signals.filterMap p.effectiveWeight?)

end Profile

namespace Fusion

variable {t : Thresholds α} {p : Profile α} {signals : List (Signal α)} {time : Instant}

theorem effectiveWeight?_eq (p : Profile α) (s : Signal α) :
    p.effectiveWeight? s = if (Attribution.weigh p s).isIncluded then
      some (Attribution.weigh p s).effectiveWeight else none := by
  simp only [Profile.effectiveWeight?, Attribution.weigh, Attribution.isIncluded,
    Attribution.statusOf]
  split
  · rfl
  · cases p.weights.weightFor s.indicator s.kind <;> rfl

theorem totalWeight_eq_effectiveTotal (p : Profile α) (signals : List (Signal α)) :
    totalWeight (signals.map (Attribution.weigh p)) = p.effectiveTotal signals := by
  rw [totalWeight, Profile.effectiveTotal]
  congr 1
  induction signals with
  | nil => rfl
  | cons s signals ih =>
    rw [List.map_cons, List.filterMap_cons, effectiveWeight?_eq]
    by_cases h : (Attribution.weigh p s).isIncluded = true
    · rw [List.filter_cons_of_pos h, List.map_cons, ih, if_pos h]
    · rw [List.filter_cons_of_neg h, ih, if_neg h]

/-- Whatever the profile, only a signal that fails its check makes a fusion name a signal. -/
theorem fuse_eq_invalidSignal_iff {indicator : String} {fault : SignalFault α} :
    fuse t signals p time = .error (.invalidSignal indicator fault) ↔
      signals.forM Signal.check = .error (.invalidSignal indicator fault) := by
  unfold fuse
  cases signals.forM Signal.check with
  | error e =>
    change Except.error e = _ ↔ _
    rw [Except.error.injEq, Except.error.injEq]
  | ok =>
    refine iff_of_false (fun h => ?_) nofun
    rcases bind_eq_error_iff.mp h with h | ⟨_, _, h⟩
    · cases h
    · rcases bind_eq_error_iff.mp h with h | ⟨_, _, h⟩
      · obtain ⟨_, _, hfault⟩ := mapError_eq_error_iff.mp h
        cases hfault
      · dsimp only at h
        split at h
        · cases h
        · split at h <;> cases h

theorem fuse_of_faulty {e : FusionError α} (h : signals.forM Signal.check = .error e) :
    fuse t signals p time = .error e := by
  rw [fuse, h]
  rfl

variable [LawfulScalar α]

theorem forM_check_eq_error_iff {e : FusionError α} :
    signals.forM Signal.check = .error e ↔ ∃ front s back fault, signals = front ++ s :: back ∧
      (∀ x ∈ front, x.InRange) ∧ s.Faulty fault ∧ e = .invalidSignal s.indicator fault := by
  simp only [forM_eq_error_iff, Signal.check_eq_ok_iff_inRange, Signal.check_eq_error_iff,
    exists_and_left]

/-- What comes of signals under a profile: the first fault, or the verdict. -/
structure Decided (t : Thresholds α) (signals : List (Signal α)) (p : Profile α) (time : Instant) :
    Prop where
  sound : p.check = .ok ()
  failure : ∀ e, fuse t signals p time = .error e ↔
    (∃ front s back fault, signals = front ++ s :: back ∧ (∀ x ∈ front, x.InRange) ∧
      s.Faulty fault ∧ e = .invalidSignal s.indicator fault) ∨
    (∀ s ∈ signals, s.InRange) ∧ isFinite (p.effectiveTotal signals) = false ∧
      e = .invalidProfile p.name .effectiveTotalNotFinite
  named : (∃ indicator fault, fuse t signals p time = .error (.invalidSignal indicator fault)) ↔
    ∃ s ∈ signals, ¬ s.InRange
  verdict : (∃ v, fuse t signals p time = .ok v) ↔
    (∀ s ∈ signals, s.InRange) ∧ isFinite (p.effectiveTotal signals) = true

theorem fuse_of_inRange (hp : p.check = .ok ()) (h : ∀ s ∈ signals, s.InRange) :
    fuse t signals p time =
      if isFinite (p.effectiveTotal signals) then
        .ok (conclude t p (signals.map (Attribution.weigh p)) time)
      else .error (.invalidProfile p.name .effectiveTotalNotFinite) := by
  rw [fuse_of_sound (fun s hs => Signal.check_eq_ok_iff_inRange.mpr (h s hs)) hp,
    totalWeight_eq_effectiveTotal]

theorem forM_check_eq_ok_iff : signals.forM Signal.check = .ok () ↔ ∀ s ∈ signals, s.InRange := by
  simp only [forM_eq_ok_iff, Signal.check_eq_ok_iff_inRange]

theorem decided_of_sound (hp : p.check = .ok ()) : Decided t signals p time := by
  cases hsignals : signals.forM Signal.check with
  | error e =>
    have hfuse : fuse t signals p time = .error e := fuse_of_faulty hsignals
    have hnot : ¬ ∀ s ∈ signals, s.InRange := fun h =>
      nomatch hsignals.symm.trans (forM_check_eq_ok_iff.mpr h)
    refine ⟨hp, fun e' => ?_, ?_, ?_⟩
    · rw [hfuse, ← forM_check_eq_error_iff, hsignals, Except.error.injEq, Except.error.injEq]
      exact ⟨Or.inl, fun h => h.resolve_right fun h => hnot h.1⟩
    · obtain ⟨_, s, _, fault, _, _, _, rfl⟩ := forM_check_eq_error_iff.mp hsignals
      exact iff_of_true ⟨s.indicator, fault, hfuse⟩ (by simpa using hnot)
    · rw [hfuse]
      exact iff_of_false nofun fun h => hnot h.1
  | ok =>
    have hrange := forM_check_eq_ok_iff.mp hsignals
    have hfuse : fuse t signals p time = _ := fuse_of_inRange hp hrange
    refine ⟨hp, fun e' => ?_, ?_, ?_⟩
    · rw [← forM_check_eq_error_iff, hsignals, hfuse]
      split
      · next hfinite => simp [hfinite]
      · next hfinite => simpa [Bool.eq_false_iff.mpr hfinite, eq_comm] using fun _ => hrange
    · refine iff_of_false ?_ (by simpa using hrange)
      rintro ⟨i, fault, h⟩
      rw [fuse_eq_invalidSignal_iff, hsignals] at h
      cases h
    · rw [hfuse]
      split
      · next hfinite => exact iff_of_true ⟨_, rfl⟩ ⟨hrange, hfinite⟩
      · next hfinite => exact iff_of_false nofun fun h => hfinite h.2

end Fusion

/-- Built-in readings fail a sound profile only when the weights that their signals bring into effect
overflow. -/
theorem Context.evaluate_technical [LawfulScalar α] {context : Context α} {c : Curves α}
    {profile : Profile α} {given : List (Spec α × Reading α)} {s : Series α}
    (hcontext : context.normalizer = Normalizer.ofCurves c) (hc : c.Complete)
    (hprofile : profile.check = .ok ())
    (hgiven : ∀ x ∈ given, x.1.kind = x.1.indicator.defaultKind ∧ x.2 = Technical.reading x.1 s)
    (time : Instant) :
    ∃ signals, context.signals given = .ok signals ∧
      ((∃ v, context.evaluate given profile time = .ok v) ↔
        isFinite (profile.effectiveTotal signals) = true) ∧
      ∀ e, context.evaluate given profile time = .error e ↔
        isFinite (profile.effectiveTotal signals) = false ∧
          e = .invalidProfile profile.name .effectiveTotalNotFinite := by
  obtain ⟨signals, hsignals, hsound⟩ := exists_signals_technical hcontext hc hgiven
  have hrange : ∀ signal ∈ signals, signal.InRange := fun signal hmem =>
    Signal.check_eq_ok_iff_inRange.mp (hsound signal hmem)
  have hevaluate : context.evaluate given profile time =
      Fusion.fuse context.thresholds signals profile time := by
    rw [Context.evaluate, hsignals]
    rfl
  refine ⟨signals, hsignals, ?_⟩
  rw [hevaluate, Fusion.fuse_of_inRange hprofile hrange]
  cases isFinite (profile.effectiveTotal signals) with
  | true => simp
  | false => simp [eq_comm]

namespace Fusion

/-- A fusion of doubles under a profile that was made fails exactly for its first fault. -/
theorem decided_of_constructed (t : Thresholds Float) (signals : List (Signal Float))
    {p : Profile Float} (hp : p.Constructed) (time : Instant) : Decided t signals p time :=
  decided_of_sound hp.check

/-- Weighs trends alone, so much that two of them are too many. -/
def steep : ProfileDraft Float := ((ProfileDraft.start "steep").kind .trend 1).kind .trend 1e308

/-- Two trends in range; nothing below zero stands in for zero. -/
def heavy : List (Signal Float) :=
  [⟨"macd_12_26_9", .trend, .bullish, -0.0, 1⟩, ⟨"sma_cross_50_200", .trend, .bearish, 1, 1⟩]

/-- An evaluation without weight, with nothing right about it. -/
def astray : Signal Float := ⟨"obv_20", .volume, .neutral, 0 / 0, 1 / 0⟩

theorem decided_of_constructed_steep :
    ∃ p, steep.build = .ok p ∧
      (∃ v, fuse .standard (heavy.take 1) p .epoch = .ok v) ∧
      fuse .standard heavy p .epoch = .error (.invalidProfile "steep" .effectiveTotalNotFinite) ∧
      fuse .standard (heavy ++ astray :: [⟨"rsi_14", .oscillator, .bullish, 2, 1⟩]) p .epoch =
        .error (.invalidSignal "obv_20" (.magnitude (0 / 0))) := by
  have hbuild : steep.build = .ok ⟨"steep", steep.weights⟩ :=
    Profile.make_eq_ok_iff.mpr ⟨by decide +kernel, rfl⟩
  have hdecided := fun signals =>
    decided_of_constructed .standard signals (Profile.Constructed.built hbuild) .epoch
  have hheavy : ∀ s ∈ heavy, s.InRange := forM_check_eq_ok_iff.mp (by decide +kernel)
  refine ⟨_, hbuild, ?_, ?_, ?_⟩
  · exact (hdecided _).verdict.mpr ⟨fun s hs => hheavy s (List.mem_of_mem_take hs), by decide +kernel⟩
  · exact ((hdecided _).failure _).mpr (Or.inr ⟨hheavy, by decide +kernel, rfl⟩)
  · have hmagnitude : astray.Faulty (.magnitude (0 / 0)) := .magnitude (by decide +kernel)
    exact ((hdecided _).failure _).mpr (Or.inl ⟨heavy, astray, _, _, rfl, hheavy, hmagnitude, rfl⟩)

end Fusion

end MarketVerdict
