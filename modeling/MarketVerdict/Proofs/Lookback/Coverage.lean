import MarketVerdict.Proofs.Arithmetic.Share
import MarketVerdict.Proofs.Normalizer.Admission
import MarketVerdict.Proofs.Positions.Indicators
import MarketVerdict.Proofs.Replay.Technical
import MarketVerdict.Selection

/-!
# What the length of a history decides

A history that reaches the minimum of an indicator gives it a value, and a shorter one does not. The
signal of a value is as reliable as the share of the stable lookback that the history covers: never
without any reliability, and fully reliable exactly from the stable lookback on. A profile therefore
leaves a signal out for want of data only when the history was too short or the value not finite, and
a replay that starts at its usual warmup meets no reading that is missing.
-/

namespace MarketVerdict

open Scalar LawfulScalar LawfulShare

variable {α : Type}

namespace Params

theorem stableLookback_le {p : Params α} (h : ∀ n ∈ p.periods, n ≤ periodBound) :
    p.stableLookback ≤ 2 ^ 52 := by
  cases p <;> simp only [periods, periodBound, List.forall_mem_cons] at h <;>
    simp only [stableLookback] <;> omega

end Params

section Warmup

variable {specs : List (Spec α)} {spec : Spec α}

theorem le_foldl_minHistory (specs : List (Spec α)) (n : ℕ) :
    n ≤ specs.foldl (fun n spec => max n spec.params.minHistory) n := by
  induction specs generalizing n with
  | nil => exact Nat.le_refl n
  | cons spec specs ih => exact (Nat.le_max_left _ _).trans (ih _)

theorem minHistory_le_foldl (h : spec ∈ specs) (n : ℕ) :
    spec.params.minHistory ≤ specs.foldl (fun n spec => max n spec.params.minHistory) n := by
  induction specs generalizing n with
  | nil => cases h
  | cons first specs ih =>
    rcases List.mem_cons.mp h with rfl | h
    · exact (Nat.le_max_right _ _).trans (le_foldl_minHistory specs _)
    · exact ih h _

theorem minHistory_le_defaultWarmup (h : spec ∈ specs) :
    spec.params.minHistory ≤ defaultWarmup specs := minHistory_le_foldl h 1

end Warmup

variable [Scalar α]

theorem Attribution.exclusion?_weigh_eq_noData_iff {profile : Profile α} {signal : Signal α} :
    (weigh profile signal).exclusion? = some .noData ↔ (signal.reliability == 0) = true := by
  by_cases hzero : (signal.reliability == 0) = true
  · have hstatus : (weigh profile signal).status = .excluded .noData := if_pos hzero
    rw [exclusion?, hstatus]
    exact iff_of_true rfl hzero
  · have hstatus : (weigh profile signal).status =
        if (profile.weights.weightFor signal.indicator signal.kind).isNone then
          .excluded .unweighted
        else .included := if_neg hzero
    refine iff_of_false ?_ hzero
    rw [exclusion?, hstatus]
    by_cases hweight : (profile.weights.weightFor signal.indicator signal.kind).isNone = true
    · rw [if_pos hweight]
      simp
    · rw [if_neg hweight]
      simp

namespace Normalizer

variable {n : Normalizer α} {given : Reading α} {spec : Spec α} {signal : Signal α}

theorem reliability_of_present (h : n.signal given spec = .ok signal) {value : Raw α}
    (hvalue : given.value = .present value) : signal.reliability = clampUnit given.coverage := by
  obtain ⟨_, _, rfl⟩ := placed_of_signal hvalue h
  rfl

theorem reliability_of_absent (h : n.signal given spec = .ok signal)
    (hvalue : ∀ value, given.value ≠ .present value) : signal.reliability = 0 := by
  rcases cases_of_signal h with ⟨_, rfl⟩ | ⟨value, _, hpresent, _, _⟩
  · rfl
  · exact absurd hpresent (hvalue value)

end Normalizer

namespace Technical

variable {spec : Spec α} {s : Series α}

theorem coverage_reading (spec : Spec α) (s : Series α) :
    (reading spec s).sampleSize = s.length ∧
      (reading spec s).stableLookback = spec.params.stableLookback := by
  unfold reading
  split
  · exact ⟨rfl, rfl⟩
  · split <;> exact ⟨rfl, rfl⟩

theorem missing_iff (hvalid : spec.params.Valid) :
    (reading spec s).value = .missing ↔ s.length < spec.params.minHistory := by
  rcases Nat.lt_or_ge s.length spec.params.minHistory with h | h
  · rw [reading_of_lt h]
    exact iff_of_true rfl h
  · obtain ⟨value, _, hreading⟩ := exists_reading_of_le hvalid h
    rw [hreading, Reading.present]
    refine iff_of_false (fun hmissing => ?_) (Nat.not_lt.mpr h)
    unfold Measured.ofRaw at hmissing
    split at hmissing <;> cases hmissing

theorem exists_present_iff (hvalid : spec.params.Valid) :
    (∃ value, (reading spec s).value = .present value) ↔
      ¬ (s.length < spec.params.minHistory ∨
        ∃ value, raw spec.params s = some value ∧ value.isFinite = false) := by
  rcases Nat.lt_or_ge s.length spec.params.minHistory with h | h
  · rw [reading_of_lt h]
    exact iff_of_false nofun (not_not_intro (Or.inl h))
  · obtain ⟨value, hvalue, hreading⟩ := exists_reading_of_le hvalid h
    rw [hreading, hvalue, Reading.present, Measured.ofRaw]
    cases hfinite : value.isFinite <;> simp [hfinite, h]

end Technical

variable [LawfulScalar α] [LawfulShare α]

/-! ### Coverage -/

namespace Reading

variable {r : Reading α}

theorem coverage_of_lt (hsize : 0 < r.sampleSize) (hbound : r.stableLookback ≤ 2 ^ 52)
    (h : r.sampleSize < r.stableLookback) :
    r.coverage = r.sampleSize / r.stableLookback ∧ 0 < r.coverage ∧ r.coverage < 1 := by
  have hpos : (0 : α) < r.sampleSize / r.stableLookback := zero_lt_share hsize h hbound
  have hone : (r.sampleSize / r.stableLookback : α) < 1 := share_lt_one hsize h hbound
  have hself : (r.sampleSize / r.stableLookback : α) ≤ r.sampleSize / r.stableLookback :=
    le_self_of_isFinite (isFinite_of_between isFinite_zero isFinite_one (le_of_lt hpos)
      (le_of_lt hone))
  have hcoverage : r.coverage = r.sampleSize / r.stableLookback := by
    rw [coverage, if_neg (by omega), smaller, not_isNaN_of_le_self hself, Bool.or_false,
      if_neg (by simpa using not_lt_of_le (le_of_lt hone))]
  exact ⟨hcoverage, hcoverage ▸ hpos, hcoverage ▸ hone⟩

/-- From the stable lookback on the share is cut off at one; a share that is one already is kept. -/
theorem coverage_of_le (hbound : r.stableLookback ≤ 2 ^ 52) (h : r.stableLookback ≤ r.sampleSize) :
    inUnit r.coverage = true ∧ (r.coverage == 1) = true := by
  have hone : inUnit (1 : α) = true ∧ ((1 : α) == 1) = true :=
    ⟨inUnit_one, beq_iff_le_le.mpr (and_self_iff.mpr (le_self_of_isFinite isFinite_one))⟩
  unfold coverage
  split
  · exact hone
  · next hzero =>
    have hshare : (1 : α) ≤ r.sampleSize / r.stableLookback :=
      one_le_share (Nat.pos_of_ne_zero hzero) h hbound
    unfold smaller
    split
    · exact hone
    · next hkept =>
      rw [Bool.or_eq_true, not_or, decide_eq_true_iff, Bool.not_eq_true] at hkept
      have hle : (r.sampleSize / r.stableLookback : α) ≤ 1 :=
        le_of_not_lt (le_self_of_isFinite isFinite_one) (le_self_of_not_isNaN hkept.2) hkept.1
      exact ⟨inUnit_iff.mpr ⟨le_trans zero_le_one hshare, hle⟩, beq_iff_le_le.mpr ⟨hle, hshare⟩⟩

/-- Every bar counts, and the last of them makes the coverage full. -/
theorem coverage_bounds (hsize : 0 < r.sampleSize) (hbound : r.stableLookback ≤ 2 ^ 52) :
    inUnit r.coverage = true ∧ 0 < r.coverage ∧
      ((r.coverage == 1) = true ↔ r.stableLookback ≤ r.sampleSize) := by
  rcases Nat.lt_or_ge r.sampleSize r.stableLookback with h | h
  · obtain ⟨hpos, hone⟩ := (coverage_of_lt hsize hbound h).2
    refine ⟨inUnit_iff.mpr ⟨le_of_lt hpos, le_of_lt hone⟩, hpos, ?_⟩
    exact iff_of_false (fun heq => not_le_of_lt hone (beq_iff_le_le.mp heq).2) (Nat.not_le.mpr h)
  · obtain ⟨hunit, hone⟩ := coverage_of_le hbound h
    have hpos : (0 : α) < 1 := lt_of_lt_of_le (zero_lt_share Nat.one_pos Nat.one_lt_two (by decide))
      (le_of_lt (share_lt_one Nat.one_pos Nat.one_lt_two (by decide)))
    exact ⟨hunit, lt_of_lt_of_le hpos (beq_iff_le_le.mp hone).2, iff_of_true hone h⟩

end Reading

theorem Technical.reliability_of_present {n : Normalizer α} {spec : Spec α} {s : Series α}
    (hvalid : spec.params.Valid) (hperiods : ∀ n ∈ spec.params.periods, n ≤ periodBound)
    {value : Raw α} (hvalue : (reading spec s).value = .present value) {signal : Signal α}
    (hsignal : n.signal (reading spec s) spec = .ok signal) :
    signal.reliability = smaller ((s.length : α) / (spec.params.stableLookback : α)) 1 ∧
      0 < signal.reliability ∧
      ((signal.reliability == 1) = true ↔ spec.params.stableLookback ≤ s.length) := by
  have hhistory : spec.params.minHistory ≤ s.length := Nat.le_of_not_lt fun h => by
    rw [(missing_iff hvalid).mpr h] at hvalue
    cases hvalue
  have hmin := hvalid.minHistory_pos
  have hstable := spec.params.minHistory_le_stableLookback
  obtain ⟨hsize, hlookback⟩ := coverage_reading spec s
  obtain ⟨hunit, hpos, hfull⟩ := Reading.coverage_bounds (r := reading spec s) (by omega)
    (by rw [hlookback]; exact Params.stableLookback_le hperiods)
  rw [hsize, hlookback] at hfull
  rw [Normalizer.reliability_of_present hsignal hvalue, clampUnit_of_inUnit hunit]
  refine ⟨?_, hpos, hfull⟩
  rw [Reading.coverage, if_neg (by omega), hsize, hlookback]

/-- What the length of a history decides about one indicator, under the curves in use. -/
structure Spec.Decided (curves : Curves α) (spec : Spec α) (s : Series α) : Prop where
  missing_iff : (Technical.reading spec s).value = .missing ↔ s.length < spec.params.minHistory
  /-- The value is there, no position on the way to it is out of range, and it is the reading unless
  it is not finite. -/
  exists_value : spec.params.minHistory ≤ s.length → ∃ value,
    Technical.raw spec.params s = some value ∧
      (Positions.raw spec.params s).run = .ok (some value) ∧
      (Technical.reading spec s).value = if value.isFinite then .present value else .invalid
  exists_signal : spec.kind = spec.indicator.defaultKind → ∃ signal,
    (Normalizer.ofCurves curves).signal (Technical.reading spec s) spec = .ok signal ∧
      (∀ value, (Technical.reading spec s).value = .present value →
        signal.reliability =
            smaller ((s.length : α) / (spec.params.stableLookback : α)) 1 ∧
          0 < signal.reliability ∧
          ((signal.reliability == 1) = true ↔ spec.params.stableLookback ≤ s.length)) ∧
      ∀ profile, (Attribution.weigh profile signal).exclusion? = some .noData ↔
        s.length < spec.params.minHistory ∨
          ∃ value, Technical.raw spec.params s = some value ∧ value.isFinite = false

theorem Spec.decided {curves : Curves α} (hcurves : curves.Complete) {spec : Spec α}
    (hvalid : spec.params.Valid) (hperiods : ∀ n ∈ spec.params.periods, n ≤ periodBound)
    (s : Series α) : spec.Decided curves s where
  missing_iff := Technical.missing_iff hvalid
  exists_value h := by
    obtain ⟨value, hvalue, hreading⟩ := Technical.exists_reading_of_le hvalid h
    refine ⟨value, hvalue, ?_, by rw [hreading]; rfl⟩
    rw [Positions.raw_eq, hvalue]
    rfl
  exists_signal hkind := by
    obtain ⟨signal, hsignal⟩ : ∃ signal,
        (Normalizer.ofCurves curves).signal (Technical.reading spec s) spec = .ok signal :=
      Normalizer.exists_signal_technical hcurves hkind
    have hreliability : ∀ value, (Technical.reading spec s).value = .present value →
        signal.reliability = smaller ((s.length : α) / (spec.params.stableLookback : α)) 1 ∧
          0 < signal.reliability ∧
          ((signal.reliability == 1) = true ↔ spec.params.stableLookback ≤ s.length) :=
      fun value hvalue => Technical.reliability_of_present hvalid hperiods hvalue hsignal
    refine ⟨signal, hsignal, hreliability, fun profile => ?_⟩
    rw [Attribution.exclusion?_weigh_eq_noData_iff]
    by_cases hpresent : ∃ value, (Technical.reading spec s).value = .present value
    · obtain ⟨value, hvalue⟩ := hpresent
      refine iff_of_false (fun hzero => ?_)
        ((Technical.exists_present_iff hvalid).mp ⟨value, hvalue⟩)
      exact not_le_of_lt (hreliability value hvalue).2.1 (beq_iff_le_le.mp hzero).1
    · refine iff_of_true ?_ (not_not.mp (mt (Technical.exists_present_iff hvalid).mpr hpresent))
      rw [Normalizer.reliability_of_absent hsignal (not_exists.mp hpresent)]
      exact beq_iff_le_le.mpr (and_self_iff.mpr (le_self_of_isFinite isFinite_zero))

/-- The minimum history of an indicator is exactly what gives it a value, that value is never without
reliability, and a replay from the usual warmup on has no reading that is missing. -/
theorem history_decides {curves : Curves α} (hcurves : curves.check = .ok ())
    {specs : List (Spec α)}
    (hspecs : ∀ spec ∈ specs, spec.params.check = .ok () ∧
      ∀ n ∈ spec.params.periods, n ≤ periodBound) (s : Series α) :
    (∀ spec ∈ specs, spec.Decided curves s) ∧
      ∀ n ∈ Replay.lengths (max (defaultWarmup specs) 1) s.length,
        ∃ given, Replay.readings Provider.technical specs (s.head n) = .ok given ∧
          given.map Prod.fst = specs ∧ ∀ x ∈ given, x.2.value ≠ .missing := by
  have hvalid : ∀ spec ∈ specs, spec.params.Valid := fun spec hspec =>
    Params.check_eq_ok_iff.mp (hspecs spec hspec).1
  constructor
  · intro spec hspec
    exact Spec.decided (Curves.complete_of_check hcurves) (hvalid spec hspec) (hspecs spec hspec).2 s
  · intro n hn
    obtain ⟨hwarm, hend⟩ := List.mem_range'_1.mp hn
    refine ⟨_, Replay.readings_technical specs (s.head n), ?_, fun x hx hmissing => ?_⟩
    · rw [Technical.readings, List.map_map]
      exact List.map_id specs
    obtain ⟨spec, hspec, rfl⟩ := List.mem_map.mp hx
    have hshort := (Technical.missing_iff (hvalid spec hspec)).mp hmissing
    have hlength : (s.head n).length = n := by
      rw [Series.length_head]
      omega
    have := minHistory_le_defaultWarmup hspec
    omega

def quickRsi : Spec Float := ⟨"rsi_2", .oscillator, .rsi 2⟩

/-- As many bars as the index needs, and fewer than it wants. -/
def climbing : Series Float :=
  ⟨"climbing", [⟨⟨0, 0⟩, 10, 10, 10, 10, 1⟩, ⟨⟨1, 0⟩, 11, 11, 11, 11, 1⟩,
    ⟨⟨2, 0⟩, 12, 12, 12, 12, 1⟩], by simp [Instant.lt_def]⟩

theorem history_decides_climbing :
    (∃ value, (Positions.raw quickRsi.params climbing).run = .ok (some value)) ∧
      (∃ signal, (Normalizer.ofCurves .standard).signal (Technical.reading quickRsi climbing)
          quickRsi = .ok signal ∧
        (Attribution.weigh ⟨"even", ⟨Table.empty, fun _ => some 1⟩⟩ signal).exclusion? ≠
          some .noData) ∧
      ∃ given, Replay.readings Provider.technical [quickRsi] (climbing.head 3) = .ok given ∧
        given.map Prod.fst = [quickRsi] ∧ ∀ x ∈ given, x.2.value ≠ .missing := by
  have hspecs : ∀ spec ∈ [quickRsi], spec.params.check = .ok () ∧
      ∀ n ∈ spec.params.periods, n ≤ periodBound := by
    simp only [List.forall_mem_singleton]
    exact ⟨rfl, by decide⟩
  obtain ⟨hdecided, hwindows⟩ := history_decides check_standard_doubles hspecs climbing
  have h := hdecided quickRsi List.mem_cons_self
  obtain ⟨value, hvalue, hpositions, _⟩ := h.exists_value (by decide)
  obtain ⟨signal, hsignal, _, hexcluded⟩ := h.exists_signal rfl
  refine ⟨⟨value, hpositions⟩, ⟨signal, hsignal, fun hnone => ?_⟩, hwindows 3 (by decide)⟩
  rcases (hexcluded _).mp hnone with hshort | ⟨value', hvalue', hfinite⟩
  · exact absurd hshort (by decide)
  · have hfull : Technical.raw quickRsi.params climbing = some (.level 100) := by decide +kernel
    rw [hfull] at hvalue'
    cases hvalue'
    exact absurd hfinite (by decide +kernel)

end MarketVerdict
