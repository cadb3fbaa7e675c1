import Mathlib
import MarketVerdict.Proofs.Choice.Asking
import MarketVerdict.Proofs.Choice.Identity
import MarketVerdict.Proofs.Choice.Isolation
import MarketVerdict.Proofs.Lookback.Stability
import MarketVerdict.Replay

/-!
# Live verdicts and replayed verdicts

An evaluation asks the provider for every choice and lets the degraded ones take part without data. A
replay asks for the specifications alone, and reads a failure as a missing reading. On one series both
come to the same signals for the specifications, so that both fail alike or give verdicts that differ
in the account only, by the entries of the degraded choices.
-/

namespace MarketVerdict

open Scalar Traversal

namespace Fusion.Padded

variable {kept silent signals : List (Signal ℝ)}

theorem mem_of_mem_account {p : Profile ℝ} {a : Attribution ℝ} (h : a ∈ account p kept) :
    a.signal ∈ kept := by
  obtain ⟨b, hb, rfl⟩ := List.mem_map.mp ((Fusion.account_perm p kept).mem_iff.mp h)
  obtain ⟨s, hs, rfl⟩ := List.mem_map.mp hb
  exact hs

/-- A test of signals that tells the two apart gives back the account of the others. -/
theorem filter_account (h : Padded kept silent signals) (p : Profile ℝ) {q : Signal ℝ → Bool}
    (hkept : ∀ s ∈ kept, q s = true) (hsilent : ∀ s ∈ silent, q s = false) :
    ((account p signals).filter fun a => q a.signal) = account p kept := by
  have hall : ((account p kept).filter fun a => q a.signal) = account p kept :=
    List.filter_eq_self.mpr fun a ha => hkept _ (mem_of_mem_account ha)
  have hnone : ((silent.map (Attribution.weigh p)).filter fun a => q a.signal) = [] := by
    refine List.filter_eq_nil_iff.mpr fun a ha => ?_
    obtain ⟨s, hs, rfl⟩ := List.mem_map.mp ha
    rw [Attribution.signal_weigh, hsilent s hs]
    nofun
  have hsublist := (h.account_sublist p).filter fun a => q a.signal
  have hlength := ((h.account_perm p).filter fun a => q a.signal).length_eq
  rw [List.filter_append, hnone, List.append_nil] at hlength
  rw [← hsublist.eq_of_length hlength.symm, hall]

end Fusion.Padded

/-! ### Choices in another arithmetic -/

section Map

variable {α β : Type}

def Params.map (value : α → β) : Params α → Params β
  | rsi period => .rsi period
  | stochastic kPeriod dPeriod => .stochastic kPeriod dPeriod
  | williamsR period => .williamsR period
  | macd fast slow signal => .macd fast slow signal
  | smaCross fast slow => .smaCross fast slow
  | emaCross fast slow => .emaCross fast slow
  | bollinger period width => .bollinger period (value width)
  | obv period => .obv period

def Spec.map (value : α → β) (spec : Spec α) : Spec β := ⟨spec.id, spec.kind, spec.params.map value⟩

def Choice.map (value : α → β) : Choice α → Choice β
  | valid spec => .valid (spec.map value)
  | degraded id kind => .degraded id kind

variable {value : α → β}

@[simp] theorem Choice.id_map (c : Choice α) : (c.map value).id = c.id := by cases c <;> rfl

@[simp] theorem Choice.isDegraded_map (c : Choice α) : (c.map value).isDegraded = c.isDegraded := by
  cases c <;> rfl

theorem Choice.degradedIds_map (choices : List (Choice α)) :
    degradedIds (choices.map (Choice.map value)) = degradedIds choices := by
  simp [degradedIds, List.filter_map, Function.comp_def]

theorem Choice.specs_map (choices : List (Choice α)) :
    specs (choices.map (Choice.map value)) = (specs choices).map (Spec.map value) := by
  induction choices with
  | nil => rfl
  | cons c choices ih =>
    cases c with
    | valid spec => exact congrArg (spec.map value :: ·) ih
    | degraded id kind => exact ih

theorem Choice.Separate.map {choices : List (Choice α)} (h : Separate choices) :
    Separate (choices.map (Choice.map value)) := by
  intro c hc hvalid
  obtain ⟨d, hd, rfl⟩ := List.mem_map.mp hc
  rw [degradedIds_map, id_map]
  exact h d hd (by rwa [isDegraded_map] at hvalid)

end Map

/-! ### One provider, two paths -/

section Paths

variable {α : Type}

/-- The reading of a provider, with a failure read as a missing value. -/
def Provider.read (p : Provider α) (s : Series α) (spec : Spec α) : Reading α :=
  match p spec s with
  | .reading r => r
  | _ => Reading.missing spec s.length

theorem Provider.read_of_reading {p : Provider α} {s : Series α} {spec : Spec α} {r : Reading α}
    (h : p spec s = .reading r) : p.read s spec = r := by rw [read, h]

theorem Provider.read_of_failed {p : Provider α} {s : Series α} {spec : Spec α}
    {cause : IndicatorError} (h : p spec s = .failed cause) :
    p.read s spec = Reading.missing spec s.length := by rw [read, h]

theorem Replay.readings_total {p : Provider α} (hp : p.Total) (specs : List (Spec α))
    (s : Series α) :
    readings p specs s = .ok (specs.map fun spec => (spec, p.read s spec)) := by
  refine Eq.trans (mapM_congr fun spec _ => ?_) List.mapM_pure
  cases h : p spec s with
  | reading r =>
    rw [Provider.read_of_reading h]
    rfl
  | failed cause =>
    rw [Provider.read_of_failed h]
    rfl
  | halted how => exact absurd h (hp spec s how)

variable [Scalar α]

theorem Choice.signal_ask {n : Normalizer α} {p : Provider α} (hp : p.Total) (s : Series α)
    (spec : Spec α) :
    signal n (valid spec) ((valid spec).ask p s) = n.signal (p.read s spec) spec := by
  cases h : p spec s with
  | reading r =>
    rw [Provider.read_of_reading h, ask, h]
    rfl
  | failed cause =>
    rw [Provider.read_of_failed h, Normalizer.signal_missing, ask, h]
    rfl
  | halted how => exact absurd h (hp spec s how)

/-- The valid choices have the signals that a replay gives to their specifications. -/
theorem Choice.signals_filter_asked (c : Context α) {p : Provider α} (hp : p.Total)
    (s : Series α) (choices : List (Choice α)) :
    signals c.normalizer ((asked p s choices).filter fun o => !o.1.isDegraded) =
      c.signals ((specs choices).map fun spec => (spec, p.read s spec)) := by
  rw [asked, List.filter_map, signals, Context.signals, List.mapM_map, List.mapM_map]
  induction choices with
  | nil => rfl
  | cons choice choices ih =>
    cases choice with
    | degraded id kind => exact ih
    | valid spec =>
      have hspecs : specs (valid spec :: choices) = spec :: specs choices := rfl
      rw [hspecs, List.filter_cons_of_pos rfl, List.mapM_cons, List.mapM_cons, ih]
      simp only [Function.comp_apply, signal_ask hp]

end Paths

/-- The two verdicts say the same, whatever they are made for and whatever their accounts. -/
structure Verdict.SameCall {α : Type} (v w : Verdict α) : Prop where
  score : v.score = w.score
  recommendation : v.recommendation = w.recommendation
  confidence : v.confidence = w.confidence
  agreement : v.agreement = w.agreement
  totalWeight : v.totalWeight = w.totalWeight
  insufficient : v.insufficient = w.insufficient

/-- Without the entries of the degraded choices. -/
def Verdict.withoutDegraded {α : Type} (v : Verdict α) (choices : List (Choice α)) :
    List (Attribution α) :=
  v.attribution.filter fun a => !(Choice.degradedIds choices).contains a.signal.indicator

section Verdicts

variable {context : Context ℝ} {provider : Provider ℝ} {choices : List (Choice ℝ)}
  {profile : Profile ℝ} {s : Series ℝ}

/-- The signals of both paths fail alike; where they do not, those of the replay stand among those of
the evaluation, and the degraded choices have the others. -/
theorem signals_of_both (context : Context ℝ) (hprovider : provider.Total)
    (choices : List (Choice ℝ)) (s : Series ℝ) :
    (∃ e, Choice.signals context.normalizer (Choice.asked provider s choices) = .error e ∧
      context.signals ((Choice.specs choices).map fun spec => (spec, provider.read s spec)) =
        .error e) ∨
    ∃ live replayed,
      Choice.signals context.normalizer (Choice.asked provider s choices) = .ok live ∧
      context.signals ((Choice.specs choices).map fun spec => (spec, provider.read s spec)) =
        .ok replayed ∧
      Fusion.Padded replayed
        (((Choice.asked provider s choices).filter fun o => !!o.1.isDegraded).map Choice.silence)
        live := by
  have hdegraded : ∀ o : Choice ℝ × Option (Answer ℝ), (!o.1.isDegraded) = false →
      Choice.answered o = false := by
    rintro ⟨c, outcome⟩ ho
    cases c with
    | valid spec => cases ho
    | degraded id kind => rfl
  have hreplayed := Choice.signals_filter_asked context hprovider s choices
  cases h : Choice.signals context.normalizer (Choice.asked provider s choices) with
  | error e =>
    refine Or.inl ⟨e, rfl, ?_⟩
    rw [← hreplayed]
    exact (mapM_filter_eq_error_iff fun o ho =>
      ⟨_, Choice.signal_of_not_answered context.normalizer (hdegraded o ho)⟩).mpr h
  | ok live =>
    obtain ⟨replayed, hkept, hpadded⟩ := Choice.padded_of_signals hdegraded h
    exact Or.inr ⟨live, replayed, rfl, hreplayed.symm.trans hkept, hpadded⟩

/-- A replayed signal has the identity of no degraded choice. -/
theorem not_degraded_of_mem (hchoices : Choice.Separate choices) {replayed : List (Signal ℝ)}
    (h : context.signals ((Choice.specs choices).map fun spec => (spec, provider.read s spec)) =
      .ok replayed) :
    ∀ signal ∈ replayed, (!(Choice.degradedIds choices).contains signal.indicator) = true := by
  intro signal hsignal
  obtain ⟨x, hx, hmade⟩ := exists_mem_of_mapM_eq_ok h hsignal
  obtain ⟨spec, hspec, rfl⟩ := List.mem_map.mp hx
  have hseparate : spec.id ∉ Choice.degradedIds choices :=
    hchoices _ (Choice.mem_of_mem_specs hspec) rfl
  rw [(Normalizer.named_of_signal hmade).1, List.contains_eq_mem]
  simpa using hseparate

theorem degraded_of_mem :
    ∀ signal ∈ ((Choice.asked provider s choices).filter fun o => !!o.1.isDegraded).map
        Choice.silence,
      (!(Choice.degradedIds choices).contains signal.indicator) = false := by
  intro signal hsignal
  obtain ⟨o, ho, rfl⟩ := List.mem_map.mp hsignal
  obtain ⟨hasked, hdegraded⟩ := List.mem_filter.mp ho
  obtain ⟨c, hc, rfl⟩ := List.mem_map.mp hasked
  have hid : c.id ∈ Choice.degradedIds choices :=
    Choice.mem_degradedIds hc (by simpa using hdegraded)
  simpa [Choice.silence, Signal.noData] using hid

/-- With separate choices an evaluation and a replay of one series come to the same. -/
theorem verdicts_of_separate (context : Context ℝ) (hprovider : provider.Total)
    (hchoices : Choice.Separate choices) (profile : Profile ℝ) (s : Series ℝ) (timeout : ℕ)
    (now time : Instant) :
    (∃ e, context.verdict provider timeout choices profile s now = .error e ∧
      context.evaluate ((Choice.specs choices).map fun spec => (spec, provider.read s spec)) profile
        time = .error e) ∨
    ∃ live replayed, context.verdict provider timeout choices profile s now = .ok live ∧
      context.evaluate ((Choice.specs choices).map fun spec => (spec, provider.read s spec)) profile
        time = .ok replayed ∧
      live.SameCall replayed ∧ live.withoutDegraded choices = replayed.attribution := by
  rw [Context.verdict_of_total hprovider, Context.evaluate]
  rcases signals_of_both context hprovider choices s with
    ⟨e, hlive, hreplayed⟩ | ⟨live, replayed, hlive, hreplayed, hpadded⟩
  · rw [hlive, hreplayed]
    exact Or.inl ⟨e, rfl, rfl⟩
  · rw [hlive, hreplayed]
    rcases Fusion.fuse_padded hpadded (Choice.check_of_mem_signals hlive) context.thresholds profile
        now time with ⟨e, _, hv, hw⟩ | ⟨w, hw, haccount, _, hv⟩
    · refine Or.inl ⟨e, ?_, hw⟩
      change (Fusion.fuse context.thresholds live profile now >>= _) = _
      rw [hv]
      rfl
    · refine Or.inr ⟨Verdict.forInstrument
        { w with attribution := Fusion.account profile live, evaluatedAt := now } s.instrument
        (s.last?.map Bar.close), w, ?_, hw, ⟨rfl, rfl, rfl, rfl, rfl, rfl⟩, ?_⟩
      · change (Fusion.fuse context.thresholds live profile now >>= _) = _
        rw [hv]
        rfl
      · rw [haccount]
        exact hpadded.filter_account profile (not_degraded_of_mem hchoices hreplayed)
          degraded_of_mem

end Verdicts

/-- An evaluation of a request on a series and a replay at its last window fail alike, and where they
do not, they say the same. The account of the replay is that of the evaluation, in its order, without
the entries of the degraded choices. -/
theorem live_agrees_with_replay (context : Context ℝ) {provider : Provider ℝ}
    (hprovider : provider.Total) {defaults : List (Spec Float)}
    {selections : Option (List String)} {chosen : List (Choice Float)}
    (hchosen : Choice.ofSelections defaults selections = .ok chosen) (value : Float → ℝ)
    (profile : Profile ℝ) (s : Series ℝ) (timeout : ℕ) (now time : Instant) :
    ∃ given,
      Replay.readings provider (Choice.specs (chosen.map (Choice.map value))) (s.head s.length) =
        .ok given ∧
      (∀ e,
        context.verdict provider timeout (chosen.map (Choice.map value)) profile s now = .error e ↔
          context.evaluate given profile time = .error e) ∧
      ∀ live replayed,
        context.verdict provider timeout (chosen.map (Choice.map value)) profile s now = .ok live →
        context.evaluate given profile time = .ok replayed →
          live.SameCall replayed ∧
            live.withoutDegraded (chosen.map (Choice.map value)) = replayed.attribution := by
  have hchoices : Choice.Separate (chosen.map (Choice.map value)) :=
    (Choice.separate_of_ofSelections hchosen).map
  refine ⟨_, Replay.readings_total hprovider _ _, ?_⟩
  rw [Series.head_of_length_le le_rfl]
  rcases verdicts_of_separate context hprovider hchoices profile s timeout now time with
    ⟨e, hlive, hreplayed⟩ | ⟨live, replayed, hlive, hreplayed, hsame⟩
  · rw [hlive, hreplayed]
    refine ⟨fun _ => Iff.rfl, fun live' replayed' h => ?_⟩
    cases h
  · rw [hlive, hreplayed]
    refine ⟨fun _ => ⟨nofun, nofun⟩, fun live' replayed' h h' => ?_⟩
    cases h
    cases h'
    exact hsame

/-- Fails on trends. -/
noncomputable def patchy : Provider ℝ := fun spec s =>
  if spec.kind = .trend then .failed (.computation spec.id "no reading")
  else Provider.technical spec s

theorem total_patchy : patchy.Total := by
  intro spec s how h
  unfold patchy at h
  split at h <;> cases h

noncomputable def quickRange : Spec ℝ := ⟨"williams_r_2", .oscillator, .williamsR 2⟩

def slowTrend : Spec ℝ := ⟨"macd_12_26_9", .trend, .macd 12 26 9⟩

/-- What the range says on the last bar, which closes at its high. -/
noncomputable def highSignal : Signal ℝ := ⟨"williams_r_2", .oscillator, .bearish, 1, 1⟩

theorem signal_quickRange :
    (Normalizer.ofCurves .standard).signal (patchy.read turning quickRange) quickRange =
      .ok highSignal := by
  have hlevel : williamsR turning.bars 2 = some 0 := by
    norm_num [williamsR, turning, Average.highest, Average.lowest, Average.window?, largest?,
      smallest?, larger_real, smaller_real]
  have hbands : (⟨-100, 0, -80, -20⟩ : OscillatorBands ℝ).check = .ok () :=
    Curves.check_of_oscillators check_standard_curves (i := .williamsR) rfl
  have hread : patchy.read turning quickRange = Technical.reading quickRange turning :=
    Provider.read_of_reading rfl
  rw [hread]
  exact Normalizer.signal_of_end rfl rfl (by decide) (congrArg (Option.map Raw.level) hlevel)
    (OscillatorBands.place_max hbands)

theorem signal_slowTrend :
    (Normalizer.ofCurves .standard).signal (patchy.read turning slowTrend) slowTrend =
      .ok (Signal.noData "macd_12_26_9" .trend) := by
  have hread : patchy.read turning slowTrend = Reading.missing slowTrend turning.length :=
    Provider.read_of_failed (if_pos rfl)
  rw [hread]
  exact Normalizer.signal_missing _ slowTrend turning.length

/-- The range takes part alone, and the score is that of its strength. -/
theorem exists_evaluate_patchy {given : List (Spec ℝ × Reading ℝ)}
    (h : (Context.standard : Context ℝ).signals given =
      .ok [highSignal, Signal.noData "macd_12_26_9" .trend]) (time : Instant) :
    ∃ v, (Context.standard : Context ℝ).evaluate given Fusion.trendwise time = .ok v ∧
      v.score = -1 := by
  have hchecks : ∀ signal ∈ [highSignal, Signal.noData "macd_12_26_9" .trend],
      signal.check = .ok () := by
    intro signal hsignal
    obtain ⟨_, _, hmade⟩ := exists_mem_of_mapM_eq_ok h hsignal
    exact Normalizer.check_of_signal hmade
  have hweight : Fusion.trendwise.weight highSignal ≠ 0 := by
    norm_num [Fusion.weight_trendwise, KindWeights.get, highSignal]
  have hstrength : highSignal.strength = -1 := neg_one_mul 1
  obtain ⟨v, hv, hscore, _⟩ := Fusion.exists_fuse_of_alone hchecks Fusion.check_trendwise
    hweight (List.forall_mem_singleton.mpr rfl) .standard time
  exact ⟨v, Context.evaluate_eq_ok_iff.mpr ⟨_, h, hv⟩, hscore.trans hstrength⟩

/-- The range takes part in both verdicts, the trend fails, and the last choice is degraded. -/
theorem live_agrees_with_replay_patchy :
    ∃ chosen given live replayed,
      Choice.ofSelections [] (some ["willr:2", "macd", "WILLR:2", "stochastic:0"]) = .ok chosen ∧
        chosen.map Choice.id = ["williams_r_2", "macd_12_26_9", "stochastic:0"] ∧
        Replay.readings patchy (Choice.specs (chosen.map (Choice.map fun _ => 2)))
          (turning.head turning.length) = .ok given ∧
        (Context.standard : Context ℝ).verdict patchy 5000 (chosen.map (Choice.map fun _ => 2))
          Fusion.trendwise turning ⟨4, 0⟩ = .ok live ∧
        (Context.standard : Context ℝ).evaluate given Fusion.trendwise ⟨3, 0⟩ = .ok replayed ∧
        replayed.score = -1 ∧ live.SameCall replayed ∧
        live.withoutDegraded (chosen.map (Choice.map fun _ => 2)) = replayed.attribution := by
  have hparsed :
      ((Choice.ofSelections [] (some ["willr:2", "macd", "WILLR:2", "stochastic:0"])).toOption.map
        fun chosen => (chosen.map Choice.id, Choice.specs chosen)) =
        some (["williams_r_2", "macd_12_26_9", "stochastic:0"],
          [⟨"williams_r_2", .oscillator, .williamsR 2⟩,
            ⟨"macd_12_26_9", .trend, .macd 12 26 9⟩]) := by
    decide +kernel
  obtain ⟨chosen, hchosen, hfacts⟩ := exists_ok_of_toOption hparsed
  obtain ⟨hids, hspecs⟩ := Prod.mk.inj hfacts
  obtain ⟨given, hgiven, hfails, hagrees⟩ := live_agrees_with_replay Context.standard total_patchy
    hchosen (fun _ => 2) Fusion.trendwise turning 5000 ⟨4, 0⟩ ⟨3, 0⟩
  have hsignals : (Context.standard : Context ℝ).signals given =
      .ok [highSignal, Signal.noData "macd_12_26_9" .trend] := by
    have hread := hgiven
    rw [Replay.readings_total total_patchy, Series.head_of_length_le le_rfl, Choice.specs_map,
      hspecs] at hread
    rw [← Except.ok.inj hread]
    exact mapM_eq_ok_iff.mpr (.cons signal_quickRange (.cons signal_slowTrend .nil))
  obtain ⟨replayed, hreplayed, hscore⟩ := exists_evaluate_patchy hsignals ⟨3, 0⟩
  cases hlive : (Context.standard : Context ℝ).verdict patchy 5000
      (chosen.map (Choice.map fun _ => 2)) Fusion.trendwise turning ⟨4, 0⟩ with
  | error e =>
    rw [(hfails e).mp hlive] at hreplayed
    cases hreplayed
  | ok live =>
    obtain ⟨hsame, haccount⟩ := hagrees live replayed hlive hreplayed
    exact ⟨chosen, given, live, replayed, hchosen, hids, hgiven, hlive, hreplayed, hscore,
      hsame, haccount⟩

end MarketVerdict
