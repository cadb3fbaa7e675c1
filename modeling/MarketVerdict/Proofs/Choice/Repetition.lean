import MarketVerdict.Proofs.Choice.Identity
import MarketVerdict.Proofs.Choice.Isolation
import MarketVerdict.Proofs.Config.Sufficiency
import MarketVerdict.Proofs.Fusion.Verdict
import MarketVerdict.Proofs.Selection.Trimming
import MarketVerdict.Service.Startup

/-!
# Repeated default selections

Selections that a request lists count once for each identity. The default selections of a
configuration are taken one by one, and two of them may come to one identity. A request that lists no
selection is then answered as if the defaults were listed, and counts no indicator twice, exactly when
the defaults have distinct identities.
-/

namespace MarketVerdict

open Traversal

namespace Choice

theorem parse_trim {s : String} {spec : Spec Float} (h : Spec.parse s = .ok spec) :
    parse (Text.trim s) = .ok (valid spec) := by
  rw [parse, Spec.parse_trim h]

/-- Listed texts that give specifications choose these, each identity once. -/
theorem ofSelections_of_parse {defaults specs : List (Spec Float)} {listed : List String}
    (hlisted : listed ≠ []) (h : List.Forall₂ (fun s spec => Spec.parse s = .ok spec) listed specs) :
    ofSelections defaults (some listed) = .ok (distinct (specs.map valid)) := by
  have hparsed : listed.mapM (fun s => parse (Text.trim s)) = .ok (specs.map valid) := by
    rw [mapM_eq_ok_iff, List.forall₂_map_right_iff]
    exact h.imp fun _ _ => parse_trim
  obtain ⟨s, rest, rfl⟩ := List.exists_cons_of_ne_nil hlisted
  rw [ofSelections, parseAll, hparsed]
  rfl

end Choice

/-! ### The indicators of a verdict -/

/-- The indicators that a verdict counts. -/
def Verdict.indicators {α : Type} (v : Verdict α) : List String :=
  v.attribution.map fun a => a.signal.indicator

section Indicators

variable {α : Type} [Scalar α] {c : Context α} {p : Profile α} {time : Instant} {v : Verdict α}

theorem Attribution.indicators_rank (entries : List (Attribution α)) :
    ((rank entries).map fun a => a.signal.indicator).Perm
      (entries.map fun a => a.signal.indicator) :=
  (List.mergeSort_perm _ _).map _

/-- A verdict counts the indicators of its signals. -/
theorem Fusion.indicators_perm {t : Thresholds α} {signals : List (Signal α)}
    (h : fuse t signals p time = .ok v) : v.indicators.Perm (signals.map Signal.indicator) := by
  have hweigh : ((signals.map (Attribution.weigh p)).map fun a => a.signal.indicator) =
      signals.map Signal.indicator := List.map_map
  have hshare (entries : List (Attribution α)) (total : α) :
      ((entries.map (share total)).map fun a => a.signal.indicator) =
        entries.map fun a => a.signal.indicator := List.map_map
  obtain ⟨_, _, _, rfl⟩ := fuse_eq_ok_iff.mp h
  rw [← hweigh]
  unfold conclude
  split
  · exact Attribution.indicators_rank _
  · rw [← hshare]
    exact Attribution.indicators_rank _

theorem Choice.indicator_of_signal {n : Normalizer α} {choice : Choice α}
    {outcome : Option (Answer α)} {s : Signal α} (h : signal n choice outcome = .ok s) :
    s.indicator = choice.id := by
  cases ho : answered (choice, outcome) with
  | false =>
    rw [signal_of_not_answered n ho] at h
    cases h
    rfl
  | true =>
    obtain ⟨spec, r, ho⟩ := eq_of_answered ho
    cases ho
    exact (Normalizer.named_of_signal h).1

theorem Context.indicators_of_verdict {provider : Provider α} {timeout : ℕ}
    {choices : List (Choice α)} {s : Series α}
    (h : c.verdict provider timeout choices p s time = .ok v) :
    v.indicators.Perm (choices.map Choice.id) := by
  unfold verdict at h
  dsimp only at h
  split at h
  · cases h
  · obtain ⟨signals, hsignals, h⟩ := bind_eq_ok_iff.mp h
    obtain ⟨w, hw, h⟩ := bind_eq_ok_iff.mp h
    cases h
    have hids := map_eq_map_of_mapM_eq_ok hsignals fun o _ ho => Choice.indicator_of_signal ho
    rw [List.map_map] at hids
    exact (Fusion.indicators_perm hw).trans (List.Perm.of_eq hids)

theorem Replay.indicators_of_verdict {r : Replay α} {window : Series α}
    (h : r.verdict window time = .ok v) : v.indicators.Perm (r.specs.map Spec.id) := by
  obtain ⟨given, hgiven, h⟩ := bind_eq_ok_iff.mp h
  rw [mapError_eq_ok_iff] at hgiven h
  obtain ⟨signals, hsignals, hfuse⟩ := Context.evaluate_eq_ok_iff.mp h
  have hids : signals.map Signal.indicator = given.map fun x => x.1.id :=
    map_eq_map_of_mapM_eq_ok hsignals fun x _ hx => (Normalizer.named_of_signal hx).1
  have hspecs : given.map (fun x => x.1.id) = r.specs.map Spec.id :=
    map_eq_map_of_mapM_eq_ok hgiven fun spec x hx => by
      cases hanswer : r.provider spec window <;> rw [hanswer] at hx <;> cases hx <;> rfl
  rw [← hspecs, ← hids]
  exact Fusion.indicators_perm hfuse

end Indicators

/-! ### Desks of checked configurations -/

namespace Desk

variable {desk : Desk}

/-- Neither an evaluation of the request nor a window of its replay counts an indicator twice. -/
def Unrepeated (desk : Desk) (request : EvaluationRequest) : Prop :=
  ∀ profile choices, desk.plan request = .ok (profile, choices) →
    (∀ timeout s time v,
      desk.context.verdict desk.provider timeout choices profile s time = .ok v →
        v.indicators.Nodup) ∧
    ∀ window time v,
      (⟨desk.context, desk.provider, Choice.specs choices, profile⟩ : Replay Float).verdict window
        time = .ok v → v.indicators.Nodup

/-- A request that lists nothing is answered as one that lists the given selections, and no answer
counts an indicator twice. -/
structure DefaultsTo (desk : Desk) (listed : List String) : Prop where
  choices : ∀ unlisted : Option (List String), unlisted.getD [] = [] →
    Choice.ofSelections desk.defaults unlisted = Choice.ofSelections desk.defaults (some listed)
  evaluate : ∀ unlisted : Option (List String), unlisted.getD [] = [] →
    ∀ (request : EvaluationRequest) (time : Instant) (source : Source),
      desk.evaluate { request with indicators := unlisted } time source =
        desk.evaluate { request with indicators := some listed } time source
  backtest : ∀ unlisted : Option (List String), unlisted.getD [] = [] →
    ∀ (request : ReplayRequest) (source : Source),
      desk.backtest { request with indicators := unlisted } source =
        desk.backtest { request with indicators := some listed } source
  unrepeated : ∀ request, desk.Unrepeated request

theorem choices_of_plan {request : EvaluationRequest} {profile : Profile Float}
    {choices : List (Choice Float)} (h : desk.plan request = .ok (profile, choices)) :
    Choice.ofSelections desk.defaults request.indicators = .ok choices := by
  obtain ⟨_, _, h⟩ := bind_eq_ok_iff.mp h
  obtain ⟨_, hchoices, h⟩ := bind_eq_ok_iff.mp h
  cases h
  exact hchoices

theorem unrepeated_of_nodup {request : EvaluationRequest}
    (h : ∀ choices, Choice.ofSelections desk.defaults request.indicators = .ok choices →
      (choices.map Choice.id).Nodup) : desk.Unrepeated request := by
  intro profile choices hplan
  have hnodup := h choices (choices_of_plan hplan)
  constructor
  · intro timeout s time v hv
    exact (Context.indicators_of_verdict hv).nodup_iff.mpr hnodup
  · intro window time v hv
    exact (Replay.indicators_of_verdict hv).nodup_iff.mpr (Choice.nodup_specs hnodup)

theorem unrepeated_of_listed {request : EvaluationRequest}
    (h : request.indicators.getD [] ≠ []) : desk.Unrepeated request :=
  unrepeated_of_nodup fun _ => Choice.nodup_of_listed h

/-- Selections that come to the same choices get the same answer. -/
theorem withBars_of_choices {β : Type} {selections selections' : Option (List String)}
    (h : Choice.ofSelections desk.defaults selections =
      Choice.ofSelections desk.defaults selections') (request : EvaluationRequest) (limit : ℕ)
    (answer : Profile Float → List (Choice Float) → Series Float → Except (FusionError Float) β)
    (source : Source) :
    desk.withBars { request with indicators := selections } limit answer source =
      desk.withBars { request with indicators := selections' } limit answer source := by
  have hplan : desk.plan { request with indicators := selections } =
      desk.plan { request with indicators := selections' } := by
    rw [plan, plan, h]
  rw [withBars, withBars, hplan]

theorem defaultsTo_iff {listed : List String} (hlisted : listed ≠ [])
    (h : List.Forall₂ (fun s spec => Spec.parse s = .ok spec) listed desk.defaults) :
    desk.DefaultsTo listed ↔ (desk.defaults.map Spec.id).Nodup := by
  have hchoices : Choice.ofSelections desk.defaults (some listed) = .ok _ :=
    Choice.ofSelections_of_parse hlisted h
  constructor
  · intro hdefaults
    have hsame := hdefaults.choices none rfl
    rw [hchoices] at hsame
    rw [← Choice.map_id_valid, ← Choice.distinct_eq_self_iff]
    exact (Except.ok.inj hsame).symm
  · intro hnodup
    rw [← Choice.map_id_valid] at hnodup
    rw [Choice.distinct_eq_self_iff.mpr hnodup] at hchoices
    have hsame (unlisted : Option (List String)) (hunlisted : unlisted.getD [] = []) :
        Choice.ofSelections desk.defaults unlisted =
          Choice.ofSelections desk.defaults (some listed) :=
      (Choice.ofSelections_of_unlisted desk.defaults hunlisted).trans hchoices.symm
    refine ⟨hsame, fun unlisted hunlisted request time source => ?_,
      fun unlisted hunlisted request source => ?_, fun request => ?_⟩
    · exact withBars_of_choices (hsame unlisted hunlisted) request _ _ source
    · exact withBars_of_choices (hsame unlisted hunlisted) request.toEvaluationRequest _ _ source
    · by_cases hunlisted : request.indicators.getD [] = []
      · refine unrepeated_of_nodup fun choices hc => ?_
        rw [Choice.ofSelections_of_unlisted desk.defaults hunlisted] at hc
        cases hc
        exact hnodup
      · exact unrepeated_of_listed hunlisted

end Desk

namespace Config

theorem defaultSpecs_eq_ok_iff {c : Config} {specs : List (Spec Float)} :
    c.defaultSpecs = .ok specs ↔ c.defaultIndicators ≠ [] ∧
      List.Forall₂ (fun s spec => Spec.parse s = .ok spec) c.defaultIndicators specs := by
  unfold defaultSpecs
  split
  · next hempty => simp [List.isEmpty_iff.mp hempty]
  · next hempty =>
    rw [List.isEmpty_iff] at hempty
    simp only [mapM_eq_ok_iff, mapError_eq_ok_iff, ne_eq, hempty, not_false_eq_true, true_and]

end Config

/-- The desk of a checked configuration takes its defaults as if a request had listed their texts, and
no answer counts an indicator twice, exactly when the defaults have distinct identities. Where a
request lists selections, no answer counts an indicator twice in any case. -/
theorem defaults_as_listed_iff {config : Config} (hcheck : config.check = .ok ())
    (provider : Provider Float) (settings : DeskSettings) :
    ∃ desk, Desk.ofConfig config provider settings = .ok desk ∧
      List.Forall₂ (fun s spec => Spec.parse s = .ok spec) config.defaultIndicators
        desk.defaults ∧
      (desk.DefaultsTo config.defaultIndicators ↔ (desk.defaults.map Spec.id).Nodup) ∧
      ∀ request, request.indicators.getD [] ≠ [] → desk.Unrepeated request := by
  obtain ⟨hthresholds, _, _, ⟨specs, hspecs⟩, r, hr⟩ := Config.check_eq_ok_iff.mp hcheck
  obtain ⟨hlisted, hparsed⟩ := Config.defaultSpecs_eq_ok_iff.mp hspecs
  refine ⟨⟨⟨Normalizer.ofCurves config.curves, r, config.thresholds⟩, provider, specs, settings⟩,
    ?_, hparsed, Desk.defaultsTo_iff hlisted hparsed, fun _ => Desk.unrepeated_of_listed⟩
  rw [Desk.ofConfig, Config.context, hr, hthresholds, hspecs]
  rfl

theorem defaults_as_listed_iff_standard :
    Config.standard.check = .ok () ∧ ∃ desk,
      Desk.ofConfig .standard Provider.technical .standard = .ok desk ∧
        desk.defaults.map Spec.id =
          ["rsi_14", "stochastic_14_3", "macd_12_26_9", "sma_cross_50_200", "bollinger_20_2",
            "obv_20"] ∧
        desk.DefaultsTo Config.standard.defaultIndicators := by
  have hcheck : Config.standard.check = .ok () := toOption_eq_some_iff.mp (by decide +kernel)
  have hids : ((Desk.ofConfig .standard Provider.technical .standard).toOption.map fun desk =>
      desk.defaults.map Spec.id) =
        some ["rsi_14", "stochastic_14_3", "macd_12_26_9", "sma_cross_50_200", "bollinger_20_2",
          "obv_20"] := by
    decide +kernel
  obtain ⟨desk, hdesk, _, hiff, _⟩ := defaults_as_listed_iff hcheck Provider.technical .standard
  rw [hdesk] at hids
  have hids : desk.defaults.map Spec.id = _ := Option.some.inj hids
  refine ⟨hcheck, desk, hdesk, hids, hiff.mpr ?_⟩
  rw [hids]
  decide

/-- Two of its defaults come to one identity. -/
def Config.doubled : Config :=
  { Config.standard with defaultIndicators := ["rsi:2", "RSI:2", "obv:2"] }

def zigzag : Series Float where
  instrument := "zigzag"
  bars := [⟨⟨0, 0⟩, 10, 10, 10, 10, 1⟩, ⟨⟨1, 0⟩, 12, 12, 12, 12, 1⟩, ⟨⟨2, 0⟩, 11, 11, 11, 11, 1⟩,
    ⟨⟨3, 0⟩, 12, 12, 12, 12, 1⟩]
  ordered := by decide

/-- What an evaluation of `zigzag` recommends. -/
def Desk.zigzagCall (desk : Desk) (listed : Option (List String)) : Option Recommendation :=
  (desk.evaluate ⟨"zigzag", listed, none, none⟩ ⟨4, 0⟩
    (Source.ofStore (Store.put .empty zigzag))).1.toOption.map Verdict.recommendation

/-- An oscillator that is counted twice turns a call to hold into one to sell. -/
theorem doubled_default_counts_twice :
    Config.doubled.check = .ok () ∧ ∃ desk,
      Desk.ofConfig .doubled Provider.technical .standard = .ok desk ∧
        desk.defaults.map Spec.id = ["rsi_2", "rsi_2", "obv_2"] ∧
        desk.zigzagCall none = some .sell ∧
        desk.zigzagCall (some Config.doubled.defaultIndicators) = some .hold ∧
        ¬ desk.DefaultsTo Config.doubled.defaultIndicators := by
  have hcheck : Config.doubled.check = .ok () := toOption_eq_some_iff.mp (by decide +kernel)
  have hfacts : ((Desk.ofConfig .doubled Provider.technical .standard).toOption.map fun desk =>
      (desk.defaults.map Spec.id, desk.zigzagCall none,
        desk.zigzagCall (some Config.doubled.defaultIndicators))) =
        some (["rsi_2", "rsi_2", "obv_2"], some .sell, some .hold) := by
    decide +kernel
  obtain ⟨desk, hdesk, hfacts⟩ := exists_ok_of_toOption hfacts
  obtain ⟨hids, hcalls⟩ := Prod.mk.inj hfacts
  obtain ⟨hunlisted, hlisted⟩ := Prod.mk.inj hcalls
  refine ⟨hcheck, desk, hdesk, hids, hunlisted, hlisted, fun hdefaults => ?_⟩
  have hsame : desk.zigzagCall none = desk.zigzagCall (some Config.doubled.defaultIndicators) :=
    congrArg (fun answer => answer.1.toOption.map Verdict.recommendation)
      (hdefaults.evaluate none rfl ⟨"zigzag", none, none, none⟩ ⟨4, 0⟩ _)
  rw [hunlisted, hlisted] at hsame
  exact absurd hsame (by decide)

end MarketVerdict
