import Mathlib
import MarketVerdict.Proofs.Fusion.Ranking
import MarketVerdict.Proofs.Fusion.Silence

/-!
# What a verdict accounts for

The account of a verdict has one entry for every signal, whether the signal took part or not. The
weights in effect add up to the total weight and the contributions to the score, also kind by kind,
and no entry contributes less than one that is ranked behind it.
-/

namespace MarketVerdict

open Scalar

/-! ### Contributions by kind -/

theorem Assignment.sum_entries {κ : Type} (a : Assignment κ ℝ) (keys : List κ) :
    ((a.entries keys).map Prod.snd).sum = (keys.map fun k => (a k).getD 0).sum := by
  induction keys with
  | nil => rfl
  | cons k keys ih =>
    rw [List.map_cons, List.sum_cons, ← ih, entries, List.filterMap_cons]
    cases a k with
    | none => exact (zero_add _).symm
    | some x => rfl

/-- Sums over the members of each kind make up the sum over all members. -/
theorem Kind.sum_partition {β : Type} (kind : β → Kind) (f : β → ℝ) (xs : List β) :
    (Kind.all.map fun k => ((xs.filter fun x => kind x == k).map f).sum).sum = (xs.map f).sum := by
  induction xs with
  | nil => simp
  | cons x xs ih =>
    rw [List.map_cons, List.sum_cons, ← ih]
    simp only [Kind.all, List.map_cons, List.map_nil, List.sum_cons, List.sum_nil, List.filter_cons]
    cases kind x <;> simp <;> ring

namespace Verdict

variable {v : Verdict ℝ}

theorem getD_contributionByKind (v : Verdict ℝ) (k : Kind) :
    (v.contributionByKind k).getD 0 =
      ((v.included.filter fun a => a.signal.kind == k).map Attribution.contribution).sum := by
  unfold contributionByKind
  cases v.included.filter fun a => a.signal.kind == k with
  | nil => rfl
  | cons a entries => exact sum_real _

theorem sum_contributionByKind (v : Verdict ℝ) :
    ((v.contributionByKind.entries Kind.all).map Prod.snd).sum =
      (v.included.map Attribution.contribution).sum := by
  rw [Assignment.sum_entries]
  simp only [getD_contributionByKind]
  exact Kind.sum_partition (fun a => a.signal.kind) Attribution.contribution v.included

/-- Entries that are left out and contribute nothing are missed by no sum. -/
theorem sum_included (h : ∀ a ∈ v.attribution, a.isIncluded = false → a.contribution = 0) :
    (v.included.map Attribution.contribution).sum =
      (v.attribution.map Attribution.contribution).sum := by
  rw [included, sum_map_filter]
  refine congrArg List.sum (List.map_congr_left fun a ha => ?_)
  cases hincluded : a.isIncluded with
  | true => rfl
  | false => exact (h a ha hincluded).symm

/-! ### The first entries -/

theorem topContributors_eq (h : ∀ a ∈ v.attribution, a.isIncluded = false → a.contribution = 0)
    (n : ℕ) :
    v.topContributors n = (v.attribution.filter fun a => a.contribution ≠ 0).take n := by
  rw [topContributors, included, List.filter_filter]
  refine congrArg (List.take n) (List.filter_congr fun a ha => ?_)
  cases hincluded : a.isIncluded with
  | true => rw [Bool.and_true, Bool.eq_iff_iff]; simp
  | false => simp [h a ha hincluded]

/-- The first entries of a falling list, and all that comes after them or is nothing. -/
theorem exists_leftOut_of_falling {entries : List (Attribution ℝ)}
    (h : entries.Pairwise fun a b => |b.contribution| ≤ |a.contribution|) (n : ℕ) :
    ∃ rest, entries.Perm ((entries.filter fun a => a.contribution ≠ 0).take n ++ rest) ∧
      ∀ a ∈ (entries.filter fun a => a.contribution ≠ 0).take n, ∀ b ∈ rest,
        |b.contribution| ≤ |a.contribution| := by
  refine ⟨(entries.filter fun a => a.contribution ≠ 0).drop n ++
    entries.filter fun a => ¬ a.contribution ≠ 0, ?_, ?_⟩
  · rw [← List.append_assoc, List.take_append_drop]
    simpa using (List.filter_append_perm (fun a => decide (a.contribution ≠ 0)) entries).symm
  · intro a ha b hb
    rcases List.mem_append.mp hb with hb | hb
    · have hfiltered := h.filter fun a => decide (a.contribution ≠ 0)
      rw [← List.take_append_drop n (entries.filter fun a => decide (a.contribution ≠ 0))]
        at hfiltered
      exact (List.pairwise_append.mp hfiltered).2.2 a ha b hb
    · have hzero : b.contribution = 0 := by simpa using (List.mem_filter.mp hb).2
      rw [hzero, abs_zero]
      exact abs_nonneg _

end Verdict

namespace Fusion

variable {p : Profile ℝ} {signals : List (Signal ℝ)} {v : Verdict ℝ}

/-- How a signal takes part under a profile, by its entry. -/
structure Entered (p : Profile ℝ) (a : Attribution ℝ) : Prop where
  baseWeight : a.baseWeight = p.weights.weightFor a.signal.indicator a.signal.kind
  noData : a.status = .excluded .noData ↔ a.signal.reliability = 0
  unweighted : a.status = .excluded .unweighted ↔ a.signal.reliability ≠ 0 ∧
    p.weights.indicators.get? a.signal.indicator = none ∧ p.weights.kinds a.signal.kind = none
  included : a.status = .included ↔
    a.signal.reliability ≠ 0 ∧ p.weights.weightFor a.signal.indicator a.signal.kind ≠ none
  effective : a.status = .included →
    ∃ w, a.baseWeight = some w ∧ a.effectiveWeight = w * a.signal.reliability
  leftOut : a.status ≠ .included → a.effectiveWeight = 0 ∧ a.contribution = 0

/-- An account of signals. `entries` holds what becomes of each signal, in the order of the signals;
the account itself ranks them. -/
structure Accounted (p : Profile ℝ) (signals : List (Signal ℝ)) (entries : List (Attribution ℝ))
    (v : Verdict ℝ) : Prop where
  signals : entries.map Attribution.signal = signals
  entered : ∀ a ∈ entries, Entered p a
  shares : ∀ a ∈ entries, a.contribution = a.signal.strength * a.effectiveWeight / v.totalWeight
  perm : v.attribution.Perm entries
  weights : (v.attribution.map Attribution.effectiveWeight).sum = v.totalWeight
  contributions : (v.attribution.map Attribution.contribution).sum = v.score
  falling : v.attribution.Pairwise fun a b => |b.contribution| ≤ |a.contribution|
  stable : ∀ size, (v.attribution.filter fun a => |a.contribution| = size) =
    entries.filter fun a => |a.contribution| = size
  unranked : v.insufficient = true → v.attribution = entries
  kinds : ((v.contributionByKind.entries Kind.all).map Prod.snd).sum = v.score
  top : ∀ n, v.topContributors n = (v.attribution.filter fun a => a.contribution ≠ 0).take n
  others : ∀ n, ∃ rest, v.attribution.Perm (v.topContributors n ++ rest) ∧
    ∀ a ∈ v.topContributors n, ∀ b ∈ rest, |b.contribution| ≤ |a.contribution|

theorem status_weigh (p : Profile ℝ) (s : Signal ℝ) :
    (Attribution.weigh p s).status =
      if s.reliability = 0 then .excluded .noData
      else if p.weights.weightFor s.indicator s.kind = none then .excluded .unweighted
      else .included := by
  simp [Attribution.weigh, Attribution.statusOf]

theorem contribution_share (p : Profile ℝ) (total : ℝ) (s : Signal ℝ) :
    (share total (Attribution.weigh p s)).contribution = s.strength * p.weight s / total := by
  rw [share, Attribution.evidence_weigh, Signal.strength]

theorem entered_share (p : Profile ℝ) (total : ℝ) (s : Signal ℝ) :
    Entered p (share total (Attribution.weigh p s)) := by
  have hincluded : (Attribution.weigh p s).status = .included ↔
      s.reliability ≠ 0 ∧ p.weights.weightFor s.indicator s.kind ≠ none := by
    rw [← Option.isSome_iff_ne_none, ← Attribution.isIncluded_weigh]
    exact beq_iff_eq.symm
  refine ⟨rfl, ?_, ?_, hincluded, ?_, ?_⟩
  · change (Attribution.weigh p s).status = _ ↔ s.reliability = 0
    rw [status_weigh]
    split_ifs with hr hw
    · exact iff_of_true rfl hr
    · exact iff_of_false nofun hr
    · exact iff_of_false nofun hr
  · change (Attribution.weigh p s).status = _ ↔
      s.reliability ≠ 0 ∧ p.weights.indicators.get? s.indicator = none ∧
        p.weights.kinds s.kind = none
    rw [status_weigh, ← Option.or_eq_none_iff]
    split_ifs with hr hw
    · exact iff_of_false nofun fun h => h.1 hr
    · exact iff_of_true rfl ⟨hr, hw⟩
    · exact iff_of_false nofun fun h => hw h.2
  · intro h
    obtain ⟨w, hw⟩ := Option.ne_none_iff_exists'.mp (hincluded.mp h).2
    refine ⟨w, hw, ?_⟩
    change (Attribution.weigh p s).effectiveWeight = w * s.reliability
    rw [Attribution.effectiveWeight_weigh, Profile.weight_eq, hw, Option.getD_some]
  · intro h
    have hweight : p.weight s = 0 :=
      Attribution.weight_of_not_isIncluded fun h' => h (beq_iff_eq.mp h')
    constructor
    · exact (Attribution.effectiveWeight_weigh p s).trans hweight
    · rw [contribution_share, hweight, mul_zero, zero_div]

theorem sum_effectiveWeight_account (p : Profile ℝ) (signals : List (Signal ℝ)) :
    ((account p signals).map Attribution.effectiveWeight).sum = p.totalWeight signals := by
  rw [((account_perm p signals).map _).sum_eq, shared, List.map_map, List.map_map]
  refine congrArg List.sum (List.map_congr_left fun s _ => ?_)
  exact Attribution.effectiveWeight_weigh p s

/-- Where no weight is in effect nothing contributes, and the signals keep their order. -/
theorem account_of_weightless (h : p.totalWeight signals = 0) :
    account p signals = shared p (p.totalWeight signals) signals := by
  have hzero : ∀ a ∈ shared p (p.totalWeight signals) signals, a.contribution = 0 := by
    intro a ha
    obtain ⟨b, _, rfl⟩ := List.mem_map.mp ha
    rw [h]
    exact div_zero b.evidence
  refine Attribution.rank_eq_self fun a ha b hb => ?_
  rw [hzero a ha, hzero b hb]

/-- Every verdict accounts for all of its signals. -/
theorem fuse_accounts {t : Thresholds ℝ} {time : Instant} (h : fuse t signals p time = .ok v) :
    ∃ entries, Accounted p signals entries v := by
  obtain ⟨hchecks, hp, _⟩ := fuse_eq_ok_iff.mp h
  have hs : ∀ s ∈ signals, s.Sound := fun s hmem => Signal.sound_of_check (hchecks s hmem)
  obtain rfl : called t p signals time (account p signals) = v :=
    Except.ok.inj ((fuse_of_sound_real hp hs).symm.trans h)
  have hentries : ∀ a ∈ shared p (p.totalWeight signals) signals,
      ∃ s, a = share (p.totalWeight signals) (Attribution.weigh p s) := by
    intro a ha
    obtain ⟨_, hb, rfl⟩ := List.mem_map.mp ha
    obtain ⟨s, _, rfl⟩ := List.mem_map.mp hb
    exact ⟨s, rfl⟩
  have hentered : ∀ a ∈ shared p (p.totalWeight signals) signals, Entered p a := by
    intro a ha
    obtain ⟨s, rfl⟩ := hentries a ha
    exact entered_share p _ s
  have hleft : ∀ a ∈ account p signals, a.isIncluded = false → a.contribution = 0 :=
    fun a ha hincluded => ((hentered a ((account_perm p signals).mem_iff.mp ha)).leftOut
      (beq_eq_false_iff_ne.mp hincluded)).2
  have hscore : p.balance signals = (called t p signals time (account p signals)).score := by
    change _ = if p.totalWeight signals = 0 then 0 else p.balance signals
    split
    · next hzero => rw [Profile.balance, hzero, div_zero]
    · rfl
  have hsum := (sum_contribution_account p signals).trans hscore
  have hfalling := Attribution.pairwise_rank (shared p (p.totalWeight signals) signals)
  exact ⟨shared p (p.totalWeight signals) signals, {
    signals := signals_shared p _ signals
    entered := hentered
    shares := by
      intro a ha
      obtain ⟨s, rfl⟩ := hentries a ha
      rw [contribution_share]
      change _ = s.strength * (Attribution.weigh p s).effectiveWeight / p.totalWeight signals
      rw [Attribution.effectiveWeight_weigh]
    perm := account_perm p signals
    weights := sum_effectiveWeight_account p signals
    contributions := hsum
    falling := hfalling
    stable := fun size => Attribution.filter_rank _ fun a _ b _ ha hb =>
      ((of_decide_eq_true hb).trans (of_decide_eq_true ha).symm).le
    unranked := by
      intro hinsufficient
      have hzero : p.totalWeight signals = 0 := by
        by_contra hne
        have hsufficient : (called t p signals time (account p signals)).insufficient = false :=
          if_neg hne
        rw [hsufficient] at hinsufficient
        cases hinsufficient
      exact account_of_weightless hzero
    kinds := by
      rw [Verdict.sum_contributionByKind, Verdict.sum_included hleft]
      exact hsum
    top := Verdict.topContributors_eq hleft
    others := by
      intro n
      rw [Verdict.topContributors_eq hleft]
      exact Verdict.exists_leftOut_of_falling hfalling n }⟩

/-- Weighs oscillators and trends alike, and nothing else. -/
noncomputable def selective : Profile ℝ :=
  ⟨"selective", Table.empty, fun
    | .oscillator | .trend => some 1
    | .volatility | .volume => none⟩

/-- One signal without data, one without a weight, and one evaluation twice, for either way. -/
noncomputable def tied : List (Signal ℝ) :=
  [Signal.noData "stochastic_14_3" .oscillator, ⟨"obv_20", .volume, .bullish, 1, 1⟩,
    ⟨"rsi_14", .oscillator, .bullish, 1 / 2, 1⟩, ⟨"rsi_14", .oscillator, .bearish, 1 / 2, 1⟩,
    ⟨"macd_12_26_9", .trend, .bullish, 1, 1⟩]

theorem check_selective : selective.check = .ok () := by
  have hnamed : selective.weights.named = [("oscillator", 1), ("trend", 1)] := rfl
  have htotal : selective.weights.total = sum [] + sum [1, 1] := rfl
  rw [Profile.check_eq_ok_iff, Weights.check_eq_ok_iff, hnamed, htotal]
  norm_num [sum_real]

theorem weight_selective (s : Signal ℝ) :
    selective.weight s = (selective.weights.kinds s.kind).getD 0 * s.reliability :=
  Profile.weight_eq selective s

theorem fuse_accounts_tied :
    ∃ v entries, fuse .standard tied selective .epoch = .ok v ∧
      Accounted selective tied entries v ∧ v.totalWeight = 3 ∧ v.score = 1 / 3 := by
  have hsound : ∀ s ∈ tied, s.Sound := by
    simp only [tied, Signal.noData, List.forall_mem_cons, List.not_mem_nil, false_implies,
      implies_true, and_true]
    refine ⟨⟨?_, ?_⟩, ⟨?_, ?_⟩, ⟨?_, ?_⟩, ⟨?_, ?_⟩, ⟨?_, ?_⟩⟩ <;> norm_num
  have hfuse : fuse .standard tied selective .epoch = .ok _ :=
    fuse_of_sound_real check_selective hsound
  obtain ⟨entries, haccounted⟩ := fuse_accounts hfuse
  have htotal : selective.totalWeight tied = 3 := by
    simp only [tied, Signal.noData, Profile.totalWeight_cons, Profile.totalWeight_nil,
      weight_selective]
    norm_num [selective]
  have hbalance : selective.balance tied = 1 / 3 := by
    rw [Profile.balance, htotal]
    simp only [tied, Signal.noData, Profile.evidence_cons, Profile.evidence_nil, weight_selective,
      reduceCtorEq, if_true, if_false]
    norm_num [selective]
  refine ⟨_, entries, hfuse, haccounted, htotal, ?_⟩
  change (if selective.totalWeight tied = 0 then 0 else selective.balance tied) = 1 / 3
  rw [htotal, hbalance, if_neg three_ne_zero]

end Fusion

end MarketVerdict
