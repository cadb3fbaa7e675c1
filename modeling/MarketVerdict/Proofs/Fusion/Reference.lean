import Mathlib
import MarketVerdict.Proofs.Fusion.Evidence
import MarketVerdict.Proofs.Fusion.Shape

/-!
# The verdict that evidence calls for

In exact arithmetic the verdict on sound signals is fixed by three numbers: the evidence for a rise,
the evidence for a fall and the total weight. `called` writes it down without the passes over the
entries by which a fusion finds it. The order of the signals and signals without weight leave these
numbers alone, and so every part of the verdict but the account of the signals.
-/

namespace MarketVerdict

open Scalar

namespace Attribution

theorem isIncluded_weigh (p : Profile ℝ) (s : Signal ℝ) :
    (weigh p s).isIncluded = true ↔
      s.reliability ≠ 0 ∧ (p.weights.weightFor s.indicator s.kind).isSome = true := by
  simp only [isIncluded, weigh, statusOf]
  by_cases hr : s.reliability = 0
  · simp [hr]
  · cases p.weights.weightFor s.indicator s.kind <;> simp [hr]

theorem weight_of_not_isIncluded {p : Profile ℝ} {s : Signal ℝ}
    (h : ¬ (weigh p s).isIncluded = true) : p.weight s = 0 := by
  rw [isIncluded_weigh, not_and_or, not_not] at h
  rw [Profile.weight_eq]
  rcases h with hr | hw
  · rw [hr, mul_zero]
  · rw [Option.not_isSome_iff_eq_none.mp hw, Option.getD_none, zero_mul]

@[simp] theorem signal_weigh (p : Profile ℝ) (s : Signal ℝ) : (weigh p s).signal = s := rfl

@[simp] theorem effectiveWeight_weigh (p : Profile ℝ) (s : Signal ℝ) :
    (weigh p s).effectiveWeight = p.weight s := by
  rw [Profile.weight_eq]
  by_cases hr : s.reliability = 0
  · simp [weigh, statusOf, hr]
  · cases h : p.weights.weightFor s.indicator s.kind <;> simp [weigh, statusOf, hr, h]

theorem evidence_weigh (p : Profile ℝ) (s : Signal ℝ) :
    (weigh p s).evidence = s.direction.sign * s.magnitude * p.weight s := by
  rw [evidence, signal_weigh, effectiveWeight_weigh]
  split
  · rfl
  · next h => rw [weight_of_not_isIncluded h, mul_zero]

end Attribution

namespace Fusion

variable {p : Profile ℝ} {signals : List (Signal ℝ)}

theorem totalWeight_weigh (p : Profile ℝ) (signals : List (Signal ℝ)) :
    totalWeight (signals.map (Attribution.weigh p)) = p.totalWeight signals := by
  rw [totalWeight, sum_real, sum_map_filter, List.map_map, Profile.totalWeight]
  congr 1
  refine List.map_congr_left fun s _ => ?_
  simp only [Function.comp_apply, Attribution.effectiveWeight_weigh]
  split
  · rfl
  · next h => exact (Attribution.weight_of_not_isIncluded h).symm

theorem sum_signed (p : Profile ℝ) (signals : List (Signal ℝ)) :
    (signals.map fun s => s.direction.sign * s.magnitude * p.weight s).sum =
      p.evidence .bullish signals - p.evidence .bearish signals := by
  induction signals with
  | nil => simp
  | cons s signals ih =>
    rw [List.map_cons, List.sum_cons, ih, Profile.evidence_cons, Profile.evidence_cons]
    cases hd : s.direction <;> simp [Direction.sign] <;> ring

/-- The entries of signals with their shares of a score over the given total. -/
noncomputable def shared (p : Profile ℝ) (total : ℝ) (signals : List (Signal ℝ)) :
    List (Attribution ℝ) :=
  (signals.map (Attribution.weigh p)).map (share total)

theorem signals_shared (p : Profile ℝ) (total : ℝ) (signals : List (Signal ℝ)) :
    (shared p total signals).map Attribution.signal = signals := by
  rw [shared, List.map_map, List.map_map]
  exact List.map_id signals

theorem sum_contribution (p : Profile ℝ) (total : ℝ) (signals : List (Signal ℝ)) :
    sum ((shared p total signals).map Attribution.contribution) =
      (p.evidence .bullish signals - p.evidence .bearish signals) / total := by
  rw [← sum_signed, sum_real, shared, List.map_map, List.map_map, div_eq_mul_inv,
    ← List.sum_map_mul_right]
  congr 1
  refine List.map_congr_left fun s _ => ?_
  simp only [Function.comp_apply, share, Attribution.evidence_weigh, div_eq_mul_inv]

theorem weightedMagnitude_share (p : Profile ℝ) (total : ℝ) (s : Signal ℝ) :
    weightedMagnitude (share total (Attribution.weigh p s)) = s.magnitude * p.weight s := by
  simp [weightedMagnitude, share]

/-- A sum of weighted magnitudes over entries may leave out the ones that are not included. -/
theorem sum_weightedMagnitude (p : Profile ℝ) (total : ℝ) (q : Direction → Bool)
    (signals : List (Signal ℝ)) :
    sum (((shared p total signals).filter fun a => a.isIncluded && q a.signal.direction).map
      weightedMagnitude) =
      (signals.map fun s => if q s.direction then s.magnitude * p.weight s else 0).sum := by
  rw [sum_real, sum_map_filter, shared, List.map_map, List.map_map]
  congr 1
  refine List.map_congr_left fun s _ => ?_
  simp only [Function.comp_apply, weightedMagnitude_share]
  have hincluded : (share total (Attribution.weigh p s)).isIncluded =
      (Attribution.weigh p s).isIncluded := rfl
  rw [hincluded]
  change (if (_ && q s.direction) = true then _ else _) = _
  by_cases h : (Attribution.weigh p s).isIncluded = true
  · rw [h, Bool.true_and]
  · rw [Attribution.weight_of_not_isIncluded h]
    simp

theorem sum_directional (p : Profile ℝ) (total : ℝ) (signals : List (Signal ℝ)) :
    sum ((directional (shared p total signals)).map weightedMagnitude) =
      p.evidence .bullish signals + p.evidence .bearish signals := by
  rw [directional, sum_weightedMagnitude p total (· != .neutral), Profile.evidence_eq_sum,
    Profile.evidence_eq_sum, ← List.sum_map_add]
  congr 1
  refine List.map_congr_left fun s _ => ?_
  cases s.direction <;> simp

theorem sum_agreeing (p : Profile ℝ) (total : ℝ) (signals : List (Signal ℝ)) {d : Direction}
    (hd : d ≠ .neutral) :
    sum (((directional (shared p total signals)).filter fun a => a.signal.direction == d).map
      weightedMagnitude) = p.evidence d signals := by
  have hfilter : ((directional (shared p total signals)).filter fun a => a.signal.direction == d) =
      (shared p total signals).filter fun a => a.isIncluded && a.signal.direction == d := by
    rw [directional, List.filter_filter]
    refine List.filter_congr fun a _ => ?_
    cases a.isIncluded <;> cases ha : a.signal.direction <;> cases d <;> simp_all
  rw [hfilter, sum_weightedMagnitude p total (· == d), Profile.evidence_eq_sum]
  simp only [beq_iff_eq]

section Agreement

variable {p : Profile ℝ} {signals : List (Signal ℝ)}

theorem agreement_of_ofSign {total score : ℝ} {d : Direction} (h : Direction.ofSign score = d)
    (hd : d ≠ .neutral)
    (hevidence : 0 < p.evidence .bullish signals + p.evidence .bearish signals) :
    agreement (shared p total signals) score = clampUnit (p.evidence d signals /
      (p.evidence .bullish signals + p.evidence .bearish signals)) := by
  simp only [agreement, h, sum_directional, sum_agreeing p total signals hd]
  rw [if_neg hd, if_neg hevidence.not_ge]

/-- The agreement on the way of the balance is the share that the prevailing way has. -/
theorem agreement_shared (hp : p.check = .ok ()) (hs : ∀ s ∈ signals, s.Sound)
    (hpos : 0 < p.totalWeight signals) :
    agreement (shared p (p.totalWeight signals) signals) (p.balance signals) = p.unity signals := by
  have hbulls := Profile.evidence_nonneg (d := .bullish) hp hs
  have hbears := Profile.evidence_nonneg (d := .bearish) hp hs
  have hclamp := clampUnit_of_mem (Profile.unity_mem hp hs)
  rcases lt_trichotomy (p.evidence .bullish signals) (p.evidence .bearish signals) with
    hlt | heq | hgt
  · rw [Profile.unity_of_lt hlt] at hclamp ⊢
    rw [agreement_of_ofSign (Direction.ofSign_of_neg ((Profile.balance_neg_iff hpos).mpr hlt))
      (by decide) (by linarith), hclamp]
  · have hzero : p.balance signals = 0 := (Profile.balance_eq_zero_iff hpos).mpr heq
    rw [hzero, Profile.unity, if_pos heq]
    simp [agreement]
  · rw [Profile.unity_of_gt hgt] at hclamp ⊢
    rw [agreement_of_ofSign (Direction.ofSign_of_pos ((Profile.balance_pos_iff hpos).mpr hgt))
      (by decide) (by linarith), hclamp]

end Agreement

/-- The verdict that the evidence of the signals calls for, beside a given account of them. -/
noncomputable def called (t : Thresholds ℝ) (p : Profile ℝ) (signals : List (Signal ℝ))
    (time : Instant) (account : List (Attribution ℝ)) : Verdict ℝ where
  instrument := none
  price := none
  score := if p.totalWeight signals = 0 then 0 else p.balance signals
  recommendation := if p.totalWeight signals = 0 then .hold else t.recommend (p.balance signals)
  confidence := if p.totalWeight signals = 0 then 0 else |p.balance signals| * p.unity signals
  agreement := if p.totalWeight signals = 0 then 0 else p.unity signals
  totalWeight := p.totalWeight signals
  insufficient := if p.totalWeight signals = 0 then true else false
  profile := p.name
  attribution := account
  evaluatedAt := time

/-- How each signal takes part, by falling size of its contribution. -/
noncomputable def account (p : Profile ℝ) (signals : List (Signal ℝ)) : List (Attribution ℝ) :=
  Attribution.rank (shared p (p.totalWeight signals) signals)

section Verdict

variable {t : Thresholds ℝ} {p : Profile ℝ} {signals signals' : List (Signal ℝ)} {time : Instant}

theorem account_perm (p : Profile ℝ) (signals : List (Signal ℝ)) :
    (account p signals).Perm (shared p (p.totalWeight signals) signals) :=
  List.mergeSort_perm _ _

theorem account_perm_account (h : signals'.Perm signals) :
    (account p signals').Perm (account p signals) := by
  refine (account_perm p signals').trans (List.Perm.trans ?_ (account_perm p signals).symm)
  rw [Profile.totalWeight_perm h]
  exact (h.map _).map _

theorem sum_contribution_account (p : Profile ℝ) (signals : List (Signal ℝ)) :
    ((account p signals).map Attribution.contribution).sum = p.balance signals := by
  rw [((account_perm p signals).map _).sum_eq, ← sum_real, sum_contribution, Profile.balance]

/-- Shares of a total of zero are zero. -/
theorem shared_zero (p : Profile ℝ) (signals : List (Signal ℝ)) :
    shared p 0 signals = signals.map (Attribution.weigh p) := by
  rw [shared, List.map_map]
  refine List.map_congr_left fun s _ => ?_
  simp [share, Attribution.weigh]

theorem called_congr (hbulls : p.evidence .bullish signals' = p.evidence .bullish signals)
    (hbears : p.evidence .bearish signals' = p.evidence .bearish signals)
    (htotal : p.totalWeight signals' = p.totalWeight signals) :
    called t p signals' time = called t p signals time := by
  unfold called Profile.balance Profile.unity
  rw [hbulls, hbears, htotal]

theorem conclude_weigh (hp : p.check = .ok ()) (hs : ∀ s ∈ signals, s.Sound) :
    conclude t p (signals.map (Attribution.weigh p)) time =
      called t p signals time (account p signals) := by
  unfold conclude
  rw [totalWeight_weigh]
  rcases (Profile.totalWeight_nonneg hp hs).eq_or_lt with hzero | hpos
  · rw [if_pos hzero.ge, withoutEvidence, called, account, ← hzero, shared_zero]
    simp
  · have hscore : clampSigned (sum ((shared p (p.totalWeight signals) signals).map
        Attribution.contribution)) = p.balance signals := by
      rw [sum_contribution]
      exact clampSigned_of_mem (Profile.balance_mem hp hs)
    have hconfidence : clampUnit (|p.balance signals| * p.unity signals) =
        |p.balance signals| * p.unity signals := by
      apply clampUnit_of_mem
      have hunity := Profile.unity_mem hp hs
      exact ⟨mul_nonneg (abs_nonneg _) hunity.1,
        mul_le_one₀ (abs_le.mpr (Profile.balance_mem hp hs)) hunity.1 hunity.2⟩
    have hentries : (signals.map (Attribution.weigh p)).map (share (p.totalWeight signals)) =
        shared p (p.totalWeight signals) signals := rfl
    rw [if_neg hpos.not_ge]
    simp only [weighted, hentries, hscore, agreement_shared hp hs hpos, abs_real, hconfidence,
      called, account, if_neg hpos.ne']

theorem fuse_of_sound_real (hp : p.check = .ok ()) (hs : ∀ s ∈ signals, s.Sound) :
    fuse t signals p time = .ok (called t p signals time (account p signals)) := by
  have hchecks : ∀ s ∈ signals, s.check = .ok () := fun s hmem => Signal.check_eq_ok_iff.mpr
    ⟨LawfulScalar.inUnit_iff.mpr (hs s hmem).magnitude,
      LawfulScalar.inUnit_iff.mpr (hs s hmem).reliability⟩
  rw [fuse_of_sound hchecks hp, isFinite_real, if_pos rfl, conclude_weigh hp hs]

theorem call_of_fuse {v : Verdict ℝ} (hp : p.check = .ok ()) (hs : ∀ s ∈ signals, s.Sound)
    (htotal : p.totalWeight signals ≠ 0) (h : fuse t signals p time = .ok v) :
    v.score = p.balance signals ∧ v.recommendation = t.recommend (p.balance signals) := by
  rw [Except.ok.inj (h.symm.trans (fuse_of_sound_real hp hs))]
  exact ⟨if_neg htotal, if_neg htotal⟩

/-- A fusion gives the verdict that the evidence calls for. The contributions in its account add up
to a score that needs no clipping, and the verdict stays the same, the account apart, for signals in
another order or with others beside them that weigh nothing. -/
theorem fuse_eq_called (t : Thresholds ℝ) (time : Instant) (hp : p.check = .ok ())
    (hs : ∀ s ∈ signals, s.Sound) :
    ∃ account, fuse t signals p time = .ok (called t p signals time account) ∧
      (account.map Attribution.contribution).sum = p.balance signals ∧
      p.balance signals ∈ Set.Icc (-1) 1 ∧
      (p.totalWeight signals = 0 ↔ ¬ ∃ s ∈ signals, s.reliability ≠ 0 ∧
        ∃ w, p.weights.weightFor s.indicator s.kind = some w ∧ 0 < w) ∧
      (∀ others : List (Signal ℝ), others.Perm signals →
        ∃ account', account'.Perm account ∧
          fuse t others p time = .ok (called t p signals time account')) ∧
      ∀ others : List (Signal ℝ), (∀ s ∈ others, s.Sound) →
        (others.filter fun s => p.weight s ≠ 0).Perm (signals.filter fun s => p.weight s ≠ 0) →
        ∃ account', fuse t others p time = .ok (called t p signals time account') := by
  refine ⟨account p signals, fuse_of_sound_real hp hs, sum_contribution_account p signals,
    Profile.balance_mem hp hs, ?_, ?_, ?_⟩
  · rw [Profile.totalWeight_eq_zero_iff hp hs, not_exists]
    refine forall_congr' fun s => ?_
    rw [not_and]
    exact forall_congr' fun hmem => not_congr (Profile.weight_pos_iff hp (hs s hmem))
  · intro others hperm
    have hothers : ∀ s ∈ others, s.Sound := fun s hmem => hs s (hperm.mem_iff.mp hmem)
    refine ⟨account p others, account_perm_account hperm, ?_⟩
    rw [fuse_of_sound_real hp hothers, called_congr (Profile.evidence_perm hperm)
      (Profile.evidence_perm hperm) (Profile.totalWeight_perm hperm)]
  · intro others hothers hperm
    have hevidence : ∀ d, p.evidence d others = p.evidence d signals := fun d => by
      rw [← Profile.evidence_filter, Profile.evidence_perm hperm, Profile.evidence_filter]
    have htotal : p.totalWeight others = p.totalWeight signals := by
      rw [← Profile.totalWeight_filter, Profile.totalWeight_perm hperm, Profile.totalWeight_filter]
    exact ⟨account p others, by
      rw [fuse_of_sound_real hp hothers, called_congr (hevidence _) (hevidence _) htotal]⟩

end Verdict

/-- Gives trends twice the weight of oscillators, and flows none. -/
noncomputable def trendwise : Profile ℝ := ⟨"trendwise", (KindWeights.alone ⟨1, 2, 1, 0⟩).weights⟩

/-- A rise at half strength, a fall on half the history, and two that weigh nothing. -/
noncomputable def mixed : List (Signal ℝ) :=
  [⟨"rsi_14", .oscillator, .bullish, 1 / 2, 1⟩, ⟨"macd_12_26_9", .trend, .bearish, 1, 1 / 2⟩,
    ⟨"obv_20", .volume, .bullish, 1, 1⟩, Signal.noData "bollinger_20_2" .volatility]

theorem check_trendwise : trendwise.check = .ok () := by
  rw [Profile.check_eq_ok_iff, Weights.check_eq_ok_iff]
  norm_num [trendwise, KindWeights.alone, KindWeights.toAssignment, KindWeights.get, Weights.named,
    Weights.kindEntries, Weights.total, Assignment.entries, Table.empty, Table.values, Kind.all,
    sum_real]

theorem weight_trendwise (s : Signal ℝ) :
    trendwise.weight s = KindWeights.get ⟨1, 2, 1, 0⟩ s.kind * s.reliability :=
  Profile.weight_eq trendwise s

theorem sound_mixed : ∀ s ∈ mixed, s.Sound := by
  simp only [mixed, Signal.noData, List.forall_mem_cons, List.not_mem_nil, false_implies,
    implies_true, and_true]
  refine ⟨⟨?_, ?_⟩, ⟨?_, ?_⟩, ⟨?_, ?_⟩, ⟨?_, ?_⟩⟩ <;> norm_num

theorem totalWeight_mixed : trendwise.totalWeight mixed = 2 := by
  norm_num [mixed, Signal.noData, weight_trendwise, KindWeights.get]

theorem bulls_mixed : trendwise.evidence .bullish mixed = 1 / 2 := by
  simp [mixed, Signal.noData, weight_trendwise, KindWeights.get]

theorem bears_mixed : trendwise.evidence .bearish mixed = 1 := by
  simp [mixed, Signal.noData, weight_trendwise, KindWeights.get]

theorem balance_mixed : trendwise.balance mixed = -1 / 4 := by
  norm_num [Profile.balance, bulls_mixed, bears_mixed, totalWeight_mixed]

theorem fuse_eq_called_mixed :
    trendwise.check = .ok () ∧ (∀ s ∈ mixed, s.Sound) ∧
      ∃ account, fuse .standard mixed trendwise .epoch =
        .ok (called .standard trendwise mixed .epoch account) ∧
      trendwise.totalWeight mixed = 2 ∧ trendwise.balance mixed = -1 / 4 ∧
      trendwise.unity mixed = 2 / 3 := by
  obtain ⟨account, hfuse, _⟩ := fuse_eq_called .standard .epoch check_trendwise sound_mixed
  refine ⟨check_trendwise, sound_mixed, account, hfuse, totalWeight_mixed, balance_mixed, ?_⟩
  norm_num [Profile.unity, bulls_mixed, bears_mixed]

end Fusion

end MarketVerdict
