import Mathlib
import MarketVerdict.Proofs.Fusion.Silence

/-!
# Weights in proportion

Weights count by their proportions alone. A profile whose weights are all multiplied by one positive
factor is as sound as before and says the same of every list of signals: the factor cancels out of
each share of the score, of the agreement and of the sizes by which entries are ranked. What carries
it are the weights themselves, which an account shows as they are.
-/

namespace MarketVerdict

open Scalar

variable {k : ℝ}

/-! ### Profiles -/

namespace Weights

def scale (k : ℝ) (w : Weights ℝ) : Weights ℝ :=
  ⟨w.indicators.map (k * ·), fun c => (w.kinds c).map (k * ·)⟩

theorem weightFor_scale (k : ℝ) (w : Weights ℝ) (i : String) (c : Kind) :
    (w.scale k).weightFor i c = (w.weightFor i c).map (k * ·) := by
  rw [weightFor, scale, Table.get?_map, weightFor, Option.map_or]

theorem kindEntries_scale (k : ℝ) (w : Weights ℝ) :
    (w.scale k).kindEntries = w.kindEntries.map fun e => (e.1, k * e.2) :=
  Assignment.entries_map (k * ·) w.kinds Kind.all

theorem named_scale (k : ℝ) (w : Weights ℝ) :
    (w.scale k).named = w.named.map fun e => (e.1, k * e.2) := by
  rw [named, kindEntries_scale, named, List.map_append, List.map_map, List.map_map]
  rfl

theorem sum_scale {κ : Type} (k : ℝ) (es : List (κ × ℝ)) :
    sum ((es.map fun e => (e.1, k * e.2)).map (·.2)) = k * sum (es.map (·.2)) := by
  rw [sum_real, sum_real, List.map_map, ← List.sum_map_mul_left]
  rfl

theorem total_scale (k : ℝ) (w : Weights ℝ) : (w.scale k).total = k * w.total := by
  have hindicators : sum (w.scale k).indicators.values = k * sum w.indicators.values :=
    sum_scale k w.indicators.entries
  rw [total, hindicators, kindEntries_scale, sum_scale, ← mul_add, total]

theorem check_scale (hk : 0 < k) {w : Weights ℝ} (hw : w.check = .ok ()) :
    (w.scale k).check = .ok () := by
  obtain ⟨hnamed, _, htotal⟩ := check_eq_ok_iff.mp hw
  rw [check_eq_ok_iff, named_scale, total_scale, List.forall_mem_map]
  refine ⟨fun e he => ⟨rfl, ?_⟩, rfl, ?_⟩
  · exact (mul_nonneg hk.le (not_lt.mp (hnamed e he).2)).not_gt
  · exact (mul_pos hk (not_le.mp htotal)).not_ge

end Weights

namespace Profile

variable {p p' : Profile ℝ} {signals : List (Signal ℝ)}

/-- The weights of the second profile are those of the first times `k`, entry by entry. -/
structure Proportional (k : ℝ) (p p' : Profile ℝ) : Prop where
  indicator : ∀ i, p'.weights.indicators.get? i = (p.weights.indicators.get? i).map (k * ·)
  kind : ∀ c, p'.weights.kinds c = (p.weights.kinds c).map (k * ·)

namespace Proportional

theorem weights_eq (h : p.Proportional k p') : p'.weights = p.weights.scale k := by
  have hindicators : p'.weights.indicators = p.weights.indicators.map (k * ·) :=
    Table.ext_get? fun i => (h.indicator i).trans (Table.get?_map _ _ i).symm
  calc
    p'.weights = ⟨p'.weights.indicators, p'.weights.kinds⟩ := rfl
    _ = p.weights.scale k := by rw [hindicators, funext h.kind, Weights.scale]

theorem check (h : p.Proportional k p') (hk : 0 < k) (hp : p.check = .ok ()) :
    p'.check = .ok () := by
  rw [check_eq_ok_iff] at hp ⊢
  rw [h.weights_eq]
  exact Weights.check_scale hk hp

theorem weightFor (h : p.Proportional k p') (i : String) (c : Kind) :
    p'.weights.weightFor i c = (p.weights.weightFor i c).map (k * ·) := by
  rw [h.weights_eq, Weights.weightFor_scale]

theorem weight (h : p.Proportional k p') (s : Signal ℝ) : p'.weight s = k * p.weight s := by
  rw [weight_eq, weight_eq, h.weightFor, ← mul_assoc]
  cases p.weights.weightFor s.indicator s.kind with
  | none => rw [Option.map_none, Option.getD_none, mul_zero]
  | some w => rfl

theorem totalWeight (h : p.Proportional k p') (signals : List (Signal ℝ)) :
    p'.totalWeight signals = k * p.totalWeight signals := by
  rw [Profile.totalWeight, funext h.weight, List.sum_map_mul_left, Profile.totalWeight]

theorem evidence (h : p.Proportional k p') (d : Direction) (signals : List (Signal ℝ)) :
    p'.evidence d signals = k * p.evidence d signals := by
  rw [Profile.evidence, Profile.evidence, ← List.sum_map_mul_left]
  simp only [h.weight, mul_left_comm]

theorem balance (h : p.Proportional k p') (hk : 0 < k) (signals : List (Signal ℝ)) :
    p'.balance signals = p.balance signals := by
  rw [Profile.balance, h.evidence, h.evidence, h.totalWeight, ← mul_sub,
    mul_div_mul_left _ _ hk.ne', Profile.balance]

theorem unity (h : p.Proportional k p') (hk : 0 < k) (signals : List (Signal ℝ)) :
    p'.unity signals = p.unity signals := by
  rw [Profile.unity, h.evidence, h.evidence, ← mul_add, ← mul_max_of_nonneg _ _ hk.le,
    mul_div_mul_left _ _ hk.ne', Profile.unity]
  simp only [mul_right_inj' hk.ne']

end Proportional

end Profile

/-! ### Accounts -/

/-- The entry under weights that are `k` times as large. -/
def Attribution.scale (k : ℝ) (a : Attribution ℝ) : Attribution ℝ :=
  { a with baseWeight := a.baseWeight.map (k * ·), effectiveWeight := k * a.effectiveWeight }

namespace Fusion

variable {p p' : Profile ℝ}

theorem weigh_scale (h : p.Proportional k p') (s : Signal ℝ) :
    Attribution.weigh p' s = (Attribution.weigh p s).scale k := by
  have heffective : (Attribution.weigh p' s).effectiveWeight =
      k * (Attribution.weigh p s).effectiveWeight := by
    rw [Attribution.effectiveWeight_weigh, Attribution.effectiveWeight_weigh, h.weight]
  have hstatus : (Attribution.weigh p' s).status = (Attribution.weigh p s).status := by
    simp only [Attribution.weigh, Attribution.statusOf, h.weightFor, Option.isNone_map]
  calc
    Attribution.weigh p' s =
        ⟨s, (Attribution.weigh p' s).status, p'.weights.weightFor s.indicator s.kind,
          (Attribution.weigh p' s).effectiveWeight, 0⟩ := rfl
    _ = (Attribution.weigh p s).scale k := by
      rw [hstatus, heffective, h.weightFor]
      rfl

theorem share_scale (hk : 0 < k) (total : ℝ) (a : Attribution ℝ) :
    share (k * total) (a.scale k) = (share total a).scale k := by
  have hevidence : (a.scale k).evidence = k * a.evidence := by
    change (if a.isIncluded then _ else _) = k * if a.isIncluded then _ else _
    rw [mul_ite, mul_zero, mul_left_comm]
    rfl
  rw [share, hevidence, mul_div_mul_left _ _ hk.ne']
  rfl

theorem account_scale (h : p.Proportional k p') (hk : 0 < k) (signals : List (Signal ℝ)) :
    account p' signals = (account p signals).map (Attribution.scale k) := by
  have hshared : shared p' (p'.totalWeight signals) signals =
      (shared p (p.totalWeight signals) signals).map (Attribution.scale k) := by
    rw [shared, shared, h.totalWeight, List.map_map, List.map_map, List.map_map]
    refine List.map_congr_left fun s _ => ?_
    simp only [Function.comp_apply, weigh_scale h, share_scale hk]
  rw [account, hshared, Attribution.rank_map (f := Attribution.scale k) fun _ => rfl, account]

variable {signals : List (Signal ℝ)}

/-- A profile in proportion to another comes to the same verdict. The account has the same entries
in the same order, with all weights multiplied by the factor. -/
theorem fuse_proportional (hk : 0 < k) (h : p.Proportional k p') (hp : p.check = .ok ())
    (hs : ∀ s ∈ signals, s.Sound) (t : Thresholds ℝ) (time : Instant) :
    p'.check = .ok () ∧ ∃ v, fuse t signals p time = .ok v ∧
      fuse t signals p' time = .ok { v with
        profile := p'.name
        totalWeight := k * v.totalWeight
        attribution := v.attribution.map (Attribution.scale k) } := by
  refine ⟨h.check hk hp, called t p signals time (account p signals), fuse_of_sound_real hp hs, ?_⟩
  rw [fuse_of_sound_real (h.check hk hp) hs, account_scale h hk]
  simp only [called, h.totalWeight, h.balance hk, h.unity hk, mul_eq_zero, hk.ne', false_or]

/-- Weighs one evaluation by itself and trends by their kind, by `unit` and twice as much. -/
noncomputable def focused (name : String) (unit : ℝ) : Profile ℝ :=
  ⟨name, Table.empty.insert "rsi_14" unit, Assignment.none.set .trend (2 * unit)⟩

theorem check_focused (name : String) : (focused name 1).check = .ok () := by
  have hnamed : (focused name 1).weights.named = [("rsi_14", 1), ("trend", 2 * 1)] := rfl
  have htotal : (focused name 1).weights.total = sum [1] + sum [2 * 1] := rfl
  rw [Profile.check_eq_ok_iff, Weights.check_eq_ok_iff, hnamed, htotal]
  norm_num [sum_real]

theorem proportional_focused (name name' : String) (k : ℝ) :
    (focused name 1).Proportional k (focused name' k) where
  indicator := by
    intro i
    simp only [focused, Table.get?_insert, Table.get?_empty]
    split <;> simp
  kind := by
    intro c
    simp only [focused, Assignment.set, Assignment.none]
    split
    · rw [Option.map_some, mul_one, mul_comm]
    · rfl

theorem weight_focused (name : String) (s : Signal ℝ) :
    (focused name 1).weight s = (((if "rsi_14" = s.indicator then some 1 else none).or
      (if s.kind = .trend then some 2 else none)).getD 0) * s.reliability := by
  rw [Profile.weight_eq, Weights.weightFor, focused, Table.get?_insert, Table.get?_empty, mul_one]
  rfl

/-- One evaluation weighed by itself, one by its kind, one not at all and one without data. -/
theorem fuse_proportional_tripled :
    ∃ v, fuse .standard mixed (focused "plain" 1) .epoch = .ok v ∧
      v.totalWeight = 2 ∧ v.score = -1 / 4 ∧
      fuse .standard mixed (focused "tripled" 3) .epoch = .ok { v with
        profile := "tripled"
        totalWeight := 3 * v.totalWeight
        attribution := v.attribution.map (Attribution.scale 3) } := by
  obtain ⟨_, v, hv, htripled⟩ := fuse_proportional three_pos
    (proportional_focused "plain" "tripled" 3) (check_focused "plain") sound_mixed .standard .epoch
  have hcalled := Except.ok.inj
    (hv.symm.trans (fuse_of_sound_real (check_focused "plain") sound_mixed))
  have htotal : (focused "plain" 1).totalWeight mixed = 2 := by
    simp only [mixed, Signal.noData, Profile.totalWeight_cons, Profile.totalWeight_nil,
      weight_focused, reduceCtorEq, String.reduceEq, if_true, if_false]
    norm_num
  have hbalance : (focused "plain" 1).balance mixed = -1 / 4 := by
    rw [Profile.balance, htotal]
    simp only [mixed, Signal.noData, Profile.evidence_cons, Profile.evidence_nil, weight_focused,
      reduceCtorEq, String.reduceEq, if_true, if_false]
    norm_num
  refine ⟨v, hv, ?_, ?_, htripled⟩
  · rw [hcalled]
    exact htotal
  · rw [hcalled]
    simp [called, htotal, hbalance]

end Fusion

end MarketVerdict
