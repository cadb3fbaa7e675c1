import Mathlib
import MarketVerdict.Proofs.Fusion.Silence
import MarketVerdict.Proofs.Reflection.Signals

/-!
# Bulls and bears

Signals that all turn around, under thresholds that are turned around with them, come to the
opposite verdict. The thresholds are read from the side of selling first, yet the edges of validated
ones leave no score to both sides, so that no score is read differently from the other side.
-/

namespace MarketVerdict

open Scalar

theorem Direction.sign_opposite (d : Direction) : (d.opposite.sign : ℝ) = -d.sign := by
  cases d <;> simp [opposite, sign]

theorem Direction.opposite_eq_iff {d d' : Direction} : d.opposite = d' ↔ d = d'.opposite := by
  cases d <;> cases d' <;> decide

/-! ### Thresholds -/

def Recommendation.opposite : Recommendation → Recommendation
  | strongSell => strongBuy
  | sell => buy
  | hold => hold
  | buy => sell
  | strongBuy => strongSell

namespace Thresholds

variable {t : Thresholds ℝ}

def mirror (t : Thresholds ℝ) : Thresholds ℝ := ⟨-t.strongBuy, -t.buy, -t.sell, -t.strongSell⟩

theorem inRange_neg (edge : ℝ) : inRange (-edge) = inRange edge := by
  rw [inRange, inRange, abs_real, abs_real, abs_neg]
  rfl

theorem check_mirror (h : t.check = .ok ()) : t.mirror.check = .ok () := by
  obtain ⟨hrange, ⟨hstrongSell, hsell⟩, hbuy, hstrongBuy⟩ := check_eq_ok_iff.mp h
  simp only [Bool.and_eq_true] at hrange
  obtain ⟨⟨⟨hrangeStrongSell, hrangeSell⟩, hrangeBuy⟩, hrangeStrongBuy⟩ := hrange
  rw [check_eq_ok_iff]
  simp only [mirror, inRange_neg, hrangeStrongSell, hrangeSell, hrangeBuy, hrangeStrongBuy]
  exact ⟨rfl, ⟨neg_le_neg hstrongBuy, neg_neg_of_pos hbuy⟩, neg_pos.mpr hsell,
    neg_le_neg hstrongSell⟩

/-- No score is beyond an edge on both sides, so either side may be looked at first. -/
theorem recommend_mirror (h : t.check = .ok ()) (score : ℝ) :
    t.mirror.recommend (-score) = (t.recommend score).opposite := by
  obtain ⟨_, ⟨hstrongSell, hsell⟩, hbuy, hstrongBuy⟩ := check_eq_ok_iff.mp h
  simp only [recommend, mirror, neg_le_neg_iff]
  -- Where the two readings part, the edges would have to be out of order.
  split_ifs <;> first | rfl | (exfalso; linarith)

end Thresholds

/-! ### Evidence -/

namespace Profile

variable (p : Profile ℝ) (signals : List (Signal ℝ))

theorem totalWeight_mirror :
    p.totalWeight (signals.map Signal.mirror) = p.totalWeight signals := by
  rw [totalWeight, List.map_map]
  rfl

theorem evidence_mirror (d : Direction) :
    p.evidence d (signals.map Signal.mirror) = p.evidence d.opposite signals := by
  rw [evidence_eq_sum, evidence_eq_sum, List.map_map]
  refine congrArg List.sum (List.map_congr_left fun s _ => ?_)
  simp only [Function.comp_apply, Signal.mirror, Direction.opposite_eq_iff]
  rfl

theorem balance_mirror : p.balance (signals.map Signal.mirror) = -p.balance signals := by
  rw [balance, evidence_mirror, evidence_mirror, totalWeight_mirror, balance, ← neg_div, neg_sub]
  rfl

theorem unity_mirror : p.unity (signals.map Signal.mirror) = p.unity signals := by
  simp only [unity, evidence_mirror, Direction.opposite]
  rw [max_comm, add_comm]
  simp only [eq_comm]

end Profile

/-! ### Accounts and verdicts -/

namespace Attribution

/-- The entry of the signal that points the other way. -/
def mirror (a : Attribution ℝ) : Attribution ℝ :=
  { a with signal := a.signal.mirror, contribution := -a.contribution }

theorem weigh_mirror (p : Profile ℝ) (s : Signal ℝ) : weigh p s.mirror = (weigh p s).mirror := by
  change ({ weigh p s with signal := s.mirror } : Attribution ℝ) =
    { weigh p s with signal := s.mirror, contribution := -0 }
  rw [neg_zero]
  rfl

theorem evidence_mirror (a : Attribution ℝ) : a.mirror.evidence = -a.evidence := by
  change (if a.isIncluded then a.signal.direction.opposite.sign * _ * _ else (0 : ℝ)) =
    -if a.isIncluded then a.signal.direction.sign * _ * _ else 0
  rw [Direction.sign_opposite, neg_mul, neg_mul]
  split
  · rfl
  · exact neg_zero.symm

theorem share_mirror (total : ℝ) (a : Attribution ℝ) :
    Fusion.share total a.mirror = (Fusion.share total a).mirror := by
  rw [Fusion.share, evidence_mirror, neg_div]
  rfl

end Attribution

noncomputable def Verdict.mirror (v : Verdict ℝ) : Verdict ℝ :=
  { v with
    score := -v.score
    recommendation := v.recommendation.opposite
    attribution := v.attribution.map Attribution.mirror }

namespace Fusion

theorem account_mirror (p : Profile ℝ) (signals : List (Signal ℝ)) :
    account p (signals.map Signal.mirror) = (account p signals).map Attribution.mirror := by
  have hshared : shared p (p.totalWeight signals) (signals.map Signal.mirror) =
      (shared p (p.totalWeight signals) signals).map Attribution.mirror := by
    simp only [shared, List.map_map]
    refine List.map_congr_left fun s _ => ?_
    simp only [Function.comp_apply, Attribution.weigh_mirror, Attribution.share_mirror]
  rw [account, p.totalWeight_mirror, hshared,
    Attribution.rank_map (f := Attribution.mirror) fun a => abs_neg a.contribution, account]

variable {t : Thresholds ℝ} {p : Profile ℝ} {signals : List (Signal ℝ)}

theorem called_mirror (ht : t.check = .ok ()) (p : Profile ℝ) (signals : List (Signal ℝ))
    (time : Instant) :
    called t.mirror p (signals.map Signal.mirror) time (account p (signals.map Signal.mirror)) =
      (called t p signals time (account p signals)).mirror := by
  have hrecommend := t.recommend_mirror ht (p.balance signals)
  by_cases hzero : p.totalWeight signals = 0
  · simp [called, Verdict.mirror, p.totalWeight_mirror, hzero, account_mirror,
      Recommendation.opposite]
  · simp only [called, Verdict.mirror, p.totalWeight_mirror, p.balance_mirror, p.unity_mirror,
      hzero, if_false, abs_neg, hrecommend, account_mirror]

/-- Bulls and bears that change places get the opposite verdict, with the same confidence and the
same account of what each signal weighs. -/
theorem fuse_mirror (ht : t.check = .ok ()) (hp : p.check = .ok ()) (hs : ∀ s ∈ signals, s.Sound)
    (time : Instant) :
    t.mirror.check = .ok () ∧ ∃ v, fuse t signals p time = .ok v ∧
      fuse t.mirror (signals.map Signal.mirror) p time = .ok v.mirror := by
  have hmirror : ∀ s ∈ signals.map Signal.mirror, s.Sound := by
    rw [List.forall_mem_map]
    exact fun s hmem => ⟨(hs s hmem).magnitude, (hs s hmem).reliability⟩
  refine ⟨Thresholds.check_mirror ht, _, fuse_of_sound_real hp hs, ?_⟩
  rw [fuse_of_sound_real hp hmirror, called_mirror ht]

/-- Ready to sell, and slow to buy. -/
noncomputable def wary : Thresholds ℝ := ⟨-1 / 2, -1 / 4, 3 / 4, 1⟩

theorem check_wary : wary.check = .ok () := by
  rw [Thresholds.check_eq_ok_iff]
  norm_num [wary, Thresholds.inRange, abs_real, abs_le, abs_of_pos]

/-- A fall on the edge of selling, and the rise on the edge of buying that it turns into. -/
theorem fuse_mirror_mixed :
    ∃ v, fuse wary mixed trendwise .epoch = .ok v ∧
      fuse wary.mirror (mixed.map Signal.mirror) trendwise .epoch = .ok v.mirror ∧
      v.score = -1 / 4 ∧ v.recommendation = .sell ∧ v.mirror.recommendation = .buy := by
  obtain ⟨_, v, hv, hmirror⟩ := fuse_mirror check_wary check_trendwise sound_mixed .epoch
  obtain ⟨hscore, hcall⟩ :=
    call_of_fuse check_trendwise sound_mixed (by norm_num [totalWeight_mixed]) hv
  have hsell : v.recommendation = .sell := by
    rw [hcall, balance_mixed]
    norm_num [Thresholds.recommend, wary]
  refine ⟨v, hv, hmirror, hscore.trans balance_mixed, hsell, ?_⟩
  rw [Verdict.mirror, hsell]
  rfl

end Fusion

end MarketVerdict
