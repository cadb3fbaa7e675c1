import Mathlib
import MarketVerdict.Proofs.Fusion.Reference

/-!
# Recommendation, confidence and unanimity

A recommendation to buy or to sell never goes against the evidence. The confidence lies above half
the size of the score and reaches all of it when nothing speaks the other way; it is full exactly
when all that weighs anything speaks one way at full magnitude.
-/

namespace MarketVerdict

open Scalar

namespace Profile

variable {p : Profile ℝ} {signals : List (Signal ℝ)}

/-- The prevailing way has more than half of the evidence. -/
theorem unity_gt_half (hp : p.check = .ok ()) (hs : ∀ s ∈ signals, s.Sound)
    (h : p.evidence .bullish signals ≠ p.evidence .bearish signals) : 1 / 2 < p.unity signals := by
  have hbulls := evidence_nonneg (d := .bullish) hp hs
  have hbears := evidence_nonneg (d := .bearish) hp hs
  rcases h.lt_or_gt with hlt | hgt
  · rw [unity_of_lt hlt, div_lt_div_iff₀ two_pos (by linarith)]
    linarith
  · rw [unity_of_gt hgt, div_lt_div_iff₀ two_pos (by linarith)]
    linarith

/-- Signals that all speak one way at full magnitude, as far as they weigh anything. -/
def Unanimous (p : Profile ℝ) (signals : List (Signal ℝ)) : Prop :=
  ∃ d, d ≠ Direction.neutral ∧
    ∀ s ∈ signals, 0 < p.weight s → s.magnitude = 1 ∧ s.direction = d

theorem unanimous_iff (hp : p.check = .ok ()) (hs : ∀ s ∈ signals, s.Sound) :
    p.Unanimous signals ↔ p.evidence .bullish signals = p.totalWeight signals ∨
      p.evidence .bearish signals = p.totalWeight signals := by
  rw [evidence_eq_totalWeight_iff hp hs, evidence_eq_totalWeight_iff hp hs]
  constructor
  · rintro ⟨d, hd, h⟩
    cases d with
    | neutral => exact absurd rfl hd
    | bullish => exact Or.inl h
    | bearish => exact Or.inr h
  · rintro (h | h)
    · exact ⟨.bullish, nofun, h⟩
    · exact ⟨.bearish, nofun, h⟩

/-- The balance is full exactly when one way takes up all of the weight. -/
theorem abs_balance_eq_one_iff (hp : p.check = .ok ()) (hs : ∀ s ∈ signals, s.Sound)
    (hpos : 0 < p.totalWeight signals) : |p.balance signals| = 1 ↔ p.Unanimous signals := by
  have hbulls := evidence_nonneg (d := .bullish) hp hs
  have hbears := evidence_nonneg (d := .bearish) hp hs
  have hboth := evidence_add_evidence_le hp hs
  rw [unanimous_iff hp hs, balance, abs_div, abs_of_pos hpos, div_eq_one_iff_eq hpos.ne']
  constructor
  · intro h
    rcases abs_eq hpos.le |>.mp h with h | h
    · exact Or.inl (by linarith)
    · exact Or.inr (by linarith)
  · rintro (h | h)
    · rw [abs_of_nonneg (by linarith)]
      linarith
    · rw [abs_of_nonpos (by linarith)]
      linarith

theorem unity_eq_one_of_unanimous (hp : p.check = .ok ()) (hs : ∀ s ∈ signals, s.Sound)
    (hpos : 0 < p.totalWeight signals) (h : p.Unanimous signals) : p.unity signals = 1 := by
  have hbulls := evidence_nonneg (d := .bullish) hp hs
  have hbears := evidence_nonneg (d := .bearish) hp hs
  have hboth := evidence_add_evidence_le hp hs
  rcases (unanimous_iff hp hs).mp h with hall | hall
  · rw [unity_of_gt (by linarith), div_eq_one_iff_eq (by linarith)]
    linarith
  · rw [unity_of_lt (by linarith), div_eq_one_iff_eq (by linarith)]
    linarith

/-- Balance and unity are both full or their product is not. -/
theorem confidence_eq_one_iff (hp : p.check = .ok ()) (hs : ∀ s ∈ signals, s.Sound)
    (hpos : 0 < p.totalWeight signals) :
    |p.balance signals| * p.unity signals = 1 ↔ p.Unanimous signals := by
  have hbalance : |p.balance signals| ≤ 1 := abs_le.mpr (balance_mem hp hs)
  have hunity := unity_mem hp hs
  constructor
  · intro h
    rw [← abs_balance_eq_one_iff hp hs hpos]
    have hle : |p.balance signals| * p.unity signals ≤ |p.balance signals| :=
      mul_le_of_le_one_right (abs_nonneg _) hunity.2
    exact le_antisymm hbalance (h ▸ hle)
  · intro h
    rw [(abs_balance_eq_one_iff hp hs hpos).mpr h, unity_eq_one_of_unanimous hp hs hpos h, one_mul]

end Profile

namespace Thresholds

theorem recommend_zero {t : Thresholds ℝ} (h : t.check = .ok ()) : t.recommend 0 = .hold := by
  obtain ⟨_, ⟨hstrong, hsell⟩, hbuy, hstrong'⟩ := check_eq_ok_iff.mp h
  rw [recommend, if_neg (by linarith), if_neg (by linarith), if_neg (by linarith),
    if_neg (by linarith)]

end Thresholds

namespace Fusion

variable {t : Thresholds ℝ} {p : Profile ℝ} {signals : List (Signal ℝ)} {time : Instant}

/-- How a verdict stands to the evidence that it was reached on. -/
structure Heeds (p : Profile ℝ) (signals : List (Signal ℝ)) (v : Verdict ℝ) : Prop where
  buys : v.recommendation = .buy ∨ v.recommendation = .strongBuy →
    p.evidence .bearish signals < p.evidence .bullish signals
  sells : v.recommendation = .sell ∨ v.recommendation = .strongSell →
    p.evidence .bullish signals < p.evidence .bearish signals
  holds : p.evidence .bullish signals = p.evidence .bearish signals → v.recommendation = .hold
  agreement : v.score ≠ 0 → v.agreement ∈ Set.Ioc (1 / 2) 1
  confidence : v.score ≠ 0 → v.confidence ∈ Set.Ioc (|v.score| / 2) |v.score|
  unsure : v.confidence = 0 ↔ v.score = 0
  certain : v.confidence = 1 ↔ (∃ s ∈ signals, 0 < p.weight s) ∧ p.Unanimous signals

theorem heeds_of_weightless {v : Verdict ℝ} (hp : p.check = .ok ()) (hs : ∀ s ∈ signals, s.Sound)
    (hzero : p.totalWeight signals = 0) (hscore : v.score = 0) (hconfidence : v.confidence = 0)
    (hhold : v.recommendation = .hold) : Heeds p signals v where
  buys := by simp [hhold]
  sells := by simp [hhold]
  holds := fun _ => hhold
  agreement := fun h => absurd hscore h
  confidence := fun h => absurd hscore h
  unsure := iff_of_true hconfidence hscore
  certain := by
    have hnone := (Profile.totalWeight_eq_zero_iff hp hs).mp hzero
    refine iff_of_false (by simp [hconfidence]) ?_
    rintro ⟨⟨s, hmem, hpos⟩, _⟩
    exact hnone s hmem hpos

theorem heeds_of_weighted {v : Verdict ℝ} (ht : t.check = .ok ()) (hp : p.check = .ok ())
    (hs : ∀ s ∈ signals, s.Sound) (hpos : 0 < p.totalWeight signals)
    (hscore : v.score = p.balance signals) (hagreement : v.agreement = p.unity signals)
    (hconfidence : v.confidence = |p.balance signals| * p.unity signals)
    (hrecommendation : v.recommendation = t.recommend (p.balance signals)) :
    Heeds p signals v := by
  obtain ⟨_, ⟨_, hsell⟩, hbuy, _⟩ := Thresholds.check_eq_ok_iff.mp ht
  have hunity := Profile.unity_mem hp hs
  have hhalf : p.balance signals ≠ 0 → 1 / 2 < p.unity signals := fun h =>
    Profile.unity_gt_half hp hs (mt (Profile.balance_eq_zero_iff hpos).mpr h)
  refine ⟨?_, ?_, ?_, ?_, ?_, ?_, ?_⟩
  · intro h
    rw [hrecommendation] at h
    exact (Profile.balance_pos_iff hpos).mp (hbuy.trans_le (Thresholds.buy_le_of_recommend ht h))
  · intro h
    rw [hrecommendation] at h
    exact (Profile.balance_neg_iff hpos).mp
      ((Thresholds.le_sell_of_recommend ht h).trans_lt hsell)
  · intro h
    rw [hrecommendation, (Profile.balance_eq_zero_iff hpos).mpr h]
    exact Thresholds.recommend_zero ht
  · intro h
    rw [hscore] at h
    rw [hagreement]
    exact ⟨hhalf h, hunity.2⟩
  · intro h
    rw [hscore] at h ⊢
    rw [hconfidence]
    have hsize : 0 < |p.balance signals| := abs_pos.mpr h
    refine ⟨?_, mul_le_of_le_one_right hsize.le hunity.2⟩
    calc |p.balance signals| / 2 = |p.balance signals| * (1 / 2) := by ring
      _ < |p.balance signals| * p.unity signals := mul_lt_mul_of_pos_left (hhalf h) hsize
  · rw [hconfidence, hscore]
    constructor
    · intro h
      by_contra hne
      have := hhalf hne
      rcases mul_eq_zero.mp h with h | h
      · exact hne (abs_eq_zero.mp h)
      · linarith
    · intro h
      rw [h, abs_zero, zero_mul]
  · have hsome : ∃ s ∈ signals, 0 < p.weight s := by
      by_contra hnone
      push Not at hnone
      exact hpos.ne' ((Profile.totalWeight_eq_zero_iff hp hs).mpr fun s hmem =>
        (hnone s hmem).not_gt)
    rw [hconfidence, Profile.confidence_eq_one_iff hp hs hpos, and_iff_right hsome]

/-- Every verdict on sound signals heeds their evidence. -/
theorem fuse_heeds_evidence (ht : t.check = .ok ()) (time : Instant) (hp : p.check = .ok ())
    (hs : ∀ s ∈ signals, s.Sound) :
    ∃ v, fuse t signals p time = .ok v ∧ Heeds p signals v := by
  refine ⟨_, fuse_of_sound_real hp hs, ?_⟩
  rcases (Profile.totalWeight_nonneg hp hs).eq_or_lt with hzero | hpos
  · refine heeds_of_weightless hp hs hzero.symm ?_ ?_ ?_ <;> exact if_pos hzero.symm
  · refine heeds_of_weighted ht hp hs hpos ?_ ?_ ?_ ?_ <;> exact if_neg hpos.ne'

theorem check_standard_thresholds : (Thresholds.standard : Thresholds ℝ).check = .ok () := by
  rw [Thresholds.check_eq_ok_iff]
  norm_num [Thresholds.standard, Thresholds.inRange, abs_real, abs_le]

/-- Two signals at full magnitude, one of them on a quarter of its history. -/
noncomputable def accordant : List (Signal ℝ) :=
  [⟨"rsi_14", .oscillator, .bullish, 1, 1 / 4⟩, ⟨"macd_12_26_9", .trend, .bullish, 1, 1⟩,
    ⟨"obv_20", .volume, .bearish, 1, 1⟩]

theorem fuse_heeds_evidence_accordant :
    (Thresholds.standard : Thresholds ℝ).check = .ok () ∧ trendwise.check = .ok () ∧
      (∀ s ∈ accordant, s.Sound) ∧
      ∃ v, fuse .standard accordant trendwise .epoch = .ok v ∧ v.confidence = 1 := by
  have hsound : ∀ s ∈ accordant, s.Sound := by
    simp only [accordant, List.forall_mem_cons, List.not_mem_nil, false_implies, implies_true,
      and_true]
    refine ⟨⟨?_, ?_⟩, ⟨?_, ?_⟩, ⟨?_, ?_⟩⟩ <;> norm_num
  obtain ⟨v, hfuse, hv⟩ :=
    fuse_heeds_evidence check_standard_thresholds .epoch check_trendwise hsound
  refine ⟨check_standard_thresholds, check_trendwise, hsound, v, hfuse, hv.certain.mpr ⟨?_, ?_⟩⟩
  · exact ⟨_, List.mem_cons_self, by norm_num [weight_trendwise, KindWeights.get]⟩
  · refine ⟨.bullish, by decide, ?_⟩
    simp [accordant, weight_trendwise, KindWeights.get]

end Fusion

end MarketVerdict
