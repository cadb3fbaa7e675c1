import Mathlib
import MarketVerdict.Attribution
import MarketVerdict.Proofs.Arithmetic.Real
import MarketVerdict.Proofs.Profile.Weights

/-!
# Weighted evidence

What signals say under a profile: the weight with which each takes part, the total of these
weights, and the weighted magnitudes that speak each way. Under a sound profile both ways together
come to no more than the total weight, and one way takes up all of it exactly when every signal of
positive weight speaks that way at full magnitude.
-/

namespace MarketVerdict

open Scalar

/-- Magnitude and reliability lie between zero and one. -/
structure Signal.Sound (s : Signal ℝ) : Prop where
  magnitude : s.magnitude ∈ Set.Icc 0 1
  reliability : s.reliability ∈ Set.Icc 0 1

namespace Profile

variable {p : Profile ℝ}

/-- The weight of the evaluation itself, else the weight of its kind, times the reliability; none
without data and none where the profile has no weight. -/
noncomputable def weight (p : Profile ℝ) (s : Signal ℝ) : ℝ :=
  if s.reliability = 0 then 0
  else
    match p.weights.indicators.get? s.indicator, p.weights.kinds s.kind with
    | some w, _ => w * s.reliability
    | none, some w => w * s.reliability
    | none, none => 0

noncomputable def totalWeight (p : Profile ℝ) (signals : List (Signal ℝ)) : ℝ :=
  (signals.map p.weight).sum

/-- The weighted magnitudes of the signals that speak one way. -/
noncomputable def evidence (p : Profile ℝ) (d : Direction) (signals : List (Signal ℝ)) : ℝ :=
  ((signals.filter fun s => s.direction = d).map fun s => s.magnitude * p.weight s).sum

/-- By how much the evidence for a rise prevails, as a share of the total weight. -/
noncomputable def balance (p : Profile ℝ) (signals : List (Signal ℝ)) : ℝ :=
  (p.evidence .bullish signals - p.evidence .bearish signals) / p.totalWeight signals

/-- The share that the prevailing way has in all evidence; none where neither prevails. -/
noncomputable def unity (p : Profile ℝ) (signals : List (Signal ℝ)) : ℝ :=
  if p.evidence .bullish signals = p.evidence .bearish signals then 0
  else max (p.evidence .bullish signals) (p.evidence .bearish signals) /
    (p.evidence .bullish signals + p.evidence .bearish signals)

theorem weight_eq (p : Profile ℝ) (s : Signal ℝ) :
    p.weight s = (p.weights.weightFor s.indicator s.kind).getD 0 * s.reliability := by
  unfold weight Weights.weightFor
  by_cases hr : s.reliability = 0
  · rw [if_pos hr, hr, mul_zero]
  · rw [if_neg hr]
    cases p.weights.indicators.get? s.indicator <;> cases p.weights.kinds s.kind <;> simp

theorem weight_nonneg (hp : p.check = .ok ()) {s : Signal ℝ} (hs : s.Sound) : 0 ≤ p.weight s := by
  rw [weight_eq]
  refine mul_nonneg ?_ hs.reliability.1
  cases h : p.weights.weightFor s.indicator s.kind with
  | none => exact le_rfl
  | some w => exact not_lt.mp (Weights.not_neg_of_weightFor (Profile.check_eq_ok_iff.mp hp) h)

theorem weight_pos_iff (hp : p.check = .ok ()) {s : Signal ℝ} (hs : s.Sound) :
    0 < p.weight s ↔
      s.reliability ≠ 0 ∧ ∃ w, p.weights.weightFor s.indicator s.kind = some w ∧ 0 < w := by
  rw [weight_eq]
  cases h : p.weights.weightFor s.indicator s.kind with
  | none => simp
  | some w =>
    have hw : 0 ≤ w := not_lt.mp (Weights.not_neg_of_weightFor (Profile.check_eq_ok_iff.mp hp) h)
    simp only [Option.getD_some, Option.some.injEq, exists_eq_left']
    constructor
    · intro hpos
      have hne := mul_ne_zero_iff.mp hpos.ne'
      exact ⟨hne.2, hw.lt_of_ne' hne.1⟩
    · exact fun h => mul_pos h.2 (hs.reliability.1.lt_of_ne' h.1)

section Sums

variable {signals signals' : List (Signal ℝ)} {d : Direction}

theorem evidence_eq_sum (p : Profile ℝ) (d : Direction) (signals : List (Signal ℝ)) :
    p.evidence d signals =
      (signals.map fun s => if s.direction = d then s.magnitude * p.weight s else 0).sum := by
  rw [evidence, sum_map_filter]
  simp only [decide_eq_true_eq]

@[simp] theorem totalWeight_nil (p : Profile ℝ) : p.totalWeight [] = 0 := rfl

@[simp] theorem evidence_nil (p : Profile ℝ) (d : Direction) : p.evidence d [] = 0 := rfl

@[simp] theorem totalWeight_cons (p : Profile ℝ) (s : Signal ℝ) (signals : List (Signal ℝ)) :
    p.totalWeight (s :: signals) = p.weight s + p.totalWeight signals := rfl

@[simp] theorem evidence_cons (p : Profile ℝ) (d : Direction) (s : Signal ℝ)
    (signals : List (Signal ℝ)) :
    p.evidence d (s :: signals) =
      (if s.direction = d then s.magnitude * p.weight s else 0) + p.evidence d signals := by
  simp only [evidence_eq_sum, List.map_cons, List.sum_cons]

theorem totalWeight_perm (h : signals'.Perm signals) :
    p.totalWeight signals' = p.totalWeight signals := (h.map p.weight).sum_eq

theorem evidence_perm (h : signals'.Perm signals) :
    p.evidence d signals' = p.evidence d signals := ((h.filter _).map _).sum_eq

/-- Signals of weight zero add nothing to the total weight. -/
theorem totalWeight_filter (p : Profile ℝ) (signals : List (Signal ℝ)) :
    p.totalWeight (signals.filter fun s => p.weight s ≠ 0) = p.totalWeight signals := by
  induction signals with
  | nil => rfl
  | cons s signals ih => by_cases h : p.weight s = 0 <;> simp [h] at ih ⊢ <;> exact ih

theorem evidence_filter (p : Profile ℝ) (d : Direction) (signals : List (Signal ℝ)) :
    p.evidence d (signals.filter fun s => p.weight s ≠ 0) = p.evidence d signals := by
  induction signals with
  | nil => rfl
  | cons s signals ih => by_cases h : p.weight s = 0 <;> simp [h] at ih ⊢ <;> exact ih

theorem evidence_nonneg (hp : p.check = .ok ()) (hs : ∀ s ∈ signals, s.Sound) :
    0 ≤ p.evidence d signals := by
  refine List.sum_nonneg fun x hx => ?_
  obtain ⟨s, hmem, rfl⟩ := List.mem_map.mp hx
  have hsound := hs s (List.mem_of_mem_filter hmem)
  exact mul_nonneg hsound.magnitude.1 (weight_nonneg hp hsound)

theorem totalWeight_nonneg (hp : p.check = .ok ()) (hs : ∀ s ∈ signals, s.Sound) :
    0 ≤ p.totalWeight signals := by
  refine List.sum_nonneg fun x hx => ?_
  obtain ⟨s, hmem, rfl⟩ := List.mem_map.mp hx
  exact weight_nonneg hp (hs s hmem)

/-- What speaks either way comes to no more than the total weight. -/
theorem evidence_add_evidence_le (hp : p.check = .ok ()) (hs : ∀ s ∈ signals, s.Sound) :
    p.evidence .bullish signals + p.evidence .bearish signals ≤ p.totalWeight signals := by
  induction signals with
  | nil => simp
  | cons s signals ih =>
    obtain ⟨hsound, hrest⟩ := List.forall_mem_cons.mp hs
    have hweight := weight_nonneg hp hsound
    have hpart : s.magnitude * p.weight s ≤ p.weight s :=
      mul_le_of_le_one_left hweight hsound.magnitude.2
    have := ih hrest
    cases hd : s.direction <;> simp [hd] <;> linarith

theorem totalWeight_eq_zero_iff (hp : p.check = .ok ()) (hs : ∀ s ∈ signals, s.Sound) :
    p.totalWeight signals = 0 ↔ ∀ s ∈ signals, ¬ 0 < p.weight s := by
  induction signals with
  | nil => simp
  | cons s signals ih =>
    obtain ⟨hsound, hrest⟩ := List.forall_mem_cons.mp hs
    have hweight := weight_nonneg hp hsound
    rw [totalWeight_cons, add_eq_zero_iff_of_nonneg hweight (totalWeight_nonneg hp hrest),
      List.forall_mem_cons, ih hrest]
    exact and_congr_left fun _ => ⟨fun h => h.not_gt, fun h => le_antisymm (not_lt.mp h) hweight⟩

/-- What a signal says one way is at most its weight. -/
theorem part_le_weight (hp : p.check = .ok ()) {s : Signal ℝ} (hs : s.Sound) (d : Direction) :
    (if s.direction = d then s.magnitude * p.weight s else 0) ≤ p.weight s := by
  split
  · exact mul_le_of_le_one_left (weight_nonneg hp hs) hs.magnitude.2
  · exact weight_nonneg hp hs

theorem evidence_le_totalWeight (hp : p.check = .ok ()) (hs : ∀ s ∈ signals, s.Sound) :
    p.evidence d signals ≤ p.totalWeight signals := by
  rw [evidence_eq_sum]
  exact List.sum_le_sum fun s hmem => part_le_weight hp (hs s hmem) d

/-- One way takes up all of the weight exactly when all that weighs anything speaks that way at full
magnitude. -/
theorem evidence_eq_totalWeight_iff (hp : p.check = .ok ()) (hs : ∀ s ∈ signals, s.Sound) :
    p.evidence d signals = p.totalWeight signals ↔
      ∀ s ∈ signals, 0 < p.weight s → s.magnitude = 1 ∧ s.direction = d := by
  induction signals with
  | nil => simp
  | cons s signals ih =>
    obtain ⟨hsound, hrest⟩ := List.forall_mem_cons.mp hs
    have hweight := weight_nonneg hp hsound
    have hhead : (if s.direction = d then s.magnitude * p.weight s else 0) = p.weight s ↔
        (0 < p.weight s → s.magnitude = 1 ∧ s.direction = d) := by
      rcases hweight.eq_or_lt with hzero | hpos
      · simp [← hzero]
      · split
        · next hd => simp [hpos, hd, mul_eq_right₀ hpos.ne']
        · next hd => simp [hpos, hd, hpos.ne]
    rw [evidence_cons, totalWeight_cons, List.forall_mem_cons, ← ih hrest, ← hhead]
    exact add_eq_add_iff_eq_and_eq (part_le_weight hp hsound d) (evidence_le_totalWeight hp hrest)

theorem balance_pos_iff (h : 0 < p.totalWeight signals) :
    0 < p.balance signals ↔ p.evidence .bearish signals < p.evidence .bullish signals := by
  rw [balance, div_pos_iff_of_pos_right h, sub_pos]

theorem balance_neg_iff (h : 0 < p.totalWeight signals) :
    p.balance signals < 0 ↔ p.evidence .bullish signals < p.evidence .bearish signals := by
  rw [balance, div_lt_iff₀ h, zero_mul, sub_neg]

theorem balance_eq_zero_iff (h : 0 < p.totalWeight signals) :
    p.balance signals = 0 ↔ p.evidence .bullish signals = p.evidence .bearish signals := by
  rw [balance, div_eq_zero_iff, sub_eq_zero, or_iff_left h.ne']

theorem balance_mem (hp : p.check = .ok ()) (hs : ∀ s ∈ signals, s.Sound) :
    p.balance signals ∈ Set.Icc (-1) 1 := by
  have hbulls := evidence_nonneg (d := .bullish) hp hs
  have hbears := evidence_nonneg (d := .bearish) hp hs
  have hboth := evidence_add_evidence_le hp hs
  rcases (totalWeight_nonneg hp hs).eq_or_lt with hzero | hpos
  · rw [balance, ← hzero, div_zero]
    norm_num
  · rw [balance, Set.mem_Icc, le_div_iff₀ hpos, div_le_iff₀ hpos]
    constructor <;> linarith

theorem unity_of_lt (h : p.evidence .bullish signals < p.evidence .bearish signals) :
    p.unity signals = p.evidence .bearish signals /
      (p.evidence .bullish signals + p.evidence .bearish signals) := by
  rw [unity, if_neg h.ne, max_eq_right h.le]

theorem unity_of_gt (h : p.evidence .bearish signals < p.evidence .bullish signals) :
    p.unity signals = p.evidence .bullish signals /
      (p.evidence .bullish signals + p.evidence .bearish signals) := by
  rw [unity, if_neg h.ne', max_eq_left h.le]

theorem unity_mem (hp : p.check = .ok ()) (hs : ∀ s ∈ signals, s.Sound) :
    p.unity signals ∈ Set.Icc 0 1 := by
  have hbulls := evidence_nonneg (d := .bullish) hp hs
  have hbears := evidence_nonneg (d := .bearish) hp hs
  unfold unity
  split
  · norm_num
  · refine ⟨div_nonneg (le_max_of_le_left hbulls) (add_nonneg hbulls hbears),
      div_le_one_of_le₀ ?_ (add_nonneg hbulls hbears)⟩
    exact max_le (by linarith) (by linarith)

end Sums

end Profile

end MarketVerdict
