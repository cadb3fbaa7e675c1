import Mathlib
import MarketVerdict.Proofs.Fusion.Unanimity

/-!
# A signal that speaks more for a rise

A signal may be replaced by one that speaks more for a rise, or less for a fall, on the same data.
The weights stay as they are, so the score can only rise, the recommendation can only move towards
buying, and every other signal keeps its share of the score.
-/

namespace MarketVerdict

open Scalar

/-- Says of the same data at least as much for a rise. -/
structure Signal.RaisedTo (s s' : Signal ℝ) : Prop where
  indicator : s'.indicator = s.indicator
  kind : s'.kind = s.kind
  reliability : s'.reliability = s.reliability
  strength : s.strength ≤ s'.strength

theorem Thresholds.recommend_mono {t : Thresholds ℝ} (h : t.check = .ok ()) {score score' : ℝ}
    (hle : score ≤ score') : (t.recommend score).rank ≤ (t.recommend score').rank := by
  obtain ⟨_, ⟨hstrongSell, hsell⟩, hbuy, hstrongBuy⟩ := check_eq_ok_iff.mp h
  unfold recommend
  split_ifs <;> first | decide | (exfalso; linarith)

namespace Profile

variable {p : Profile ℝ} {s s' : Signal ℝ}

theorem weight_of_raisedTo (p : Profile ℝ) (h : s.RaisedTo s') : p.weight s' = p.weight s := by
  rw [weight_eq, weight_eq, h.indicator, h.kind, h.reliability]

theorem totalWeight_cons_of_raisedTo (p : Profile ℝ) (h : s.RaisedTo s')
    (others : List (Signal ℝ)) :
    p.totalWeight (s' :: others) = p.totalWeight (s :: others) := by
  rw [totalWeight_cons, totalWeight_cons, p.weight_of_raisedTo h]

theorem net_cons (p : Profile ℝ) (s : Signal ℝ) (others : List (Signal ℝ)) :
    p.evidence .bullish (s :: others) - p.evidence .bearish (s :: others) =
      s.strength * p.weight s + (p.evidence .bullish others - p.evidence .bearish others) := by
  rw [← Fusion.sum_signed, ← Fusion.sum_signed, List.map_cons, List.sum_cons, Signal.strength]

theorem balance_perm {signals signals' : List (Signal ℝ)} (h : signals'.Perm signals) :
    p.balance signals' = p.balance signals := by
  rw [balance, balance, evidence_perm h, evidence_perm h, totalWeight_perm h]

theorem balance_cons_mono (hp : p.check = .ok ()) (h : s.RaisedTo s') {others : List (Signal ℝ)}
    (hs : ∀ x ∈ s :: others, x.Sound) :
    p.balance (s :: others) ≤ p.balance (s' :: others) := by
  have hweight : 0 ≤ p.weight s := weight_nonneg hp (hs s List.mem_cons_self)
  have hnet : s.strength * p.weight s ≤ s'.strength * p.weight s :=
    mul_le_mul_of_nonneg_right h.strength hweight
  rw [balance, balance, net_cons, net_cons, p.weight_of_raisedTo h,
    p.totalWeight_cons_of_raisedTo h]
  exact div_le_div_of_nonneg_right (by linarith) (totalWeight_nonneg hp hs)

end Profile

namespace Fusion

variable {t : Thresholds ℝ} {p : Profile ℝ} {signals : List (Signal ℝ)} {s s' : Signal ℝ}

/-- The entry of one signal stands among those of the others. -/
theorem account_perm_cons {others : List (Signal ℝ)} (h : signals.Perm (s :: others)) :
    (account p signals).Perm (share (p.totalWeight signals) (Attribution.weigh p s) ::
      shared p (p.totalWeight signals) others) :=
  (account_perm p signals).trans ((h.map _).map _)

/-- When one signal is raised, the verdict rises with it or stays, and of the account only the
entry of that signal changes. -/
theorem fuse_monotone (ht : t.check = .ok ()) (hp : p.check = .ok ())
    (hs : ∀ x ∈ signals, x.Sound) {i : ℕ} (hi : signals[i]? = some s) (hs' : s'.Sound)
    (h : s.RaisedTo s') (time : Instant) :
    ∃ v v', fuse t signals p time = .ok v ∧ fuse t (signals.set i s') p time = .ok v' ∧
      v.score ≤ v'.score ∧ v.recommendation.rank ≤ v'.recommendation.rank ∧
      v'.totalWeight = v.totalWeight ∧ v'.insufficient = v.insufficient ∧
      ∃ entry entry' others, v.attribution.Perm (entry :: others) ∧
        v'.attribution.Perm (entry' :: others) ∧ entry.signal = s ∧ entry'.signal = s' ∧
        others.map Attribution.signal = signals.eraseIdx i := by
  obtain ⟨hlt, rfl⟩ := List.getElem?_eq_some_iff.mp hi
  have hperm : signals.Perm (signals[i] :: signals.eraseIdx i) :=
    (List.getElem_cons_eraseIdx_perm hlt).symm
  have hperm' : (signals.set i s').Perm (s' :: signals.eraseIdx i) :=
    List.set_perm_cons_eraseIdx hlt s'
  have hset : ∀ x ∈ signals.set i s', x.Sound := by
    intro x hx
    rcases List.mem_or_eq_of_mem_set hx with hx | rfl
    · exact hs x hx
    · exact hs'
  have htotal : p.totalWeight (signals.set i s') = p.totalWeight signals := by
    rw [Profile.totalWeight_perm hperm', p.totalWeight_cons_of_raisedTo h,
      ← Profile.totalWeight_perm hperm]
  have hbalance : p.balance signals ≤ p.balance (signals.set i s') := by
    rw [Profile.balance_perm hperm', Profile.balance_perm hperm]
    exact Profile.balance_cons_mono hp h fun x hx => hs x (hperm.mem_iff.mpr hx)
  refine ⟨_, _, fuse_of_sound_real hp hs, fuse_of_sound_real hp hset, ?_, ?_, htotal, ?_,
    _, _, _, account_perm_cons hperm, htotal ▸ account_perm_cons hperm', rfl, rfl,
    signals_shared p _ _⟩
  · simp only [called, htotal]
    split
    · exact le_rfl
    · exact hbalance
  · simp only [called, htotal]
    split
    · exact le_rfl
    · exact Thresholds.recommend_mono ht hbalance
  · simp only [called, htotal]

/-- The fall of `mixed` turned into a weak rise. -/
noncomputable def turned : Signal ℝ := ⟨"macd_12_26_9", .trend, .bullish, 1 / 4, 1 / 2⟩

theorem fuse_monotone_turned :
    ∃ (s : Signal ℝ) (v v' : Verdict ℝ), mixed[1]? = some s ∧ s.RaisedTo turned ∧
      fuse .standard mixed trendwise .epoch = .ok v ∧
      fuse .standard (mixed.set 1 turned) trendwise .epoch = .ok v' ∧
      v.score ≤ v'.score ∧ v.recommendation.rank ≤ v'.recommendation.rank ∧
      v.score = -1 / 4 ∧ v'.score = 3 / 8 := by
  have hraised : Signal.RaisedTo ⟨"macd_12_26_9", .trend, .bearish, 1, 1 / 2⟩ turned := by
    refine ⟨rfl, rfl, rfl, ?_⟩
    norm_num [turned, Signal.strength, Direction.sign]
  have hsound : turned.Sound := by
    constructor <;> norm_num [turned]
  obtain ⟨v, v', hv, hv', hscore, hrank, _⟩ :=
    fuse_monotone check_standard_thresholds check_trendwise sound_mixed (i := 1) rfl hsound hraised
      .epoch
  have hsound' : ∀ s ∈ mixed.set 1 turned, s.Sound := fun s hs =>
    (List.mem_or_eq_of_mem_set hs).elim (sound_mixed s) fun h => h ▸ hsound
  have htotal' : trendwise.totalWeight (mixed.set 1 turned) = 2 := by
    norm_num [mixed, turned, Signal.noData, weight_trendwise, KindWeights.get]
  have hbalance' : trendwise.balance (mixed.set 1 turned) = 3 / 8 := by
    rw [Profile.balance, htotal']
    simp [mixed, turned, Signal.noData, weight_trendwise, KindWeights.get]
    norm_num
  refine ⟨_, v, v', rfl, hraised, hv, hv', hscore, hrank, ?_, ?_⟩
  · rw [(call_of_fuse check_trendwise sound_mixed (by norm_num [totalWeight_mixed]) hv).1,
      balance_mixed]
  · rw [(call_of_fuse check_trendwise hsound' (by norm_num [htotal']) hv').1, hbalance']

end Fusion

end MarketVerdict
