import MarketVerdict.Proofs.Average.Affine
import MarketVerdict.Proofs.Indicator.Totality

/-!
# Indicators on the end of a history

What looks at the last values only does not see how many came before. Two of the indicators carry a
number along from the first bar: the rolling sum, which is the sum of its window at every place, and
the running total of volumes, which on the end of a history differs from that on the whole by a
constant. Where the constant cancels, these too depend on the end alone.
-/

namespace MarketVerdict

open Traversal

/-! ### Averages -/

namespace Average

open Scalar

variable {values : List ℝ} {period k : ℕ}

theorem window?_drop {β : Type} {values : List β} (h : period ≤ values.length - k) :
    window? (values.drop k) period = window? values period := by
  by_cases hp : period = 0
  · rw [window?, window?, if_pos (Or.inl hp), if_pos (Or.inl hp)]
  · rw [window?, window?, List.length_drop, if_neg (by omega), if_neg (by omega), List.drop_drop]
    congr 2
    omega

theorem mean_drop (h : period ≤ values.length - k) :
    mean (values.drop k) period = mean values period := by
  rw [mean, mean, window?_drop h]

theorem deviation_drop (h : period ≤ values.length - k) :
    deviation (values.drop k) period = deviation values period := by
  rw [deviation, deviation, mean_drop h, window?_drop h]

theorem highest_drop (h : period ≤ values.length - k) :
    highest (values.drop k) period = highest values period := by
  rw [highest, highest, window?_drop h]

theorem lowest_drop (h : period ≤ values.length - k) :
    lowest (values.drop k) period = lowest values period := by
  rw [lowest, lowest, window?_drop h]

/-- The rolling sum of a window is the sum of its values: the second average starts over. -/
theorem means_cons (hp : 0 < period) (x : ℝ) {rest : List ℝ} (h : period ≤ rest.length) :
    means (x :: rest) period = sum ((x :: rest).take period) / period :: means rest period := by
  obtain ⟨n, rfl⟩ : ∃ n, period = n + 1 := ⟨period - 1, by omega⟩
  have hn : n < rest.length := h
  have hdrop : rest.drop n = rest[n] :: rest.drop (n + 1) := List.drop_eq_getElem_cons hn
  have hsum : sum (x :: rest.take n) + (rest[n] - x) = sum (rest.take (n + 1)) := by
    rw [List.take_succ_eq_append_getElem hn, sum_append_singleton, sum_real, sum_real,
      List.sum_cons]
    ring
  have hlength : ¬ (n + 1 = 0 ∨ (x :: rest).length < n + 1) := by
    rw [List.length_cons]
    omega
  rw [means, if_neg hlength, means, if_neg (by omega)]
  simp only [List.take_succ_cons, List.drop_succ_cons, hdrop, List.zipWith_cons_cons, rolling, hsum]

theorem means_eq_nil {values : List ℝ} (h : values.length < period) : means values period = [] :=
  if_pos (Or.inr h)

theorem means_drop (hp : 0 < period) (values : List ℝ) (k : ℕ) :
    means (values.drop k) period = (means values period).drop k := by
  induction k generalizing values with
  | zero => rfl
  | succ k ih =>
    cases values with
    | nil => rw [List.drop_nil, means_eq_nil (by simpa using hp), List.drop_nil]
    | cons x rest =>
      rw [List.drop_succ_cons]
      by_cases h : period ≤ rest.length
      · rw [means_cons hp x h, List.drop_succ_cons, ih]
      · have hshort : (means (x :: rest) period).length ≤ k + 1 := by
          by_cases hlength : period ≤ (x :: rest).length
          · rw [length_means hp hlength, List.length_cons]
            omega
          · rw [means_eq_nil (by omega)]
            exact Nat.zero_le _
        rw [List.drop_eq_nil_of_le hshort, means_eq_nil]
        rw [List.length_drop]
        omega

end Average

section Ends

variable {β : Type} {xs : List β} {k : ℕ}

theorem getLast?_drop (h : 0 < xs.length - k) : (xs.drop k).getLast? = xs.getLast? := by
  rw [List.getLast?_drop, if_neg (by omega)]

theorem lastButOne?_drop (h : 2 ≤ xs.length - k) :
    lastButOne? (xs.drop k) = lastButOne? xs := by
  have hdrop : (xs.drop k).dropLast = xs.dropLast.drop k := by
    rw [List.dropLast_eq_take, List.dropLast_eq_take, List.length_drop, List.drop_take]
    congr 1
    omega
  rw [lastButOne?, hdrop, getLast?_drop, lastButOne?]
  rw [List.length_dropLast]
  omega

theorem windows_eq_nil {n : ℕ} (h : xs.length < n) : windows n xs = [] := by
  cases xs with
  | nil => rfl
  | cons x rest =>
    simp only [windows, List.length_take]
    rw [if_pos (by omega)]

theorem windows_drop (n : ℕ) (xs : List β) (k : ℕ) :
    windows n (xs.drop k) = (windows n xs).drop k := by
  induction k generalizing xs with
  | zero => rfl
  | succ k ih =>
    cases xs with
    | nil => rfl
    | cons x rest =>
      rw [List.drop_succ_cons, ih, windows]
      split
      · next h =>
        rw [windows_eq_nil, List.drop_nil, List.drop_nil]
        rw [List.length_take, List.length_cons] at h
        omega
      · rfl

end Ends

/-! ### Indicators -/

variable {bars : List (Bar ℝ)} {closes : List ℝ} {k : ℕ}

theorem stochastic_drop {kPeriod dPeriod : ℕ} (hk : 0 < kPeriod) (hd : 0 < dPeriod)
    (h : kPeriod + dPeriod - 1 ≤ bars.length - k) :
    stochastic (bars.drop k) kPeriod dPeriod = stochastic bars kPeriod dPeriod := by
  obtain ⟨ks, hks, hlength⟩ := exists_ks hk bars
  have hdrop : (windows kPeriod (bars.drop k)).mapM percentK = some (ks.drop k) := by
    rw [windows_drop, mapM_eq_some_iff]
    exact List.forall₂_drop k (mapM_eq_some_iff.mp hks)
  rw [stochastic, stochastic, List.length_drop, if_neg (by omega), if_neg (by omega), hks, hdrop]
  change ((ks.drop k).getLast?.bind fun last => (Average.mean (ks.drop k) dPeriod).bind _) = _
  rw [getLast?_drop (by omega), Average.mean_drop (by omega)]
  rfl

theorem williamsR_drop {period : ℕ} (hp : 0 < period) (h : period ≤ bars.length - k) :
    williamsR (bars.drop k) period = williamsR bars period := by
  rw [williamsR, williamsR, List.map_drop, List.map_drop,
    Average.highest_drop (by rwa [List.length_map]), Average.lowest_drop (by rwa [List.length_map]),
    getLast?_drop (by omega)]

theorem bollinger_drop {period : ℕ} (h : period ≤ closes.length - k) (width : ℝ) :
    bollinger (closes.drop k) period width = bollinger closes period width := by
  rw [bollinger, bollinger, Average.mean_drop h, Average.deviation_drop h]

theorem Cross.ofLines_drop {fast slow : List ℝ} (hf : 2 ≤ fast.length - k)
    (hs : 2 ≤ slow.length - k) :
    ofLines (fast.drop k) (slow.drop k) = ofLines fast slow := by
  rw [ofLines, ofLines, getLast?_drop (by omega), getLast?_drop (by omega), lastButOne?_drop hf,
    lastButOne?_drop hs]

theorem smaCross_drop {fast slow : ℕ} (hf : 0 < fast) (hs : fast < slow)
    (h : slow + 1 ≤ closes.length - k) :
    smaCross (closes.drop k) fast slow = smaCross closes fast slow := by
  have hfast := Average.length_means hf (by omega : fast ≤ closes.length)
  have hslow := Average.length_means (by omega : 0 < slow) (by omega : slow ≤ closes.length)
  rw [smaCross, smaCross, crossOf, crossOf, List.length_drop, if_neg (by omega), if_neg (by omega),
    Average.means_drop hf, Average.means_drop (by omega),
    Cross.ofLines_drop (by omega) (by omega)]

namespace OnBalance

theorem step_add (x total : ℝ) (previous current : Bar ℝ) :
    step (total + x) previous current = step total previous current + x := by
  unfold step
  split
  · ring
  · split
    · ring
    · rfl

theorem totals_add (x total : ℝ) (previous : Bar ℝ) (bars : List (Bar ℝ)) :
    totals (total + x) previous bars = (totals total previous bars).map (· + x) := by
  induction bars generalizing total previous with
  | nil => rfl
  | cons current rest ih => rw [totals, step_add, ih, totals, List.map_cons]

/-- The total up to a bar enters all totals from that bar on. -/
theorem exists_totals_drop (total : ℝ) (first : Bar ℝ) {rest : List (Bar ℝ)} {k : ℕ}
    (h : k ≤ rest.length) :
    ∃ x, (total :: totals total first rest).drop k =
      (onBalanceSeries ((first :: rest).drop k)).map (· + x) := by
  induction rest generalizing total first k with
  | nil =>
    obtain rfl : k = 0 := Nat.le_zero.mp h
    exact ⟨total, by simp [onBalanceSeries, totals]⟩
  | cons current rest ih =>
    cases k with
    | zero =>
      refine ⟨total, ?_⟩
      rw [List.drop_zero, List.drop_zero, onBalanceSeries, List.map_cons, ← totals_add, zero_add]
    | succ k =>
      rw [List.drop_succ_cons, List.drop_succ_cons]
      exact ih (step total first current) current (Nat.le_of_succ_le_succ h)

end OnBalance

theorem exists_onBalanceSeries_drop (h : k < bars.length) :
    ∃ x, (onBalanceSeries bars).drop k = (onBalanceSeries (bars.drop k)).map (· + x) := by
  obtain ⟨first, rest, rfl⟩ := List.exists_cons_of_length_pos (Nat.zero_lt_of_lt h)
  exact OnBalance.exists_totals_drop 0 first (Nat.le_of_lt_succ h)

/-- On the end of a history the volume and its baseline are off by the same constant. -/
theorem exists_onBalance_drop {period : ℕ} (hp : 0 < period) (h : period + 1 ≤ bars.length - k) :
    ∃ x, onBalance bars period =
      (onBalance (bars.drop k) period).map fun v =>
        ⟨v.volume + x, v.baseline + x, v.averageVolume⟩ := by
  obtain ⟨x, hx⟩ := exists_onBalanceSeries_drop (k := k) (by omega : k < bars.length)
  have hlength := length_onBalanceSeries bars
  have hlast : (onBalanceSeries bars).getLast? =
      (onBalanceSeries (bars.drop k)).getLast?.map (· + x) := by
    rw [← List.getLast?_map, ← hx, getLast?_drop (by omega)]
  have hmean : Average.mean (onBalanceSeries bars) period =
      (Average.mean (onBalanceSeries (bars.drop k)) period).map (· + x) := by
    have hshift := Average.mean_affine 1 x (onBalanceSeries (bars.drop k)) period
    simp only [one_mul] at hshift
    rw [← hshift, ← hx, Average.mean_drop (by omega)]
  have hvolume : Average.mean ((bars.drop k).map Bar.volume) period =
      Average.mean (bars.map Bar.volume) period := by
    rw [List.map_drop, Average.mean_drop]
    rw [List.length_map]
    omega
  refine ⟨x, ?_⟩
  rw [onBalance, onBalance, List.length_drop, if_neg (by omega), if_neg (by omega), hvolume]
  simp only [hlast, hmean]
  cases (onBalanceSeries (bars.drop k)).getLast? with
  | none => rfl
  | some volume =>
    cases Average.mean (onBalanceSeries (bars.drop k)) period with
    | none => rfl
    | some baseline => cases Average.mean (bars.map Bar.volume) period <;> rfl

end MarketVerdict
