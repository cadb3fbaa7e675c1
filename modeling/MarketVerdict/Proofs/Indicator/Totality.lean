import MarketVerdict.Proofs.Traversal
import MarketVerdict.Technical

/-!
# Histories that are long enough

Parameters that pass their check have positive periods, the fast ones shorter than the slow ones. With
such parameters every built-in indicator has a value as soon as the history reaches its minimum: no
window that it takes is longer than what it takes it from.
-/

namespace MarketVerdict

open Traversal

variable {α : Type} [Scalar α]

namespace Params

/-- What the check asks of parameters. -/
def Valid : Params α → Prop
  | rsi period | williamsR period | obv period => 0 < period
  | stochastic kPeriod dPeriod => 0 < kPeriod ∧ 0 < dPeriod
  | macd fast slow signal => (0 < fast ∧ fast < slow) ∧ 0 < signal
  | smaCross fast slow | emaCross fast slow => 0 < fast ∧ fast < slow
  | bollinger period width => 0 < period ∧ Scalar.isFinite width = true ∧ ¬ width ≤ 0

theorem fastBelowSlow_eq_ok_iff {fast slow : ℕ} :
    fastBelowSlow fast slow = .ok () ↔ 0 < fast ∧ fast < slow := by
  have hguard : (if slow ≤ fast then .error (.fastNotShorter fast slow) else pure () :
      Except ParamFault Unit) = .ok () ↔ fast < slow := by
    split
    · next h => exact ⟨nofun, fun hlt => absurd h (Nat.not_le.mpr hlt)⟩
    · next h => exact ⟨fun _ => Nat.not_le.mp h, fun _ => rfl⟩
  simp only [fastBelowSlow, check_bind_eq_ok_iff, positive_eq_ok_iff]
  rw [hguard]
  omega

theorem check_eq_ok_iff {p : Params α} : p.check = .ok () ↔ p.Valid := by
  cases p with
  | rsi period | williamsR period | obv period => exact positive_eq_ok_iff
  | stochastic kPeriod dPeriod =>
    simp only [check, Valid, check_bind_eq_ok_iff, positive_eq_ok_iff]
  | macd fast slow signal =>
    simp only [check, Valid, check_bind_eq_ok_iff, positive_eq_ok_iff, fastBelowSlow_eq_ok_iff]
  | smaCross fast slow | emaCross fast slow => exact fastBelowSlow_eq_ok_iff
  | bollinger period width =>
    simp only [check, Valid, check_bind_eq_ok_iff, positive_eq_ok_iff]
    refine and_congr_right fun _ => ?_
    by_cases hfinite : Scalar.isFinite width = true <;> by_cases hwidth : width ≤ 0 <;>
      simp [hfinite, hwidth, pure, Except.pure]

theorem Valid.minHistory_pos {p : Params α} (h : p.Valid) : 0 < p.minHistory := by
  cases p <;> simp only [Valid, minHistory] at h ⊢ <;> omega

end Params

/-! ### Averages -/

namespace Average

variable {values : List α} {period : ℕ}

theorem exists_window? {β : Type} {values : List β} (hp : 0 < period)
    (hl : period ≤ values.length) :
    ∃ v w, window? values period = some (v :: w) := by
  have hne : values.drop (values.length - period) ≠ [] := by
    rw [ne_eq, List.drop_eq_nil_iff]
    omega
  obtain ⟨v, w, hw⟩ := List.exists_cons_of_ne_nil hne
  exact ⟨v, w, by rw [window?, if_neg (by omega), hw]⟩

theorem exists_mean (hp : 0 < period) (hl : period ≤ values.length) :
    ∃ m, mean values period = some m := by
  obtain ⟨v, w, hw⟩ := exists_window? hp hl
  exact ⟨_, by rw [mean, hw]; rfl⟩

theorem exists_deviation (hp : 0 < period) (hl : period ≤ values.length) :
    ∃ d, deviation values period = some d := by
  obtain ⟨v, w, hw⟩ := exists_window? hp hl
  obtain ⟨m, hm⟩ := exists_mean hp hl
  exact ⟨_, by rw [deviation, hw, hm]; rfl⟩

theorem exists_highest (hp : 0 < period) (hl : period ≤ values.length) :
    ∃ h, highest values period = some h := by
  obtain ⟨v, w, hw⟩ := exists_window? hp hl
  exact ⟨_, by rw [highest, hw]; rfl⟩

theorem exists_lowest (hp : 0 < period) (hl : period ≤ values.length) :
    ∃ l, lowest values period = some l := by
  obtain ⟨v, w, hw⟩ := exists_window? hp hl
  exact ⟨_, by rw [lowest, hw]; rfl⟩

end Average

theorem exists_getLast? {β : Type} {xs : List β} (h : 0 < xs.length) :
    ∃ x, xs.getLast? = some x :=
  ⟨_, List.getLast?_eq_some_getLast (List.ne_nil_of_length_pos h)⟩

theorem length_latest {β : Type} {xs : List β} {period : ℕ} (h : period ≤ xs.length) :
    (xs.drop (xs.length - period)).length = period := by
  rw [List.length_drop]
  omega

/-! ### Indicators -/

theorem length_windows {β : Type} {n : ℕ} (hn : 0 < n) (xs : List β) :
    (windows n xs).length = xs.length + 1 - n := by
  induction xs with
  | nil => simp [windows]; omega
  | cons x rest ih =>
    simp only [windows, List.length_take, List.length_cons]
    split
    · simp only [List.length_nil]
      omega
    · rw [List.length_cons, ih]
      omega

theorem length_of_mem_windows {β : Type} {n : ℕ} {xs w : List β} (h : w ∈ windows n xs) :
    w.length = n := by
  induction xs with
  | nil => cases h
  | cons x rest ih =>
    simp only [windows] at h
    split at h
    · cases h
    · next hlength =>
      rcases List.mem_cons.mp h with rfl | h
      · rw [List.length_take] at hlength ⊢
        omega
      · exact ih h

theorem exists_percentK {window : List (Bar α)} (h : 0 < window.length) :
    ∃ k, percentK window = some k := by
  obtain ⟨last, hlast⟩ := exists_getLast? h
  obtain ⟨bar, rest, rfl⟩ := List.exists_cons_of_length_pos h
  obtain ⟨high, hhigh⟩ := Option.isSome_iff_exists.mp
    (Scalar.largest?_isSome_cons (Scalar.least? : Option α) bar.high (rest.map Bar.high))
  obtain ⟨low, hlow⟩ := Option.isSome_iff_exists.mp
    (Scalar.smallest?_isSome_cons (Scalar.greatest? : Option α) bar.low (rest.map Bar.low))
  refine Option.isSome_iff_exists.mp ?_
  rw [percentK, hlast, List.map_cons, List.map_cons, hhigh, hlow]
  rfl

/-- The values of `k` at all complete windows. -/
theorem exists_ks {kPeriod : ℕ} (hk : 0 < kPeriod) (bars : List (Bar α)) :
    ∃ ks, (windows kPeriod bars).mapM percentK = some ks ∧
      ks.length = bars.length + 1 - kPeriod := by
  obtain ⟨ks, hks⟩ : ∃ ks, (windows kPeriod bars).mapM percentK = some ks :=
    exists_mapM_eq_some fun w hw => exists_percentK (by rw [length_of_mem_windows hw]; exact hk)
  exact ⟨ks, hks, by rw [← (mapM_eq_some_iff.mp hks).length_eq, length_windows hk]⟩

theorem exists_stochastic {bars : List (Bar α)} {kPeriod dPeriod : ℕ} (hk : 0 < kPeriod)
    (hd : 0 < dPeriod) (hl : kPeriod + dPeriod - 1 ≤ bars.length) :
    ∃ v, stochastic bars kPeriod dPeriod = some v := by
  obtain ⟨ks, hks, hlength⟩ := exists_ks hk bars
  obtain ⟨k, hlast⟩ : ∃ k, ks.getLast? = some k := exists_getLast? (by omega)
  obtain ⟨d, hmean⟩ : ∃ d, Average.mean ks dPeriod = some d :=
    Average.exists_mean hd (by omega)
  refine ⟨⟨k, d⟩, ?_⟩
  rw [stochastic, if_neg (by omega), hks]
  simp [hlast, hmean]

theorem exists_williamsR {bars : List (Bar α)} {period : ℕ} (hp : 0 < period)
    (hl : period ≤ bars.length) : ∃ v, williamsR bars period = some v := by
  obtain ⟨high, hhigh⟩ : ∃ h, Average.highest (bars.map Bar.high) period = some h :=
    Average.exists_highest hp (by simpa using hl)
  obtain ⟨low, hlow⟩ : ∃ l, Average.lowest (bars.map Bar.low) period = some l :=
    Average.exists_lowest hp (by simpa using hl)
  obtain ⟨last, hlast⟩ : ∃ last, bars.getLast? = some last := exists_getLast? (by omega)
  refine Option.isSome_iff_exists.mp ?_
  rw [williamsR, hhigh, hlow, hlast]
  rfl

theorem exists_crossOf {averages : List α → ℕ → List α} {closes : List α} {fast slow : ℕ}
    (haverages : ∀ {period}, 0 < period → period ≤ closes.length →
      (averages closes period).length = closes.length - period + 1)
    (hf : 0 < fast) (hs : fast < slow) (hl : slow ≤ closes.length) :
    ∃ v, crossOf averages closes fast slow = some v := by
  obtain ⟨x, hx⟩ : ∃ x, (averages closes fast).getLast? = some x :=
    exists_getLast? (by rw [haverages hf (by omega)]; omega)
  obtain ⟨y, hy⟩ : ∃ y, (averages closes slow).getLast? = some y :=
    exists_getLast? (by rw [haverages (by omega) hl]; omega)
  refine Option.isSome_iff_exists.mp ?_
  rw [crossOf, if_neg (by omega), Cross.ofLines, hx, hy]
  rfl

theorem Macd.length_line {closes : List α} {fast slow : ℕ} (hf : 0 < fast) (hs : fast < slow)
    (hl : slow ≤ closes.length) : (line closes fast slow).length = closes.length - slow + 1 := by
  simp only [line, List.length_zipWith, List.length_drop,
    Average.length_exponentialMeans hf (by omega : fast ≤ closes.length),
    Average.length_exponentialMeans (by omega : 0 < slow) hl]
  omega

theorem exists_macd {closes : List α} {fast slow signal : ℕ} (hf : 0 < fast) (hs : fast < slow)
    (hsignal : 0 < signal) (hl : slow + signal - 1 ≤ closes.length) :
    ∃ v, macd closes fast slow signal = some v := by
  have hline := Macd.length_line hf hs (by omega : slow ≤ closes.length)
  have hsignals := Average.length_exponentialMeans hsignal
    (by omega : signal ≤ (Macd.line closes fast slow).length)
  obtain ⟨histogram, hh⟩ : ∃ x, (Macd.histograms (Macd.line closes fast slow)
      (Average.exponentialMeans (Macd.line closes fast slow) signal) signal).getLast? = some x :=
    exists_getLast? (by
      rw [Macd.histograms, List.length_zipWith, List.length_drop, hsignals]
      omega)
  obtain ⟨x, hx⟩ : ∃ x, (Macd.line closes fast slow).getLast? = some x :=
    exists_getLast? (by omega)
  obtain ⟨y, hy⟩ : ∃ y, (Average.exponentialMeans (Macd.line closes fast slow) signal).getLast? =
      some y := exists_getLast? (by omega)
  refine Option.isSome_iff_exists.mp ?_
  rw [macd, if_neg (by omega)]
  simp only [hh, hx, hy]
  rfl

theorem exists_bollinger {closes : List α} {period : ℕ} (hp : 0 < period)
    (hl : period ≤ closes.length) (width : α) : ∃ v, bollinger closes period width = some v := by
  obtain ⟨middle, hmiddle⟩ := Average.exists_mean hp hl
  obtain ⟨deviation, hdeviation⟩ := Average.exists_deviation hp hl
  refine Option.isSome_iff_exists.mp ?_
  rw [bollinger, hmiddle, hdeviation]
  rfl

theorem OnBalance.length_totals (total : α) (previous : Bar α) (bars : List (Bar α)) :
    (totals total previous bars).length = bars.length := by
  induction bars generalizing total previous with
  | nil => rfl
  | cons current rest ih => simp [totals, ih]

theorem length_onBalanceSeries (bars : List (Bar α)) :
    (onBalanceSeries bars).length = bars.length := by
  cases bars with
  | nil => rfl
  | cons first rest => simp [onBalanceSeries, OnBalance.length_totals]

theorem exists_onBalance {bars : List (Bar α)} {period : ℕ} (hp : 0 < period)
    (hl : period + 1 ≤ bars.length) : ∃ v, onBalance bars period = some v := by
  have hseries := length_onBalanceSeries bars
  obtain ⟨volume, hvolume⟩ : ∃ x, (onBalanceSeries bars).getLast? = some x :=
    exists_getLast? (by omega)
  obtain ⟨baseline, hbaseline⟩ : ∃ m, Average.mean (onBalanceSeries bars) period = some m :=
    Average.exists_mean hp (by omega)
  obtain ⟨average, haverage⟩ : ∃ m, Average.mean (bars.map Bar.volume) period = some m :=
    Average.exists_mean hp (by rw [List.length_map]; omega)
  refine ⟨⟨volume, baseline, average⟩, ?_⟩
  rw [onBalance, if_neg (by omega)]
  simp [hvolume, hbaseline, haverage]

namespace Technical

/-- No indicator is without a value once its minimum history is there. -/
theorem exists_raw {params : Params α} (hvalid : params.Valid) {s : Series α}
    (hl : params.minHistory ≤ s.length) : ∃ value, raw params s = some value := by
  have hcloses : s.closes.length = s.length := List.length_map ..
  have hlast : ∃ last, s.last? = some last :=
    exists_getLast? (Nat.lt_of_lt_of_le hvalid.minHistory_pos hl)
  cases params with
  | rsi period =>
    have hp : 0 < period := hvalid
    have hl : period + 1 ≤ s.length := hl
    exact ⟨_, by rw [raw, rsi, if_neg (by omega)]; rfl⟩
  | stochastic kPeriod dPeriod =>
    obtain ⟨v, hv⟩ := exists_stochastic hvalid.1 hvalid.2 hl
    exact ⟨_, by rw [raw, hv]; rfl⟩
  | williamsR period =>
    obtain ⟨v, hv⟩ := exists_williamsR hvalid hl
    exact ⟨_, by rw [raw, hv]; rfl⟩
  | macd fast slow signal =>
    obtain ⟨v, hv⟩ := exists_macd hvalid.1.1 hvalid.1.2 hvalid.2 (hcloses.symm ▸ hl)
    obtain ⟨last, hlast⟩ := hlast
    exact ⟨_, by rw [raw, hlast, hv]; rfl⟩
  | smaCross fast slow =>
    obtain ⟨v, hv⟩ := exists_crossOf Average.length_means hvalid.1 hvalid.2 (hcloses.symm ▸ hl)
    exact ⟨_, by rw [raw, smaCross, hv]; rfl⟩
  | emaCross fast slow =>
    obtain ⟨v, hv⟩ := exists_crossOf Average.length_exponentialMeans hvalid.1 hvalid.2
      (hcloses.symm ▸ hl)
    exact ⟨_, by rw [raw, emaCross, hv]; rfl⟩
  | bollinger period width =>
    obtain ⟨v, hv⟩ := exists_bollinger hvalid.1 (hcloses.symm ▸ hl) width
    obtain ⟨last, hlast⟩ := hlast
    exact ⟨_, by rw [raw, hlast, hv]; rfl⟩
  | obv period =>
    obtain ⟨v, hv⟩ := exists_onBalance hvalid hl
    exact ⟨_, by rw [raw, hv]; rfl⟩

theorem reading_of_lt {spec : Spec α} {s : Series α} (h : s.length < spec.params.minHistory) :
    reading spec s = Reading.missing spec s.length := if_pos h

theorem reading_of_raw {spec : Spec α} {s : Series α} {value : Raw α}
    (h : spec.params.minHistory ≤ s.length) (hvalue : raw spec.params s = some value) :
    reading spec s = Reading.present spec value s.length := by
  rw [reading, if_neg (Nat.not_lt.mpr h), hvalue]

theorem exists_reading_of_le {spec : Spec α} (hvalid : spec.params.Valid) {s : Series α}
    (h : spec.params.minHistory ≤ s.length) :
    ∃ value, raw spec.params s = some value ∧
      reading spec s = Reading.present spec value s.length := by
  obtain ⟨value, hvalue⟩ := exists_raw hvalid h
  exact ⟨value, hvalue, reading_of_raw h hvalue⟩

end Technical

end MarketVerdict
