import Mathlib
import MarketVerdict.Proofs.Average.Impulse
import MarketVerdict.Proofs.Indicator.Range
import MarketVerdict.Proofs.Indicator.Share

/-!
# A quiet history that ends in a fall

All closes but the last are the same, and the last is one below them. On such a history every
built-in indicator has a value that can be written down: the oscillators stand at the bottom of their
ranges, averages over fewer bars are below those over more, the close is as far out of an envelope as
any can be, and the running volume is below its average.
-/

namespace MarketVerdict

open Scalar Traversal

/-! ### Falling bars -/

/-- Every bar closes at its low and below its high, and no low is above an earlier one. -/
structure Falling (bars : List (Bar ℝ)) : Prop where
  atLow : ∀ b ∈ bars, b.low = b.close ∧ b.close < b.high
  lows : bars.Pairwise fun a b => b.low ≤ a.low

theorem Falling.sublist {bars bars' : List (Bar ℝ)} (h : Falling bars)
    (hsublist : bars'.Sublist bars) : Falling bars' :=
  ⟨fun b hb => h.atLow b (hsublist.subset hb), h.lows.sublist hsublist⟩

theorem Scalar.smallest?_eq_min? (xs : List ℝ) : smallest? none xs = xs.min? := by
  cases xs with
  | nil => rfl
  | cons x xs =>
    rw [smallest?, List.min?_cons']
    congr 2
    funext a b
    exact smaller_real a b

theorem Scalar.largest?_eq_max? (xs : List ℝ) : largest? none xs = xs.max? := by
  cases xs with
  | nil => rfl
  | cons x xs =>
    rw [largest?, List.max?_cons']
    congr 2
    funext a b
    exact larger_real a b

theorem sublist_of_mem_windows {β : Type} {n : ℕ} {xs w : List β} (h : w ∈ windows n xs) :
    w.Sublist xs := by
  induction xs with
  | nil => cases h
  | cons x rest ih =>
    simp only [windows] at h
    split at h
    · cases h
    · rcases List.mem_cons.mp h with rfl | h
      · exact List.take_sublist _ _
      · exact (ih h).cons x

/-- The last close is the lowest low. -/
theorem Falling.percentK_eq_zero {window : List (Bar ℝ)} (h : Falling window)
    (hne : 0 < window.length) : percentK window = some 0 := by
  rcases List.eq_nil_or_concat' window with rfl | ⟨init, last, rfl⟩
  · cases hne
  obtain ⟨hlow, hclose⟩ := h.atLow last (by simp)
  have hsmallest : smallest? none ((init ++ [last]).map Bar.low) = some last.close := by
    rw [smallest?_eq_min?, List.min?_eq_some_iff]
    refine ⟨List.mem_map.mpr ⟨last, by simp, hlow⟩, ?_⟩
    rintro _ hmem
    obtain ⟨b, hb, rfl⟩ := List.mem_map.mp hmem
    rcases List.mem_append.mp hb with hb | hb
    · exact hlow.symm.trans_le ((List.pairwise_append.mp h.lows).2.2 b hb last (by simp))
    · rw [List.mem_singleton.mp hb, hlow]
  obtain ⟨high, hlargest, hhigh⟩ : ∃ high,
      largest? none ((init ++ [last]).map Bar.high) = some high ∧ last.high ≤ high := by
    rw [largest?_eq_max?]
    obtain ⟨high, hmax⟩ := Option.isSome_iff_exists.mp
      (List.isSome_max?_of_mem (List.mem_map_of_mem (f := Bar.high) (List.mem_append_right init
        (List.mem_singleton_self last))))
    refine ⟨high, hmax, (List.max?_eq_some_iff.mp hmax).2 _ (List.mem_map_of_mem (by simp))⟩
  have hrange : high - last.close ≠ 0 := sub_ne_zero.mpr (hclose.trans_le hhigh).ne'
  rw [percentK, List.getLast?_concat, least?_real, greatest?_real, hlargest, hsmallest]
  simp [hrange]

theorem Average.mean_replicate_zero {n period : ℕ} (hp : 0 < period) (h : period ≤ n) :
    mean (List.replicate n (0 : ℝ)) period = some 0 := by
  rw [mean, window?, List.length_replicate, if_neg (by omega), List.drop_replicate,
    Option.map_some, sum_replicate_zero, zero_div]

theorem Falling.stochastic_eq_zero {bars : List (Bar ℝ)} (h : Falling bars) {kPeriod dPeriod : ℕ}
    (hk : 0 < kPeriod) (hd : 0 < dPeriod) (hl : kPeriod + dPeriod - 1 ≤ bars.length) :
    stochastic bars kPeriod dPeriod = some ⟨0, 0⟩ := by
  have hks : (windows kPeriod bars).mapM percentK =
      some (List.replicate (bars.length + 1 - kPeriod) 0) := by
    calc (windows kPeriod bars).mapM percentK
        = (windows kPeriod bars).mapM fun _ => some 0 := by
          refine mapM_congr fun w hw => ?_
          refine (h.sublist (sublist_of_mem_windows hw)).percentK_eq_zero ?_
          rw [length_of_mem_windows hw]
          exact hk
      _ = some (List.replicate (bars.length + 1 - kPeriod) 0) := by
          rw [← length_windows hk]
          exact List.mapM_pure.trans (congrArg some List.map_const')
  obtain ⟨n, hn⟩ : ∃ n, bars.length + 1 - kPeriod = n + 1 := ⟨bars.length - kPeriod, by omega⟩
  rw [hn] at hks
  rw [stochastic, if_neg (by omega), hks]
  have hlast : (List.replicate (n + 1) (0 : ℝ)).getLast? = some 0 := by
    rw [List.replicate_succ', List.getLast?_concat]
  simp [hlast, Average.mean_replicate_zero hd (by omega : dPeriod ≤ n + 1)]

theorem Falling.williamsR_eq {bars : List (Bar ℝ)} (h : Falling bars) {period : ℕ}
    (hp : 0 < period) (hl : period ≤ bars.length) : williamsR bars period = some (-100) := by
  obtain ⟨k, hstochastic, hwilliams⟩ := exists_percentK_latest hp hl
  rw [h.stochastic_eq_zero hp Nat.one_pos (by omega)] at hstochastic
  cases hstochastic
  rw [hwilliams, zero_sub]

/-! ### The plunge -/

noncomputable def quietBar (i : ℕ) : Bar ℝ := ⟨⟨i, 0⟩, 0, 1, 0, 0, 1⟩

noncomputable def fallingBar (i : ℕ) : Bar ℝ := ⟨⟨i, 0⟩, 0, 0, -1, -1, 1⟩

/-- Closes at zero on `n` bars, and a close at minus one. -/
noncomputable def plunge (n : ℕ) : Series ℝ where
  instrument := "plunge"
  bars := (List.range n).map quietBar ++ [fallingBar n]
  ordered := by
    refine List.pairwise_append.mpr ⟨List.pairwise_map.mpr ?_, List.pairwise_singleton _ _, ?_⟩
    · exact List.pairwise_lt_range.imp fun h => Or.inl (Int.ofNat_lt.mpr h)
    · intro a ha b hb
      obtain ⟨i, hi, rfl⟩ := List.mem_map.mp ha
      rw [List.mem_singleton.mp hb]
      exact Or.inl (Int.ofNat_lt.mpr (List.mem_range.mp hi))

section Plunge

variable (n : ℕ)

theorem length_plunge : (plunge n).length = n + 1 := by simp [Series.length, plunge]

theorem closes_plunge : (plunge n).closes = impulse n (-1) := by
  simp [Series.closes, plunge, impulse, quietBar, fallingBar, Function.comp_def, List.map_const']

theorem last?_plunge : (plunge n).last? = some (fallingBar n) := List.getLast?_concat

theorem falling_plunge : Falling (plunge n).bars := by
  constructor
  · intro b hb
    rcases List.mem_append.mp hb with hb | hb
    · obtain ⟨i, _, rfl⟩ := List.mem_map.mp hb
      exact ⟨rfl, zero_lt_one⟩
    · rw [List.mem_singleton.mp hb]
      exact ⟨rfl, neg_one_lt_zero⟩
  · refine List.pairwise_append.mpr ⟨List.pairwise_map.mpr ?_, List.pairwise_singleton _ _, ?_⟩
    · exact List.pairwise_lt_range.imp fun _ => le_rfl
    · intro a ha b hb
      obtain ⟨i, _, rfl⟩ := List.mem_map.mp ha
      rw [List.mem_singleton.mp hb]
      exact neg_one_lt_zero.le

end Plunge

section Values

variable {n period : ℕ}

theorem rsi_plunge (hp : 0 < period) (h : period + 1 ≤ n) :
    rsi (plunge n).closes period = some 0 := by
  obtain ⟨m, rfl⟩ : ∃ m, n = m + 1 := ⟨n - 1, by omega⟩
  have hgains : Rsi.smoothed period ((impulse m (-1)).map Rsi.gain) = 0 := by
    rw [map_impulse (by simp [Rsi.gain, larger_real]), Rsi.smoothed_impulse (by omega)]
    simp [Rsi.gain, larger_real]
  have hlosses : Rsi.smoothed period ((impulse m (-1)).map Rsi.loss) = 1 / period := by
    rw [map_impulse (by simp [Rsi.loss, larger_real]), Rsi.smoothed_impulse (by omega)]
    simp [Rsi.loss, larger_real]
  have hpos : (0 : ℝ) < 1 / period := one_div_pos.mpr (Nat.cast_pos.mpr hp)
  rw [closes_plunge, rsi, length_impulse, if_neg (by omega)]
  dsimp only
  rw [Rsi.changes_impulse, hgains, hlosses, Rsi.index_eq_share le_rfl hpos.le, zero_add,
    if_neg hpos.ne', zero_div, mul_zero]

theorem Cross.ofLines_impulse (k l : ℕ) (x y : ℝ) : ∃ crossed,
    ofLines (impulse k x) (impulse l y) = some ⟨x, y, crossed⟩ :=
  ⟨_, by rw [ofLines, getLast?_impulse, getLast?_impulse]; rfl⟩

variable {fast slow : ℕ}

/-- The average that takes in more of the move is the lower one. -/
theorem exists_crossOf_plunge {averages : List ℝ → ℕ → List ℝ} {share : ℕ → ℝ}
    (haverages : ∀ {p}, 0 < p → p ≤ n →
      averages (impulse n (-1)) p = impulse (n - p + 1) (-1 * share p))
    (hf : 0 < fast) (hs : fast < slow) (hshare : share slow < share fast) (h : slow ≤ n) :
    ∃ c, crossOf averages (plunge n).closes fast slow = some c ∧ c.fast < c.slow := by
  obtain ⟨crossed, hcross⟩ := Cross.ofLines_impulse (n - fast + 1) (n - slow + 1)
    (-1 * share fast) (-1 * share slow)
  refine ⟨⟨-1 * share fast, -1 * share slow, crossed⟩, ?_,
    mul_lt_mul_of_neg_left hshare neg_one_lt_zero⟩
  rw [closes_plunge, crossOf, length_impulse, if_neg (by omega), haverages hf (by omega),
    haverages (by omega) h, hcross]

theorem exists_smaCross_plunge (hf : 0 < fast) (hs : fast < slow) (h : slow ≤ n) :
    ∃ c, smaCross (plunge n).closes fast slow = some c ∧ c.fast < c.slow := by
  have hshare : 1 / (slow : ℝ) < 1 / (fast : ℝ) :=
    one_div_lt_one_div_of_lt (Nat.cast_pos.mpr hf) (Nat.cast_lt.mpr hs)
  have hmeans {p : ℕ} (hp : 0 < p) (hl : p ≤ n) :
      Average.means (impulse n (-1)) p = impulse (n - p + 1) (-1 * (1 / (p : ℝ))) := by
    rw [Average.means_impulse hp hl, mul_one_div]
  exact exists_crossOf_plunge hmeans hf hs hshare h

theorem Average.response_lt (hs : fast < slow) : response slow < response fast := by
  have hfast : (0 : ℝ) < (fast : ℝ) + 1 := by positivity
  have hslow : (fast : ℝ) + 1 < (slow : ℝ) + 1 := by exact_mod_cast Nat.succ_lt_succ hs
  exact div_lt_div_of_pos_left two_pos hfast hslow

theorem exists_emaCross_plunge (hf : 0 < fast) (hs : fast < slow) (h : slow ≤ n) :
    ∃ c, emaCross (plunge n).closes fast slow = some c ∧ c.fast < c.slow :=
  exists_crossOf_plunge (fun hp hl => Average.exponentialMeans_impulse hp hl _) hf hs
    (Average.response_lt hs) h

theorem Macd.line_impulse (hf : 0 < fast) (hs : fast < slow) (h : slow ≤ n) (x : ℝ) :
    line (impulse n x) fast slow =
      impulse (n - slow + 1) (x * Average.response fast - x * Average.response slow) := by
  rw [line, Average.exponentialMeans_impulse hf (by omega),
    Average.exponentialMeans_impulse (by omega) h, drop_impulse (by omega),
    show n - fast + 1 - (slow - fast) = n - slow + 1 by omega, zipWith_sub_impulse]

theorem Macd.histograms_impulse {k signal : ℕ} (hsignal : 0 < signal) (h : signal ≤ k) (x y : ℝ) :
    histograms (impulse k x) (impulse (k - signal + 1) y) signal =
      impulse (k - signal + 1) (x - y) := by
  rw [histograms, drop_impulse (by omega), show k - (signal - 1) = k - signal + 1 by omega,
    zipWith_sub_impulse]

theorem Average.response_lt_one (hp : 1 < period) : response period < 1 := by
  have hperiod : (1 : ℝ) < period := Nat.one_lt_cast.mpr hp
  rw [response, div_lt_one (by linarith)]
  linarith

/-- The line takes in all of its move and the signal line a part of it. -/
theorem exists_macd_plunge (hf : 0 < fast) (hs : fast < slow) {signal : ℕ} (hsignal : 1 < signal)
    (h : slow + signal ≤ n) :
    ∃ m, macd (plunge n).closes fast slow signal = some m ∧ m.macd < m.signal := by
  obtain ⟨move, hmove, hline⟩ :
      ∃ move < 0, Macd.line (impulse n (-1)) fast slow = impulse (n - slow + 1) move := by
    refine ⟨_, ?_, Macd.line_impulse hf hs (by omega) (-1)⟩
    have := Average.response_lt hs
    linarith
  have hsignals := Average.exponentialMeans_impulse (by omega : 0 < signal)
    (by omega : signal ≤ n - slow + 1) move
  have hhistograms := Macd.histograms_impulse (by omega : 0 < signal)
    (by omega : signal ≤ n - slow + 1) move (move * Average.response signal)
  obtain ⟨crossed, hmacd⟩ : ∃ crossed, macd (plunge n).closes fast slow signal = some ⟨move,
      move * Average.response signal, move - move * Average.response signal, crossed⟩ :=
    ⟨_, by
      rw [closes_plunge, macd, length_impulse, if_neg (by omega)]
      simp only [hline, hsignals, hhistograms, getLast?_impulse]
      rfl⟩
  refine ⟨_, hmacd, ?_⟩
  simpa using mul_lt_mul_of_neg_left (Average.response_lt_one hsignal) hmove

theorem Bollinger.half_impulse (hp : 0 < period) (width : ℝ) :
    half (impulse (period - 1) (-1)) (-1 / period) width = width * √(period - 1) / period := by
  have hperiod : (0 : ℝ) < period := Nat.cast_pos.mpr hp
  have hcount : ((period - 1 : ℕ) : ℝ) = period - 1 := by rw [Nat.cast_sub hp, Nat.cast_one]
  have hvariance : Average.dispersion (impulse (period - 1) (-1)) (-1 / period) / period =
      (period - 1) / period ^ 2 := by
    rw [Average.dispersion_impulse, hcount]
    field_simp
    ring
  rw [half, length_impulse, Nat.sub_add_cancel hp, hvariance, Real.sqrt_div' _ (by positivity),
    Real.sqrt_sq hperiod.le, mul_div_assoc]

/-- The last close is as far out as a close can be. -/
theorem exists_bollinger_plunge (hp : 1 < period) (h : period ≤ n) {width : ℝ}
    (hwidth : 0 < width) :
    ∃ b, bollinger (plunge n).closes period width = some b ∧
      b.position (-1) = some (-(√(period - 1) / width)) := by
  have hperiod : (1 : ℝ) < period := Nat.one_lt_cast.mpr hp
  have hroot : 0 < √((period : ℝ) - 1) := Real.sqrt_pos.mpr (by linarith)
  have hdrop : (impulse n (-1)).drop (n + 1 - period) = impulse (period - 1) (-1) := by
    rw [drop_impulse (by omega)]
    congr 1
    omega
  have hlength : period ≤ (impulse n (-1)).length := by
    rw [length_impulse]
    omega
  obtain ⟨middle, hsum, hb⟩ := bollinger_eq_around (Nat.zero_lt_of_lt hp) hlength width
  rw [length_impulse, hdrop] at hsum hb
  rw [sum_impulse] at hsum
  obtain rfl : middle = -1 / period := by
    rw [hsum]
    field_simp
  rw [Bollinger.half_impulse (by omega)] at hb
  refine ⟨_, by rw [closes_plunge, hb], ?_⟩
  rw [Bollinger.position_around, if_pos (by positivity)]
  congr 1
  have hsq : √((period : ℝ) - 1) * √((period : ℝ) - 1) = period - 1 :=
    Real.mul_self_sqrt (by linarith)
  field_simp
  rw [sq, hsq]
  ring

theorem OnBalance.totals_of_flat {total : ℝ} {previous last : Bar ℝ} {bars : List (Bar ℝ)}
    (hflat : ∀ b ∈ bars, b.close = previous.close) (hlast : last.close < previous.close) :
    totals total previous (bars ++ [last]) =
      List.replicate bars.length total ++ [total - last.volume] := by
  induction bars generalizing previous with
  | nil =>
    rw [List.nil_append, totals, totals, step, if_neg hlast.not_gt, if_pos hlast]
    rfl
  | cons bar rest ih =>
    rw [List.forall_mem_cons] at hflat
    have hstep : step total previous bar = total := by
      rw [step, hflat.1, if_neg (lt_irrefl _), if_neg (lt_irrefl _)]
    rw [List.cons_append, totals, hstep, ih (hflat.1 ▸ hflat.2) (hflat.1 ▸ hlast),
      List.length_cons, List.replicate_succ, List.cons_append]

theorem onBalanceSeries_plunge (h : 0 < n) : onBalanceSeries (plunge n).bars = impulse n (-1) := by
  obtain ⟨m, rfl⟩ : ∃ m, n = m + 1 := ⟨n - 1, by omega⟩
  have hbars : (plunge (m + 1)).bars = quietBar 0 ::
      ((List.range m).map (fun i => quietBar (i + 1)) ++ [fallingBar (m + 1)]) := by
    simp [plunge, List.range_succ_eq_map]
  rw [hbars, onBalanceSeries, OnBalance.totals_of_flat _ neg_one_lt_zero]
  · rw [impulse_succ, List.length_map, List.length_range, zero_sub]
    rfl
  · intro b hb
    obtain ⟨i, _, rfl⟩ := List.mem_map.mp hb
    rfl

theorem onBalance_plunge (hp : 0 < period) (h : period ≤ n) :
    onBalance (plunge n).bars period = some ⟨-1, -1 / period, 1⟩ := by
  have hperiod : (period : ℝ) ≠ 0 := Nat.cast_ne_zero.mpr hp.ne'
  have hvolumes : (plunge n).bars.map Bar.volume = List.replicate (n + 1) 1 := by
    simp [plunge, quietBar, fallingBar, Function.comp_def, List.map_const', List.replicate_succ']
  have hvolume : Average.mean (List.replicate (n + 1) (1 : ℝ)) period = some 1 := by
    rw [Average.mean, Average.window?, List.length_replicate, if_neg (by omega),
      List.drop_replicate, Option.map_some, sum_real, List.sum_replicate,
      Nat.sub_sub_self (by omega), nsmul_eq_mul, mul_one, div_self hperiod]
  have hlength : (plunge n).bars.length = n + 1 := length_plunge n
  rw [onBalance, if_neg (by omega)]
  dsimp only
  rw [onBalanceSeries_plunge (by omega), hvolumes, getLast?_impulse,
    Average.mean_impulse hp (by omega), hvolume]
  rfl

end Values

end MarketVerdict
