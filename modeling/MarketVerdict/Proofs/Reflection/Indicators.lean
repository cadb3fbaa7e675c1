import MarketVerdict.Proofs.Indicator.Share
import MarketVerdict.Proofs.Traversal

/-!
# Indicators of reflected prices

A reflection takes every price `p` to `K - p`, so that a rise becomes a fall of the same size and
the high of a bar comes from its low. An indicator is reflected along: its value and the value on the
reflected series add up to the same number on all histories. `raw_reflect` says so for every
built-in indicator, and a crossing turns over.
-/

namespace MarketVerdict

open Scalar Traversal

def Bar.reflect (K : ℝ) (b : Bar ℝ) : Bar ℝ where
  time := b.time
  opening := K - b.opening
  high := K - b.low
  low := K - b.high
  close := K - b.close
  volume := b.volume

def Series.reflect (K : ℝ) (s : Series ℝ) : Series ℝ :=
  ⟨s.instrument, s.bars.map (Bar.reflect K), List.pairwise_map.mpr s.ordered⟩

/-- What a value of the indicator and its reflection add up to. -/
noncomputable def Params.span (K : ℝ) : Params ℝ → ℝ
  | rsi _ | stochastic .. => 100
  | williamsR _ => -100
  | smaCross .. | emaCross .. | bollinger .. => K
  | macd .. | obv _ => 0

/-- Both lines of a spread are reflected within `span`, its reference is a price; the upper bound of
a band comes from its lower one. -/
def Raw.reflect (K span : ℝ) : Raw ℝ → Raw ℝ
  | level value => level (span - value)
  | spread fast slow reference crossed =>
    spread (span - fast) (span - slow) (K - reference) (crossed.map Direction.opposite)
  | band price lower middle upper =>
    band (span - price) (span - upper) (span - middle) (span - lower)
  | flow delta scale => flow (span - delta) scale

variable (K : ℝ)

/-- One field of all bars. -/
theorem Bar.map_reflect (field : Bar ℝ → ℝ) {source : Bar ℝ → ℝ}
    (h : ∀ b, field (b.reflect K) = K - source b) (bars : List (Bar ℝ)) :
    (bars.map (reflect K)).map field = (bars.map source).map (K - ·) := by
  rw [List.map_map, List.map_map]
  exact List.map_congr_left fun b _ => h b

theorem Bar.volumes_reflect (bars : List (Bar ℝ)) :
    (bars.map (reflect K)).map volume = bars.map volume := by
  rw [List.map_map]
  rfl

namespace Series

@[simp] theorem reflect_bars (s : Series ℝ) : (s.reflect K).bars = s.bars.map (Bar.reflect K) := rfl

@[simp] theorem length_reflect (s : Series ℝ) : (s.reflect K).length = s.length := by
  simp [length]

theorem closes_reflect (s : Series ℝ) : (s.reflect K).closes = s.closes.map (K - ·) :=
  Bar.map_reflect K Bar.close (fun _ => rfl) s.bars

theorem last?_reflect (s : Series ℝ) : (s.reflect K).last? = s.last?.map (Bar.reflect K) :=
  List.getLast?_map

end Series

/-- The reflection as an affine map. -/
theorem reflect_eq_affine : (K - · : ℝ → ℝ) = fun x => -1 * x + K := by
  funext x
  ring

theorem antitone_reflect : Antitone (K - · : ℝ → ℝ) := fun _ _ h => sub_le_sub_left h K

namespace Average

theorem mean_reflect (values : List ℝ) (period : ℕ) :
    mean (values.map (K - ·)) period = (mean values period).map (K - ·) := by
  rw [reflect_eq_affine, mean_affine]

theorem deviation_reflect (values : List ℝ) (period : ℕ) :
    deviation (values.map (K - ·)) period = deviation values period := by
  rw [reflect_eq_affine, deviation_affine, abs_neg, abs_one]
  simp

end Average

/-! ### Oscillators -/

namespace Rsi

theorem index_swap {gains losses : ℝ} (hg : 0 ≤ gains) (hl : 0 ≤ losses) :
    index losses gains = 100 - index gains losses := by
  rw [index_eq_share hg hl, index_eq_share hl hg, add_comm losses gains]
  split_ifs with hsum
  · norm_num
  · field_simp
    ring

end Rsi

theorem rsi_reflect (closes : List ℝ) (period : ℕ) :
    rsi (closes.map (K - ·)) period = (rsi closes period).map (100 - ·) := by
  have hgains (changes : List ℝ) : (changes.map (-1 * ·)).map Rsi.gain = changes.map Rsi.loss := by
    simp [Rsi.loss, Rsi.gain, Function.comp_def]
  have hlosses (changes : List ℝ) : (changes.map (-1 * ·)).map Rsi.loss = changes.map Rsi.gain := by
    simp [Rsi.loss, Rsi.gain, Function.comp_def]
  unfold rsi
  rw [List.length_map]
  split
  · rfl
  next h =>
    have hp : 0 < period := by omega
    simp only [reflect_eq_affine K, Rsi.changes_affine, hgains, hlosses]
    exact congrArg some (Rsi.index_swap (Rsi.average_gains_nonneg hp (Rsi.changes closes))
      (Rsi.average_losses_nonneg hp (Rsi.changes closes)))

/-- Two parts of a range have shares that make up the whole. -/
theorem share_complement {middle factor range part rest : ℝ} (hmiddle : middle + middle = factor)
    (hrange : part + rest = range) :
    (if range == 0 then middle else factor * rest / range) =
      factor - if range == 0 then middle else factor * part / range := by
  by_cases h : range = 0
  · simp only [h, beq_self_eq_true, if_true]
    linarith
  · simp only [beq_iff_eq, h, if_false]
    rw [← hrange] at h ⊢
    field_simp
    ring

theorem percentK_reflect (window : List (Bar ℝ)) :
    percentK (window.map (Bar.reflect K)) = (percentK window).map (100 - ·) := by
  unfold percentK
  rw [Bar.map_reflect K Bar.high fun _ => rfl, Bar.map_reflect K Bar.low fun _ => rfl,
    List.getLast?_map, least?_real, greatest?_real, largest?_map_antitone (antitone_reflect K),
    smallest?_map_antitone (antitone_reflect K)]
  cases window.getLast? with
  | none => rfl
  | some last =>
    cases largest? none (window.map Bar.high) with
    | none => cases smallest? none (window.map Bar.low) <;> rfl
    | some high =>
      cases smallest? none (window.map Bar.low) with
      | none => rfl
      | some low =>
        refine congrArg some ?_
        simp only [Bar.reflect, sub_sub_sub_cancel_left]
        exact share_complement (by norm_num) (by ring)

noncomputable def Stochastic.reflect (v : Stochastic ℝ) : Stochastic ℝ := ⟨100 - v.k, 100 - v.d⟩

theorem stochastic_reflect (bars : List (Bar ℝ)) (kPeriod dPeriod : ℕ) :
    stochastic (bars.map (Bar.reflect K)) kPeriod dPeriod =
      (stochastic bars kPeriod dPeriod).map Stochastic.reflect := by
  have hks : (windows kPeriod (bars.map (Bar.reflect K))).mapM percentK =
      ((windows kPeriod bars).mapM percentK).map (List.map (100 - ·)) := by
    rw [windows_map, List.mapM_map, ← mapM_map_some]
    exact congrArg (List.mapM · _) (funext (percentK_reflect K))
  unfold stochastic
  rw [List.length_map, hks]
  split
  · rfl
  cases (windows kPeriod bars).mapM percentK with
  | none => rfl
  | some ks =>
    simp only [Option.map_some, bind, Option.bind_some, List.getLast?_map, Average.mean_reflect]
    cases ks.getLast? with
    | none => rfl
    | some k => cases Average.mean ks dPeriod <;> rfl

theorem williamsR_reflect (bars : List (Bar ℝ)) (period : ℕ) :
    williamsR (bars.map (Bar.reflect K)) period = (williamsR bars period).map (-100 - ·) := by
  unfold williamsR
  rw [Bar.map_reflect K Bar.high fun _ => rfl, Bar.map_reflect K Bar.low fun _ => rfl,
    List.getLast?_map, Average.highest_map_antitone (antitone_reflect K),
    Average.lowest_map_antitone (antitone_reflect K)]
  cases Average.highest (bars.map Bar.high) period with
  | none => cases Average.lowest (bars.map Bar.low) period <;> rfl
  | some high =>
    cases Average.lowest (bars.map Bar.low) period with
    | none => rfl
    | some low =>
      cases bars.getLast? with
      | none => rfl
      | some last =>
        refine congrArg some ?_
        simp only [Bar.reflect, sub_sub_sub_cancel_left]
        exact share_complement (by norm_num) (by ring)

/-! ### Lines that cross -/

noncomputable def Cross.reflect (x : Cross ℝ) : Cross ℝ :=
  ⟨K - x.fast, K - x.slow, x.crossed.map Direction.opposite⟩

noncomputable def Macd.reflect (m : Macd ℝ) : Macd ℝ :=
  ⟨-m.macd, -m.signal, -m.histogram, m.crossed.map Direction.opposite⟩

theorem crossOf_reflect {averages : List ℝ → ℕ → List ℝ}
    (haverages : ∀ a b values period, averages (values.map fun x => a * x + b) period =
      (averages values period).map fun x => a * x + b)
    (closes : List ℝ) (fast slow : ℕ) :
    crossOf averages (closes.map (K - ·)) fast slow =
      (crossOf averages closes fast slow).map (Cross.reflect K) := by
  have haffine : Cross.affine (-1) K = Cross.reflect K := by
    funext x
    simp only [Cross.affine, Cross.reflect, Direction.along_of_neg neg_one_lt_zero, neg_one_mul,
      neg_add_eq_sub]
  rw [reflect_eq_affine, crossOf_affine K (by norm_num) (haverages (-1) K), haffine]

theorem macd_reflect (closes : List ℝ) (fast slow signal : ℕ) :
    macd (closes.map (K - ·)) fast slow signal =
      (macd closes fast slow signal).map Macd.reflect := by
  have hmultiply : Macd.multiply (-1) = Macd.reflect := by
    funext m
    simp only [Macd.multiply, Macd.reflect, Direction.along_of_neg neg_one_lt_zero, neg_one_mul]
  rw [reflect_eq_affine, macd_affine K (by norm_num), hmultiply]

/-! ### Bands and volumes -/

noncomputable def Bollinger.reflect (v : Bollinger ℝ) : Bollinger ℝ :=
  ⟨K - v.lower, K - v.middle, K - v.upper⟩

theorem bollinger_reflect (closes : List ℝ) (period : ℕ) (width : ℝ) :
    bollinger (closes.map (K - ·)) period width =
      (bollinger closes period width).map (Bollinger.reflect K) := by
  unfold bollinger
  rw [Average.mean_reflect, Average.deviation_reflect]
  cases Average.mean closes period with
  | none => rfl
  | some middle =>
    cases Average.deviation closes period with
    | none => rfl
    | some deviation =>
      have hupper : K - middle + width * deviation = K - (middle - width * deviation) := by ring
      have hlower : K - middle - width * deviation = K - (middle + width * deviation) := by ring
      change some (Bollinger.mk (K - middle + width * deviation) (K - middle)
        (K - middle - width * deviation)) = some _
      rw [hupper, hlower]
      rfl

namespace OnBalance

noncomputable def reflect (v : OnBalance ℝ) : OnBalance ℝ :=
  ⟨-v.volume, -v.baseline, v.averageVolume⟩

theorem step_reflect (total : ℝ) (previous current : Bar ℝ) :
    step (-total) (previous.reflect K) (current.reflect K) = -step total previous current := by
  simp only [step, Bar.reflect, sub_lt_sub_iff_left]
  split_ifs with hfalls hrises
  · exact absurd hfalls hrises.not_gt
  all_goals ring

theorem totals_reflect (total : ℝ) (previous : Bar ℝ) (bars : List (Bar ℝ)) :
    totals (-total) (previous.reflect K) (bars.map (Bar.reflect K)) =
      (totals total previous bars).map (- ·) := by
  induction bars generalizing total previous with
  | nil => rfl
  | cons current rest ih =>
    rw [List.map_cons, totals, step_reflect, ih]
    rfl

end OnBalance

theorem onBalanceSeries_reflect (bars : List (Bar ℝ)) :
    onBalanceSeries (bars.map (Bar.reflect K)) = (onBalanceSeries bars).map (- ·) := by
  cases bars with
  | nil => rfl
  | cons first rest =>
    have h := OnBalance.totals_reflect K 0 first rest
    rw [neg_zero] at h
    rw [List.map_cons, onBalanceSeries, h, onBalanceSeries, List.map_cons, neg_zero]

theorem onBalance_reflect (bars : List (Bar ℝ)) (period : ℕ) :
    onBalance (bars.map (Bar.reflect K)) period =
      (onBalance bars period).map OnBalance.reflect := by
  have hmean (values : List ℝ) :
      Average.mean (values.map (- ·)) period = (Average.mean values period).map (- ·) := by
    simpa using Average.mean_reflect 0 values period
  unfold onBalance
  rw [List.length_map, Bar.volumes_reflect, onBalanceSeries_reflect]
  split
  · rfl
  simp only [List.getLast?_map, hmean]
  cases (onBalanceSeries bars).getLast? with
  | none => rfl
  | some volume =>
    cases Average.mean (onBalanceSeries bars) period with
    | none => rfl
    | some baseline => cases Average.mean (bars.map Bar.volume) period <;> rfl

/-! ### All indicators -/

namespace Technical

/-- The value of an indicator is reflected within its span. -/
theorem raw_reflect (params : Params ℝ) (s : Series ℝ) :
    raw params (s.reflect K) = (raw params s).map (Raw.reflect K (params.span K)) := by
  cases params with
  | rsi period =>
    simp only [raw, Series.closes_reflect, rsi_reflect, Option.map_map]
    rfl
  | stochastic kPeriod dPeriod =>
    simp only [raw, Series.reflect_bars, stochastic_reflect, Option.map_map]
    rfl
  | williamsR period =>
    simp only [raw, Series.reflect_bars, williamsR_reflect, Option.map_map]
    rfl
  | macd fast slow signal =>
    simp only [raw, Series.closes_reflect, Series.last?_reflect, macd_reflect]
    cases s.last? with
    | none => rfl
    | some last =>
      cases macd s.closes fast slow signal with
      | none => rfl
      | some m => simp [Macd.reflect, Raw.reflect, Params.span, Bar.reflect]
  | smaCross fast slow =>
    simp only [raw, smaCross, Series.closes_reflect, crossOf_reflect K Average.means_affine,
      Option.map_map]
    rfl
  | emaCross fast slow =>
    simp only [raw, emaCross, Series.closes_reflect,
      crossOf_reflect K Average.exponentialMeans_affine, Option.map_map]
    rfl
  | bollinger period width =>
    simp only [raw, Series.closes_reflect, Series.last?_reflect, bollinger_reflect]
    cases s.last? with
    | none => rfl
    | some last => cases bollinger s.closes period width <;> rfl
  | obv period =>
    simp only [raw, Series.reflect_bars, onBalance_reflect, Option.map_map]
    refine congrArg (Option.map · _) (funext fun v => congrArg (Raw.flow · _) ?_)
    simp only [OnBalance.reflect, Params.span]
    ring

end Technical

end MarketVerdict
