import MarketVerdict.Proofs.Indicator.Affine

/-!
# Indicators in other units

A rescaling multiplies all prices by one positive factor and all volumes by another, as a change of
currency and of lot size does. A level, which has no unit, stays as it is; the lines of a spread and
the bounds of a band are prices and the distance of a flow is a volume, so that these are multiplied
along. `raw_rescale` says so for every built-in indicator.
-/

namespace MarketVerdict

open Scalar

/-- The factors of a change of units. -/
structure Rescaling where
  price : ℝ
  volume : ℝ
  price_pos : 0 < price
  volume_pos : 0 < volume

variable (u : Rescaling)

def Bar.rescale (b : Bar ℝ) : Bar ℝ where
  time := b.time
  opening := u.price * b.opening
  high := u.price * b.high
  low := u.price * b.low
  close := u.price * b.close
  volume := u.volume * b.volume

def Series.rescale (s : Series ℝ) : Series ℝ :=
  ⟨s.instrument, s.bars.map (Bar.rescale u), List.pairwise_map.mpr s.ordered⟩

def Raw.rescale : Raw ℝ → Raw ℝ
  | level value => level value
  | spread fast slow reference crossed =>
    spread (u.price * fast) (u.price * slow) (u.price * reference) crossed
  | band price lower middle upper =>
    band (u.price * price) (u.price * lower) (u.price * middle) (u.price * upper)
  | flow delta scale => flow (u.volume * delta) (u.volume * scale)

@[simp] theorem Bar.time_rescale (b : Bar ℝ) : (b.rescale u).time = b.time := rfl

/-- One field of all bars. -/
theorem Bar.map_rescale (field : Bar ℝ → ℝ) {c : ℝ} (h : ∀ b, field (b.rescale u) = c * field b)
    (bars : List (Bar ℝ)) : (bars.map (rescale u)).map field = (bars.map field).map (c * ·) := by
  rw [List.map_map, List.map_map]
  exact List.map_congr_left fun b _ => h b

namespace Series

@[simp] theorem rescale_bars (s : Series ℝ) : (s.rescale u).bars = s.bars.map (Bar.rescale u) := rfl

@[simp] theorem length_rescale (s : Series ℝ) : (s.rescale u).length = s.length := by
  simp [length]

theorem closes_rescale (s : Series ℝ) : (s.rescale u).closes = s.closes.map (u.price * ·) :=
  Bar.map_rescale u Bar.close (fun _ => rfl) s.bars

theorem last?_rescale (s : Series ℝ) : (s.rescale u).last? = s.last?.map (Bar.rescale u) :=
  List.getLast?_map

end Series

/-! ### Averages -/

namespace Average

variable (c : ℝ)

theorem mean_scale (values : List ℝ) (period : ℕ) :
    mean (values.map (c * ·)) period = (mean values period).map (c * ·) := by
  simpa using mean_affine c 0 values period

theorem means_scale (values : List ℝ) (period : ℕ) :
    means (values.map (c * ·)) period = (means values period).map (c * ·) := by
  simpa using means_affine c 0 values period

theorem exponentialMeans_scale (values : List ℝ) (period : ℕ) :
    exponentialMeans (values.map (c * ·)) period = (exponentialMeans values period).map (c * ·) := by
  simpa using exponentialMeans_affine c 0 values period

theorem deviation_scale {c : ℝ} (hc : 0 < c) (values : List ℝ) (period : ℕ) :
    deviation (values.map (c * ·)) period = (deviation values period).map (c * ·) := by
  simpa [abs_of_pos hc] using deviation_affine c 0 values period

end Average

/-! ### Oscillators -/

namespace Rsi

variable {c : ℝ}

theorem changes_scale (closes : List ℝ) :
    changes (closes.map (c * ·)) = (changes closes).map (c * ·) := by
  simpa using changes_affine 0 c closes

theorem gain_scale (hc : 0 < c) (change : ℝ) : gain (c * change) = c * gain change := by
  rw [gain, gain, larger_real, larger_real, mul_max_of_nonneg _ _ hc.le, mul_zero]

theorem loss_scale (hc : 0 < c) (change : ℝ) : loss (c * change) = c * loss change := by
  simpa [loss, gain] using gain_scale hc (-change)

theorem smoothed_scale (period : ℕ) (moves : List ℝ) :
    smoothed period (moves.map (c * ·)) = c * smoothed period moves := by
  have hstart : sum ((moves.map (c * ·)).take period) / period =
      c * (sum (moves.take period) / period) := by
    rw [← List.map_take, sum_real, sum_real, List.sum_map_mul_left, List.map_id', mul_div_assoc]
  rw [smoothed, smoothed, hstart, ← List.map_drop, List.foldl_map]
  refine List.foldl_hom (c * ·) fun average move => ?_
  simp only [smoothStep]
  ring

theorem index_scale (hc : 0 < c) (gains losses : ℝ) :
    index (c * gains) (c * losses) = index gains losses := by
  simp only [index, beq_iff_eq, mul_eq_zero, hc.ne', false_or, mul_div_mul_left _ _ hc.ne']

end Rsi

theorem rsi_scale {c : ℝ} (hc : 0 < c) (closes : List ℝ) (period : ℕ) :
    rsi (closes.map (c * ·)) period = rsi closes period := by
  have hmap (f : ℝ → ℝ) (hf : ∀ x, f (c * x) = c * f x) (moves : List ℝ) :
      (moves.map (c * ·)).map f = (moves.map f).map (c * ·) := by
    simp only [List.map_map]
    exact List.map_congr_left fun x _ => hf x
  simp only [rsi, List.length_map, Rsi.changes_scale, hmap _ (Rsi.gain_scale hc),
    hmap _ (Rsi.loss_scale hc), Rsi.smoothed_scale, Rsi.index_scale hc]

/-- The extremes of rescaled prices, which keep their order. -/
theorem Rescaling.price_mono : Monotone (u.price * ·) :=
  monotone_mul_left_of_nonneg u.price_pos.le

/-- A share of the range keeps its size. -/
theorem range_scale {c : ℝ} (hc : 0 < c) (middle factor high low x y : ℝ) :
    (if c * high - c * low == 0 then middle else factor * (c * x - c * y) / (c * high - c * low)) =
      if high - low == 0 then middle else factor * (x - y) / (high - low) := by
  rw [← mul_sub, ← mul_sub, mul_left_comm, mul_div_mul_left _ _ hc.ne']
  simp only [beq_iff_eq, mul_eq_zero, hc.ne', false_or]

theorem percentK_rescale (window : List (Bar ℝ)) :
    percentK (window.map (Bar.rescale u)) = percentK window := by
  unfold percentK
  rw [Bar.map_rescale u Bar.high fun _ => rfl, Bar.map_rescale u Bar.low fun _ => rfl,
    List.getLast?_map, least?_real, greatest?_real,
    largest?_map u.price_mono, smallest?_map u.price_mono]
  cases window.getLast? with
  | none => rfl
  | some last =>
    cases largest? none (window.map Bar.high) with
    | none => rfl
    | some high =>
      cases smallest? none (window.map Bar.low) with
      | none => rfl
      | some low => exact congrArg some (range_scale u.price_pos 50 100 high low last.close low)

theorem stochastic_rescale (bars : List (Bar ℝ)) (kPeriod dPeriod : ℕ) :
    stochastic (bars.map (Bar.rescale u)) kPeriod dPeriod = stochastic bars kPeriod dPeriod := by
  have hks : (windows kPeriod (bars.map (Bar.rescale u))).mapM percentK =
      (windows kPeriod bars).mapM percentK := by
    rw [windows_map, List.mapM_map]
    exact congrArg (List.mapM · _) (funext (percentK_rescale u))
  unfold stochastic
  rw [List.length_map, hks]

theorem williamsR_rescale (bars : List (Bar ℝ)) (period : ℕ) :
    williamsR (bars.map (Bar.rescale u)) period = williamsR bars period := by
  unfold williamsR
  rw [Bar.map_rescale u Bar.high fun _ => rfl, Bar.map_rescale u Bar.low fun _ => rfl,
    List.getLast?_map, Average.highest_map u.price_mono,
    Average.lowest_map u.price_mono]
  cases Average.highest (bars.map Bar.high) period with
  | none => rfl
  | some high =>
    cases Average.lowest (bars.map Bar.low) period with
    | none => rfl
    | some low =>
      cases bars.getLast? with
      | none => rfl
      | some last =>
        exact congrArg some (range_scale u.price_pos (-50) (-100) high low high last.close)

/-! ### Lines that cross -/

def Cross.scale (c : ℝ) (x : Cross ℝ) : Cross ℝ := ⟨c * x.fast, c * x.slow, x.crossed⟩

def Macd.scale (c : ℝ) (m : Macd ℝ) : Macd ℝ :=
  ⟨c * m.macd, c * m.signal, c * m.histogram, m.crossed⟩

theorem Cross.affine_of_pos {c : ℝ} (hc : 0 < c) : Cross.affine c 0 = Cross.scale c := by
  funext x
  simp [affine, scale, Direction.along_of_pos hc]

theorem Macd.multiply_of_pos {c : ℝ} (hc : 0 < c) : Macd.multiply c = Macd.scale c := by
  funext m
  simp [multiply, scale, Direction.along_of_pos hc]

theorem crossOf_scale {averages : List ℝ → ℕ → List ℝ} {c : ℝ} (hc : 0 < c)
    (haverages : ∀ values period,
      averages (values.map (c * ·)) period = (averages values period).map (c * ·))
    (closes : List ℝ) (fast slow : ℕ) :
    crossOf averages (closes.map (c * ·)) fast slow =
      (crossOf averages closes fast slow).map (Cross.scale c) := by
  simpa [Cross.affine_of_pos hc] using
    crossOf_affine 0 hc.ne' (by simpa using haverages) closes fast slow

theorem macd_scale {c : ℝ} (hc : 0 < c) (closes : List ℝ) (fast slow signal : ℕ) :
    macd (closes.map (c * ·)) fast slow signal =
      (macd closes fast slow signal).map (Macd.scale c) := by
  simpa [Macd.multiply_of_pos hc] using macd_affine 0 hc.ne' closes fast slow signal

/-! ### Bands and volumes -/

def Bollinger.scale (c : ℝ) (b : Bollinger ℝ) : Bollinger ℝ :=
  ⟨c * b.upper, c * b.middle, c * b.lower⟩

theorem bollinger_scale {c : ℝ} (hc : 0 < c) (closes : List ℝ) (period : ℕ) (width : ℝ) :
    bollinger (closes.map (c * ·)) period width =
      (bollinger closes period width).map (Bollinger.scale c) := by
  unfold bollinger
  rw [Average.mean_scale, Average.deviation_scale hc]
  cases Average.mean closes period with
  | none => rfl
  | some middle =>
    cases Average.deviation closes period with
    | none => rfl
    | some deviation =>
      have hupper : c * middle + width * (c * deviation) = c * (middle + width * deviation) := by ring
      have hlower : c * middle - width * (c * deviation) = c * (middle - width * deviation) := by ring
      change some (Bollinger.mk (c * middle + width * (c * deviation)) (c * middle)
        (c * middle - width * (c * deviation))) = some _
      rw [hupper, hlower]
      rfl

namespace OnBalance

def scale (c : ℝ) (v : OnBalance ℝ) : OnBalance ℝ :=
  ⟨c * v.volume, c * v.baseline, c * v.averageVolume⟩

theorem step_rescale (total : ℝ) (previous current : Bar ℝ) :
    step (u.volume * total) (previous.rescale u) (current.rescale u) =
      u.volume * step total previous current := by
  simp only [step, Bar.rescale, mul_lt_mul_iff_right₀ u.price_pos, ← mul_add, ← mul_sub, mul_ite]

theorem totals_rescale (total : ℝ) (previous : Bar ℝ) (bars : List (Bar ℝ)) :
    totals (u.volume * total) (previous.rescale u) (bars.map (Bar.rescale u)) =
      (totals total previous bars).map (u.volume * ·) := by
  induction bars generalizing total previous with
  | nil => rfl
  | cons current rest ih =>
    rw [List.map_cons, totals, step_rescale, ih]
    rfl

end OnBalance

theorem onBalanceSeries_rescale (bars : List (Bar ℝ)) :
    onBalanceSeries (bars.map (Bar.rescale u)) = (onBalanceSeries bars).map (u.volume * ·) := by
  cases bars with
  | nil => rfl
  | cons first rest =>
    have h := OnBalance.totals_rescale u 0 first rest
    rw [mul_zero] at h
    rw [List.map_cons, onBalanceSeries, h, onBalanceSeries, List.map_cons, mul_zero]

theorem onBalance_rescale (bars : List (Bar ℝ)) (period : ℕ) :
    onBalance (bars.map (Bar.rescale u)) period =
      (onBalance bars period).map (OnBalance.scale u.volume) := by
  unfold onBalance
  rw [List.length_map, Bar.map_rescale u Bar.volume fun _ => rfl, onBalanceSeries_rescale]
  split
  · rfl
  simp only [List.getLast?_map, Average.mean_scale]
  cases (onBalanceSeries bars).getLast? with
  | none => rfl
  | some volume =>
    cases Average.mean (onBalanceSeries bars) period with
    | none => rfl
    | some baseline => cases Average.mean (bars.map Bar.volume) period <;> rfl

/-! ### All indicators -/

namespace Technical

/-- The value of an indicator is rescaled as its form says. -/
theorem raw_rescale (params : Params ℝ) (s : Series ℝ) :
    raw params (s.rescale u) = (raw params s).map (Raw.rescale u) := by
  cases params with
  | rsi period =>
    simp only [raw, Series.closes_rescale, rsi_scale u.price_pos, Option.map_map]
    rfl
  | stochastic kPeriod dPeriod =>
    simp only [raw, Series.rescale_bars, stochastic_rescale, Option.map_map]
    rfl
  | williamsR period =>
    simp only [raw, Series.rescale_bars, williamsR_rescale, Option.map_map]
    rfl
  | macd fast slow signal =>
    simp only [raw, Series.closes_rescale, Series.last?_rescale, macd_scale u.price_pos]
    cases s.last? with
    | none => rfl
    | some last => cases macd s.closes fast slow signal <;> rfl
  | smaCross fast slow =>
    simp only [raw, smaCross, Series.closes_rescale,
      crossOf_scale u.price_pos (Average.means_scale u.price), Option.map_map]
    rfl
  | emaCross fast slow =>
    simp only [raw, emaCross, Series.closes_rescale,
      crossOf_scale u.price_pos (Average.exponentialMeans_scale u.price), Option.map_map]
    rfl
  | bollinger period width =>
    simp only [raw, Series.closes_rescale, Series.last?_rescale, bollinger_scale u.price_pos]
    cases s.last? with
    | none => rfl
    | some last => cases bollinger s.closes period width <;> rfl
  | obv period =>
    simp only [raw, Series.rescale_bars, onBalance_rescale, Option.map_map]
    refine congrArg (Option.map · _) (funext fun v => ?_)
    exact congrArg (Raw.flow · _) (mul_sub _ _ _).symm

end Technical

end MarketVerdict
