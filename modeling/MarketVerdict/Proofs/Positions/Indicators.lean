import MarketVerdict.Proofs.Indicator.Totality
import MarketVerdict.Proofs.Positions.Averages

/-!
# Indicators by position

The built-in indicators as walks over positions. Pairs of neighbours, windows that end at a position,
and lines that start at different bars are all read by position here. Every walk comes to the value of
its indicator, so no indicator reaches outside a list, whatever its parameters and however short the
history.
-/

namespace MarketVerdict.Positions

open Scalar Traversal

variable {β γ : Type}

/-- What `f` makes of each element and the one after it. -/
def pairs (f : β → β → γ) (xs : List β) : Walk (List γ) :=
  (windows 2 xs).mapM fun pair => do return f (← element pair 0) (← element pair 1)

theorem windows_two (a b : β) (rest : List β) :
    windows 2 (a :: b :: rest) = [a, b] :: windows 2 (b :: rest) := rfl

theorem pairs_eq (f : β → β → γ) (xs : List β) : pairs f xs = pure (xs.zipWith f (xs.drop 1)) := by
  induction xs with
  | nil => rfl
  | cons a rest ih =>
    cases rest with
    | nil => rfl
    | cons b rest =>
      rw [pairs] at ih ⊢
      rw [windows_two, List.mapM_cons, ih]
      rfl

theorem mapM_of (f : β → Option γ) (xs : List β) :
    (xs.mapM fun x => Walk.of (f x)) = Walk.of (xs.mapM f) := by
  induction xs with
  | nil => rfl
  | cons x xs ih =>
    rw [List.mapM_cons, List.mapM_cons, ih]
    refine Walk.of_bind fun y _ => ?_
    exact Walk.of_bind fun _ _ => rfl

/-- The complete windows by the position at which they start. -/
theorem windows_eq_map_range {n : ℕ} (hn : 0 < n) (xs : List β) :
    windows n xs = (List.range (xs.length + 1 - n)).map fun i => (xs.drop i).take n := by
  induction xs with
  | nil =>
    have hnone : 0 + 1 - n = 0 := by omega
    rw [List.length_nil, hnone]
    rfl
  | cons x rest ih =>
    simp only [windows, List.length_take, List.length_cons]
    split
    · have hnone : rest.length + 1 + 1 - n = 0 := by omega
      rw [hnone]
      rfl
    · have hsome : rest.length + 1 + 1 - n = rest.length + 1 - n + 1 := by omega
      rw [hsome, List.range_succ_eq_map, List.map_cons, List.map_map, ih]
      rfl

theorem getLast?_eq_getElem {xs : List β} {i : ℕ} (hi : i + 1 = xs.length) :
    xs.getLast? = some xs[i] := by
  have hlast : xs.length - 1 = i := by omega
  rw [List.getLast?_eq_getElem?, hlast, List.getElem?_eq_getElem]

theorem lastButOne?_of_lt {xs : List β} (h : xs.length < 2) : lastButOne? xs = none := by
  rw [lastButOne?, List.getLast?_eq_none_iff, ← List.length_eq_zero_iff, List.length_dropLast]
  omega

theorem lastButOne?_eq_getElem {xs : List β} {i : ℕ} (hi : i + 2 = xs.length) :
    lastButOne? xs = some xs[i] := by
  have hlast : i + 1 = xs.dropLast.length := by
    rw [List.length_dropLast]
    omega
  rw [lastButOne?, getLast?_eq_getElem hlast, List.getElem_dropLast]

variable {α : Type} [Scalar α]

/-! ### Oscillators -/

def rsi (bars : List (Bar α)) (period : ℕ) : Walk α :=
  if period = 0 ∨ bars.length < period + 1 then Walk.of none
  else do
    let changes ← pairs (fun previous current => current.close - previous.close) bars
    let early ← first changes period
    let late ← after changes period
    let average := fun move : α → α =>
      (late.map move).foldl (Rsi.smoothStep period) (sum (early.map move) / period)
    return Rsi.index (average Rsi.gain) (average Rsi.loss)

theorem changes_closes (bars : List (Bar α)) :
    bars.zipWith (fun previous current => current.close - previous.close) (bars.drop 1) =
      Rsi.changes (bars.map Bar.close) := by
  rw [Rsi.changes, ← List.map_drop, List.zipWith_map, List.zipWith_comm]

theorem rsi_eq (bars : List (Bar α)) (period : ℕ) :
    rsi bars period = Walk.of (MarketVerdict.rsi (bars.map Bar.close) period) := by
  rw [rsi, MarketVerdict.rsi, List.length_map]
  split
  · rfl
  · next h =>
    have hlength : period ≤ (Rsi.changes (bars.map Bar.close)).length := by
      rw [Rsi.changes, List.length_zipWith, List.length_drop, List.length_map]
      omega
    rw [pairs_eq, changes_closes, pure_bind, first_eq hlength, pure_bind, after_eq hlength,
      pure_bind]
    simp only [List.map_take, List.map_drop]
    rfl

/-- The place of the close at a position in the range of the `period` bars that end there. -/
def percentK (bars : List (Bar α)) (period last : ℕ) : Walk α := do
  let window ← slice bars (← minus (last + 1) period) (last + 1)
  let highest ← Walk.of (largest? least? (window.map Bar.high))
  let lowest ← Walk.of (smallest? greatest? (window.map Bar.low))
  let range := highest - lowest
  if range == 0 then return 50
  else return 100 * ((← element bars last).close - lowest) / range

theorem percentK_eq {bars : List (Bar α)} {period start : ℕ} (hp : 0 < period)
    (hl : start + period ≤ bars.length) :
    percentK bars period (start + (period - 1)) =
      Walk.of (MarketVerdict.percentK ((bars.drop start).take period)) := by
  have hlast : start + (period - 1) < bars.length := by omega
  have hend : start + (period - 1) + 1 = start + period := by omega
  have hwindow : (bars.take (start + period)).drop start = (bars.drop start).take period := by
    rw [List.drop_take, Nat.add_sub_cancel_left]
  have hclose : ((bars.drop start).take period).getLast? = some bars[start + (period - 1)] := by
    rw [List.getLast?_eq_getElem?, List.length_take, List.length_drop,
      Nat.min_eq_left (by omega : period ≤ bars.length - start), List.getElem?_take,
      if_pos (by omega), List.getElem?_drop, List.getElem?_eq_getElem hlast]
  rw [percentK, hend, minus_eq (by omega : period ≤ start + period), pure_bind,
    Nat.add_sub_cancel, slice_eq (Nat.le_add_right _ _) hl, pure_bind, hwindow,
    MarketVerdict.percentK, hclose, element_eq hlast]
  refine Walk.of_bind fun highest _ => Walk.of_bind fun lowest _ => ?_
  dsimp only
  split <;> rfl

def stochastic (bars : List (Bar α)) (kPeriod dPeriod : ℕ) : Walk (Stochastic α) :=
  if kPeriod = 0 ∨ dPeriod = 0 then Walk.of none
  else do
    if bars.length < (← minus (kPeriod + dPeriod) 1) then Walk.of none
    else
      let start ← minus kPeriod 1
      let ks ← (List.range' start (bars.length - start)).mapM fun last => percentK bars kPeriod last
      let k ← Walk.of ks.getLast?
      let d ← mean ks dPeriod
      return ⟨k, d⟩

theorem ks_eq {bars : List (Bar α)} {period : ℕ} (hp : 0 < period) (hl : period ≤ bars.length) :
    ((List.range' (period - 1) (bars.length - (period - 1))).mapM fun last =>
        percentK bars period last) =
      Walk.of ((windows period bars).mapM MarketVerdict.percentK) := by
  have hcount : bars.length - (period - 1) = bars.length + 1 - period := by omega
  rw [windows_eq_map_range hp, List.mapM_map, ← mapM_of, List.range'_eq_map_range, List.mapM_map,
    hcount]
  refine mapM_congr fun start hstart => ?_
  have hstart : start < bars.length + 1 - period := List.mem_range.mp hstart
  change percentK bars period (period - 1 + start) = _
  rw [Nat.add_comm]
  exact percentK_eq hp (by omega)

theorem stochastic_eq (bars : List (Bar α)) (kPeriod dPeriod : ℕ) :
    stochastic bars kPeriod dPeriod = Walk.of (MarketVerdict.stochastic bars kPeriod dPeriod) := by
  unfold stochastic
  split
  · next h =>
    rw [MarketVerdict.stochastic, if_pos (by omega)]
  · next h =>
    rw [minus_eq (by omega), pure_bind]
    split
    · next hshort =>
      rw [MarketVerdict.stochastic, if_pos (by omega)]
    · next hlong =>
      rw [MarketVerdict.stochastic, if_neg (by omega), minus_eq (by omega), pure_bind,
        ks_eq (by omega) (by omega)]
      refine Walk.of_bind fun ks _ => Walk.of_bind fun k _ => ?_
      rw [mean_eq]
      exact Walk.of_bind fun d _ => rfl

def williamsR (bars : List (Bar α)) (period : ℕ) : Walk α := do
  let highest ← highest (bars.map Bar.high) period
  let lowest ← lowest (bars.map Bar.low) period
  let last ← Walk.of bars.getLast?
  let range := highest - lowest
  return if range == 0 then -50 else -100 * (highest - last.close) / range

theorem williamsR_eq (bars : List (Bar α)) (period : ℕ) :
    williamsR bars period = Walk.of (MarketVerdict.williamsR bars period) := by
  rw [williamsR, MarketVerdict.williamsR, highest_eq]
  refine Walk.of_bind fun highest _ => ?_
  rw [lowest_eq]
  exact Walk.of_bind fun lowest _ => Walk.of_bind fun last _ => rfl

/-! ### Lines that cross -/

def ofLines (fast slow : List α) : Walk (Cross α) := do
  let fastNow ← Walk.of fast.getLast?
  let slowNow ← Walk.of slow.getLast?
  if 2 ≤ fast.length ∧ 2 ≤ slow.length then
    let previous := (← element fast (fast.length - 2)) - (← element slow (slow.length - 2))
    return ⟨fastNow, slowNow, Direction.ofCrossing (some previous) (fastNow - slowNow)⟩
  else return ⟨fastNow, slowNow, Direction.ofCrossing none (fastNow - slowNow)⟩

theorem ofLines_eq (fast slow : List α) : ofLines fast slow = Walk.of (Cross.ofLines fast slow) := by
  rw [ofLines, Cross.ofLines]
  refine Walk.of_bind fun fastNow _ => Walk.of_bind fun slowNow _ => ?_
  split
  · next h =>
    rw [element_eq (by omega), pure_bind, element_eq (by omega), pure_bind,
      lastButOne?_eq_getElem (by omega : fast.length - 2 + 2 = fast.length),
      lastButOne?_eq_getElem (by omega : slow.length - 2 + 2 = slow.length)]
    rfl
  · next h =>
    by_cases hfast : 2 ≤ fast.length
    · rw [lastButOne?_eq_getElem (by omega : fast.length - 2 + 2 = fast.length),
        lastButOne?_of_lt (by omega : slow.length < 2)]
      rfl
    · rw [lastButOne?_of_lt (by omega : fast.length < 2)]
      rfl

/-- The crossing of two averages of the closes, by the averages in use. -/
def crossOf (averages : List α → ℕ → Walk (List α)) (closes : List α) (fast slow : ℕ) :
    Walk (Cross α) :=
  if fast = 0 ∨ slow ≤ fast ∨ closes.length < slow then Walk.of none
  else do ofLines (← averages closes fast) (← averages closes slow)

theorem crossOf_eq {averages : List α → ℕ → Walk (List α)} {plain : List α → ℕ → List α}
    (h : ∀ closes period, averages closes period = pure (plain closes period)) (closes : List α)
    (fast slow : ℕ) :
    crossOf averages closes fast slow = Walk.of (MarketVerdict.crossOf plain closes fast slow) := by
  unfold crossOf MarketVerdict.crossOf
  split
  · rfl
  · rw [h, pure_bind, h, pure_bind, ofLines_eq]

/-- The fast average less the slow one, which starts `slow - fast` bars later. -/
def line (closes : List α) (fast slow : ℕ) : Walk (List α) := do
  let fastMeans ← exponentialMeans closes fast
  let slowMeans ← exponentialMeans closes slow
  let offset ← minus slow fast
  slowMeans.zipIdx.mapM fun mean => do return (← element fastMeans (mean.2 + offset)) - mean.1

def histogram (line signals : List α) (signal i : ℕ) : Walk α := do
  return (← element line (← minus (i + signal) 1)) - (← element signals i)

/-- The two lines and their difference at the last bar, from the line and its smoothed values. -/
def atLast (line signals : List α) (signal : ℕ) : Walk (Macd α) :=
  if signals.length = 0 then Walk.of none
  else do
    let last := signals.length - 1
    let previous ← if last = 0 then pure none else some <$> histogram line signals signal (last - 1)
    let current ← histogram line signals signal last
    return {
      macd := ← element line (← minus (last + signal) 1)
      signal := ← element signals last
      histogram := current
      crossed := Direction.ofCrossing previous current }

def macd (closes : List α) (fast slow signal : ℕ) : Walk (Macd α) :=
  if fast = 0 ∨ slow ≤ fast ∨ signal = 0 then Walk.of none
  else do
    if closes.length < (← minus (slow + signal) 1) then Walk.of none
    else
      let line ← line closes fast slow
      let signals ← exponentialMeans line signal
      atLast line signals signal

theorem mapM_zipIdx_eq {xs ys : List α} {k n : ℕ} (h : n + ys.length + k ≤ xs.length) :
    ((ys.zipIdx n).mapM fun y => do return (← element xs (y.2 + k)) - y.1) =
      (pure ((xs.drop (n + k)).zipWith (· - ·) ys) : Walk (List α)) := by
  induction ys generalizing n with
  | nil => simp
  | cons y ys ih =>
    rw [List.length_cons] at h
    have hn : n + k < xs.length := by omega
    have hnext : n + 1 + k = n + k + 1 := by omega
    rw [List.zipIdx_cons, List.mapM_cons, element_eq hn, ih (by omega), hnext,
      List.drop_eq_getElem_cons hn]
    rfl

theorem line_eq {closes : List α} {fast slow : ℕ} (hf : 0 < fast) (hs : fast < slow)
    (hl : slow ≤ closes.length) : line closes fast slow = pure (Macd.line closes fast slow) := by
  have hfast := Average.length_exponentialMeans hf (by omega : fast ≤ closes.length)
  have hslow := Average.length_exponentialMeans (by omega : 0 < slow) hl
  rw [line, exponentialMeans_eq, pure_bind, exponentialMeans_eq, pure_bind,
    minus_eq (by omega), pure_bind, mapM_zipIdx_eq (by omega), Nat.zero_add]
  rfl

theorem histogram_eq {line signals : List α} {signal i : ℕ} (hsignal : 0 < signal)
    (hi : i < (Macd.histograms line signals signal).length) :
    histogram line signals signal i = pure (Macd.histograms line signals signal)[i] := by
  have hbounds := hi
  rw [Macd.histograms, List.length_zipWith, List.length_drop] at hbounds
  have hposition : i + signal - 1 = signal - 1 + i := by omega
  simp only [Macd.histograms, List.getElem_zipWith, List.getElem_drop]
  rw [histogram, minus_eq (by omega), pure_bind, hposition, element_eq (by omega), pure_bind,
    element_eq (by omega), pure_bind]

theorem atLast_eq {line signals : List α} {signal last : ℕ} (hsignal : 0 < signal)
    (hsignals : last + 1 = signals.length) (hline : last + (signal - 1) + 1 = line.length) :
    atLast line signals signal = Walk.of (do
      let histogram ← (Macd.histograms line signals signal).getLast?
      return {
        macd := ← line.getLast?
        signal := ← signals.getLast?
        histogram := histogram
        crossed :=
          Direction.ofCrossing (lastButOne? (Macd.histograms line signals signal)) histogram }) := by
  -- Both parts of a histogram end on the last bar, so there is one for each smoothed value.
  have hlength : last + 1 = (Macd.histograms line signals signal).length := by
    rw [Macd.histograms, List.length_zipWith, List.length_drop]
    omega
  have hlast : signals.length - 1 = last := by omega
  have hposition : last + signal - 1 = last + (signal - 1) := by omega
  rw [atLast, if_neg (by omega), getLast?_eq_getElem hlength, getLast?_eq_getElem hsignals,
    getLast?_eq_getElem hline]
  simp only [hlast]
  rw [histogram_eq hsignal (by omega), minus_eq (by omega), hposition]
  simp only [pure_bind]
  rw [element_eq (by omega), element_eq (by omega)]
  split
  · next hzero =>
    rw [lastButOne?_of_lt (by omega)]
    rfl
  · next hsome =>
    rw [lastButOne?_eq_getElem (by omega : last - 1 + 2 = _), histogram_eq hsignal (by omega)]
    rfl

theorem macd_eq (closes : List α) (fast slow signal : ℕ) :
    macd closes fast slow signal = Walk.of (MarketVerdict.macd closes fast slow signal) := by
  unfold macd
  split
  · next h => rw [MarketVerdict.macd, if_pos (by omega)]
  · next h =>
    rw [minus_eq (by omega), pure_bind]
    split
    · next hshort => rw [MarketVerdict.macd, if_pos (by omega)]
    · next hlong =>
      have hline := Macd.length_line (by omega : 0 < fast) (by omega : fast < slow)
        (by omega : slow ≤ closes.length)
      have hsignals := Average.length_exponentialMeans (by omega : 0 < signal)
        (by omega : signal ≤ (Macd.line closes fast slow).length)
      rw [MarketVerdict.macd, if_neg (by omega), line_eq (by omega) (by omega) (by omega),
        pure_bind, exponentialMeans_eq, pure_bind]
      exact atLast_eq (by omega) hsignals.symm (by omega)

/-! ### Bands and volume -/

def bollinger (closes : List α) (period : ℕ) (width : α) : Walk (Bollinger α) := do
  let middle ← mean closes period
  let deviation ← deviation closes period
  return ⟨middle + width * deviation, middle, middle - width * deviation⟩

theorem bollinger_eq (closes : List α) (period : ℕ) (width : α) :
    bollinger closes period width = Walk.of (MarketVerdict.bollinger closes period width) := by
  rw [bollinger, MarketVerdict.bollinger, mean_eq]
  refine Walk.of_bind fun middle _ => ?_
  rw [deviation_eq]
  exact Walk.of_bind fun deviation _ => rfl

/-- The running total after each pair of neighbours. -/
def totals (total : α) : List (List (Bar α)) → Walk (List α)
  | [] => pure []
  | pair :: rest => do
    let total := OnBalance.step total (← element pair 0) (← element pair 1)
    return total :: (← totals total rest)

def onBalance (bars : List (Bar α)) (period : ℕ) : Walk (OnBalance α) :=
  if period = 0 ∨ bars.length < period + 1 then Walk.of none
  else do
    let later ← totals 0 (windows 2 bars)
    let totals := if bars.isEmpty then [] else 0 :: later
    let volume ← Walk.of totals.getLast?
    let baseline ← mean totals period
    let averageVolume ← mean (bars.map Bar.volume) period
    return ⟨volume, baseline, averageVolume⟩

theorem totals_eq (total : α) (bar : Bar α) (bars : List (Bar α)) :
    totals total (windows 2 (bar :: bars)) = pure (OnBalance.totals total bar bars) := by
  induction bars generalizing total bar with
  | nil => rfl
  | cons next rest ih =>
    rw [windows_two, totals, element_eq (by simp), element_eq (by simp)]
    simp only [pure_bind]
    rw [ih]
    rfl

theorem onBalance_eq (bars : List (Bar α)) (period : ℕ) :
    onBalance bars period = Walk.of (MarketVerdict.onBalance bars period) := by
  unfold onBalance MarketVerdict.onBalance
  split
  · rfl
  · next h =>
    obtain ⟨bar, rest, rfl⟩ := List.exists_cons_of_length_pos (by omega : 0 < bars.length)
    rw [totals_eq, pure_bind]
    refine Walk.of_bind fun volume _ => ?_
    rw [mean_eq]
    refine Walk.of_bind fun baseline _ => ?_
    rw [mean_eq]
    exact Walk.of_bind fun averageVolume _ => rfl

/-! ### The value of any specification -/

def raw (params : Params α) (s : Series α) : Walk (Raw α) :=
  match params with
  | .rsi period => do return .level (← rsi s.bars period)
  | .stochastic kPeriod dPeriod => do return .level (← stochastic s.bars kPeriod dPeriod).d
  | .williamsR period => do return .level (← williamsR s.bars period)
  | .macd fast slow signal => do
    let last ← Walk.of s.last?
    let m ← macd s.closes fast slow signal
    return .spread m.macd m.signal last.close m.crossed
  | .smaCross fast slow => do return Technical.ofCross (← crossOf means s.closes fast slow)
  | .emaCross fast slow => do return Technical.ofCross (← crossOf exponentialMeans s.closes fast slow)
  | .bollinger period width => do
    let last ← Walk.of s.last?
    let b ← bollinger s.closes period width
    return .band last.close b.lower b.middle b.upper
  | .obv period => do
    let v ← onBalance s.bars period
    return .flow (v.volume - v.baseline) v.averageVolume

theorem Walk.map_of (f : β → γ) (o : Option β) :
    (do return f (← Walk.of o)) = Walk.of (o.map f) := by
  cases o <;> rfl

/-- No indicator overruns, and each comes by position to the value it has. -/
theorem raw_eq (params : Params α) (s : Series α) :
    raw params s = Walk.of (Technical.raw params s) := by
  cases params with
  | rsi period =>
    rw [raw, rsi_eq]
    exact Walk.map_of ..
  | stochastic kPeriod dPeriod =>
    rw [raw, stochastic_eq]
    exact Walk.map_of (fun v : Stochastic α => Raw.level v.d) _
  | williamsR period =>
    rw [raw, williamsR_eq]
    exact Walk.map_of ..
  | macd fast slow signal =>
    refine Walk.of_bind fun last _ => ?_
    rw [macd_eq]
    exact Walk.of_bind fun m _ => rfl
  | smaCross fast slow =>
    rw [raw, crossOf_eq means_eq]
    exact Walk.map_of ..
  | emaCross fast slow =>
    rw [raw, crossOf_eq exponentialMeans_eq]
    exact Walk.map_of ..
  | bollinger period width =>
    refine Walk.of_bind fun last _ => ?_
    rw [bollinger_eq]
    exact Walk.of_bind fun b _ => rfl
  | obv period =>
    rw [raw, onBalance_eq]
    exact Walk.map_of (fun v : OnBalance α => Raw.flow (v.volume - v.baseline) v.averageVolume) _

end MarketVerdict.Positions
