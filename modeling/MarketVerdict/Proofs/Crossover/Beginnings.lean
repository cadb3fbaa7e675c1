import Mathlib.Data.List.TakeDrop
import MarketVerdict.Proofs.Positions.Indicators

/-!
# Lines over the beginning of a history

What comes later changes no average that was there before: the averages over the first values are the
first of the averages over all of them, to the last bit, since each is computed from the one before
it. So it is with the lines that are made of averages, and without the last value such a line just
loses its last element.
-/

namespace MarketVerdict

variable {α : Type}

/-- A shorter list decides how far two lists go together. -/
theorem zipWith_take_of_le {β γ δ : Type} (f : β → γ → δ) {m n : ℕ} (h : m ≤ n) (xs : List β)
    (ys : List γ) : (xs.take m).zipWith f (ys.take n) = (xs.zipWith f ys).take m := by
  induction xs generalizing m n ys with
  | nil => rw [List.take_nil, List.zipWith_nil_left, List.zipWith_nil_left, List.take_nil]
  | cons x xs ih =>
    cases m with
    | zero => rfl
    | succ m =>
      obtain ⟨n, rfl⟩ := Nat.exists_eq_add_of_lt h
      cases ys with
      | nil => rfl
      | cons y ys => exact congrArg (f x y :: ·) (ih (by omega) ys)

variable [Scalar α]

namespace Average

theorem rolling_take (period : ℕ) (total : α) (changes : List α) (n : ℕ) :
    rolling period total (changes.take n) = (rolling period total changes).take n := by
  induction changes generalizing total n with
  | nil => rw [List.take_nil, rolling, List.take_nil]
  | cons change rest ih =>
    cases n with
    | zero => rfl
    | succ n => exact congrArg (_ :: ·) (ih (total + change) n)

theorem smoothed_take (period : ℕ) (previous : α) (values : List α) (n : ℕ) :
    smoothed period previous (values.take n) = (smoothed period previous values).take n := by
  induction values generalizing previous n with
  | nil => rw [List.take_nil, smoothed, List.take_nil]
  | cons value rest ih =>
    cases n with
    | zero => rfl
    | succ n => exact congrArg (_ :: ·) (ih (exponentialStep value previous period) n)

/-- Averages of the complete windows that do not look ahead. -/
structure Causal (averages : List α → ℕ → List α) : Prop where
  length : ∀ {values : List α} {period : ℕ}, 0 < period → period ≤ values.length →
    (averages values period).length = values.length - period + 1
  take : ∀ {values : List α} {period n : ℕ}, 0 < period → period ≤ n → n ≤ values.length →
    averages (values.take n) period = (averages values period).take (n + 1 - period)

theorem causal_means : Causal (means : List α → ℕ → List α) where
  length := length_means
  take := by
    intro values period n hp hn hl
    have hwindow : (values.take n).take period = values.take period := by
      rw [List.take_take, Nat.min_eq_left hn]
    have hlength : n + 1 - period = n - period + 1 := by omega
    rw [means, means, if_neg (by rw [List.length_take]; omega), if_neg (by omega)]
    dsimp only
    rw [hwindow, List.drop_take, zipWith_take_of_le _ (Nat.sub_le n period), rolling_take, hlength,
      List.take_succ_cons]

theorem causal_exponentialMeans : Causal (exponentialMeans : List α → ℕ → List α) where
  length := length_exponentialMeans
  take := by
    intro values period n hp hn hl
    have hwindow : (values.take n).take period = values.take period := by
      rw [List.take_take, Nat.min_eq_left hn]
    have hlength : n + 1 - period = n - period + 1 := by omega
    rw [exponentialMeans, exponentialMeans, if_neg (by rw [List.length_take]; omega),
      if_neg (by omega)]
    dsimp only
    rw [hwindow, List.drop_take, smoothed_take, hlength, List.take_succ_cons]

omit [Scalar α] in
/-- The last average needs the last value, and no other average does. -/
theorem Causal.dropLast {averages : List α → ℕ → List α} (h : Causal averages) {values : List α}
    {period : ℕ} (hp : 0 < period) (hl : period < values.length) :
    averages values.dropLast period = (averages values period).dropLast := by
  rw [List.dropLast_eq_take, List.dropLast_eq_take, h.take hp (by omega) (by omega),
    h.length hp (by omega)]
  congr 1
  omega

end Average

open Average

/-! ### Lines that end on the same bar -/

theorem getLast?_zipWith {β γ δ : Type} (f : β → γ → δ) {xs : List β} {ys : List γ} {x : β} {y : γ}
    (h : xs.length = ys.length) (hx : xs.getLast? = some x) (hy : ys.getLast? = some y) :
    (xs.zipWith f ys).getLast? = some (f x y) := by
  rw [List.getLast?_eq_getElem?] at hx hy ⊢
  rw [List.length_zipWith, h, Nat.min_self, List.getElem?_zipWith, ← h, hx, h, hy]

theorem zipWith_dropLast {β γ δ : Type} (f : β → γ → δ) {xs : List β} {ys : List γ}
    (h : xs.length = ys.length) :
    xs.dropLast.zipWith f ys.dropLast = (xs.zipWith f ys).dropLast := by
  rw [List.dropLast_eq_take, List.dropLast_eq_take, List.dropLast_eq_take, List.length_zipWith, h,
    Nat.min_self, List.take_zipWith]

namespace Cross

/-- One bar ago both lines stood at their elements before the last. -/
theorem ofLines_dropLast (fast slow : List α) :
    (ofLines fast.dropLast slow.dropLast).map (fun c => c.fast - c.slow) =
      (do return (← lastButOne? fast) - (← lastButOne? slow)) := by
  change (ofLines fast.dropLast slow.dropLast).map _ =
    (do return (← fast.dropLast.getLast?) - (← slow.dropLast.getLast?))
  simp only [ofLines]
  cases fast.dropLast.getLast? with
  | none => rfl
  | some x => cases slow.dropLast.getLast? <;> rfl

theorem crossed_of_ofLines {fast slow : List α} {c : Cross α} (h : ofLines fast slow = some c) :
    c.crossed = Direction.ofCrossing
      ((ofLines fast.dropLast slow.dropLast).map fun c => c.fast - c.slow) (c.fast - c.slow) := by
  rw [ofLines_dropLast]
  obtain ⟨_, _, h⟩ := Option.bind_eq_some_iff.mp h
  obtain ⟨_, _, h⟩ := Option.bind_eq_some_iff.mp h
  cases h
  rfl

end Cross

/-- On the first bar with two lines there is nothing to compare them with. -/
theorem crossed_of_crossOf {averages : List α → ℕ → List α} (haverages : Causal averages)
    {closes : List α} {fast slow : ℕ} {c : Cross α} (h : crossOf averages closes fast slow = some c) :
    c.crossed = Direction.ofCrossing
      ((crossOf averages closes.dropLast fast slow).map fun c => c.fast - c.slow)
      (c.fast - c.slow) := by
  unfold crossOf at h
  split at h
  · cases h
  · rw [Cross.crossed_of_ofLines h]
    congr 1
    by_cases hl : slow < closes.length
    · rw [crossOf, if_neg (by rw [List.length_dropLast]; omega),
        haverages.dropLast (by omega) (by omega), haverages.dropLast (by omega) hl]
    · have hslow : (averages closes slow).length = closes.length - slow + 1 :=
        haverages.length (by omega) (by omega)
      have hshort : (averages closes slow).length < 2 := by omega
      rw [Cross.ofLines_dropLast, Positions.lastButOne?_of_lt hshort,
        crossOf, if_pos (by rw [List.length_dropLast]; omega)]
      cases lastButOne? (averages closes fast) <;> rfl

namespace Macd

variable {closes : List α} {fast slow signal : ℕ}

theorem line_dropLast (hf : 0 < fast) (hs : fast < slow) (hl : slow < closes.length) :
    Macd.line closes.dropLast fast slow = (Macd.line closes fast slow).dropLast := by
  have hlengths : ((exponentialMeans closes fast).drop (slow - fast)).length =
      (exponentialMeans closes slow).length := by
    rw [List.length_drop, length_exponentialMeans hf (by omega),
      length_exponentialMeans (by omega) (by omega)]
    omega
  rw [Macd.line, causal_exponentialMeans.dropLast hf (by omega),
    causal_exponentialMeans.dropLast (by omega) hl, ← List.dropLast_drop_eq_drop_dropLast,
    zipWith_dropLast _ hlengths, Macd.line]

/-- The line smoothed. -/
def signalLine (closes : List α) (fast slow signal : ℕ) : List α :=
  exponentialMeans (line closes fast slow) signal

/-- The line less its smoothed form. -/
def differences (closes : List α) (fast slow signal : ℕ) : List α :=
  histograms (line closes fast slow) (signalLine closes fast slow signal) signal

/-- The bars reach as far as the smoothing needs. -/
structure Covered (closes : List α) (fast slow signal : ℕ) : Prop where
  fast_pos : 0 < fast
  fast_lt : fast < slow
  signal_pos : 0 < signal
  long : slow + signal - 1 ≤ closes.length

namespace Covered

variable (h : Covered closes fast slow signal)

include h

theorem length_line : (line closes fast slow).length = closes.length - slow + 1 := by
  obtain ⟨hf, hs, hsignal, hl⟩ := h
  exact Macd.length_line hf hs (by omega)

theorem length_signalLine :
    (signalLine closes fast slow signal).length = closes.length - slow + 1 - signal + 1 := by
  have hline := h.length_line
  obtain ⟨hf, hs, hsignal, hl⟩ := h
  rw [signalLine, length_exponentialMeans hsignal (by omega), hline]

/-- There is one difference for each smoothed value. -/
theorem length_drop_line : ((line closes fast slow).drop (signal - 1)).length =
    (signalLine closes fast slow signal).length := by
  rw [List.length_drop, h.length_line, h.length_signalLine]
  obtain ⟨hf, hs, hsignal, hl⟩ := h
  omega

theorem length_differences : (differences closes fast slow signal).length =
    closes.length - slow + 1 - signal + 1 := by
  rw [differences, histograms, List.length_zipWith, h.length_drop_line, Nat.min_self,
    h.length_signalLine]

theorem differences_dropLast (hl : slow + signal - 1 < closes.length) :
    differences closes.dropLast fast slow signal = (differences closes fast slow signal).dropLast := by
  have hline := h.length_line
  have hlengths := h.length_drop_line
  obtain ⟨hf, hs, hsignal, _⟩ := h
  rw [signalLine] at hlengths
  rw [differences, differences, signalLine, signalLine, line_dropLast hf hs (by omega),
    causal_exponentialMeans.dropLast hsignal (by omega), histograms, histograms,
    ← List.dropLast_drop_eq_drop_dropLast, zipWith_dropLast _ hlengths]

end Covered

/-- What is reported at the last bar. -/
structure Shown (closes : List α) (fast slow signal : ℕ) (m : Macd α) : Prop where
  covered : Covered closes fast slow signal
  lastMacd : (line closes fast slow).getLast? = some m.macd
  lastSignal : (signalLine closes fast slow signal).getLast? = some m.signal
  lastHistogram : (differences closes fast slow signal).getLast? = some m.histogram
  crossed : m.crossed =
    Direction.ofCrossing (lastButOne? (differences closes fast slow signal)) m.histogram

theorem shown_of_eq_some {m : Macd α} (h : MarketVerdict.macd closes fast slow signal = some m) :
    Shown closes fast slow signal m := by
  unfold MarketVerdict.macd at h
  split at h
  · cases h
  · obtain ⟨histogram, hhistogram, h⟩ := Option.bind_eq_some_iff.mp h
    obtain ⟨x, hx, h⟩ := Option.bind_eq_some_iff.mp h
    obtain ⟨y, hy, h⟩ := Option.bind_eq_some_iff.mp h
    cases h
    exact ⟨⟨by omega, by omega, by omega, by omega⟩, hx, hy, hhistogram, rfl⟩

theorem Shown.histogram_eq {m : Macd α} (h : Shown closes fast slow signal m) :
    m.histogram = m.macd - m.signal := by
  have hlast : ((line closes fast slow).drop (signal - 1)).getLast? = some m.macd := by
    rw [List.getLast?_drop, if_neg, h.lastMacd]
    have hline := h.covered.length_line
    obtain ⟨hf, hs, hsignal, hl⟩ := h.covered
    omega
  have hzip := getLast?_zipWith (· - ·) h.covered.length_drop_line hlast h.lastSignal
  exact Option.some.inj (h.lastHistogram.symm.trans hzip)

/-- One bar ago the histogram stood at its element before the last. -/
theorem Shown.crossed_eq {m : Macd α} (h : Shown closes fast slow signal m) :
    m.crossed = Direction.ofCrossing
      ((MarketVerdict.macd closes.dropLast fast slow signal).map Macd.histogram) m.histogram := by
  rw [h.crossed]
  congr 1
  obtain ⟨hf, hs, hsignal, _⟩ := h.covered
  by_cases hl : slow + signal - 1 < closes.length
  · obtain ⟨m', hm'⟩ := exists_macd hf hs hsignal
      (by rw [List.length_dropLast]; omega : slow + signal - 1 ≤ closes.dropLast.length)
    have hprevious := (shown_of_eq_some hm').lastHistogram
    rw [h.covered.differences_dropLast hl] at hprevious
    rw [hm']
    exact hprevious
  · have hlength := h.covered.length_differences
    rw [MarketVerdict.macd, if_pos (by rw [List.length_dropLast]; omega)]
    exact Positions.lastButOne?_of_lt (by omega)

end Macd

end MarketVerdict
