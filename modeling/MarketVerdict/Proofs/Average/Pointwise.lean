import MarketVerdict.Proofs.Lookback.Windows

/-!
# Rolling averages, window by window

A rolling average carries one sum along a list, to which each step adds the value that enters the
window and from which it takes the value that leaves it. Nothing is lost on the way: every average
of the line is the plain average of the window that it stands for, whatever came before that window.
-/

namespace MarketVerdict.Average

open Scalar

variable {values : List ℝ} {period i : ℕ}

theorem window?_take {β : Type} {values : List β} (hp : 0 < period)
    (h : period + i ≤ values.length) :
    window? (values.take (period + i)) period = some ((values.drop i).take period) := by
  have hlength : (values.take (period + i)).length = period + i := List.length_take_of_le h
  rw [window?, hlength, if_neg (by omega), Nat.add_sub_cancel_left, List.drop_take,
    Nat.add_sub_cancel]

/-- The plain average of the first values is that of the last window among them. -/
theorem mean_take (hp : 0 < period) (h : period + i ≤ values.length) :
    mean (values.take (period + i)) period =
      some (((values.drop i).take period).sum / period) := by
  rw [mean, window?_take hp h, Option.map_some, sum_real]

theorem head?_means (hp : 0 < period) (h : period ≤ values.length) :
    (means values period).head? = some ((values.take period).sum / period) := by
  rw [means, if_neg (by omega), sum_real]
  rfl

/-- The line begins anew at every window, so each of its elements is the first of some line. -/
theorem getElem?_means (hp : 0 < period) (h : period + i ≤ values.length) :
    (means values period)[i]? = some (((values.drop i).take period).sum / period) := by
  have hrest : period ≤ (values.drop i).length := by
    rw [List.length_drop]
    omega
  rw [← List.head?_drop, ← means_drop hp, head?_means hp hrest]

theorem getLast?_means (hp : 0 < period) (values : List ℝ) :
    (means values period).getLast? = mean values period := by
  by_cases h : period ≤ values.length
  · have hlast : period + (values.length - period) = values.length := by omega
    rw [List.getLast?_eq_getElem?, length_means hp h, Nat.add_sub_cancel,
      getElem?_means hp hlast.le, ← mean_take hp hlast.le, hlast, List.take_length]
  · rw [means_eq_nil (by omega), mean, window?, if_pos (Or.inr (by omega))]
    rfl

/-- The rolling averages of a list beside the plain averages of its windows. -/
structure Pointwise (values : List ℝ) (period : ℕ) : Prop where
  short : values.length < period → means values period = []
  length : period ≤ values.length →
    (means values period).length = values.length - period + 1
  plain : ∀ i, period + i ≤ values.length →
    (means values period)[i]? = mean (values.take (period + i)) period
  window : ∀ i, period + i ≤ values.length →
    mean (values.take (period + i)) period = some (((values.drop i).take period).sum / period)
  last : (means values period).getLast? = mean values period

/-- One rolling sum gives the plain average of every complete window, each at its place. -/
theorem means_pointwise {period : ℕ} (hp : 0 < period) (values : List ℝ) :
    Pointwise values period where
  short := means_eq_nil
  length := length_means hp
  plain := fun _ h => (getElem?_means hp h).trans (mean_take hp h).symm
  window := fun _ h => mean_take hp h
  last := getLast?_means hp values

/-- Five values in windows of three, the last of them of the last three values. -/
theorem means_pointwise_doubling :
    (means ([1, 2, 4, 8, 16] : List ℝ) 3).length = 3 ∧
      (means ([1, 2, 4, 8, 16] : List ℝ) 3)[1]? = some (14 / 3) ∧
      (means ([1, 2, 4, 8, 16] : List ℝ) 3).getLast? = some (28 / 3) ∧
      means ([1, 2] : List ℝ) 3 = [] := by
  have hline : Pointwise [1, 2, 4, 8, 16] 3 := means_pointwise three_pos _
  have hlast : mean ([1, 2, 4, 8, 16] : List ℝ) 3 = some (28 / 3) := by
    refine (hline.window 2 (by decide)).trans ?_
    norm_num
  refine ⟨hline.length (by decide), ?_, hline.last.trans hlast,
    (means_pointwise three_pos [1, 2]).short (by decide)⟩
  rw [hline.plain 1 (by decide), hline.window 1 (by decide)]
  norm_num

end MarketVerdict.Average
