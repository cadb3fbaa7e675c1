import MarketVerdict.Proofs.Average.Affine
import MarketVerdict.Technical

/-!
# Lines of moved prices

Prices that all go from `x` to `a * x + b` take along the lines that indicators draw from them:
averages go the same way, and differences of prices are multiplied by `a`. Where `a` is negative,
what rose now falls, and a line that crossed another upwards crosses it downwards.
-/

namespace MarketVerdict

open Scalar

namespace Direction

def opposite : Direction → Direction
  | bearish => bullish
  | neutral => neutral
  | bullish => bearish

theorem ofSign_neg (x : ℝ) : ofSign (-x) = (ofSign x).opposite := by
  rcases lt_trichotomy x 0 with h | rfl | h
  · rw [ofSign_of_pos (neg_pos.mpr h), ofSign_of_neg h]
    rfl
  · rw [neg_zero, ofSign_zero]
    rfl
  · rw [ofSign_of_neg (neg_neg_of_pos h), ofSign_of_pos h]
    rfl

/-- The direction of a quantity once it is multiplied by `a`. -/
noncomputable def along (a : ℝ) (d : Direction) : Direction := if 0 < a then d else d.opposite

theorem along_of_pos {a : ℝ} (h : 0 < a) : along a = id := funext fun _ => if_pos h

theorem along_of_neg {a : ℝ} (h : a < 0) : along a = opposite := funext fun _ => if_neg h.not_gt

theorem ofCrossing_mul {a : ℝ} (ha : a ≠ 0) (previous : Option ℝ) (current : ℝ) :
    ofCrossing (previous.map (a * ·)) (a * current) =
      (ofCrossing previous current).map (along a) := by
  cases previous with
  | none => rfl
  | some previous =>
    rcases ha.lt_or_gt with ha | ha
    · have hpos (x : ℝ) : 0 < a * x ↔ x < 0 := smul_pos_iff_of_neg_left ha
      have hneg (x : ℝ) : a * x < 0 ↔ 0 < x := smul_neg_iff_of_neg_left ha
      have hnonpos (x : ℝ) : a * x ≤ 0 ↔ 0 ≤ x := by rw [← not_lt, hpos, not_lt]
      have hnonneg (x : ℝ) : 0 ≤ a * x ↔ x ≤ 0 := by rw [← not_lt, hneg, not_lt]
      simp only [Option.map_some, ofCrossing, hpos, hneg, hnonpos, hnonneg, along_of_neg ha]
      split_ifs with hfalls hrises
      · exact absurd hfalls.2 hrises.2.not_gt
      all_goals rfl
    · have hneg (x : ℝ) : a * x < 0 ↔ x < 0 := smul_neg_iff_of_pos_left ha
      have hnonpos (x : ℝ) : a * x ≤ 0 ↔ x ≤ 0 := smul_nonpos_iff_nonpos_of_pos_left ha
      simp only [Option.map_some, ofCrossing, hneg, hnonpos, mul_pos_iff_of_pos_left ha,
        mul_nonneg_iff_of_pos_left ha, along_of_pos ha, Option.map_id, id_eq]

end Direction

theorem windows_map {β γ : Type} (f : β → γ) (n : ℕ) (xs : List β) :
    windows n (xs.map f) = (windows n xs).map (List.map f) := by
  induction xs with
  | nil => rfl
  | cons x rest ih =>
    simp only [List.map_cons, windows, ih]
    rw [← List.map_cons, ← List.map_take, List.length_map]
    split <;> rfl

theorem lastButOne?_map {β γ : Type} (f : β → γ) (xs : List β) :
    lastButOne? (xs.map f) = (lastButOne? xs).map f := by
  rw [lastButOne?, lastButOne?, ← List.map_dropLast, List.getLast?_map]

variable {a : ℝ} (b : ℝ)

theorem Rsi.changes_affine (a : ℝ) (closes : List ℝ) :
    changes (closes.map fun x => a * x + b) = (changes closes).map (a * ·) := by
  rw [changes, changes, ← List.map_drop, Average.differences_affine]

/-! ### Two averages -/

namespace Cross

noncomputable def affine (a b : ℝ) (x : Cross ℝ) : Cross ℝ :=
  ⟨a * x.fast + b, a * x.slow + b, x.crossed.map (Direction.along a)⟩

theorem ofLines_affine (ha : a ≠ 0) (fast slow : List ℝ) :
    ofLines (fast.map fun x => a * x + b) (slow.map fun x => a * x + b) =
      (ofLines fast slow).map (affine a b) := by
  have hdifference (x y : ℝ) : a * x + b - (a * y + b) = a * (x - y) := by ring
  unfold ofLines
  rw [List.getLast?_map, List.getLast?_map, lastButOne?_map, lastButOne?_map]
  cases fast.getLast? with
  | none => rfl
  | some fastNow =>
    cases slow.getLast? with
    | none => rfl
    | some slowNow =>
      have hprevious : (do
            let x ← (lastButOne? fast).map fun x => a * x + b
            let y ← (lastButOne? slow).map fun x => a * x + b
            return x - y : Option ℝ) =
          (do return (← lastButOne? fast) - (← lastButOne? slow) : Option ℝ).map (a * ·) := by
        cases lastButOne? fast with
        | none => rfl
        | some x =>
          cases lastButOne? slow with
          | none => rfl
          | some y => exact congrArg some (hdifference x y)
      change some (Cross.mk _ _ (Direction.ofCrossing _ (a * fastNow + b - (a * slowNow + b)))) =
        some _
      rw [hprevious, hdifference, Direction.ofCrossing_mul ha]
      rfl

end Cross

theorem crossOf_affine {averages : List ℝ → ℕ → List ℝ} (ha : a ≠ 0)
    (haverages : ∀ values period, averages (values.map fun x => a * x + b) period =
      (averages values period).map fun x => a * x + b)
    (closes : List ℝ) (fast slow : ℕ) :
    crossOf averages (closes.map fun x => a * x + b) fast slow =
      (crossOf averages closes fast slow).map (Cross.affine a b) := by
  unfold crossOf
  rw [List.length_map, haverages, haverages, Cross.ofLines_affine b ha]
  split <;> rfl

/-! ### Differences of averages -/

namespace Macd

noncomputable def multiply (a : ℝ) (m : Macd ℝ) : Macd ℝ :=
  ⟨a * m.macd, a * m.signal, a * m.histogram, m.crossed.map (Direction.along a)⟩

theorem line_affine (a : ℝ) (closes : List ℝ) (fast slow : ℕ) :
    line (closes.map fun x => a * x + b) fast slow = (line closes fast slow).map (a * ·) := by
  rw [line, line, Average.exponentialMeans_affine, Average.exponentialMeans_affine,
    ← List.map_drop, Average.differences_affine]

theorem histograms_multiply (a : ℝ) (lines signals : List ℝ) (signal : ℕ) :
    histograms (lines.map (a * ·)) (signals.map (a * ·)) signal =
      (histograms lines signals signal).map (a * ·) := by
  simpa [histograms] using Average.differences_affine a 0 (lines.drop (signal - 1)) signals

end Macd

theorem macd_affine (ha : a ≠ 0) (closes : List ℝ) (fast slow signal : ℕ) :
    macd (closes.map fun x => a * x + b) fast slow signal =
      (macd closes fast slow signal).map (Macd.multiply a) := by
  have hsignals (lines : List ℝ) : Average.exponentialMeans (lines.map (a * ·)) signal =
      (Average.exponentialMeans lines signal).map (a * ·) := by
    simpa using Average.exponentialMeans_affine a 0 lines signal
  unfold macd
  rw [List.length_map]
  split
  · rfl
  simp only [Macd.line_affine, hsignals, Macd.histograms_multiply, List.getLast?_map,
    lastButOne?_map]
  cases (Macd.histograms (Macd.line closes fast slow)
    (Average.exponentialMeans (Macd.line closes fast slow) signal) signal).getLast? with
  | none => rfl
  | some histogram =>
    cases (Macd.line closes fast slow).getLast? with
    | none => rfl
    | some line =>
      cases (Average.exponentialMeans (Macd.line closes fast slow) signal).getLast? with
      | none => rfl
      | some average =>
        change some (Macd.mk _ _ _ (Direction.ofCrossing _ (a * histogram))) = some _
        rw [Direction.ofCrossing_mul ha]
        rfl

end MarketVerdict
