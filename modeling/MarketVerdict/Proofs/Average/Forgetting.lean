import MarketVerdict.Proofs.Average.Affine
import MarketVerdict.Proofs.Crossover.Beginnings

/-!
# What an exponential average remembers

A smoothing step mixes the new value with the average before it, so no average leaves the range of
the values it has seen. Two averages that see the same values move towards each other: a step keeps
the same part of their difference whatever the value is. An average over the latest values alone
therefore forgets where it began, at a rate that the period decides.
-/

namespace MarketVerdict

open Scalar

namespace Average

/-- The part of the average before it that a step keeps. -/
noncomputable def kept (period : ℕ) : ℝ := (period - 1) / (period + 1)

theorem kept_eq (period : ℕ) : kept period = 1 - 2 / ((period : ℝ) + 1) := by
  have hperiod : (period : ℝ) + 1 ≠ 0 := by positivity
  rw [kept, eq_sub_iff_add_eq, ← add_div, div_eq_one_iff_eq hperiod]
  ring

theorem kept_nonneg {period : ℕ} (hp : 0 < period) : 0 ≤ kept period := by
  have hperiod : (1 : ℝ) ≤ period := Nat.one_le_cast.mpr hp
  exact div_nonneg (sub_nonneg.mpr hperiod) (by linarith)

theorem exponentialStep_eq (value previous : ℝ) (period : ℕ) :
    exponentialStep value previous period = (1 - kept period) * value + kept period * previous := by
  rw [kept_eq, exponentialStep]
  ring

/-- The average after some more values. -/
noncomputable def after (period : ℕ) (average : ℝ) (values : List ℝ) : ℝ :=
  values.foldl (fun previous value => exponentialStep value previous period) average

theorem after_append (period : ℕ) (average : ℝ) (values values' : List ℝ) :
    after period average (values ++ values') = after period (after period average values) values' :=
  List.foldl_append

theorem getElem?_smoothed (period : ℕ) (average : ℝ) {values : List ℝ} {n : ℕ}
    (h : n ≤ values.length) :
    (average :: smoothed period average values)[n]? =
      some (after period average (values.take n)) := by
  induction values generalizing average n with
  | nil =>
    obtain rfl : n = 0 := by simpa using h
    rfl
  | cons value rest ih =>
    cases n with
    | zero => rfl
    | succ n => exact ih (exponentialStep value average period) (Nat.le_of_succ_le_succ h)

theorem getElem?_exponentialMeans {values : List ℝ} {period n : ℕ} (hp : 0 < period)
    (hn : period + n ≤ values.length) :
    (exponentialMeans values period)[n]? =
      some (after period ((values.take period).sum / period) ((values.drop period).take n)) := by
  rw [exponentialMeans, if_neg (by omega), sum_real]
  exact getElem?_smoothed period _ (by rw [List.length_drop]; omega)

theorem head?_exponentialMeans {values : List ℝ} {period : ℕ} (hp : 0 < period)
    (hl : period ≤ values.length) :
    (exponentialMeans values period).head? = some ((values.take period).sum / period) := by
  rw [exponentialMeans, if_neg (by omega), sum_real]
  rfl

theorem getLast?_exponentialMeans {values : List ℝ} {period : ℕ} (hp : 0 < period)
    (hl : period ≤ values.length) : (exponentialMeans values period).getLast? =
      some (after period ((values.take period).sum / period) (values.drop period)) := by
  rw [List.getLast?_eq_getElem?, length_exponentialMeans hp hl, Nat.add_sub_cancel,
    getElem?_exponentialMeans hp (by omega), ← List.length_drop, List.take_length]

/-! ### The range -/

section Range

variable {lo hi : ℝ} {period : ℕ}

theorem exponentialStep_mem (hp : 0 < period) {value previous : ℝ} (hvalue : value ∈ Set.Icc lo hi)
    (hprevious : previous ∈ Set.Icc lo hi) :
    exponentialStep value previous period ∈ Set.Icc lo hi := by
  have hkept : kept period ≤ 1 := by
    rw [kept_eq, sub_le_self_iff]
    positivity
  rw [exponentialStep_eq]
  exact convex_Icc lo hi hvalue hprevious (sub_nonneg.mpr hkept) (kept_nonneg hp)
    (sub_add_cancel 1 _)

theorem smoothed_mem (hp : 0 < period) {values : List ℝ} (hvalues : ∀ v ∈ values, v ∈ Set.Icc lo hi)
    {average : ℝ} (haverage : average ∈ Set.Icc lo hi) :
    ∀ x ∈ average :: smoothed period average values, x ∈ Set.Icc lo hi := by
  induction values generalizing average with
  | nil => exact List.forall_mem_singleton.mpr haverage
  | cons value rest ih =>
    rw [List.forall_mem_cons] at hvalues
    exact List.forall_mem_cons.mpr
      ⟨haverage, ih hvalues.2 (exponentialStep_mem hp hvalues.1 haverage)⟩

theorem plain_mem (hp : 0 < period) {values : List ℝ} (hl : values.length = period)
    (hvalues : ∀ v ∈ values, v ∈ Set.Icc lo hi) : values.sum / period ∈ Set.Icc lo hi := by
  have hperiod : (0 : ℝ) < period := Nat.cast_pos.mpr hp
  have hlow := List.card_nsmul_le_sum values lo fun v hv => (hvalues v hv).1
  have hhigh := List.sum_le_card_nsmul values hi fun v hv => (hvalues v hv).2
  rw [nsmul_eq_mul, hl] at hlow hhigh
  exact ⟨(le_div_iff₀' hperiod).mpr hlow, (div_le_iff₀' hperiod).mpr hhigh⟩

theorem exponentialMeans_mem {values : List ℝ} (hvalues : ∀ v ∈ values, v ∈ Set.Icc lo hi) :
    ∀ x ∈ exponentialMeans values period, x ∈ Set.Icc lo hi := by
  unfold exponentialMeans
  split
  · exact fun _ h => absurd h List.not_mem_nil
  next h =>
    obtain ⟨hp, hl⟩ : 0 < period ∧ period ≤ values.length := by omega
    rw [sum_real]
    exact smoothed_mem hp (fun v hv => hvalues v (List.mem_of_mem_drop hv))
      (plain_mem hp (List.length_take_of_le hl) fun v hv => hvalues v (List.mem_of_mem_take hv))

end Range

/-- The least and the greatest of some values. -/
structure Extremes (values : List ℝ) (lo hi : ℝ) : Prop where
  least : IsLeast {v | v ∈ values} lo
  greatest : IsGreatest {v | v ∈ values} hi

theorem Extremes.mem {values : List ℝ} {lo hi : ℝ} (h : Extremes values lo hi) :
    ∀ v ∈ values, v ∈ Set.Icc lo hi :=
  fun _ hv => ⟨h.least.2 hv, h.greatest.2 hv⟩

theorem exists_extremes {values : List ℝ} (h : 0 < values.length) :
    ∃ lo hi, Extremes values lo hi := by
  obtain ⟨v, hv⟩ := List.exists_mem_of_length_pos h
  obtain ⟨lo, hlo, hleast⟩ := Set.exists_min_image _ id values.finite_toSet ⟨v, hv⟩
  obtain ⟨hi, hhi, hgreatest⟩ := Set.exists_max_image _ id values.finite_toSet ⟨v, hv⟩
  exact ⟨lo, hi, ⟨hlo, hleast⟩, ⟨hhi, hgreatest⟩⟩

/-- An average has seen the values up to its bar, and no others. -/
theorem exponentialMeans_between {values : List ℝ} {period : ℕ} (hp : 0 < period)
    (hl : period ≤ values.length) {i : ℕ} {x : ℝ}
    (hx : (exponentialMeans values period)[i]? = some x) :
    ∃ lo hi, Extremes (values.take (period + i)) lo hi ∧ x ∈ Set.Icc lo hi := by
  have hi : i < (exponentialMeans values period).length := (List.getElem?_eq_some_iff.mp hx).1
  rw [length_exponentialMeans hp hl] at hi
  have hseen : x ∈ exponentialMeans (values.take (period + i)) period := by
    rw [causal_exponentialMeans.take hp (by omega) (by omega)]
    refine List.mem_of_getElem? (i := i) ?_
    rw [List.getElem?_take_of_lt (by omega), hx]
  obtain ⟨lo, hi, hextremes⟩ := exists_extremes
    (by rw [List.length_take]; omega : 0 < (values.take (period + i)).length)
  exact ⟨lo, hi, hextremes, exponentialMeans_mem hextremes.mem x hseen⟩

/-! ### The seed -/

/-- The value has no part in the difference. -/
theorem exponentialStep_sub (period : ℕ) (value x y : ℝ) :
    exponentialStep value x period - exponentialStep value y period = kept period * (x - y) := by
  rw [exponentialStep_eq, exponentialStep_eq]
  ring

theorem after_sub_after (period : ℕ) (values : List ℝ) (x y : ℝ) :
    after period x values - after period y values = kept period ^ values.length * (x - y) := by
  induction values generalizing x y with
  | nil =>
    rw [List.length_nil, pow_zero, one_mul]
    rfl
  | cons value rest ih =>
    calc after period x (value :: rest) - after period y (value :: rest)
        = kept period ^ rest.length *
            (exponentialStep value x period - exponentialStep value y period) := ih _ _
      _ = kept period ^ (value :: rest).length * (x - y) := by
        rw [exponentialStep_sub, List.length_cons, pow_succ, mul_assoc]

/-- An average of the latest values beside the average of all of them: where the shorter one begins,
and where both end. -/
structure Beside (values : List ℝ) (period latest : ℕ) (seed standing short long : ℝ) : Prop where
  seed : (exponentialMeans (values.drop (values.length - latest)) period).head? = some seed
  standing : (exponentialMeans values period)[values.length - latest]? = some standing
  short : (exponentialMeans (values.drop (values.length - latest)) period).getLast? = some short
  long : (exponentialMeans values period).getLast? = some long

variable {values : List ℝ} {period latest : ℕ}

theorem exists_beside (hp : 0 < period) (hlatest : period ≤ latest) (hl : latest ≤ values.length) :
    ∃ seed standing short long, Beside values period latest seed standing short long ∧
      short - long = kept period ^ (latest - period) * (seed - standing) := by
  have hlength : (values.drop (values.length - latest)).length = latest := by
    rw [List.length_drop]
    omega
  -- both have yet to see the same values
  have hrest : (values.drop (values.length - latest)).drop period =
      (values.drop period).drop (values.length - latest) := by
    rw [List.drop_drop, List.drop_drop, Nat.add_comm]
  have hcount : ((values.drop period).drop (values.length - latest)).length = latest - period := by
    rw [List.length_drop, List.length_drop]
    omega
  refine ⟨_, _, _, _, ⟨head?_exponentialMeans hp (by omega),
    getElem?_exponentialMeans hp (by omega), getLast?_exponentialMeans hp (by omega),
    getLast?_exponentialMeans hp (by omega)⟩, ?_⟩
  rw [hrest, ← hcount, ← after_sub_after, ← after_append, List.take_append_drop]

/-- What an exponential average keeps of the values it has seen. -/
structure Remembers (values : List ℝ) (period latest : ℕ) : Prop where
  length : (exponentialMeans values period).length = values.length - period + 1
  between : ∀ i x, (exponentialMeans values period)[i]? = some x →
    ∃ lo hi, Extremes (values.take (period + i)) lo hi ∧ x ∈ Set.Icc lo hi
  forgets : ∃ seed standing short long, Beside values period latest seed standing short long ∧
    short - long = (((period : ℝ) - 1) / (period + 1)) ^ (latest - period) * (seed - standing) ∧
      ∃ lo hi, Extremes values lo hi ∧
        |short - long| ≤ (((period : ℝ) - 1) / (period + 1)) ^ (latest - period) * (hi - lo)

theorem exponentialMeans_remembers (hp : 0 < period) (hlatest : period ≤ latest)
    (hl : latest ≤ values.length) : Remembers values period latest := by
  constructor
  case length => exact length_exponentialMeans hp (hlatest.trans hl)
  case between => exact fun i x hx => exponentialMeans_between hp (hlatest.trans hl) hx
  case forgets =>
    obtain ⟨seed, standing, short, long, hbeside, hdifference⟩ := exists_beside hp hlatest hl
    obtain ⟨lo, hi, hextremes⟩ := exists_extremes (by omega : 0 < values.length)
    have hseed : seed ∈ Set.Icc lo hi :=
      exponentialMeans_mem (fun v hv => hextremes.mem v (List.mem_of_mem_drop hv)) seed
        (List.mem_of_head? hbeside.seed)
    have hstanding : standing ∈ Set.Icc lo hi :=
      exponentialMeans_mem hextremes.mem standing (List.mem_of_getElem? hbeside.standing)
    refine ⟨seed, standing, short, long, hbeside, hdifference, lo, hi, hextremes, ?_⟩
    calc |short - long| = kept period ^ (latest - period) * |seed - standing| := by
          rw [hdifference, abs_mul, abs_of_nonneg (pow_nonneg (kept_nonneg hp) _)]
      _ ≤ kept period ^ (latest - period) * (hi - lo) :=
        mul_le_mul_of_nonneg_left
          (abs_sub_le_of_le_of_le hseed.1 hseed.2 hstanding.1 hstanding.2)
          (pow_nonneg (kept_nonneg hp) _)

/-- With a period of three a step keeps half of the difference. -/
theorem exponentialMeans_remembers_half :
    0 < 3 ∧ 3 ≤ 5 ∧ 5 ≤ ([6, 0, 3, 9, 1, 5, 2] : List ℝ).length ∧
      Remembers [6, 0, 3, 9, 1, 5, 2] 3 5 :=
  ⟨by decide, by decide, by decide,
    exponentialMeans_remembers (by decide) (by decide) (by decide)⟩

end Average

end MarketVerdict
