import MarketVerdict.Proofs.Indicator.Affine

/-!
# Relative strength as a share

The smoothed averages of gains and losses follow the usual rule: the plain average of the first
moves, then each later move counts one part in the period. The index is the share of the gains in
both, also where the division that computes it is undefined. Higher moves give higher averages, so a
higher last close gives a higher index, and moving all closes alike moves none of the changes.
-/

namespace MarketVerdict

open Scalar

namespace Rsi

/-- The running average of moves: the plain average of the first `period` of them, of which each
later move replaces one part in `period`. -/
inductive Wilder (period : ℕ) : List ℝ → ℝ → Prop
  | seed {moves : List ℝ} (h : moves.length = period) : Wilder period moves (moves.sum / period)
  | later {moves : List ℝ} {average : ℝ} (h : Wilder period moves average) (move : ℝ) :
    Wilder period (moves ++ [move]) (average * (period - 1) / period + move / period)

theorem smoothed_append_singleton {period : ℕ} {moves : List ℝ} (h : period ≤ moves.length)
    (move : ℝ) :
    smoothed period (moves ++ [move]) = smoothStep period (smoothed period moves) move := by
  rw [smoothed, smoothed, List.drop_append_of_le_length h, List.take_append_of_le_length h,
    List.foldl_append]
  rfl

theorem smoothed_of_length_eq {period : ℕ} {moves : List ℝ} (h : moves.length = period) :
    smoothed period moves = moves.sum / period := by
  rw [smoothed, ← h, List.drop_length, List.take_length, sum_real]
  rfl

theorem wilder_iff {period : ℕ} {moves : List ℝ} {average : ℝ} :
    Wilder period moves average ↔ period ≤ moves.length ∧ average = smoothed period moves := by
  have hstep (average move : ℝ) : average * (period - 1) / period + move / period =
      smoothStep period average move := (add_div ..).symm
  constructor
  · intro h
    induction h with
    | seed h => exact ⟨h.ge, (smoothed_of_length_eq h).symm⟩
    | later _ move ih =>
      obtain ⟨hlength, rfl⟩ := ih
      refine ⟨by rw [List.length_append]; omega, ?_⟩
      rw [smoothed_append_singleton hlength, hstep]
  · rintro ⟨hlength, rfl⟩
    induction moves using List.reverseRecOn with
    | nil =>
      have hempty : ([] : List ℝ).length = period := (Nat.le_zero.mp hlength).symm
      rw [smoothed_of_length_eq hempty]
      exact .seed hempty
    | append_singleton moves move ih =>
      rcases hlength.eq_or_lt with h | h
      · rw [smoothed_of_length_eq h.symm]
        exact .seed h.symm
      · have hlength : period ≤ moves.length := by
          rw [List.length_append, List.length_singleton] at h
          omega
        rw [smoothed_append_singleton hlength, ← hstep]
        exact .later (ih hlength) move

/-! ### Signs -/

theorem gain_nonneg (change : ℝ) : 0 ≤ gain change := by
  rw [gain, larger_real]
  exact le_max_right _ _

theorem loss_nonneg (change : ℝ) : 0 ≤ loss change := gain_nonneg (-change)

theorem smoothStep_nonneg {period : ℕ} (hp : 0 < period) {average move : ℝ} (haverage : 0 ≤ average)
    (hmove : 0 ≤ move) : 0 ≤ smoothStep period average move := by
  have hperiod : (1 : ℝ) ≤ period := Nat.one_le_cast.mpr hp
  exact div_nonneg (add_nonneg (mul_nonneg haverage (sub_nonneg.mpr hperiod)) hmove) (by linarith)

theorem foldl_smoothStep_nonneg {period : ℕ} (hp : 0 < period) {moves : List ℝ}
    (hmoves : ∀ move ∈ moves, 0 ≤ move) {average : ℝ} (haverage : 0 ≤ average) :
    0 ≤ moves.foldl (smoothStep period) average := by
  induction moves generalizing average with
  | nil => exact haverage
  | cons move rest ih =>
    rw [List.forall_mem_cons] at hmoves
    exact ih hmoves.2 (smoothStep_nonneg hp haverage hmoves.1)

theorem smoothed_nonneg {period : ℕ} (hp : 0 < period) {moves : List ℝ}
    (hmoves : ∀ move ∈ moves, 0 ≤ move) : 0 ≤ smoothed period moves := by
  refine foldl_smoothStep_nonneg hp (fun move h => hmoves move (List.mem_of_mem_drop h)) ?_
  rw [sum_real]
  exact div_nonneg (List.sum_nonneg fun move h => hmoves move (List.mem_of_mem_take h))
    (Nat.cast_nonneg _)

theorem average_gains_nonneg {period : ℕ} (hp : 0 < period) (changes : List ℝ) :
    0 ≤ smoothed period (changes.map gain) :=
  smoothed_nonneg hp (List.forall_mem_map.mpr fun change _ => gain_nonneg change)

theorem average_losses_nonneg {period : ℕ} (hp : 0 < period) (changes : List ℝ) :
    0 ≤ smoothed period (changes.map loss) :=
  smoothed_nonneg hp (List.forall_mem_map.mpr fun change _ => loss_nonneg change)

/-- The share of gains in all moves. -/
theorem index_eq_share {gains losses : ℝ} (hg : 0 ≤ gains) (hl : 0 ≤ losses) :
    index gains losses =
      if gains + losses = 0 then 50 else 100 * (gains / (gains + losses)) := by
  simp only [index, beq_iff_eq]
  rcases hl.eq_or_lt with rfl | hl
  · rcases hg.eq_or_lt with rfl | hg
    · simp
    · simp [hg.ne']
  · have hsum : gains + losses ≠ 0 := by positivity
    have hratio : 1 + gains / losses ≠ 0 := by positivity
    rw [if_neg hl.ne', if_neg hsum]
    field_simp
    ring

/-! ### Monotonicity -/

theorem smoothStep_mono {period : ℕ} (hp : 0 < period) {average average' move move' : ℝ}
    (haverage : average ≤ average') (hmove : move ≤ move') :
    smoothStep period average move ≤ smoothStep period average' move' := by
  have hperiod : (1 : ℝ) ≤ period := Nat.one_le_cast.mpr hp
  have hkept := mul_le_mul_of_nonneg_right haverage (sub_nonneg.mpr hperiod)
  exact div_le_div_of_nonneg_right (add_le_add hkept hmove) (by linarith)

theorem foldl_smoothStep_mono {period : ℕ} (hp : 0 < period) {moves moves' : List ℝ}
    (h : List.Forall₂ (· ≤ ·) moves moves') {average average' : ℝ} (haverage : average ≤ average') :
    moves.foldl (smoothStep period) average ≤ moves'.foldl (smoothStep period) average' := by
  induction h generalizing average average' with
  | nil => exact haverage
  | cons hmove _ ih => exact ih (smoothStep_mono hp haverage hmove)

/-- Higher moves have a higher average, in the seed as in every later step. -/
theorem smoothed_mono {period : ℕ} (hp : 0 < period) {moves moves' : List ℝ}
    (h : List.Forall₂ (· ≤ ·) moves moves') : smoothed period moves ≤ smoothed period moves' := by
  refine foldl_smoothStep_mono hp (List.forall₂_drop period h) ?_
  rw [sum_real, sum_real]
  exact div_le_div_of_nonneg_right (List.forall₂_take period h).sum_le_sum (Nat.cast_nonneg _)

/-- More gains and fewer losses give a higher index, also where there were none of either. -/
theorem index_mono {gains gains' losses losses' : ℝ} (hg : 0 ≤ gains) (hgains : gains ≤ gains')
    (hl : 0 ≤ losses') (hlosses : losses' ≤ losses) :
    index gains losses ≤ index gains' losses' := by
  have hg' : 0 ≤ gains' := hg.trans hgains
  have hl' : 0 ≤ losses := hl.trans hlosses
  rw [index_eq_share hg hl', index_eq_share hg' hl]
  by_cases hsum : gains + losses = 0
  · rw [if_pos hsum]
    have hnone : losses' = 0 := by linarith
    by_cases hsum' : gains' + losses' = 0
    · rw [if_pos hsum']
    · rw [hnone, add_zero] at hsum'
      rw [hnone, add_zero, if_neg hsum', div_self hsum']
      norm_num
  · rw [if_neg hsum]
    by_cases hsum' : gains' + losses' = 0
    · have hnone : gains = 0 := by linarith
      rw [if_pos hsum', hnone]
      norm_num
    · have hpos : 0 < gains + losses := (add_nonneg hg hl').lt_of_ne' hsum
      have hpos' : 0 < gains' + losses' := (add_nonneg hg' hl).lt_of_ne' hsum'
      have hcross : gains * losses' ≤ gains' * losses := mul_le_mul hgains hlosses hl hg'
      have hshare : gains / (gains + losses) ≤ gains' / (gains' + losses') := by
        rw [div_le_div_iff₀ hpos hpos']
        linarith
      rw [if_neg hsum']
      linarith

theorem index_mem {gains losses : ℝ} (hg : 0 ≤ gains) (hl : 0 ≤ losses) :
    index gains losses ∈ Set.Icc 0 100 := by
  rw [index_eq_share hg hl]
  split
  · norm_num
  · have hshare : 0 ≤ gains / (gains + losses) := div_nonneg hg (add_nonneg hg hl)
    have hone : gains / (gains + losses) ≤ 1 :=
      div_le_one_of_le₀ (le_add_of_nonneg_right hl) (add_nonneg hg hl)
    exact ⟨by linarith, by linarith⟩

/-! ### Closes -/

/-- The last close enters the last change only. -/
theorem changes_append_le (init : List ℝ) {x y : ℝ} (h : x ≤ y) :
    List.Forall₂ (· ≤ ·) (changes (init ++ [x])) (changes (init ++ [y])) := by
  induction init with
  | nil => exact .nil
  | cons a rest ih =>
    cases rest with
    | nil => exact .cons (sub_le_sub_right h a) .nil
    | cons b rest => exact .cons le_rfl ih

theorem length_changes (closes : List ℝ) : (changes closes).length = closes.length - 1 := by
  rw [changes, List.length_zipWith, List.length_drop]
  omega

theorem gain_eq : (gain : ℝ → ℝ) = fun change => max change 0 :=
  funext fun change => larger_real change 0

theorem loss_eq : (loss : ℝ → ℝ) = fun change => max (-change) 0 :=
  funext fun change => larger_real (-change) 0

/-- The averages of gains and losses over the bars. -/
structure Averages (bars : List (Bar ℝ)) (period : ℕ) (gains losses : ℝ) : Prop where
  gains : Wilder period ((changes (bars.map Bar.close)).map fun change => max change 0) gains
  losses : Wilder period ((changes (bars.map Bar.close)).map fun change => max (-change) 0) losses

theorem averages_iff {bars : List (Bar ℝ)} {period : ℕ} (hl : period + 1 ≤ bars.length)
    {gains losses : ℝ} :
    Averages bars period gains losses ↔
      gains = smoothed period ((changes (bars.map Bar.close)).map gain) ∧
        losses = smoothed period ((changes (bars.map Bar.close)).map loss) := by
  have hlength : period ≤ (changes (bars.map Bar.close)).length := by
    rw [length_changes, List.length_map]
    omega
  rw [gain_eq, loss_eq]
  constructor
  · rintro ⟨hgains, hlosses⟩
    exact ⟨(wilder_iff.mp hgains).2, (wilder_iff.mp hlosses).2⟩
  · rintro ⟨hgains, hlosses⟩
    exact ⟨wilder_iff.mpr ⟨by rwa [List.length_map], hgains⟩,
      wilder_iff.mpr ⟨by rwa [List.length_map], hlosses⟩⟩

/-! ### The index -/

theorem rsi_of_le {closes : List ℝ} {period : ℕ} (hp : 0 < period)
    (hl : period + 1 ≤ closes.length) :
    rsi closes period = some (index (smoothed period ((changes closes).map gain))
      (smoothed period ((changes closes).map loss))) :=
  if_neg (by omega)

/-- Changes that are nowhere lower have no lower index. -/
theorem index_changes_mono {period : ℕ} (hp : 0 < period) {changes changes' : List ℝ}
    (h : List.Forall₂ (· ≤ ·) changes changes') :
    index (smoothed period (changes.map gain)) (smoothed period (changes.map loss)) ≤
      index (smoothed period (changes'.map gain)) (smoothed period (changes'.map loss)) := by
  have hgains : List.Forall₂ (· ≤ ·) (changes.map gain) (changes'.map gain) := by
    rw [List.forall₂_map_left_iff, List.forall₂_map_right_iff, gain_eq]
    exact h.imp fun _ _ hle => max_le_max_right 0 hle
  have hlosses : List.Forall₂ (· ≤ ·) (changes'.map loss) (changes.map loss) := by
    rw [List.forall₂_map_left_iff, List.forall₂_map_right_iff, loss_eq]
    exact h.flip.imp fun _ _ hle => max_le_max_right 0 (neg_le_neg hle)
  exact index_mono (average_gains_nonneg hp changes) (smoothed_mono hp hgains)
    (average_losses_nonneg hp changes') (smoothed_mono hp hlosses)

/-- What the index of some bars is, and what it is when the last of them closes higher or all of them
close higher by the same amount. -/
structure Explained (bars : List (Bar ℝ)) (period : ℕ) (value : ℝ) : Prop where
  averages : ∃ gains losses, Averages bars period gains losses
  share : ∀ gains losses, Averages bars period gains losses → 0 ≤ gains ∧ 0 ≤ losses ∧
    value = if gains = 0 ∧ losses = 0 then 50 else 100 * gains / (gains + losses)
  bounds : value ∈ Set.Icc 0 100
  raised : ∀ init last close, bars = init ++ [last] → last.close ≤ close →
    ∃ value', rsi ((init ++ [{ last with close := close }]).map Bar.close) period = some value' ∧
      value ≤ value'
  shifted : ∀ amount, rsi ((bars.map fun bar =>
    { bar with close := bar.close + amount }).map Bar.close) period = some value

/-- The index is the share of the gains in all moves. -/
theorem rsi_explained {period : ℕ} (hp : 0 < period) {bars : List (Bar ℝ)}
    (hl : period + 1 ≤ bars.length) :
    ∃ value, rsi (bars.map Bar.close) period = some value ∧ Explained bars period value := by
  have hcloses : period + 1 ≤ (bars.map Bar.close).length := by rwa [List.length_map]
  have hg := average_gains_nonneg hp (changes (bars.map Bar.close))
  have hl' := average_losses_nonneg hp (changes (bars.map Bar.close))
  refine ⟨_, rsi_of_le hp hcloses, ?_⟩
  constructor
  case averages => exact ⟨_, _, (averages_iff hl).mpr ⟨rfl, rfl⟩⟩
  case share =>
    intro gains losses h
    obtain ⟨rfl, rfl⟩ := (averages_iff hl).mp h
    refine ⟨hg, hl', ?_⟩
    rw [index_eq_share hg hl', mul_div_assoc]
    simp only [add_eq_zero_iff_of_nonneg hg hl']
  case bounds => exact index_mem hg hl'
  case raised =>
    rintro init last close rfl hclose
    rw [List.length_append, List.length_singleton] at hl
    refine ⟨_, rsi_of_le hp (by simpa using hl), ?_⟩
    simp only [List.map_append, List.map_cons, List.map_nil]
    exact index_changes_mono hp (changes_append_le (init.map Bar.close) hclose)
  case shifted =>
    intro amount
    have hmoved : (bars.map fun bar => { bar with close := bar.close + amount }).map Bar.close =
        (bars.map Bar.close).map fun close => 1 * close + amount := by
      simp [Function.comp_def]
    rw [hmoved, rsi_of_le hp (by simpa using hl), changes_affine]
    simp

/-- Four bars that rise, fall and rise by less. -/
noncomputable def uneven : List (Bar ℝ) :=
  [10, 12, 11, 12].map fun close => ⟨⟨0, 0⟩, close, close, close, close, 0⟩

theorem averages_uneven : Averages uneven 2 1 (1 / 4) := by
  have hchanges : changes (uneven.map Bar.close) = [2, -1, 1] := by
    norm_num [changes, uneven]
  have hgains : Wilder 2 [2, 0] ([2, 0].sum / (2 : ℕ)) := .seed rfl
  have hlosses : Wilder 2 [0, 1] ([0, 1].sum / (2 : ℕ)) := .seed rfl
  constructor
  · rw [hchanges]
    convert hgains.later 1 using 1 <;> norm_num
  · rw [hchanges]
    convert hlosses.later 0 using 1 <;> norm_num

theorem rsi_explained_uneven : 0 < 2 ∧ 2 + 1 ≤ uneven.length ∧
    rsi (uneven.map Bar.close) 2 = some 80 ∧ Explained uneven 2 80 := by
  have hl : 2 + 1 ≤ uneven.length := by
    rw [uneven, List.length_map]
    decide
  obtain ⟨value, hvalue, h⟩ := rsi_explained (by decide : 0 < 2) hl
  have hshare := (h.share 1 (1 / 4) averages_uneven).2.2
  norm_num at hshare
  subst hshare
  exact ⟨by decide, hl, hvalue, h⟩

end Rsi

end MarketVerdict
