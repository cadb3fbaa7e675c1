import MarketVerdict.Proofs.Replay.Lookahead

/-!
# The two returns of a report

A report states the return of the whole replay and the return in a year. The second takes the root
of the growth, of which all that is assumed is that it lies on the same side of one as the growth
itself. Both returns then have the same sign, as long as there is capital left to grow or shrink.
Prices below zero can leave less than nothing: there is no root of that, and the return in a year is
zero.
-/

namespace MarketVerdict

open Scalar Traversal

/-- The whole seconds from the first bar to the last. -/
def Series.span {α : Type} (s : Series α) : Int :=
  match s.bars.head?, s.last? with
  | some first, some last => last.time.secondsSince first.time
  | _, _ => 0

section Percent

variable {K : Type} [Field K] [LinearOrder K]

/-- Powers to positive exponents lie on the same side of one as what they are powers of. -/
structure Steady (pow : K → K → K) : Prop where
  one_lt_iff : ∀ {x y : K}, 0 < x → 0 < y → (1 < pow x y ↔ 1 < x)
  lt_one_iff : ∀ {x y : K}, 0 < x → 0 < y → (pow x y < 1 ↔ x < 1)

theorem Steady.eq_one_iff {pow : K → K → K} (h : Steady pow) {x y : K} (hx : 0 < x) (hy : 0 < y) :
    pow x y = 1 ↔ x = 1 := by
  rw [eq_iff_le_not_lt, eq_iff_le_not_lt, ← not_lt, ← not_lt, h.one_lt_iff hx hy,
    h.lt_one_iff hx hy]

/-- How the return of the whole replay and the return in a year go together. -/
structure Report.Agrees (r : Report K) : Prop where
  gain : 0 < r.cagrPercent ↔ 0 < r.totalReturnPercent
  loss : 0 < r.finalCapital → (r.cagrPercent < 0 ↔ r.totalReturnPercent < 0)
  even : 0 < r.finalCapital → (r.cagrPercent = 0 ↔ r.totalReturnPercent = 0)
  debt : r.finalCapital < 0 → r.totalReturnPercent < -100 ∧ r.cagrPercent = 0

variable [IsStrictOrderedRing K]

section Signs

variable {x : K}

theorem percent_pos_iff : 0 < (x - 1) * 100 ↔ 1 < x := by
  rw [mul_pos_iff_of_pos_right (by norm_num), sub_pos]

theorem percent_neg_iff : (x - 1) * 100 < 0 ↔ x < 1 := by
  rw [← neg_pos, ← neg_mul, mul_pos_iff_of_pos_right (by norm_num), neg_sub, sub_pos]

theorem percent_eq_zero_iff : (x - 1) * 100 = 0 ↔ x = 1 := by
  rw [mul_eq_zero, or_iff_left (by norm_num), sub_eq_zero]

end Signs

/-- A report states the growth and, if there is a root of it, the root of the growth. -/
theorem Report.agrees_of_growth {pow : K → K → K} (hpow : Steady pow) {r : Report K} {years : K}
    (hyears : 0 < years) (hcapital : 0 < r.initialCapital)
    (htotal : r.totalReturnPercent = (r.finalCapital / r.initialCapital - 1) * 100)
    (hcagr : r.cagrPercent = if r.finalCapital ≤ 0 then 0
      else (pow (r.finalCapital / r.initialCapital) (1 / years) - 1) * 100) : r.Agrees := by
  have hexponent : 0 < 1 / years := one_div_pos.mpr hyears
  rcases le_or_gt r.finalCapital 0 with hfinal | hfinal
  · have hgrowth : r.finalCapital / r.initialCapital ≤ 0 :=
      div_nonpos_of_nonpos_of_nonneg hfinal hcapital.le
    rw [if_pos hfinal] at hcagr
    constructor
    case gain =>
      rw [hcagr, htotal, percent_pos_iff]
      exact iff_of_false (lt_irrefl _) (hgrowth.trans_lt zero_lt_one).not_gt
    case loss => exact fun h => absurd hfinal h.not_ge
    case even => exact fun h => absurd hfinal h.not_ge
    case debt =>
      intro h
      have hdebt : r.finalCapital / r.initialCapital < 0 := div_neg_of_neg_of_pos h hcapital
      refine ⟨?_, hcagr⟩
      rw [htotal]
      linarith
  · have hgrowth : 0 < r.finalCapital / r.initialCapital := div_pos hfinal hcapital
    rw [if_neg hfinal.not_ge] at hcagr
    constructor
    case gain =>
      rw [hcagr, htotal, percent_pos_iff, percent_pos_iff, hpow.one_lt_iff hgrowth hexponent]
    case loss =>
      intro _
      rw [hcagr, htotal, percent_neg_iff, percent_neg_iff, hpow.lt_one_iff hgrowth hexponent]
    case even =>
      intro _
      rw [hcagr, htotal, percent_eq_zero_iff, percent_eq_zero_iff,
        hpow.eq_one_iff hgrowth hexponent]
    case debt => exact fun h => absurd h hfinal.not_gt

end Percent

section Exact

variable {K : Type} [Field K] [LinearOrder K] [FloorRing K] (sqrt : K → K) (pow : K → K → K)

theorem ofSeconds_exact (n : Int) :
    letI := Scalar.exact K sqrt pow
    (ofSeconds n : K) = n := by
  let := Scalar.exact K sqrt pow
  have hcast : ((n.natAbs : ℕ) : K) = ((n.natAbs : Int) : K) := (Int.cast_natCast _).symm
  unfold ofSeconds
  split
  · next h =>
    have habs : (n.natAbs : Int) = -n := by omega
    rw [hcast, habs, Int.cast_neg, neg_neg]
  · next h =>
    have habs : (n.natAbs : Int) = n := by omega
    rw [hcast, habs]

theorem Replay.years_eq (s : Series K) :
    letI := Scalar.exact K sqrt pow
    years (s.bars.head?.map Bar.time) (s.last?.map Bar.time) = (s.span : K) / secondsPerYear := by
  let := Scalar.exact K sqrt pow
  unfold Series.span
  cases s.bars.head? with
  | none => simp [years]
  | some first =>
    cases s.last? with
    | none => simp [years]
    | some last => exact congrArg (· / secondsPerYear) (ofSeconds_exact sqrt pow _)

theorem cagrPercent_of_pos {initial years : K} (hinitial : 0 < initial) (hyears : 0 < years)
    (last : K) :
    letI := Scalar.exact K sqrt pow
    cagrPercent initial last years =
      if last ≤ 0 then 0 else (pow (last / initial) (1 / years) - 1) * 100 := by
  let := Scalar.exact K sqrt pow
  unfold cagrPercent
  rcases le_or_gt last 0 with hlast | hlast
  · rw [if_pos (Or.inr (Or.inr hlast)), if_pos hlast]
  · rw [if_neg hlast.not_ge, if_neg (by simp [hyears, hinitial, hlast])]
    rfl

variable [IsStrictOrderedRing K]

theorem secondsPerYear_pos :
    letI := Scalar.exact K sqrt pow
    (0 : K) < secondsPerYear := by
  let := Scalar.exact K sqrt pow
  exact mul_pos (by norm_num) (by norm_num)

theorem Replay.years_pos_iff (s : Series K) :
    letI := Scalar.exact K sqrt pow
    (0 : K) < years (s.bars.head?.map Bar.time) (s.last?.map Bar.time) ↔ 1 ≤ s.span := by
  let := Scalar.exact K sqrt pow
  rw [years_eq sqrt pow, div_pos_iff_of_pos_right (secondsPerYear_pos sqrt pow), Int.cast_pos]
  exact Iff.rfl

/-- A replay that spans a second at least reports two returns of the same sign, unless it ends
without capital. One that ends in debt has lost more than all of it and reports no return in a year,
nor does one that spans no time. -/
theorem Replay.returns_agree {pow : K → K → K} (hpow : Steady pow) :
    letI := Scalar.exact K sqrt pow
    ∀ (r : Replay K) (s : Series K) (capital : K) (warmup : ℕ) (report : Report K),
      r.run s capital warmup = .ok report →
        (1 ≤ s.span → report.Agrees) ∧ (s.span < 1 → report.cagrPercent = 0) := by
  let := Scalar.exact K sqrt pow
  intro r s capital warmup report hrun
  obtain ⟨⟨_, hcapital⟩, stops, _, rfl⟩ := run_eq_ok_iff.mp hrun
  constructor
  · intro hspan
    have hyears := (years_pos_iff sqrt pow s).mpr hspan
    have hgrowth (final : K) : (final - capital) / capital * 100 = (final / capital - 1) * 100 := by
      rw [sub_div, div_self hcapital.ne']
    exact Report.agrees_of_growth hpow hyears hcapital (hgrowth _)
      (cagrPercent_of_pos sqrt pow hcapital hyears _)
  · intro hspan
    have hyears := mt (years_pos_iff sqrt pow s).mp (not_le.mpr hspan)
    exact if_pos (Or.inl (not_lt.mp hyears))

end Exact

/-! ### Over a year -/

/-- Powers to the next whole exponent. -/
def wholePower (x y : ℚ) : ℚ := x ^ ⌈y⌉.toNat

theorem steady_wholePower : Steady wholePower := by
  have hexponent {y : ℚ} (hy : 0 < y) : ⌈y⌉.toNat ≠ 0 := by
    have : 0 < ⌈y⌉ := Int.ceil_pos.mpr hy
    omega
  exact ⟨fun hx hy => one_lt_pow_iff_of_nonneg hx.le (hexponent hy),
    fun hx hy => pow_lt_one_iff_of_nonneg hx.le (hexponent hy)⟩

namespace Replay

/-- The price is half of what it was a year before. -/
def halved : Series ℚ :=
  ⟨"halved", [⟨⟨0, 0⟩, 20, 20, 20, 20, 0⟩, ⟨⟨31557600, 0⟩, 10, 10, 10, 10, 0⟩], by decide⟩

theorem returns_agree_halved :
    letI := Scalar.exact ℚ Rat.sqrt wholePower
    Steady wholePower ∧ 1 ≤ halved.span ∧ ∃ report, contrarian.run halved 100 1 = .ok report ∧
      report.Agrees ∧ report.finalCapital = 50 ∧ report.cagrPercent < 0 := by
  let := Scalar.exact ℚ Rat.sqrt wholePower
  have hspan : 1 ≤ halved.span := by decide
  obtain ⟨report, hrun, hreturn⟩ := exists_ok_of_toOption
    (f := fun report : Report ℚ => (report.finalCapital, report.totalReturnPercent))
    (show (contrarian.run halved 100 1).toOption.map _ = some ((50 : ℚ), (-50 : ℚ)) by
      decide +kernel)
  obtain ⟨hfinal, htotal⟩ := Prod.mk.inj hreturn
  obtain ⟨hspanning, _⟩ :=
    returns_agree Rat.sqrt steady_wholePower contrarian halved 100 1 report hrun
  have hagrees := hspanning hspan
  refine ⟨steady_wholePower, hspan, report, hrun, hagrees, hfinal, ?_⟩
  rw [hagrees.loss (by rw [hfinal]; norm_num), htotal]
  norm_num

/-- The price falls below zero while units of it are held. -/
def collapse : Series ℚ :=
  ⟨"collapse", [⟨⟨0, 0⟩, 20, 20, 20, 20, 0⟩, ⟨⟨31557600, 0⟩, -20, -20, -20, -20, 0⟩], by decide⟩

theorem collapse_loses_without_rate :
    letI := Scalar.exact ℚ Rat.sqrt wholePower
    Steady wholePower ∧ 1 ≤ collapse.span ∧ ∃ report, contrarian.run collapse 100 1 = .ok report ∧
      report.totalReturnPercent < 0 ∧ ¬ report.cagrPercent < 0 ∧ report.cagrPercent = 0 := by
  let := Scalar.exact ℚ Rat.sqrt wholePower
  obtain ⟨report, hrun, hreturn⟩ := exists_ok_of_toOption
    (f := fun report : Report ℚ => (report.totalReturnPercent, report.cagrPercent))
    (show (contrarian.run collapse 100 1).toOption.map _ = some ((-200 : ℚ), (0 : ℚ)) by
      decide +kernel)
  obtain ⟨htotal, hrate⟩ := Prod.mk.inj hreturn
  refine ⟨steady_wholePower, by decide, report, hrun, ?_, ?_, hrate⟩
  · rw [htotal]
    norm_num
  · rw [hrate]
    exact lt_irrefl 0

end Replay

end MarketVerdict
