import Mathlib.Data.List.Chain
import Mathlib.Order.Bounds.Basic
import MarketVerdict.Proofs.Traversal
import MarketVerdict.Series

/-!
# Series from bars

A list of bars is walked once, each bar beside the one before it. When that walk finds nothing amiss
the bars are in order altogether, any two of them; otherwise it stops at the first bar that is not
later than its predecessor. Only bars that are in order are looked through for gaps, so that a bar
out of order is reported even if there is a gap before it.
-/

namespace MarketVerdict

open Traversal

theorem Instant.not_lt_iff {a b : Instant} : ¬ a < b ↔ b < a ∨ b = a := by
  obtain ⟨second, nano⟩ := a
  obtain ⟨second', nano'⟩ := b
  simp only [lt_def, mk.injEq]
  omega

namespace Series

/-! ### The first step of a list -/

section Steps

variable {β : Type} {r : β → β → Prop} {xs : List β}

/-- The element with the index `i` stands in the relation to the one before it. -/
def StepAt (r : β → β → Prop) (xs : List β) (i : ℕ) : Prop :=
  ∃ a b, 0 < i ∧ xs[i - 1]? = some a ∧ xs[i]? = some b ∧ r a b

theorem StepAt.exists_eq_succ {i : ℕ} (h : StepAt r xs i) : ∃ n, i = n + 1 := by
  obtain ⟨_, _, hpos, _⟩ := h
  exact Nat.exists_eq_add_one.mpr hpos

theorem not_stepAt_nil (i : ℕ) : ¬ StepAt r [] i := fun ⟨_, _, _, ha, _⟩ => nomatch ha

theorem not_stepAt_singleton (a : β) (i : ℕ) : ¬ StepAt r [a] i := by
  intro hstep
  obtain ⟨n, rfl⟩ := hstep.exists_eq_succ
  obtain ⟨_, _, _, _, hb, _⟩ := hstep
  simp at hb

theorem stepAt_one {a b : β} {rest : List β} : StepAt r (a :: b :: rest) 1 ↔ r a b := by
  simp [StepAt]

/-- Steps further on are steps of the rest. -/
theorem stepAt_cons {a b : β} {rest : List β} (h : ¬ r a b) (i : ℕ) :
    StepAt r (a :: b :: rest) (i + 1) ↔ StepAt r (b :: rest) i := by
  cases i with
  | zero => exact iff_of_false (fun hstep => h (stepAt_one.mp hstep)) nofun
  | succ i => simp [StepAt]

theorem isLeast_stepAt_one {a b : β} {rest : List β} (h : r a b) {i : ℕ} :
    IsLeast {i | StepAt r (a :: b :: rest) i} i ↔ i = 1 := by
  have hone : IsLeast {i | StepAt r (a :: b :: rest) i} 1 :=
    ⟨stepAt_one.mpr h, fun _ ⟨_, _, hpos, _⟩ => hpos⟩
  exact ⟨fun hleast => hleast.unique hone, fun heq => heq ▸ hone⟩

theorem isLeast_stepAt_cons {a b : β} {rest : List β} (h : ¬ r a b) {i : ℕ} :
    IsLeast {i | StepAt r (a :: b :: rest) i} (i + 1) ↔
      IsLeast {i | StepAt r (b :: rest) i} i := by
  refine and_congr (stepAt_cons h i) ⟨fun hbound m hm => ?_, fun hbound m hm => ?_⟩
  · exact Nat.le_of_succ_le_succ (hbound ((stepAt_cons h m).mpr hm))
  · obtain ⟨m, rfl⟩ := hm.exists_eq_succ
    exact Nat.succ_le_succ (hbound ((stepAt_cons h m).mp hm))

variable [DecidableRel r]

theorem firstStep?_eq_some_iff {k j : ℕ} {a b : β} :
    firstStep? (fun a b => decide (r a b)) (k + 1) xs = some (j, a, b) ↔
      ∃ i, IsLeast {i | StepAt r xs i} i ∧ j = k + i ∧ xs[i - 1]? = some a ∧ xs[i]? = some b := by
  induction xs generalizing k with
  | nil => exact iff_of_false nofun fun ⟨i, h, _⟩ => not_stepAt_nil i h.1
  | cons x rest ih =>
    cases rest with
    | nil => exact iff_of_false nofun fun ⟨i, h, _⟩ => not_stepAt_singleton x i h.1
    | cons y rest =>
      by_cases h : r x y
      · simp only [firstStep?, h, decide_true, if_true, isLeast_stepAt_one h, exists_eq_left]
        simp [eq_comm]
      · -- The step lies in the rest, where its index is one less and the count one more.
        simp only [firstStep?, h, decide_false, Bool.false_eq_true, if_false]
        rw [ih]
        constructor
        · rintro ⟨i, hleast, rfl, ha, hb⟩
          obtain ⟨n, rfl⟩ := hleast.1.exists_eq_succ
          exact ⟨n + 2, (isLeast_stepAt_cons h).mpr hleast, by omega, ha, hb⟩
        · rintro ⟨i, hleast, rfl, ha, hb⟩
          obtain ⟨n, rfl⟩ := hleast.1.exists_eq_succ
          have hrest := (isLeast_stepAt_cons h).mp hleast
          obtain ⟨m, rfl⟩ := hrest.1.exists_eq_succ
          exact ⟨m + 1, hrest, by omega, ha, hb⟩

/-- Without such a step all neighbours stand in the opposite relation. -/
theorem firstStep?_eq_none_iff {k : ℕ} :
    firstStep? (fun a b => decide (r a b)) k xs = none ↔ xs.IsChain fun a b => ¬ r a b := by
  induction xs generalizing k with
  | nil => exact iff_of_true rfl .nil
  | cons x rest ih =>
    cases rest with
    | nil => exact iff_of_true rfl (.singleton x)
    | cons y rest =>
      rw [List.isChain_cons_cons, ← ih (k := k + 1), firstStep?]
      by_cases h : r x y <;> simp [h]

omit [DecidableRel r] in
theorem not_stepAt_of_isChain (h : xs.IsChain fun a b => ¬ r a b) (i : ℕ) : ¬ StepAt r xs i := by
  intro hstep
  obtain ⟨n, rfl⟩ := hstep.exists_eq_succ
  obtain ⟨a, b, _, ha, hb, hab⟩ := hstep
  obtain ⟨_, rfl⟩ := List.getElem?_eq_some_iff.mp ha
  obtain ⟨hn, rfl⟩ := List.getElem?_eq_some_iff.mp hb
  exact List.isChain_iff_getElem.mp h n hn hab

end Steps

variable {α : Type} {instrument : String} {bars : List (Bar α)} {s : Series α} {e : SeriesError}

/-! ### Order -/

/-- Of any two bars the one further on is the later one. -/
def Increasing (bars : List (Bar α)) : Prop :=
  ∀ (i j : ℕ) (_ : i < j) (_ : j < bars.length), bars[i].time < bars[j].time

theorem increasing_iff_pairwise : Increasing bars ↔ bars.Pairwise fun a b => a.time < b.time := by
  rw [List.pairwise_iff_getElem]
  exact ⟨fun h i j _ hj hij => h i j hij hj, fun h i j hij hj => h i j (hij.trans hj) hj hij⟩

/-- The second bar is not later than the first. -/
def NotLater (a b : Bar α) : Prop := b.time < a.time ∨ b.time = a.time

theorem not_lt_eq_notLater : (fun a b : Bar α => ¬ a.time < b.time) = NotLater :=
  funext fun _ => funext fun _ => propext Instant.not_lt_iff

/-- Every two neighbours are in order exactly when every two bars are. -/
theorem firstStep?_notLater_eq_none_iff {k : ℕ} :
    firstStep? (fun a b : Bar α => decide (¬ a.time < b.time)) k bars = none ↔ Increasing bars := by
  rw [increasing_iff_pairwise]
  refine ⟨pairwise_of_firstStep?_eq_none, fun h => firstStep?_eq_none_iff.mpr ?_⟩
  exact h.isChain.imp fun _ _ => not_not_intro

theorem ofBars_of_increasing (h : Increasing bars) (instrument : String) :
    ofBars instrument bars = .ok ⟨instrument, bars, increasing_iff_pairwise.mp h⟩ := by
  unfold ofBars
  split
  · next hstep =>
    rw [firstStep?_notLater_eq_none_iff.mpr h] at hstep
    cases hstep
  · rfl

theorem ofBars_eq_error_iff :
    ofBars instrument bars = .error e ↔
      ∃ i, IsLeast {i | StepAt NotLater bars i} i ∧ e = .notLater instrument i := by
  rw [← not_lt_eq_notLater]
  unfold ofBars
  split
  · next j _ hstep =>
    obtain ⟨i, hleast, hj, _⟩ := firstStep?_eq_some_iff.mp hstep
    obtain rfl : j = i := by omega
    rw [Except.error.injEq]
    constructor
    · rintro rfl
      exact ⟨j, hleast, rfl⟩
    · rintro ⟨i, hleast', rfl⟩
      rw [hleast.unique hleast']
  · next hnone =>
    exact iff_of_false nofun fun ⟨i, hleast, _⟩ =>
      not_stepAt_of_isChain (firstStep?_eq_none_iff.mp hnone) i hleast.1

theorem ofBars_eq_ok_iff :
    ofBars instrument bars = .ok s ↔
      Increasing bars ∧ s.instrument = instrument ∧ s.bars = bars := by
  constructor
  · intro h
    have hbars : Increasing bars := by
      unfold ofBars at h
      split at h
      · cases h
      · next hnone => exact firstStep?_notLater_eq_none_iff.mp hnone
    rw [ofBars_of_increasing hbars] at h
    cases h
    exact ⟨hbars, rfl, rfl⟩
  · rintro ⟨h, rfl, rfl⟩
    exact ofBars_of_increasing h s.instrument

/-! ### Gaps -/

variable {tolerance : ℤ}

/-- The second bar comes more than the tolerance after the first. -/
def Apart (tolerance : ℤ) (a b : Bar α) : Prop := tolerance < b.time.since a.time

/-- No two neighbours lie further apart than the tolerance. -/
def Within (tolerance : ℤ) (bars : List (Bar α)) : Prop :=
  bars.IsChain fun a b => b.time.since a.time ≤ tolerance

theorem within_iff : Within tolerance bars ↔ bars.IsChain fun a b => ¬ Apart tolerance a b :=
  List.IsChain.iff fun _ _ => not_lt.symm

instance : DecidableRel (Apart (α := α) tolerance) :=
  fun a b => inferInstanceAs (Decidable (tolerance < b.time.since a.time))

/-- Bars in order get as far as the walk for gaps. -/
theorem ofBarsWithin_of_increasing (h : Increasing bars) :
    ofBarsWithin tolerance instrument bars =
      match firstStep? (fun a b => decide (Apart tolerance a b)) 1 bars with
      | some (i, a, b) => .error (.gapTooWide instrument i (b.time.secondsSince a.time))
      | none => .ok ⟨instrument, bars, increasing_iff_pairwise.mp h⟩ := by
  rw [ofBarsWithin, ofBars_of_increasing h]
  rfl

theorem ofBarsWithin_eq_ok_iff :
    ofBarsWithin tolerance instrument bars = .ok s ↔
      (Increasing bars ∧ Within tolerance bars) ∧ s.instrument = instrument ∧ s.bars = bars := by
  rw [within_iff]
  constructor
  · intro h
    obtain ⟨s', hs', _⟩ := bind_eq_ok_iff.mp h
    obtain ⟨hbars, _⟩ := ofBars_eq_ok_iff.mp hs'
    rw [ofBarsWithin_of_increasing hbars] at h
    split at h
    · cases h
    · next hnone =>
      cases h
      exact ⟨⟨hbars, firstStep?_eq_none_iff.mp hnone⟩, rfl, rfl⟩
  · rintro ⟨⟨hbars, hwithin⟩, rfl, rfl⟩
    rw [ofBarsWithin_of_increasing hbars, firstStep?_eq_none_iff.mpr hwithin]

theorem ofBarsWithin_eq_error_iff :
    ofBarsWithin tolerance instrument bars = .error e ↔
      (∃ i, IsLeast {i | StepAt NotLater bars i} i ∧ e = .notLater instrument i) ∨
      Increasing bars ∧ ∃ i a b, IsLeast {i | StepAt (Apart tolerance) bars i} i ∧
        bars[i - 1]? = some a ∧ bars[i]? = some b ∧
        e = .gapTooWide instrument i (b.time.secondsSince a.time) := by
  rw [← ofBars_eq_error_iff]
  constructor
  · intro h
    rcases bind_eq_error_iff.mp h with horder | ⟨s, hs, _⟩
    · exact Or.inl horder
    · obtain ⟨hbars, _⟩ := ofBars_eq_ok_iff.mp hs
      rw [ofBarsWithin_of_increasing hbars] at h
      split at h
      · next j a b hstep =>
        cases h
        obtain ⟨i, hleast, hj, ha, hb⟩ := firstStep?_eq_some_iff.mp hstep
        obtain rfl : j = i := by omega
        exact Or.inr ⟨hbars, j, a, b, hleast, ha, hb, rfl⟩
      · cases h
  · rintro (horder | ⟨hbars, i, a, b, hleast, ha, hb, rfl⟩)
    · exact bind_eq_error_iff.mpr (Or.inl horder)
    · have hstep : firstStep? (fun a b => decide (Apart tolerance a b)) 1 bars = some (i, a, b) :=
        firstStep?_eq_some_iff.mpr ⟨i, hleast, (Nat.zero_add i).symm, ha, hb⟩
      rw [ofBarsWithin_of_increasing hbars, hstep]

/-- What comes of bars that are to be a series, without and with a tolerance for gaps. -/
structure Admission (instrument : String) (bars : List (Bar α)) : Prop where
  accepted : (∃ s, ofBars instrument bars = .ok s) ↔ Increasing bars
  unchanged : ∀ s, ofBars instrument bars = .ok s → s.instrument = instrument ∧ s.bars = bars
  refused : ∀ e, ofBars instrument bars = .error e ↔
    ∃ i, IsLeast {i | StepAt NotLater bars i} i ∧ e = .notLater instrument i
  acceptedWithin : ∀ tolerance, (∃ s, ofBarsWithin tolerance instrument bars = .ok s) ↔
    Increasing bars ∧ Within tolerance bars
  unchangedWithin : ∀ tolerance s, ofBarsWithin tolerance instrument bars = .ok s →
    s.instrument = instrument ∧ s.bars = bars
  refusedWithin : ∀ tolerance e, ofBarsWithin tolerance instrument bars = .error e ↔
    (∃ i, IsLeast {i | StepAt NotLater bars i} i ∧ e = .notLater instrument i) ∨
    Increasing bars ∧ ∃ i a b, IsLeast {i | StepAt (Apart tolerance) bars i} i ∧
      bars[i - 1]? = some a ∧ bars[i]? = some b ∧
      e = .gapTooWide instrument i (b.time.secondsSince a.time)

theorem admission (instrument : String) (bars : List (Bar α)) : Admission instrument bars where
  accepted := ⟨fun ⟨_, h⟩ => (ofBars_eq_ok_iff.mp h).1, fun h => ⟨_, ofBars_of_increasing h _⟩⟩
  unchanged := fun _ h => (ofBars_eq_ok_iff.mp h).2
  refused := fun _ => ofBars_eq_error_iff
  acceptedWithin := fun _ => ⟨fun ⟨_, h⟩ => (ofBarsWithin_eq_ok_iff.mp h).1, fun h =>
    ⟨⟨instrument, bars, increasing_iff_pairwise.mp h.1⟩, ofBarsWithin_eq_ok_iff.mpr ⟨h, rfl, rfl⟩⟩⟩
  unchangedWithin := fun _ _ h => (ofBarsWithin_eq_ok_iff.mp h).2
  refusedWithin := fun _ _ => ofBarsWithin_eq_error_iff

end Series

end MarketVerdict
