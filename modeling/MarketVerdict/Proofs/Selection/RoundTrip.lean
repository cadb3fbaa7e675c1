import MarketVerdict.Proofs.Selection.Writing

/-!
# Selections round-trip

Parameters that pass their check are selected by the text that is written for them, and every text
that gives a specification gives the same one once it has been written in this form.
-/

namespace MarketVerdict

open Decimal Text Traversal

theorem le_periodBound_of_parsePeriod {s : String} {n : ℕ} (h : parsePeriod s = .ok n) :
    n ≤ periodBound := by
  unfold parsePeriod at h
  split at h
  · next hread =>
    cases h
    exact readNat?_le hread
  · cases h

theorem Params.le_periodBound_of_default (i : Indicator) :
    ∀ n ∈ (default i).periods, n ≤ periodBound := by
  cases i <;> decide

theorem Params.le_periodBound_of_parse {i : Indicator} {args : List String} {p : Params Float}
    (h : parse i args = .ok p) : ∀ n ∈ p.periods, n ≤ periodBound := by
  have hthree : 3 ≤ periodBound := by decide
  unfold parse at h
  split at h
  case h_1 =>
    cases h
    exact le_periodBound_of_default i
  all_goals
    simp only [bind_eq_ok_iff, pure, Except.pure, Except.ok.injEq, reduceCtorEq] at h
  all_goals
    grind [periods, → le_periodBound_of_parsePeriod]

namespace Spec

variable {p : Params Float}

theorem parse_selection (h : p.Legible) : parse p.selection = ofParams p := by
  rw [parse, Params.splitSelection_selection]
  change (Indicator.parse p.indicator.name >>= _) = _
  rw [Indicator.parse_name]
  change (Params.parse p.indicator p.arguments >>= _) = _
  rw [Params.parse_arguments h]
  rfl

/-- A specification that is read from a text has checked parameters, with periods in bounds. -/
theorem ofParams_of_parse {s : String} {spec : Spec Float} (h : parse s = .ok spec) :
    ofParams spec.params = .ok spec ∧ ∀ n ∈ spec.params.periods, n ≤ periodBound := by
  obtain ⟨i, _, h⟩ := bind_eq_ok_iff.mp h
  obtain ⟨params, hparams, h⟩ := bind_eq_ok_iff.mp h
  obtain rfl : spec.params = params := by rw [eq_of_ofParamsAs h]
  exact ⟨h, Params.le_periodBound_of_parse hparams⟩

/-- What is written for checked parameters selects them, and what is written for the parameters of
an accepted text selects the same and is written again in the same way. -/
theorem selection_round_trip :
    (∀ p : Params Float, (∀ n ∈ p.periods, n ≤ periodBound) → (∀ x ∈ p.factors, ReadsBack x) →
      p.check = .ok () →
        ∃ spec, ofParams p = .ok spec ∧ spec.params = p ∧ parse p.selection = .ok spec) ∧
    ∀ (s : String) (spec : Spec Float), parse s = .ok spec →
      (∀ x ∈ spec.params.factors, ReadsBack x) →
        parse spec.params.selection = .ok spec ∧
          ∀ again, parse spec.params.selection = .ok again →
            again.params.selection = spec.params.selection := by
  constructor
  · intro p hperiods hfactors hcheck
    have hspec : ofParams p = .ok _ := ofParamsAs_eq_ok_iff.mpr ⟨hcheck, rfl⟩
    exact ⟨_, hspec, rfl, (parse_selection ⟨hperiods, hfactors⟩).trans hspec⟩
  · intro s spec h hfactors
    obtain ⟨hspec, hperiods⟩ := ofParams_of_parse h
    have hagain : parse spec.params.selection = .ok spec :=
      (parse_selection ⟨hperiods, hfactors⟩).trans hspec
    refine ⟨hagain, fun again h' => ?_⟩
    rw [Except.ok.inj (h'.symm.trans hagain)]

theorem selection_round_trip_bands :
    (∃ spec, ofParams (.bollinger 20 2.5) = .ok spec ∧ spec.params = .bollinger 20 2.5 ∧
      parse (Params.bollinger 20 2.5).selection = .ok spec) ∧
    ∃ spec, parse " BBands : 20 " = .ok spec ∧ parse spec.params.selection = .ok spec := by
  refine ⟨selection_round_trip.1 (.bollinger 20 2.5) (by decide) ?_ (by decide +kernel), ?_⟩
  · rintro x hx
    rw [List.mem_singleton.mp hx]
    decide +kernel
  · have hspec : (parse " BBands : 20 ").toOption =
        some ⟨"bollinger_20_2", .volatility, .bollinger 20 2⟩ := by decide +kernel
    refine ⟨_, toOption_eq_some_iff.mp hspec, ?_⟩
    refine (selection_round_trip.2 _ _ (toOption_eq_some_iff.mp hspec) ?_).1
    rintro x hx
    rw [List.mem_singleton.mp hx]
    decide +kernel

end Spec

end MarketVerdict
