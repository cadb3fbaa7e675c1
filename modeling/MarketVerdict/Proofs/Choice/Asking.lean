import MarketVerdict.Desk

/-!
# Asking a provider

An evaluation of a provider that always answers does not time out: it makes the signals of its choices
and fuses them.
-/

namespace MarketVerdict

variable {α : Type}

/-- What is asked of the provider for each of the choices, beside the choice. -/
def Choice.asked (p : Provider α) (s : Series α) (choices : List (Choice α)) :
    List (Choice α × Option (Answer α)) :=
  choices.map fun c => (c, c.ask p s)

theorem Choice.not_stalled_of_asked {p : Provider α} (hp : p.Total) (s : Series α)
    (choices : List (Choice α)) :
    ((asked p s choices).any fun o => o.2.any Answer.isStalled) = false := by
  rw [asked, List.any_map, List.any_eq_false]
  intro choice _
  cases choice with
  | degraded id kind => nofun
  | valid spec =>
    simp only [Function.comp_apply, ask, Option.any_some]
    cases h : p spec s with
    | reading r => nofun
    | failed cause => nofun
    | halted how => exact absurd h (hp spec s how)

theorem Context.verdict_of_total [Scalar α] {c : Context α} {p : Provider α} (hp : p.Total)
    (timeout : Nat) (choices : List (Choice α)) (profile : Profile α) (s : Series α)
    (time : Instant) :
    c.verdict p timeout choices profile s time =
      (do
        let verdict ← c.fuse (← Choice.signals c.normalizer (Choice.asked p s choices)) profile time
        return verdict.forInstrument s.instrument (s.last?.map Bar.close)) := by
  have hstalled := Choice.not_stalled_of_asked hp s choices
  unfold Context.verdict
  rw [Choice.asked] at hstalled ⊢
  simp only [hstalled]
  rfl

end MarketVerdict
