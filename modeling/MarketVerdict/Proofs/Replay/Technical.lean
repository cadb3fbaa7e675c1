import MarketVerdict.Proofs.Fusion.Shape
import MarketVerdict.Proofs.Replay.Stops

/-!
# Replays of the built-in indicators

A replay of built-in indicators comes to no halt: what it finds at a stop is the evaluation of their
readings there.
-/

namespace MarketVerdict.Replay

open Scalar Traversal

variable {α : Type} [Scalar α]

/-- A replay of the built-in indicators with the given curves. -/
def technical (curves : Curves α) (registry : Registry α) (thresholds : Thresholds α)
    (specs : List (Spec α)) (profile : Profile α) : Replay α :=
  ⟨⟨Normalizer.ofCurves curves, registry, thresholds⟩, Provider.technical, specs, profile⟩

theorem run_of_not_pos (r : Replay α) (s : Series α) {capital : α} (hcapital : ¬ 0 < capital)
    (warmup : ℕ) :
    r.run s capital warmup = .error (.failed (.invalidBacktest (.capital capital))) :=
  run_eq_error_iff.mpr (Or.inl ⟨fun h => hcapital h.2, rfl⟩)

variable {curves : Curves α} {registry : Registry α} {thresholds : Thresholds α}
  {specs : List (Spec α)} {profile : Profile α}

theorem readings_technical (specs : List (Spec α)) (s : Series α) :
    readings Provider.technical specs s = .ok (Technical.readings specs s) := List.mapM_pure ..

theorem verdict_technical (s : Series α) (time : Instant) :
    (technical curves registry thresholds specs profile).verdict s time =
      ((technical curves registry thresholds specs profile).context.evaluate
        (Technical.readings specs s) profile time).mapError .failed := by
  rw [verdict, technical, readings_technical]
  rfl

end MarketVerdict.Replay
