import MarketVerdict.Fault
import MarketVerdict.Table

/-!
# Weighting profiles

A profile gives weights to single evaluations and to kinds of indicators; the weight of an evaluation
goes before that of its kind. Weights are finite and not negative, their total is finite, and at
least one of them is positive.
-/

namespace MarketVerdict

open Scalar

variable {α : Type}

/-- Weights by evaluation and by kind. -/
structure Weights (α : Type) where
  indicators : Table α
  kinds : Assignment Kind α

namespace Weights

def empty : Weights α := ⟨Table.empty, Assignment.none⟩

/-- The weights of `upper`, and those of `lower` where it has none. -/
def orElse (upper lower : Weights α) : Weights α :=
  ⟨upper.indicators.orElse lower.indicators, upper.kinds.orElse lower.kinds⟩

def kindEntries (w : Weights α) : List (Kind × α) := w.kinds.entries Kind.all

/-- The weight of an evaluation, else that of its kind. -/
def weightFor (w : Weights α) (indicator : String) (kind : Kind) : Option α :=
  (w.indicators.get? indicator).or (w.kinds kind)

/-- All weights under their names, evaluations first. -/
def named (w : Weights α) : List (String × α) :=
  w.indicators.entries ++ w.kindEntries.map fun e => (e.1.name, e.2)

variable [Scalar α]

def total (w : Weights α) : α := sum w.indicators.values + sum (w.kindEntries.map (·.2))

def checkWeight (entry : String × α) : Except (WeightFault α) Unit :=
  if ¬ isFinite entry.2 then .error (.notFinite entry.1)
  else if entry.2 < 0 then .error (.negative entry.1 entry.2)
  else .ok ()

/-- Finds the first fault of the weights. -/
def check (w : Weights α) : Except (WeightFault α) Unit := do
  w.named.forM checkWeight
  if ¬ isFinite w.total then .error .totalNotFinite
  else if w.total ≤ 0 then .error .allZero
  else .ok ()

end Weights

structure Profile (α : Type) where
  name : String
  weights : Weights α

namespace Profile

variable [Scalar α]

def check (p : Profile α) : Except (FusionError α) Unit :=
  p.weights.check.mapError (.invalidProfile p.name)

/-- The profile with these weights, if they are sound. -/
def make (name : String) (weights : Weights α) : Except (FusionError α) (Profile α) :=
  match check ⟨name, weights⟩ with
  | .error e => .error e
  | .ok () => .ok ⟨name, weights⟩

theorem make_eq_ok_iff {name : String} {weights : Weights α} {p : Profile α} :
    make name weights = .ok p ↔ p.check = .ok () ∧ p = ⟨name, weights⟩ := by
  unfold make
  split
  · next e he =>
    simp only [reduceCtorEq, false_iff, not_and]
    rintro h rfl
    rw [he] at h
    simp at h
  · next he =>
    simp only [Except.ok.injEq]
    constructor
    · rintro rfl
      exact ⟨he, rfl⟩
    · rintro ⟨_, rfl⟩
      rfl

end Profile

/-- A profile whose weights are given one by one; a weight given again replaces the one before. -/
structure ProfileDraft (α : Type) where
  name : String
  weights : Weights α

namespace ProfileDraft

def start (name : String) : ProfileDraft α := ⟨name, Weights.empty⟩

def indicator (d : ProfileDraft α) (indicator : String) (weight : α) : ProfileDraft α :=
  { d with weights.indicators := d.weights.indicators.insert indicator weight }

def kind (d : ProfileDraft α) (kind : Kind) (weight : α) : ProfileDraft α :=
  { d with weights.kinds := d.weights.kinds.set kind weight }

def build [Scalar α] (d : ProfileDraft α) : Except (FusionError α) (Profile α) :=
  Profile.make d.name d.weights

end ProfileDraft

end MarketVerdict
