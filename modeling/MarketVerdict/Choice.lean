import MarketVerdict.Fault
import MarketVerdict.Text.Blank

/-!
# The choices of a request

A request lists selections. One with faulty parameters still names its indicator and takes part
without data; one that names no indicator is a fault of the whole request. Selections that come to
the same evaluation count once, at the first of their places.
-/

namespace MarketVerdict

variable {α : Type}

inductive Choice (α : Type) where
  | valid (spec : Spec α)
  | degraded (id : String) (kind : Kind)

namespace Choice

def id : Choice α → String
  | valid spec => spec.id
  | degraded id _ => id

def kind : Choice α → Kind
  | valid spec => spec.kind
  | degraded _ kind => kind

def spec? : Choice α → Option (Spec α)
  | valid spec => some spec
  | degraded .. => none

/-- The specifications among the choices. -/
def specs (choices : List (Choice α)) : List (Spec α) := choices.filterMap spec?

/-- The first choice of each identity, in the order of the list. -/
def distinct : List (Choice α) → List (Choice α)
  | [] => []
  | c :: rest => c :: (distinct rest).filter fun d => d.id != c.id

/-- Reads a selection without blanks around it. -/
def parse (selection : String) : Except (FusionError Float) (Choice Float) :=
  match Spec.parse selection with
  | .ok spec => .ok (valid spec)
  | .error e =>
    match Indicator.parse (splitSelection selection).1 with
    | .ok indicator => .ok (degraded selection indicator.defaultKind)
    | .error _ => .error (e.toSpecError selection)

def parseAll (selections : List String) : Except (FusionError Float) (List (Choice Float)) := do
  return distinct (← selections.mapM fun s => parse (Text.trim s))

/-- The choices of a request, which are the defaults if it lists no selection. -/
def ofSelections (defaults : List (Spec Float)) (selections : Option (List String)) :
    Except (FusionError Float) (List (Choice Float)) :=
  match selections with
  | none => .ok (defaults.map valid)
  | some [] => .ok (defaults.map valid)
  | some (s :: rest) => parseAll (s :: rest)

theorem mem_of_mem_distinct {c : Choice α} {choices : List (Choice α)}
    (h : c ∈ distinct choices) : c ∈ choices := by
  induction choices with
  | nil => exact h
  | cons d rest ih =>
    rcases List.mem_cons.mp h with rfl | h
    · exact List.mem_cons_self
    · exact List.mem_cons_of_mem _ (ih (List.mem_filter.mp h).1)

/-- No two choices that are kept have one identity. -/
theorem pairwise_distinct (choices : List (Choice α)) :
    (distinct choices).Pairwise fun c d => c.id ≠ d.id := by
  induction choices with
  | nil => exact List.Pairwise.nil
  | cons c rest ih =>
    refine List.pairwise_cons.mpr ⟨?_, ih.filter _⟩
    intro d hd
    have hne : d.id ≠ c.id := by simpa using (List.mem_filter.mp hd).2
    exact hne.symm

end Choice

end MarketVerdict
