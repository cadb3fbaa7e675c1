import Mathlib
import MarketVerdict.Json.Decode
import MarketVerdict.Proofs.Arithmetic.Share

/-!
# The numbers of a text

A number beyond the range of doubles is unreadable, and whole numbers have at most 64 bits, so that
every number in the value of a text is finite, and so is every double that is read from it.
-/

namespace MarketVerdict.Json

open Double

mutual

/-- All numbers in the value are finite. -/
def IsFinite : Json → Prop
  | number n => n.toFloat.isFinite = true
  | array items => AreFinite items
  | object fields => FieldsAreFinite fields
  | _ => True

def AreFinite : List Json → Prop
  | [] => True
  | j :: rest => IsFinite j ∧ AreFinite rest

def FieldsAreFinite : List (Option String × Json) → Prop
  | [] => True
  | (_, j) :: rest => IsFinite j ∧ FieldsAreFinite rest

end

theorem isFinite_of_readFloat {j : Json} {x : Float} (h : j.IsFinite) (hx : readFloat j = .ok x) :
    x.isFinite = true := by
  unfold readFloat at hx
  split at hx
  · cases hx
    exact h
  · cases hx

theorem isFinite_wholeNumber (negative : Bool) (n : ℕ) :
    (wholeNumber negative n).IsFinite ∨ ∃ x, wholeNumber negative n = number (.real x) := by
  unfold wholeNumber
  split
  · split
    · next h => exact Or.inl (isFinite_neg_ofNat (by omega))
    · exact Or.inr ⟨_, rfl⟩
  · split
    · next h => exact Or.inl (isFinite_ofNat (by omega))
    · exact Or.inr ⟨_, rfl⟩

theorem isFinite_realNumber (d : Text.Scientific) : (realNumber d).IsFinite := by
  unfold realNumber
  dsimp only
  split
  · next h => exact h
  · trivial

theorem isFinite_of_readNumber? {cs rest : List Char} {j : Json}
    (h : readNumber? cs = some (j, rest)) : j.IsFinite := by
  unfold readNumber? at h
  dsimp only at h
  -- The cases are those of the sign, and the digits after it are read in the same way.
  split at h
  all_goals
    dsimp only at h
    split at h
    · cases h
    · obtain ⟨⟨fraction, afterFraction⟩, _, h⟩ := Option.bind_eq_some_iff.mp h
      obtain ⟨⟨power, afterPower⟩, _, h⟩ := Option.bind_eq_some_iff.mp h
      dsimp only at h
      split at h
      · split at h
        · next x hx =>
          split at h
          · next hfinite =>
            cases h
            rw [hx]
            exact hfinite
          · cases h
            trivial
        · next hreal =>
          cases h
          exact (isFinite_wholeNumber _ _).resolve_right fun ⟨x, hx⟩ => hreal x hx
      · cases h
        exact isFinite_realNumber _

theorem isFinite_ofLiteral {found : Option (Json × List Char)}
    (h : ∀ j rest, found = some (j, rest) → j.IsFinite) : (ofLiteral found).1.IsFinite := by
  unfold ofLiteral
  split
  · exact h _ _ rfl
  · trivial

theorem isFinite_ofText (found : Option (Option String × List Char)) :
    (ofText found).1.IsFinite := by
  unfold ofText
  split <;> trivial

theorem isFinite_readWord? {word cs rest : List Char} {j j' : Json} (hj : j.IsFinite)
    (h : readWord? word j cs = some (j', rest)) : j'.IsFinite := by
  unfold readWord? at h
  split at h
  · cases h
    exact hj
  · cases h

/-- Whatever the steps left and the text, the numbers that are read are finite. -/
theorem isFinite_read (fuel : ℕ) :
    (∀ cs, (readValue fuel cs).1.IsFinite) ∧ (∀ cs, AreFinite (readItems fuel cs).1) ∧
      ∀ cs, FieldsAreFinite (readFields fuel cs).1 := by
  induction fuel with
  | zero => exact ⟨fun _ => trivial, fun _ => ⟨trivial, trivial⟩, fun _ => ⟨trivial, trivial⟩⟩
  | succ fuel ih =>
    obtain ⟨hvalue, hitems, hfields⟩ := ih
    refine ⟨fun cs => ?_, fun cs => ?_, fun cs => ?_⟩
    · unfold readValue
      split
      · split
        · trivial
        · exact hfields _
      · split
        · trivial
        · exact hitems _
      · exact isFinite_ofText _
      · exact isFinite_ofLiteral fun _ _ => isFinite_readWord? trivial
      · exact isFinite_ofLiteral fun _ _ => isFinite_readWord? trivial
      · exact isFinite_ofLiteral fun _ _ => isFinite_readWord? trivial
      · exact isFinite_ofLiteral fun _ _ => isFinite_of_readNumber?
    · unfold readItems
      have hj := hvalue cs
      split
      · next h =>
        rw [h] at hj
        exact ⟨hj, trivial⟩
      · next h =>
        rw [h] at hj
        split
        · exact ⟨hj, trivial⟩
        · exact ⟨hj, hitems _⟩
        · exact ⟨hj, trivial, trivial⟩
    · unfold readFields
      split
      · split
        · exact ⟨trivial, trivial⟩
        · split
          · next rest _ =>
            have hj := hvalue (skipGaps rest)
            split
            · next h =>
              rw [h] at hj
              exact ⟨hj, trivial⟩
            · next h =>
              rw [h] at hj
              split
              · exact ⟨hj, trivial⟩
              · exact ⟨hj, hfields _⟩
              · exact ⟨hj, trivial, trivial⟩
          · exact ⟨trivial, trivial⟩
      · exact ⟨trivial, trivial⟩

theorem isFinite_parse (s : String) : (parse s).root.IsFinite := by
  have hvalue := (isFinite_read (2 * (skipGaps s.toList).length + 2)).1 (skipGaps s.toList)
  unfold parse
  dsimp only
  split
  · next h =>
    rw [h] at hvalue
    exact hvalue
  · next h =>
    rw [h] at hvalue
    exact hvalue

end MarketVerdict.Json
