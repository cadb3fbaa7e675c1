import MarketVerdict.Json.Basic
import MarketVerdict.Proofs.Table

/-!
# Values that are settled

Settling a value keeps the last field of each name and demands that all of it is readable. A record
whose names are distinct and whose values are settled stays as it is.
-/

namespace MarketVerdict.Json

variable {depth : ℕ}

theorem lastFields_of_nodup {fields : List (String × Json)} (h : (fields.map Prod.fst).Nodup) :
    lastFields fields = fields := by
  induction fields with
  | nil => rfl
  | cons f rest ih =>
    obtain ⟨hfresh, hrest⟩ := List.nodup_cons.mp h
    have hnone : rest.any (·.1 == f.1) = false := by
      rw [List.any_eq_false]
      intro f' hf' hname
      exact hfresh (List.mem_map.mpr ⟨f', hf', eq_of_beq hname⟩)
    change (if (lastFields rest).any (·.1 == f.1) then _ else f :: lastFields rest) = _
    rw [ih hrest, hnone]
    rfl

theorem settledItems?_of_settled {items : List Json}
    (h : ∀ j ∈ items, j.settled? depth = some j) : settledItems? depth items = some items := by
  induction items with
  | nil => rfl
  | cons j items ih =>
    obtain ⟨hj, hitems⟩ := List.forall_mem_cons.mp h
    simp only [settledItems?, hj, ih hitems]
    rfl

theorem settledFields?_of_settled {fields : List (String × Json)}
    (h : ∀ f ∈ fields, f.2.settled? depth = some f.2) :
    settledFields? depth (fields.map fun f => (some f.1, f.2)) = some fields := by
  induction fields with
  | nil => rfl
  | cons f fields ih =>
    obtain ⟨hf, hfields⟩ := List.forall_mem_cons.mp h
    simp only [List.map_cons, settledFields?, hf, ih hfields]
    rfl

theorem settled?_texts (items : List String) :
    (texts items).settled? (depth + 1) = some (texts items) := by
  have hitems : ∀ j ∈ items.map text, j.settled? depth = some j :=
    List.forall_mem_map.mpr fun _ _ => by simp only [settled?]
  simp only [texts, settled?, settledItems?_of_settled hitems, Option.map_some]

theorem settled?_record {fields : List (String × Json)} (hnodup : (fields.map Prod.fst).Nodup)
    (h : ∀ f ∈ fields, f.2.settled? depth = some f.2) :
    (record fields).settled? (depth + 1) = some (record fields) := by
  simp only [record, settled?, settledFields?_of_settled h, Option.map_some,
    lastFields_of_nodup hnodup]

end MarketVerdict.Json
