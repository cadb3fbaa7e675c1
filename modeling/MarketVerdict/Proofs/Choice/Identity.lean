import Mathlib.Data.List.Nodup
import MarketVerdict.Choice
import MarketVerdict.Proofs.Traversal

/-!
# The identities of choices

The choices of a request that lists selections have distinct identities; the default choices may
repeat one, but none of them is degraded. In both cases no degraded choice shares its identity with a
choice that is asked for.
-/

namespace MarketVerdict.Choice

open Traversal

section Lists

variable {α : Type} {choices : List (Choice α)}

theorem distinct_eq_self_iff : distinct choices = choices ↔ (choices.map id).Nodup := by
  constructor
  · intro h
    rw [← h]
    exact List.pairwise_map.mpr (pairwise_distinct choices)
  · intro h
    induction choices with
    | nil => rfl
    | cons c choices ih =>
      obtain ⟨hc, hrest⟩ := List.nodup_cons.mp h
      rw [distinct, ih hrest, List.filter_eq_self.mpr fun d hd => ?_]
      exact bne_iff_ne.mpr fun hid => hc (hid ▸ List.mem_map_of_mem hd)

theorem map_id_valid (specs : List (Spec α)) : (specs.map valid).map id = specs.map Spec.id := by
  rw [List.map_map]
  rfl

theorem mem_of_mem_specs {spec : Spec α} (h : spec ∈ specs choices) : valid spec ∈ choices := by
  obtain ⟨c, hc, hspec⟩ := List.mem_filterMap.mp h
  cases c with
  | valid spec' =>
    cases hspec
    exact hc
  | degraded id kind => cases hspec

theorem nodup_specs (h : (choices.map id).Nodup) : ((specs choices).map Spec.id).Nodup := by
  refine h.sublist ?_
  induction choices with
  | nil => exact List.Sublist.slnil
  | cons c choices ih =>
    have hrest := ih h.of_cons
    cases c with
    | valid spec => exact hrest.cons_cons spec.id
    | degraded id kind => exact hrest.cons id

def isDegraded : Choice α → Bool
  | valid _ => false
  | degraded .. => true

/-- The identities of the degraded choices. -/
def degradedIds (choices : List (Choice α)) : List String := (choices.filter isDegraded).map id

theorem mem_degradedIds {c : Choice α} (hc : c ∈ choices) (h : c.isDegraded = true) :
    c.id ∈ degradedIds choices :=
  List.mem_map_of_mem (List.mem_filter.mpr ⟨hc, h⟩)

/-- No degraded choice has the identity of another choice. -/
def Separate (choices : List (Choice α)) : Prop :=
  ∀ c ∈ choices, c.isDegraded = false → c.id ∉ degradedIds choices

end Lists

variable {selections : Option (List String)} {choices : List (Choice Float)}

theorem ofSelections_of_unlisted (defaults : List (Spec Float)) (h : selections.getD [] = []) :
    ofSelections defaults selections = .ok (defaults.map valid) := by
  cases selections with
  | none => rfl
  | some listed =>
    obtain rfl : listed = [] := h
    rfl

theorem nodup_of_listed {defaults : List (Spec Float)} (hlisted : selections.getD [] ≠ [])
    (h : ofSelections defaults selections = .ok choices) : (choices.map id).Nodup := by
  match selections with
  | none | some [] => exact absurd rfl hlisted
  | some (s :: rest) =>
    obtain ⟨parsed, _, h⟩ := bind_eq_ok_iff.mp h
    cases h
    exact List.pairwise_map.mpr (pairwise_distinct parsed)

/-- The selections of a request and the default ones are separate. -/
theorem separate_of_ofSelections {defaults : List (Spec Float)}
    (h : ofSelections defaults selections = .ok choices) : Separate choices := by
  intro c hc hvalid hid
  obtain ⟨d, hd, hids⟩ := List.mem_map.mp hid
  obtain ⟨hmem, hdegraded⟩ := List.mem_filter.mp hd
  by_cases hlisted : selections.getD [] = []
  · rw [ofSelections_of_unlisted defaults hlisted] at h
    cases h
    obtain ⟨spec, _, rfl⟩ := List.mem_map.mp hmem
    cases hdegraded
  · obtain rfl := List.inj_on_of_nodup_map (nodup_of_listed hlisted h) hmem hc hids
    rw [hvalid] at hdegraded
    cases hdegraded

end MarketVerdict.Choice
