import Mathlib.Data.List.Nodup
import MarketVerdict.Table

/-!
# Lookups

A table is determined by what it holds under each name. Putting entries into a table, or into an
assignment, leaves the last of the entries under each name and what was there under the others, so
that a table laid over another goes before it.
-/

namespace MarketVerdict

section Lists

variable {κ β : Type} [DecidableEq κ] {es : List (κ × β)} {k : κ} {v : β}

theorem mem_of_lookup (h : es.lookup k = some v) : (k, v) ∈ es := by
  obtain ⟨front, back, rfl, _⟩ := List.lookup_eq_some_iff.mp h
  exact List.mem_append_right _ List.mem_cons_self

theorem lookup_cons_ite (k' : κ) (v : β) :
    ((k', v) :: es).lookup k = if k = k' then some v else es.lookup k := by
  by_cases h : k = k'
  · simp [h]
  · have hbeq : (k == k') = false := beq_eq_false_iff_ne.mpr h
    simp [List.lookup_cons, h, hbeq]

theorem lookup_eq_some_iff_mem (hes : (es.map Prod.fst).Nodup) :
    es.lookup k = some v ↔ (k, v) ∈ es := by
  refine ⟨mem_of_lookup, fun h => ?_⟩
  obtain ⟨v', hv'⟩ := Option.isSome_iff_exists.mp
    (List.lookup_isSome_iff.mpr ⟨(k, v), h, beq_self_eq_true k⟩)
  cases List.inj_on_of_nodup_map hes (mem_of_lookup hv') h rfl
  exact hv'

theorem lookup_reverse (hes : (es.map Prod.fst).Nodup) : es.reverse.lookup k = es.lookup k := by
  have hreverse : (es.reverse.map Prod.fst).Nodup := by
    rw [List.map_reverse]
    exact List.nodup_reverse.mpr hes
  ext v
  rw [lookup_eq_some_iff_mem hreverse, lookup_eq_some_iff_mem hes, List.mem_reverse]

end Lists

namespace Table

variable {β : Type} {s t : Table β} {k : String} {v : β}

theorem get?_eq_lookup (t : Table β) (k : String) : t.get? k = t.entries.lookup k := by
  have hfind : ∀ es : List (String × β), (es.find? fun e => e.1 == k).map (·.2) = es.lookup k := by
    intro es
    induction es with
    | nil => rfl
    | cons e es ih =>
      obtain ⟨k', v⟩ := e
      rw [lookup_cons_ite, ← ih]
      by_cases h : k' = k
      · simp [h]
      · simp [h, Ne.symm h]
  exact hfind t.entries

theorem nodup_keys (t : Table β) : (t.entries.map Prod.fst).Nodup :=
  List.pairwise_map.mpr (t.ordered.imp fun h => String.ne_of_lt h)

theorem get?_eq_some_iff : t.get? k = some v ↔ (k, v) ∈ t.entries := by
  rw [get?_eq_lookup, lookup_eq_some_iff_mem t.nodup_keys]

theorem ext_get? (h : ∀ k, s.get? k = t.get? k) : s = t := by
  have hmem : ∀ e, e ∈ s.entries ↔ e ∈ t.entries := fun e => by
    rw [← get?_eq_some_iff (t := s), h, get?_eq_some_iff]
  have hentries : s.entries = t.entries :=
    List.Perm.eq_of_pairwise (fun a b _ _ hab hba => (String.lt_asymm hab hba).elim) s.ordered
      t.ordered ((List.perm_ext_iff_of_nodup s.nodup_keys.of_map t.nodup_keys.of_map).mpr hmem)
  cases s
  cases t
  cases hentries
  rfl

theorem get?_insertAll (t : Table β) (es : List (String × β)) (k : String) :
    (t.insertAll es).get? k = (es.reverse.lookup k).or (t.get? k) := by
  induction es generalizing t with
  | nil => rfl
  | cons e es ih =>
    obtain ⟨k', v⟩ := e
    change ((t.insert k' v).insertAll es).get? k = _
    rw [ih, get?_insert, List.reverse_cons, List.lookup_append, Option.or_assoc,
      lookup_cons_ite]
    by_cases h : k' = k
    · simp [h]
    · simp [h, Ne.symm h]

theorem get?_orElse (upper lower : Table β) (k : String) :
    (upper.orElse lower).get? k = (upper.get? k).or (lower.get? k) := by
  rw [orElse, get?_insertAll, lookup_reverse upper.nodup_keys, ← get?_eq_lookup]

theorem ofList_entries (t : Table β) : ofList t.entries = t :=
  ext_get? fun k => by
    rw [ofList, get?_insertAll, lookup_reverse t.nodup_keys, ← get?_eq_lookup, get?_empty,
      Option.or_none]

/-- The same names, and over them other values. -/
def map {γ : Type} (f : β → γ) (t : Table β) : Table γ :=
  ⟨t.entries.map fun e => (e.1, f e.2), List.pairwise_map.mpr t.ordered⟩

theorem get?_map {γ : Type} (f : β → γ) (t : Table β) (k : String) :
    (t.map f).get? k = (t.get? k).map f := by
  simp only [get?, map, List.find?_map, Option.map_map]
  rfl

theorem mem_of_mem_ofList {es : List (String × β)} {e : String × β}
    (h : e ∈ (ofList es).entries) : e ∈ es := by
  have hget : (ofList es).get? e.1 = some e.2 := get?_eq_some_iff.mpr h
  rw [ofList, get?_insertAll, get?_empty, Option.or_none] at hget
  exact List.mem_reverse.mp (mem_of_lookup hget)

end Table

namespace Assignment

variable {κ β : Type}

theorem mem_entries_iff {a : Assignment κ β} {keys : List κ} {k : κ} {v : β} :
    (k, v) ∈ a.entries keys ↔ k ∈ keys ∧ a k = some v := by
  simp [entries]

theorem entries_map {γ : Type} (f : β → γ) (a : Assignment κ β) (keys : List κ) :
    entries (fun k => (a k).map f) keys = (a.entries keys).map fun e => (e.1, f e.2) := by
  rw [entries, entries, List.map_filterMap]
  simp only [Option.map_map]
  rfl

theorem nodup_entries (a : Assignment κ β) {keys : List κ} (hkeys : keys.Nodup) :
    ((a.entries keys).map Prod.fst).Nodup := by
  rw [entries, List.map_filterMap]
  refine hkeys.filterMap fun k k' b hb hb' => ?_
  simp only [Option.map_map, Option.mem_def, Option.map_eq_some_iff] at hb hb'
  obtain ⟨⟨_, _, rfl⟩, ⟨_, _, hk⟩⟩ := hb, hb'
  exact hk.symm

variable [DecidableEq κ]

theorem setAll_apply (a : Assignment κ β) (es : List (κ × β)) (k : κ) :
    a.setAll es k = (es.reverse.lookup k).or (a k) := by
  induction es generalizing a with
  | nil => rfl
  | cons e es ih =>
    obtain ⟨k', v⟩ := e
    change (a.set k' v).setAll es k = _
    rw [ih, List.reverse_cons, List.lookup_append, Option.or_assoc,
      lookup_cons_ite, Assignment.set]
    by_cases h : k = k' <;> simp [h]

theorem mem_of_ofList {es : List (κ × β)} {k : κ} {v : β} (h : ofList es k = some v) :
    (k, v) ∈ es := by
  rw [ofList, setAll_apply, none, Option.or_none] at h
  exact List.mem_reverse.mp (mem_of_lookup h)

/-- All entries of an assignment, put over another, leave it alone where they stand. -/
theorem setAll_entries (a lower : Assignment κ β) {keys : List κ} (hkeys : keys.Nodup)
    (hall : ∀ k, k ∈ keys) : lower.setAll (a.entries keys) = a.orElse lower := by
  funext k
  have hlookup : (a.entries keys).lookup k = a k := by
    ext v
    rw [lookup_eq_some_iff_mem (nodup_entries a hkeys), mem_entries_iff]
    exact and_iff_right (hall k)
  rw [setAll_apply, lookup_reverse (nodup_entries a hkeys), hlookup, orElse]

theorem ofList_entries (a : Assignment κ β) {keys : List κ} (hkeys : keys.Nodup)
    (hall : ∀ k, k ∈ keys) : ofList (a.entries keys) = a := by
  rw [ofList, setAll_entries a none hkeys hall]
  exact funext fun k => Option.or_none

/-- The values have a property, and there is one wherever `lower` has one. -/
structure Covers (a lower : Assignment κ β) (P : β → Prop) : Prop where
  of_some : ∀ k v, a k = some v → P v
  of_none : ∀ k, a k = Option.none → lower k = Option.none

theorem covers_setAll {lower : Assignment κ β} {es : List (κ × β)} {P : β → Prop}
    (hlower : ∀ k v, lower k = some v → P v) (hes : ∀ e ∈ es, P e.2) :
    (lower.setAll es).Covers lower P := by
  constructor
  · intro k v h
    rw [setAll_apply] at h
    rcases Option.or_eq_some_iff.mp h with h | ⟨_, h⟩
    · exact hes (k, v) (List.mem_reverse.mp (mem_of_lookup h))
    · exact hlower k v h
  · intro k h
    rw [setAll_apply] at h
    exact (Option.or_eq_none_iff.mp h).2

theorem Covers.setAll_entries {a lower : Assignment κ β} {P : β → Prop} (h : a.Covers lower P)
    {keys : List κ} (hkeys : keys.Nodup) (hall : ∀ k, k ∈ keys) :
    lower.setAll (a.entries keys) = a := by
  rw [Assignment.setAll_entries a lower hkeys hall]
  funext k
  rw [orElse]
  cases hk : a k with
  | some v => rfl
  | none => rw [Option.none_or, h.of_none k hk]

end Assignment

end MarketVerdict
