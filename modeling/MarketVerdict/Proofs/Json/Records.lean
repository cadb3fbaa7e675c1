import MarketVerdict.Proofs.Json.Finite
import MarketVerdict.Proofs.Table
import MarketVerdict.Proofs.Traversal

/-!
# What a record and a map give

A record that is read holds under each of its fields what the value gives for it, by name or by
place, and what it started with where nothing is given. A map holds the last value of each name.
What every field keeps holds of the whole record.
-/

namespace MarketVerdict.Json

open Traversal

variable {σ β γ κ : Type}

/-- The value that a record gives for a name, by its place if the record is a list. -/
def Schema.given? (schema : Schema σ) (name : String) : Json → Option Json
  | array items => ((schema.fields.map Prod.fst).zip items).lookup name
  | j => j.get? name

theorem get?_cons (name : String) (f : Option String × Json) (rest : List (Option String × Json)) :
    (object (f :: rest)).get? name =
      ((object rest).get? name).or (if f.1 = some name then some f.2 else none) := by
  simp only [get?, List.reverse_cons, List.find?_append]
  cases rest.reverse.find? fun f => f.1 == some name with
  | some f' => rfl
  | none =>
    by_cases h : f.1 = some name
    · simp [h]
    · simp [h, beq_eq_false_iff_ne.mpr h]

theorem get?_record {fields : List (String × Json)} (hnodup : (fields.map Prod.fst).Nodup)
    (name : String) : (record fields).get? name = fields.lookup name := by
  induction fields with
  | nil => rfl
  | cons f fields ih =>
    obtain ⟨hfresh, hnodup⟩ := List.nodup_cons.mp hnodup
    have hcons : (record (f :: fields)).get? name =
        ((record fields).get? name).or (if some f.1 = some name then some f.2 else none) :=
      get?_cons name (some f.1, f.2) _
    rw [hcons, ih hnodup, lookup_cons_ite]
    by_cases hname : name = f.1
    · have hnone : fields.lookup name = none := List.lookup_eq_none_iff.mpr fun f' hf' => by
        rw [bne_iff_ne, hname]
        exact fun heq => hfresh (List.mem_map.mpr ⟨f', hf', heq.symm⟩)
      rw [hnone, if_pos (congrArg some hname.symm), if_pos hname, Option.none_or]
    · rw [if_neg fun h => hname (Option.some.inj h).symm, if_neg hname, Option.or_none]

section Fields

variable {name : String} {value : Read β} {put : σ → β → σ} {s s' : σ} {j : Json}

theorem field_eq_ok_iff :
    (field name value put).2 s j = .ok s' ↔ ∃ v, value j = .ok v ∧ put s v = s' := by
  change (value j).map (put s) = .ok s' ↔ _
  cases value j <;> simp [Except.map]

theorem exists_read_of_lookup {fields : List (String × (σ → Read σ))} {v : β}
    (hfield : fields.lookup name = some (field name value put).2) (hvalue : value j = .ok v) :
    ∃ read, fields.lookup name = some read ∧ ∀ s, ∃ s', read s j = .ok s' :=
  ⟨_, hfield, fun _ => ⟨_, field_eq_ok_iff.mpr ⟨v, hvalue, rfl⟩⟩⟩

/-- Reading the field leaves a component of the record as it is. -/
def Leaves (get : σ → γ) (f : String × (σ → Read σ)) : Prop :=
  ∀ s j s', f.2 s j = .ok s' → get s' = get s

theorem leaves_field {get : σ → γ} (h : ∀ s v, get (put s v) = get s) :
    Leaves get (field name value put) := by
  intro s j s' hs
  obtain ⟨v, _, rfl⟩ := field_eq_ok_iff.mp hs
  exact h s v

end Fields

/-- What the first field of an object does: it is known and stands for the first time, or the record
does not know it. -/
theorem readFields_cons_eq_ok {schema : Schema σ} {seen : List String} {start s : σ}
    {f : Option String × Json} {fields : List (Option String × Json)}
    (h : schema.readFields seen start (f :: fields) = .ok s) :
    ∃ n, f.1 = some n ∧
      ((∃ read state, schema.fields.lookup n = some read ∧ n ∉ seen ∧ read start f.2 = .ok state ∧
          schema.readFields (n :: seen) state fields = .ok s) ∨
        schema.fields.lookup n = none ∧ schema.readFields seen start fields = .ok s) := by
  obtain ⟨n, j⟩ := f
  cases n with
  | none => cases h
  | some n =>
    refine ⟨n, rfl, ?_⟩
    unfold Schema.readFields at h
    split at h
    · next read hread =>
      split at h
      · cases h
      · next hseen =>
        split at h
        · next state hstate => exact Or.inl ⟨read, state, hread, hseen, hstate, h⟩
        · cases h
    · next hunknown =>
      split at h
      · cases h
      · split at h
        · cases h
        · exact Or.inr ⟨hunknown, h⟩

/-- A component that no field of the object concerns stays as it is. -/
theorem readFields_leaves {schema : Schema σ} {get : σ → γ} {fields : List (Option String × Json)}
    (h : ∀ f ∈ schema.fields, some f.1 ∈ fields.map Prod.fst → Leaves get f) {seen : List String}
    {start s : σ} (hs : schema.readFields seen start fields = .ok s) : get s = get start := by
  induction fields generalizing seen start with
  | nil =>
    cases hs
    rfl
  | cons f fields ih =>
    replace ih := @ih fun f' hf' hmem => h f' hf' (List.mem_cons_of_mem _ hmem)
    obtain ⟨n, hn, ⟨read, state, hread, _, hstate, hs⟩ | ⟨_, hs⟩⟩ := readFields_cons_eq_ok hs
    · have hmem : some n ∈ (f :: fields).map Prod.fst := by
        rw [List.map_cons, hn]
        exact List.mem_cons_self
      exact (ih hs).trans (h _ (mem_of_lookup hread) hmem _ _ _ hstate)
    · exact ih hs

/-- A record reads when its names are distinct and known and each value reads. -/
theorem exists_readFields {schema : Schema σ} {fields : List (String × Json)}
    (hnodup : (fields.map Prod.fst).Nodup)
    (hreads : ∀ f ∈ fields, ∃ read, schema.fields.lookup f.1 = some read ∧
      ∀ s, ∃ s', read s f.2 = .ok s')
    {seen : List String} (hseen : ∀ f ∈ fields, f.1 ∉ seen) (start : σ) :
    ∃ s, schema.readFields seen start (fields.map fun f => (some f.1, f.2)) = .ok s := by
  induction fields generalizing seen start with
  | nil => exact ⟨start, rfl⟩
  | cons f fields ih =>
    obtain ⟨hfresh, hnodup⟩ := List.nodup_cons.mp hnodup
    obtain ⟨⟨read, hlookup, hread⟩, hreads⟩ := List.forall_mem_cons.mp hreads
    obtain ⟨hfseen, hseen⟩ := List.forall_mem_cons.mp hseen
    obtain ⟨state, hstate⟩ := hread start
    obtain ⟨s, hs⟩ : ∃ s, schema.readFields (f.1 :: seen) state
        (fields.map fun f => (some f.1, f.2)) = .ok s := by
      refine ih hnodup hreads (fun f' hf' hmem => ?_) state
      rcases List.mem_cons.mp hmem with heq | hmem
      · exact hfresh (List.mem_map.mpr ⟨f', hf', heq⟩)
      · exact hseen f' hf' hmem
    refine ⟨s, ?_⟩
    simp only [List.map_cons, Schema.readFields, hlookup, if_neg hfseen, hstate]
    exact hs

theorem readPlaces_cons_eq_ok {f : String × (σ → Read σ)} {fields : List (String × (σ → Read σ))}
    {start s : σ} {j : Json} {items : List Json}
    (h : readPlaces (f :: fields) start (j :: items) = .ok s) :
    ∃ state, f.2 start j = .ok state ∧ readPlaces fields state items = .ok s := by
  unfold readPlaces at h
  split at h
  · next state hstate => exact ⟨state, hstate, h⟩
  · cases h

section Given

variable {schema : Schema σ} {name : String} {value : Read β} {put : σ → β → σ} {get : σ → γ}
  {g : β → γ} {start s : σ} {j : Json}

/-- A known field stands only once, so that no second one is given. -/
theorem readFields_of_mem_seen (hknown : (schema.fields.lookup name).isSome)
    (hothers : ∀ f ∈ schema.fields, f.1 ≠ name → Leaves get f)
    {fields : List (Option String × Json)} {seen : List String} (hseen : name ∈ seen)
    (h : schema.readFields seen start fields = .ok s) :
    (object fields).get? name = none ∧ get s = get start := by
  induction fields generalizing seen start with
  | nil =>
    cases h
    exact ⟨rfl, rfl⟩
  | cons f fields ih =>
    obtain ⟨n, hn, hstep⟩ := readFields_cons_eq_ok h
    -- A second field of this name would be a fault.
    have hne : n ≠ name := by
      rintro rfl
      rcases hstep with ⟨_, _, _, hfresh, _⟩ | ⟨hunknown, _⟩
      · exact hfresh hseen
      · rw [hunknown] at hknown
        cases hknown
    rw [get?_cons, hn, if_neg fun h => hne (Option.some.inj h), Option.or_none]
    rcases hstep with ⟨read, state, hread, _, hstate, h⟩ | ⟨_, h⟩
    · obtain ⟨hget, hs⟩ := ih (List.mem_cons_of_mem n hseen) h
      exact ⟨hget, hs.trans (hothers _ (mem_of_lookup hread) hne _ _ _ hstate)⟩
    · exact ih hseen h

theorem readFields_given (hfield : schema.fields.lookup name = some (field name value put).2)
    (hput : ∀ s v, get (put s v) = g v) (hothers : ∀ f ∈ schema.fields, f.1 ≠ name → Leaves get f)
    {fields : List (Option String × Json)} {seen : List String} (hseen : name ∉ seen)
    (h : schema.readFields seen start fields = .ok s) :
    ((object fields).get? name).elim (get s = get start) fun j =>
      ∃ v, value j = .ok v ∧ get s = g v := by
  induction fields generalizing seen start with
  | nil =>
    cases h
    rfl
  | cons f fields ih =>
    obtain ⟨n, hn, hstep⟩ := readFields_cons_eq_ok h
    rw [get?_cons, hn]
    by_cases hname : n = name
    · subst hname
      rcases hstep with ⟨read, state, hread, _, hstate, h⟩ | ⟨hunknown, _⟩
      · rw [hfield] at hread
        cases hread
        obtain ⟨v, hv, rfl⟩ := field_eq_ok_iff.mp hstate
        obtain ⟨hget, hs⟩ := readFields_of_mem_seen (by rw [hfield]; rfl) hothers
          List.mem_cons_self h
        rw [hget, if_pos rfl]
        exact ⟨v, hv, hs.trans (hput _ _)⟩
      · rw [hfield] at hunknown
        cases hunknown
    · rw [if_neg fun h => hname (Option.some.inj h), Option.or_none]
      rcases hstep with ⟨read, state, hread, _, hstate, h⟩ | ⟨_, h⟩
      · rw [← hothers _ (mem_of_lookup hread) hname _ _ _ hstate]
        exact ih (fun h => (List.mem_cons.mp h).elim (Ne.symm hname) hseen) h
      · exact ih hseen h

theorem readPlaces_leaves {fields : List (String × (σ → Read σ))} (h : ∀ f ∈ fields, Leaves get f)
    {items : List Json} (hs : readPlaces fields start items = .ok s) : get s = get start := by
  induction fields generalizing start items with
  | nil =>
    cases items with
    | nil =>
      cases hs
      rfl
    | cons j items => cases hs
  | cons f fields ih =>
    cases items with
    | nil =>
      cases hs
      rfl
    | cons j items =>
      obtain ⟨state, hstate, hs⟩ := readPlaces_cons_eq_ok hs
      exact (ih (fun f hf => h f (List.mem_cons_of_mem _ hf)) hs).trans
        (h f List.mem_cons_self _ _ _ hstate)

theorem readPlaces_given {fields : List (String × (σ → Read σ))}
    (hnodup : (fields.map Prod.fst).Nodup)
    (hfield : fields.lookup name = some (field name value put).2)
    (hput : ∀ s v, get (put s v) = g v) (hothers : ∀ f ∈ fields, f.1 ≠ name → Leaves get f)
    {items : List Json} (h : readPlaces fields start items = .ok s) :
    (((fields.map Prod.fst).zip items).lookup name).elim (get s = get start) fun j =>
      ∃ v, value j = .ok v ∧ get s = g v := by
  induction fields generalizing start items with
  | nil => cases hfield
  | cons f fields ih =>
    obtain ⟨n, read⟩ := f
    obtain ⟨hfresh, hnodup⟩ := List.nodup_cons.mp hnodup
    cases items with
    | nil =>
      cases h
      rfl
    | cons j items =>
      obtain ⟨state, hstate, h⟩ := readPlaces_cons_eq_ok h
      rw [List.map_cons, List.zip_cons_cons, lookup_cons_ite]
      rw [lookup_cons_ite] at hfield
      by_cases hn : name = n
      · subst hn
        rw [if_pos rfl] at hfield ⊢
        cases hfield
        obtain ⟨v, hv, rfl⟩ := field_eq_ok_iff.mp hstate
        refine ⟨v, hv, (readPlaces_leaves (fun f hf => ?_) h).trans (hput _ _)⟩
        exact hothers f (List.mem_cons_of_mem _ hf) fun hname =>
          hfresh (List.mem_map.mpr ⟨f, hf, hname⟩)
      · rw [if_neg hn] at hfield ⊢
        rw [← hothers _ List.mem_cons_self (Ne.symm hn) _ _ _ hstate]
        exact ih hnodup hfield (fun f hf => hothers f (List.mem_cons_of_mem _ hf)) h

/-- A component holds what is given for its field, else what the record started with. -/
theorem readRecord_given (get : σ → γ) (hnodup : (schema.fields.map Prod.fst).Nodup)
    (hfield : schema.fields.lookup name = some (field name value put).2)
    (hput : ∀ s v, get (put s v) = g v) (hothers : ∀ f ∈ schema.fields, f.1 ≠ name → Leaves get f)
    (h : readRecord schema start j = .ok s) :
    (schema.given? name j).elim (get s = get start) fun j => ∃ v, value j = .ok v ∧ get s = g v := by
  cases j with
  | object fields => exact readFields_given hfield hput hothers List.not_mem_nil h
  | array items => exact readPlaces_given hnodup hfield hput hothers h
  | _ => cases h

/-- An optional component is what its field gives; a field that is left out counts as null. -/
theorem readRecord_optional {put : σ → Option β → σ} (get : σ → Option β)
    (hnodup : (schema.fields.map Prod.fst).Nodup)
    (hfield : schema.fields.lookup name = some (field name (readOptional value) put).2)
    (hput : ∀ s v, get (put s v) = v) (hothers : ∀ f ∈ schema.fields, f.1 ≠ name → Leaves get f)
    (hstart : get start = none) (h : readRecord schema start j = .ok s) :
    readOptional value ((schema.given? name j).getD null) = .ok (get s) := by
  have hgiven := readRecord_given get hnodup hfield hput hothers h
  revert hgiven
  cases schema.given? name j with
  | none =>
    intro hs
    rw [show get s = none from hs.trans hstart]
    rfl
  | some j =>
    rintro ⟨v, hv, hs⟩
    rw [hs]
    exact hv

end Given

section Numbers

variable {name : String} {put : σ → Float → σ} {get : σ → γ} {g : Float → γ} {start s : σ} {j : Json}

def number? : Json → Option Float
  | number n => some n.toFloat
  | _ => none

theorem readFloat_eq_ok_iff {x : Float} : readFloat j = .ok x ↔ j.number? = some x := by
  cases j <;> simp [readFloat, number?]

/-- The number that a record gives for a name. -/
def Schema.number? (schema : Schema σ) (name : String) (j : Json) : Option Float :=
  (schema.given? name j).bind Json.number?

theorem lookup_numberSchema {fields : List (String × (σ → Float → σ))}
    (hnodup : (fields.map Prod.fst).Nodup) (hfield : fields.lookup name = some put) :
    (numberSchema fields).fields.lookup name = some (field name readFloat put).2 := by
  have hnodup' : ((numberSchema fields).fields.map Prod.fst).Nodup := by
    rwa [numberSchema, List.map_map]
  exact (lookup_eq_some_iff_mem hnodup').mpr (List.mem_map_of_mem (mem_of_lookup hfield))

/-- A component that depends on one number only is made of the number that is given for it. -/
theorem readRecord_number {fields : List (String × (σ → Float → σ))} (name : String) (get : σ → γ)
    (hnodup : (fields.map Prod.fst).Nodup) (hfield : fields.lookup name = some put)
    (hput : ∀ s x, get (put s x) = g x)
    (hothers : ∀ f ∈ fields, f.1 ≠ name → ∀ s x, get (f.2 s x) = get s)
    (h : readRecord (numberSchema fields) start j = .ok s) :
    get s = ((numberSchema fields).number? name j).elim (get start) g := by
  have hnodup' : ((numberSchema fields).fields.map Prod.fst).Nodup := by
    rwa [numberSchema, List.map_map]
  have hothers' : ∀ f ∈ (numberSchema fields).fields, f.1 ≠ name → Leaves get f := by
    intro f hf hne
    obtain ⟨f', hf', rfl⟩ := List.mem_map.mp hf
    exact leaves_field (hothers f' hf' hne)
  have hgiven := readRecord_given get hnodup' (lookup_numberSchema hnodup hfield) hput hothers' h
  unfold Schema.number?
  revert hgiven
  cases (numberSchema fields).given? name j with
  | none => exact id
  | some j =>
    rintro ⟨x, hx, hs⟩
    rw [Option.bind_some, readFloat_eq_ok_iff.mp hx]
    exact hs

end Numbers

section Finite

variable {schema : Schema σ} {name : String} {value : Read β} {put : σ → β → σ} {start : σ}
  {P : σ → Prop} {Q : β → Prop}

/-- What is read from a finite value has the property. -/
def Gives (value : Read β) (Q : β → Prop) : Prop :=
  ∀ ⦃j v⦄, j.IsFinite → value j = .ok v → Q v

/-- Reading the field from a finite value keeps a property of the record. -/
def Keeps (P : σ → Prop) (f : String × (σ → Read σ)) : Prop :=
  ∀ ⦃s j s'⦄, j.IsFinite → P s → f.2 s j = .ok s' → P s'

theorem gives_readFloat : Gives readFloat fun x => x.isFinite = true :=
  fun _ _ => isFinite_of_readFloat

theorem keeps_field (hvalue : Gives value Q) (hput : ∀ s v, P s → Q v → P (put s v)) :
    Keeps P (field name value put) := by
  intro s j s' hj hs h
  obtain ⟨v, hv, rfl⟩ := field_eq_ok_iff.mp h
  exact hput s v hs (hvalue hj hv)

/-- What the start has and every field keeps, the record has. -/
theorem gives_readRecord (hstart : P start) (hfields : ∀ f ∈ schema.fields, Keeps P f) :
    Gives (readRecord schema start) P := by
  intro j s hj h
  cases j with
  | object fields =>
    change schema.readFields [] start fields = .ok s at h
    -- Which names have been seen does not matter for what is kept.
    generalize [] = seen at h
    induction fields generalizing seen start with
    | nil =>
      cases h
      exact hstart
    | cons f fields ih =>
      obtain ⟨n, _, ⟨read, state, hread, _, hstate, h⟩ | ⟨_, h⟩⟩ := readFields_cons_eq_ok h
      · exact ih (hfields _ (mem_of_lookup hread) hj.1 hstart hstate) hj.2 (n :: seen) h
      · exact ih hstart hj.2 seen h
  | array items =>
    change readPlaces schema.fields start items = .ok s at h
    generalize schema.fields = fields at hfields h
    induction fields generalizing start items with
    | nil =>
      cases items with
      | nil =>
        cases h
        exact hstart
      | cons j items => cases h
    | cons f fields ih =>
      cases items with
      | nil =>
        cases h
        exact hstart
      | cons j items =>
        obtain ⟨state, hstate, h⟩ := readPlaces_cons_eq_ok h
        exact ih (hfields f List.mem_cons_self hj.1 hstart hstate) items hj.2
          (fun f hf => hfields f (List.mem_cons_of_mem _ hf)) h
  | _ => cases h

end Finite

section Maps

variable {key : String → Option κ} {value : Read β} {es : List (κ × β)} {j : Json}

theorem readEntries_cons_eq_ok {f : Option String × Json} {fields : List (Option String × Json)}
    (h : readEntries key value (f :: fields) = .ok es) :
    ∃ n k v rest, f.1 = some n ∧ key n = some k ∧ value f.2 = .ok v ∧
      readEntries key value fields = .ok rest ∧ es = (k, v) :: rest := by
  obtain ⟨n, j⟩ := f
  cases n with
  | none => cases h
  | some n =>
    unfold readEntries at h
    split at h
    · cases h
    · next k hk =>
      split at h
      · cases h
      · next v hv =>
        cases hrest : readEntries key value fields with
        | error e =>
          rw [hrest] at h
          cases h
        | ok rest =>
          rw [hrest] at h
          cases h
          exact ⟨n, k, v, rest, rfl, hk, hv, rfl, rfl⟩

theorem gives_readMap {Q : β → Prop} (hvalue : Gives value Q) :
    Gives (readMap key value) fun es => ∀ e ∈ es, Q e.2 := by
  intro j es hj h
  cases j with
  | object fields =>
    change readEntries key value fields = .ok es at h
    induction fields generalizing es with
    | nil =>
      cases h
      exact List.forall_mem_nil _
    | cons f fields ih =>
      obtain ⟨n, k, v, rest, _, _, hv, hrest, rfl⟩ := readEntries_cons_eq_ok h
      exact List.forall_mem_cons.mpr ⟨hvalue hj.1 hv, ih hj.2 hrest⟩
  | _ => cases h

/-- The last entry of a key is what is given for its name. -/
theorem readMap_given [DecidableEq κ] {name : κ → String}
    (hkey : ∀ n k, key n = some k ↔ n = name k) (h : readMap key value j = .ok es) (k : κ) :
    (j.get? (name k)).elim (es.reverse.lookup k = none) fun j =>
      ∃ v, value j = .ok v ∧ es.reverse.lookup k = some v := by
  cases j with
  | object fields =>
    change readEntries key value fields = .ok es at h
    induction fields generalizing es with
    | nil =>
      cases h
      rfl
    | cons f fields ih =>
      obtain ⟨n, k', v, rest, hn, hk', hv, hrest, rfl⟩ := readEntries_cons_eq_ok h
      have ih := ih hrest
      rw [get?_cons, hn, (hkey n k').mp hk', List.reverse_cons, List.lookup_append,
        lookup_cons_ite]
      revert ih
      cases (object fields).get? (name k) with
      | some j =>
        rintro ⟨v', hv', hlookup⟩
        exact ⟨v', hv', by rw [hlookup, Option.some_or]⟩
      | none =>
        intro hlookup
        rw [hlookup, Option.none_or, Option.none_or]
        by_cases hk : k = k'
        · subst hk
          rw [if_pos rfl, if_pos rfl]
          exact ⟨v, hv, rfl⟩
        · have hne : some (name k') ≠ some (name k) := fun hname => hk <| by
            have hkk := (hkey n k).mpr ((hkey n k').mp hk' |>.trans (Option.some.inj hname))
            exact Option.some.inj (hkk.symm.trans hk')
          rw [if_neg hne, if_neg hk]
          rfl
  | _ => cases h

end Maps

end MarketVerdict.Json
