import MarketVerdict.Proofs.Json.Records

/-!
# Reading what was written

Maps and records that were written read back, given that their values do. For a record of numbers
this needs no more than that its numbers are finite and determine it.
-/

namespace MarketVerdict.Json

variable {σ β κ : Type}

theorem readFloat_float {x : Float} (h : x.isFinite = true) : readFloat (float x) = .ok x := by
  rw [float, if_pos h]
  rfl

theorem readList_texts (items : List String) : readList readString (texts items) = .ok items := by
  change (items.map text).mapM readString = .ok items
  rw [List.mapM_map]
  exact Traversal.mapM_eq_ok_iff.mpr (List.forall₂_same.mpr fun _ _ => rfl)

theorem readMap_record (name : κ → String) {encode : β → Json}
    {key : String → Option κ} {value : Read β} {es : List (κ × β)}
    (hkey : ∀ k, key (name k) = some k) (h : ∀ e ∈ es, value (encode e.2) = .ok e.2) :
    readMap key value (record (es.map fun e => (name e.1, encode e.2))) = .ok es := by
  change readEntries key value _ = .ok es
  induction es with
  | nil => rfl
  | cons e es ih =>
    obtain ⟨he, hes⟩ := List.forall_mem_cons.mp h
    simp only [List.map_cons, readEntries, hkey, he]
    rw [ih hes]
    rfl

variable {schema : Schema σ} {start : σ}

theorem readPlaces_cons {name : String} {value : Read β} {put : σ → β → σ}
    {fields : List (String × (σ → Read σ))} {j : Json} {items : List Json} {v : β} {s : σ}
    (h : value j = .ok v) (hrest : readPlaces fields (put start v) items = .ok s) :
    readPlaces (field name value put :: fields) start (j :: items) = .ok s := by
  simpa only [field, readPlaces, h, Except.map] using hrest

theorem readFields_eq_readPlaces {fields : List (String × (σ → Read σ))}
    (hnodup : (fields.map Prod.fst).Nodup)
    (hknown : ∀ f ∈ fields, schema.fields.lookup f.1 = some f.2) {seen : List String}
    (hseen : ∀ f ∈ fields, f.1 ∉ seen) {es : List (String × Json)}
    (hes : es.map Prod.fst = fields.map Prod.fst) :
    schema.readFields seen start (es.map fun e => (some e.1, e.2)) =
      readPlaces fields start (es.map Prod.snd) := by
  induction fields generalizing es seen start with
  | nil =>
    obtain rfl := List.map_eq_nil_iff.mp hes
    rfl
  | cons f fields ih =>
    obtain ⟨e, es, rfl, he, hes⟩ := List.map_eq_cons_iff.mp hes
    obtain ⟨hfresh, hnodup⟩ := List.nodup_cons.mp hnodup
    obtain ⟨hf, hknown⟩ := List.forall_mem_cons.mp hknown
    obtain ⟨hfseen, hseen⟩ := List.forall_mem_cons.mp hseen
    simp only [List.map_cons, Schema.readFields, readPlaces, he, hf, if_neg hfseen]
    cases f.2 start e.2 with
    | error e => rfl
    | ok state =>
      refine ih hnodup hknown (fun f' hf' hmem => ?_) hes
      rcases List.mem_cons.mp hmem with heq | hmem
      · exact hfresh (List.mem_map.mpr ⟨f', hf', heq⟩)
      · exact hseen f' hf' hmem

/-- A record that is written with all its fields in their order reads as the list of its values. -/
theorem readRecord_record (schema : Schema σ) (hnodup : (schema.fields.map Prod.fst).Nodup)
    {es : List (String × Json)} (hes : es.map Prod.fst = schema.fields.map Prod.fst) :
    readRecord schema start (record es) = readPlaces schema.fields start (es.map Prod.snd) :=
  readFields_eq_readPlaces hnodup (fun _ hf => (lookup_eq_some_iff_mem hnodup).mpr hf)
    (fun _ _ => List.not_mem_nil) hes

theorem readPlaces_floats (fields : List (String × (σ → Float → σ))) (xs : List Float)
    (hlength : xs.length = fields.length) (hfinite : ∀ x ∈ xs, x.isFinite = true) :
    readPlaces (numberSchema fields).fields start (xs.map float) =
      .ok ((fields.zip xs).foldl (fun s fx => fx.1.2 s fx.2) start) := by
  induction fields generalizing xs start with
  | nil =>
    cases List.length_eq_zero_iff.mp hlength
    rfl
  | cons f fields ih =>
    obtain ⟨x, xs, rfl⟩ := List.exists_cons_of_length_eq_add_one hlength
    obtain ⟨hx, hxs⟩ := List.forall_mem_cons.mp hfinite
    exact readPlaces_cons (readFloat_float hx) (ih xs (Nat.succ.inj hlength) hxs)

/-- The numbers of a record in the order of its fields: each field changes its own number only, and
together they are the record. -/
structure AreNumbers (fields : List (String × (σ → Float → σ))) (numbers : σ → List Float) :
    Prop where
  nodup : (fields.map Prod.fst).Nodup
  length_eq : ∀ s, (numbers s).length = fields.length
  put_subset : ∀ f ∈ fields, ∀ s x, numbers (f.2 s x) ⊆ x :: numbers s
  restore : ∀ start s, (fields.zip (numbers s)).foldl (fun s fx => fx.1.2 s fx.2) start = s

namespace AreNumbers

variable {fields : List (String × (σ → Float → σ))} {numbers : σ → List Float} {s : σ}

theorem gives_readRecord (h : AreNumbers fields numbers)
    (hstart : ∀ x ∈ numbers start, x.isFinite = true) :
    Gives (readRecord (numberSchema fields) start) fun s => ∀ x ∈ numbers s, x.isFinite = true := by
  refine Json.gives_readRecord hstart fun f hf => ?_
  obtain ⟨f', hf', rfl⟩ := List.mem_map.mp hf
  refine keeps_field gives_readFloat fun s x hs hx y hy => ?_
  rcases List.mem_cons.mp (h.put_subset f' hf' s x hy) with rfl | hy
  · exact hx
  · exact hs y hy

theorem readRecord_record (h : AreNumbers fields numbers)
    (hs : ∀ x ∈ numbers s, x.isFinite = true) :
    readRecord (numberSchema fields) start
      (record ((fields.map Prod.fst).zip ((numbers s).map float))) = .ok s := by
  have hnames : ((numberSchema fields).fields.map Prod.fst) = fields.map Prod.fst := by
    rw [numberSchema, List.map_map]
    rfl
  have hlength : (fields.map Prod.fst).length = ((numbers s).map float).length := by
    rw [List.length_map, List.length_map, h.length_eq]
  rw [Json.readRecord_record _ (hnames ▸ h.nodup) (by rw [hnames, List.map_fst_zip hlength.le]),
    List.map_snd_zip hlength.ge, readPlaces_floats _ _ (h.length_eq s) hs, h.restore]

end AreNumbers

end MarketVerdict.Json
