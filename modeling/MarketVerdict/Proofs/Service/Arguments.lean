import MarketVerdict.Proofs.Json.Settled
import MarketVerdict.Proofs.Json.Written
import MarketVerdict.Service

/-!
# Arguments of a tool

What a caller says can be written as a record in several ways: the names in any order, and null or
nothing for what is left open. All of them read as the same request, whether the reader refuses
unknown names or passes over them, and none of them changes when it is settled first.
-/

namespace MarketVerdict

open Json Traversal

namespace Tool

/-- What a caller may say to a tool. -/
structure Arguments where
  instrument : String
  indicators : Option (List String)
  profile : Option String
  capital : Option Json.Number

namespace Arguments

/-- The argument of a name, where there is one. -/
def value? (a : Arguments) (name : String) : Option Json :=
  match name with
  | "instrument" => some (text a.instrument)
  | "indicators" => a.indicators.map texts
  | "profile" => a.profile.map text
  | "initial_capital" => a.capital.map number
  | _ => none

/-- The fields say to the tool what the caller says, and nothing else. -/
structure StatedBy (a : Arguments) (t : Tool) (fields : List (String × Json)) : Prop where
  nodup : (fields.map Prod.fst).Nodup
  known : ∀ f ∈ fields, f.1 ∈ t.argumentNames
  value : ∀ name ∈ t.argumentNames,
    (fields.lookup name).getD null = (a.value? name).getD null

def evaluation (a : Arguments) : EvaluationRequest := ⟨a.instrument, a.indicators, a.profile, none⟩

def replay (a : Arguments) : ReplayRequest := ⟨a.evaluation, a.capital.map Number.toFloat, none⟩

variable {a : Arguments} {t : Tool} {fields : List (String × Json)}

theorem StatedBy.value_of_mem (h : a.StatedBy t fields) {f : String × Json} (hf : f ∈ fields) :
    f.2 = (a.value? f.1).getD null := by
  rw [← h.value f.1 (h.known f hf), (lookup_eq_some_iff_mem h.nodup).mpr hf]
  rfl

theorem settled?_value (a : Arguments) (name : String) (depth : ℕ) :
    ((a.value? name).getD null).settled? (depth + 1) = some ((a.value? name).getD null) := by
  unfold value?
  split
  · rfl
  · cases a.indicators with
    | none => rfl
    | some items => exact settled?_texts items
  · cases a.profile <;> rfl
  · cases a.capital <;> rfl
  · rfl

theorem StatedBy.settled? (h : a.StatedBy t fields) :
    (record fields).settled? Service.argumentDepth = some (record fields) := by
  refine settled?_record h.nodup fun f hf => ?_
  rw [h.value_of_mem hf]
  exact settled?_value a f.1 125

end Arguments

end Tool

/-! ### Reading -/

theorem Json.readString_text (s : String) : readString (text s) = .ok s := rfl

theorem Json.readFloat_number (n : Number) : readFloat (number n) = .ok n.toFloat := rfl

theorem Json.readOptional_encoded {β γ : Type} {value : Read γ} {encode : β → Json} {f : β → γ}
    (hread : ∀ b, value (encode b) = .ok (f b)) (hnull : ∀ b, encode b ≠ null) (o : Option β) :
    readOptional value ((o.map encode).getD null) = .ok (o.map f) := by
  cases o with
  | none => rfl
  | some b =>
    simp only [Option.map_some, Option.getD_some]
    unfold readOptional
    split
    · next h => exact absurd h (hnull b)
    · rw [hread]
      rfl

namespace RequestDraft

variable {names : List String} {closed : Bool} {name : String}

theorem nodup_schema (names : List String) (closed : Bool) :
    ((schema names closed).fields.map Prod.fst).Nodup :=
  (List.filter_sublist.map Prod.fst).nodup (by decide)

/-- The reader of a name does not depend on what else a request may say. -/
theorem lookup_schema (h : name ∈ names) :
    (schema names closed).fields.lookup name = fields.lookup name := by
  ext read
  rw [lookup_eq_some_iff_mem (nodup_schema names closed),
    lookup_eq_some_iff_mem (by decide : (fields.map Prod.fst).Nodup)]
  simp [schema, h]

/-- Two drafts that hold the same under all names but one. -/
structure AgreeBut (name : String) (d d' : RequestDraft) : Prop where
  instrument : name ≠ "instrument" → d'.instrument = d.instrument
  indicators : name ≠ "indicators" → d'.indicators = d.indicators
  profile : name ≠ "profile" → d'.profile = d.profile
  weights : name ≠ "weights" → d'.weights = d.weights
  capital : name ≠ "initial_capital" → d'.capital = d.capital
  warmup : name ≠ "warmup" → d'.warmup = d.warmup

theorem agreeBut_of_read {f : String × (RequestDraft → Read RequestDraft)} (hf : f ∈ fields)
    {d d' : RequestDraft} {j : Json} (h : f.2 d j = .ok d') : AgreeBut f.1 d d' := by
  simp only [fields, List.mem_cons, List.not_mem_nil, or_false] at hf
  rcases hf with rfl | rfl | rfl | rfl | rfl | rfl <;>
  · obtain ⟨v, _, rfl⟩ := field_eq_ok_iff.mp h
    constructor <;> first | exact fun _ => rfl | exact fun hne => absurd rfl hne

/-- Other fields than its own leave a component as it is. -/
theorem leaves_of_agreeBut {γ : Type} {get : RequestDraft → γ}
    (hget : ∀ n d d', AgreeBut n d d' → n ≠ name → get d' = get d) :
    ∀ f ∈ (schema names closed).fields, f.1 ≠ name → Leaves get f :=
  fun _ hf hne _ _ _ h => hget _ _ _ (agreeBut_of_read (List.mem_filter.mp hf).1 h) hne

end RequestDraft

namespace Tool.Arguments

variable {a : Arguments} {t : Tool} {said : List (String × Json)} {names : List String}

/-- What a draft holds once all that the caller says is read. -/
structure Drafted (a : Arguments) (t : Tool) (d : RequestDraft) : Prop where
  instrument : d.instrument = some a.instrument
  indicators : d.indicators = a.indicators
  profile : d.profile = a.profile
  weights : d.weights = none
  capital : t = .runBacktest → d.capital = a.capital.map Number.toFloat
  warmup : d.warmup = none

theorem readOptional_indicators (a : Arguments) :
    readOptional (readList readString) ((a.value? "indicators").getD null) = .ok a.indicators := by
  have h := readOptional_encoded readList_texts nofun a.indicators
  rwa [Option.map_id'] at h

theorem readOptional_profile (a : Arguments) :
    readOptional readString ((a.value? "profile").getD null) = .ok a.profile := by
  have h := readOptional_encoded readString_text nofun a.profile
  rwa [Option.map_id'] at h

theorem readOptional_capital (a : Arguments) :
    readOptional readFloat ((a.value? "initial_capital").getD null) =
      .ok (a.capital.map Number.toFloat) :=
  readOptional_encoded readFloat_number nofun a.capital

theorem StatedBy.reads (h : a.StatedBy t said) (f : String × Json) (hf : f ∈ said) :
    ∃ read, RequestDraft.fields.lookup f.1 = some read ∧ ∀ d, ∃ d', read d f.2 = .ok d' := by
  have hname : f.1 ∈ ["instrument", "indicators", "profile", "initial_capital"] := by
    have hknown := h.known f hf
    cases t with
    | fuseSignals => exact List.mem_append_left ["initial_capital"] hknown
    | runBacktest => exact hknown
  have hvalue := h.value_of_mem hf
  obtain ⟨name, j⟩ := f
  simp only [List.mem_cons, List.not_mem_nil, or_false] at hname
  rw [hvalue]
  rcases hname with rfl | rfl | rfl | rfl
  · exact exists_read_of_lookup rfl (readString_text a.instrument)
  · exact exists_read_of_lookup rfl (readOptional_indicators a)
  · exact exists_read_of_lookup rfl (readOptional_profile a)
  · exact exists_read_of_lookup rfl (readOptional_capital a)

section Draft

variable {closed : Bool} {d : RequestDraft} (h : a.StatedBy t said)
  (hnames : t.argumentNames ⊆ names)
  (hd : readRecord (RequestDraft.schema names closed) .empty (record said) = .ok d)
include h hd

omit hnames in
/-- A component of which the caller cannot speak. -/
theorem StatedBy.leaves {γ : Type} {name : String} {get : RequestDraft → γ}
    (hname : name ∉ t.argumentNames)
    (hget : ∀ n d d', RequestDraft.AgreeBut n d d' → n ≠ name → get d' = get d) :
    get d = get .empty := by
  refine readFields_leaves (fun f hf hmem => ?_) hd
  refine RequestDraft.leaves_of_agreeBut hget f hf ?_
  rintro rfl
  obtain ⟨f', hf', hname'⟩ := List.mem_map.mp hmem
  obtain ⟨f'', hf'', rfl⟩ := List.mem_map.mp hf'
  exact hname (Option.some.inj hname' ▸ h.known f'' hf'')

include hnames

theorem StatedBy.optional {β : Type} {name : String} {value : Read β}
    {put : RequestDraft → Option β → RequestDraft} {get : RequestDraft → Option β}
    (hname : name ∈ t.argumentNames)
    (hfield : RequestDraft.fields.lookup name = some (field name (readOptional value) put).2)
    (hput : ∀ d v, get (put d v) = v)
    (hget : ∀ n d d', RequestDraft.AgreeBut n d d' → n ≠ name → get d' = get d)
    (hstart : get .empty = none) :
    readOptional value ((a.value? name).getD null) = .ok (get d) := by
  have hread := readRecord_optional get (RequestDraft.nodup_schema names closed)
    ((RequestDraft.lookup_schema (hnames hname)).trans hfield) hput
    (RequestDraft.leaves_of_agreeBut hget) hstart hd
  change readOptional value (((record said).get? name).getD null) = .ok (get d) at hread
  rwa [get?_record h.nodup, h.value name hname] at hread

theorem StatedBy.instrument : d.instrument = some a.instrument := by
  have hname : "instrument" ∈ t.argumentNames := by cases t <;> exact List.mem_cons_self
  have hgiven := readRecord_given (g := some) RequestDraft.instrument
    (RequestDraft.nodup_schema names closed)
    ((RequestDraft.lookup_schema (hnames hname)).trans rfl) (fun _ _ => rfl)
    (RequestDraft.leaves_of_agreeBut fun _ _ _ h => h.instrument) hd
  have hvalue := h.value "instrument" hname
  change ((record said).get? "instrument").elim _ _ at hgiven
  rw [get?_record h.nodup] at hgiven
  revert hgiven hvalue
  cases said.lookup "instrument" with
  | none => exact nofun
  | some j =>
    rintro hj ⟨v, hv, hd⟩
    obtain rfl : j = text a.instrument := hj
    cases hv
    exact hd

theorem StatedBy.drafted : a.Drafted t d where
  instrument := h.instrument hnames hd
  indicators := by
    have hread := h.optional hnames hd (by cases t <;> decide) rfl (fun _ _ => rfl)
      (fun _ _ _ h => h.indicators) rfl
    exact Except.ok.inj (hread.symm.trans (readOptional_indicators a))
  profile := by
    have hread := h.optional hnames hd (by cases t <;> decide) rfl (fun _ _ => rfl)
      (fun _ _ _ h => h.profile) rfl
    exact Except.ok.inj (hread.symm.trans (readOptional_profile a))
  weights := h.leaves hd (by cases t <;> decide) fun _ _ _ h => h.weights
  capital := by
    rintro rfl
    have hread := h.optional hnames hd (by decide) rfl (fun _ _ => rfl)
      (fun _ _ _ h => h.capital) rfl
    exact Except.ok.inj (hread.symm.trans (readOptional_capital a))
  warmup := h.leaves hd (by cases t <;> decide) fun _ _ _ h => h.warmup

end Draft

theorem StatedBy.exists_draft (h : a.StatedBy t said) (hnames : t.argumentNames ⊆ names)
    (closed : Bool) :
    ∃ d, readRecord (RequestDraft.schema names closed) .empty (record said) = .ok d ∧
      a.Drafted t d := by
  have hreads : ∀ f ∈ said, ∃ read,
      (RequestDraft.schema names closed).fields.lookup f.1 = some read ∧
        ∀ d, ∃ d', read d f.2 = .ok d' := by
    intro f hf
    rw [RequestDraft.lookup_schema (hnames (h.known f hf))]
    exact h.reads f hf
  obtain ⟨d, hd⟩ := exists_readFields h.nodup hreads (fun _ _ => List.not_mem_nil) .empty
  exact ⟨d, hd, h.drafted hnames hd⟩

theorem StatedBy.readEvaluation (h : a.StatedBy .fuseSignals said)
    (hnames : fuseSignals.argumentNames ⊆ names) (closed : Bool) :
    EvaluationRequest.readWith names closed (record said) = .ok a.evaluation := by
  obtain ⟨d, hd, hdrafted⟩ := h.exists_draft hnames closed
  rw [EvaluationRequest.readWith, hd]
  change d.toEvaluation = _
  rw [RequestDraft.toEvaluation, hdrafted.instrument, hdrafted.indicators, hdrafted.profile,
    hdrafted.weights]
  rfl

theorem StatedBy.readReplay (h : a.StatedBy .runBacktest said)
    (hnames : runBacktest.argumentNames ⊆ names) (closed : Bool) :
    ReplayRequest.readWith names closed (record said) = .ok a.replay := by
  obtain ⟨d, hd, hdrafted⟩ := h.exists_draft hnames closed
  rw [ReplayRequest.readWith, hd]
  change d.toReplay = _
  rw [RequestDraft.toReplay, RequestDraft.toEvaluation, hdrafted.instrument, hdrafted.indicators,
    hdrafted.profile, hdrafted.weights, hdrafted.capital rfl, hdrafted.warmup]
  rfl

end Tool.Arguments

end MarketVerdict
