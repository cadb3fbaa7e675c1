import MarketVerdict.Proofs.Choice.Identity
import MarketVerdict.Proofs.Selection.RoundTrip

/-!
# What a request lists

Every text of a request comes to an identity: that of its specification or, if it is malformed, the
text itself without the blanks at its ends. A malformed text that names an indicator holds a colon
and no identity of a specification does, so the choices that are kept are the texts without their
repetitions.
-/

namespace MarketVerdict

open Decimal Text Traversal

/-! ### Malformed texts -/

def Spec.Malformed (s : String) : Prop := ∀ spec, Spec.parse s ≠ .ok spec

/-- The text does not even name an indicator. -/
def Spec.Unnamed (s : String) : Prop := ∀ i, Indicator.parse (splitSelection s).1 ≠ .ok i

theorem Indicator.eq_of_parse_eq_error {s : String} {e : IndicatorError}
    (h : Indicator.parse s = .error e) : e = .unknown (lowerLetters (trim s)) := by
  unfold Indicator.parse at h
  dsimp only at h
  split at h
  case h_7 =>
    split at h
    · cases h
    · exact (Except.error.inj h).symm
  all_goals cases h

theorem Params.check_default (i : Indicator) : (default i).check = .ok () := by
  cases i <;> exact toOption_eq_some_iff.mp (by decide +kernel)

namespace Spec

variable {s : String} {spec : Spec Float}

/-- A name alone gives the conventional parameters, which are sound. -/
theorem mem_of_malformed (h : Malformed s) (hnamed : ¬ Unnamed s) : ':' ∈ s.toList := by
  by_contra hcolon
  obtain ⟨i, hi⟩ := not_forall_not.mp hnamed
  have hparse : parse s = ofParams (Params.default i) := by
    rw [splitSelection_of_not_mem hcolon] at hi
    rw [parse, splitSelection_of_not_mem hcolon]
    change (Indicator.parse s >>= _) = _
    rw [hi]
    rfl
  exact h _ (hparse.trans (ofParamsAs_eq_ok_iff.mpr ⟨Params.check_default i, rfl⟩))

theorem id_ne_of_malformed {params : Params Float} {kind : Kind}
    (hspec : ofParamsAs params kind = .ok spec) (h : Malformed s) (hnamed : ¬ Unnamed s) :
    spec.id ≠ s := by
  rintro rfl
  have hid : spec.id = params.id := by rw [eq_of_ofParamsAs hspec]
  have hcolon := mem_of_malformed h hnamed
  rw [hid] at hcolon
  exact (Params.of_mem_id hcolon).2 rfl

end Spec

namespace Choice

/-! ### The first of each identity -/

section Lists

variable {α : Type} {choices : List (Choice α)}

theorem exists_mem_distinct {c : Choice α} (h : c ∈ choices) :
    ∃ d ∈ distinct choices, d.id = c.id := by
  induction choices with
  | nil => cases h
  | cons e choices ih =>
    rw [distinct]
    by_cases hid : c.id = e.id
    · exact ⟨e, List.mem_cons_self, hid.symm⟩
    · obtain ⟨d, hd, hdc⟩ := ih ((List.mem_cons.mp h).resolve_left fun hce => hid (hce ▸ rfl))
      refine ⟨d, List.mem_cons_of_mem _ (List.mem_filter.mpr ⟨hd, ?_⟩), hdc⟩
      rw [hdc]
      exact bne_iff_ne.mpr hid

theorem pairwise_idxOf_distinct (choices : List (Choice α)) :
    (distinct choices).Pairwise fun c d =>
      (choices.map id).idxOf c.id < (choices.map id).idxOf d.id := by
  induction choices with
  | nil => exact List.Pairwise.nil
  | cons e choices ih =>
    have hlater : ∀ c ∈ (distinct choices).filter (fun d => d.id != e.id),
        ((e :: choices).map id).idxOf c.id = (choices.map id).idxOf c.id + 1 := by
      intro c hc
      have hne : c.id ≠ e.id := bne_iff_ne.mp (List.mem_filter.mp hc).2
      exact List.idxOf_cons_ne _ hne.symm
    refine List.pairwise_cons.mpr ⟨fun d hd => ?_, ?_⟩
    · rw [hlater d hd, List.map_cons, List.idxOf_cons_self]
      exact Nat.succ_pos _
    · refine (ih.filter _).imp_of_mem fun hc hd h => ?_
      rw [hlater _ hc, hlater _ hd]
      exact Nat.succ_lt_succ h

end Lists

/-! ### Identities of texts -/

/-- The identity that a text comes to. -/
def textId (s : String) : String :=
  match Spec.parse s with
  | .ok spec => spec.id
  | .error _ => s

variable {s t : String} {c d : Choice Float}

theorem textId_of_parse {spec : Spec Float} (h : Spec.parse s = .ok spec) :
    textId s = spec.id := by
  rw [textId, h]

theorem textId_of_malformed (h : Spec.Malformed s) : textId s = s := by
  cases hspec : Spec.parse s with
  | ok spec => exact absurd hspec (h spec)
  | error e => rw [textId, hspec]

theorem parse_of_malformed (h : Spec.Malformed s) :
    parse s =
      match Indicator.parse (splitSelection s).1 with
      | .ok indicator => .ok (degraded s indicator.defaultKind)
      | .error e => .error (e.toSpecError s) := by
  cases hspec : Spec.parse s with
  | ok spec => exact absurd hspec (h spec)
  | error e =>
    rw [parse, hspec]
    cases hi : Indicator.parse (splitSelection s).1 with
    | ok i => rfl
    | error e' =>
      -- The name is read first, so both faults are the same.
      have hparse : Spec.parse s = .error e' := by
        rw [Spec.parse]
        change (Indicator.parse (splitSelection s).1 >>= _) = _
        rw [hi]
        rfl
      rw [Except.error.inj (hspec.symm.trans hparse)]

/-- The failure of a request at a text that names no indicator. -/
def unnamedFault (s : String) : FusionError Float :=
  .invalidSpec s (IndicatorError.unknown (lowerLetters (trim (splitSelection s).1))).message

theorem parse_eq_error_iff {e : FusionError Float} :
    parse s = .error e ↔ Spec.Unnamed s ∧ e = unnamedFault s := by
  by_cases h : Spec.Malformed s
  · rw [parse_of_malformed h]
    cases hi : Indicator.parse (splitSelection s).1 with
    | ok i => simp [Spec.Unnamed, hi]
    | error e' =>
      rw [unnamedFault, ← Indicator.eq_of_parse_eq_error hi, Except.error.injEq, eq_comm]
      exact (and_iff_right fun i hi' => by cases hi.symm.trans hi').symm
  · obtain ⟨spec, hspec⟩ := not_forall_not.mp h
    obtain ⟨i, hi, _⟩ := bind_eq_ok_iff.mp hspec
    refine iff_of_false (fun he => ?_) fun ⟨hunnamed, _⟩ => hunnamed i hi
    rw [parse, hspec] at he
    cases he

theorem parse_eq_ok_iff :
    parse s = .ok c ↔ (∃ spec, Spec.parse s = .ok spec ∧ c = valid spec) ∨
      Spec.Malformed s ∧ ∃ i, Indicator.parse (splitSelection s).1 = .ok i ∧
        c = degraded s i.defaultKind := by
  by_cases h : Spec.Malformed s
  · have hvalid : ¬ ∃ spec, Spec.parse s = .ok spec ∧ c = valid spec :=
      fun ⟨spec, hspec, _⟩ => h spec hspec
    rw [parse_of_malformed h, or_iff_right hvalid, and_iff_right h]
    cases Indicator.parse (splitSelection s).1 <;> simp [eq_comm]
  · obtain ⟨spec, hspec⟩ := not_forall_not.mp h
    rw [parse, hspec]
    simp [h, eq_comm]

theorem id_of_parse (h : parse s = .ok c) : c.id = textId s := by
  rcases parse_eq_ok_iff.mp h with ⟨spec, hspec, rfl⟩ | ⟨hmalformed, i, _, rfl⟩
  · exact (textId_of_parse hspec).symm
  · exact (textId_of_malformed hmalformed).symm

/-- What is written for the doubles of a well-formed text reads back. -/
def LegibleText (s : String) : Prop :=
  ∀ spec, Spec.parse s = .ok spec → ∀ x ∈ spec.params.factors, ReadsBack x

instance (s : String) : Decidable (LegibleText s) :=
  decidable_of_iff (∀ spec ∈ (Spec.parse s).toOption, ∀ x ∈ spec.params.factors, ReadsBack x)
    (forall_congr' fun _ => imp_congr_left toOption_eq_some_iff)

theorem id_ne_of_parse {spec : Spec Float} (hs : Spec.parse s = .ok spec) (ht : Spec.Malformed t)
    {i : Indicator} (hi : Indicator.parse (splitSelection t).1 = .ok i) : spec.id ≠ t :=
  Spec.id_ne_of_malformed (Spec.ofParams_of_parse hs).1 ht fun hunnamed => hunnamed i hi

/-- Texts that come to one identity make the same choice. -/
theorem eq_of_id_eq (hs : parse s = .ok c) (ht : parse t = .ok d) (hlegible : LegibleText s)
    (hlegible' : LegibleText t) (h : c.id = d.id) : c = d := by
  rcases parse_eq_ok_iff.mp hs with ⟨spec, hspec, rfl⟩ | ⟨hmalformed, i, hi, rfl⟩ <;>
    rcases parse_eq_ok_iff.mp ht with ⟨spec', hspec', rfl⟩ | ⟨hmalformed', i', hi', rfl⟩
  · obtain ⟨hof, hperiods⟩ := Spec.ofParams_of_parse hspec
    obtain ⟨hof', hperiods'⟩ := Spec.ofParams_of_parse hspec'
    have hids : spec.params.id = spec'.params.id := by
      rw [Spec.eq_of_ofParamsAs hof, Spec.eq_of_ofParamsAs hof'] at h
      exact h
    have hparams := Params.id_injective ⟨hperiods, hlegible spec hspec⟩
      ⟨hperiods', hlegible' spec' hspec'⟩ hids
    rw [Except.ok.inj (hof.symm.trans (hparams ▸ hof'))]
  · exact absurd h (id_ne_of_parse hspec hmalformed' hi')
  · exact absurd h.symm (id_ne_of_parse hspec' hmalformed hi)
  · obtain rfl : s = t := h
    rw [Except.ok.inj (hi.symm.trans hi')]

/-! ### Requests -/

/-- The choice has the identity that the text comes to without the blanks at its ends. -/
def Represents (c : Choice Float) (s : String) : Prop := c.id = textId (trim s)

/-- These choices are the listed texts, each of them once. -/
structure Listing (listed : List String) (choices : List (Choice Float)) : Prop where
  distinct : (choices.map id).Nodup
  ordered : choices.Pairwise fun c d =>
    (listed.map fun s => textId (trim s)).idxOf c.id <
      (listed.map fun s => textId (trim s)).idxOf d.id
  sound : ∀ c ∈ choices, ∃ s ∈ listed, c.Represents s
  complete : ∀ s ∈ listed, ∃! c, c ∈ choices ∧ c.Represents s
  shared : ∀ s ∈ listed, ∀ t ∈ listed,
    (∃ c ∈ choices, c.Represents s ∧ c.Represents t) ↔
      (∃ spec, Spec.parse (trim s) = .ok spec ∧ Spec.parse (trim t) = .ok spec) ∨
        Spec.Malformed (trim s) ∧ Spec.Malformed (trim t) ∧ trim s = trim t
  wellFormed : ∀ s ∈ listed, ∀ c ∈ choices, c.Represents s →
    ∀ spec, Spec.parse (trim s) = .ok spec → c = valid spec
  malformed : ∀ s ∈ listed, ∀ c ∈ choices, c.Represents s → Spec.Malformed (trim s) →
    ∃ i, Indicator.parse (splitSelection (trim s)).1 = .ok i ∧
      c = degraded (trim s) i.defaultKind
  apart : ∀ id kind, degraded id kind ∈ choices →
    ∀ params kind' spec, Spec.ofParamsAs params kind' = .ok spec → spec.id ≠ id

variable {listed : List String} {choices parsed : List (Choice Float)}

/-- The listed texts make the choices that are kept, and nothing else does. -/
theorem mem_distinct_iff (hparsed : listed.mapM (fun s => parse (trim s)) = .ok parsed)
    (hlegible : ∀ s ∈ listed, LegibleText (trim s)) :
    c ∈ Choice.distinct parsed ↔ ∃ s ∈ listed, parse (trim s) = .ok c := by
  constructor
  · exact fun hc => exists_mem_of_mapM_eq_ok hparsed (mem_of_mem_distinct hc)
  · rintro ⟨s, hs, hsc⟩
    obtain ⟨c', hc', hsc'⟩ := exists_ok_mem_of_mapM_eq_ok hparsed hs
    obtain rfl : c' = c := Except.ok.inj (hsc'.symm.trans hsc)
    obtain ⟨d, hd, hdc⟩ := exists_mem_distinct hc'
    obtain ⟨t, ht, htd⟩ := exists_mem_of_mapM_eq_ok hparsed (mem_of_mem_distinct hd)
    rwa [← eq_of_id_eq htd hsc (hlegible t ht) (hlegible s hs) hdc]

/-- A choice that is kept stands for the texts that make it. -/
theorem represents_iff (hparsed : listed.mapM (fun s => parse (trim s)) = .ok parsed)
    (hlegible : ∀ s ∈ listed, LegibleText (trim s)) (hc : c ∈ Choice.distinct parsed)
    (hs : s ∈ listed) : c.Represents s ↔ parse (trim s) = .ok c := by
  constructor
  · intro h
    obtain ⟨d, _, hsd⟩ := exists_ok_mem_of_mapM_eq_ok hparsed hs
    obtain ⟨t, ht, htc⟩ := (mem_distinct_iff hparsed hlegible).mp hc
    have hids : c.id = d.id := Eq.trans h (id_of_parse hsd).symm
    obtain rfl := eq_of_id_eq htc hsd (hlegible t ht) (hlegible s hs) hids
    exact hsd
  · intro h
    exact id_of_parse h

theorem listing_of_parsed (hparsed : listed.mapM (fun s => parse (trim s)) = .ok parsed)
    (hlegible : ∀ s ∈ listed, LegibleText (trim s)) : Listing listed (Choice.distinct parsed) := by
  have hmem {c : Choice Float} := mem_distinct_iff (c := c) hparsed hlegible
  have hrep {c : Choice Float} {s : String} (hc : c ∈ Choice.distinct parsed) (hs : s ∈ listed) :=
    represents_iff hparsed hlegible hc hs
  have hids : parsed.map id = listed.map fun s => textId (trim s) :=
    map_eq_map_of_mapM_eq_ok hparsed fun _ _ => id_of_parse
  constructor
  case distinct => exact List.pairwise_map.mpr (pairwise_distinct parsed)
  case ordered => exact hids ▸ pairwise_idxOf_distinct parsed
  case sound =>
    intro c hc
    obtain ⟨s, hs, hsc⟩ := hmem.mp hc
    exact ⟨s, hs, id_of_parse hsc⟩
  case complete =>
    intro s hs
    obtain ⟨c, _, hsc⟩ := exists_ok_mem_of_mapM_eq_ok hparsed hs
    refine ⟨c, ⟨hmem.mpr ⟨s, hs, hsc⟩, id_of_parse hsc⟩, fun d ⟨hd, hds⟩ => ?_⟩
    exact Except.ok.inj (((hrep hd hs).mp hds).symm.trans hsc)
  case shared =>
    intro s hs t ht
    constructor
    · rintro ⟨c, hc, hcs, hct⟩
      rcases parse_eq_ok_iff.mp ((hrep hc hs).mp hcs) with ⟨spec, hspec, rfl⟩ | ⟨hs', i, _, rfl⟩ <;>
        rcases parse_eq_ok_iff.mp ((hrep hc ht).mp hct) with ⟨spec', hspec', h⟩ | ⟨ht', j, _, h⟩
      · exact Or.inl ⟨spec, hspec, valid.inj h ▸ hspec'⟩
      · cases h
      · cases h
      · exact Or.inr ⟨hs', ht', (degraded.inj h).1⟩
    · intro h
      have hsame : parse (trim s) = parse (trim t) := by
        rcases h with ⟨spec, hspec, hspec'⟩ | ⟨_, _, heq⟩
        · rw [parse, parse, hspec, hspec']
        · rw [heq]
      obtain ⟨c, _, hsc⟩ := exists_ok_mem_of_mapM_eq_ok hparsed hs
      exact ⟨c, hmem.mpr ⟨s, hs, hsc⟩, id_of_parse hsc, id_of_parse (hsame ▸ hsc)⟩
  case wellFormed =>
    intro s hs c hc hcs spec hspec
    rcases parse_eq_ok_iff.mp ((hrep hc hs).mp hcs) with ⟨spec', hspec', rfl⟩ | ⟨hmalformed, _⟩
    · rw [Except.ok.inj (hspec.symm.trans hspec')]
    · exact absurd hspec (hmalformed spec)
  case malformed =>
    intro s hs c hc hcs hmalformed
    rcases parse_eq_ok_iff.mp ((hrep hc hs).mp hcs) with ⟨spec, hspec, _⟩ | ⟨_, h⟩
    · exact absurd hspec (hmalformed spec)
    · exact h
  case apart =>
    intro id kind hc params kind' spec hspec
    obtain ⟨s, hs, hsc⟩ := hmem.mp hc
    rcases parse_eq_ok_iff.mp hsc with ⟨_, _, h⟩ | ⟨hmalformed, i, hi, h⟩ <;> cases h
    exact Spec.id_ne_of_malformed hspec hmalformed fun hunnamed => hunnamed i hi

theorem exists_unnamed_of_parseAll {e : FusionError Float} (h : parseAll listed = .error e) :
    ∃ front s back, listed = front ++ s :: back ∧ (∀ t ∈ front, ¬ Spec.Unnamed (trim t)) ∧
      Spec.Unnamed (trim s) ∧ e = unnamedFault (trim s) := by
  obtain ⟨front, s, back, hlisted, hfront, hs⟩ := mapM_eq_error_iff.mp (map_eq_error_iff.mp h)
  refine ⟨front, s, back, hlisted, fun t ht hunnamed => ?_, parse_eq_error_iff.mp hs⟩
  obtain ⟨c, hc⟩ := hfront t ht
  cases hc.symm.trans (parse_eq_error_iff.mpr ⟨hunnamed, rfl⟩)

/-- A request fails at its first text that names no indicator. Otherwise its choices are the texts
that it lists, each of them once. -/
theorem listed_texts_kept (hlisted : listed ≠ []) (hlegible : ∀ s ∈ listed, LegibleText (trim s))
    (defaults : List (Spec Float)) :
    ((∃ e, ofSelections defaults (some listed) = .error e) ↔
      ∃ s ∈ listed, Spec.Unnamed (trim s)) ∧
    (∀ e, ofSelections defaults (some listed) = .error e →
      ∃ front s back, listed = front ++ s :: back ∧ (∀ t ∈ front, ¬ Spec.Unnamed (trim t)) ∧
        Spec.Unnamed (trim s) ∧ e = unnamedFault (trim s)) ∧
    ∀ choices, ofSelections defaults (some listed) = .ok choices → Listing listed choices := by
  have hselections : ofSelections defaults (some listed) = parseAll listed := by
    obtain ⟨s, rest, rfl⟩ := List.exists_cons_of_ne_nil hlisted
    rfl
  rw [hselections]
  refine ⟨⟨?_, ?_⟩, fun e => exists_unnamed_of_parseAll, ?_⟩
  · rintro ⟨e, he⟩
    obtain ⟨front, s, back, rfl, _, hunnamed, _⟩ := exists_unnamed_of_parseAll he
    exact ⟨s, List.mem_append_right _ List.mem_cons_self, hunnamed⟩
  · rintro ⟨s, hs, hunnamed⟩
    cases hall : parseAll listed with
    | error e => exact ⟨e, rfl⟩
    | ok choices =>
      obtain ⟨parsed, hparsed, _⟩ := bind_eq_ok_iff.mp hall
      obtain ⟨c, _, hc⟩ := exists_ok_mem_of_mapM_eq_ok hparsed hs
      cases hc.symm.trans (parse_eq_error_iff.mpr ⟨hunnamed, rfl⟩)
  · intro choices hall
    obtain ⟨parsed, hparsed, h⟩ := bind_eq_ok_iff.mp hall
    cases h
    exact listing_of_parsed hparsed hlegible

theorem listed_texts_kept_mixed :
    (∃ choices, ofSelections [] (some [" rsi", "obv:x", "RSI: 14", "bb:20,2.5", "obv:x "]) =
      .ok choices ∧ choices.map id = ["rsi_14", "obv:x", "bollinger_20_2.5"] ∧
        Listing [" rsi", "obv:x", "RSI: 14", "bb:20,2.5", "obv:x "] choices) ∧
    ∃ e, ofSelections [] (some ["rsi", "momentum:3"]) = .error e := by
  constructor
  · have hchoices : (ofSelections [] (some [" rsi", "obv:x", "RSI: 14", "bb:20,2.5", "obv:x "])
        ).toOption.map (List.map id) = some ["rsi_14", "obv:x", "bollinger_20_2.5"] := by
      decide +kernel
    obtain ⟨choices, hok, hids⟩ := exists_ok_of_toOption hchoices
    exact ⟨choices, hok, hids,
      (listed_texts_kept (by decide) (by decide +kernel) []).2.2 choices hok⟩
  · refine (listed_texts_kept (by decide) (by decide +kernel) []).1.mpr
      ⟨"momentum:3", by decide, fun i hi => ?_⟩
    have hnone : (Indicator.parse (splitSelection (trim "momentum:3")).1).toOption = none := by
      decide +kernel
    rw [hi] at hnone
    cases hnone

end Choice

end MarketVerdict
