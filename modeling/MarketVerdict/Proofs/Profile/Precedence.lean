import MarketVerdict.Profile.Registry
import MarketVerdict.Proofs.Arithmetic.Sums
import MarketVerdict.Proofs.Profile.Weights

/-!
# Precedence of weights

A profile is resolved from three layers: the weights of a request, those of the definition, and the
registry's weights by kind. What each layer gives goes before what the layers below it give, and only
the weights that are left are checked.
-/

namespace MarketVerdict

open Scalar Traversal

namespace Weights

variable {w : Weights Float}

/-- Some weight is negative or not finite, or their total is not finite or zero. -/
def Unsound (w : Weights Float) : Prop :=
  (∃ i x, w.indicators.get? i = some x ∧ (isFinite x = false ∨ x < 0)) ∨
    (∃ k x, w.kinds k = some x ∧ (isFinite x = false ∨ x < 0)) ∨
      isFinite w.total = false ∨ (w.total == 0) = true

theorem forall_mem_named_iff {P : Float → Prop} :
    (∀ e ∈ w.named, P e.2) ↔
      (∀ i x, w.indicators.get? i = some x → P x) ∧ ∀ k x, w.kinds k = some x → P x := by
  rw [named, List.forall_mem_append]
  refine and_congr ?_ ?_
  · constructor
    · exact fun h i x hx => h (i, x) (Table.get?_eq_some_iff.mp hx)
    · exact fun h e he => h e.1 e.2 (Table.get?_eq_some_iff.mpr he)
  · rw [List.forall_mem_map]
    constructor
    · exact fun h k x hx => h (k, x) (Assignment.mem_entries_iff.mpr ⟨k.mem_all, hx⟩)
    · exact fun h e he => h e.1 e.2 (Assignment.mem_entries_iff.mp he).2

theorem zero_le_total (h : ∀ e ∈ w.named, 0 ≤ e.2) : 0 ≤ w.total := by
  rw [named, List.forall_mem_append, List.forall_mem_map] at h
  exact Double.zero_le_add (zero_le_sum (List.forall_mem_map.mpr h.1))
    (zero_le_sum (List.forall_mem_map.mpr h.2))

theorem check_eq_ok_iff_not_unsound : w.check = .ok () ↔ ¬ w.Unsound := by
  have hweights : (∀ e ∈ w.named, isFinite e.2 = true ∧ ¬ e.2 < 0) ↔
      ¬ (∃ i x, w.indicators.get? i = some x ∧ (isFinite x = false ∨ x < 0)) ∧
        ¬ ∃ k x, w.kinds k = some x ∧ (isFinite x = false ∨ x < 0) := by
    rw [forall_mem_named_iff (P := fun x => isFinite x = true ∧ ¬ x < 0)]
    simp only [not_exists, not_and, not_or, Bool.not_eq_false]
  have htotal (h : ∀ e ∈ w.named, isFinite e.2 = true ∧ ¬ e.2 < 0) :
      w.total ≤ 0 ↔ (w.total == 0) = true := by
    have hnonneg : 0 ≤ w.total := zero_le_total fun e he =>
      LawfulScalar.le_of_not_lt (LawfulScalar.le_self_of_isFinite (h e he).1)
        (LawfulScalar.le_self_of_isFinite LawfulScalar.isFinite_zero) (h e he).2
    rw [LawfulScalar.beq_iff_le_le]
    exact (and_iff_left hnonneg).symm
  rw [check_eq_ok_iff, Unsound, not_or, not_or, not_or, Bool.not_eq_false]
  refine Iff.trans (and_congr_right fun h => and_congr_right fun _ => not_congr (htotal h)) ?_
  rw [hweights, and_assoc]

theorem exists_check_eq_error_iff : (∃ fault, w.check = .error fault) ↔ w.Unsound := by
  rw [← not_not (a := w.Unsound), ← check_eq_ok_iff_not_unsound]
  cases w.check <;> simp

end Weights

theorem Profile.make_eq_error_iff {name : String} {w : Weights Float} {e : FusionError Float} :
    make name w = .error e ↔ ∃ fault, w.check = .error fault ∧ e = .invalidProfile name fault := by
  rw [make, check]
  cases w.check <;> simp [Except.mapError, eq_comm]

namespace Registry

variable {r r' : Registry Float} {d d' : ProfileDefinition Float}
  {overrides overrides' : Option (Weights Float)} {w w' : Weights Float}

/-- The weights that are left when every layer replaces what the layers below it give. -/
structure Layered (r : Registry Float) (d : ProfileDefinition Float)
    (overrides : Option (Weights Float)) (w : Weights Float) : Prop where
  indicators : ∀ i, w.indicators.get? i =
    [overrides.bind (·.indicators.get? i), d.weights.indicators.get? i].findSome? id
  kinds : ∀ k, w.kinds k =
    [overrides.bind (·.kinds k), d.weights.kinds k,
      if d.inherits then some (r.defaults.get k) else none].findSome? id

/-- What `resolve` checks and gives to the profile. -/
def merged (r : Registry Float) (d : ProfileDefinition Float) (overrides : Option (Weights Float)) :
    Weights Float :=
  (overrides.getD Weights.empty).orElse (r.inherited d)

theorem layered_merged (r : Registry Float) (d : ProfileDefinition Float)
    (overrides : Option (Weights Float)) : r.Layered d overrides (r.merged d overrides) := by
  have hindicators (i : String) : (overrides.getD Weights.empty).indicators.get? i =
      overrides.bind (·.indicators.get? i) := by
    cases overrides <;> rfl
  have hkinds (k : Kind) : (overrides.getD Weights.empty).kinds k = overrides.bind (·.kinds k) := by
    cases overrides <;> rfl
  constructor
  case indicators =>
    intro i
    have hown : (r.inherited d).indicators.get? i = d.weights.indicators.get? i := by
      unfold inherited
      split
      · exact (Table.get?_orElse _ _ i).trans (by rw [Table.get?_empty, Option.or_none])
      · rfl
    change ((overrides.getD Weights.empty).indicators.orElse _).get? i = _
    rw [Table.get?_orElse, hindicators, hown]
    cases overrides.bind (·.indicators.get? i) <;> cases d.weights.indicators.get? i <;> rfl
  case kinds =>
    intro k
    have hown : (r.inherited d).kinds k =
        (d.weights.kinds k).or (if d.inherits then some (r.defaults.get k) else none) := by
      unfold inherited
      split
      · rfl
      · exact (Option.or_none).symm
    change ((overrides.getD Weights.empty).kinds k).or ((r.inherited d).kinds k) = _
    rw [hkinds, hown]
    cases overrides.bind (·.kinds k) <;> cases d.weights.kinds k <;> cases d.inherits <;> rfl

theorem Layered.eq_of_layered (h : r.Layered d overrides w) (h' : r.Layered d overrides w') :
    w = w' := by
  obtain ⟨indicators, kinds⟩ := w
  obtain ⟨indicators', kinds'⟩ := w'
  congr 1
  · exact Table.ext_get? fun i => (h.indicators i).trans (h'.indicators i).symm
  · exact funext fun k => (h.kinds k).trans (h'.kinds k).symm

variable {name name' : Option String}

theorem resolve_of_layered (hd : r.definitions.get? (name.getD r.defaultProfile) = some d)
    (h : r.Layered d overrides w) :
    r.resolve name overrides = Profile.make (name.getD r.defaultProfile) w := by
  rw [h.eq_of_layered (r.layered_merged d overrides)]
  simp only [resolve, hd]
  rfl

theorem Layered.weightFor (h : r.Layered d overrides w) (i : String) (k : Kind) :
    w.weightFor i k =
      [overrides.bind (·.indicators.get? i), d.weights.indicators.get? i,
        overrides.bind (·.kinds k), d.weights.kinds k,
        if d.inherits then some (r.defaults.get k) else none].findSome? id := by
  rw [Weights.weightFor, h.indicators, h.kinds, ← List.findSome?_append]
  rfl

theorem resolve_eq_unknown_iff {n : String} :
    r.resolve name overrides = .error (.unknownProfile n) ↔
      n = name.getD r.defaultProfile ∧ r.definitions.get? (name.getD r.defaultProfile) = none := by
  cases hd : r.definitions.get? (name.getD r.defaultProfile) with
  | none => simp [resolve, hd, eq_comm]
  | some d =>
    rw [resolve_of_layered hd (r.layered_merged d overrides), Profile.make_eq_error_iff]
    simp

/-- A name without a definition is unknown. Otherwise the weights that the layers leave are checked
and looked up, and what a higher layer replaces has no part in the outcome. -/
theorem resolve_precedence (r : Registry Float) (name : Option String)
    (overrides : Option (Weights Float)) :
    (∀ n, r.resolve name overrides = .error (.unknownProfile n) ↔
      n = name.getD r.defaultProfile ∧ r.definitions.get? (name.getD r.defaultProfile) = none) ∧
    ∀ d, r.definitions.get? (name.getD r.defaultProfile) = some d →
      ∃ w, r.Layered d overrides w ∧
        (∀ n, (∃ fault, r.resolve name overrides = .error (.invalidProfile n fault)) ↔
          n = name.getD r.defaultProfile ∧ w.Unsound) ∧
        (¬ w.Unsound → ∃ p, r.resolve name overrides = .ok p ∧
          p.name = name.getD r.defaultProfile ∧ ∀ i k, p.weights.weightFor i k =
            [overrides.bind (·.indicators.get? i), d.weights.indicators.get? i,
              overrides.bind (·.kinds k), d.weights.kinds k,
              if d.inherits then some (r.defaults.get k) else none].findSome? id) ∧
        ∀ (r' : Registry Float) (name' : Option String) (overrides' : Option (Weights Float))
          (d' : ProfileDefinition Float), name'.getD r'.defaultProfile = name.getD r.defaultProfile →
          r'.definitions.get? (name'.getD r'.defaultProfile) = some d' →
          r'.Layered d' overrides' w → r'.resolve name' overrides' = r.resolve name overrides := by
  refine ⟨fun n => resolve_eq_unknown_iff, fun d hd => ?_⟩
  have hlayered := r.layered_merged d overrides
  have hresolve := resolve_of_layered hd hlayered
  refine ⟨_, hlayered, fun n => ?_, fun hsound => ?_, ?_⟩
  · rw [hresolve, ← Weights.exists_check_eq_error_iff]
    simp only [Profile.make_eq_error_iff, FusionError.invalidProfile.injEq]
    constructor
    · rintro ⟨fault, _, hcheck, hn, _⟩
      exact ⟨hn, _, hcheck⟩
    · rintro ⟨hn, fault, hcheck⟩
      exact ⟨fault, fault, hcheck, hn, rfl⟩
  · have hcheck := Weights.check_eq_ok_iff_not_unsound.mpr hsound
    refine ⟨⟨_, r.merged d overrides⟩, ?_, rfl, hlayered.weightFor⟩
    rw [hresolve, Profile.make_eq_ok_iff, Profile.check_eq_ok_iff]
    exact ⟨hcheck, rfl⟩
  · intro r' name' overrides' d' hname hd' hlayered'
    rw [hresolve, resolve_of_layered hd' hlayered', hname]

/-- Its profile has a negative weight and one that is not a number. -/
def faulty : Registry Float where
  definitions := Table.ofList [("faulty",
    ⟨⟨Table.ofList [("rsi_14", -1)], Assignment.ofList [(.volume, 0 / 0)]⟩, true⟩)]
  defaults := .standard
  defaultProfile := "faulty"

/-- Weights for what is wrong in `faulty`. -/
def repairs : Weights Float := ⟨Table.ofList [("rsi_14", 2)], Assignment.ofList [(.volume, 0)]⟩

theorem resolve_precedence_repaired :
    (∃ fault, faulty.resolve none none = .error (.invalidProfile "faulty" fault)) ∧
      ∃ p, faulty.resolve none (some repairs) = .ok p ∧
        p.weights.weightFor "rsi_14" .oscillator = some 2 ∧
        p.weights.weightFor "macd_12_26_9" .trend = some 0.35 ∧
        p.weights.weightFor "obv_20" .volume = some 0 := by
  obtain ⟨d, hd⟩ : ∃ d, faulty.definitions.get? "faulty" = some d := ⟨_, rfl⟩
  constructor
  · obtain ⟨w, hw, hinvalid, _⟩ := (resolve_precedence faulty none none).2 d hd
    refine (hinvalid _).mpr ⟨rfl, Or.inl ⟨"rsi_14", -1, ?_, Or.inr (by decide +kernel)⟩⟩
    rw [hw.indicators]
    cases hd
    decide +kernel
  · obtain ⟨w, hw, _, hvalid, _⟩ := (resolve_precedence faulty none (some repairs)).2 d hd
    have hsound : ¬ w.Unsound := by
      rw [hw.eq_of_layered (layered_merged faulty d (some repairs)),
        ← Weights.check_eq_ok_iff_not_unsound]
      cases hd
      exact toOption_eq_some_iff.mp (by decide +kernel)
    obtain ⟨p, hp, _, hweights⟩ := hvalid hsound
    refine ⟨p, hp, ?_, ?_, ?_⟩ <;> rw [hweights] <;> cases hd <;> decide +kernel

end Registry

end MarketVerdict
