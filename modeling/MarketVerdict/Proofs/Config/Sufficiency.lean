import MarketVerdict.Config
import MarketVerdict.Proofs.Arithmetic.Double
import MarketVerdict.Proofs.Fusion.Faults

/-!
# A checked configuration suffices

Whatever a configuration is asked for later, once it has passed its check: its context and its
default specifications are there, its profiles resolve, and built-in readings for any selection get
a verdict from it, unless the weights in effect overflow.
-/

namespace MarketVerdict

open Scalar Traversal

theorem Table.mem_keys_of_contains {β : Type} {t : Table β} {k : String}
    (h : t.contains k = true) : k ∈ t.keys := by
  rw [Table.contains, Table.get?, Option.isSome_map, List.find?_isSome] at h
  obtain ⟨e, he, hk⟩ := h
  rw [← beq_iff_eq.mp hk]
  exact List.mem_map_of_mem he

namespace Registry

variable {α : Type} [Scalar α] {r : Registry α} {p : Profile α}

theorem check_of_resolve {name : Option String} {overrides : Option (Weights α)}
    (h : r.resolve name overrides = .ok p) : p.check = .ok () := by
  unfold resolve at h
  dsimp only at h
  split at h
  · cases h
  · exact (Profile.make_eq_ok_iff.mp h).1

theorem make_eq_ok_iff {definitions : Table (ProfileDefinition α)} {defaults : KindWeights α}
    {name : String} :
    make definitions defaults name = .ok r ↔
      r = ⟨definitions, defaults, name⟩ ∧ definitions.contains name = true ∧
        ∀ n ∈ r.names, ∃ p, r.resolve (some n) none = .ok p := by
  unfold make
  dsimp only
  split
  · next hcontains =>
    rw [bind_eq_ok_iff]
    constructor
    · rintro ⟨_, hkeys, h⟩
      cases h
      refine ⟨rfl, hcontains, fun n hn => ?_⟩
      obtain ⟨p, hp, _⟩ := bind_eq_ok_iff.mp (forM_eq_ok_iff.mp hkeys n hn)
      exact ⟨p, hp⟩
    · rintro ⟨rfl, _, hnames⟩
      refine ⟨(), forM_eq_ok_iff.mpr fun n hn => ?_, rfl⟩
      obtain ⟨p, hp⟩ := hnames n hn
      exact bind_eq_ok_iff.mpr ⟨p, hp, rfl⟩
  · next hcontains => simp [hcontains]

/-- Of a registry that was built, the default profile and every named one resolve. -/
theorem exists_resolve_of_make {definitions : Table (ProfileDefinition α)}
    {defaults : KindWeights α} {default : String}
    (h : make definitions defaults default = .ok r) {name : Option String}
    (hname : ∀ n, name = some n → n ∈ r.names) : ∃ p, r.resolve name none = .ok p := by
  obtain ⟨rfl, hdefault, hnames⟩ := make_eq_ok_iff.mp h
  cases name with
  | none => exact hnames default (Table.mem_keys_of_contains hdefault)
  | some n => exact hnames n (hname n rfl)

end Registry

namespace Spec

variable {spec : Spec Float}

theorem kind_of_parse {selection : String} (h : parse selection = .ok spec) :
    spec.kind = spec.indicator.defaultKind := by
  obtain ⟨_, _, h⟩ := bind_eq_ok_iff.mp h
  obtain ⟨_, _, h⟩ := bind_eq_ok_iff.mp h
  rw [eq_of_ofParamsAs h]
  rfl

end Spec

namespace Config

variable {c : Config}

theorem check_eq_ok_iff :
    c.check = .ok () ↔
      c.thresholds.check = .ok () ∧ c.curves.check = .ok () ∧
        (∀ entry ∈ c.kindWeights.entries, checkKindWeight entry = .ok ()) ∧
          (∃ specs, c.defaultSpecs = .ok specs) ∧ ∃ r, c.registry = .ok r := by
  simp only [check, bind_eq_ok_iff, mapError_eq_ok_iff]
  constructor
  · rintro ⟨_, hthresholds, _, hcurves, _, hweights, specs, hspecs, r, hr, _⟩
    exact ⟨hthresholds, hcurves, forM_eq_ok_iff.mp hweights, ⟨specs, hspecs⟩, r, hr⟩
  · rintro ⟨hthresholds, hcurves, hweights, ⟨specs, hspecs⟩, r, hr⟩
    exact ⟨(), hthresholds, (), hcurves, (), forM_eq_ok_iff.mpr hweights, specs, hspecs, r, hr, rfl⟩

theorem kind_of_mem_defaultSpecs {specs : List (Spec Float)} {spec : Spec Float}
    (h : c.defaultSpecs = .ok specs) (hspec : spec ∈ specs) :
    spec.kind = spec.indicator.defaultKind := by
  unfold defaultSpecs at h
  split at h
  · cases h
  · obtain ⟨selection, _, hselection⟩ := exists_mem_of_mapM_eq_ok h hspec
    exact Spec.kind_of_parse (mapError_eq_ok_iff.mp hselection)

/-- A configuration that passes its check is enough for every evaluation of built-in indicators. -/
theorem check_sufficient (h : c.check = .ok ()) :
    ∃ context specs, c.context = .ok context ∧ c.defaultSpecs = .ok specs ∧
      (∀ name : Option String, (∀ n, name = some n → n ∈ context.registry.names) →
        ∃ p, context.registry.resolve name none = .ok p) ∧
      (∀ (spec : Spec Float) (s : Series Float), ∃ reading,
        Provider.technical spec s = .reading reading) ∧
      (∀ (name : Option String) (p : Profile Float) (given : List (Spec Float × Reading Float))
        (s : Series Float) (time : Instant), context.registry.resolve name none = .ok p →
        (∀ x ∈ given, ((∃ selection, Spec.parse selection = .ok x.1) ∨ x.1 ∈ specs) ∧
          Provider.technical x.1 s = .reading x.2) →
        ∃ signals, context.signals given = .ok signals ∧
          ((∃ v, context.evaluate given p time = .ok v) ↔
            isFinite (p.effectiveTotal signals) = true) ∧
          ∀ e, context.evaluate given p time = .error e ↔
            isFinite (p.effectiveTotal signals) = false ∧
              e = .invalidProfile p.name .effectiveTotalNotFinite) ∧
      ∀ (params : Params Float) (kind : Kind) (spec : Spec Float) (s : Series Float)
        (reading : Reading Float) (e : FusionError Float),
        Spec.ofParamsAs params kind = .ok spec → Provider.technical spec s = .reading reading →
        (context.normalizer.signal reading spec = .error e ↔
          ((∃ value, reading.value = .present value) ∧ kind ≠ params.indicator.defaultKind) ∧
            e = .unsupportedReading spec.id kind) := by
  obtain ⟨hthresholds, hcurves, _, ⟨specs, hspecs⟩, r, hr⟩ := check_eq_ok_iff.mp h
  have hcomplete := Curves.complete_of_check hcurves
  have hcontext : c.context = .ok ⟨Normalizer.ofCurves c.curves, r, c.thresholds⟩ := by
    rw [context, hr, hthresholds]
    rfl
  refine ⟨_, specs, hcontext, hspecs, ?_, fun spec s => ⟨_, rfl⟩, ?_, ?_⟩
  · exact fun name hname => Registry.exists_resolve_of_make hr hname
  · intro name p given s time hp hgiven
    refine Context.evaluate_technical rfl hcomplete (Registry.check_of_resolve hp) (s := s) ?_ time
    intro x hx
    obtain ⟨hselected, hreading⟩ := hgiven x hx
    have hkind : x.1.kind = x.1.indicator.defaultKind := by
      rcases hselected with ⟨selection, hselection⟩ | hdefault
      · exact Spec.kind_of_parse hselection
      · exact kind_of_mem_defaultSpecs hspecs hdefault
    exact ⟨hkind, (Answer.reading.inj hreading).symm⟩
  · intro params kind spec s reading e hspec hreading
    cases Spec.eq_of_ofParamsAs hspec
    cases hreading
    exact Normalizer.signal_technical_eq_error_iff hcomplete

/-- One oscillator alone weighs so much that two of them are too many. -/
def strained : Config := { standard with kindWeights := ⟨1e308, 0, 0, 0⟩ }

/-- What the readings bring into effect under the default profile. -/
def effectiveTotal? (c : Config) (given : List (Spec Float × Reading Float)) : Option Float :=
  c.context.toOption.bind fun context =>
    (context.registry.resolve none none).toOption.bind fun p =>
      (context.signals given).toOption.map p.effectiveTotal

def flat : Series Float := ⟨"flat", [⟨.epoch, 1, 1, 1, 1, 0⟩], List.pairwise_singleton _ _⟩

def shortest : Spec Float := ⟨Params.id (.williamsR 1), .oscillator, .williamsR 1⟩

/-- One reading gets a verdict, and two of the same are too many. -/
theorem check_sufficient_strained :
    strained.check = .ok () ∧ ∃ context p other, strained.context = .ok context ∧
      context.registry.resolve none none = .ok p ∧
      Spec.parse "willr:1" = .ok shortest ∧ Spec.ofParamsAs (.williamsR 1) .trend = .ok other ∧
      (∃ v, context.evaluate (Technical.readings [shortest] flat) p .epoch = .ok v) ∧
      context.evaluate (Technical.readings [shortest, shortest] flat) p .epoch =
        .error (.invalidProfile p.name .effectiveTotalNotFinite) ∧
      context.normalizer.signal (Technical.reading other flat) other =
        .error (.unsupportedReading other.id .trend) := by
  have hcheck : strained.check = .ok () :=
    (exists_ok_of_toOption (f := id) (b := ()) (by decide +kernel)).choose_spec.1
  have hspec : Spec.parse "willr:1" = .ok shortest := by decide +kernel
  have hother : Spec.ofParamsAs (.williamsR 1) .trend =
      .ok ⟨Params.id (.williamsR 1), .trend, .williamsR 1⟩ := rfl
  obtain ⟨context, defaults, hcontext, _, hresolve, _, hevaluate, hsignal⟩ :=
    check_sufficient hcheck
  obtain ⟨p, hp⟩ := hresolve none nofun
  have hgiven : ∀ specs, (∀ spec ∈ specs, spec = shortest) → ∀ x ∈ Technical.readings specs flat,
      ((∃ selection, Spec.parse selection = .ok x.1) ∨ x.1 ∈ defaults) ∧
        Provider.technical x.1 flat = .reading x.2 := by
    intro specs hspecs x hx
    obtain ⟨spec, hmem, rfl⟩ := List.mem_map.mp hx
    exact ⟨Or.inl ⟨"willr:1", hspecs spec hmem ▸ hspec⟩, rfl⟩
  have htotal : ∀ {given : List (Spec Float × Reading Float)} {signals : List (Signal Float)},
      context.signals given = .ok signals →
        strained.effectiveTotal? given = some (p.effectiveTotal signals) := by
    intro given signals hsignals
    simp only [effectiveTotal?, hcontext, hp, hsignals, Except.toOption, Option.bind_some,
      Option.map_some]
  refine ⟨hcheck, context, p, _, hcontext, hp, hspec, hother, ?_, ?_, ?_⟩
  · obtain ⟨signals, hsignals, hverdict, _⟩ :=
      hevaluate none p _ flat .epoch hp (hgiven [shortest] (by simp))
    have hfinite : (strained.effectiveTotal? (Technical.readings [shortest] flat)).map isFinite =
        some true := by decide +kernel
    rw [htotal hsignals] at hfinite
    exact hverdict.mpr (Option.some.inj hfinite)
  · obtain ⟨signals, hsignals, _, hfails⟩ :=
      hevaluate none p _ flat .epoch hp (hgiven [shortest, shortest] (by simp))
    have hinfinite : (strained.effectiveTotal?
        (Technical.readings [shortest, shortest] flat)).map isFinite = some false := by
      decide +kernel
    rw [htotal hsignals] at hinfinite
    exact (hfails _).mpr ⟨Option.some.inj hinfinite, rfl⟩
  · refine (hsignal _ _ _ flat _ _ hother rfl).mpr ⟨⟨⟨.level (-50), ?_⟩, by decide⟩, rfl⟩
    decide +kernel

end Config

end MarketVerdict
