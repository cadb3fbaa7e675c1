import MarketVerdict.Proofs.Config.Written

/-!
# Configurations over the built-in ones

The curves of a configuration are the built-in ones, except where the value it was read from gives
others; a trend curve takes what it leaves out from the standard curve. So no oscillator is without
bands, and writing the configuration out makes every default explicit without changing it.
-/

namespace MarketVerdict

open Json Traversal

theorem Indicator.ofName?_eq_some_iff {s : String} {i : Indicator} :
    ofName? s = some i ↔ s = i.name := by
  refine ⟨fun h => ?_, fun h => h ▸ ofName?_name i⟩
  exact (eq_of_beq (List.find?_some (p := fun i : Indicator => i.name == s) h)).symm

namespace OscillatorBands

/-- The numbers of the bands are those that a record gives. -/
structure IsGivenBy (b : OscillatorBands Float) (j : Json) : Prop where
  min : schema.number? "min" j = some b.min
  max : schema.number? "max" j = some b.max
  lower : schema.number? "lower" j = some b.lower
  upper : schema.number? "upper" j = some b.upper

theorem isGivenBy_of_read {j : Json} {b : OscillatorBands Float} (h : read j = .ok b) :
    b.IsGivenBy j := by
  obtain ⟨found, hfound, hmin, hmax, hlower, hupper⟩ := read_eq_ok_iff.mp h
  have hgiven : ∀ name, fields.lookup name = some (fun found x => found.set name x) →
      found name = schema.number? name j := by
    intro name hname
    have hnumber := readRecord_number name (fun found => found name) (by decide) hname
      (fun found x => if_pos rfl) (fun f hf hne found x => ?_) hfound
    · rw [hnumber]
      exact Option.elim_none_some id _
    · obtain ⟨name', _, rfl⟩ := List.mem_map.mp hf
      exact if_neg (Ne.symm hne)
  exact ⟨(hgiven _ rfl).symm.trans hmin, (hgiven _ rfl).symm.trans hmax,
    (hgiven _ rfl).symm.trans hlower, (hgiven _ rfl).symm.trans hupper⟩

end OscillatorBands

namespace TrendCurve

/-- The numbers that a record gives, and those of the standard curve for the others. -/
def givenBy (j : Json) : TrendCurve Float where
  neutralBand := (schema.number? "neutral_band" j).getD standard.neutralBand
  fullScale := (schema.number? "full_scale" j).getD standard.fullScale
  crossoverBoost := (schema.number? "crossover_boost" j).getD standard.crossoverBoost

theorem eq_givenBy_of_read {j : Json} {c : TrendCurve Float} (h : read j = .ok c) :
    c = givenBy j := by
  have hgetD : ∀ (o : Option Float) (x : Float), o.elim x id = o.getD x := fun o x => by
    cases o <;> rfl
  have hneutral := readRecord_number (g := id) "neutral_band" neutralBand areNumbers.nodup rfl
    (fun _ _ => rfl) (by simp [fields]) h
  have hscale := readRecord_number (g := id) "full_scale" fullScale areNumbers.nodup rfl
    (fun _ _ => rfl) (by simp [fields]) h
  have hboost := readRecord_number (g := id) "crossover_boost" crossoverBoost areNumbers.nodup rfl
    (fun _ _ => rfl) (by simp [fields]) h
  rw [hgetD] at hneutral hscale hboost
  rw [givenBy, schema, ← hneutral, ← hscale, ← hboost]

end TrendCurve

section Maps

variable {σ β : Type} {schema : Schema σ} {name : String} {value : Read β} {start s : σ} {j : Json}
  {lower : Assignment Indicator β} {put : σ → List (Indicator × β) → σ}

/-- A map that is put over another holds what is given for an indicator, else what is below. -/
theorem setAll_given {es : List (Indicator × β)} (h : readMap Indicator.ofName? value j = .ok es)
    (i : Indicator) :
    (j.get? i.name).elim (lower.setAll es i = lower i) fun e =>
      ∃ v, value e = .ok v ∧ lower.setAll es i = some v := by
  have hgiven := readMap_given (fun _ _ => Indicator.ofName?_eq_some_iff) h i
  rw [Assignment.setAll_apply]
  revert hgiven
  cases j.get? i.name with
  | none =>
    intro hlookup
    exact congrArg (Option.or · (lower i)) hlookup
  | some e =>
    rintro ⟨v, hv, hlookup⟩
    exact ⟨v, hv, by rw [hlookup, Option.some_or]⟩

theorem readRecord_map (get : σ → Assignment Indicator β)
    (hnodup : (schema.fields.map Prod.fst).Nodup)
    (hfield : schema.fields.lookup name = some (field name (readMap Indicator.ofName? value) put).2)
    (hput : ∀ s es, get (put s es) = lower.setAll es) (hstart : get start = lower)
    (hothers : ∀ f ∈ schema.fields, f.1 ≠ name → Leaves get f)
    (h : readRecord schema start j = .ok s) (i : Indicator) :
    ((schema.given? name j).bind (Json.get? i.name)).elim (get s i = lower i) fun e =>
      ∃ v, value e = .ok v ∧ get s i = some v := by
  have hgiven := readRecord_given get hnodup hfield hput hothers h
  revert hgiven
  cases schema.given? name j with
  | none =>
    intro hs
    exact congrFun (hs.trans hstart) i
  | some e =>
    rintro ⟨es, hes, hs⟩
    rw [hs]
    exact setAll_given hes i

end Maps

namespace Curves

variable {j : Json} {c : Curves Float} (h : read j = .ok c) (i : Indicator)
include h

theorem oscillators_given :
    ((schema.given? "oscillators" j).bind (Json.get? i.name)).elim
      (c.oscillators i = standardBands i) fun e =>
        ∃ b, OscillatorBands.read e = .ok b ∧ c.oscillators i = some b := by
  refine readRecord_map oscillators (by decide) rfl (fun _ _ => rfl) rfl ?_ h i
  simp only [schema, List.forall_mem_cons]
  exact ⟨fun hne => absurd rfl hne, fun _ => leaves_field fun _ _ => rfl,
    fun _ => leaves_field fun _ _ => rfl, fun _ => leaves_field fun _ _ => rfl,
    fun _ => leaves_field fun _ _ => rfl, List.forall_mem_nil _⟩

theorem trend_given :
    ((schema.given? "trend" j).bind (Json.get? i.name)).elim (c.trend i = standardTrend i) fun e =>
      ∃ t, TrendCurve.read e = .ok t ∧ c.trend i = some t := by
  refine readRecord_map trend (by decide) rfl (fun _ _ => rfl) rfl ?_ h i
  simp only [schema, List.forall_mem_cons]
  exact ⟨fun _ => leaves_field fun _ _ => rfl, fun hne => absurd rfl hne,
    fun _ => leaves_field fun _ _ => rfl, fun _ => leaves_field fun _ _ => rfl,
    fun _ => leaves_field fun _ _ => rfl, List.forall_mem_nil _⟩

end Curves

namespace Curves

theorem standardBands_ne_none {i : Indicator} (h : i.defaultKind = .oscillator) :
    (standardBands i : Option (OscillatorBands Float)) ≠ none := by
  cases i with
  | rsi | stochastic | williamsR => exact Option.some_ne_none _
  | macd | smaCross | emaCross | bollinger | obv => cases h

/-- The check does not find bands missing where nothing built in is missing. -/
theorem check_ne_bandsMissing {c : Curves Float} {P : OscillatorBands Float → Prop}
    (h : c.oscillators.Covers standardBands P) (i : Indicator) :
    c.check ≠ .error (.bandsMissing i) := by
  intro hcheck
  rcases bind_eq_error_iff.mp hcheck with hmissing | ⟨_, _, hcheck⟩
  · obtain ⟨i, _, hi⟩ := exists_of_forM_eq_error hmissing
    split at hi
    · next hnone =>
      exact standardBands_ne_none hnone.1 (h.of_none i (Option.isNone_iff_eq_none.mp hnone.2))
    · cases hi
  -- The other faults are those of a curve.
  have hentry : ∀ {β : Type} {check : β → Except (CurveFault Float) Unit}
      {es : List (Indicator × β)}, es.forM (checkEntry check) ≠ .error (.bandsMissing i) := by
    intro β check es hes
    obtain ⟨e, _, he⟩ := exists_of_forM_eq_error hes
    obtain ⟨_, _, he⟩ := mapError_eq_error_iff.mp he
    cases he
  have hshared : ∀ {x : Except (CurveFault Float) Unit},
      x.mapError CurvesFault.shared ≠ .error (.bandsMissing i) := by
    intro x hx
    obtain ⟨_, _, hx⟩ := mapError_eq_error_iff.mp hx
    cases hx
  rcases bind_eq_error_iff.mp hcheck with hbands | ⟨_, _, hcheck⟩
  · exact hentry hbands
  rcases bind_eq_error_iff.mp hcheck with htrend | ⟨_, _, hcheck⟩
  · exact hentry htrend
  rcases bind_eq_error_iff.mp hcheck with hdefault | ⟨_, _, hcheck⟩
  · exact hshared hdefault
  rcases bind_eq_error_iff.mp hcheck with hvolatility | ⟨_, _, hvolume⟩
  · exact hshared hvolatility
  · exact hshared hvolume

end Curves

namespace Config

/-- The value that a configuration gives for an indicator in one of its maps of curves. -/
def curveOf? (name : String) (i : Indicator) (j : Json) : Option Json :=
  ((schema.given? "normalization" j).bind (Curves.schema.given? name)).bind (Json.get? i.name)

/-- The curves of indicators are the built-in ones with those that are given in `j` over them. -/
structure IsOverlaidBy (c : Config) (j : Json) : Prop where
  bands_of_none : ∀ i, curveOf? "oscillators" i j = none →
    c.curves.oscillators i = Curves.standardBands i
  bands_of_some : ∀ i e, curveOf? "oscillators" i j = some e →
    ∃ b, c.curves.oscillators i = some b ∧ b.IsGivenBy e
  trend_of_none : ∀ i, curveOf? "trend" i j = none → c.curves.trend i = Curves.standardTrend i
  trend_of_some : ∀ i e, curveOf? "trend" i j = some e →
    c.curves.trend i = some (TrendCurve.givenBy e)

variable {j : Json} {c : Config}

theorem curves_given (h : read j = .ok c) :
    (schema.given? "normalization" j).elim (c.curves = standard.curves) fun e =>
      ∃ curves, Curves.read e = .ok curves ∧ c.curves = curves := by
  refine readRecord_given curves (by decide) rfl (fun _ _ => rfl) ?_ h
  simp only [schema, List.forall_mem_cons]
  exact ⟨fun _ => leaves_field fun _ _ => rfl, fun hne => absurd rfl hne,
    fun _ => leaves_field fun _ _ => rfl, fun _ => leaves_field fun _ _ => rfl,
    fun _ => leaves_field fun _ _ => rfl, fun _ => leaves_field fun _ _ => rfl,
    List.forall_mem_nil _⟩

theorem curveOf_given {β : Type} {value : Read β} {name : String} {i : Indicator}
    (get : Curves Float → Assignment Indicator β)
    (hget : ∀ jc curves, Curves.read jc = .ok curves →
      ((Curves.schema.given? name jc).bind (Json.get? i.name)).elim
        (get curves i = get .standard i) fun e => ∃ v, value e = .ok v ∧ get curves i = some v)
    (h : read j = .ok c) :
    (curveOf? name i j).elim (get c.curves i = get .standard i) fun e =>
      ∃ v, value e = .ok v ∧ get c.curves i = some v := by
  have hcurves := curves_given h
  unfold curveOf?
  revert hcurves
  cases schema.given? "normalization" j with
  | none =>
    intro hcurves
    exact congrArg (get · i) hcurves
  | some jc =>
    rintro ⟨curves, hread, rfl⟩
    exact hget jc _ hread

theorem isOverlaidBy_of_read (h : read j = .ok c) : c.IsOverlaidBy j := by
  have hbands i := curveOf_given Curves.oscillators
    (fun _ _ hread => Curves.oscillators_given hread i) h
  have htrend i := curveOf_given Curves.trend (fun _ _ hread => Curves.trend_given hread i) h
  constructor
  case bands_of_none =>
    intro i he
    have hi := hbands i
    rw [he] at hi
    exact hi
  case bands_of_some =>
    intro i e he
    have hi := hbands i
    rw [he] at hi
    obtain ⟨b, hb, hi⟩ := hi
    exact ⟨b, hi, OscillatorBands.isGivenBy_of_read hb⟩
  case trend_of_none =>
    intro i he
    have hi := htrend i
    rw [he] at hi
    exact hi
  case trend_of_some =>
    intro i e he
    have hi := htrend i
    rw [he] at hi
    obtain ⟨t, ht, hi⟩ := hi
    rw [hi, TrendCurve.eq_givenBy_of_read ht]

theorem check_ne_bandsMissing (h : c.IsComplete) (i : Indicator) :
    c.check ≠ .error (.invalid (.curves (.bandsMissing i))) := by
  intro hcheck
  rcases bind_eq_error_iff.mp hcheck with hthresholds | ⟨_, _, hcheck⟩
  · obtain ⟨_, _, hfault⟩ := mapError_eq_error_iff.mp hthresholds
    cases hfault
  rcases bind_eq_error_iff.mp hcheck with hcurves | ⟨_, _, hcheck⟩
  · obtain ⟨_, hcurves, hfault⟩ := mapError_eq_error_iff.mp hcurves
    cases hfault
    exact Curves.check_ne_bandsMissing h.curves.oscillators i hcurves
  rcases bind_eq_error_iff.mp hcheck with hkinds | ⟨_, _, hcheck⟩
  · obtain ⟨e, _, he⟩ := exists_of_forM_eq_error hkinds
    unfold checkKindWeight at he
    split at he <;> cases he
  rcases bind_eq_error_iff.mp hcheck with hspecs | ⟨_, _, hcheck⟩
  · unfold defaultSpecs at hspecs
    split at hspecs
    · cases hspecs
    · obtain ⟨_, s, _, _, _, hs⟩ := mapM_eq_error_iff.mp hspecs
      obtain ⟨_, _, hfault⟩ := mapError_eq_error_iff.mp hs
      cases hfault
  rcases bind_eq_error_iff.mp hcheck with hregistry | ⟨_, _, hcheck⟩
  · obtain ⟨_, _, hfault⟩ := mapError_eq_error_iff.mp hregistry
    cases hfault
  · cases hcheck

theorem load_ne_bandsMissing (content : String) (i : Indicator) :
    load content ≠ .error (.invalid (.curves (.bandsMissing i))) := by
  intro hload
  rcases bind_eq_error_iff.mp hload with hread | ⟨c, hread, hload⟩
  · obtain ⟨_, _, hfault⟩ := mapError_eq_error_iff.mp hread
    cases hfault
  have hread : read (parse content).root = .ok c := by
    have hdocument := mapError_eq_ok_iff.mp hread
    unfold Document.read at hdocument
    split at hdocument
    · cases hdocument
    · next hroot =>
      split at hdocument
      · cases hdocument
      · rw [hroot, hdocument]
  have hcomplete := gives_read (isFinite_parse content) hread
  rcases bind_eq_error_iff.mp hload with hcheck | ⟨_, _, hload⟩
  · exact check_ne_bandsMissing hcomplete i hcheck
  · cases hload

/-- A configuration that was read is what is read from it, and it stands over the built-in curves.
The numbers of a text are finite by `isFinite_parse`. -/
theorem round_trip_over_builtin (hj : j.IsFinite) (h : read j = .ok c) :
    read c.encode = .ok c ∧ c.IsOverlaidBy j ∧
      (∀ i ∈ [Indicator.rsi, .stochastic, .williamsR], (c.curves.oscillators i).isSome) ∧
      (∀ i, c.check ≠ .error (.invalid (.curves (.bandsMissing i)))) ∧
      ∀ content i, load content ≠ .error (.invalid (.curves (.bandsMissing i))) := by
  have hcomplete := gives_read hj h
  refine ⟨read_encode hcomplete, isOverlaidBy_of_read h, fun i hi => ?_,
    check_ne_bandsMissing hcomplete, load_ne_bandsMissing⟩
  have hkind : i.defaultKind = .oscillator :=
    (by decide : ∀ i ∈ [Indicator.rsi, .stochastic, .williamsR], i.defaultKind = .oscillator) i hi
  exact Option.isSome_iff_ne_none.mpr fun hnone =>
    Curves.standardBands_ne_none hkind (hcomplete.curves.oscillators.of_none i hnone)

/-- New bands for one oscillator, as a list, and a trend curve of which only the scale is given. -/
def widened : Json :=
  (parse ("\x7b\"normalization\":\x7b\"oscillators\":\x7b\"rsi\":[0,100,25,75]\x7d," ++
    "\"trend\":\x7b\"obv\":\x7b\"full_scale\":1\x7d\x7d\x7d\x7d")).root

theorem round_trip_over_builtin_widened :
    ∃ c, read widened = .ok c ∧ read c.encode = .ok c ∧
      (∃ b, c.curves.oscillators .rsi = some b ∧ b.lower = 25) ∧
      c.curves.oscillators .stochastic = some ⟨0, 100, 20, 80⟩ ∧
      c.curves.trend .obv = some ⟨0.0005, 1, 0.25⟩ ∧
      ∀ i, c.check ≠ .error (.invalid (.curves (.bandsMissing i))) := by
  obtain ⟨c, hc⟩ := Option.isSome_iff_exists.mp
    (by decide +kernel : (read widened).toOption.isSome = true)
  have hread := toOption_eq_some_iff.mp hc
  obtain ⟨hround, hover, _, hcheck, _⟩ := round_trip_over_builtin (isFinite_parse _) hread
  have hlower : (curveOf? "oscillators" .rsi widened).bind
      (OscillatorBands.schema.number? "lower") = some 25 := by decide +kernel
  obtain ⟨e, he, he25⟩ := Option.bind_eq_some_iff.mp hlower
  obtain ⟨b, hb, hgiven⟩ := hover.bands_of_some .rsi e he
  have hscale : (curveOf? "trend" .obv widened).map TrendCurve.givenBy =
      some ⟨0.0005, 1, 0.25⟩ := by decide +kernel
  obtain ⟨e', he', hcurve⟩ := Option.map_eq_some_iff.mp hscale
  exact ⟨c, hread, hround, ⟨b, hb, Option.some.inj (hgiven.lower.symm.trans he25)⟩,
    hover.bands_of_none .stochastic (Option.isNone_iff_eq_none.mp (by decide +kernel)),
    (hover.trend_of_some .obv e' he').trans (congrArg some hcurve), hcheck⟩

end Config

end MarketVerdict
