import MarketVerdict.Config.Document
import MarketVerdict.Proofs.Json.Written

/-!
# Configurations read back

A configuration that was read has finite numbers only, and it lacks nothing that is built in. Such a
configuration is what reading gives for it once it is written.
-/

namespace MarketVerdict

open Json Traversal

theorem required_eq_ok_iff {β : Type} {o : Option β} {v : β} :
    required o = .ok v ↔ o = some v := by
  cases o <;> simp [required]

namespace OscillatorBands

structure IsFinite (b : OscillatorBands Float) : Prop where
  min : b.min.isFinite = true
  max : b.max.isFinite = true
  lower : b.lower.isFinite = true
  upper : b.upper.isFinite = true

theorem read_eq_ok_iff {j : Json} {b : OscillatorBands Float} :
    read j = .ok b ↔ ∃ found, readRecord schema Assignment.none j = .ok found ∧
      found "min" = some b.min ∧ found "max" = some b.max ∧ found "lower" = some b.lower ∧
      found "upper" = some b.upper := by
  simp only [read, bind_eq_ok_iff, required_eq_ok_iff]
  constructor
  · rintro ⟨found, hfound, _, hmin, _, hmax, _, hlower, _, hupper, h⟩
    cases h
    exact ⟨found, hfound, hmin, hmax, hlower, hupper⟩
  · rintro ⟨found, hfound, hmin, hmax, hlower, hupper⟩
    exact ⟨found, hfound, _, hmin, _, hmax, _, hlower, _, hupper, rfl⟩

theorem gives_read : Gives read IsFinite := by
  intro j b hj h
  obtain ⟨found, hfound, hmin, hmax, hlower, hupper⟩ := read_eq_ok_iff.mp h
  have hfinite : ∀ name x, found name = some x → x.isFinite = true := by
    refine gives_readRecord (P := fun found : Assignment String Float =>
      ∀ name x, found name = some x → x.isFinite = true) (by simp [Assignment.none])
      (fun f hf => ?_) hj hfound
    obtain ⟨f', hf', rfl⟩ := List.mem_map.mp hf
    obtain ⟨name, _, rfl⟩ := List.mem_map.mp hf'
    refine keeps_field gives_readFloat fun found x hs hx name' y hy => ?_
    simp only [Assignment.set] at hy
    split at hy
    · cases hy
      exact hx
    · exact hs name' y hy
  exact ⟨hfinite _ _ hmin, hfinite _ _ hmax, hfinite _ _ hlower, hfinite _ _ hupper⟩

theorem read_encode {b : OscillatorBands Float} (h : b.IsFinite) : read b.encode = .ok b := by
  rw [read_eq_ok_iff]
  refine ⟨_, (readRecord_record _ (by decide) rfl).trans (readPlaces_floats fields
    [b.min, b.max, b.lower, b.upper] rfl ?_), rfl, rfl, rfl, rfl⟩
  simpa using ⟨h.min, h.max, h.lower, h.upper⟩

end OscillatorBands

namespace TrendCurve

def numbers (c : TrendCurve Float) : List Float := [c.neutralBand, c.fullScale, c.crossoverBoost]

def IsFinite (c : TrendCurve Float) : Prop := ∀ x ∈ c.numbers, x.isFinite = true

theorem areNumbers : AreNumbers fields numbers where
  nodup := by decide
  length_eq _ := rfl
  put_subset := by simp [fields, numbers]
  restore _ _ := rfl

theorem gives_read : Gives read IsFinite := areNumbers.gives_readRecord (by decide +kernel)

theorem read_encode {c : TrendCurve Float} (h : c.IsFinite) : read c.encode = .ok c :=
  areNumbers.readRecord_record h

end TrendCurve

namespace BandCurve

def numbers (c : BandCurve Float) : List Float := [c.edge, c.saturation]

def IsFinite (c : BandCurve Float) : Prop := ∀ x ∈ c.numbers, x.isFinite = true

theorem areNumbers : AreNumbers fields numbers where
  nodup := by decide
  length_eq _ := rfl
  put_subset := by simp [fields, numbers]
  restore _ _ := rfl

theorem gives_read : Gives read IsFinite := areNumbers.gives_readRecord (by decide +kernel)

theorem read_encode {c : BandCurve Float} (h : c.IsFinite) : read c.encode = .ok c :=
  areNumbers.readRecord_record h

end BandCurve

namespace FlowCurve

def numbers (c : FlowCurve Float) : List Float := [c.neutralBand, c.fullScale]

def IsFinite (c : FlowCurve Float) : Prop := ∀ x ∈ c.numbers, x.isFinite = true

theorem areNumbers : AreNumbers fields numbers where
  nodup := by decide
  length_eq _ := rfl
  put_subset := by simp [fields, numbers]
  restore _ _ := rfl

theorem gives_read : Gives read IsFinite := areNumbers.gives_readRecord (by decide +kernel)

theorem read_encode {c : FlowCurve Float} (h : c.IsFinite) : read c.encode = .ok c :=
  areNumbers.readRecord_record h

end FlowCurve

namespace Thresholds

def numbers (t : Thresholds Float) : List Float := [t.strongSell, t.sell, t.buy, t.strongBuy]

def IsFinite (t : Thresholds Float) : Prop := ∀ x ∈ t.numbers, x.isFinite = true

theorem areNumbers : AreNumbers fields numbers where
  nodup := by decide
  length_eq _ := rfl
  put_subset := by simp [fields, numbers]
  restore _ _ := rfl

theorem gives_read : Gives read IsFinite := areNumbers.gives_readRecord (by decide +kernel)

theorem read_encode {t : Thresholds Float} (h : t.IsFinite) : read t.encode = .ok t :=
  areNumbers.readRecord_record h

end Thresholds

namespace KindWeights

def numbers (w : KindWeights Float) : List Float := [w.oscillator, w.trend, w.volatility, w.volume]

def IsFinite (w : KindWeights Float) : Prop := ∀ x ∈ w.numbers, x.isFinite = true

theorem areNumbers : AreNumbers fields numbers where
  nodup := by decide
  length_eq _ := rfl
  put_subset := by simp [fields, numbers, Kind.all, set]
  restore _ _ := rfl

theorem gives_read : Gives read IsFinite := areNumbers.gives_readRecord (by decide +kernel)

theorem read_encode {w : KindWeights Float} (h : w.IsFinite) : read w.encode = .ok w :=
  areNumbers.readRecord_record h

end KindWeights

section Maps

variable {β : Type} {value : Read β} {encode : β → Json} {P : β → Prop}

theorem readMap_encodeByIndicator {a : Assignment Indicator β}
    (h : ∀ i b, a i = some b → value (encode b) = .ok b) :
    readMap Indicator.ofName? value (encodeByIndicator encode a) =
      .ok (a.entries Indicator.all) :=
  readMap_record Indicator.name Indicator.ofName?_name fun e he =>
    h e.1 e.2 (Assignment.mem_entries_iff.mp he).2

theorem gives_readByKind : Gives readByKind fun a => ∀ k x, a k = some x → x.isFinite = true := by
  intro j a hj h k x hk
  obtain ⟨es, hes, h⟩ := bind_eq_ok_iff.mp h
  cases h
  exact gives_readMap gives_readFloat hj hes (k, x) (Assignment.mem_of_ofList hk)

theorem readByKind_encodeByKind {a : Assignment Kind Float}
    (h : ∀ k x, a k = some x → x.isFinite = true) : readByKind (encodeByKind a) = .ok a := by
  have hfloat : ∀ e ∈ a.entries Kind.all, readFloat (float e.2) = .ok e.2 := fun e he =>
    readFloat_float (h e.1 e.2 (Assignment.mem_entries_iff.mp he).2)
  refine bind_eq_ok_iff.mpr ⟨_, readMap_record Kind.name Kind.ofName?_name hfloat, ?_⟩
  rw [Assignment.ofList_entries a (by decide) Kind.mem_all]
  rfl

theorem Table.gives_read (hvalue : Gives value P) :
    Gives (Table.read value) fun t => ∀ e ∈ t.entries, P e.2 := by
  intro j t hj h e he
  obtain ⟨es, hes, h⟩ := bind_eq_ok_iff.mp h
  cases h
  exact gives_readMap hvalue hj hes e (Table.mem_of_mem_ofList he)

theorem Table.read_encode {t : Table β} (h : ∀ e ∈ t.entries, value (encode e.2) = .ok e.2) :
    Table.read value (t.encode encode) = .ok t := by
  refine bind_eq_ok_iff.mpr ⟨_, readMap_record id (fun _ => rfl) h, ?_⟩
  rw [Table.ofList_entries]
  rfl

end Maps

namespace ProfileDefinition

structure IsFinite (d : ProfileDefinition Float) : Prop where
  indicators : ∀ e ∈ d.weights.indicators.entries, e.2.isFinite = true
  kinds : ∀ k x, d.weights.kinds k = some x → x.isFinite = true

theorem gives_read : Gives read IsFinite := by
  refine gives_readRecord ⟨nofun, nofun⟩ ?_
  simp only [schema, List.forall_mem_cons]
  exact ⟨keeps_field (Table.gives_read gives_readFloat) fun _ _ hd hv => { hd with indicators := hv },
    keeps_field gives_readByKind fun _ _ hd hv => { hd with kinds := hv },
    keeps_field (Q := fun _ => True) (fun _ _ _ _ => trivial) fun _ _ hd _ => ⟨hd.1, hd.2⟩,
    List.forall_mem_nil _⟩

theorem read_encode {d : ProfileDefinition Float} (h : d.IsFinite) : read d.encode = .ok d := by
  have hindicators : Table.read readFloat (d.weights.indicators.encode float) = _ :=
    Table.read_encode fun e he => readFloat_float (h.indicators e he)
  have hkinds := readByKind_encodeByKind h.kinds
  refine (readRecord_record schema (by decide) rfl).trans ?_
  exact readPlaces_cons hindicators (readPlaces_cons hkinds (readPlaces_cons rfl rfl))

end ProfileDefinition

theorem Indicator.nodup_all : Indicator.all.Nodup := by decide

namespace Curves

structure IsComplete (c : Curves Float) : Prop where
  oscillators : c.oscillators.Covers standardBands OscillatorBands.IsFinite
  trend : c.trend.Covers standardTrend TrendCurve.IsFinite
  trendDefault : c.trendDefault.IsFinite
  volatility : c.volatility.IsFinite
  volume : c.volume.IsFinite

theorem isFinite_standardBands (i : Indicator) (b : OscillatorBands Float)
    (h : standardBands i = some b) : b.IsFinite := by
  cases i <;> cases h <;>
    exact ⟨by decide +kernel, by decide +kernel, by decide +kernel, by decide +kernel⟩

theorem isFinite_standardTrend (i : Indicator) (t : TrendCurve Float)
    (h : standardTrend i = some t) : t.IsFinite := by
  cases i <;> cases h <;> unfold TrendCurve.IsFinite <;> decide +kernel

theorem isComplete_standard : IsComplete standard where
  oscillators := ⟨isFinite_standardBands, fun _ h => h⟩
  trend := ⟨isFinite_standardTrend, fun _ h => h⟩
  trendDefault := by unfold TrendCurve.IsFinite; decide +kernel
  volatility := by unfold BandCurve.IsFinite; decide +kernel
  volume := by unfold FlowCurve.IsFinite; decide +kernel

theorem gives_read : Gives read IsComplete := by
  refine gives_readRecord isComplete_standard ?_
  simp only [schema, List.forall_mem_cons]
  exact ⟨keeps_field (gives_readMap OscillatorBands.gives_read) fun _ _ hc hes =>
      { hc with oscillators := Assignment.covers_setAll isFinite_standardBands hes },
    keeps_field (gives_readMap TrendCurve.gives_read) fun _ _ hc hes =>
      { hc with trend := Assignment.covers_setAll isFinite_standardTrend hes },
    keeps_field TrendCurve.gives_read fun _ _ hc hv => { hc with trendDefault := hv },
    keeps_field BandCurve.gives_read fun _ _ hc hv => { hc with volatility := hv },
    keeps_field FlowCurve.gives_read fun _ _ hc hv => { hc with volume := hv },
    List.forall_mem_nil _⟩

theorem read_encode {c : Curves Float} (h : c.IsComplete) : read c.encode = .ok c := by
  have hbands := readMap_encodeByIndicator fun i b hb =>
    OscillatorBands.read_encode (h.oscillators.of_some i b hb)
  have htrends := readMap_encodeByIndicator fun i t ht =>
    TrendCurve.read_encode (h.trend.of_some i t ht)
  refine (readRecord_record schema (by decide) rfl).trans ?_
  refine readPlaces_cons hbands (readPlaces_cons htrends ?_)
  rw [h.oscillators.setAll_entries Indicator.nodup_all Indicator.mem_all,
    h.trend.setAll_entries Indicator.nodup_all Indicator.mem_all]
  exact readPlaces_cons (TrendCurve.read_encode h.trendDefault) <|
    readPlaces_cons (BandCurve.read_encode h.volatility) <|
    readPlaces_cons (FlowCurve.read_encode h.volume) rfl

end Curves

namespace Config

structure IsComplete (c : Config) : Prop where
  thresholds : c.thresholds.IsFinite
  curves : c.curves.IsComplete
  kindWeights : c.kindWeights.IsFinite
  profiles : ∀ e ∈ c.profiles.entries, e.2.IsFinite

theorem isComplete_standard : IsComplete standard where
  thresholds := by unfold Thresholds.IsFinite; decide +kernel
  curves := Curves.isComplete_standard
  kindWeights := by unfold KindWeights.IsFinite; decide +kernel
  profiles := nofun

theorem gives_read : Gives read IsComplete := by
  refine gives_readRecord isComplete_standard ?_
  simp only [schema, List.forall_mem_cons]
  exact ⟨keeps_field Thresholds.gives_read fun _ _ hc hv => { hc with thresholds := hv },
    keeps_field Curves.gives_read fun _ _ hc hv => { hc with curves := hv },
    keeps_field KindWeights.gives_read fun _ _ hc hv => { hc with kindWeights := hv },
    keeps_field (Table.gives_read ProfileDefinition.gives_read) fun _ _ hc hv =>
      { hc with profiles := hv },
    keeps_field (Q := fun _ => True) (fun _ _ _ _ => trivial) fun _ _ hc _ => ⟨hc.1, hc.2, hc.3, hc.4⟩,
    keeps_field (Q := fun _ => True) (fun _ _ _ _ => trivial) fun _ _ hc _ => ⟨hc.1, hc.2, hc.3, hc.4⟩,
    List.forall_mem_nil _⟩

theorem read_encode {c : Config} (h : c.IsComplete) : read c.encode = .ok c := by
  have hprofiles : Table.read ProfileDefinition.read
      (c.profiles.encode ProfileDefinition.encode) = _ :=
    Table.read_encode fun e he => ProfileDefinition.read_encode (h.profiles e he)
  refine (readRecord_record schema (by decide) rfl).trans ?_
  exact readPlaces_cons (Thresholds.read_encode h.thresholds) <|
    readPlaces_cons (Curves.read_encode h.curves) <|
    readPlaces_cons (KindWeights.read_encode h.kindWeights) <|
    readPlaces_cons hprofiles <| readPlaces_cons rfl <|
    readPlaces_cons (readList_texts c.defaultIndicators) rfl

end Config

end MarketVerdict
