import MarketVerdict.Proofs.Arithmetic.Signs
import MarketVerdict.Proofs.Crossover.Beginnings
import MarketVerdict.Proofs.Fusion.Shape

/-!
# Crossings on the bar where they happen

A crossing is reported on exactly the bar on which the difference of the two lines leaves zero or its
other side, as one sees by asking again without that bar. It points the way the difference points now,
and so a signal that is made of the two lines never points against it.
-/

namespace MarketVerdict

open Scalar

variable {α : Type} [Scalar α]

/-- Two lines at the last bar, what the fast one is ahead of the slow one, and their crossing. -/
structure Crossing (α : Type) where
  fast : α
  slow : α
  difference : α
  crossed : Option Direction
  deriving DecidableEq

def Cross.crossing (c : Cross α) : Crossing α := ⟨c.fast, c.slow, c.fast - c.slow, c.crossed⟩

def Macd.crossing (m : Macd α) : Crossing α := ⟨m.macd, m.signal, m.histogram, m.crossed⟩

/-- What is reported at the last bar by an indicator that compares two lines. -/
def Params.crossing? (p : Params α) (bars : List (Bar α)) : Option (Crossing α) :=
  let closes := bars.map Bar.close
  match p with
  | .smaCross fast slow => (MarketVerdict.smaCross closes fast slow).map Cross.crossing
  | .emaCross fast slow => (MarketVerdict.emaCross closes fast slow).map Cross.crossing
  | .macd fast slow signal => (MarketVerdict.macd closes fast slow signal).map Macd.crossing
  | _ => none

namespace Params

variable {p : Params α} {bars : List (Bar α)} {c : Crossing α}

theorem crossed_of_crossOf {averages : List α → ℕ → List α} (haverages : Average.Causal averages)
    {fast slow : ℕ}
    (h : (crossOf averages (bars.map Bar.close) fast slow).map Cross.crossing = some c) :
    c.difference = c.fast - c.slow ∧ c.crossed = Direction.ofCrossing
      (((crossOf averages (bars.dropLast.map Bar.close) fast slow).map Cross.crossing).map
        Crossing.difference) c.difference := by
  obtain ⟨cross, hcross, rfl⟩ := Option.map_eq_some_iff.mp h
  refine ⟨rfl, ?_⟩
  rw [List.map_dropLast, Option.map_map]
  exact MarketVerdict.crossed_of_crossOf haverages hcross

/-- Without the last bar one sees where the lines stood before. -/
theorem crossed_of_crossing (h : p.crossing? bars = some c) :
    c.difference = c.fast - c.slow ∧ c.crossed = Direction.ofCrossing
      ((p.crossing? bars.dropLast).map Crossing.difference) c.difference := by
  cases p with
  | smaCross fast slow => exact crossed_of_crossOf Average.causal_means h
  | emaCross fast slow => exact crossed_of_crossOf Average.causal_exponentialMeans h
  | macd fast slow signal =>
    obtain ⟨m, hm, rfl⟩ := Option.map_eq_some_iff.mp h
    have hshown := Macd.shown_of_eq_some hm
    refine ⟨hshown.histogram_eq, ?_⟩
    simp only [crossing?]
    rw [List.map_dropLast, Option.map_map]
    exact hshown.crossed_eq
  | rsi | stochastic | williamsR | bollinger | obv => cases h

/-- A reading of two lines holds the lines and the crossing that were reported. -/
theorem exists_spread_of_crossing {spec : Spec α} {s : Series α} {value : Raw α}
    (h : spec.params.crossing? s.bars = some c)
    (hvalue : (Technical.reading spec s).value = .present value) :
    ∃ reference, value = .spread c.fast c.slow reference c.crossed := by
  have hraw := Technical.raw_of_reading hvalue
  cases hparams : spec.params with
  | smaCross fast slow | emaCross fast slow =>
    rw [hparams] at h hraw
    obtain ⟨cross, hcross, rfl⟩ := Option.map_eq_some_iff.mp h
    obtain ⟨cross', hcross', rfl⟩ := Option.map_eq_some_iff.mp hraw
    cases hcross.symm.trans hcross'
    exact ⟨_, rfl⟩
  | macd fast slow signal =>
    rw [hparams] at h hraw
    obtain ⟨m, hm, rfl⟩ := Option.map_eq_some_iff.mp h
    obtain ⟨last, _, hraw⟩ := Option.bind_eq_some_iff.mp hraw
    obtain ⟨m', hm', hraw⟩ := Option.bind_eq_some_iff.mp hraw
    cases hm.symm.trans hm'
    cases hraw
    exact ⟨_, rfl⟩
  | rsi | stochastic | williamsR | bollinger | obv =>
    rw [hparams] at h
    cases h

end Params

/-- A crossing points the way the difference points. -/
theorem Direction.eq_ofSign_of_ofCrossing [LawfulScalar α] {previous : Option α} {current : α}
    {d : Direction} (h : ofCrossing previous current = some d) :
    d ≠ .neutral ∧ d = ofSign current := by
  cases previous with
  | none => cases h
  | some previous =>
    simp only [ofCrossing] at h
    split at h
    · next hup =>
      cases h
      exact ⟨nofun, (if_pos hup.2).symm⟩
    · split at h
      · next hdown =>
        cases h
        have hnot : ¬ 0 < current := LawfulScalar.not_lt_of_le (LawfulScalar.le_of_lt hdown.2)
        exact ⟨nofun, by rw [ofSign, if_neg hnot, if_pos hdown.2]⟩
      · cases h

theorem TrendCurve.place_direction (c : TrendCurve Float) (fast slow reference : Float)
    (crossed : Option Direction) :
    (c.place fast slow reference crossed).1 = Direction.ofSign (fast - slow) ∨
      (c.place fast slow reference crossed).1 = .neutral := by
  unfold place
  dsimp only
  split
  · exact Or.inr rfl
  · change Direction.ofSign (relativeSpread fast slow reference) = _ ∨
      Direction.ofSign (relativeSpread fast slow reference) = _
    unfold relativeSpread
    split
    · exact Or.inr (by decide +kernel)
    · exact Double.ofSign_div_abs (fast - slow) reference

/-- A signal made of two lines points the way of their difference, or nowhere. -/
theorem Normalizer.direction_of_spread {curves : Curves Float} {spec : Spec Float}
    {given : Reading Float} {signal : Signal Float} {fast slow reference : Float}
    {crossed : Option Direction} (hvalue : given.value = .present (.spread fast slow reference crossed))
    (h : (ofCurves curves).signal given spec = .ok signal) :
    signal.direction = Direction.ofSign (fast - slow) ∨ signal.direction = .neutral := by
  obtain ⟨placement, hplaced, rfl⟩ := placed_of_signal hvalue h
  have hdirection : placement.1 = Direction.ofSign (fast - slow) ∨ placement.1 = .neutral := by
    change curves.strategy spec.kind spec.indicator _ = some placement at hplaced
    cases hkind : spec.kind with
    | trend =>
      rw [hkind] at hplaced
      cases hplaced
      exact TrendCurve.place_direction ..
    | oscillator | volatility | volume =>
      rw [hkind] at hplaced
      cases hplaced
  unfold settle
  dsimp only
  split
  · exact Or.inr rfl
  · exact hdirection

/-- What is right about a report of two lines. -/
structure Crossing.Consistent (p : Params Float) (bars : List (Bar Float)) (c : Crossing Float) :
    Prop where
  difference : c.difference = c.fast - c.slow
  crossed : c.crossed = Direction.ofCrossing
    ((p.crossing? bars.dropLast).map Crossing.difference) c.difference
  sign : ∀ d, c.crossed = some d → d ≠ .neutral ∧ d = Direction.ofSign c.difference
  /-- Of any reading with these lines, whatever it is measured against. -/
  signal : ∀ d, c.crossed = some d → ∀ (curves : Curves Float) (spec : Spec Float)
    (given : Reading Float) (reference : Float) (s : Signal Float),
    given.value = .present (.spread c.fast c.slow reference c.crossed) →
    (Normalizer.ofCurves curves).signal given spec = .ok s → s.direction = d ∨ s.direction = .neutral
  /-- The built-in readings have these lines. -/
  reading : ∀ (spec : Spec Float) (s : Series Float), spec.params = p → s.bars = bars →
    ∀ value, (Technical.reading spec s).value = .present value →
      ∃ reference, value = .spread c.fast c.slow reference c.crossed

/-- Crossings of doubles are reported on the bar where they happen. -/
theorem crossing_consistent {p : Params Float} {bars : List (Bar Float)} {c : Crossing Float}
    (h : p.crossing? bars = some c) : c.Consistent p bars := by
  obtain ⟨hdifference, hcrossed⟩ := Params.crossed_of_crossing h
  have hsign : ∀ d, c.crossed = some d → d ≠ .neutral ∧ d = Direction.ofSign c.difference :=
    fun d hd => Direction.eq_ofSign_of_ofCrossing (hcrossed.symm.trans hd)
  refine ⟨hdifference, hcrossed, hsign, ?_, ?_⟩
  · intro d hd curves spec given reference s hvalue hsignal
    rw [(hsign d hd).2, hdifference]
    exact Normalizer.direction_of_spread hvalue hsignal
  · rintro spec s rfl rfl value hvalue
    exact Params.exists_spread_of_crossing h hvalue

/-- A fall and a rise that takes the fast line over the slow one. -/
def rebound : List (Bar Float) :=
  [⟨⟨0, 0⟩, 2, 2, 2, 2, 1⟩, ⟨⟨1, 0⟩, 1, 1, 1, 1, 1⟩, ⟨⟨2, 0⟩, 3, 3, 3, 3, 1⟩]

/-- The rise, and a fall after it. -/
def relapse : List (Bar Float) := rebound ++ [⟨⟨3, 0⟩, 1, 1, 1, 1, 1⟩]

theorem crossing_consistent_rebound :
    ((Params.smaCross 1 2).crossing? rebound = some ⟨3, 2, 1, some .bullish⟩ ∧
      (⟨3, 2, 1, some .bullish⟩ : Crossing Float).Consistent (.smaCross 1 2) rebound ∧
      ((Params.smaCross 1 2).crossing? rebound.dropLast).map Crossing.difference = some (-0.5)) ∧
    (∃ c, (Params.emaCross 1 2).crossing? rebound = some c ∧ c.crossed = some .bullish ∧
      c.Consistent (.emaCross 1 2) rebound) ∧
    ∃ c, (Params.macd 1 2 2).crossing? relapse = some c ∧ c.crossed = some .bearish ∧
      c.Consistent (.macd 1 2 2) relapse ∧
      ((Params.macd 1 2 2).crossing? relapse.dropLast).map Crossing.difference = some 0.5 := by
  have hsma : (Params.smaCross 1 2).crossing? rebound = some ⟨3, 2, 1, some .bullish⟩ := by
    decide +kernel
  have hema : ((Params.emaCross 1 2).crossing? rebound).map Crossing.crossed =
      some (some .bullish) := by decide +kernel
  have hmacd : ((Params.macd 1 2 2).crossing? relapse).map Crossing.crossed =
      some (some .bearish) := by decide +kernel
  obtain ⟨ema, hema, hemaCrossed⟩ := Option.map_eq_some_iff.mp hema
  obtain ⟨macd, hmacd, hmacdCrossed⟩ := Option.map_eq_some_iff.mp hmacd
  exact ⟨⟨hsma, crossing_consistent hsma, by decide +kernel⟩,
    ⟨ema, hema, hemaCrossed, crossing_consistent hema⟩,
    macd, hmacd, hmacdCrossed, crossing_consistent hmacd, by decide +kernel⟩

end MarketVerdict
