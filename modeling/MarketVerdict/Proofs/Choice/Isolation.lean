import Mathlib
import MarketVerdict.Desk
import MarketVerdict.Proofs.Curve.Bands
import MarketVerdict.Proofs.Fusion.Silence

/-!
# Failures of single choices

Every choice of an evaluation is asked in a task of its own, and the tasks may finish in any order. A
choice whose task failed or crashed, or that is never asked, takes part without data. It moves no
other choice from its place, it changes no other signal, and the verdict is the one that the answered
choices come to alone, with an entry in its account for each choice that was left out.
-/

namespace MarketVerdict

open Scalar Traversal

/-- What a join makes of the outcomes of tasks. They come in the order in which the tasks finish, each
with the place of its task. -/
abbrev Join (β : Type) := List (β × ℕ) → List β

def Join.InTaskOrder {β : Type} (join : Join β) : Prop :=
  ∀ outcomes finished, finished.Perm outcomes.zipIdx → join finished = outcomes

namespace Choice

variable {α : Type}

/-- Its task ended with a reading. -/
def answered : Choice α × Option (Answer α) → Bool
  | (valid _, some (.reading _)) => true
  | _ => false

theorem eq_of_answered {o : Choice α × Option (Answer α)} (h : answered o = true) :
    ∃ spec r, o = (valid spec, some (.reading r)) := by
  obtain ⟨c, outcome⟩ := o
  cases c with
  | degraded id kind => cases h
  | valid spec =>
    cases outcome with
    | none => cases h
    | some answer =>
      cases answer with
      | reading r => exact ⟨spec, r, rfl⟩
      | failed cause => cases h
      | halted how => cases h

variable [Scalar α]

/-- The signal that a choice takes part with when it has no reading. -/
def silence (o : Choice α × Option (Answer α)) : Signal α := Signal.noData o.1.id o.1.kind

theorem signal_of_not_answered (n : Normalizer α) {o : Choice α × Option (Answer α)}
    (h : answered o = false) : signal n o.1 o.2 = .ok (silence o) := by
  obtain ⟨c, outcome⟩ := o
  cases c with
  | degraded id kind => rfl
  | valid spec =>
    cases outcome with
    | none => rfl
    | some answer =>
      cases answer with
      | reading r => cases h
      | failed cause => rfl
      | halted how => rfl

/-- The signal that a choice takes part with: the one that its reading gives, or one without data. -/
inductive Gives (n : Normalizer α) : Choice α × Option (Answer α) → Signal α → Prop
  | reading {spec : Spec α} {r : Reading α} {s : Signal α} (h : n.signal r spec = .ok s) :
      Gives n (valid spec, some (.reading r)) s
  | silence {o : Choice α × Option (Answer α)} (h : answered o = false) : Gives n o (silence o)

/-- These are the signals of the outcomes in their order, each under the identity and the kind of its
choice. -/
def Made (n : Normalizer α) (given : List (Choice α × Option (Answer α)))
    (signals : List (Signal α)) : Prop :=
  List.Forall₂ (fun o s => Gives n o s ∧ s.indicator = o.1.id ∧ s.kind = o.1.kind) given signals

/-- The first choice whose reading has no signal fails with `e`. -/
def FailsFirst (n : Normalizer α) (given : List (Choice α × Option (Answer α)))
    (e : FusionError α) : Prop :=
  ∃ front spec r back, given = front ++ (valid spec, some (.reading r)) :: back ∧
    (∀ o ∈ front, ∃ s, Gives n o s) ∧ n.signal r spec = .error e

variable {n : Normalizer α} {given : List (Choice α × Option (Answer α))}
  {o : Choice α × Option (Answer α)} {ss : List (Signal α)} {s : Signal α} {e : FusionError α}

theorem signal_eq_ok_iff : signal n o.1 o.2 = .ok s ↔ Gives n o s := by
  constructor
  · intro h
    cases ho : answered o with
    | false =>
      obtain rfl : silence o = s := Except.ok.inj ((signal_of_not_answered n ho).symm.trans h)
      exact .silence ho
    | true =>
      obtain ⟨spec, r, rfl⟩ := eq_of_answered ho
      exact .reading h
  · intro h
    cases h with
    | reading h => exact h
    | silence ho => exact signal_of_not_answered n ho

theorem signal_eq_error_iff : signal n o.1 o.2 = .error e ↔
    ∃ spec r, o = (valid spec, some (.reading r)) ∧ n.signal r spec = .error e := by
  constructor
  · intro h
    cases ho : answered o with
    | false =>
      rw [signal_of_not_answered n ho] at h
      cases h
    | true =>
      obtain ⟨spec, r, rfl⟩ := eq_of_answered ho
      exact ⟨spec, r, rfl, h⟩
  · rintro ⟨spec, r, rfl, h⟩
    exact h

theorem Gives.named (h : Gives n o s) : s.indicator = o.1.id ∧ s.kind = o.1.kind := by
  cases h with
  | reading h => exact Normalizer.named_of_signal h
  | silence => exact ⟨rfl, rfl⟩

theorem signals_eq_ok_iff : signals n given = .ok ss ↔ Made n given ss := by
  rw [signals, mapM_eq_ok_iff]
  exact ⟨fun h => h.imp fun _ _ hs => ⟨signal_eq_ok_iff.mp hs, (signal_eq_ok_iff.mp hs).named⟩,
    fun h => h.imp fun _ _ hs => signal_eq_ok_iff.mpr hs.1⟩

theorem signals_eq_error_iff : signals n given = .error e ↔ FailsFirst n given e := by
  rw [signals, mapM_eq_error_iff]
  simp only [signal_eq_ok_iff, signal_eq_error_iff]
  constructor
  · rintro ⟨front, o, back, rfl, hfront, spec, r, rfl, h⟩
    exact ⟨front, spec, r, back, rfl, hfront, h⟩
  · rintro ⟨front, spec, r, back, rfl, hfront, h⟩
    exact ⟨front, _, back, rfl, hfront, spec, r, rfl, h⟩

/-- A reading without a signal is enough for the signals to fail. -/
theorem exists_signals_eq_error_iff : (∃ e, signals n given = .error e) ↔
    ∃ spec r e, (valid spec, some (.reading r)) ∈ given ∧ n.signal r spec = .error e := by
  constructor
  · rintro ⟨e, h⟩
    obtain ⟨front, spec, r, back, rfl, _, h⟩ := signals_eq_error_iff.mp h
    exact ⟨spec, r, e, List.mem_append_right front List.mem_cons_self, h⟩
  · rintro ⟨spec, r, e, hmem, hfails⟩
    cases h : signals n given with
    | error e' => exact ⟨e', rfl⟩
    | ok ss =>
      obtain ⟨s, _, hs⟩ := exists_ok_mem_of_mapM_eq_ok h hmem
      exact absurd (hfails.symm.trans hs) nofun

/-- Where one outcome is another, every other choice has the signal that it had. -/
theorem signals_set {n : Normalizer α} {choices : List (Choice α)}
    {outcomes : List (Option (Answer α))} {ss ss' : List (Signal α)} {i : ℕ}
    {outcome : Option (Answer α)} (h : signals n (choices.zip outcomes) = .ok ss)
    (h' : signals n (choices.zip (outcomes.set i outcome)) = .ok ss') {j : ℕ} (hj : j ≠ i) :
    ss'[j]? = ss[j]? := by
  have hsame : (choices.zip (outcomes.set i outcome))[j]? = (choices.zip outcomes)[j]? := by
    rw [List.zip_eq_zipWith, List.zip_eq_zipWith, List.getElem?_zipWith, List.getElem?_zipWith,
      List.getElem?_set_ne hj.symm]
  rw [getElem?_of_mapM_eq_ok h', getElem?_of_mapM_eq_ok h, hsame]

/-- What comes of tasks that fared as `outcomes` says: the failure of the first choice whose own
reading has no signal, or a signal for each choice that no other outcome can change. -/
structure Isolated (n : Normalizer α) (choices : List (Choice α))
    (outcomes : List (Option (Answer α))) (result : Except (FusionError α) (List (Signal α))) :
    Prop where
  failure : ∀ e, result = .error e ↔ FailsFirst n (choices.zip outcomes) e
  fails : (∃ e, result = .error e) ↔ ∃ spec r e,
    (valid spec, some (.reading r)) ∈ choices.zip outcomes ∧ n.signal r spec = .error e
  made : ∀ ss, result = .ok ss ↔ Made n (choices.zip outcomes) ss
  length : ∀ ss, result = .ok ss → ss.length = choices.length
  others : ∀ ss, result = .ok ss → ∀ i outcome ss',
    signals n (choices.zip (outcomes.set i outcome)) = .ok ss' → ∀ j, j ≠ i → ss'[j]? = ss[j]?

theorem isolated_signals (n : Normalizer α) {choices : List (Choice α)}
    {outcomes : List (Option (Answer α))} (hlength : outcomes.length = choices.length) :
    Isolated n choices outcomes (signals n (choices.zip outcomes)) where
  failure := fun _ => signals_eq_error_iff
  fails := exists_signals_eq_error_iff
  made := fun _ => signals_eq_ok_iff
  length := by
    intro ss h
    rw [← (signals_eq_ok_iff.mp h).length_eq, List.length_zip, hlength, Nat.min_self]
  others := fun _ h _ _ _ h' _ hj => signals_set h h' hj

/-! ### The verdict on the others -/

theorem check_of_mem_signals [LawfulScalar α] {n : Normalizer α}
    {given : List (Choice α × Option (Answer α))} {ss : List (Signal α)}
    (h : signals n given = .ok ss) : ∀ s ∈ ss, s.check = .ok () := by
  intro s hs
  obtain ⟨o, _, ho⟩ := exists_mem_of_mapM_eq_ok h hs
  cases signal_eq_ok_iff.mp ho with
  | reading hr => exact Normalizer.check_of_signal hr
  | silence =>
    exact Signal.check_eq_ok_iff.mpr ⟨LawfulScalar.inUnit_zero, LawfulScalar.inUnit_zero⟩

/-- The entry of a choice that is left out for want of data. -/
def absent (profile : Profile α) (o : Choice α × Option (Answer α)) : Attribution α where
  signal := silence o
  status := .excluded .noData
  baseWeight := profile.weights.weightFor o.1.id o.1.kind
  effectiveWeight := 0
  contribution := 0

theorem weigh_silence (profile : Profile ℝ) (o : Choice ℝ × Option (Answer ℝ)) :
    Attribution.weigh profile (silence o) = absent profile o := by
  have hstatus : Attribution.statusOf (silence o)
      (profile.weights.weightFor o.1.id o.1.kind) = .excluded .noData :=
    if_pos (beq_self_eq_true _)
  unfold Attribution.weigh
  simp only [silence, Signal.noData] at hstatus ⊢
  rw [hstatus]
  rfl

/-- Choices without a reading may be left out of the signals, where a test finds them. -/
theorem padded_of_signals {n : Normalizer ℝ} {given : List (Choice ℝ × Option (Answer ℝ))}
    {p : Choice ℝ × Option (Answer ℝ) → Bool} (hp : ∀ o, p o = false → answered o = false)
    {ss : List (Signal ℝ)} (h : signals n given = .ok ss) :
    ∃ kept, signals n (given.filter p) = .ok kept ∧
      Fusion.Padded kept ((given.filter fun o => !p o).map silence) ss := by
  obtain ⟨kept, hkept, hsublist, hperm⟩ :=
    exists_mapM_filter (fun o ho => signal_of_not_answered n (hp o ho)) h
  refine ⟨kept, hkept, hsublist, hperm, fun s hs => ?_⟩
  obtain ⟨o, _, rfl⟩ := List.mem_map.mp hs
  rfl

end Choice

/-- In whatever order the tasks finish, the signals fail with the first choice whose own reading has no
signal, or there is one for each choice, in the order of the choices, and none depends on the outcome
of another choice. The verdict on them is that on the answered choices alone, whose account it keeps
in its order beside an entry for each other choice. -/
theorem failures_isolated :
    (∀ (α : Type) [Scalar α] (join : Join (Option (Answer α))) (n : Normalizer α)
      (choices : List (Choice α)) (outcomes : List (Option (Answer α)))
      (finished : List (Option (Answer α) × ℕ)),
      join.InTaskOrder → outcomes.length = choices.length → finished.Perm outcomes.zipIdx →
        Choice.Isolated n choices outcomes (Choice.signals n (choices.zip (join finished)))) ∧
    ∀ (n : Normalizer ℝ) (given : List (Choice ℝ × Option (Answer ℝ))) (signals : List (Signal ℝ)),
      Choice.signals n given = .ok signals →
        ∃ others, Choice.signals n (given.filter Choice.answered) = .ok others ∧
          ∀ thresholds profile time,
            (∃ e, profile.check = .error e ∧ Fusion.fuse thresholds signals profile time = .error e ∧
              Fusion.fuse thresholds others profile time = .error e) ∨
            ∃ v account, Fusion.fuse thresholds others profile time = .ok v ∧
              Fusion.fuse thresholds signals profile time = .ok { v with attribution := account } ∧
              v.attribution.Sublist account ∧
              account.Perm (v.attribution ++
                (given.filter fun o => !Choice.answered o).map (Choice.absent profile)) := by
  constructor
  · intro α _ join n choices outcomes finished hjoin hlength hfinished
    rw [hjoin outcomes finished hfinished]
    exact Choice.isolated_signals n hlength
  · intro n given signals h
    obtain ⟨others, hothers, hpadded⟩ := Choice.padded_of_signals (fun _ ho => ho) h
    refine ⟨others, hothers, fun thresholds profile time => ?_⟩
    rcases Fusion.fuse_padded hpadded (Choice.check_of_mem_signals h) thresholds profile time time
      with hfails | ⟨v, hv, hattribution, htime, hsignals⟩
    · exact Or.inl hfails
    · refine Or.inr ⟨v, Fusion.account profile signals, hv, ?_, ?_, ?_⟩
      · rw [hsignals, ← htime]
      · rw [hattribution]
        exact hpadded.account_sublist profile
      · have habsent : ((given.filter fun o => !Choice.answered o).map Choice.silence).map
            (Attribution.weigh profile) =
            (given.filter fun o => !Choice.answered o).map (Choice.absent profile) := by
          rw [List.map_map]
          exact List.map_congr_left fun o _ => Choice.weigh_silence profile o
        rw [hattribution, ← habsent]
        exact hpadded.account_perm profile

/-- Sorts the outcomes by the places of their tasks. -/
def Join.byPlace {β : Type} : Join β := fun finished =>
  (finished.mergeSort fun a b => decide (a.2 ≤ b.2)).map Prod.fst

theorem Join.inTaskOrder_byPlace {β : Type} : (byPlace : Join β).InTaskOrder := by
  intro outcomes finished h
  have hperm : (finished.mergeSort fun a b => decide (a.2 ≤ b.2)).Perm outcomes.zipIdx :=
    (List.mergeSort_perm _ _).trans h
  have hsorted : (finished.mergeSort fun a b => decide (a.2 ≤ b.2)).Pairwise fun a b =>
      a.2 ≤ b.2 := by
    refine (List.pairwise_mergeSort ?_ ?_ finished).imp of_decide_eq_true
    · intro a b c hab hbc
      exact decide_eq_true ((of_decide_eq_true hab).trans (of_decide_eq_true hbc))
    · intro a b
      simpa using Nat.le_total a.2 b.2
  have hplaces : outcomes.zipIdx.Pairwise fun a b => a.2 ≤ b.2 := by
    have hrange : (List.range' 0 outcomes.length).Pairwise (· ≤ ·) := List.pairwise_le_range' ..
    rw [← List.zipIdx_map_snd] at hrange
    exact List.pairwise_map.mp hrange
  have hsame : (finished.mergeSort fun a b => decide (a.2 ≤ b.2)) = outcomes.zipIdx := by
    refine List.Perm.eq_of_pairwise (fun a b ha hb hab hba => ?_) hsorted hplaces hperm
    have ha := List.mem_zipIdx_iff_getElem?.mp (hperm.mem_iff.mp ha)
    have hb := List.mem_zipIdx_iff_getElem?.mp hb
    rw [Nat.le_antisymm hab hba, hb] at ha
    exact Prod.ext (Option.some.inj ha).symm (Nat.le_antisymm hab hba)
  rw [byPlace, hsame, List.zipIdx_map_fst]

noncomputable def usualBands : OscillatorBands ℝ := ⟨0, 100, 30, 70⟩

noncomputable def lowReading : Reading ℝ := ⟨"rsi_14", .present (.level 20), 43, 43⟩

/-- What the reading says. -/
noncomputable def lowSignal : Signal ℝ := ⟨"rsi_14", .oscillator, .bullish, 3 / 5, 1⟩

theorem signal_lowReading :
    (Normalizer.ofCurves .standard).signal lowReading Normalizer.usualRsi = .ok lowSignal := by
  have hcheck : usualBands.check = .ok () :=
    Curves.check_of_oscillators check_standard_curves (i := .rsi) rfl
  have hdistance : usualBands.distance 20 = 3 / 5 := by
    norm_num [OscillatorBands.distance, OscillatorBands.midpoint, usualBands, abs_of_neg]
  have hplace : usualBands.place 20 = (.bullish, 3 / 5) := by
    rw [OscillatorBands.place_of_le_lower hcheck (by norm_num [usualBands]), hdistance]
  have hcoverage : lowReading.coverage = 1 := by
    norm_num [Reading.coverage, lowReading, smaller_real]
  change Except.ok (Normalizer.settle Normalizer.usualRsi (usualBands.place 20)
    lowReading.coverage) = _
  rw [hplace, hcoverage]
  norm_num [Normalizer.settle, clampUnit_real, lowSignal, Normalizer.usualRsi]

/-- A task that crashes, a choice that is never asked, and one that is answered. -/
def threefold : List (Choice ℝ) :=
  [.valid ⟨"macd_12_26_9", .trend, .macd 12 26 9⟩, .degraded "stochastic:0" .oscillator,
    .valid Normalizer.usualRsi]

noncomputable def threefoldOutcomes : List (Option (Answer ℝ)) :=
  [some (.halted .crashed), none, some (.reading lowReading)]

/-- The one that is answered speaks, wherever its task finishes. -/
theorem failures_isolated_threefold :
    ∃ v account,
      Choice.signals (Normalizer.ofCurves .standard)
          (threefold.zip (Join.byPlace threefoldOutcomes.zipIdx.reverse)) =
        .ok [Signal.noData "macd_12_26_9" .trend, Signal.noData "stochastic:0" .oscillator,
          lowSignal] ∧
      Choice.signals (Normalizer.ofCurves .standard)
        ((threefold.zip threefoldOutcomes).filter Choice.answered) = .ok [lowSignal] ∧
      Fusion.fuse .standard [lowSignal] Fusion.trendwise .epoch = .ok v ∧ v.score = 3 / 5 ∧
      Fusion.fuse .standard [Signal.noData "macd_12_26_9" .trend,
          Signal.noData "stochastic:0" .oscillator, lowSignal] Fusion.trendwise .epoch =
        .ok { v with attribution := account } ∧
      account.Perm (v.attribution ++
        ((threefold.zip threefoldOutcomes).take 2).map (Choice.absent Fusion.trendwise)) := by
  have hisolated := failures_isolated.1 ℝ Join.byPlace (Normalizer.ofCurves .standard) threefold
    threefoldOutcomes threefoldOutcomes.zipIdx.reverse Join.inTaskOrder_byPlace rfl
    (List.reverse_perm _)
  have hmade : Choice.Made (Normalizer.ofCurves .standard) (threefold.zip threefoldOutcomes)
      [Signal.noData "macd_12_26_9" .trend, Signal.noData "stochastic:0" .oscillator,
        lowSignal] :=
    .cons ⟨.silence rfl, rfl, rfl⟩
      (.cons ⟨.silence rfl, rfl, rfl⟩ (.cons ⟨.reading signal_lowReading, rfl, rfl⟩ .nil))
  obtain ⟨others, hothers, hfuse⟩ := failures_isolated.2 _ _ _ (Choice.signals_eq_ok_iff.mpr hmade)
  have hanswered : Choice.Made (Normalizer.ofCurves .standard)
      ((threefold.zip threefoldOutcomes).filter Choice.answered) [lowSignal] :=
    .cons ⟨.reading signal_lowReading, rfl, rfl⟩ .nil
  obtain rfl : others = [lowSignal] :=
    Except.ok.inj (hothers.symm.trans (Choice.signals_eq_ok_iff.mpr hanswered))
  have hweight : Fusion.trendwise.weight lowSignal ≠ 0 := by
    norm_num [Fusion.weight_trendwise, KindWeights.get, lowSignal]
  obtain ⟨v, hv, hscore, _⟩ := Fusion.exists_fuse_of_alone (Choice.check_of_mem_signals hothers)
    Fusion.check_trendwise hweight (List.forall_mem_nil _) .standard .epoch
  rcases hfuse .standard Fusion.trendwise .epoch with
    ⟨e, hcheck, _⟩ | ⟨v', account, hv', hall, _, hperm⟩
  · cases hcheck.symm.trans Fusion.check_trendwise
  · obtain rfl : v' = v := Except.ok.inj (hv'.symm.trans hv)
    refine ⟨v', account, (hisolated.made _).mpr hmade, hothers, hv, ?_, hall, hperm⟩
    rw [hscore, Signal.strength, lowSignal, Direction.sign, one_mul]

end MarketVerdict
