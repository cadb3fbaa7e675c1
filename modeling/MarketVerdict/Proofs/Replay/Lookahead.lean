import MarketVerdict.Proofs.Arithmetic.Exact
import MarketVerdict.Proofs.Replay.Stops

/-!
# No lookahead

The replay of the first bars of a series is the beginning of the replay of the whole series: later
bars change neither a verdict nor a trade that was made before them, and a replay that fails on the
first bars fails in the same way on all of them.
-/

namespace MarketVerdict.Replay

open Scalar Traversal

variable {α : Type}

/-- The trade was made no later than the last bar of the series. -/
def madeWithin (s : Series α) (t : Trade α) : Bool :=
  s.last?.any fun bar => !decide (bar.time < t.time)

section Times

variable {s : Series α} {t : Trade α}

theorem madeWithin_of_getElem? {i : ℕ} {bar : Bar α} (h : s.bars[i]? = some bar)
    (ht : t.time = bar.time) : madeWithin s t = true := by
  obtain ⟨hi, _⟩ := List.getElem?_eq_some_iff.mp h
  obtain ⟨last, hlast⟩ : ∃ last, s.bars[s.bars.length - 1]? = some last :=
    ⟨_, List.getElem?_eq_getElem (by omega)⟩
  have hle : ¬ last.time < bar.time := by
    rcases Nat.lt_or_ge i (s.bars.length - 1) with hlt | hge
    · exact Instant.lt_asymm (time_lt_of_lt hlt h hlast)
    · rw [show i = s.bars.length - 1 by omega, hlast] at h
      cases h
      exact Instant.lt_irrefl bar.time
  simp [madeWithin, Series.last?, List.getLast?_eq_getElem?, hlast, ht, hle]

theorem not_madeWithin_of_forall_lt (h : ∀ bar ∈ s.bars, bar.time < t.time) :
    madeWithin s t = false := by
  rw [madeWithin, Option.any_eq_false]
  intro last hlast
  simp [h last (List.mem_of_getLast? hlast)]

end Times

variable [Scalar α]

theorem stop_head (r : Replay α) (s : Series α) {m : ℕ} {b : Bar α × ℕ} (h : b.2 < m) :
    r.stop (s.head m) b = r.stop s b := by
  unfold stop
  rw [head_head h]

theorem mapM_stop_head (r : Replay α) (s : Series α) (warmup m : ℕ) :
    (schedule warmup (s.head m)).mapM (r.stop (s.head m)) =
      ((schedule warmup s).take (m + 1 - max warmup 1)).mapM (r.stop s) := by
  rw [← schedule_head]
  apply mapM_congr
  intro b hb
  have hbar := getElem?_of_mem_schedule hb
  rw [Series.head_bars, List.getElem?_take] at hbar
  apply stop_head
  by_contra hm
  rw [if_neg hm] at hbar
  cases hbar

section Parts

variable {r : Replay α} {s : Series α} {warmup m : ℕ} {stops : List (Stop α)} {stop : Stop α}
  {t : Trade α}

theorem madeWithin_of_mem_take (h : (schedule warmup s).mapM (r.stop s) = .ok stops)
    (hstop : stop ∈ stops.take (m + 1 - max warmup 1)) (ht : t.time = stop.bar.time) :
    madeWithin (s.head m) t = true := by
  have hdue : (stop.bar, stop.index) ∈ schedule warmup (s.head m) := by
    rw [schedule_head, ← map_stop_eq_schedule h, ← List.map_take]
    exact List.mem_map_of_mem hstop
  exact madeWithin_of_getElem? (getElem?_of_mem_schedule hdue) ht

theorem not_madeWithin_of_mem_drop (h : (schedule warmup s).mapM (r.stop s) = .ok stops)
    (hstop : stop ∈ stops.drop (m + 1 - max warmup 1)) (ht : t.time = stop.bar.time) :
    madeWithin (s.head m) t = false := by
  have hdue : (stop.bar, stop.index) ∈ (schedule warmup s).drop (m + 1 - max warmup 1) := by
    rw [← map_stop_eq_schedule h, ← List.map_drop]
    exact List.mem_map_of_mem hstop
  have hindex : m ≤ stop.index := by
    have hle := le_index_of_mem_drop_schedule hdue
    dsimp only at hle
    omega
  have hbar := getElem?_of_mem_schedule (List.mem_of_mem_drop hdue)
  apply not_madeWithin_of_forall_lt
  intro bar hmem
  obtain ⟨i, hi⟩ := List.mem_iff_getElem?.mp hmem
  rw [Series.head_bars, List.getElem?_take] at hi
  by_cases him : i < m
  · rw [if_pos him] at hi
    rw [ht]
    exact time_lt_of_lt (Nat.lt_of_lt_of_le him hindex) hi hbar
  · rw [if_neg him] at hi
    cases hi

/-- The trades at the stops of the first `m` bars are those made within these bars. -/
theorem trades_arrive_take (capital : α) (h : (schedule warmup s).mapM (r.stop s) = .ok stops)
    (m : ℕ) :
    (arrive capital (stops.take (m + 1 - max warmup 1))).portfolio.trades =
      (arrive capital stops).portfolio.trades.filter (madeWithin (s.head m)) := by
  obtain ⟨sooner, hsooner, htimes⟩ :=
    trades_arrive_append capital [] (stops.take (m + 1 - max warmup 1))
  obtain ⟨later, hlater, htimes'⟩ :=
    trades_arrive_append capital (stops.take (m + 1 - max warmup 1))
      (stops.drop (m + 1 - max warmup 1))
  have hbegin : (arrive capital ([] : List (Stop α))).portfolio.trades = [] := rfl
  rw [hbegin, List.nil_append, List.nil_append] at hsooner
  rw [List.take_append_drop] at hlater
  have hall : sooner.filter (madeWithin (s.head m)) = sooner := by
    rw [List.filter_eq_self]
    intro t ht
    obtain ⟨stop, hstop, htime⟩ := htimes t ht
    exact madeWithin_of_mem_take h hstop htime
  have hnone : later.filter (madeWithin (s.head m)) = [] := by
    rw [List.filter_eq_nil_iff]
    intro t ht
    obtain ⟨stop, hstop, htime⟩ := htimes' t ht
    simp [not_madeWithin_of_mem_drop h hstop htime]
  rw [hlater, hsooner, List.filter_append, hall, hnone, List.append_nil]

end Parts

/-- The replay of the first `m` bars has the trades of the whole replay that were made by then. -/
theorem no_lookahead (r : Replay α) (s : Series α) (capital : α) (warmup : ℕ) {m : ℕ}
    (hm : m ≤ s.length) :
    (∀ report, r.run s capital warmup = .ok report →
      ∃ early, r.run (s.head m) capital warmup = .ok early ∧
        early.trades <+: report.trades ∧
        early.trades = report.trades.filter (madeWithin (s.head m)) ∧
        early.barsEvaluated = m + 1 - max warmup 1) ∧
      ∀ e, r.run (s.head m) capital warmup = .error e → r.run s capital warmup = .error e := by
  constructor
  · intro report hrun
    obtain ⟨hcapital, stops, hstops, rfl⟩ := run_eq_ok_iff.mp hrun
    have hearly : (schedule warmup (s.head m)).mapM (r.stop (s.head m)) =
        .ok (stops.take (m + 1 - max warmup 1)) := by
      rw [mapM_stop_head]
      exact mapM_take_of_eq_ok _ hstops
    refine ⟨_, run_eq_ok_iff.mpr ⟨hcapital, _, hearly, rfl⟩, ?_,
      trades_arrive_take capital hstops m, ?_⟩
    · obtain ⟨later, hlater, _⟩ :=
        trades_arrive_append capital (stops.take (m + 1 - max warmup 1))
          (stops.drop (m + 1 - max warmup 1))
      rw [List.take_append_drop] at hlater
      exact ⟨later, hlater.symm⟩
    · change (stops.take (m + 1 - max warmup 1)).length = _
      rw [List.length_take, length_stops hstops]
      omega
  · intro e hrun
    rw [run_eq_error_iff] at hrun ⊢
    refine hrun.imp id (And.imp id fun herror => ?_)
    rw [mapM_stop_head] at herror
    exact mapM_eq_error_of_take herror

/-- Reads the last close as if it were a level, so that it buys low and sells high. -/
def contrarian : Replay ℚ where
  context := .standard
  provider := fun spec s =>
    .reading (Reading.present spec (.level ((s.last?.map Bar.close).getD 0)) s.length)
  specs := [⟨"rsi_1", .oscillator, .rsi 1⟩]
  profile := ⟨"plain", (KindWeights.alone ⟨1, 1, 1, 1⟩).weights⟩

def swing : Series ℚ :=
  ⟨"swing", [50, 10, 90, 20].zipIdx.map fun c => ⟨⟨c.2, 0⟩, c.1, c.1, c.1, c.1, 0⟩, by decide⟩

theorem no_lookahead_contrarian :
    ∃ report early, contrarian.run swing 1000 1 = .ok report ∧
      contrarian.run (swing.head 2) 1000 1 = .ok early ∧
      early.trades = report.trades.filter (madeWithin (swing.head 2)) ∧
      early.trades.length = 1 ∧ report.trades.length = 3 := by
  have hlength : 2 ≤ swing.length := by decide
  obtain ⟨report, hreport, htrades⟩ := exists_ok_of_toOption (f := Report.totalTrades)
    (show (contrarian.run swing 1000 1).toOption.map _ = some 3 by decide +kernel)
  obtain ⟨early, hearly, _, hfilter, _⟩ :=
    (no_lookahead contrarian swing 1000 1 hlength).1 report hreport
  obtain ⟨early', hearly', htrades'⟩ := exists_ok_of_toOption (f := Report.totalTrades)
    (show (contrarian.run (swing.head 2) 1000 1).toOption.map _ = some 1 by decide +kernel)
  rw [hearly] at hearly'
  cases hearly'
  exact ⟨report, early, hreport, hearly, hfilter, htrades', htrades⟩

end MarketVerdict.Replay
