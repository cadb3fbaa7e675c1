import MarketVerdict.Proofs.Portfolio.Advice
import MarketVerdict.Proofs.Traversal
import MarketVerdict.Replay

/-!
# The stops of a replay

A replay stops at every bar from index `max warmup 1 - 1` on. What it finds there, the verdict on
the bars so far, does not depend on the portfolio, so a run first gathers its stops and then lets
the portfolio follow their advice: this is `run_eq_ok_iff`, on which all statements about runs
rest.
-/

namespace MarketVerdict.Replay

open Scalar Traversal

variable {α : Type}

/-- A bar of a replay with its index and the verdict there. -/
structure Stop (α : Type) where
  index : ℕ
  bar : Bar α
  verdict : Verdict α

def Stop.advice (stop : Stop α) : Advice α :=
  ⟨stop.verdict.recommendation, stop.bar.close, stop.bar.time, stop.verdict.score⟩

/-- The bars at which a replay stops, with their indexes. -/
def schedule (warmup : ℕ) (s : Series α) : List (Bar α × ℕ) := s.bars.zipIdx.drop (max warmup 1 - 1)

theorem getElem?_of_mem_schedule {warmup : ℕ} {s : Series α} {b : Bar α × ℕ}
    (h : b ∈ schedule warmup s) : s.bars[b.2]? = some b.1 :=
  List.mem_zipIdx_iff_getElem?.mp (List.mem_of_mem_drop h)

theorem le_index_of_mem_drop_schedule {warmup k : ℕ} {s : Series α} {b : Bar α × ℕ}
    (h : b ∈ (schedule warmup s).drop k) : max warmup 1 - 1 + k ≤ b.2 := by
  rw [schedule, List.drop_drop] at h
  obtain ⟨i, hi, rfl⟩ := List.mem_iff_getElem.mp h
  simp

theorem length_schedule (warmup : ℕ) (s : Series α) :
    (schedule warmup s).length = s.length + 1 - max warmup 1 := by
  simp only [schedule, List.length_drop, List.length_zipIdx, Series.length]
  omega

theorem lengths_eq_schedule (warmup : ℕ) {s : Series α} {n : ℕ} (h : n ≤ s.length) :
    lengths (max warmup 1) n =
      ((schedule warmup s).take (n + 1 - max warmup 1)).map fun b => b.2 + 1 := by
  have hbars : n ≤ s.bars.length := h
  apply List.ext_getElem
  · simp [lengths, schedule]
    omega
  · intro i hi hi'
    simp [lengths, schedule]
    omega

/-- The schedule of the first bars is the beginning of the schedule. -/
theorem schedule_head (warmup : ℕ) (s : Series α) (m : ℕ) :
    schedule warmup (s.head m) = (schedule warmup s).take (m + 1 - max warmup 1) := by
  apply List.ext_getElem
  · simp [schedule]
    omega
  · intro i h h'
    simp [schedule]

theorem time_lt_of_lt {s : Series α} {i j : ℕ} {a b : Bar α} (h : i < j)
    (ha : s.bars[i]? = some a) (hb : s.bars[j]? = some b) : a.time < b.time := by
  obtain ⟨hi, rfl⟩ := List.getElem?_eq_some_iff.mp ha
  obtain ⟨hj, rfl⟩ := List.getElem?_eq_some_iff.mp hb
  exact List.pairwise_iff_getElem.mp s.ordered i j hi hj h

theorem head_head {s : Series α} {m n : ℕ} (h : n ≤ m) : (s.head m).head n = s.head n := by
  simp only [Series.head, List.take_take, Nat.min_eq_left h]

theorem last?_head {s : Series α} {i : ℕ} {bar : Bar α} (h : s.bars[i]? = some bar) :
    (s.head (i + 1)).last? = some bar := by
  rw [Series.last?, Series.head_bars, List.getLast?_take, if_neg (Nat.succ_ne_zero i),
    Nat.add_sub_cancel, h]
  rfl

variable [Scalar α]

def stop (r : Replay α) (s : Series α) (b : Bar α × ℕ) : Except (ReplayError α) (Stop α) := do
  return ⟨b.2, b.1, ← r.verdict (s.head (b.2 + 1)) b.1.time⟩

def State.visit (state : State α) (stop : Stop α) : State α :=
  ⟨state.portfolio.act stop.advice, state.barsEvaluated + 1⟩

/-- The state once the stops have been made. -/
def arrive (capital : α) (stops : List (Stop α)) : State α :=
  ⟨(Portfolio.ofCash capital).follow (stops.map Stop.advice), stops.length⟩

theorem stop_eq_ok_iff {r : Replay α} {s : Series α} {b : Bar α × ℕ} {stop : Stop α} :
    r.stop s b = .ok stop ↔
      stop.index = b.2 ∧ stop.bar = b.1 ∧
        r.verdict (s.head (stop.index + 1)) stop.bar.time = .ok stop.verdict := by
  rw [Replay.stop, bind_eq_ok_iff]
  constructor
  · rintro ⟨v, hv, h⟩
    cases h
    exact ⟨rfl, rfl, hv⟩
  · obtain ⟨i, bar, v⟩ := stop
    rintro ⟨rfl, rfl, hv⟩
    exact ⟨v, hv, rfl⟩

/-- Every stop is made where it is due. -/
theorem map_stop_eq_schedule {r : Replay α} {s : Series α} {warmup : ℕ} {stops : List (Stop α)}
    (h : (schedule warmup s).mapM (r.stop s) = .ok stops) :
    stops.map (fun stop => (stop.bar, stop.index)) = schedule warmup s := by
  have hsame : stops.map (fun stop => (stop.bar, stop.index)) = (schedule warmup s).map id :=
    map_eq_map_of_mapM_eq_ok h fun b stop hb => by
      obtain ⟨hindex, hbar, _⟩ := stop_eq_ok_iff.mp hb
      rw [hindex, hbar, id]
  rw [hsame, List.map_id]

theorem length_stops {r : Replay α} {s : Series α} {warmup : ℕ} {stops : List (Stop α)}
    (h : (schedule warmup s).mapM (r.stop s) = .ok stops) :
    stops.length = s.length + 1 - max warmup 1 := by
  rw [← length_schedule, ← map_stop_eq_schedule h, List.length_map]

/-- Further stops add trades at their own bars to the log. -/
theorem trades_arrive_append (capital : α) (stops stops' : List (Stop α)) :
    ∃ later, (arrive capital (stops ++ stops')).portfolio.trades =
        (arrive capital stops).portfolio.trades ++ later ∧
      ∀ t ∈ later, ∃ stop ∈ stops', t.time = stop.bar.time := by
  refine ⟨((arrive capital stops).portfolio.deals (stops'.map Stop.advice)).reduceOption, ?_, ?_⟩
  · rw [arrive, List.map_append, Portfolio.follow_append, Portfolio.follow_trades]
    rfl
  intro t ht
  obtain ⟨a, ha, htime⟩ := Portfolio.time_of_mem_deals (List.reduceOption_mem_iff.mp ht)
  obtain ⟨stop, hstop, rfl⟩ := List.mem_map.mp ha
  exact ⟨stop, hstop, htime⟩

theorem step_eq_visit (r : Replay α) (s : Series α) (state : State α) {b : Bar α × ℕ}
    (h : s.bars[b.2]? = some b.1) :
    r.step s state (b.2 + 1) = do return state.visit (← r.stop s b) := by
  simp only [step, stop, last?_head h]
  cases r.verdict (s.head (b.2 + 1)) b.1.time <;> rfl

theorem foldl_visit (state : State α) (stops : List (Stop α)) :
    stops.foldl State.visit state =
      ⟨state.portfolio.follow (stops.map Stop.advice), state.barsEvaluated + stops.length⟩ := by
  induction stops generalizing state with
  | nil => rfl
  | cons stop stops ih =>
    rw [List.foldl_cons, ih]
    simp [State.visit, Nat.add_assoc, Nat.add_comm 1]

/-- The state of a replay once it has seen the first `n` bars. -/
def reach (r : Replay α) (s : Series α) (capital : α) (warmup n : ℕ) :
    Except (ReplayError α) (State α) :=
  (lengths (max warmup 1) n).foldlM (r.step s) ⟨Portfolio.ofCash capital, 0⟩

/-- Gathering the stops first changes nothing in the loop over the windows. -/
theorem reach_eq (r : Replay α) (s : Series α) (capital : α) (warmup : ℕ) {n : ℕ}
    (h : n ≤ s.length) :
    r.reach s capital warmup n = do
      let stops ← ((schedule warmup s).take (n + 1 - max warmup 1)).mapM (r.stop s)
      return arrive capital stops := by
  rw [reach, lengths_eq_schedule warmup h, List.foldlM_map]
  have hdue : ∀ b ∈ (schedule warmup s).take (n + 1 - max warmup 1), s.bars[b.2]? = some b.1 :=
    fun b hb => getElem?_of_mem_schedule (List.mem_of_mem_take hb)
  generalize (schedule warmup s).take (n + 1 - max warmup 1) = due at hdue ⊢
  rw [foldlM_congr fun c b hb => r.step_eq_visit s c (hdue b hb), foldlM_eq_mapM_bind_foldl]
  simp only [foldl_visit, arrive, Nat.zero_add]

theorem reach_length (r : Replay α) (s : Series α) (capital : α) (warmup : ℕ) :
    (lengths (max warmup 1) s.length).foldlM (r.step s) ⟨Portfolio.ofCash capital, 0⟩ =
      do return arrive capital (← (schedule warmup s).mapM (r.stop s)) := by
  have h := r.reach_eq s capital warmup (Nat.le_refl _)
  rwa [← length_schedule, List.take_length] at h

theorem run_eq_ok_iff {r : Replay α} {s : Series α} {capital : α} {warmup : ℕ} {report : Report α} :
    r.run s capital warmup = .ok report ↔
      (isFinite capital = true ∧ 0 < capital) ∧
        ∃ stops, (schedule warmup s).mapM (r.stop s) = .ok stops ∧
          report = r.report s capital (max warmup 1) (arrive capital stops) := by
  unfold run
  by_cases hc : isFinite capital = true ∧ 0 < capital
  · rw [if_neg (not_not_intro hc)]
    simp only [reach_length, bind_eq_ok_iff, hc, true_and]
    constructor
    · rintro ⟨state, ⟨stops, hstops, hstate⟩, h⟩
      cases hstate
      cases h
      exact ⟨stops, hstops, rfl⟩
    · rintro ⟨stops, hstops, rfl⟩
      exact ⟨_, ⟨stops, hstops, rfl⟩, rfl⟩
  · rw [if_pos hc]
    simp [hc]

theorem run_eq_error_iff {r : Replay α} {s : Series α} {capital : α} {warmup : ℕ}
    {e : ReplayError α} :
    r.run s capital warmup = .error e ↔
      (¬ (isFinite capital = true ∧ 0 < capital) ∧
        e = .failed (.invalidBacktest (.capital capital))) ∨
      ((isFinite capital = true ∧ 0 < capital) ∧
        (schedule warmup s).mapM (r.stop s) = .error e) := by
  unfold run
  by_cases hc : isFinite capital = true ∧ 0 < capital
  · rw [if_neg (not_not_intro hc)]
    simp only [reach_length, hc, not_true, false_and, true_and, false_or]
    cases (schedule warmup s).mapM (r.stop s) with
    | error e' =>
      constructor
      · rintro ⟨⟩
        rfl
      · rintro ⟨⟩
        rfl
    | ok stops => exact ⟨nofun, nofun⟩
  · rw [if_pos hc]
    simp only [hc, not_false_eq_true, true_and, false_and, or_false, Except.error.injEq]
    exact eq_comm

end MarketVerdict.Replay
