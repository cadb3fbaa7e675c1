import Mathlib
import MarketVerdict.Proofs.Fusion.Silence
import MarketVerdict.Proofs.Lookback.Stability
import MarketVerdict.Proofs.Replay.Technical
import MarketVerdict.Proofs.Rescaling.Signals

/-!
# Replays in other units

Cash is counted in the unit of the prices, so a portfolio whose cash and prices are rescaled affords
the same number of units, trades on the same advice and reaches the rescaled cash. Since the verdicts
are the same at every stop, a replay with rescaled capital makes the same trades at rescaled prices,
and its returns, which are quotients of cash, do not change.
-/

namespace MarketVerdict

open Scalar Traversal

variable (u : Rescaling)

def Trade.rescale (t : Trade ℝ) : Trade ℝ := { t with price := u.price * t.price }

def Advice.rescale (a : Advice ℝ) : Advice ℝ := { a with price := u.price * a.price }

namespace Portfolio

def rescale (p : Portfolio ℝ) : Portfolio ℝ :=
  ⟨u.price * p.cash, p.units, p.trades.map (Trade.rescale u)⟩

theorem tradable_rescale (price : ℝ) : tradable (u.price * price) = tradable price := by
  simp only [tradable, isFinite_real, mul_pos_iff_of_pos_left u.price_pos]

theorem affordable_rescale (p : Portfolio ℝ) (price : ℝ) :
    (p.rescale u).affordable (u.price * price) = p.affordable price := by
  rw [affordable, rescale, mul_div_mul_left _ _ u.price_pos.ne', affordable]

theorem equity_rescale (p : Portfolio ℝ) (price : ℝ) :
    (p.rescale u).equity (u.price * price) = u.price * p.equity price := by
  simp only [equity, rescale]
  ring

theorem book_rescale (p : Portfolio ℝ) (t : Trade ℝ) :
    (p.rescale u).book (t.rescale u) = (p.book t).rescale u := by
  have hcash : t.quantity * (u.price * t.price) = u.price * (t.quantity * t.price) := by ring
  cases h : t.side with
  | buy =>
    rw [book_buy _ (show (t.rescale u).side = .buy from h), book_buy p h]
    simp only [rescale, Trade.rescale, hcash, mul_sub, List.map_append, List.map_cons, List.map_nil]
  | sell =>
    rw [book_sell _ (show (t.rescale u).side = .sell from h), book_sell p h]
    simp only [rescale, Trade.rescale, hcash, mul_add, List.map_append, List.map_cons, List.map_nil]

/-- Rescaled advice leads a rescaled portfolio to the same trade. -/
theorem act_rescale (p : Portfolio ℝ) (a : Advice ℝ) :
    (p.rescale u).act (a.rescale u) = (p.act a).rescale u := by
  by_cases hprice : tradable a.price = true
  · have hprice' : tradable (a.rescale u).price = true := by
      rwa [Advice.rescale, tradable_rescale]
    cases hs : a.recommendation.side? with
    | none =>
      rw [act, act, apply_of_hold _ a hs, apply_of_hold _ (a.rescale u) hs]
    | some side =>
      cases side with
      | buy =>
        rw [act, act, apply_of_buy p a hprice hs, apply_of_buy _ (a.rescale u) hprice' hs]
        simp only [Advice.rescale, affordable_rescale]
        split
        · rfl
        · exact book_rescale u p ⟨a.time, .buy, a.price, p.affordable a.price, a.score⟩
      | sell =>
        rw [act, act, apply_of_sell p a hprice hs, apply_of_sell _ (a.rescale u) hprice' hs]
        by_cases hunits : p.units ≤ 0
        · rw [if_pos hunits, if_pos (show (p.rescale u).units ≤ 0 from hunits)]
        · rw [if_neg hunits, if_neg (show ¬ (p.rescale u).units ≤ 0 from hunits)]
          exact book_rescale u p ⟨a.time, .sell, a.price, p.units, a.score⟩
  · rw [Bool.not_eq_true] at hprice
    have hprice' : tradable (a.rescale u).price = false := by rwa [Advice.rescale, tradable_rescale]
    rw [act, act, apply_of_not_tradable p a hprice, apply_of_not_tradable _ _ hprice']

theorem follow_rescale (p : Portfolio ℝ) (advice : List (Advice ℝ)) :
    (p.rescale u).follow (advice.map (Advice.rescale u)) = (p.follow advice).rescale u := by
  induction advice generalizing p with
  | nil => rfl
  | cons a advice ih => rw [List.map_cons, follow_cons, act_rescale, ih, follow_cons]

end Portfolio

/-- The report with its sums of money and the prices of its trades in other units. Bars, sides,
quantities, scores and returns are those of the report. -/
def Report.rescale (r : Report ℝ) : Report ℝ :=
  { r with
    initialCapital := u.price * r.initialCapital
    finalCapital := u.price * r.finalCapital
    trades := r.trades.map (Trade.rescale u) }

theorem cagrPercent_scale {c : ℝ} (hc : 0 < c) (initial last years : ℝ) :
    cagrPercent (c * initial) (c * last) years = cagrPercent initial last years := by
  have hsign (x : ℝ) : c * x ≤ 0 ↔ x ≤ 0 := smul_nonpos_iff_nonpos_of_pos_left hc
  simp only [cagrPercent, hsign, mul_div_mul_left _ _ hc.ne']

namespace Replay

def Stop.rescale (stop : Stop ℝ) : Stop ℝ := ⟨stop.index, stop.bar.rescale u, stop.verdict⟩

def State.rescale (state : State ℝ) : State ℝ := ⟨state.portfolio.rescale u, state.barsEvaluated⟩

theorem schedule_rescale (warmup : ℕ) (s : Series ℝ) :
    schedule warmup (s.rescale u) = (schedule warmup s).map (Prod.map (Bar.rescale u) id) := by
  rw [schedule, schedule, Series.rescale_bars, List.zipIdx_map, List.map_drop]

theorem head_rescale (s : Series ℝ) (n : ℕ) : (s.rescale u).head n = (s.head n).rescale u := by
  simp only [Series.head, Series.rescale, List.map_take]

theorem arrive_rescale (capital : ℝ) (stops : List (Stop ℝ)) :
    arrive (u.price * capital) (stops.map (Stop.rescale u)) =
      (arrive capital stops).rescale u := by
  have hadvice : (stops.map (Stop.rescale u)).map Stop.advice =
      (stops.map Stop.advice).map (Advice.rescale u) := by
    simp only [List.map_map]
    rfl
  rw [arrive, arrive, hadvice, State.rescale, ← Portfolio.follow_rescale, List.length_map]
  rfl

theorem report_rescale (r : Replay ℝ) (s : Series ℝ) (capital : ℝ) (warmup : ℕ)
    (state : State ℝ) :
    r.report (s.rescale u) (u.price * capital) warmup (state.rescale u) =
      (r.report s capital warmup state).rescale u := by
  have hstart : (s.rescale u).bars.head?.map Bar.time = s.bars.head?.map Bar.time := by
    rw [Series.rescale_bars, List.head?_map, Option.map_map]
    rfl
  have hfinish : (s.rescale u).last?.map Bar.time = s.last?.map Bar.time := by
    rw [Series.last?_rescale, Option.map_map]
    rfl
  have hclose : ((s.rescale u).last?.map Bar.close).getD 0 =
      u.price * (s.last?.map Bar.close).getD 0 := by
    rw [Series.last?_rescale]
    cases s.last? with
    | none => exact (mul_zero _).symm
    | some bar => rfl
  simp only [report, hstart, hfinish, hclose, State.rescale, Portfolio.equity_rescale,
    cagrPercent_scale u.price_pos, ← mul_sub, mul_div_mul_left _ _ u.price_pos.ne']
  rfl

variable {curves : Curves ℝ} {registry : Registry ℝ} {thresholds : Thresholds ℝ}
  {specs : List (Spec ℝ)} {profile : Profile ℝ}

theorem stop_rescale (s : Series ℝ) (b : Bar ℝ × ℕ) :
    (technical curves registry thresholds specs profile).stop (s.rescale u)
        (b.1.rescale u, b.2) =
      ((technical curves registry thresholds specs profile).stop s b).map (Stop.rescale u) := by
  have hverdict (n : ℕ) (time : Instant) :
      (technical curves registry thresholds specs profile).verdict ((s.rescale u).head n) time =
        (technical curves registry thresholds specs profile).verdict (s.head n) time := by
    rw [head_rescale, verdict_technical, verdict_technical, Context.evaluate_rescale u rfl]
  simp only [stop, hverdict, Bar.time_rescale]
  cases (technical curves registry thresholds specs profile).verdict (s.head (b.2 + 1)) b.1.time <;>
    rfl

/-- The stops of the rescaled series are those of the series, rescaled. -/
theorem mapM_stop_rescale (s : Series ℝ) (warmup : ℕ) :
    (schedule warmup (s.rescale u)).mapM
        ((technical curves registry thresholds specs profile).stop (s.rescale u)) =
      ((schedule warmup s).mapM
        ((technical curves registry thresholds specs profile).stop s)).map
          (List.map (Stop.rescale u)) := by
  rw [schedule_rescale, List.mapM_map, ← mapM_map_ok]
  exact mapM_congr fun b _ => stop_rescale u s b

theorem run_rescale (s : Series ℝ) {capital : ℝ} (hcapital : 0 < capital) (warmup : ℕ) :
    (technical curves registry thresholds specs profile).run (s.rescale u) (u.price * capital)
        warmup =
      ((technical curves registry thresholds specs profile).run s capital warmup).map
        (Report.rescale u) := by
  have hcapital' : 0 < u.price * capital := mul_pos u.price_pos hcapital
  cases h : (technical curves registry thresholds specs profile).run s capital warmup with
  | ok report =>
    obtain ⟨_, stops, hstops, rfl⟩ := run_eq_ok_iff.mp h
    refine run_eq_ok_iff.mpr ⟨⟨rfl, hcapital'⟩, stops.map (Stop.rescale u), ?_, ?_⟩
    · rw [mapM_stop_rescale, hstops]
      rfl
    · rw [arrive_rescale, report_rescale]
  | error e =>
    rcases run_eq_error_iff.mp h with ⟨hnot, _⟩ | ⟨_, hstops⟩
    · exact absurd ⟨rfl, hcapital⟩ hnot
    · refine run_eq_error_iff.mpr (Or.inr ⟨⟨rfl, hcapital'⟩, ?_⟩)
      rw [mapM_stop_rescale, hstops]
      rfl

/-- Neither the signals of the built-in indicators, nor the verdicts on them, nor the trades of a
replay depend on the units in which prices and volumes are quoted. -/
theorem unit_invariance (u : Rescaling) (curves : Curves ℝ) (s : Series ℝ) :
    (∀ spec : Spec ℝ,
      (Normalizer.ofCurves curves).signal (Technical.reading spec (s.rescale u)) spec =
        (Normalizer.ofCurves curves).signal (Technical.reading spec s) spec) ∧
    ∀ (registry : Registry ℝ) (thresholds : Thresholds ℝ) (specs : List (Spec ℝ))
      (profile : Profile ℝ),
      (∀ time,
        (technical curves registry thresholds specs profile).context.evaluate
            (Technical.readings specs (s.rescale u)) profile time =
          (technical curves registry thresholds specs profile).context.evaluate
            (Technical.readings specs s) profile time) ∧
      ∀ (capital : ℝ) (warmup : ℕ),
        (0 < capital →
          (technical curves registry thresholds specs profile).run (s.rescale u)
              (u.price * capital) warmup =
            ((technical curves registry thresholds specs profile).run s capital warmup).map
              (Report.rescale u)) ∧
        (capital ≤ 0 →
          (technical curves registry thresholds specs profile).run s capital warmup =
              .error (.failed (.invalidBacktest (.capital capital))) ∧
            (technical curves registry thresholds specs profile).run (s.rescale u)
                (u.price * capital) warmup =
              .error (.failed (.invalidBacktest (.capital (u.price * capital))))) := by
  refine ⟨fun spec => ?_, fun registry thresholds specs profile =>
    ⟨fun time => ?_, fun capital warmup => ⟨fun hcapital => ?_, fun hcapital => ?_⟩⟩⟩
  · rw [Technical.reading_rescale, Normalizer.signal_rescale]
  · exact Context.evaluate_rescale u rfl specs s profile time
  · exact run_rescale u s hcapital warmup
  · have hcapital' := mul_nonpos_of_nonneg_of_nonpos u.price_pos.le hcapital
    exact ⟨run_of_not_pos _ s (not_lt.mpr hcapital) warmup,
      run_of_not_pos _ (s.rescale u) (not_lt.mpr hcapital') warmup⟩

/-- Prices in hundredths, volumes in thousands. -/
noncomputable def cents : Rescaling := ⟨100, 1 / 1000, by norm_num, by norm_num⟩

/-- Closes at its low. -/
noncomputable def lowBar : Bar ℝ := ⟨⟨0, 0⟩, 12, 12, 8, 8, 5⟩

/-- Closes at its high. -/
noncomputable def highBar : Bar ℝ := ⟨⟨1, 0⟩, 8, 16, 8, 16, 7⟩

noncomputable def rebound : Series ℝ :=
  ⟨"rebound", [lowBar, highBar], List.pairwise_pair.mpr (by decide)⟩

noncomputable def closeRange : Spec ℝ := ⟨"williams_r_1", .oscillator, .williamsR 1⟩

noncomputable def rangeBands : OscillatorBands ℝ := ⟨-100, 0, -80, -20⟩

theorem check_rangeBands : rangeBands.check = .ok () :=
  Curves.check_of_oscillators check_standard_curves (i := .williamsR) rfl

/-- Buys low, on the last close's place in its own bar. -/
noncomputable def lowBuyer : Replay ℝ :=
  technical .standard .standard .standard [closeRange] Fusion.trendwise

theorem exists_verdict_lowBuyer {s : Series ℝ} (hs : 1 ≤ s.length) {level : ℝ} {d : Direction}
    (hlevel : williamsR s.bars 1 = some level) (hplace : rangeBands.place level = (d, 1))
    (time : Instant) :
    ∃ v, lowBuyer.verdict s time = .ok v ∧
      v.recommendation = (Thresholds.standard : Thresholds ℝ).recommend d.sign := by
  have hsignal : (Normalizer.ofCurves .standard).signal (Technical.reading closeRange s)
      closeRange = .ok ⟨"williams_r_1", .oscillator, d, 1, 1⟩ :=
    Normalizer.signal_of_end (show closeRange.kind = .oscillator from rfl) rfl hs
      (congrArg (Option.map Raw.level) hlevel) hplace
  have hsignals : lowBuyer.context.signals (Technical.readings [closeRange] s) =
      .ok [⟨"williams_r_1", .oscillator, d, 1, 1⟩] :=
    mapM_eq_ok_iff.mpr (.cons hsignal .nil)
  have hweight : Fusion.trendwise.weight ⟨"williams_r_1", .oscillator, d, 1, 1⟩ ≠ 0 := by
    norm_num [Fusion.weight_trendwise, KindWeights.get]
  obtain ⟨v, hv, _, hcall⟩ := Fusion.exists_fuse_of_alone
    (List.forall_mem_singleton.mpr (Normalizer.check_of_signal hsignal)) Fusion.check_trendwise
    hweight (List.forall_mem_nil _) .standard time
  refine ⟨v, ?_, ?_⟩
  · have heval : lowBuyer.context.evaluate (Technical.readings [closeRange] s)
        Fusion.trendwise time = .ok v := Context.evaluate_eq_ok_iff.mpr ⟨_, hsignals, hv⟩
    rw [lowBuyer, verdict_technical]
    exact congrArg (Except.mapError _) heval
  · rw [hcall, Signal.strength, mul_one]

theorem williamsR_lowBar : williamsR (rebound.head 1).bars 1 = some (-100) := by
  norm_num [williamsR, rebound, lowBar, Series.head, Average.highest, Average.lowest,
    Average.window?, largest?, smallest?, larger_real, smaller_real]

theorem williamsR_highBar : williamsR (rebound.head 2).bars 1 = some 0 := by
  norm_num [williamsR, rebound, highBar, Series.head, Average.highest, Average.lowest,
    Average.window?, largest?, smallest?, larger_real, smaller_real]

theorem unit_invariance_cents :
    ∃ report : Report ℝ, lowBuyer.run rebound 1000 1 = .ok report ∧
      report.trades.map (fun t => (t.side, t.price, t.quantity)) =
        [(.buy, 8, 125), (.sell, 16, 125)] ∧
      lowBuyer.run (rebound.rescale cents) (100 * 1000) 1 = .ok (report.rescale cents) := by
  have hcapital : (0 : ℝ) < 1000 := by norm_num
  obtain ⟨v, hv, hlow⟩ := exists_verdict_lowBuyer (by decide) williamsR_lowBar
    (OscillatorBands.place_min check_rangeBands) ⟨0, 0⟩
  obtain ⟨w, hw, hhigh⟩ := exists_verdict_lowBuyer (by decide) williamsR_highBar
    (OscillatorBands.place_max check_rangeBands) ⟨1, 0⟩
  have hbuy : v.recommendation = .strongBuy := by
    rw [hlow]
    norm_num [Direction.sign, Thresholds.recommend, Thresholds.standard]
  have hsell : w.recommendation = .strongSell := by
    rw [hhigh]
    norm_num [Direction.sign, Thresholds.recommend, Thresholds.standard]
  have hstops : (schedule 1 rebound).mapM (lowBuyer.stop rebound) =
      .ok [⟨0, lowBar, v⟩, ⟨1, highBar, w⟩] :=
    mapM_eq_ok_iff.mpr (.cons (stop_eq_ok_iff.mpr ⟨rfl, rfl, hv⟩)
      (.cons (stop_eq_ok_iff.mpr ⟨rfl, rfl, hw⟩) .nil))
  have hreport := run_eq_ok_iff.mpr ⟨⟨rfl, hcapital⟩, _, hstops, rfl⟩
  have h := (((unit_invariance cents .standard rebound).2 .standard .standard
    lowBuyer.specs Fusion.trendwise).2 1000 1).1 hcapital
  refine ⟨_, hreport, ?_, h.trans (congrArg (Except.map _) hreport)⟩
  norm_num [report, arrive, Stop.advice, hbuy, hsell, lowBar, highBar, Portfolio.act,
    Portfolio.apply, Portfolio.ofCash, Portfolio.tradable, Portfolio.affordable, Scalar.isFinite,
    Scalar.floor]

end Replay

end MarketVerdict
