import MarketVerdict.Proofs.Fusion.Verdict
import MarketVerdict.Proofs.Replay.Lookahead

/-!
# Every trade has its verdict

A replay trades only on the verdict of the bar at which it trades, and where it makes no trade that
verdict, the price or the portfolio gives the reason.
-/

namespace MarketVerdict

open Scalar Traversal

variable {α : Type} [Scalar α]

namespace Replay

/-- Bar `i` and the verdict on the bars up to it. -/
structure Judged (r : Replay α) (s : Series α) (i : ℕ) (bar : Bar α) (v : Verdict α) : Prop where
  found : s.bars[i]? = some bar
  verdict : ∃ given, readings r.provider r.specs (s.head (i + 1)) = .ok given ∧
    r.context.evaluate given r.profile bar.time = .ok v

/-- The trade does at the close of its bar what the verdict there recommends. -/
structure Justified (thresholds : Thresholds α) (bar : Bar α) (v : Verdict α) (t : Trade α) :
    Prop where
  time : t.time = bar.time
  price : t.price = bar.close
  finite : isFinite bar.close = true
  positive : 0 < bar.close
  score : t.score = v.score
  buys : t.side = .buy ↔ v.recommendation = .buy ∨ v.recommendation = .strongBuy
  sells : t.side = .sell ↔ v.recommendation = .sell ∨ v.recommendation = .strongSell
  high : t.side = .buy → thresholds.buy ≤ t.score
  low : t.side = .sell → t.score ≤ thresholds.sell

/-- Why there is no trade at a bar. -/
def Idle (p : Portfolio α) (bar : Bar α) (v : Verdict α) : Prop :=
  v.recommendation = .hold ∨ ¬ (isFinite bar.close = true ∧ 0 < bar.close) ∨
    ((v.recommendation = .buy ∨ v.recommendation = .strongBuy) ∧ p.affordable bar.close < 1) ∨
    ((v.recommendation = .sell ∨ v.recommendation = .strongSell) ∧ p.units ≤ 0)

section Stops

variable {r : Replay α} {s : Series α} {warmup i : ℕ} {stops : List (Stop α)} {stop : Stop α}
  {bar : Bar α} {v : Verdict α} {t : Trade α} {p : Portfolio α}

theorem judged_of_mem (h : (schedule warmup s).mapM (r.stop s) = .ok stops) (hstop : stop ∈ stops) :
    r.Judged s stop.index stop.bar stop.verdict := by
  obtain ⟨b, hb, hok⟩ := exists_mem_of_mapM_eq_ok h hstop
  obtain ⟨hindex, hbar, hverdict⟩ := stop_eq_ok_iff.mp hok
  refine ⟨by rw [hindex, hbar]; exact getElem?_of_mem_schedule hb, ?_⟩
  obtain ⟨given, hgiven, hv⟩ := bind_eq_ok_iff.mp hverdict
  exact ⟨given, mapError_eq_ok_iff.mp hgiven, mapError_eq_ok_iff.mp hv⟩

theorem Judged.recommendation (h : r.Judged s i bar v) :
    v.recommendation = .hold ∨ v.recommendation = r.context.thresholds.recommend v.score := by
  obtain ⟨given, _, hv⟩ := h.verdict
  obtain ⟨signals, _, hfuse⟩ := Context.evaluate_eq_ok_iff.mp hv
  obtain ⟨_, _, _, rfl⟩ := Fusion.fuse_eq_ok_iff.mp hfuse
  exact Fusion.recommendation_conclude

theorem Judged.justified [LawfulScalar α] (h : r.Judged s i bar v)
    (hthresholds : r.context.thresholds.check = .ok ())
    (ht : p.Fits ⟨v.recommendation, bar.close, bar.time, v.score⟩ t) :
    Justified r.context.thresholds bar v t := by
  have hside := ht.side
  have hbuys : t.side = .buy ↔ v.recommendation = .buy ∨ v.recommendation = .strongBuy := by
    rw [← Recommendation.side?_eq_buy_iff, hside, Option.some.injEq]
  have hsells : t.side = .sell ↔ v.recommendation = .sell ∨ v.recommendation = .strongSell := by
    rw [← Recommendation.side?_eq_sell_iff, hside, Option.some.injEq]
  have hrecommend : v.recommendation = r.context.thresholds.recommend v.score := by
    rcases h.recommendation with hhold | hrecommend
    · dsimp only at hside
      rw [hhold] at hside
      cases hside
    · exact hrecommend
  have hprice := ht.tradable
  simp only [Portfolio.tradable, Bool.and_eq_true, decide_eq_true_eq] at hprice
  refine ⟨ht.time, ht.price, hprice.1, hprice.2, ht.score, hbuys, hsells, ?_, ?_⟩
  · intro hbuy
    rw [ht.score]
    exact Thresholds.buy_le_of_recommend hthresholds (hrecommend ▸ hbuys.mp hbuy)
  · intro hsell
    rw [ht.score]
    exact Thresholds.le_sell_of_recommend hthresholds (hrecommend ▸ hsells.mp hsell)

theorem idle_of_passes (h : p.Passes ⟨v.recommendation, bar.close, bar.time, v.score⟩) :
    Idle p bar v := by
  rcases h with hprice | hhold | ⟨hbuy, hfew⟩ | ⟨hsell, hflat⟩
  · refine Or.inr (Or.inl fun hgood => ?_)
    simp [Portfolio.tradable, hgood] at hprice
  · exact Or.inl (Recommendation.side?_eq_none_iff.mp hhold)
  · exact Or.inr (Or.inr (Or.inl ⟨Recommendation.side?_eq_buy_iff.mp hbuy, hfew⟩))
  · exact Or.inr (Or.inr (Or.inr ⟨Recommendation.side?_eq_sell_iff.mp hsell, hflat⟩))

end Stops

/-- The trades that stops lead to, with the indexes of their bars. -/
def marked (capital : α) (stops : List (Stop α)) : List (ℕ × Trade α) :=
  (stops.zip ((Portfolio.ofCash capital).deals (stops.map Stop.advice))).filterMap fun x =>
    x.2.map fun t => (x.1.index, t)

section Marked

variable {capital : α} {stops : List (Stop α)} {r : Replay α} {s : Series α} {warmup : ℕ}

theorem mem_marked {x : ℕ × Trade α} :
    x ∈ marked capital stops ↔ ∃ k stop, stops[k]? = some stop ∧ x.1 = stop.index ∧
      (arrive capital (stops.take k)).portfolio.deal stop.advice = some x.2 := by
  simp only [arrive, List.map_take]
  rw [marked, List.mem_filterMap]
  constructor
  · rintro ⟨⟨stop, d⟩, hmem, hx⟩
    obtain ⟨t, rfl, rfl⟩ := Option.map_eq_some_iff.mp hx
    obtain ⟨k, hk⟩ := List.mem_iff_getElem?.mp hmem
    obtain ⟨hstop, hdeal⟩ := List.getElem?_zip_eq_some.mp hk
    rw [Portfolio.getElem?_deals, List.getElem?_map, hstop] at hdeal
    exact ⟨k, stop, hstop, rfl, Option.some.inj hdeal⟩
  · rintro ⟨k, stop, hstop, hindex, hdeal⟩
    refine ⟨(stop, some x.2), ?_, Option.map_eq_some_iff.mpr ⟨x.2, rfl, Prod.ext hindex.symm rfl⟩⟩
    refine List.mem_iff_getElem?.mpr ⟨k, List.getElem?_zip_eq_some.mpr ⟨hstop, ?_⟩⟩
    rw [Portfolio.getElem?_deals, List.getElem?_map, hstop]
    exact congrArg some hdeal

theorem length_deals_advice (capital : α) (stops : List (Stop α)) :
    stops.length = ((Portfolio.ofCash capital).deals (stops.map Stop.advice)).length := by
  rw [Portfolio.length_deals, List.length_map]

theorem map_snd_marked :
    (marked capital stops).map Prod.snd = (arrive capital stops).portfolio.trades := by
  have hsnd := List.map_snd_zip (length_deals_advice capital stops).ge
  rw [arrive, Portfolio.follow_trades, ← hsnd]
  simp [marked, List.map_filterMap, List.reduceOption, List.filterMap_map, Portfolio.ofCash]

theorem pairwise_marked (h : (schedule warmup s).mapM (r.stop s) = .ok stops) :
    (marked capital stops).Pairwise fun a b => a.1 < b.1 := by
  have hschedule : (schedule warmup s).Pairwise fun a b => a.2 < b.2 := by
    rw [List.pairwise_iff_getElem]
    intro i j _ _ hij
    simp only [schedule, List.getElem_drop, List.getElem_zipIdx]
    omega
  rw [← map_stop_eq_schedule h, List.pairwise_map] at hschedule
  rw [← List.map_fst_zip (length_deals_advice capital stops).le, List.pairwise_map] at hschedule
  rw [marked, List.pairwise_filterMap]
  refine hschedule.imp ?_
  intro a b hab x hx y hy
  obtain ⟨_, _, rfl⟩ := Option.map_eq_some_iff.mp hx
  obtain ⟨_, _, rfl⟩ := Option.map_eq_some_iff.mp hy
  exact hab

theorem length_marked_le : (marked capital stops).length ≤ stops.length := by
  refine (List.length_filterMap_le _ _).trans ?_
  rw [List.length_zip]
  exact Nat.min_le_left _ _

theorem justified_of_mem_marked [LawfulScalar α] {x : ℕ × Trade α}
    (hthresholds : r.context.thresholds.check = .ok ())
    (h : (schedule warmup s).mapM (r.stop s) = .ok stops) (hx : x ∈ marked capital stops) :
    max warmup 1 - 1 ≤ x.1 ∧
      ∃ bar v, r.Judged s x.1 bar v ∧ Justified r.context.thresholds bar v x.2 := by
  obtain ⟨k, stop, hstop, hindex, hdeal⟩ := mem_marked.mp hx
  have hmem : stop ∈ stops := List.mem_of_getElem? hstop
  have hdue : (stop.bar, stop.index) ∈ schedule warmup s := by
    rw [← map_stop_eq_schedule h]
    exact List.mem_map_of_mem hmem
  have hjudged := judged_of_mem h hmem
  rw [hindex]
  exact ⟨le_index_of_mem_drop_schedule (k := 0) hdue, stop.bar, stop.verdict, hjudged,
    hjudged.justified hthresholds (Portfolio.act_of_deal_eq_some hdeal).2⟩

theorem idle_of_not_marked {i : ℕ} (h : (schedule warmup s).mapM (r.stop s) = .ok stops)
    (hi : max warmup 1 - 1 ≤ i) (hlength : i < s.length)
    (hnone : ∀ x ∈ marked capital stops, x.1 ≠ i) :
    ∃ bar v state, r.Judged s i bar v ∧ r.reach s capital warmup i = .ok state ∧
      Idle state.portfolio bar v := by
  obtain ⟨bar, hbar⟩ : ∃ bar, s.bars[i]? = some bar := ⟨_, List.getElem?_eq_getElem hlength⟩
  have hdue : (schedule warmup s)[i + 1 - max warmup 1]? = some (bar, i) := by
    rw [schedule, List.getElem?_drop, show max warmup 1 - 1 + (i + 1 - max warmup 1) = i by omega,
      List.getElem?_zipIdx, hbar]
    simp
  rw [← map_stop_eq_schedule h, List.getElem?_map, Option.map_eq_some_iff] at hdue
  obtain ⟨stop, hstop, hdue⟩ := hdue
  cases hdue
  refine ⟨stop.bar, stop.verdict, arrive capital (stops.take (stop.index + 1 - max warmup 1)),
    judged_of_mem h (List.mem_of_getElem? hstop), ?_, ?_⟩
  · rw [reach_eq r s capital warmup hlength.le, mapM_take_of_eq_ok _ h]
    rfl
  · apply idle_of_passes
    refine (Portfolio.act_of_deal_eq_none (a := stop.advice) ?_).2
    rw [Option.eq_none_iff_forall_ne_some]
    intro t ht
    exact hnone (stop.index, t) (mem_marked.mpr ⟨_, stop, hstop, rfl, ht⟩) rfl

end Marked

/-- Trades and verdicts account for each other: every trade follows the verdict of its own bar, and
every evaluated bar without a trade has a reason. -/
theorem trades_justified [LawfulScalar α] {r : Replay α} {s : Series α} {capital : α} {warmup : ℕ}
    {report : Report α} (hthresholds : r.context.thresholds.check = .ok ())
    (hrun : r.run s capital warmup = .ok report) :
    (∃ indexed : List (ℕ × Trade α), indexed.map Prod.snd = report.trades ∧
      (indexed.Pairwise fun a b => a.1 < b.1) ∧
      (∀ x ∈ indexed, max warmup 1 - 1 ≤ x.1 ∧
        ∃ bar v, r.Judged s x.1 bar v ∧ Justified r.context.thresholds bar v x.2) ∧
      ∀ i, max warmup 1 - 1 ≤ i → i < s.length → (∀ x ∈ indexed, x.1 ≠ i) →
        ∃ bar v state, r.Judged s i bar v ∧ r.reach s capital warmup i = .ok state ∧
          Idle state.portfolio bar v) ∧
      report.totalTrades = report.trades.length ∧
      report.totalTrades ≤ report.barsEvaluated ∧
      report.barsEvaluated = s.length + 1 - max warmup 1 := by
  obtain ⟨_, stops, hstops, rfl⟩ := run_eq_ok_iff.mp hrun
  refine ⟨⟨marked capital stops, map_snd_marked, pairwise_marked hstops, ?_, ?_⟩, rfl, ?_, ?_⟩
  · exact fun x hx => justified_of_mem_marked hthresholds hstops hx
  · exact fun i hi hlength hnone => idle_of_not_marked hstops hi hlength hnone
  · change (arrive capital stops).portfolio.trades.length ≤ stops.length
    rw [← map_snd_marked, List.length_map]
    exact length_marked_le
  · exact length_stops hstops

theorem trades_justified_contrarian :
    ∃ report, contrarian.run swing 1000 1 = .ok report ∧ report.totalTrades = 3 ∧
      contrarian.context.thresholds.check = .ok () ∧
      ∃ indexed : List (ℕ × Trade ℚ), indexed.map Prod.snd = report.trades ∧
        ∀ x ∈ indexed, ∃ bar v, contrarian.Judged swing x.1 bar v ∧
          Justified contrarian.context.thresholds bar v x.2 := by
  have hthresholds : contrarian.context.thresholds.check = .ok () := by
    rw [Thresholds.check_eq_ok_iff]
    decide +kernel
  obtain ⟨report, hrun, htrades⟩ := exists_ok_of_toOption (f := Report.totalTrades)
    (show (contrarian.run swing 1000 1).toOption.map _ = some 3 by decide +kernel)
  obtain ⟨⟨indexed, hindexed, _, hjustified, _⟩, _⟩ := trades_justified hthresholds hrun
  exact ⟨report, hrun, htrades, hthresholds, indexed, hindexed,
    fun x hx => (hjustified x hx).2⟩

end Replay

end MarketVerdict
