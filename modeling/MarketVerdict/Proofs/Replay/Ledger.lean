import Mathlib.Data.List.DropRight
import MarketVerdict.Proofs.Arithmetic.Exact
import MarketVerdict.Proofs.Replay.Stops

/-!
# The ledger of a portfolio

In exact arithmetic the log of a portfolio accounts for its cash and its units. `Ledger` says so
together with what holds of each entry given the entries before it. It has to say as well that the
units are those bought since the last sale: this makes a sale close the position, and it is why a
log opens with a buy and has no two sales in a row.
-/

namespace MarketVerdict

namespace Portfolio

/-- The units of the trades on one side. -/
def traded (side : Side) (log : List (Trade ℝ)) : ℝ :=
  ((log.filter fun t => t.side = side).map Trade.quantity).sum

/-- The cash of the trades on one side. -/
def turnover (side : Side) (log : List (Trade ℝ)) : ℝ :=
  ((log.filter fun t => t.side = side).map fun t => t.quantity * t.price).sum

def balance (initial : ℝ) (log : List (Trade ℝ)) : ℝ :=
  initial - turnover .buy log + turnover .sell log

def position (log : List (Trade ℝ)) : ℝ := traded .buy log - traded .sell log

/-- The buys behind the last sale. -/
def sinceSale (log : List (Trade ℝ)) : List (Trade ℝ) := log.rtakeWhile fun t => t.side = .buy

/-- What holds of a trade, given the trades before it. -/
structure Entry (initial : ℝ) (before : List (Trade ℝ)) (t : Trade ℝ) : Prop where
  whole : ∃ n : ℕ, 1 ≤ n ∧ t.quantity = n
  opening : before = [] → t.side = .buy
  apart : ∀ u, before.getLast? = some u → u.side = .sell → t.side = .buy
  closing : t.side = .sell → t.quantity = traded .buy (sinceSale before)
  spent : t.side = .buy → balance initial (before ++ [t]) < t.price

structure Ledger (initial : ℝ) (p : Portfolio ℝ) : Prop where
  cash_nonneg : 0 ≤ p.cash
  units_whole : ∃ n : ℕ, p.units = n
  cash_eq : p.cash = balance initial p.trades
  units_eq : p.units = position p.trades
  held : p.units = traded .buy (sinceSale p.trades)
  entries : ∀ before t after, p.trades = before ++ t :: after → Entry initial before t

section Log

variable {initial : ℝ} {log : List (Trade ℝ)} {t : Trade ℝ}

theorem balance_append_buy (h : t.side = .buy) :
    balance initial (log ++ [t]) = balance initial log - t.quantity * t.price := by
  simp [balance, turnover, h]
  ring

theorem balance_append_sell (h : t.side = .sell) :
    balance initial (log ++ [t]) = balance initial log + t.quantity * t.price := by
  simp [balance, turnover, h]
  ring

theorem position_append_buy (h : t.side = .buy) :
    position (log ++ [t]) = position log + t.quantity := by
  simp [position, traded, h]
  ring

theorem position_append_sell (h : t.side = .sell) :
    position (log ++ [t]) = position log - t.quantity := by
  simp [position, traded, h]
  ring

theorem sinceSale_append_buy (h : t.side = .buy) : sinceSale (log ++ [t]) = sinceSale log ++ [t] :=
  List.rtakeWhile_concat_pos _ _ _ (by simpa using h)

theorem sinceSale_append_sell (h : t.side = .sell) : sinceSale (log ++ [t]) = [] :=
  List.rtakeWhile_concat_neg _ _ _ (by simp [h])

theorem traded_buy_append (h : t.side = .buy) :
    traded .buy (log ++ [t]) = traded .buy log + t.quantity := by
  simp [traded, h]

theorem eq_append_singleton_cases {before after : List (Trade ℝ)} {u : Trade ℝ}
    (h : log ++ [t] = before ++ u :: after) :
    (before = log ∧ u = t) ∨ ∃ after', log = before ++ u :: after' := by
  rcases List.eq_nil_or_concat' after with rfl | ⟨after', last, rfl⟩
  · obtain ⟨rfl, hlast⟩ := List.append_inj' h rfl
    exact Or.inl ⟨rfl, (List.singleton_inj.mp hlast).symm⟩
  · rw [← List.cons_append, ← List.append_assoc] at h
    exact Or.inr ⟨after', (List.append_inj' h rfl).1⟩

end Log

section Step

variable {initial : ℝ} {p : Portfolio ℝ} {a : Advice ℝ} {t : Trade ℝ}

/-- As many whole units as the cash affords leave less than the price of one more. -/
theorem affordable_bounds {cash price : ℝ} (h : 0 < price) :
    0 ≤ cash - ⌊cash / price⌋ * price ∧ cash - ⌊cash / price⌋ * price < price := by
  have hlow : ⌊cash / price⌋ * price ≤ cash := (le_div_iff₀ h).mp (Int.floor_le _)
  have hhigh : cash < (⌊cash / price⌋ + 1) * price := (div_lt_iff₀ h).mp (Int.lt_floor_add_one _)
  constructor <;> linarith

theorem Fits.price_pos (h : p.Fits a t) : 0 < t.price := by
  have hprice := h.tradable
  simp only [Portfolio.tradable, Bool.and_eq_true, decide_eq_true_eq] at hprice
  rw [h.price]
  exact hprice.2

theorem Fits.buy_quantity (h : p.Fits a t) (hside : t.side = .buy) :
    t.quantity = ⌊p.cash / t.price⌋ := by
  rw [(h.buys hside).1, h.price]
  rfl

theorem Ledger.units_eq_zero (h : Ledger initial p) (hnone : sinceSale p.trades = []) :
    p.units = 0 := by
  rw [h.held, hnone]
  rfl

theorem Ledger.quantity_whole (h : Ledger initial p) (ht : p.Fits a t) :
    ∃ n : ℕ, 1 ≤ n ∧ t.quantity = n := by
  cases hside : t.side with
  | buy =>
    have hone : (1 : ℝ) ≤ ⌊p.cash / t.price⌋ := by
      rw [← ht.buy_quantity hside]
      exact not_lt.mp (ht.buys hside).2
    have hone' : 1 ≤ ⌊p.cash / t.price⌋ := by exact_mod_cast hone
    obtain ⟨n, hn⟩ := Int.eq_ofNat_of_zero_le (zero_le_one.trans hone')
    rw [hn] at hone'
    refine ⟨n, by omega, ?_⟩
    rw [ht.buy_quantity hside, hn]
    rfl
  | sell =>
    obtain ⟨hquantity, hpos⟩ := ht.sells hside
    obtain ⟨n, hn⟩ := h.units_whole
    rw [hn] at hquantity hpos
    have hpos' : (0 : ℝ) < n := not_le.mp hpos
    exact ⟨n, by exact_mod_cast hpos', hquantity⟩

theorem Ledger.side_eq_buy (h : Ledger initial p) (ht : p.Fits a t)
    (hnone : sinceSale p.trades = []) : t.side = .buy := by
  cases hside : t.side with
  | buy => rfl
  | sell => exact absurd (h.units_eq_zero hnone).le (ht.sells hside).2

theorem Ledger.entry (h : Ledger initial p) (ht : p.Fits a t) : Entry initial p.trades t := by
  refine ⟨h.quantity_whole ht, ?_, ?_, ?_, ?_⟩
  · intro hempty
    exact h.side_eq_buy ht (by rw [hempty]; rfl)
  · intro u hlast hu
    obtain ⟨log, hlog⟩ := List.getLast?_eq_some_iff.mp hlast
    exact h.side_eq_buy ht (by rw [hlog, sinceSale_append_sell hu])
  · intro hside
    rw [(ht.sells hside).1, h.held]
  · intro hside
    rw [balance_append_buy hside, ← h.cash_eq, ht.buy_quantity hside]
    exact (affordable_bounds ht.price_pos).2

theorem Ledger.entries_book (h : Ledger initial p) (ht : p.Fits a t) (before : List (Trade ℝ))
    (u : Trade ℝ) (after : List (Trade ℝ)) (hsplit : (p.book t).trades = before ++ u :: after) :
    Entry initial before u := by
  rw [book_trades] at hsplit
  rcases eq_append_singleton_cases hsplit with ⟨rfl, rfl⟩ | ⟨after', hlog⟩
  · exact h.entry ht
  · exact h.entries before u after' hlog

theorem Ledger.book_buy (h : Ledger initial p) (ht : p.Fits a t) (hside : t.side = .buy) :
    Ledger initial (p.book t) := by
  obtain ⟨m, hm⟩ := h.units_whole
  obtain ⟨n, _, hquantity⟩ := h.quantity_whole ht
  have hentries := h.entries_book ht
  rw [Portfolio.book_buy p hside] at hentries ⊢
  refine ⟨?_, ⟨m + n, ?_⟩, ?_, ?_, ?_, hentries⟩ <;> dsimp only
  · rw [ht.buy_quantity hside]
    exact (affordable_bounds ht.price_pos).1
  · rw [hm, hquantity, Nat.cast_add]
  · rw [balance_append_buy hside, h.cash_eq]
  · rw [position_append_buy hside, h.units_eq]
  · rw [sinceSale_append_buy hside, traded_buy_append hside, h.held]

theorem Ledger.book_sell (h : Ledger initial p) (ht : p.Fits a t) (hside : t.side = .sell) :
    Ledger initial (p.book t) := by
  obtain ⟨n, _, hquantity⟩ := h.quantity_whole ht
  have hgain : 0 ≤ t.quantity * t.price := by
    rw [hquantity]
    exact mul_nonneg n.cast_nonneg ht.price_pos.le
  have hentries := h.entries_book ht
  rw [Portfolio.book_sell p hside] at hentries ⊢
  refine ⟨?_, ⟨0, Nat.cast_zero.symm⟩, ?_, ?_, ?_, hentries⟩ <;> dsimp only
  · linarith [h.cash_nonneg]
  · rw [balance_append_sell hside, h.cash_eq]
  · rw [position_append_sell hside, ← h.units_eq, (ht.sells hside).1, sub_self]
  · rw [sinceSale_append_sell hside]
    rfl

/-- A trade on fitting terms keeps the ledger. -/
theorem Ledger.book (h : Ledger initial p) (ht : p.Fits a t) : Ledger initial (p.book t) := by
  cases hside : t.side with
  | buy => exact h.book_buy ht hside
  | sell => exact h.book_sell ht hside

theorem Ledger.act (h : Ledger initial p) (a : Advice ℝ) : Ledger initial (p.act a) := by
  rcases p.act_cases a with ⟨_, hact, _⟩ | ⟨t, _, hact, ht⟩
  · rw [hact]
    exact h
  · rw [hact]
    exact h.book ht

end Step

theorem ledger_ofCash {initial : ℝ} (h : 0 ≤ initial) : Ledger initial (ofCash initial) where
  cash_nonneg := h
  units_whole := ⟨0, Nat.cast_zero.symm⟩
  cash_eq := by simp [ofCash, balance, turnover]
  units_eq := by simp [ofCash, position, traded]
  held := rfl
  entries := by simp [ofCash]

theorem Ledger.follow {initial : ℝ} {p : Portfolio ℝ} (h : Ledger initial p)
    (calls : List (Advice ℝ)) : Ledger initial (p.follow calls) := by
  induction calls generalizing p with
  | nil => exact h
  | cons a calls ih => exact ih (h.act a)

/-- Trading at a price does not change what the portfolio is worth at it. -/
theorem equity_act (p : Portfolio ℝ) (a : Advice ℝ) :
    (p.act a).equity a.price = p.equity a.price := by
  rcases p.act_cases a with ⟨_, hact, _⟩ | ⟨t, _, hact, ht⟩
  · rw [hact]
  · rw [hact]
    cases hside : t.side with
    | buy =>
      simp only [Portfolio.book_buy p hside, equity, ht.price]
      ring
    | sell =>
      simp only [Portfolio.book_sell p hside, equity, ht.price, (ht.sells hside).1]
      ring

/-- All calls keep the ledger; a single call logs at most one trade, does not change the worth at
its own price and changes nothing at all without a trade; and the final capital of a replay is that
of its log, with the open position at the last close. -/
theorem ledger_accounts {initial : ℝ} (h : 0 ≤ initial) :
    (∀ calls : List (Advice ℝ), Ledger initial ((ofCash initial).follow calls)) ∧
      (∀ (p : Portfolio ℝ) (a : Advice ℝ),
        (p.act a).trades = p.trades ++ (p.deal a).toList ∧
          (p.act a).equity a.price = p.equity a.price ∧ (p.deal a = none → p.act a = p)) ∧
      ∀ (r : Replay ℝ) (s : Series ℝ) (warmup : ℕ) (report : Report ℝ),
        r.run s initial warmup = .ok report →
          report.finalCapital = balance initial report.trades +
            position report.trades * (s.last?.map Bar.close).getD 0 := by
  refine ⟨fun calls => (ledger_ofCash h).follow calls, fun p a => ⟨p.act_trades a, p.equity_act a,
    fun hnone => (act_of_deal_eq_none hnone).1⟩, ?_⟩
  intro r s warmup report hrun
  obtain ⟨_, stops, _, rfl⟩ := Replay.run_eq_ok_iff.mp hrun
  have hledger := (ledger_ofCash h).follow (stops.map Replay.Stop.advice)
  change Ledger initial (Replay.arrive initial stops).portfolio at hledger
  change _ = balance initial (Replay.arrive initial stops).portfolio.trades +
    position (Replay.arrive initial stops).portfolio.trades * _
  rw [← hledger.cash_eq, ← hledger.units_eq]
  rfl

theorem ledger_accounts_falling :
    ∃ p : Portfolio ℝ, p = (ofCash 1000).follow
        [⟨.buy, 300, .epoch, 1⟩, ⟨.strongBuy, 70, .epoch, 1⟩, ⟨.sell, 120, .epoch, -1⟩] ∧
      (0 : ℝ) ≤ 1000 ∧ Ledger 1000 p ∧ p.cash = 510 := by
  refine ⟨_, rfl, by norm_num, (ledger_accounts (by norm_num)).1 _, ?_⟩
  norm_num [follow, act, apply, ofCash, tradable, affordable, Scalar.isFinite, Scalar.floor]

end Portfolio

end MarketVerdict
