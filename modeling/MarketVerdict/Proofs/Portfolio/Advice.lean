import MarketVerdict.Portfolio
import Mathlib.Data.List.ReduceOption

/-!
# Portfolios that follow advice

Advice is what a portfolio is told at one bar: a recommendation, a price, a time and a score. It
either passes, and then nothing changes, or leads to one trade that is booked and put at the end of
the log. `act_cases` says exactly when each happens; every statement about longer runs rests on it.
-/

namespace MarketVerdict

open Scalar

variable {α : Type}

structure Advice (α : Type) where
  recommendation : Recommendation
  price : α
  time : Instant
  score : α

/-- The side on which a recommendation trades. -/
def Recommendation.side? : Recommendation → Option Side
  | strongSell | sell => some .sell
  | hold => none
  | buy | strongBuy => some .buy

theorem Recommendation.side?_eq_buy_iff {r : Recommendation} :
    r.side? = some .buy ↔ r = .buy ∨ r = .strongBuy := by
  cases r <;> simp [side?]

theorem Recommendation.side?_eq_sell_iff {r : Recommendation} :
    r.side? = some .sell ↔ r = .sell ∨ r = .strongSell := by
  cases r <;> simp [side?]

theorem Recommendation.side?_eq_none_iff {r : Recommendation} : r.side? = none ↔ r = .hold := by
  cases r <;> simp [side?]

namespace Portfolio

variable [Scalar α]

def deal (p : Portfolio α) (a : Advice α) : Option (Trade α) :=
  (p.apply a.recommendation a.price a.time a.score).2

def act (p : Portfolio α) (a : Advice α) : Portfolio α :=
  (p.apply a.recommendation a.price a.time a.score).1

def follow (p : Portfolio α) (advice : List (Advice α)) : Portfolio α := advice.foldl act p

/-- What each piece of advice leads to. -/
def deals (p : Portfolio α) : List (Advice α) → List (Option (Trade α))
  | [] => []
  | a :: advice => p.deal a :: (p.act a).deals advice

/-- The portfolio with a trade carried out and logged. -/
def book (p : Portfolio α) (t : Trade α) : Portfolio α :=
  match t.side with
  | .buy => ⟨p.cash - t.quantity * t.price, p.units + t.quantity, p.trades ++ [t]⟩
  | .sell => ⟨p.cash + t.quantity * t.price, 0, p.trades ++ [t]⟩

/-- Why advice leads to no trade. -/
def Passes (p : Portfolio α) (a : Advice α) : Prop :=
  tradable a.price = false ∨ a.recommendation.side? = none ∨
    (a.recommendation.side? = some .buy ∧ p.affordable a.price < 1) ∨
    (a.recommendation.side? = some .sell ∧ p.units ≤ 0)

/-- The terms of a trade on advice. -/
structure Fits (p : Portfolio α) (a : Advice α) (t : Trade α) : Prop where
  tradable : tradable a.price = true
  time : t.time = a.time
  price : t.price = a.price
  score : t.score = a.score
  side : a.recommendation.side? = some t.side
  buys : t.side = .buy → t.quantity = p.affordable a.price ∧ ¬ t.quantity < 1
  sells : t.side = .sell → t.quantity = p.units ∧ ¬ p.units ≤ 0

theorem apply_of_not_tradable (p : Portfolio α) (a : Advice α) (h : tradable a.price = false) :
    p.apply a.recommendation a.price a.time a.score = (p, none) := by
  simp [apply, h]

theorem apply_of_hold (p : Portfolio α) (a : Advice α) (h : a.recommendation.side? = none) :
    p.apply a.recommendation a.price a.time a.score = (p, none) := by
  cases hr : a.recommendation <;> rw [hr] at h <;> cases h
  exact apply_hold p a.price a.time a.score

theorem apply_of_buy (p : Portfolio α) (a : Advice α) (h : tradable a.price = true)
    (hs : a.recommendation.side? = some .buy) :
    p.apply a.recommendation a.price a.time a.score =
      if p.affordable a.price < 1 then (p, none)
      else (p.book ⟨a.time, .buy, a.price, p.affordable a.price, a.score⟩,
        some ⟨a.time, .buy, a.price, p.affordable a.price, a.score⟩) := by
  cases hr : a.recommendation <;> rw [hr] at hs <;> cases hs <;> simp only [apply, h] <;> rfl

theorem apply_of_sell (p : Portfolio α) (a : Advice α) (h : tradable a.price = true)
    (hs : a.recommendation.side? = some .sell) :
    p.apply a.recommendation a.price a.time a.score =
      if p.units ≤ 0 then (p, none)
      else (p.book ⟨a.time, .sell, a.price, p.units, a.score⟩,
        some ⟨a.time, .sell, a.price, p.units, a.score⟩) := by
  cases hr : a.recommendation <;> rw [hr] at hs <;> cases hs <;> simp only [apply, h] <;> rfl

/-- Advice passes and leaves all as it was, or it leads to a trade on its terms. -/
theorem act_cases (p : Portfolio α) (a : Advice α) :
    (p.deal a = none ∧ p.act a = p ∧ p.Passes a) ∨
      ∃ t, p.deal a = some t ∧ p.act a = p.book t ∧ p.Fits a t := by
  unfold deal act
  by_cases hprice : tradable a.price = true
  · cases hs : a.recommendation.side? with
    | none =>
      rw [p.apply_of_hold a hs]
      exact Or.inl ⟨rfl, rfl, Or.inr (Or.inl hs)⟩
    | some side =>
      cases side with
      | buy =>
        rw [p.apply_of_buy a hprice hs]
        by_cases hq : p.affordable a.price < 1
        · rw [if_pos hq]
          exact Or.inl ⟨rfl, rfl, Or.inr (Or.inr (Or.inl ⟨hs, hq⟩))⟩
        · rw [if_neg hq]
          exact Or.inr ⟨_, rfl, rfl, ⟨hprice, rfl, rfl, rfl, hs, fun _ => ⟨rfl, hq⟩, nofun⟩⟩
      | sell =>
        rw [p.apply_of_sell a hprice hs]
        by_cases hu : p.units ≤ 0
        · rw [if_pos hu]
          exact Or.inl ⟨rfl, rfl, Or.inr (Or.inr (Or.inr ⟨hs, hu⟩))⟩
        · rw [if_neg hu]
          exact Or.inr ⟨_, rfl, rfl, ⟨hprice, rfl, rfl, rfl, hs, nofun, fun _ => ⟨rfl, hu⟩⟩⟩
  · rw [Bool.not_eq_true] at hprice
    rw [p.apply_of_not_tradable a hprice]
    exact Or.inl ⟨rfl, rfl, Or.inl hprice⟩

theorem act_of_deal_eq_none {p : Portfolio α} {a : Advice α} (h : p.deal a = none) :
    p.act a = p ∧ p.Passes a := by
  rcases p.act_cases a with ⟨_, hact⟩ | ⟨t, ht, _⟩
  · exact hact
  · rw [h] at ht
    cases ht

theorem act_of_deal_eq_some {p : Portfolio α} {a : Advice α} {t : Trade α}
    (h : p.deal a = some t) : p.act a = p.book t ∧ p.Fits a t := by
  rcases p.act_cases a with ⟨hnone, _⟩ | ⟨u, hu, hact⟩
  · rw [h] at hnone
    cases hnone
  · rw [h] at hu
    cases hu
    exact hact

theorem book_buy (p : Portfolio α) {t : Trade α} (h : t.side = .buy) :
    p.book t = ⟨p.cash - t.quantity * t.price, p.units + t.quantity, p.trades ++ [t]⟩ := by
  rw [book, h]

theorem book_sell (p : Portfolio α) {t : Trade α} (h : t.side = .sell) :
    p.book t = ⟨p.cash + t.quantity * t.price, 0, p.trades ++ [t]⟩ := by
  rw [book, h]

@[simp] theorem book_trades (p : Portfolio α) (t : Trade α) :
    (p.book t).trades = p.trades ++ [t] := by
  cases h : t.side with
  | buy => rw [book_buy p h]
  | sell => rw [book_sell p h]

@[simp] theorem follow_nil (p : Portfolio α) : p.follow [] = p := rfl

@[simp] theorem follow_cons (p : Portfolio α) (a : Advice α) (advice : List (Advice α)) :
    p.follow (a :: advice) = (p.act a).follow advice := rfl

theorem follow_append (p : Portfolio α) (advice advice' : List (Advice α)) :
    p.follow (advice ++ advice') = (p.follow advice).follow advice' := List.foldl_append

theorem act_trades (p : Portfolio α) (a : Advice α) :
    (p.act a).trades = p.trades ++ (p.deal a).toList := by
  cases h : p.deal a with
  | none => simp [(act_of_deal_eq_none h).1]
  | some t => simp [(act_of_deal_eq_some h).1]

/-- The log grows by what the advice leads to. -/
theorem follow_trades (p : Portfolio α) (advice : List (Advice α)) :
    (p.follow advice).trades = p.trades ++ (p.deals advice).reduceOption := by
  induction advice generalizing p with
  | nil => simp [deals]
  | cons a advice ih =>
    rw [follow_cons, ih, act_trades, List.append_assoc]
    congr 1
    cases h : p.deal a <;> simp [deals, h]

theorem length_deals (p : Portfolio α) (advice : List (Advice α)) :
    (p.deals advice).length = advice.length := by
  induction advice generalizing p with
  | nil => rfl
  | cons a advice ih => simp [deals, ih]

/-- What a piece of advice leads to depends on those before it only. -/
theorem getElem?_deals (p : Portfolio α) (advice : List (Advice α)) (i : ℕ) :
    (p.deals advice)[i]? = advice[i]?.map (p.follow (advice.take i)).deal := by
  induction advice generalizing p i with
  | nil => simp [deals]
  | cons a advice ih =>
    cases i with
    | zero => simp [deals]
    | succ i => simp [deals, ih]

theorem time_of_mem_deals {p : Portfolio α} {advice : List (Advice α)} {t : Trade α}
    (h : some t ∈ p.deals advice) : ∃ a ∈ advice, t.time = a.time := by
  obtain ⟨i, hi⟩ := List.mem_iff_getElem?.mp h
  rw [getElem?_deals, Option.map_eq_some_iff] at hi
  obtain ⟨a, ha, hdeal⟩ := hi
  exact ⟨a, List.mem_of_getElem? ha, (act_of_deal_eq_some hdeal).2.time⟩

end Portfolio

end MarketVerdict
