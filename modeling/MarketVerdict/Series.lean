import MarketVerdict.Decimal.Layout
import MarketVerdict.Time.Instant

/-!
# Price series

A series holds the bars of one instrument, the oldest first, each strictly later than the one
before. `head` is the series as it stood some bars after its start, `tail` its most recent part.
-/

namespace MarketVerdict

structure Bar (α : Type) where
  time : Instant
  opening : α
  high : α
  low : α
  close : α
  volume : α

structure Series (α : Type) where
  instrument : String
  bars : List (Bar α)
  ordered : bars.Pairwise fun a b => a.time < b.time

inductive SeriesError where
  | notLater (instrument : String) (index : Nat)
  | gapTooWide (instrument : String) (index : Nat) (seconds : Int)
  deriving DecidableEq

def SeriesError.message : SeriesError → String
  | notLater instrument index =>
    "bar " ++ Decimal.natText index ++ " of '" ++ instrument ++ "' is not later than the previous bar"
  | gapTooWide instrument index seconds =>
    "gap of " ++ Decimal.intText seconds ++ "s before bar " ++ Decimal.natText index ++ " of '" ++
      instrument ++ "' exceeds tolerance"

namespace Series

variable {α : Type}

/-- The first element that stands in relation `p` to its predecessor, with its index and that
predecessor; `i` is the index of the second element of the list. -/
def firstStep? {β : Type} (p : β → β → Bool) (i : Nat) : List β → Option (Nat × β × β)
  | a :: b :: rest => if p a b then some (i, a, b) else firstStep? p (i + 1) (b :: rest)
  | _ => none

theorem pairwise_of_firstStep?_eq_none {bars : List (Bar α)} {i : Nat}
    (h : firstStep? (fun a b => decide (¬ a.time < b.time)) i bars = none) :
    bars.Pairwise fun a b => a.time < b.time := by
  induction bars generalizing i with
  | nil => exact List.Pairwise.nil
  | cons a rest ih =>
    cases rest with
    | nil => exact List.pairwise_singleton _ a
    | cons b rest =>
      simp only [firstStep?, decide_not, Bool.not_eq_eq_eq_not, Bool.not_true,
        decide_eq_false_iff_not] at h
      split at h
      · simp at h
      · next hab =>
        have hab : a.time < b.time := Decidable.not_not.mp hab
        have hrest := ih (i := i + 1) (by simpa using h)
        refine List.pairwise_cons.mpr ⟨?_, hrest⟩
        intro c hc
        rcases List.mem_cons.mp hc with rfl | hc
        · exact hab
        · exact Instant.lt_trans hab ((List.pairwise_cons.mp hrest).1 c hc)

/-- The series of these bars, if each is later than the one before. -/
def ofBars (instrument : String) (bars : List (Bar α)) : Except SeriesError (Series α) :=
  match h : firstStep? (fun a b => decide (¬ a.time < b.time)) 1 bars with
  | some (index, _) => .error (.notLater instrument index)
  | none => .ok ⟨instrument, bars, pairwise_of_firstStep?_eq_none h⟩

/-- A series in which no two neighbours lie further apart than `tolerance` nanoseconds. -/
def ofBarsWithin (tolerance : Int) (instrument : String) (bars : List (Bar α)) :
    Except SeriesError (Series α) := do
  let s ← ofBars instrument bars
  match firstStep? (fun a b => decide (tolerance < b.time.since a.time)) 1 bars with
  | some (index, a, b) => .error (.gapTooWide instrument index (b.time.secondsSince a.time))
  | none => .ok s

def length (s : Series α) : Nat := s.bars.length

def last? (s : Series α) : Option (Bar α) := s.bars.getLast?

/-- The first `n` bars. -/
def head (s : Series α) (n : Nat) : Series α :=
  ⟨s.instrument, s.bars.take n, s.ordered.sublist (List.take_sublist n s.bars)⟩

/-- The last `n` bars. -/
def tail (s : Series α) (n : Nat) : Series α :=
  ⟨s.instrument, s.bars.drop (s.length - n), s.ordered.sublist (List.drop_sublist _ s.bars)⟩

def closes (s : Series α) : List α := s.bars.map Bar.close

def highs (s : Series α) : List α := s.bars.map Bar.high

def lows (s : Series α) : List α := s.bars.map Bar.low

def volumes (s : Series α) : List α := s.bars.map Bar.volume

@[simp] theorem head_bars (s : Series α) (n : Nat) : (s.head n).bars = s.bars.take n := rfl

@[simp] theorem tail_bars (s : Series α) (n : Nat) :
    (s.tail n).bars = s.bars.drop (s.length - n) := rfl

@[simp] theorem head_instrument (s : Series α) (n : Nat) :
    (s.head n).instrument = s.instrument := rfl

@[simp] theorem tail_instrument (s : Series α) (n : Nat) :
    (s.tail n).instrument = s.instrument := rfl

theorem length_head (s : Series α) (n : Nat) : (s.head n).length = min n s.length := by
  simp [length]

theorem length_tail (s : Series α) (n : Nat) : (s.tail n).length = min n s.length := by
  simp only [length, tail_bars, List.length_drop]
  omega

theorem head_of_length_le {s : Series α} {n : Nat} (h : s.length ≤ n) : s.head n = s := by
  have hbars : s.bars.take n = s.bars := List.take_of_length_le h
  simp only [head, hbars]

theorem tail_of_length_le {s : Series α} {n : Nat} (h : s.length ≤ n) : s.tail n = s := by
  have hbars : s.bars.drop (s.length - n) = s.bars := by
    rw [Nat.sub_eq_zero_of_le h, List.drop_zero]
  simp only [tail, hbars]

end Series

end MarketVerdict
