/-!
# Instants

An instant is a count of seconds since the start of 1970 and a part of a second. The part reaches
past one second only inside a leap second, which carries the count of the second before it. Instants
are ordered by the count, then by the part.
-/

namespace MarketVerdict

structure Instant where
  second : Int
  nano : Nat
  deriving DecidableEq

namespace Instant

def nanosPerSecond : Nat := 1000000000

instance : LT Instant where
  lt a b := a.second < b.second ∨ (a.second = b.second ∧ a.nano < b.nano)

instance (a b : Instant) : Decidable (a < b) :=
  inferInstanceAs (Decidable (a.second < b.second ∨ (a.second = b.second ∧ a.nano < b.nano)))

theorem lt_def {a b : Instant} :
    a < b ↔ a.second < b.second ∨ (a.second = b.second ∧ a.nano < b.nano) := Iff.rfl

theorem lt_irrefl (a : Instant) : ¬ a < a := by simp [lt_def]

theorem lt_trans {a b c : Instant} (h : a < b) (h' : b < c) : a < c := by
  simp only [lt_def] at *
  omega

theorem lt_asymm {a b : Instant} (h : a < b) : ¬ b < a := by
  simp only [lt_def] at *
  omega

def epoch : Instant := ⟨0, 0⟩

def ofMillis (ms : Int) : Instant := ⟨ms / 1000, (ms % 1000).toNat * 1000000⟩

def addSeconds (t : Instant) (s : Int) : Instant := { t with second := t.second + s }

def isLeap (t : Instant) : Bool := decide (nanosPerSecond ≤ t.nano)

/-- The second of the day, by the count. -/
def clock (t : Instant) : Int := t.second % 86400

/-- The leap seconds between two instants that the counts of their days leave out. -/
def leapBetween (earlier later : Instant) : Int :=
  if earlier.clock < later.clock then (if earlier.isLeap then 1 else 0)
  else if later.clock < earlier.clock then (if later.isLeap then -1 else 0)
  else 0

/-- The nanoseconds from `earlier` to `later`. -/
def since (later earlier : Instant) : Int :=
  (later.second - earlier.second + leapBetween earlier later) * nanosPerSecond
    + ((later.nano : Int) - earlier.nano)

/-- The whole seconds from `earlier` to `later`, a part of a second dropped. -/
def secondsSince (later earlier : Instant) : Int := (later.since earlier).tdiv nanosPerSecond

end Instant

end MarketVerdict
