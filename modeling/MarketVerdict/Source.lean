import MarketVerdict.Market

/-!
# Sources of market data

A source serves a store and may be down for some fetches. A fetch that failed for a passing reason is
tried again, a given number of times.
-/

namespace MarketVerdict

structure Source where
  store : Store
  /-- How many of the next fetches fail. -/
  outages : Nat
  /-- How they fail. -/
  outage : MarketError
  /-- How many fetches there were. -/
  fetches : Nat

namespace Source

def ofStore (store : Store) : Source := ⟨store, 0, .unavailable "", 0⟩

/-- The latest `limit` bars of an instrument. -/
def fetch (s : Source) (instrument : String) (limit : Nat) :
    Except MarketError (Series Float) × Source :=
  match s.outages with
  | 0 => (s.store.latest instrument limit, { s with fetches := s.fetches + 1 })
  | n + 1 => (.error s.outage, { s with outages := n, fetches := s.fetches + 1 })

/-- A fetch with as many further attempts as `retries` allows. -/
def fetchRetrying (retries : Nat) (s : Source) (instrument : String) (limit : Nat) :
    Except MarketError (Series Float) × Source :=
  match retries, s.fetch instrument limit with
  | _, (.ok series, s) => (.ok series, s)
  | 0, (.error e, s) => (.error e, s)
  | retries + 1, (.error e, s) =>
    if e.isTransient then fetchRetrying retries s instrument limit else (.error e, s)

end Source

end MarketVerdict
