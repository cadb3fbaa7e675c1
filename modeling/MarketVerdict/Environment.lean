import MarketVerdict.Text.Number

/-!
# Settings of the process

Settings come from environment variables. A number that cannot be read, or a limit of zero, counts as
not given.
-/

namespace MarketVerdict

open Text

structure ProcessSettings where
  port : Nat
  configPath : Option String
  marketDataPath : Option String
  historyLimit : Nat
  requestTimeout : Nat
  backtestHistoryLimit : Nat
  backtestTimeout : Nat

namespace ProcessSettings

def standard : ProcessSettings where
  port := 8080
  configPath := none
  marketDataPath := none
  historyLimit := 250
  requestTimeout := 5000
  backtestHistoryLimit := 1000
  backtestTimeout := 30000

/-- The largest number that a limit or a time can be. -/
def sizeBound : Nat := 18446744073709551615

def number? (bound : Nat) (value : Option String) : Option Nat :=
  value.bind fun v => readNat? bound (trim v)

def positive? (value : Option String) : Option Nat :=
  (number? sizeBound value).filter fun n => decide (0 < n)

def path? (value : Option String) : Option String := value.filter fun v => !isBlankText v

/-- The settings that the variables give. -/
def ofVariables (get : String → Option String) : ProcessSettings where
  port := (number? 65535 (get "PORT")).getD standard.port
  configPath := path? (get "FUSETRIX_CONFIG")
  marketDataPath := path? (get "FUSETRIX_MARKET_DATA")
  historyLimit := (positive? (get "FUSETRIX_HISTORY_LIMIT")).getD standard.historyLimit
  requestTimeout := (positive? (get "FUSETRIX_REQUEST_TIMEOUT_MS")).getD standard.requestTimeout
  backtestHistoryLimit :=
    (positive? (get "FUSETRIX_BACKTEST_HISTORY_LIMIT")).getD standard.backtestHistoryLimit
  backtestTimeout := (positive? (get "FUSETRIX_BACKTEST_TIMEOUT_MS")).getD standard.backtestTimeout

end ProcessSettings

/-- The name of the deployment. -/
def deployment (get : String → Option String) : String := (get "ENVIRONMENT").getD "sandbox"

def isProduction (name : String) : Bool :=
  lowerLetters name == "production" || lowerLetters name == "prod"

end MarketVerdict
