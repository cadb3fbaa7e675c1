import MarketVerdict.Service

/-!
# Starting the service

The configuration is read first, then the market data; then the configuration has to give a context
and default specifications.
-/

namespace MarketVerdict

inductive StartupError where
  | config (cause : ConfigError)
  | market (cause : MarketError)

/-- The desk of a configuration. -/
def Desk.ofConfig (config : Config) (provider : Provider Float) (settings : DeskSettings) :
    Except ConfigError Desk := do
  let context ← config.context.mapError .fusion
  let specs ← config.defaultSpecs
  return ⟨context, provider, specs, settings⟩

namespace Service

/-- The service of a configuration and a file of market data that may be given and may be missing. -/
def ofConfig (settings : DeskSettings) (config : Config) (data : Option (Option String)) :
    Except StartupError Service := do
  let store ← (Store.loadFile data).mapError .market
  let desk ← (Desk.ofConfig config Provider.technical settings).mapError .config
  return ofDesk desk (Source.ofStore store)

/-- The service of two files. -/
def ofFiles (settings : DeskSettings) (config data : Option (Option String)) :
    Except StartupError Service := do
  let config ← (Config.loadFile config).mapError .config
  ofConfig settings config data

end Service

end MarketVerdict
