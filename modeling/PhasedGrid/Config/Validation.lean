import PhasedGrid.Config.Settings

/-!
Which settings are admitted, and what is wrong with the others.
-/

namespace PhasedGrid.Config

set_option autoImplicit false

inductive InvalidSetting where
  | alignmentZero
  | moduleBlank
  | moduleRepeated (id : String)
  | timeoutZero
  | badSpec (spec : String)
  | signalEmpty
  | other (reason : String)
  deriving DecidableEq, Repr

def InvalidSetting.message : InvalidSetting → String
  | .alignmentZero => "scheduler.alignment_interval_ms must be greater than 0"
  | .moduleBlank => "scheduler.modules: module id must not be empty"
  | .moduleRepeated id => "scheduler.modules: duplicate module id " ++ id
  | .timeoutZero => "snapshot.response_timeout_ms must be greater than 0"
  | .badSpec spec => "devices.specs: expected name:type, got " ++ Text.quote spec
  | .signalEmpty => "devices.values: device and signal must not be empty"
  | .other reason => reason

/-- The first module that is blank or repeats one of `seen` or an earlier one. -/
def checkModules (seen : List String) : List ModuleSetting → Except InvalidSetting Unit
  | [] => .ok ()
  | m :: rest =>
    if Text.isBlankText m.id then .error .moduleBlank
    else if seen.contains m.id then .error (.moduleRepeated m.id)
    else checkModules (m.id :: seen) rest

/-- A specification is a name and a class with a colon between, neither of them empty. -/
def isSpec (spec : String) : Bool :=
  (Text.cut? ':' spec).any fun p => !p.1.isEmpty && !p.2.isEmpty

def checkSpecs (specs : List String) : Except InvalidSetting Unit :=
  match specs.find? fun s => !isSpec s with
  | some bad => .error (.badSpec bad)
  | none => .ok ()

def Settings.validate (s : Settings) : Except InvalidSetting Unit := do
  if s.schedule.alignment = 0 then throw .alignmentZero
  checkModules [] s.schedule.modules
  if s.snapshot.responseTimeout = 0 then throw .timeoutZero
  checkSpecs s.devices.specs
  if s.devices.values.any fun v => v.device.isEmpty || v.signal.isEmpty then throw .signalEmpty

/-- Why a configuration cannot be had. The texts of syntax errors come from elsewhere. -/
inductive ConfigError where
  | missingFile (path : String)
  | cannotWrite
  | badDocument
  | unwritable
  | badSource
  | invalid (setting : InvalidSetting)
  deriving DecidableEq, Repr

/-- The text of a failure; where it comes from elsewhere, only its start is known. -/
def ConfigError.message : ConfigError → String
  | .missingFile path => "IO error: config file " ++ path ++ " not found"
  | .cannotWrite => "IO error: "
  | .badDocument => "TOML parse error: "
  | .unwritable => "TOML serialize error: "
  | .badSource => "Config source error: "
  | .invalid setting => "Invalid configuration value: " ++ setting.message

/-- The settings, if they are admitted. -/
def Settings.admitted (s : Settings) : Except ConfigError Settings :=
  match s.validate with
  | .ok () => .ok s
  | .error e => .error (.invalid e)

end PhasedGrid.Config
