import PhasedGrid.Command.Forecast
import PhasedGrid.Command.Invocation
import PhasedGrid.Command.LogFilter
import PhasedGrid.Command.Session
import PhasedGrid.Command.Simulation
import PhasedGrid.Config.Storage
import PhasedGrid.Release.Stamp

/-!
The program as a whole: what a command line does to the files around it and what it prints.
-/

namespace PhasedGrid.Command

set_option autoImplicit false

/-- What the program finds: files below a working folder, the environment, and a clock. New nodes
without a configured name are called `freshName`. -/
structure Surroundings where
  files : Files
  working : String
  environment : List (String × String)
  clock : Clock
  revision : String
  freshName : String

namespace Surroundings

def value? (s : Surroundings) (name : String) : Option String :=
  (s.environment.find? fun v => v.1 = name).map Prod.snd

/-- The paths where a configuration is looked for if none is given. -/
def candidates (s : Surroundings) : List String :=
  Config.candidates s.working (s.value? "HOME") (s.value? "XDG_CONFIG_HOME")

end Surroundings

/-- What is left of a run: the lines on standard output, and why it failed if it did. -/
structure Outcome where
  lines : List String
  failure : Option TaskError := none
  files : Files

/-- How the program goes on: it is finished, or it has printed lines and shows more as time goes by. -/
inductive Course where
  | usage (e : UsageError)
  | finished (o : Outcome)
  | session (lines : List String) (s : Session) (json : Bool)
  | phases (lines : List String) (loop : Schedule.Loop Empty) (count : Nat)

/-- The source of the log lines about configuration files. -/
def configSource : String := "dgi_core::config::manager"

/-- The path that a configuration is read from. -/
def configPath? (s : Surroundings) (given : Option String) : Option String :=
  given.or (s.candidates.find? s.files.isThere)

/-- Loads the configuration; the reading is logged. -/
def loadSettings (s : Surroundings) (filter : List Directive) (given : Option String) :
    List String × Except TaskError Config.Settings :=
  let path := configPath? s given
  let log := match path with
    | some p =>
      if s.files.isThere p then
        (logLine? filter .debug configSource ("Reading configuration file path=" ++ p)).toList
      else []
    | none => []
  (log, (Config.loadFile s.files path s.environment).mapError fun _ => .notLoaded)

/-- Writes the default configuration to a path; the writing is logged. -/
def initConfig (files : Files) (filter : List Directive) (path : Option String) (force : Bool) :
    Outcome :=
  let path := path.getD Config.fileName
  if files.isThere path ∧ !force then { lines := [], failure := some (.inTheWay path), files }
  else
    match Config.save {} files path with
    | .error _ => { lines := [], failure := some (.notWritten path), files }
    | .ok files =>
      { lines := (logLine? filter .info configSource ("Saved configuration path=" ++ path)).toList
          ++ ["Wrote default configuration to " ++ path]
        files }

/-- The outcome of a task that prints all its lines at once. -/
def printed (files : Files) (log : List String) : Except TaskError (List String) → Outcome
  | .ok lines => { lines := log ++ lines, files }
  | .error e => { lines := log, failure := some e, files }

/-- Carries out a task with loaded settings. -/
def perform (s : Surroundings) (log : List String) (settings : Config.Settings) (task : Task) :
    Except TimeFault Course :=
  match task with
  | .run showPhases every module json => do
    let name := (settings.name?).getD s.freshName
    match ← Session.start settings name s.clock showPhases every module with
    | .error e => return .finished (printed s.files log (.error e))
    | .ok session => return .session (log ++ [session.startLine]) session json
  | .simulate nodes count basePower timeout json =>
    (simulate settings s.clock nodes count basePower timeout json).map fun r =>
      .finished (printed s.files log r)
  | .phases count (some start) =>
    (forecast settings.schedule start count).map fun r => .finished (printed s.files log r)
  | .phases count none =>
    (watch settings.schedule s.clock).map fun loop => .phases log loop count
  | .initConfig _ _ => .ok (.finished { lines := log, files := s.files })

/-- Runs the program on a command line. -/
def run (s : Surroundings) (words : List String) : Except TimeFault Course :=
  match Invocation.read words with
  | .error e => .ok (.usage e)
  | .ok i =>
    if i.version then
      .ok (.finished { lines := [Release.versionLine s.revision], files := s.files })
    else
      let filter := chosenFilter (s.value? "RUST_LOG") i.logLevel
      match i.task.getD defaultTask with
      | .initConfig path force => .ok (.finished (initConfig s.files filter path force))
      | task =>
        match loadSettings s filter i.config with
        | (log, .error e) => .ok (.finished (printed s.files log (.error e)))
        | (log, .ok settings) => perform s log settings task

/-- The exit codes of a wrong command line, of a failure, and of success. -/
def Course.code : Course → Nat
  | .usage .helpWanted => 0
  | .usage _ => 2
  | .finished o => if o.failure.isSome then 1 else 0
  | _ => 0

end PhasedGrid.Command
