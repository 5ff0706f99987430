import PhasedGrid.Command.Options

/-!
The command line of the program.
-/

namespace PhasedGrid.Command

set_option autoImplicit false

/-- What the program is asked to do. -/
inductive Task where
  | run (showPhases : Bool) (snapshotEvery : Option Nat) (module : String) (json : Bool)
  | simulate (nodes rounds : Nat) (basePower : Float) (timeout : Option Nat) (json : Bool)
  | phases (count : Nat) (start : Option String)
  | initConfig (path : Option String) (force : Bool)
  deriving DecidableEq, Repr

structure Invocation where
  task : Option Task := none
  config : Option String := none
  logLevel : String := "info"
  version : Bool := false
  deriving DecidableEq, Repr

/-- Without a task, a node runs with these choices. -/
def defaultTask : Task := .run false none "gm" false

/-- The options that stand in front of a subcommand or behind it. -/
def sharedRules : List OptionRule :=
  [⟨"config", some 'c', .path⟩, ⟨"log-level", none, .text⟩, ⟨"help", some 'h', .help⟩]

def topLevel : Level where
  rules := ⟨"version", none, .nothing⟩ :: sharedRules
  subcommands := ["run", "simulate", "phases", "init-config", helpWord]

/-- The options of a subcommand. -/
def rulesOf (name : String) : List OptionRule :=
  match name with
  | "run" =>
    [⟨"show-phases", none, .nothing⟩, ⟨"snapshot-every", none, .count⟩, ⟨"module", none, .text⟩,
      ⟨"json", none, .nothing⟩]
  | "simulate" =>
    [⟨"nodes", some 'n', .count⟩, ⟨"rounds", some 'r', .count⟩, ⟨"base-power", none, .number⟩,
      ⟨"timeout-ms", none, .count⟩, ⟨"json", none, .nothing⟩]
  | "phases" => [⟨"count", some 'n', .count⟩, ⟨"at", none, .text⟩]
  | _ => [⟨"path", some 'p', .path⟩, ⟨"force", some 'f', .nothing⟩]

def subLevel (name : String) : Level where
  rules := rulesOf name ++ sharedRules

/-- The task that a subcommand and its options stand for. -/
def taskOf (name : String) (g : Given) : Task :=
  match name with
  | "run" =>
    .run (g.has "show-phases") (g.count? "snapshot-every") ((g.get? "module").getD "gm") (g.has "json")
  | "simulate" =>
    .simulate ((g.count? "nodes").getD 3) ((g.count? "rounds").getD 1)
      ((g.number? "base-power").getD 1.0) (g.count? "timeout-ms") (g.has "json")
  | "phases" => .phases ((g.count? "count").getD 10) (g.get? "at")
  | _ => .initConfig (g.get? "path") (g.has "force")

/-- Reads a command line. The subcommand's words are read first, and where an option stands on both
levels the subcommand's counts. -/
def Invocation.read (words : List String) : Except UsageError Invocation := do
  let (top, rest) ← topLevel.read false {} words
  match rest with
  | none =>
    let top ← top.resolve
    return {
      config := top.get? "config"
      logLevel := (top.get? "log-level").getD "info"
      version := top.has "version" }
  | some (name, rest) =>
    let (sub, _) ← (subLevel name).read false {} rest
    let sub ← sub.resolve
    let top ← top.resolve
    return {
      task := some (taskOf name sub)
      config := (sub.get? "config").or (top.get? "config")
      logLevel := ((sub.get? "log-level").or (top.get? "log-level")).getD "info"
      version := top.has "version" }

end PhasedGrid.Command
