import PhasedGrid.Command.Report
import PhasedGrid.Node.System

/-!
What runs until it is interrupted: a node that is asked for snapshots at even intervals, and a
scheduler whose phases are shown.
-/

namespace PhasedGrid.Command

set_option autoImplicit false

open PhasedGrid.Node (Results System)
open PhasedGrid.Schedule (Loop PhaseChange)
open PhasedGrid.Snapshot (Collected)

/-- What a session has to show. -/
inductive Sight where
  | phase (c : PhaseChange)
  | state (c : Collected)

/-- A running node. Snapshots for a module are requested every `period` milliseconds if there is
one, the next time at `due`; `seen` phase changes have been shown or were too early. -/
structure Session where
  system : System
  name : String
  results : Results
  period : Option Nat
  due : Nat
  showPhases : Bool
  seen : Nat

namespace Session

/-- Starts a node under a name. Phase changes on the way are not shown. -/
def start (s : Config.Settings) (name : String) (clock : Clock) (showPhases : Bool)
    (snapshotEvery : Option Nat) (module : String) : Except TimeFault (Except TaskError Session) := do
  let clock ← clock.skewed s.schedule.skew
  match ← ({ clock } : System).start s name with
  | (.error _, _) => return .error (.notStarted "broker node")
  | (.ok _, system) =>
    let (results, system) := system.subscribe name module
    return .ok {
      system, name, results, showPhases
      period := (snapshotEvery.filter (· ≠ 0)).map (· * 1000)
      due := 0
      seen := ((system.node? name).map fun n => n.changes.size).getD 0 }

/-- The time of the next event or request, if there is one. -/
def next? (s : Session) : Option Nat :=
  ((s.period.map fun _ => s.due).toList ++ s.system.nextEvent?.toList).min?

/-- The collected states that wait, up to a number of them. -/
def states (s : System) (results : Results) : Nat → List Collected × System
  | 0 => ([], s)
  | limit + 1 =>
    match s.read? results with
    | (some (.state c), s) =>
      let (rest, s) := states s results limit
      (c :: rest, s)
    | (_, s) => ([], s)

/-- Sends the request that is due, lets everything happen, and takes what there is to show. -/
def settle (s : Session) : Session × List Sight :=
  let isDue := s.period.isSome && s.due ≤ s.system.time
  let system := if isDue then (s.system.request s.name s.results.module).2 else s.system
  let due := if isDue then s.due + s.period.getD 0 else s.due
  let system := system.settle
  let changes := ((system.node? s.name).map Node.changes).getD #[]
  let phases := if s.showPhases then (changes.toList.drop s.seen).map Sight.phase else []
  let waiting := (system.network.waiting s.results.subscription).length
  let (found, system) := states system s.results waiting
  ({ s with system, due, seen := changes.size }, phases ++ found.map Sight.state)

def runFrom (now target : Nat) (s : Session) (sights : Array Sight) : Session × Array Sight :=
  match s.next? with
  | none => (s, sights)
  | some next =>
    if _later : now < next ∧ next ≤ target then
      let (s, more) := { s with system := s.system.moveTo next }.settle
      runFrom next target s (sights ++ more.toArray)
    else (s, sights)
termination_by target - now

/-- Everything there is to show up to a time, that time included. -/
def runUntil (s : Session) (target : Nat) : Session × List Sight :=
  let (s, first) := s.settle
  let (s, sights) := runFrom s.system.time target s first.toArray
  (s, sights.toList)

/-- What shutting down the node amounts to. -/
def finish (s : Session) : Except TaskError Unit :=
  match s.system.node? s.name with
  | some n => n.verdict.mapError .node
  | none => .ok ()

def sightLine (json : Bool) : Sight → String
  | .phase c => changeLine c
  | .state c => collectedLine json c

def startLine (s : Session) : String := "Started node " ++ s.name

def stopLines : List String := ["", "Shutting down node..."]

end Session

/-- A scheduler with the configured modules on a clock without the configured skew. -/
def watch (s : Config.ScheduleSettings) (clock : Clock) : Except TimeFault (Loop Empty) := do
  let clock ← clock.skewed s.skew
  let loop ← Loop.start clock (.ofMillis s.alignment) 0
  return s.modules.foldl (fun l m => l.issue (.register m.id (.ofMillis m.phase))) loop

/-- The phase changes of this instant. -/
def changesNow (loop : Loop Empty) : Except Schedule.RunFault (Loop Empty × List PhaseChange) := do
  let (loop, log) ← loop.settle #[]
  return (loop, log.toList.filterMap fun
    | .changed c => some c
    | _ => none)

/-- The first phase changes. Each event of a scheduler without timers is a change, so the number
of events is bounded by what is wanted. -/
def firstChanges (loop : Loop Empty) : (wanted : Nat) → Except Schedule.RunFault (List PhaseChange)
  | 0 => .ok []
  | wanted + 1 => do
    let (loop, now) ← changesNow loop
    match loop.nextEvent? with
    | none => return now
    | some time => return now ++ (← firstChanges { loop with time } wanted)

end PhasedGrid.Command
