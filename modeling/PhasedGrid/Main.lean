import PhasedGrid.Command.Program
import PhasedGrid.Node.FreshName
import Std.Time.DateTime.Timestamp

/-!
The program: it gathers the files, the environment and the time that a command line needs, and
prints and writes what comes of it.
-/

namespace PhasedGrid.Main

set_option autoImplicit false

open PhasedGrid.Command (Course Invocation Session Surroundings)

def usageLines : List String :=
  ["Usage: dgi-broker [OPTIONS] [COMMAND]", "",
    "Commands: run, simulate, phases, init-config, help", "",
    "Options: -c, --config <CONFIG>; --log-level <LOG_LEVEL>; --version; -h, --help"]

/-- The time of day and date. -/
def now : IO Moment := do
  let d := (← Std.Time.Timestamp.now).toDurationSinceUnixEpoch
  return ⟨d.second.val, d.nano.val.toNat⟩

/-- The environment as the system shows it to a process. -/
def environment : IO (List (String × String)) := do
  try
    let text ← IO.FS.readFile "/proc/self/environ"
    return (Text.split '\x00' text).filterMap (Text.cut? '=')
  catch _ => return []

/-- The documents at the given paths; a folder counts as one that holds something. -/
def gather (paths : List String) : IO Files := do
  let found ← paths.filterMapM fun (path : String) => do
    try return some (path, ← IO.FS.readFile path)
    catch
      | .noFileOrDirectory .. => return none
      | _ => return some (path ++ "/_", "")
  return .ofList found

/-- Writes a document that is not there as it should be. -/
def update (before after : Files) (path : String) : IO Unit := do
  match after.look path with
  | .document text =>
    if before.look path ≠ .document text then
      match Text.cutLast? '/' path with
      | some (folder, _) => if !folder.isEmpty then IO.FS.createDirAll folder
      | none => pure ()
      IO.FS.writeFile path text
  | _ => pure ()

def printLines (lines : List String) : IO Unit := do
  for line in lines do
    IO.println line
  (← IO.getStdout).flush

/-- The milliseconds since a time of the steady clock. -/
def since (start : Nat) : IO Nat := return (← IO.monoMsNow) - start

/-- Sleeps until a time after `start`. -/
def sleepUntil (start time : Nat) : IO Unit := do
  let wait := time - (← since start)
  if 0 < wait then IO.sleep (min wait 1000).toUInt32

partial def follow (start : Nat) (json : Bool) (s : Session) : IO Unit := do
  let (s, sights) := s.runUntil (← since start)
  printLines (sights.map (Session.sightLine json))
  sleepUntil start ((s.next?).getD ((← since start) + 1000))
  follow start json s

partial def showPhases (start : Nat) (loop : Schedule.Loop Empty) (wanted : Nat) : IO Unit := do
  if 0 < wanted then
    match Command.changesNow loop with
    | .error _ => IO.eprintln "Error: the schedule has left the calendar"
    | .ok (loop, changes) =>
      printLines ((changes.take wanted).map Command.changeLine)
      match loop.nextEvent? with
      | none => pure ()
      | some time =>
        while (← since start) < time do
          sleepUntil start time
        showPhases start { loop with time } (wanted - changes.length)

/-- The paths that a command line may look at. -/
def pathsOf (s : Surroundings) (words : List String) : List String :=
  match Invocation.read words with
  | .ok { task := some (.initConfig path _), .. } => [path.getD Config.fileName]
  | .ok i => (i.config.map fun p => [p]).getD s.candidates
  | .error _ => []

def surroundings : IO Surroundings := do
  let word := Nat.pow 2 32
  let bits ← (List.range 4).foldlM (fun n _ => do return n * word + (← IO.rand 0 (word - 1))) 0
  return {
    files := {}, working := ".", environment := ← environment
    clock := { origin := ← now, skew := 0 }
    revision := Release.unknownRevision
    freshName := Node.freshName bits }

/-- Carries out a command line and gives the exit code. -/
def perform (words : List String) : IO UInt32 := do
  let s ← surroundings
  let paths := pathsOf s words
  let files ← gather paths
  match Command.run { s with files } words with
  | .error _ =>
    IO.eprintln "Error: a time is out of range"
    return 101
  | .ok course =>
    match course with
    | .usage .helpWanted => printLines usageLines
    | .usage _ => usageLines.forM IO.eprintln
    | .finished o =>
      paths.forM (update files o.files)
      printLines o.lines
      if let some e := o.failure then IO.eprintln ("Error: " ++ e.message)
    | .session lines session json =>
      printLines lines
      follow (← IO.monoMsNow) json session
    | .phases lines loop count =>
      printLines lines
      showPhases (← IO.monoMsNow) loop count
    return course.code.toUInt32

end PhasedGrid.Main

def main (words : List String) : IO UInt32 := PhasedGrid.Main.perform words
