import PhasedGrid.Node.Failure
import PhasedGrid.Schedule.Loop

/-!
The lines that the program prints, and the messages it fails with.
-/

namespace PhasedGrid.Command

set_option autoImplicit false

open PhasedGrid.Schedule (PhaseChange)
open PhasedGrid.Snapshot (Collected)

/-- Why a task fails; the text is the first line of what is printed. -/
inductive TaskError where
  | badTime (text : String)
  | noPhase
  | noNodes
  | notStarted (what : String)
  | notLoaded
  | inTheWay (path : String)
  | notWritten (path : String)
  | node (e : Node.Failure)
  deriving DecidableEq, Repr

def TaskError.message : TaskError → String
  | .badTime text => "Invalid time of day " ++ Text.quote text ++ " (expected HH:MM:SS[.mmm])"
  | .noPhase => "No modules with a non-zero phase are configured"
  | .noNodes => "a cluster needs at least one node"
  | .notStarted what => "Failed to start " ++ what
  | .notLoaded => "Failed to load configuration"
  | .inTheWay path => path ++ " already exists (use --force to overwrite)"
  | .notWritten path => "Failed to write " ++ path
  | .node e => e.message

/-- A character inside the quotes of a JSON string. -/
def jsonChar (c : Char) : List Char :=
  if c = '"' then ['\\', '"']
  else if c = '\\' then ['\\', '\\']
  else if c = '\x08' then ['\\', 'b']
  else if c = '\t' then ['\\', 't']
  else if c = '\n' then ['\\', 'n']
  else if c = '\x0c' then ['\\', 'f']
  else if c = '\r' then ['\\', 'r']
  else if c.toNat < 0x20 then
    ['\\', 'u', '0', '0'] ++ (Text.padLeft '0' 2 (String.ofList (Text.hexDigits c.toNat))).toList
  else [c]

def jsonText (s : String) : String := String.ofList ('"' :: s.toList.flatMap jsonChar ++ ['"'])

/-- A JSON object whose fields are written out already. -/
def jsonObject (fields : List (String × String)) : String :=
  "\x7b" ++ Text.join "," (fields.map fun f => jsonText f.1 ++ ":" ++ f.2) ++ "\x7d"

/-- A collected state on one line; the names stand in order. -/
def stateJson (c : Collected) : String :=
  jsonObject
    [("gateway", jsonText c.gateway), ("module", jsonText c.module),
      ("values", "[" ++ Text.join "," (c.values.map jsonText) ++ "]"),
      ("version", jsonObject [("initiator", jsonText c.version.initiator),
        ("sequence", Decimal.natText c.version.sequence)])]

def collectedLine (json : Bool) (c : Collected) : String :=
  if json then stateJson c else "Collected " ++ c.version.text ++ ": " ++ c.gateway

/-- A module and the length of its phase in milliseconds, in columns. -/
def phaseText (module : String) (ms : Nat) : String :=
  Text.padRight 6 module ++ " " ++ Text.padLeft ' ' 4 (Decimal.natText ms) ++ "ms"

/-- A time of day in milliseconds; it starts again after a day. -/
def timeText (ms : Nat) : String :=
  let two (n : Nat) : String := Text.padLeft '0' 2 (Decimal.natText n)
  two (ms / 3600000 % 24) ++ ":" ++ two (ms / 60000 % 60) ++ ":" ++ two (ms / 1000 % 60) ++ "."
    ++ Text.padLeft '0' 3 (Decimal.natText (ms % 1000))

def changeText (c : PhaseChange) : String :=
  phaseText c.module c.duration.millis ++ if c.aligned then " (aligned)" else ""

def changeLine (c : PhaseChange) : String := timeText c.moment.timeOfDay.millis ++ " " ++ changeText c

end PhasedGrid.Command
