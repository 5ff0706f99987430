import PhasedGrid.Decimal.Numeral
import PhasedGrid.Schedule.Loop
import PhasedGrid.Text.Quoted

/-!
How the parts of a scheduler are named and described in diagnostics.
-/

namespace PhasedGrid.Schedule

set_option autoImplicit false

variable {α : Type}

/-- A record with its fields in braces. -/
def describeRecord (name : String) (fields : List (String × String)) : String :=
  name ++ " \x7b " ++ String.intercalate ", " (fields.map fun f => f.1 ++ ": " ++ f.2) ++ " \x7d"

/-- The answer to a question put to a loop that has ended. -/
def stoppedText : String := "scheduler loop has stopped"

def handleName (handle : Nat) : String := "timer#" ++ Decimal.natText handle

def TimerStatus.name : TimerStatus → String
  | .expired => "expired"
  | .cancelled => "cancelled"

/-- The depths of the queues in order of module. -/
def Queues.describe (q : Queues α) : String :=
  let depths := q.byModule.map fun e => Text.quote e.1 ++ ": " ++ Decimal.natText e.2.length
  describeRecord "WorkQueueSet" [("depths", "\x7b" ++ String.intercalate ", " depths ++ "\x7d")]

def Timers.describe (t : Timers α) : String :=
  describeRecord "TimerRegistry" [("timers", Decimal.natText t.size)]

def Loop.describe (s : Loop α) : String :=
  describeRecord "SchedulerHandle" [("running", if s.ended then "false" else "true")]

end PhasedGrid.Schedule
