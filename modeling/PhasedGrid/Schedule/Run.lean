import PhasedGrid.Schedule.Loop

/-!
Running a scheduler on virtual time: everything that can happen at one instant happens before time
moves on to the next event.
-/

namespace PhasedGrid.Schedule

set_option autoImplicit false

variable {α : Type}

/-- Why a run stops without an answer. -/
inductive RunFault where
  | time (fault : TimeFault)
  | budgetSpent
  deriving DecidableEq, Repr

namespace Loop

/-- More turns than one instant can take: each order passes the ingress queue, a timer, its report
and a module's queue, and each job leaves one continuation. -/
def budget (s : Loop α) : Nat :=
  16 + 8 * (s.ingress.length + s.reports.length + s.timers.sleepers.length
    + (s.jobs.map Job.weight).foldr (· + ·) 0)

def settleWithin (s : Loop α) (log : Array (Event α)) :
    Nat → Except RunFault (Loop α × Array (Event α))
  | 0 => .error .budgetSpent
  | fuel + 1 =>
    match s.turn with
    | .error e => .error (.time e)
    | .ok none => .ok (s, log)
    | .ok (some (next, events)) => next.settleWithin (log ++ events.toArray) fuel

/-- Takes turns until nothing is left to do at this instant. -/
def settle (s : Loop α) (log : Array (Event α)) : Except RunFault (Loop α × Array (Event α)) :=
  s.settleWithin log s.budget

/-- The time of the next event, if the loop waits for one. -/
def nextEvent? (s : Loop α) : Option Nat :=
  if s.ended then none else (s.deadline.toList ++ s.timers.nextDue?.toList).min?

def runFrom (now target : Nat) (s : Loop α) (log : Array (Event α)) :
    Except RunFault (Loop α × Array (Event α)) :=
  match s.nextEvent? with
  | none => .ok ({ s with time := target }, log)
  | some next =>
    if _later : now < next ∧ next ≤ target then
      match { s with time := next }.settle log with
      | .error e => .error e
      | .ok (s, log) => runFrom next target s log
    else .ok ({ s with time := target }, log)
termination_by target - now

/-- Settles, then passes through every event up to `ms` milliseconds from now. -/
def advance (s : Loop α) (ms : Nat) (log : Array (Event α)) :
    Except RunFault (Loop α × Array (Event α)) := do
  let (s, log) ← s.settle log
  runFrom s.time (s.time + ms) s log

end Loop

/-- The phase stream keeps this many changes for a reader that falls behind. -/
def streamCapacity : Nat := 64

/-- What a reader of the stream finds: the number of changes it lost, and the rest. -/
def streamed (changes : List PhaseChange) : Nat × List PhaseChange :=
  (changes.length - streamCapacity, changes.drop (changes.length - streamCapacity))

end PhasedGrid.Schedule
