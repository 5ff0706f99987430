import PhasedGrid.Schedule.Cursor
import PhasedGrid.Schedule.Order
import PhasedGrid.Schedule.Queues
import PhasedGrid.Schedule.Roster
import PhasedGrid.Schedule.Timers

/-!
The scheduler loop as a state machine. One turn does the first of these that applies: change the
phase whose time is up, handle a timer report, apply the next command, let due timers report. Jobs
of a module run one at a time while the module's phase is active; after each one the worker queues
its own continuation behind the commands that are already there.
-/

namespace PhasedGrid.Schedule

set_option autoImplicit false

variable {α : Type}

/-- A published change of phase; the counter numbers the changes from 1 on. -/
structure PhaseChange where
  counter : Nat
  index : Nat
  module : String
  duration : Span
  aligned : Bool
  moment : Moment
  deriving DecidableEq, Repr

/-- What the outside can see of a turn. A job is refused if its timer was never allocated. -/
inductive Event (α : Type) where
  | ran (job : Job α) (status : Option TimerStatus) (time : Nat)
  | changed (phase : PhaseChange)
  | refused (job : Job α)
  | ended

/-- The state of a scheduler. `held` tells whether an outside handle is alive; times are in
milliseconds since the start. -/
structure Loop (α : Type) where
  clock : Clock
  time : Nat
  roster : Roster
  queues : Queues (Task α)
  timers : Timers (Job α)
  reports : List Report
  cursor : Cursor
  busy : Bool
  deadline : Option Nat
  ingress : List (Command α)
  held : Bool
  handles : Nat
  submitted : Nat
  ended : Bool

namespace Loop

/-- A scheduler that is started at `time` and aligns its rounds at the given interval. -/
def start (clock : Clock) (interval : Span) (time : Nat) : Except TimeFault (Loop α) := do
  let now ← clock.read (.ofMillis time)
  let cursor ← Cursor.start now interval
  return {
    clock, cursor, time, roster := {}, queues := {}, timers := {}, reports := [],
    busy := false, deadline := none, ingress := [], held := true, handles := 0, submitted := 0,
    ended := false }

/-- Queues a command; after the end commands are lost. -/
def send (s : Loop α) (c : Command α) : Loop α :=
  if s.ended then s else { s with ingress := s.ingress ++ [c] }

/-- Wraps up a new job. -/
def submit (s : Loop α) (label : α) (follow : List (Order α)) (captures : Bool) :
    Job α × Loop α :=
  (⟨s.submitted, label, follow, captures⟩, { s with submitted := s.submitted + 1 })

/-- Gives an order. A timer gets its number at once, the rest happens when the loop comes to it. -/
def issue (s : Loop α) : Order α → Loop α
  | .register id phase => s.send (.register id phase)
  | .allocate owner => { s with handles := s.handles + 1 }.send (.allocate s.handles owner)
  | .after timer delay label follow captures =>
    let (job, s) := s.submit label follow captures
    s.send (.after timer delay job)
  | .now module label follow wake captures =>
    let (job, s) := s.submit label follow captures
    s.send (.now module job wake)
  | .post label follow captures =>
    let (job, s) := s.submit label follow captures
    s.send (.post job)
  | .stop => s.send .stop

/-- The jobs that have been submitted and have neither run nor been refused. -/
def jobs (s : Loop α) : List (Job α) :=
  s.ingress.filterMap Command.job? ++ s.timers.payloads ++ s.queues.jobs.map Task.job

/-- Whether a handle is left, outside or with a job that waits. -/
def alive (s : Loop α) : Bool := s.held || s.jobs.any Job.holds

/-- Runs a job: it is seen to run, then it gives its orders. -/
def runJob (s : Loop α) (job : Job α) (status : Option TimerStatus) : Loop α × List (Event α) :=
  (job.follow.foldl issue s, [.ran job status s.time])

/-- Runs the next job of the active module and queues the continuation, or goes idle. -/
def worker (s : Loop α) : Loop α × List (Event α) :=
  match s.roster.get? s.cursor.index with
  | none => ({ s with busy := false }, [])
  | some entry =>
    match s.queues.pop? entry.id with
    | none => ({ s with busy := false }, [])
    | some (task, queues) =>
      let (s, events) := { s with queues, busy := true }.runJob task.job task.status
      if s.alive then (s.send .work, events) else ({ s with busy := false }, events)

def startWorker (s : Loop α) : Loop α × List (Event α) :=
  if s.busy then (s, []) else s.worker

/-- Moves the cursor, publishes the new phase and wakes the worker. -/
def changePhase (s : Loop α) : Except TimeFault (Loop α × List (Event α)) := do
  let now ← s.clock.read (.ofMillis s.time)
  let (step, cursor) := s.cursor.advance s.roster.phases now
  match step with
  | none => return ({ s with cursor, deadline := none }, [])
  | some step =>
    let module := ((s.roster.get? step.index).map Entry.id).getD ""
    let change : PhaseChange :=
      ⟨cursor.counter, step.index, module, step.duration, step.aligned, now⟩
    let (s, events) := { s with cursor }.startWorker
    return ({ s with deadline := some (s.time + step.duration.millis) }, .changed change :: events)

/-- Puts a job that a timer released into its owner's queue. -/
def release (s : Loop α) (owner : String) (job : Job α) (status : TimerStatus) :
    Loop α × List (Event α) :=
  { s with queues := s.queues.push owner ⟨job, some status⟩ }.startWorker

/-- Ends the loop; what is still waiting is dropped. -/
def finish (s : Loop α) : Loop α :=
  { s with
    timers := s.timers.shutdown.2, reports := [], queues := {}, ingress := [], deadline := none,
    ended := true }

def apply (s : Loop α) : Command α → Except TimeFault (Loop α × List (Event α))
  | .register id phase =>
    let (added, roster) := s.roster.register id phase
    if added ∧ roster.size = 1 then { s with roster }.changePhase
    else .ok ({ s with roster }, [])
  | .allocate timer owner => .ok ({ s with timers := s.timers.insert timer owner }, [])
  | .after timer delay job =>
    match s.timers.arm s.time timer delay job with
    | (.fresh, timers) => .ok ({ s with timers }, [])
    | (.replaced owner old, timers) => .ok ({ s with timers }.release owner old .cancelled)
    | (.unknown, _) => .ok (s, [.refused job])
  | .now module job wake =>
    let s := { s with queues := s.queues.push module ⟨job, none⟩ }
    .ok (if wake then s.startWorker else (s, []))
  | .post job => .ok (s.runJob job none)
  | .work => .ok s.worker
  | .stop => .ok (s.finish, [.ended])

def onReport (s : Loop α) (r : Report) : Loop α × List (Event α) :=
  match s.timers.fire r with
  | (some (owner, job), timers) => { s with timers }.release owner job .expired
  | (none, _) => (s, [])

/-- One turn of the loop, none if nothing is to be done before time passes. -/
def turn (s : Loop α) : Except TimeFault (Option (Loop α × List (Event α))) :=
  if s.ended then .ok none
  else if s.deadline.any (· ≤ s.time) then ({ s with deadline := none }.changePhase).map some
  else
    match s.reports with
    | r :: rest => .ok (some ({ s with reports := rest }.onReport r))
    | [] =>
      match s.ingress with
      | c :: rest => ({ s with ingress := rest }.apply c).map some
      | [] =>
        if !s.alive then .ok (some (s.finish, [.ended]))
        else
          match s.timers.wake s.time with
          | ([], _) => .ok none
          | (reports, timers) => .ok (some ({ s with timers, reports }, []))

end Loop

end PhasedGrid.Schedule
