import PhasedGrid.Config.Settings
import PhasedGrid.Node.Failure
import PhasedGrid.Schedule.Loop
import PhasedGrid.Snapshot.Cluster

/-!
A node: devices, a scheduler, and a state collector whose response timer is a timer of the
scheduler. The collector works until it meets a malformed message or its node leaves the network.
-/

namespace PhasedGrid

set_option autoImplicit false

open PhasedGrid.Device (Inventory)
open PhasedGrid.Peer (Network)
open PhasedGrid.Schedule (Event Loop PhaseChange TimerStatus)

namespace Node

/-- What the jobs of a node's scheduler do: report the response timer, or break the scheduler. -/
inductive Duty where
  | respond
  | fail
  deriving DecidableEq, Repr

inductive CollectorState where
  | working
  | ended
  | failed (e : Snapshot.WireError)
  deriving DecidableEq, Repr

end Node

/-- The collector with its devices, the scheduler, the collector's timer, the timer's reports that
wait for the collector, and the phase changes so far. `lost` tells that the scheduler broke. -/
structure Node where
  member : Snapshot.Member
  loop : Loop Node.Duty
  timer : Nat
  statuses : List TimerStatus := []
  collector : Node.CollectorState := .working
  lost : Bool := false
  changes : Array PhaseChange := #[]

namespace Node

/-- The module that owns the collector's timer, and its phase where none is configured. -/
def collectorModule : String := "sc"
def collectorPhase : Span := .ofMillis 400

/-- The devices of the settings with their initial signals. -/
def inventoryOf (d : Config.DeviceSettings) : Except Device.DeviceError Inventory :=
  let (made, inventory) := Inventory.builtin.createAll d.specs
  made.map fun _ => d.values.foldl (fun v s => v.put s.device s.signal s.value) inventory

/-- The modules of the settings; the collector's module comes last if it is missing. -/
def modulesOf (s : Config.ScheduleSettings) : List (String × Span) :=
  let modules := s.modules.map fun m => (m.id, Span.ofMillis m.phase)
  if s.modules.any fun m => m.id = collectorModule then modules
  else modules ++ [(collectorModule, collectorPhase)]

def uuid (n : Node) : String := n.member.agent.uuid

/-- A node that starts at `time` and joins the network under the given name. -/
def start (s : Config.Settings) (name : String) (clock : Clock) (time : Nat) (net : Network) :
    Except TimeFault (Except Failure (Node × Network)) :=
  match s.validate with
  | .error e => .ok (.error (.config (.invalid e)))
  | .ok () =>
    match inventoryOf s.devices with
    | .error e => .ok (.error (.device e))
    | .ok inventory =>
      (Loop.start clock s.alignmentSpan time).map fun loop =>
        let loop := (modulesOf s.schedule).foldl (fun l m => l.issue (.register m.1 m.2)) loop
        let agent := Snapshot.Agent.new name s.snapshot s.peers
        .ok ({ member := { agent, inventory, inbox := net.size }
               loop := loop.issue (.allocate collectorModule)
               timer := loop.handles },
          net.join name Snapshot.handlerKeys)

/-- Takes note of what happened in a turn of the scheduler. -/
def observe (n : Node) : Event Duty → Node
  | .ran job status _ =>
    match job.label with
    | .respond => { n with statuses := n.statuses ++ status.toList }
    | .fail => { n with loop := n.loop.finish, lost := true }
  | .changed phase => { n with changes := n.changes.push phase }
  | _ => n

/-- One turn of the scheduler; a computation on times that has no result breaks it. -/
def schedulerTurn? (n : Node) : Option Node :=
  match n.loop.turn with
  | .error _ => some { n with loop := n.loop.finish, lost := true }
  | .ok none => none
  | .ok (some (loop, events)) => some (events.foldl observe { n with loop })

/-- Carries out what the collector wants: messages go out under its name, delays go to its timer. -/
def perform (n : Node) (net : Network) (agent : Snapshot.Agent) (effects : List Snapshot.Effect) :
    Node × Network :=
  let loop := effects.foldl (fun (l : Loop Duty) e =>
    match e with
    | .arm delay => l.issue (.after n.timer delay .respond [])
    | .send _ _ => l) n.loop
  ({ n with loop, member := { n.member with agent } }, Snapshot.Cluster.deliverAll n.uuid effects net)

/-- The collector stops to read its inbox. -/
def endCollector (n : Node) (net : Network) (state : CollectorState) : Node × Network :=
  ({ n with collector := state }, net.hangUp n.member.inbox)

/-- The collector's next step: a report of its timer, else a message, else the end of its inbox. -/
def collectorTurn? (n : Node) (net : Network) : Option (Node × Network) :=
  if n.collector ≠ .working then none
  else
    match n.statuses with
    | status :: rest =>
      let (_, agent, effects) := n.member.agent.onTimer status
      some ({ n with statuses := rest }.perform net agent effects)
    | [] =>
      match net.next? n.member.inbox with
      | some (message, net) =>
        match n.member.agent.handle n.member.reading message with
        | (.ok (), agent, effects) => some (n.perform net agent effects)
        | (.error e, _, _) => some (n.endCollector net (.failed e))
      | none => if net.closed n.member.inbox then some (n.endCollector net .ended) else none

/-- The next step of a node; the scheduler goes first. -/
def turn? (n : Node) (net : Network) : Option (Node × Network) :=
  match n.schedulerTurn? with
  | some n => some (n, net)
  | none => n.collectorTurn? net

/-- What the node has to say when it is shut down. -/
def verdict (n : Node) : Except Failure Unit :=
  if n.lost then .error (.taskLost "scheduler" "")
  else
    match n.collector with
    | .failed e => .error (.snapshot e)
    | _ => .ok ()

def describe (n : Node) : String :=
  Schedule.describeRecord "BrokerNode"
    [("uuid", Text.quote n.uuid), ("devices", Decimal.natText n.member.inventory.devices.length)]

end Node

end PhasedGrid
