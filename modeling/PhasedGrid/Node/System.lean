import PhasedGrid.Node.Basic
import PhasedGrid.Schedule.Run

/-!
Nodes on one network and one virtual time. Everything that can happen at one instant happens before
time moves on to the next event of some scheduler.
-/

namespace PhasedGrid.Node

set_option autoImplicit false

open PhasedGrid.Peer (Message Network)
open PhasedGrid.Snapshot (Collected)

/-- A stream of collected states for one module, read through a subscription of the network. -/
structure Results where
  module : String
  subscription : Nat
  deriving DecidableEq, Repr

/-- What a reader of such a stream is given. -/
inductive Reply where
  | state (c : Collected)
  | timeout
  | closed
  deriving DecidableEq, Repr

/-- The nodes in the order of their start. `strays` are running nodes that nobody can name any more
because another one was started under their name. -/
structure System where
  clock : Clock
  time : Nat := 0
  nodes : List Node := []
  strays : List Node := []
  network : Network := {}

namespace System

/-- More turns and rounds than one instant takes. -/
def turnLimit : Nat := 1000000
def roundLimit : Nat := 100000

/-- Lets a node take its turns; tells whether there were any. -/
def drain (node : Node) (net : Network) (busy : Bool) : Nat → Bool × Node × Network
  | 0 => (busy, node, net)
  | fuel + 1 =>
    match node.turn? net with
    | none => (busy, node, net)
    | some (node, net) => drain node net true fuel

/-- Every node in turn does what it can. -/
def drainAll (net : Network) : List Node → Bool × List Node × Network
  | [] => (false, [], net)
  | node :: rest =>
    let (busy, node, net) := drain node net false turnLimit
    let (more, rest, net) := drainAll net rest
    (busy || more, node :: rest, net)

def round (s : System) : Bool × System :=
  let (busy, nodes, network) := drainAll s.network s.nodes
  let (more, strays, network) := drainAll network s.strays
  (busy || more, { s with nodes, strays, network })

def settleWithin (s : System) : Nat → System
  | 0 => s
  | fuel + 1 =>
    match s.round with
    | (true, s) => s.settleWithin fuel
    | (false, s) => s

/-- Lets happen what can happen at this instant. -/
def settle (s : System) : System := s.settleWithin roundLimit

/-- The time of the next event of some scheduler. -/
def nextEvent? (s : System) : Option Nat :=
  ((s.nodes ++ s.strays).filterMap fun n => n.loop.nextEvent?).min?

def moveTo (s : System) (time : Nat) : System :=
  let move (n : Node) : Node := { n with loop := { n.loop with time } }
  { s with time, nodes := s.nodes.map move, strays := s.strays.map move }

def runFrom (now target : Nat) (s : System) : System :=
  match s.nextEvent? with
  | none => s.moveTo target
  | some next =>
    if _later : now < next ∧ next ≤ target then runFrom next target (s.moveTo next).settle
    else s.moveTo target
termination_by target - now

/-- Settles, then passes through every event up to `ms` milliseconds from now. -/
def advance (s : System) (ms : Nat) : System :=
  let s := s.settle
  runFrom s.time (s.time + ms) s

def node? (s : System) (uuid : String) : Option Node := s.nodes.find? fun n => n.uuid = uuid

def modify (s : System) (uuid : String) (f : Node → Node) : System :=
  { s with nodes := s.nodes.map fun n => if n.uuid = uuid then f n else n }

/-- Starts a node. A scheduler that breaks at once leaves the rest of its node behind. -/
def start (s : System) (settings : Config.Settings) (name : String) :
    Except TimeFault (Except Failure String × System) := do
  match ← Node.start settings name s.clock s.time s.network with
  | .error e => return (.error e, s)
  | .ok (node, network) =>
    let (old, others) := s.nodes.partition fun n => n.uuid = name
    let started :=
      { s with nodes := others ++ [node], strays := s.strays ++ old, network }.settle
    if (started.node? name).any Node.lost then
      let (broken, nodes) := started.nodes.partition fun n => n.uuid = name
      return (.error .scheduler, { started with nodes, strays := started.strays ++ broken })
    else return (.ok name, started)

/-- Sends a message as a node; tells whether anybody takes it. -/
def send (s : System) (uuid receiver : String) (m : Message) : Bool × System :=
  let m := Network.stamp uuid m
  (s.network.reaches receiver m, { s with network := s.network.deliver receiver m })

/-- Asks a node's collector for a snapshot on behalf of a module. -/
def request (s : System) (uuid module : String) : Bool × System :=
  s.send uuid uuid (Snapshot.Wire.request uuid module)

/-- Subscribes to the collected states that a node's collector sends to a module. -/
def subscribe (s : System) (uuid module : String) : Results × System :=
  (⟨module, s.network.size⟩, { s with network := s.network.join uuid [module] })

def setSignal (s : System) (uuid device signal : String) (value : Float) : System :=
  s.modify uuid fun n =>
    { n with member := { n.member with inventory := n.member.inventory.put device signal value } }

/-- Makes a node's scheduler break at its next turn. -/
def breakScheduler (s : System) (uuid : String) : System :=
  s.modify uuid fun n => { n with loop := n.loop.issue (.post .fail []) }

/-- Takes a node off the network; the node itself goes on. -/
def leave (s : System) (uuid : String) : System := { s with network := s.network.leave uuid }

/-- Ends a node. -/
def shutdown (s : System) (uuid : String) : System :=
  { s.leave uuid with nodes := s.nodes.filter fun n => n.uuid ≠ uuid }

/-- The first collected state for a module among messages, and the messages behind it. -/
def firstState? (module : String) : List Message → Option Collected × List Message
  | [] => (none, [])
  | m :: rest =>
    match Collected.ofMessage? module m with
    | some c => (some c, rest)
    | none => firstState? module rest

/-- Reads a stream without waiting; none if there is nothing yet. -/
def read? (s : System) (r : Results) : Option Reply × System :=
  let (found, rest) := firstState? r.module (s.network.waiting r.subscription)
  let s := { s with network := s.network.setInbox r.subscription rest }
  match found with
  | some c => (some (.state c), s)
  | none => (if s.network.closed r.subscription then some .closed else none, s)

def awaitFrom (now deadline : Nat) (s : System) (r : Results) : Reply × System :=
  match s.read? r with
  | (some reply, s) => (reply, s)
  | (none, s) =>
    match s.nextEvent? with
    | none => (.timeout, s.moveTo deadline)
    | some next =>
      if _later : now < next ∧ next < deadline then
        awaitFrom next deadline (s.moveTo next).settle r
      else (.timeout, s.moveTo deadline)
termination_by deadline - now

/-- Waits for the next item of a stream, for at most `ms` milliseconds. -/
def await (s : System) (r : Results) (ms : Nat) : Reply × System :=
  let s := s.settle
  awaitFrom s.time (s.time + ms) s r

end System

end PhasedGrid.Node
