import PhasedGrid.Device.Inventory
import PhasedGrid.Peer.Network
import PhasedGrid.Snapshot.Agent

/-!
Several collectors on one network, driven step by step: a member handles a message of its inbox, a
request or the end of its timer, and what it sends is delivered at once.
-/

namespace PhasedGrid.Snapshot

set_option autoImplicit false

open PhasedGrid.Device (Inventory)
open PhasedGrid.Peer (Message Network)
open PhasedGrid.Schedule (TimerStatus)

/-- The handlers that a collector serves. -/
def handlerKeys : List String := ["sc", "any"]

/-- A collector with its devices, its subscription and the timer delays it has asked for. -/
structure Member where
  agent : Agent
  inventory : Inventory
  inbox : Nat
  armed : List Nat := []

namespace Member

/-- The gateway reading that the collector's policy names. -/
def reading (m : Member) : Float :=
  m.inventory.total m.agent.policy.deviceClass m.agent.policy.signal

def afterEffects (m : Member) (agent : Agent) (effects : List Effect) : Member :=
  let delays := effects.filterMap fun
    | .arm delay => some delay
    | .send _ _ => none
  { m with agent, armed := m.armed ++ delays }

end Member

structure Cluster where
  members : List Member
  network : Network

namespace Cluster

/-- Adds a member to the cluster and the network. -/
def join (c : Cluster) (agent : Agent) (inventory : Inventory) : Cluster :=
  { members := c.members ++ [{ agent, inventory, inbox := c.network.size }]
    network := c.network.join agent.uuid handlerKeys }

/-- Delivers what a member sends, stamped with its name. -/
def deliverAll (sender : String) (effects : List Effect) (n : Network) : Network :=
  effects.foldl (fun n e => match e with
    | .send receiver m => n.deliver receiver (Network.stamp sender m)
    | .arm _ => n) n

/-- Lets the member at `i` act. -/
def act {ρ : Type} (c : Cluster) (i : Nat) (idle : ρ) (f : Member → ρ × Agent × List Effect) :
    ρ × Cluster :=
  match c.members[i]? with
  | none => (idle, c)
  | some m =>
    let (result, agent, effects) := f m
    (result, {
      members := c.members.set i (m.afterEffects agent effects)
      network := deliverAll m.agent.uuid effects c.network })

def request (c : Cluster) (i : Nat) (module : String) : Option Version × Cluster :=
  c.act i none fun m =>
    let (agent, effects) := m.agent.request m.reading module
    (some agent.current, agent, effects)

def timer (c : Cluster) (i : Nat) (status : TimerStatus) : Option Outcome × Cluster :=
  c.act i none fun m => m.agent.onTimer status

/-- The member at `i` handles the first message of its inbox. -/
def receive? (c : Cluster) (i : Nat) : Option ((String × Except WireError Unit) × Cluster) := do
  let m ← c.members[i]?
  let (message, network) ← c.network.next? m.inbox
  let (result, c) := { c with network }.act i (.ok ()) fun m => m.agent.handle m.reading message
  return ((message.source, result), c)

/-- The member at `i` handles up to `limit` messages. -/
def receiveUpTo (c : Cluster) (i : Nat) : Nat → List (String × Except WireError Unit) × Cluster
  | 0 => ([], c)
  | limit + 1 =>
    match c.receive? i with
    | none => ([], c)
    | some (first, c) =>
      let (rest, c) := c.receiveUpTo i limit
      (first :: rest, c)

/-- The most messages that a member handles in one go. -/
def receiveLimit : Nat := 1000

/-- Every member in turn handles what is in its inbox; counts the messages. -/
def round (c : Cluster) : Nat × Cluster :=
  (List.range c.members.length).foldl (fun (handled, c) i =>
    let (results, c) := c.receiveUpTo i receiveLimit
    (handled + results.length, c)) (0, c)

/-- Rounds until one handles nothing; counts the others and the messages. -/
def pump (c : Cluster) (rounds handled : Nat) : Nat → Nat × Nat × Cluster
  | 0 => (rounds, handled, c)
  | fuel + 1 =>
    match c.round with
    | (0, c) => (rounds, handled, c)
    | (n, c) => c.pump (rounds + 1) (handled + n) fuel

end Cluster

end PhasedGrid.Snapshot
