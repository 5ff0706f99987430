import PhasedGrid.Peer.Message

/-!
A network inside one process. Nodes subscribe with the handler keys they serve; a message goes to
every subscription of its receiver that serves one of the message's handlers. Messages that wait
when a node leaves can still be read.
-/

namespace PhasedGrid.Peer

set_option autoImplicit false

/-- A subscription: `routed` until its node leaves, `listening` until its reader hangs up. -/
structure Subscription where
  uuid : String
  keys : List String
  routed : Bool
  listening : Bool
  inbox : List Message
  deriving DecidableEq, Repr

namespace Subscription

def serves (s : Subscription) (m : Message) : Bool :=
  s.keys.any fun k => m.handlerKeys.contains k

/-- Whether a message to `uuid` ends up in this subscription's inbox. -/
def takes (s : Subscription) (uuid : String) (m : Message) : Bool :=
  s.routed && s.uuid = uuid && s.serves m && s.listening

def offer (s : Subscription) (uuid : String) (m : Message) : Subscription :=
  if s.takes uuid m then { s with inbox := s.inbox ++ [m] } else s

end Subscription

/-- The subscriptions in the order of joining, which numbers them. -/
structure Network where
  subscriptions : List Subscription := []
  deriving DecidableEq, Repr

namespace Network

/-- The number that the next subscription gets. -/
def size (n : Network) : Nat := n.subscriptions.length

def join (n : Network) (uuid : String) (keys : List String) : Network :=
  ⟨n.subscriptions ++ [⟨uuid, keys, true, true, []⟩]⟩

def hasMember (n : Network) (uuid : String) : Bool :=
  n.subscriptions.any fun s => s.routed && s.uuid = uuid

/-- Takes every subscription of a node off the network. -/
def leave (n : Network) (uuid : String) : Network :=
  ⟨n.subscriptions.map fun s => if s.uuid = uuid then { s with routed := false } else s⟩

def members (n : Network) : List String :=
  Ordered.ofList ((n.subscriptions.filter Subscription.routed).map Subscription.uuid)

/-- Whether some subscription takes the message. -/
def reaches (n : Network) (uuid : String) (m : Message) : Bool :=
  n.subscriptions.any fun s => s.takes uuid m

def deliver (n : Network) (uuid : String) (m : Message) : Network :=
  ⟨n.subscriptions.map fun s => s.offer uuid m⟩

/-- A message sent by a node carries the node's name. -/
def stamp (sender : String) (m : Message) : Message := { m with source := sender }

def waiting (n : Network) (number : Nat) : List Message :=
  (n.subscriptions[number]?.map Subscription.inbox).getD []

def setInbox (n : Network) (number : Nat) (inbox : List Message) : Network :=
  ⟨n.subscriptions.modify number fun s => { s with inbox }⟩

/-- Reads everything that waits. -/
def drain (n : Network) (number : Nat) : List Message × Network :=
  (n.waiting number, n.setInbox number [])

/-- Reads one message. -/
def next? (n : Network) (number : Nat) : Option (Message × Network) :=
  match n.waiting number with
  | [] => none
  | m :: rest => some (m, n.setInbox number rest)

def hangUp (n : Network) (number : Nat) : Network :=
  ⟨n.subscriptions.modify number fun s => { s with listening := false, inbox := [] }⟩

def listening (n : Network) (number : Nat) : Bool :=
  (n.subscriptions[number]?.map Subscription.listening).getD false

/-- Nothing can arrive any more. -/
def closed (n : Network) (number : Nat) : Bool :=
  !(n.subscriptions[number]?.map Subscription.routed).getD false

end Network

end PhasedGrid.Peer
