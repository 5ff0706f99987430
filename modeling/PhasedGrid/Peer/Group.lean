import PhasedGrid.Table

/-!
The peers that a node counts with. A node always belongs to its own group.
-/

namespace PhasedGrid.Peer

set_option autoImplicit false

structure Group where
  own : String
  members : List String
  deriving DecidableEq, Repr

namespace Group

def alone (own : String) : Group := ⟨own, [own]⟩

def has (g : Group) (peer : String) : Bool := g.members.contains peer

def size (g : Group) : Nat := g.members.length

def insert (g : Group) (peer : String) : Group :=
  { g with members := Ordered.insert peer g.members }

def ofList (own : String) (peers : List String) : Group :=
  peers.foldl insert (alone own)

/-- Removes a peer; the node itself stays. -/
def remove (g : Group) (peer : String) : Bool × Group :=
  if peer = g.own ∨ !g.has peer then (false, g)
  else (true, { g with members := g.members.filter (· ≠ peer) })

def others (g : Group) : List String := g.members.filter (· ≠ g.own)

/-- The group announced by a list of peers. -/
def announce (g : Group) (peers : List String) : Group :=
  { g with members := Ordered.insert g.own (Ordered.ofList peers) }

/-- Peers that an announcement brings in and peers that it leaves out. -/
def changes (g next : Group) : List String × List String :=
  (next.members.filter fun p => !g.has p, g.members.filter fun p => !next.has p)

end Group

end PhasedGrid.Peer
