import PhasedGrid.Peer.Message
import PhasedGrid.Snapshot.Fragment
import PhasedGrid.Text.Blank
import PhasedGrid.Text.Quoted

/-!
Snapshot traffic as entries of peer messages. Reading is strict: a message that claims to be a
marker or a state but lacks a field is an error.
-/

namespace PhasedGrid.Snapshot

set_option autoImplicit false

open PhasedGrid.Peer (Message)

/-- A message for the state collector. -/
inductive Notice where
  | peerList (leader : String) (peers : List String)
  | request (module source : String)
  | marker (version : Version)
  | state (fragment : Fragment)
  | payload (value sender : String) (tag : Option Version)
  deriving DecidableEq, Repr

inductive WireError where
  | missingKey (key : String)
  | invalidNumber (key value : String)
  | unknownStateType (name : String)
  deriving DecidableEq, Repr

def WireError.message : WireError → String
  | .missingKey key => "missing key \x60" ++ key ++ "\x60"
  | .invalidNumber key value => "invalid number in \x60" ++ key ++ "\x60: " ++ Text.quote value
  | .unknownStateType name => "unknown state type \x60" ++ name ++ "\x60"

namespace Wire

/-- An entry that has to be there. -/
def require (m : Message) (key : String) : Except WireError String :=
  match m.get? key with
  | some value => .ok value
  | none => .error (.missingKey key)

/-- A number in an entry, with blanks around it allowed. -/
def number {ν : Type} (read : String → Option ν) (m : Message) (key : String) :
    Except WireError ν := do
  let raw ← require m key
  match read (Text.trim raw) with
  | some n => return n
  | none => throw (.invalidNumber key raw)

def sequence? : String → Option Nat := Decimal.unsigned? Decimal.maxU64

def marker (v : Version) : Message :=
  let m : Message := { source := v.initiator }
  ((m.put "sc" "marker").put "sc.source" v.initiator).put "sc.id" (Decimal.natText v.sequence)

def request (source module : String) : Message :=
  let m : Message := { source }
  ((m.put "sc" "request").put "sc.module" module).put "sc.source" source

def peerList (leader : String) (peers : List String) : Message :=
  let m : Message := { source := leader }
  (m.put "any" "peerList").put "any.peers" (Text.join "," peers)

/-- Other traffic of the collector, with the snapshot it belongs to if it names one. -/
def payload (source value : String) (tag : Option Version) : Message :=
  let m : Message := { source }
  let m := (m.put "sc" value).put "sc.source" source
  match tag with
  | none => m
  | some v => (m.put "sc.version.source" v.initiator).put "sc.version.id" (Decimal.natText v.sequence)

def fragment (sender : String) (f : Fragment) : Message :=
  let m : Message := { source := sender }
  let m := m.put "sc" "state"
  match f with
  | .gateway source value =>
    ((m.put "sc.type" "gateway").put "sc.gateway" (Decimal.render Decimal.plain value)).put
      "sc.source" source
  | .transit value source destination =>
    ((((m.put "sc.type" "Message").put "sc.source" sender).put "sc.transit.value" value).put
      "sc.transit.source" source).put "sc.transit.destin" destination

/-- The message that reads as a given notice. -/
def build : Notice → Message
  | .peerList leader peers => peerList leader peers
  | .request module source => request source module
  | .marker v => marker v
  | .state (.gateway source value) => fragment source (.gateway source value)
  | .state (.transit value source destination) =>
    fragment destination (.transit value source destination)
  | .payload value sender tag => payload sender value tag

def readFragment (m : Message) : Except WireError Fragment := do
  let kind ← require m "sc.type"
  if kind = "gateway" then
    let source ← require m "sc.source"
    let value ← number Decimal.reading? m "sc.gateway"
    return .gateway source value
  else if kind = "Message" then
    let value ← require m "sc.transit.value"
    let source ← require m "sc.transit.source"
    let destination ← require m "sc.transit.destin"
    return .transit value source destination
  else throw (.unknownStateType kind)

def readTag (m : Message) : Except WireError (Option Version) :=
  match m.get? "sc.version.source" with
  | none => .ok none
  | some initiator => (number sequence? m "sc.version.id").map fun n => some ⟨initiator, n⟩

/-- The sender named in the message, or else its source. -/
def sender (m : Message) : String := (m.get? "sc.source").getD m.source

/-- Reads a message; none if it is not for the state collector at all. -/
def read (m : Message) : Except WireError (Option Notice) :=
  if m.get? "any" = some "peerList" then do
    let listed ← require m "any.peers"
    let peers := ((Text.split ',' listed).map Text.trim).filter fun p => !p.isEmpty
    return some (.peerList m.source peers)
  else
    match m.get? "sc" with
    | none => .ok none
    | some kind =>
      if kind = "request" then do
        let module ← require m "sc.module"
        return some (.request module (sender m))
      else if kind = "marker" then do
        let initiator ← require m "sc.source"
        let n ← number sequence? m "sc.id"
        return some (.marker ⟨initiator, n⟩)
      else if kind = "state" then (readFragment m).map fun f => some (.state f)
      else (readTag m).map fun tag => some (.payload kind (sender m) tag)

end Wire

/-- A consolidated snapshot on its way to the module that asked for it. -/
structure Collected where
  module : String
  version : Version
  gateway : String
  deriving DecidableEq, Repr

namespace Collected

def mark : String := "CollectedState"

def toMessage (c : Collected) (source : String) : Message :=
  let m : Message := { source }
  ((m.put c.module mark).put (c.module ++ ".gateway") c.gateway).put (c.module ++ ".version")
    (c.version.initiator ++ ":" ++ Decimal.natText c.version.sequence)

/-- Reads a collected state that is addressed to `module`. -/
def ofMessage? (module : String) (m : Message) : Option Collected :=
  if m.get? module = some mark then do
    let gateway ← m.get? (module ++ ".gateway")
    let named ← m.get? (module ++ ".version")
    let (initiator, count) ← Text.cutLast? ':' named
    let n ← Wire.sequence? count
    return ⟨module, ⟨initiator, n⟩, gateway⟩
  else none

/-- The rendered fragments, as far as commas tell them apart. -/
def values (c : Collected) : List String :=
  if c.gateway.isEmpty then [] else Text.split ',' c.gateway

end Collected

end PhasedGrid.Snapshot
