import PhasedGrid.Peer.Group
import PhasedGrid.Schedule.Order
import PhasedGrid.Snapshot.Wire

/-!
The state collector of one node. An initiator records its own reading, sends a marker to every
peer and waits for its response timer. Every other node records its reading on the first marker of
a version, passes the marker on, records what arrives until it has a marker from every other peer,
and then sends what it recorded back to the initiator.

With `n` peers, itself included, an initiator counts its markers from 1 up to `n`, any other node
from 1 up to `n - 1`.
-/

namespace PhasedGrid.Snapshot

set_option autoImplicit false

open PhasedGrid.Peer (Group Message)
open PhasedGrid.Schedule (TimerStatus)

/-- How a collector answers its response timer; the timeout is in milliseconds. -/
structure Policy where
  responseTimeout : Nat := 5000
  extensions : Nat := 0
  deviceClass : String := "Sst"
  signal : String := "powerLevel"
  deriving DecidableEq, Repr

/-- What a collector does to the outside. -/
inductive Effect where
  | send (receiver : String) (message : Message)
  | arm (delay : Nat)
  deriving DecidableEq, Repr

/-- What came of an expired response timer. -/
inductive Outcome where
  | complete (state : Collected)
  | extended (remaining : Nat)
  | incomplete (version : Version) (markers expected : Nat)
  deriving DecidableEq, Repr

/-- The bookkeeping of a collector: versions with their marker counts and fragments, the versions
being recorded, and the versions finished last, oldest first. -/
structure Agent where
  uuid : String
  policy : Policy
  peers : Group
  current : Version
  started : Nat
  requester : Option String
  markers : Table Version Nat
  collected : Table Version (List Fragment)
  recording : List Version
  retired : List Version
  extensionsLeft : Nat
  deriving DecidableEq, Repr

namespace Agent

/-- The number of finished versions that are remembered. -/
def retiredCapacity : Nat := 32

def new (uuid : String) (policy : Policy) (peers : List String) : Agent :=
  { uuid, policy, peers := .ofList uuid peers, current := .sentinel, started := 0,
    requester := none, markers := [], collected := [], recording := [], retired := [],
    extensionsLeft := 0 }

def markerCount (a : Agent) (v : Version) : Nat := (Table.get? v a.markers).getD 0

def isRecording (a : Agent) (v : Version) : Bool := a.recording.contains v

def fragments (a : Agent) (v : Version) : List Fragment := (Table.get? v a.collected).getD []

/-- Whether a snapshot of this node is in progress. -/
def awaiting (a : Agent) : Bool :=
  !a.current.isSentinel && a.current.initiator = a.uuid

/-- Files a fragment under a version. -/
def file (a : Agent) (v : Version) (f : Fragment) : Agent :=
  { a with collected := Table.insert v (a.fragments v ++ [f]) a.collected }

def record (a : Agent) (v : Version) : Agent :=
  { a with recording := Ordered.insert v a.recording }

def stopRecording (a : Agent) (v : Version) : Agent :=
  { a with recording := a.recording.filter (· ≠ v) }

/-- Counts one more marker, never beyond the number of peers. -/
def bump (a : Agent) (v : Version) : Agent :=
  { a with markers := Table.insert v (min (a.markerCount v + 1) a.peers.size) a.markers }

/-- Forgets everything in progress. -/
def clear (a : Agent) : Agent :=
  { a with markers := [], collected := [], recording := [] }

/-- Starts to track a version: one marker, and this node's own reading. -/
def track (a : Agent) (v : Version) (reading : Float) : Agent :=
  { a with markers := Table.insert v 1 a.markers }.file v (.gateway a.uuid reading)

/-- Drops a finished version and remembers that it is finished. -/
def retire (a : Agent) (v : Version) : Agent :=
  let retired := a.retired ++ [v]
  { a with
    markers := Table.erase v a.markers
    collected := Table.erase v a.collected
    recording := a.recording.filter (· ≠ v)
    retired := retired.drop (retired.length - retiredCapacity) }

def toOthers (a : Agent) (m : Message) : List Effect :=
  a.peers.others.map fun p => .send p m

/-- Sends every fragment of a version to its initiator. -/
def shipBack (a : Agent) (v : Version) : List Effect :=
  (a.fragments v).map fun f => .send v.initiator (Wire.fragment a.uuid f)

/-- The version that this node starts next. -/
def nextVersion (a : Agent) : Version := ⟨a.uuid, a.started + 1⟩

/-- Starts a snapshot of this node's own. -/
def initiate (a : Agent) (reading : Float) : Agent × List Effect :=
  let v := a.nextVersion
  let next := ({ a.clear with started := a.started + 1, current := v }.track v reading).record v
  ({ next with extensionsLeft := a.policy.extensions },
    a.toOthers (Wire.marker v) ++ [.arm a.policy.responseTimeout])

/-- Starts a snapshot on behalf of a module. -/
def request (a : Agent) (reading : Float) (module : String) : Agent × List Effect :=
  { a with requester := some module }.initiate reading

/-- A marker of the version in progress. -/
def onCurrentMarker (a : Agent) (v : Version) : Agent × List Effect :=
  let a := a.bump v
  if v.initiator = a.uuid then
    (if a.peers.size ≤ a.markerCount v then a.stopRecording v else a, [])
  else if a.peers.size ≤ a.markerCount v + 1 then
    ({ a.retire v with current := .sentinel }, a.shipBack v)
  else (a, [])

/-- A further marker of a version tracked beside the one in progress. -/
def onTrackedMarker (a : Agent) (v : Version) : Agent × List Effect :=
  let a := a.bump v
  if a.peers.size ≤ a.markerCount v + 1 then (a.retire v, a.shipBack v) else (a, [])

/-- Whether a marker of an untracked version comes too late. -/
def isStale (a : Agent) (v : Version) : Bool :=
  a.retired.contains v || v.initiator = a.uuid || (Table.keys a.markers).any fun w => w.supersedes v

def abandon (a : Agent) (v : Version) : Agent :=
  let a := a.retire v
  if a.current = v then { a with current := .sentinel } else a

/-- Gives up older versions of the same initiator; their missing markers never come. -/
def abandonSuperseded (a : Agent) (v : Version) : Agent :=
  ((Table.keys a.markers).filter fun w => v.supersedes w).foldl abandon a

/-- The first marker of a version: it becomes the one in progress unless there is one. -/
def onFirstMarker (a : Agent) (reading : Float) (v : Version) : Agent × List Effect :=
  let a := a.abandonSuperseded v
  let adopted := a.current.isSentinel
  let a := (if adopted then { a with current := v } else a).track v reading
  let passed := a.toOthers (Wire.marker v)
  if a.peers.size ≤ 2 then
    let next := a.retire v
    (if adopted then { next with current := .sentinel } else next, passed ++ a.shipBack v)
  else (a.record v, passed)

def onMarker (a : Agent) (reading : Float) (v : Version) : Agent × List Effect :=
  if v = a.current then a.onCurrentMarker v
  else if Table.has v a.markers then a.onTrackedMarker v
  else if a.isStale v then (a, [])
  else a.onFirstMarker reading v

/-- State messages name no version and belong to the snapshot in progress. -/
def onState (a : Agent) (f : Fragment) : Agent :=
  if a.current.isSentinel then a else a.file a.current f

/-- The versions that a payload is recorded for. -/
def payloadTargets (a : Agent) : Option Version → List Version
  | some v => if a.isRecording v then [v] else []
  | none => a.recording

def onPayload (a : Agent) (value sender : String) (tag : Option Version) : Agent :=
  (a.payloadTargets tag).foldl (fun a v => a.file v (.transit value sender a.uuid)) a

/-- A new group: its leader starts a snapshot, everybody else forgets what is in progress. -/
def onPeerList (a : Agent) (reading : Float) (leader : String) (peers : List String) :
    Agent × List Effect :=
  let a := { a with peers := a.peers.announce peers }
  if leader = a.uuid then a.initiate reading
  else ({ a.clear with current := .sentinel }, [])

def onNotice (a : Agent) (reading : Float) : Notice → Agent × List Effect
  | .peerList leader peers => a.onPeerList reading leader peers
  | .request module _ => a.request reading module
  | .marker v => a.onMarker reading v
  | .state f => (a.onState f, [])
  | .payload value sender tag => (a.onPayload value sender tag, [])

/-- Whoever sends a message is a peer from then on. -/
def meet (a : Agent) (source : String) : Agent :=
  if source.isEmpty then a else { a with peers := a.peers.insert source }

/-- Handles one message; `reading` is the node's current gateway reading. -/
def handle (a : Agent) (reading : Float) (m : Message) : Except WireError Unit × Agent × List Effect :=
  let a := a.meet m.source
  match Wire.read m with
  | .error e => (.error e, a, [])
  | .ok none => (.ok (), a, [])
  | .ok (some notice) => (.ok (), a.onNotice reading notice)

/-- Ends the snapshot in progress. -/
def finishCurrent (a : Agent) : Agent :=
  { a with current := .sentinel }.retire a.current

/-- The collected state of the snapshot in progress. -/
def answer (a : Agent) : Collected :=
  ⟨a.requester.getD "", a.current, consolidate (a.fragments a.current)⟩

/-- The response timer ran out while a snapshot of this node is in progress. -/
def onExpiry (a : Agent) : Outcome × Agent × List Effect :=
  let markers := a.markerCount a.current
  let expected := a.peers.size
  if expected ≤ markers then
    let sent := match a.requester with
      | some _ => [Effect.send a.uuid (a.answer.toMessage a.uuid)]
      | none => []
    (.complete a.answer, a.finishCurrent, sent)
  else
    match a.extensionsLeft with
    | left + 1 =>
      (.extended left, { a with extensionsLeft := left }, [.arm a.policy.responseTimeout])
    | 0 => (.incomplete a.current markers expected, a.finishCurrent, [])

/-- Handles the end of the response timer. -/
def onTimer (a : Agent) (status : TimerStatus) : Option Outcome × Agent × List Effect :=
  if status = .expired ∧ a.awaiting then
    let (outcome, a, effects) := a.onExpiry
    (some outcome, a, effects)
  else (none, a, [])

end Agent

end PhasedGrid.Snapshot
