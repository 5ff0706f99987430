import PhasedGrid.Schedule.Show
import PhasedGrid.Snapshot.Cluster

/-!
How nodes, networks and collectors are described in diagnostics.
-/

namespace PhasedGrid

set_option autoImplicit false

open PhasedGrid.Schedule (describeRecord)

def Peer.Network.describe (n : Peer.Network) : String :=
  describeRecord "InMemoryNetwork" [("members", Text.quoteList n.members)]

namespace Device.Inventory

def describeClasses (v : Inventory) : String :=
  describeRecord "DeviceFactory" [("classes", Text.quoteList v.classes)]

def describeDevices (v : Inventory) : String :=
  describeRecord "PhysicalDeviceManager" [("devices", Text.quoteList (Table.keys v.devices))]

def describeDevice? (v : Inventory) (id : String) : Option String :=
  (Table.get? id v.devices).map fun cls =>
    describeRecord "AdapterDevice" [("id", Text.quote id), ("type", Text.quote cls)]

end Device.Inventory

namespace Snapshot

/-- The text of a collector's failure on a message. -/
def malformed (e : WireError) : String := "malformed snapshot message: " ++ e.message

def Version.describe (v : Version) : String :=
  describeRecord "SnapshotVersion"
    [("initiator", Text.quote v.initiator), ("sequence", Decimal.natText v.sequence)]

def Agent.describe (a : Agent) : String :=
  describeRecord "SnapshotAgent"
    [("uuid", Text.quote a.uuid), ("current", a.current.describe),
      ("peers", Decimal.natText a.peers.size), ("recording", Decimal.natText a.recording.length)]

end Snapshot

end PhasedGrid
