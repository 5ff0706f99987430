import PhasedGrid.Table
import PhasedGrid.Text.Split

/-!
Messages between peers: a source and a table of dotted keys. The first segment of a key names the
handler that the message is meant for.
-/

namespace PhasedGrid.Peer

set_option autoImplicit false

structure Message where
  source : String := ""
  entries : Table String String := []
  deriving DecidableEq, Repr

namespace Message

def get? (m : Message) (key : String) : Option String := Table.get? key m.entries

/-- Writes an entry; a later value of the same key wins. -/
def put (m : Message) (key value : String) : Message :=
  { m with entries := Table.insert key value m.entries }

/-- The handlers named by the keys, in order. -/
def handlerKeys (m : Message) : List String :=
  Ordered.ofList ((Table.keys m.entries).map (Text.upTo '.'))

end Message

end PhasedGrid.Peer
