import PhasedGrid.Decimal.Reading
import PhasedGrid.Snapshot.Version
import PhasedGrid.Text.Split

/-!
The pieces of a recorded global state, and the one-line form of a whole state.
-/

namespace PhasedGrid.Snapshot

set_option autoImplicit false

/-- A node's own reading, or a message that was under way while a channel was recorded. -/
inductive Fragment where
  | gateway (source : String) (value : Float)
  | transit (value source destination : String)
  deriving DecidableEq, Repr

def Fragment.text : Fragment → String
  | .gateway _ value => Decimal.render Decimal.plain value
  | .transit value source destination =>
    value ++ "(from " ++ source ++ " to " ++ destination ++ ")"

/-- Fragments in their order of arrival, with commas between. -/
def consolidate (fragments : List Fragment) : String :=
  Text.join "," (fragments.map Fragment.text)

end PhasedGrid.Snapshot
