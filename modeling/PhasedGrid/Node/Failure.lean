import PhasedGrid.Config.Validation
import PhasedGrid.Schedule.Show
import PhasedGrid.Snapshot.Show

/-!
Why a node cannot be started or has not ended well.
-/

namespace PhasedGrid.Node

set_option autoImplicit false

inductive Failure where
  | config (e : Config.ConfigError)
  | device (e : Device.DeviceError)
  | scheduler
  | snapshot (e : Snapshot.WireError)
  | taskLost (task reason : String)
  deriving DecidableEq, Repr

namespace Failure

def message : Failure → String
  | .config e => "configuration error: " ++ e.message
  | .device e => "device error: " ++ e.message
  | .scheduler => "scheduler error: " ++ Schedule.stoppedText
  | .snapshot e => "state collection error: " ++ Snapshot.malformed e
  | .taskLost task reason => "task " ++ task ++ " failed: " ++ reason

/-- Whether the configuration has to change before another attempt. -/
def needsOperator : Failure → Bool
  | .config _ => true
  | .device _ => true
  | _ => false

end Failure

end PhasedGrid.Node
