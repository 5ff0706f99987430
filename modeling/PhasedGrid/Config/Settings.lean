import PhasedGrid.Snapshot.Agent
import PhasedGrid.Text.Blank

/-!
The settings of a node. Every one has a usable default, so that no configuration at all describes
a working node.
-/

namespace PhasedGrid.Config

set_option autoImplicit false

structure ModuleSetting where
  id : String
  phase : Nat
  deriving DecidableEq, Repr

/-- The schedule; all times are in milliseconds. -/
structure ScheduleSettings where
  alignment : Nat := 10000
  skew : Int := 0
  modules : List ModuleSetting := [⟨"gm", 400⟩, ⟨"sc", 400⟩, ⟨"lb", 400⟩]
  deriving DecidableEq, Repr

/-- A signal that is stored at the start. -/
structure SignalSetting where
  device : String
  signal : String
  value : Float
  deriving DecidableEq, Repr

structure DeviceSettings where
  specs : List String := []
  values : List SignalSetting := []
  deriving DecidableEq, Repr

structure Settings where
  uuid : Option String := none
  peers : List String := []
  schedule : ScheduleSettings := {}
  snapshot : Snapshot.Policy := {}
  devices : DeviceSettings := {}
  deriving DecidableEq, Repr

namespace Settings

/-- The configured name, unless it is blank. -/
def name? (s : Settings) : Option String :=
  s.uuid.filter fun u => !Text.isBlankText u

def alignmentSpan (s : Settings) : Span := .ofMillis s.schedule.alignment

def phaseSpans (s : Settings) : List Span := s.schedule.modules.map fun m => .ofMillis m.phase

def responseTimeoutSpan (s : Settings) : Span := .ofMillis s.snapshot.responseTimeout

end Settings

end PhasedGrid.Config
