import PhasedGrid.Config.Validation
import PhasedGrid.Toml.Writing

/-!
Settings as a document. Plain values of a table come before its lists of tables.
-/

namespace PhasedGrid.Config

set_option autoImplicit false

open PhasedGrid.Toml (writePair writeString writeStrings)

/-- A table with its header; an empty line stands in front. -/
def tableText (header : String) (pairs : List String) : String :=
  "\n" ++ header ++ "\n" ++ String.join pairs

/-- The pair that stands for a list of tables without any. -/
def emptyList (key : String) (isEmpty : Bool) : List String :=
  if isEmpty then [writePair key "[]"] else []

def writeModule (m : ModuleSetting) : String :=
  tableText "[[scheduler.modules]]"
    [writePair "id" (writeString m.id), writePair "phase_ms" (Decimal.natText m.phase)]

def writeSchedule (s : ScheduleSettings) : String :=
  tableText "[scheduler]"
    ([writePair "alignment_interval_ms" (Decimal.natText s.alignment),
      writePair "clock_skew_ms" (Decimal.intText s.skew)] ++ emptyList "modules" s.modules.isEmpty)
    ++ String.join (s.modules.map writeModule)

def writePolicy (p : Snapshot.Policy) : String :=
  tableText "[snapshot]"
    [writePair "response_timeout_ms" (Decimal.natText p.responseTimeout),
      writePair "response_extensions" (Decimal.natText p.extensions),
      writePair "gateway_device_type" (writeString p.deviceClass),
      writePair "gateway_signal" (writeString p.signal)]

def writeSignal (v : SignalSetting) : String :=
  tableText "[[devices.values]]"
    [writePair "device" (writeString v.device), writePair "signal" (writeString v.signal),
      writePair "value" (Decimal.render Decimal.tabular v.value)]

def writeDevices (d : DeviceSettings) : String :=
  tableText "[devices]"
    (writePair "specs" (writeStrings d.specs) :: emptyList "values" d.values.isEmpty)
    ++ String.join (d.values.map writeSignal)

/-- Whole numbers of a document are signed, so larger ones cannot be written. -/
def isWritable (s : Settings) : Bool :=
  s.schedule.alignment ≤ Decimal.maxI64 && s.snapshot.responseTimeout ≤ Decimal.maxI64
    && s.schedule.modules.all fun m => m.phase ≤ Decimal.maxI64

def render (s : Settings) : Except ConfigError String :=
  if isWritable s then
    .ok ((s.uuid.elim "" fun u => writePair "uuid" (writeString u))
      ++ writePair "peers" (writeStrings s.peers)
      ++ writeSchedule s.schedule ++ writePolicy s.snapshot ++ writeDevices s.devices)
  else .error .unwritable

end PhasedGrid.Config
