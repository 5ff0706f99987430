import PhasedGrid.Config.Validation
import PhasedGrid.Toml.Document

/-!
Settings from the values of a document. How a single value is read is left open: strictly by its
type, or with conversions.
-/

namespace PhasedGrid.Config

set_option autoImplicit false

open PhasedGrid.Toml (Value Entries)

/-- The readers of single values; none means that the value does not fit. -/
structure Scalars where
  text : Value → Option String
  unsigned : Nat → Value → Option Nat
  signed : Value → Option Int
  real : Value → Option Float
  /-- Whether a date can stand for a record without fields. -/
  emptyDates : Bool

/-- Reads a value that has to be of the right type; whole numbers pass as reals. -/
def strict : Scalars where
  text
    | .string s => some s
    | _ => none
  unsigned limit
    | .integer n => if 0 ≤ n ∧ n ≤ limit then some n.toNat else none
    | _ => none
  signed
    | .integer n => some n
    | _ => none
  real
    | .integer n => some (Float.ofInt n)
    | .float x => some x
    | _ => none
  emptyDates := true

/-- The named fields of a record. An array gives them by position. -/
def fields? (r : Scalars) (names : List String) : Value → Option (List (Option Value))
  | .table _ es => some (names.map (Entries.get? es))
  | .array items => some ((List.range names.length).map fun i => items[i]?)
  | .tables items => some ((List.range names.length).map fun i => items[i]?.map (.table .headed))
  | .moment _ => if r.emptyDates then some (names.map fun _ => none) else none
  | _ => none

def items? : Value → Option (List Value)
  | .array items => some items
  | .tables items => some (items.map (.table .headed))
  | _ => none

/-- A field that may be left out. -/
def orDefault {α : Type} (read : Value → Option α) (default : α) : Option Value → Option α
  | none => some default
  | some v => read v

def listOf? {α : Type} (read : Value → Option α) (v : Value) : Option (List α) :=
  (items? v).bind fun vs => vs.mapM read

def module? (r : Scalars) (v : Value) : Option ModuleSetting :=
  match fields? r ["id", "phase_ms"] v with
  | some [some id, some phase] => do
    return ⟨← r.text id, ← r.unsigned Decimal.maxU64 phase⟩
  | _ => none

def signal? (r : Scalars) (v : Value) : Option SignalSetting :=
  match fields? r ["device", "signal", "value"] v with
  | some [some device, some signal, some value] => do
    return ⟨← r.text device, ← r.text signal, ← r.real value⟩
  | _ => none

def schedule? (r : Scalars) (v : Value) : Option ScheduleSettings :=
  let d : ScheduleSettings := {}
  match fields? r ["alignment_interval_ms", "clock_skew_ms", "modules"] v with
  | some [alignment, skew, modules] => do
    return {
      alignment := ← orDefault (r.unsigned Decimal.maxU64) d.alignment alignment
      skew := ← orDefault r.signed d.skew skew
      modules := ← orDefault (listOf? (module? r)) d.modules modules }
  | _ => none

def policy? (r : Scalars) (v : Value) : Option Snapshot.Policy :=
  let d : Snapshot.Policy := {}
  match fields? r ["response_timeout_ms", "response_extensions", "gateway_device_type",
      "gateway_signal"] v with
  | some [timeout, extensions, cls, signal] => do
    return {
      responseTimeout := ← orDefault (r.unsigned Decimal.maxU64) d.responseTimeout timeout
      extensions := ← orDefault (r.unsigned Decimal.maxU32) d.extensions extensions
      deviceClass := ← orDefault r.text d.deviceClass cls
      signal := ← orDefault r.text d.signal signal }
  | _ => none

def devices? (r : Scalars) (v : Value) : Option DeviceSettings :=
  match fields? r ["specs", "values"] v with
  | some [specs, values] => do
    return {
      specs := ← orDefault (listOf? r.text) [] specs
      values := ← orDefault (listOf? (signal? r)) [] values }
  | _ => none

def settings? (r : Scalars) (root : Entries) : Option Settings := do
  return {
    uuid := ← orDefault (fun v => (r.text v).map some) none (Entries.get? root "uuid")
    peers := ← orDefault (listOf? r.text) [] (Entries.get? root "peers")
    schedule := ← orDefault (schedule? r) {} (Entries.get? root "scheduler")
    snapshot := ← orDefault (policy? r) {} (Entries.get? root "snapshot")
    devices := ← orDefault (devices? r) {} (Entries.get? root "devices") }

/-- Settings from a document whose values have the right types. -/
def ofDocument (text : String) : Except ConfigError Settings :=
  match (Toml.read text).toOption.bind (settings? strict) with
  | none => .error .badDocument
  | some s => s.admitted

end PhasedGrid.Config
