import PhasedGrid.Table
import PhasedGrid.Text.Split

/-!
The devices of a node and the signals stored for them. Devices are named and of a class; a signal
may be stored for a device that does not exist.
-/

namespace PhasedGrid.Device

set_option autoImplicit false

inductive DeviceError where
  | duplicateClass (name : String)
  | unknownClass (name : String)
  | duplicateDevice (id : String)
  | badSpec (spec : String)
  | missingType (spec : String)
  deriving DecidableEq, Repr

def DeviceError.message : DeviceError → String
  | .duplicateClass name => "device class " ++ name ++ " is already registered"
  | .unknownClass name => "device of unregistered type " ++ name
  | .duplicateDevice id => "duplicate device " ++ id
  | .badSpec spec => "incorrect device specification: " ++ spec
  | .missingType spec => "no type specified for device " ++ spec

/-- The stored signals, by device and name. -/
abbrev Signals := Table String (Table String Float)

namespace Signals

def get? (s : Signals) (device signal : String) : Option Float :=
  (Table.get? device s).bind (Table.get? signal)

def put (s : Signals) (device signal : String) (value : Float) : Signals :=
  Table.insert device (Table.insert signal value ((Table.get? device s).getD [])) s

def size (s : Signals) : Nat := (List.map (fun e => e.2.length) s).foldr (· + ·) 0

end Signals

/-- The classes that devices can be made of from the start. -/
def builtinClasses : List String := ["Sst", "Drer", "Desd", "Load", "Fid"]

/-- What a class makes when it is asked for a device of a name: a device with its name and class. -/
abbrev Maker := String → String → String × String

/-- Devices of the class and the name that are asked for. -/
def Maker.asAsked : Maker := fun cls id => (id, cls)

/-- Devices with their classes in order of name, the known classes, and the stored signals. -/
structure Inventory where
  classes : List String := []
  devices : Table String String := []
  signals : Signals := []
  deriving DecidableEq, Repr

namespace Inventory

def builtin : Inventory := { classes := Ordered.ofList builtinClasses }

def hasClass (v : Inventory) (name : String) : Bool := v.classes.contains name

def has (v : Inventory) (id : String) : Bool := Table.has id v.devices

def registerClass (v : Inventory) (name : String) : Except DeviceError Inventory :=
  if v.hasClass name then .error (.duplicateClass name)
  else .ok { v with classes := Ordered.insert name v.classes }

/-- Adds a device of any class, known or not. -/
def add (v : Inventory) (id cls : String) : Except DeviceError Inventory :=
  if v.has id then .error (.duplicateDevice id)
  else .ok { v with devices := Table.insert id cls v.devices }

/-- Adds the device that a known class makes. -/
def createBy (make : Maker) (v : Inventory) (id cls : String) :
    Except DeviceError ((String × String) × Inventory) :=
  if v.hasClass cls then
    let device := make cls id
    (v.add device.1 device.2).map fun v => (device, v)
  else .error (.unknownClass cls)

/-- Adds a device of a known class. -/
def create (v : Inventory) (id cls : String) : Except DeviceError Inventory :=
  (v.createBy .asAsked id cls).map Prod.snd

/-- Adds the device of a specification `name:class`. -/
def createSpec (make : Maker) (v : Inventory) (spec : String) :
    Except DeviceError ((String × String) × Inventory) :=
  match Text.cut? ':' spec with
  | none => .error (.badSpec spec)
  | some (id, cls) =>
    if v.has id then .error (.duplicateDevice spec)
    else if cls.isEmpty then .error (.missingType spec)
    else v.createBy make id cls

/-- Adds devices one after the other and stops at the first error; what was added stays. -/
def createAllBy (make : Maker) (v : Inventory) :
    List String → Except DeviceError (List (String × String)) × Inventory
  | [] => (.ok [], v)
  | spec :: rest =>
    match v.createSpec make spec with
    | .error e => (.error e, v)
    | .ok (device, v) =>
      let (made, v) := v.createAllBy make rest
      (made.map (device :: ·), v)

/-- Adds devices of known classes by their specifications. -/
def createAll (v : Inventory) (specs : List String) :
    Except DeviceError (List (String × String)) × Inventory :=
  v.createAllBy .asAsked specs

def remove (v : Inventory) (id : String) : Inventory :=
  { v with devices := Table.erase id v.devices }

def put (v : Inventory) (device signal : String) (value : Float) : Inventory :=
  { v with signals := v.signals.put device signal value }

/-- The names of the devices of a class, in order. -/
def ofClass (v : Inventory) (cls : String) : List String :=
  (v.devices.filter fun e => e.2 = cls).map Prod.fst

/-- The stored readings of a signal over a class, in order of device name. -/
def readings (v : Inventory) (cls signal : String) : List Float :=
  (v.ofClass cls).filterMap fun id => v.signals.get? id signal

/-- The sum of a signal over a class, added up from -0, the neutral element of addition. -/
def total (v : Inventory) (cls signal : String) : Float :=
  (v.readings cls signal).foldl (· + ·) (-0.0)

end Inventory

end PhasedGrid.Device
