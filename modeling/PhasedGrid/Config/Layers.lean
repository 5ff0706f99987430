import PhasedGrid.Config.Reading
import PhasedGrid.Text.Split

/-!
Settings from a file and the environment, one laid over the other. Keys do not mind case, and
values are converted to what is asked for.
-/

namespace PhasedGrid.Config

set_option autoImplicit false

open PhasedGrid.Toml (Value Entries)

/-- A whole number nearest to a real, a half going away from zero, cut off at the bounds. -/
def roundAway (low high : Int) (x : Float) : Int :=
  match Decimal.Binary64.ofFloat x with
  | .nan => 0
  | .infinite negative => if negative then low else high
  | .finite negative m q =>
    let unit := Nat.pow 2 q.natAbs
    let size : Nat := if 0 ≤ q then m * unit else (2 * m + unit) / (2 * unit)
    max low (min high (if negative then -(size : Int) else size))

/-- Words that stand for a truth value, in any case. -/
def truthWord? (s : String) : Option Bool :=
  let word := Text.lowerAscii s
  if ["true", "on", "yes"].contains word then some true
  else if ["false", "off", "no"].contains word then some false
  else none

def truthNumber (b : Bool) : Nat := if b then 1 else 0

/-- Reads a value and converts it to the type that is asked for. -/
def converting : Scalars where
  text
    | .string s => some s
    | .integer n => some (Decimal.intText n)
    | .float x => some (Decimal.render Decimal.plain x)
    | .boolean b => some (if b then "true" else "false")
    | .moment s => some s
    | _ => none
  unsigned limit v :=
    Option.filter (· ≤ limit) <| match v with
      | .integer n => if 0 ≤ n then some n.toNat else none
      | .float x => some (roundAway 0 Decimal.maxU64 x).toNat
      | .boolean b => some (truthNumber b)
      | .string s => ((truthWord? s).map truthNumber).or (Decimal.unsigned? Decimal.maxU64 s)
      | _ => none
  signed
    | .integer n => some n
    | .float x => some (roundAway (-(Int.pow 2 63)) Decimal.maxI64 x)
    | .boolean b => some (truthNumber b)
    | .string s => ((truthWord? s).map fun b => (truthNumber b : Int)).or (Decimal.signed? Decimal.maxI64 s)
    | _ => none
  real
    | .integer n => some (Float.ofInt n)
    | .float x => some x
    | .boolean b => some (if b then 1.0 else 0.0)
    | .string s => ((truthWord? s).map fun b => if b then 1.0 else 0.0).or (Decimal.reading? s)
    | _ => none
  emptyDates := false

mutual

/-- The same tables with keys in lower case; lists stay as they are. -/
def lowerKeys : Value → Value
  | .table mark es => .table mark (lowerEntries es)
  | v => v

def lowerEntries : List (String × Value) → List (String × Value)
  | [] => []
  | (key, v) :: rest => (Text.lowerAscii key, lowerKeys v) :: lowerEntries rest

end

/-- Writes a value at a path; what is no table on the way gives way to one. -/
def setPath (v : Value) : List String → Entries → Entries
  | [], es => es
  | [key], es => Entries.put es key v
  | key :: path, es =>
    let sub := match Entries.get? es key with
      | some (.table _ sub) => sub
      | _ => []
    Entries.put es key (.table .passed (setPath v path sub))

/-- The value of an environment variable: a truth value or a number if it reads as one. -/
def environmentValue (listed : Bool) (s : String) : Value :=
  match Text.lowerAscii s with
  | "true" => .boolean true
  | "false" => .boolean false
  | _ =>
    match Decimal.signed? Decimal.maxI64 s with
    | some n => .integer n
    | none =>
      match Decimal.reading? s with
      | some x => .float x
      | none => if listed then .array ((Text.split ',' s).map .string) else .string s

/-- The characters that the parts of a path are made of. -/
def isPathChar (c : Char) : Bool := c.isAlphanum || c = '_' || c = '-' || c = ' '

/-- The path that a key stands for: its parts at the points, in lower case. A key that is no path
stands for itself. -/
def keyPath (key : String) : List String :=
  let parts := Text.split '.' (Text.lowerAscii key)
  if parts.all fun p => !p.isEmpty && p.toList.all isPathChar then parts else [Text.lowerAscii key]

/-- Double underscores read as points. -/
def pointed : List Char → List Char
  | '_' :: '_' :: rest => '.' :: pointed rest
  | c :: rest => c :: pointed rest
  | [] => []

/-- The path that an environment variable sets, if it is meant for the settings. -/
def environmentPath? (name : String) : Option (List String) :=
  (Text.afterStart? "dgi_" (Text.lowerAscii name)).map fun rest =>
    keyPath (String.ofList (pointed rest.toList))

/-- The keys of a document's outermost table may be paths. -/
def spread (es : Entries) : Entries :=
  es.foldl (fun es e => setPath (lowerKeys e.2) (keyPath e.1) es) []

/-- Lays one environment variable over the entries. -/
def overlay (es : Entries) (setting : String × String) : Entries :=
  match environmentPath? setting.1 with
  | none => es
  | some path => setPath (environmentValue (path = ["peers"]) setting.2) path es

/-- The entries of a document and of the environment over it. -/
def layered (document : Option String) (environment : List (String × String)) : Option Entries := do
  let base ← match document with
    | none => some []
    | some text => (Toml.read text).toOption.map spread
  return environment.foldl overlay base

/-- Settings from the text of a file, if one is used, and the environment. -/
def load (document : Option String) (environment : List (String × String)) :
    Except ConfigError Settings :=
  match (layered document environment).bind (settings? converting) with
  | none => .error .badSource
  | some s => s.admitted

end PhasedGrid.Config
