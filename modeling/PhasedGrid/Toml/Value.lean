/-!
Values of a configuration document, with the marks that tell how a table came into being.
-/

namespace PhasedGrid.Toml

set_option autoImplicit false

/-- How a table was made: on the way to a header or a dotted key, by its own header, or inline. -/
inductive Mark where
  | passed
  | dotted
  | headed
  | inline
  deriving DecidableEq, Repr

/-- Dates and times are kept as text. `tables` is a list that grows by one header each. -/
inductive Value where
  | string (text : String)
  | integer (n : Int)
  | float (x : Float)
  | boolean (b : Bool)
  | moment (text : String)
  | array (items : List Value)
  | table (mark : Mark) (entries : List (String × Value))
  | tables (items : List (List (String × Value)))
  deriving Inhabited

abbrev Entries := List (String × Value)

def Entries.get? (es : Entries) (key : String) : Option Value :=
  (List.find? (fun e => e.1 = key) es).map Prod.snd

/-- Writes an entry, in place if the key is there. -/
def Entries.put (es : Entries) (key : String) (v : Value) : Entries :=
  if List.any es fun e => e.1 = key then
    List.map (fun e => if e.1 = key then (key, v) else e) es
  else es ++ [(key, v)]

/-- What went wrong with a document; the texts of such failures are not part of the library. -/
inductive Fault where
  | malformed
  | duplicateKey
  deriving DecidableEq, Repr

/-- Writes an entry; a key may be written once. -/
def Entries.add (key : String) (v : Value) (es : Entries) : Except Fault Entries :=
  if (es.get? key).isSome then .error .duplicateKey else .ok (es.put key v)

/-- Adds an entry below a path of dotted keys. The path may pass through tables without a header of
their own and into the last table of a list, but it has to end in a table made by dotted keys. -/
def Entries.assign (key : String) (v : Value) :
    List String → Entries → Except Fault Entries
  | [], es => es.add key v
  | [last], es =>
    match es.get? last with
    | none => .ok (es.put last (.table .dotted [(key, v)]))
    | some (.table .dotted sub) => (Entries.add key v sub).map fun sub => es.put last (.table .dotted sub)
    | some _ => .error .duplicateKey
  | first :: path, es =>
    match es.get? first with
    | none => (Entries.assign key v path []).map fun sub => es.put first (.table .dotted sub)
    | some (.table .dotted sub) =>
      (Entries.assign key v path sub).map fun sub => es.put first (.table .dotted sub)
    | some (.table .passed sub) =>
      (Entries.assign key v path sub).map fun sub => es.put first (.table .passed sub)
    | some (.tables items) =>
      (Entries.assign key v path (items.getLast?.getD [])).map fun sub =>
        es.put first (.tables (items.dropLast ++ [sub]))
    | some _ => .error .duplicateKey

/-- Applies `f` to the table that a header's path leads to; tables on the way are made if they are
missing, and of a list of tables the last one counts. -/
def Entries.descend (f : Entries → Except Fault Entries) :
    List String → Entries → Except Fault Entries
  | [], es => f es
  | first :: path, es =>
    match es.get? first with
    | none => (Entries.descend f path []).map fun sub => es.put first (.table .passed sub)
    | some (.table .inline _) => .error .duplicateKey
    | some (.table mark sub) =>
      (Entries.descend f path sub).map fun sub => es.put first (.table mark sub)
    | some (.tables items) =>
      match items.getLast? with
      | none => .error .duplicateKey
      | some last =>
        (Entries.descend f path last).map fun sub =>
          es.put first (.tables (items.dropLast ++ [sub]))
    | some _ => .error .duplicateKey

/-- A header opens a table that is new or has only been passed on the way to another one. -/
def Entries.openTable (key : String) (es : Entries) : Except Fault Entries :=
  match es.get? key with
  | none => .ok (es.put key (.table .headed []))
  | some (.table .passed sub) => .ok (es.put key (.table .headed sub))
  | some _ => .error .duplicateKey

/-- A double header appends a table to a list that only such headers made. -/
def Entries.appendTable (key : String) (es : Entries) : Except Fault Entries :=
  match es.get? key with
  | none => .ok (es.put key (.tables [[]]))
  | some (.tables items) => .ok (es.put key (.tables (items ++ [[]])))
  | some _ => .error .duplicateKey

end PhasedGrid.Toml
