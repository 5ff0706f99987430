import PhasedGrid.Toml.Scalar

/-!
Whole documents: keys, arrays, inline tables, headers and the lines they stand on.
-/

namespace PhasedGrid.Toml

set_option autoImplicit false

/-- Arrays and inline tables may be nested this deep, and dotted keys have at most as many parts. -/
def depthLimit : Nat := 79

def skipBlanks (cs : Chars) : Chars := cs.dropWhile fun c => c = ' ' || c = '\t'

/-- A comment up to the end of its line, if one is next. -/
def skipComment (cs : Chars) : Option Chars :=
  match cs with
  | '#' :: rest =>
    let tail := rest.dropWhile fun c => !isControl c
    match tail with
    | [] => some []
    | _ => if (lineBreak? tail).isSome then some tail else none
  | _ => some cs

/-- Blanks, comments and line breaks between the parts of an array. -/
def skipLines : Nat → Chars → Option Chars
  | 0, _ => none
  | fuel + 1, cs =>
    match skipComment (skipBlanks cs) with
    | none => none
    | some rest =>
      match lineBreak? rest with
      | some next => skipLines fuel next
      | none => some rest

def isKeyChar (c : Char) : Bool := c.isAlphanum || c = '_' || c = '-'

/-- One part of a key: bare, or a string on one line. -/
def keyPart? (cs : Chars) : Option (String × Chars) :=
  match cs with
  | '"' :: rest => lineString? '"' [] cs.length rest
  | '\'' :: rest => lineString? '\'' [] cs.length rest
  | _ =>
    let word := cs.takeWhile isKeyChar
    if word.isEmpty then none else some (String.ofList word, cs.drop word.length)

/-- The parts of a dotted key, with blanks around the dots. -/
def key? : Nat → Chars → Option (List String × Chars)
  | 0, _ => none
  | fuel + 1, cs => do
    let (part, rest) ← keyPart? (skipBlanks cs)
    match skipBlanks rest with
    | '.' :: tail =>
      let (parts, rest) ← key? fuel tail
      return (part :: parts, rest)
    | rest => return ([part], rest)

mutual

/-- A value inside `depth` more levels of arrays and inline tables. -/
def value? (depth : Nat) (cs : Chars) : Option (Value × Chars) :=
  match cs with
  | '[' :: rest =>
    match depth with
    | 0 => none
    | depth + 1 => (items? depth [] rest.length rest).map fun r => (.array r.1, r.2)
  | '\x7b' :: rest =>
    match depth with
    | 0 => none
    | depth + 1 =>
      match skipBlanks rest with
      | '\x7d' :: tail => some (.table .inline [], tail)
      | start => (pairs? depth [] start.length start).map fun r => (.table .inline r.1, r.2)
  | '"' :: _ => (string? cs).map fun r => (.string r.1, r.2)
  | '\'' :: _ => (string? cs).map fun r => (.string r.1, r.2)
  | _ => bare? cs
termination_by (depth, 0)

/-- The items of an array up to its bracket. -/
def items? (depth : Nat) (acc : List Value) (fuel : Nat) (cs : Chars) :
    Option (List Value × Chars) :=
  match fuel with
  | 0 => none
  | fuel + 1 => do
    let cs ← skipLines (cs.length + 1) cs
    match cs with
    | ']' :: rest => return (acc.reverse, rest)
    | _ =>
      let (v, rest) ← value? depth cs
      let rest ← skipLines (rest.length + 1) rest
      match rest with
      | ',' :: rest => items? depth (v :: acc) fuel rest
      | ']' :: rest => return ((v :: acc).reverse, rest)
      | _ => none
termination_by (depth, fuel + 1)

/-- The pairs of an inline table up to its brace. -/
def pairs? (depth : Nat) (acc : Entries) (fuel : Nat) (cs : Chars) : Option (Entries × Chars) :=
  match fuel with
  | 0 => none
  | fuel + 1 => do
    let (parts, rest) ← key? depthLimit cs
    let rest ← expect? '=' rest
    let (v, rest) ← value? depth (skipBlanks rest)
    let acc ← (acc.assign (parts.getLast?.getD "") v parts.dropLast).toOption
    match skipBlanks rest with
    | ',' :: rest => pairs? depth acc fuel rest
    | '\x7d' :: rest => return (acc, rest)
    | _ => none
termination_by (depth, fuel + 1)

end

/-- One line of a document. -/
inductive Line where
  | empty
  | pair (path : List String) (key : String) (value : Value)
  | header (path : List String) (key : String)
  | listHeader (path : List String) (key : String)

/-- The end of a line: blanks, a comment, and a line break or the end of the document. -/
def lineEnd? (cs : Chars) : Option Chars :=
  match skipComment (skipBlanks cs) with
  | some [] => some []
  | some rest => lineBreak? rest
  | none => none

/-- The line that is next, and what follows it. -/
def line? (cs : Chars) : Option (Line × Chars) :=
  match skipBlanks cs with
  | '[' :: '[' :: rest => do
    let (parts, rest) ← key? depthLimit rest
    let rest ← expect? ']' (← expect? ']' rest)
    return (.listHeader parts.dropLast (parts.getLast?.getD ""), ← lineEnd? rest)
  | '[' :: rest => do
    let (parts, rest) ← key? depthLimit rest
    let rest ← expect? ']' rest
    return (.header parts.dropLast (parts.getLast?.getD ""), ← lineEnd? rest)
  | start =>
    match lineEnd? start with
    | some rest => some (.empty, rest)
    | none => do
      let (parts, rest) ← key? depthLimit start
      let (v, rest) ← value? depthLimit (skipBlanks (← expect? '=' rest))
      return (.pair parts.dropLast (parts.getLast?.getD "") v, ← lineEnd? rest)

/-- Adds the lines of `cs` to a document; `here` is the path of the table that pairs go to. -/
def lines? (root : Entries) (here : List String) : Nat → Chars → Except Fault Entries
  | 0, _ => .error .malformed
  | _ + 1, [] => .ok root
  | fuel + 1, cs =>
    match line? cs with
    | none => .error .malformed
    | some (.empty, rest) => lines? root here fuel rest
    | some (.pair path key v, rest) => do
      let root ← root.descend (Entries.assign key v path) here
      lines? root here fuel rest
    | some (.header path key, rest) => do
      let root ← root.descend (Entries.openTable key) path
      lines? root (path ++ [key]) fuel rest
    | some (.listHeader path key, rest) => do
      let root ← root.descend (Entries.appendTable key) path
      lines? root (path ++ [key]) fuel rest

/-- Reads a document; a byte order mark may stand in front. -/
def read (text : String) : Except Fault Entries :=
  let cs := match text.toList with
    | '\ufeff' :: rest => rest
    | cs => cs
  lines? [] [] (cs.length + 1) cs

end PhasedGrid.Toml
