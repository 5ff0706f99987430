import PhasedGrid.Decimal.Reading
import PhasedGrid.Text.Split
import PhasedGrid.Toml.Scalar

/-!
Scalars and lists as they are written: a string takes the first of its forms that needs no escapes.
-/

namespace PhasedGrid.Toml

set_option autoImplicit false

/-- The longest run of `c`. -/
def longestRun (c : Char) (cs : Chars) : Nat :=
  (cs.foldl (fun (best, run) d => if d = c then (max best (run + 1), run + 1) else (best, 0))
    (0, 0)).1

def unicodeEscape (c : Char) : Chars :=
  let digits := (Nat.toDigits 16 c.toNat).map Char.toUpper
  '\\' :: 'u' :: List.replicate (4 - digits.length) '0' ++ digits

/-- A character inside double quotes that is no quote and no line break. -/
def escapeChar (c : Char) : Chars :=
  if c = '\x08' then ['\\', 'b']
  else if c = '\t' then ['\\', 't']
  else if c = '\x0c' then ['\\', 'f']
  else if c = '\r' then ['\\', 'r']
  else if c = '\\' then ['\\', '\\']
  else if c.toNat < 0x20 ∨ c.toNat = 0x7f then unicodeEscape c
  else [c]

/-- The text inside double quotes; of quotes in a row each one, or each third, is escaped. -/
def escapeText (block : Bool) (run : Nat) : Chars → Chars
  | [] => []
  | '"' :: rest =>
    if !block ∨ run = 2 then '\\' :: '"' :: escapeText block 0 rest
    else '"' :: escapeText block (run + 1) rest
  | '\n' :: rest => (if block then ['\n'] else ['\\', 'n']) ++ escapeText block 0 rest
  | c :: rest => escapeChar c ++ escapeText block 0 rest

def writeString (s : String) : String :=
  let cs := s.toList
  let broken := cs.contains '\n'
  let printable := cs.all fun c => !isControl c || c = '\n'
  let start := if broken then "\n" else ""
  if printable && !broken && !cs.contains '\\' && !cs.contains '"' then
    "\"" ++ String.ofList (escapeText false 0 cs) ++ "\""
  else if printable && !broken && !cs.contains '\'' then "'" ++ s ++ "'"
  else if printable && !cs.contains '\\' && longestRun '"' cs ≤ 2 then
    "\"\"\"" ++ start ++ String.ofList (escapeText true 0 cs) ++ "\"\"\""
  else if printable && longestRun '\'' cs ≤ 2 then "'''" ++ start ++ s ++ "'''"
  else if broken then "\"\"\"" ++ start ++ String.ofList (escapeText true 0 cs) ++ "\"\"\""
  else "\"" ++ String.ofList (escapeText false 0 cs) ++ "\""

/-- A list of strings: up to one item on one line, more of them on a line each. -/
def writeStrings (xs : List String) : String :=
  match xs with
  | [] => "[]"
  | [x] => "[" ++ writeString x ++ "]"
  | _ => "[\n" ++ String.join (xs.map fun x => "    " ++ writeString x ++ ",\n") ++ "]"

/-- A line with a key and what stands behind it. -/
def writePair (key value : String) : String := key ++ " = " ++ value ++ "\n"

end PhasedGrid.Toml
