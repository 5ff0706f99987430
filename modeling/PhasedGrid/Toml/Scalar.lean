import PhasedGrid.Decimal.Reading
import PhasedGrid.Toml.Value

/-!
Scalars of a document: strings in their four forms, numbers, truth values, dates and times. Each
reader takes the characters from a place on and returns what it read with the rest.
-/

namespace PhasedGrid.Toml

set_option autoImplicit false

abbrev Chars := List Char

/-- Characters that may not stand in a string or comment as they are. -/
def isControl (c : Char) : Bool := (c.toNat < 0x20 && c ≠ '\t') || c.toNat = 0x7f

/-- A line break, if one is next. -/
def lineBreak? : Chars → Option Chars
  | '\n' :: rest => some rest
  | '\r' :: '\n' :: rest => some rest
  | _ => none

def hexValue? (c : Char) : Option Nat :=
  if c.isDigit then some (c.toNat - '0'.toNat)
  else if 'a' ≤ c ∧ c ≤ 'f' then some (c.toNat - 'a'.toNat + 10)
  else if 'A' ≤ c ∧ c ≤ 'F' then some (c.toNat - 'A'.toNat + 10)
  else none

/-- A character given by exactly `count` hexadecimal digits. -/
def codePoint? (count : Nat) (cs : Chars) : Option (Char × Chars) := do
  let digits := cs.take count
  if digits.length ≠ count then none
  let n ← digits.foldlM (fun n c => (hexValue? c).map fun d => 16 * n + d) 0
  if n.isValidChar then some (Char.ofNat n, cs.drop count) else none

/-- The character behind a backslash. -/
def escape? : Chars → Option (Char × Chars)
  | 'b' :: rest => some ('\x08', rest)
  | 't' :: rest => some ('\t', rest)
  | 'n' :: rest => some ('\n', rest)
  | 'f' :: rest => some ('\x0c', rest)
  | 'r' :: rest => some ('\r', rest)
  | '"' :: rest => some ('"', rest)
  | '\\' :: rest => some ('\\', rest)
  | 'u' :: rest => codePoint? 4 rest
  | 'U' :: rest => codePoint? 8 rest
  | _ => none

/-- The rest of a string on one line up to its quote; escapes count only in double quotes. -/
def lineString? (quote : Char) (acc : Chars) : Nat → Chars → Option (String × Chars)
  | 0, _ => none
  | fuel + 1, cs =>
    match cs with
    | [] => none
    | c :: rest =>
      if c = quote then some (String.ofList acc.reverse, rest)
      else if c = '\\' ∧ quote = '"' then
        (escape? rest).bind fun e => lineString? quote (e.1 :: acc) fuel e.2
      else if isControl c then none
      else lineString? quote (c :: acc) fuel rest

/-- Behind a backslash at the end of a line: the blanks and line breaks that it swallows. -/
def swallow (started : Bool) : Chars → Option Chars
  | '\n' :: rest => swallow true rest
  | '\r' :: '\n' :: rest => swallow true rest
  | ' ' :: rest => swallow started rest
  | '\t' :: rest => swallow started rest
  | cs => if started then some cs else none

/-- The rest of a string over several lines up to its three quotes; up to two more quotes in front
of these belong to the text. -/
def blockString? (quote : Char) (acc : Chars) : Nat → Chars → Option (String × Chars)
  | 0, _ => none
  | fuel + 1, cs =>
    match cs with
    | [] => none
    | c :: rest =>
      if c = quote then
        let run := cs.takeWhile (· = quote)
        if run.length < 3 then blockString? quote (c :: acc) fuel rest
        else if 5 < run.length then none
        else
          some (String.ofList (List.replicate (run.length - 3) quote ++ acc).reverse,
            cs.drop run.length)
      else if c = '\\' ∧ quote = '"' then
        match swallow false rest with
        | some rest => blockString? quote acc fuel rest
        | none => (escape? rest).bind fun e => blockString? quote (e.1 :: acc) fuel e.2
      else
        match lineBreak? cs with
        | some rest => blockString? quote ('\n' :: acc) fuel rest
        | none => if isControl c then none else blockString? quote (c :: acc) fuel rest

/-- A string whose opening quotes are next. -/
def string? (cs : Chars) : Option (String × Chars) :=
  match cs with
  | '"' :: '"' :: '"' :: rest => blockString? '"' [] cs.length ((lineBreak? rest).getD rest)
  | '\'' :: '\'' :: '\'' :: rest => blockString? '\'' [] cs.length ((lineBreak? rest).getD rest)
  | '"' :: rest => lineString? '"' [] cs.length rest
  | '\'' :: rest => lineString? '\'' [] cs.length rest
  | _ => none

/-- Digits with single underscores between them, without the underscores. -/
def spaced? (isDigit : Char → Bool) : Chars → Option Chars
  | [] => none
  | [c] => if isDigit c then some [c] else none
  | c :: '_' :: d :: rest =>
    if isDigit c ∧ isDigit d then (spaced? isDigit (d :: rest)).map (c :: ·) else none
  | c :: d :: rest => if isDigit c then (spaced? isDigit (d :: rest)).map (c :: ·) else none

/-- Digits without a superfluous zero in front. -/
def wholePart? (cs : Chars) : Option Chars :=
  match spaced? Char.isDigit cs with
  | some ('0' :: _ :: _) => none
  | digits => digits

def radix? (radix : Nat) (cs : Chars) : Option Nat :=
  let small (c : Char) : Bool := (hexValue? c).any (· < radix)
  (spaced? small cs).bind fun ds => ds.foldlM (fun n c => (hexValue? c).map fun d => radix * n + d) 0

/-- Integers lie in the signed 64-bit range. -/
def bounded? (n : Int) : Option Value :=
  let limit := Int.pow 2 63
  if -limit ≤ n ∧ n < limit then some (.integer n) else none

/-- The digits of a float: a whole part, then a fraction or an exponent or both. -/
def floatDigits? (cs : Chars) : Option Chars := do
  let isMark (c : Char) : Bool := c = 'e' || c = 'E'
  let size := cs.takeWhile fun c => !isMark c
  let tail := cs.dropWhile fun c => !isMark c
  let whole ← wholePart? (size.takeWhile (· ≠ '.'))
  let back ← match size.dropWhile (· ≠ '.') with
    | [] => some []
    | _ :: ds => (spaced? Char.isDigit ds).map ('.' :: ·)
  let exponent ← match tail with
    | [] => some []
    | _ :: '-' :: ds => (spaced? Char.isDigit ds).map fun ds => 'e' :: '-' :: ds
    | _ :: '+' :: ds => (spaced? Char.isDigit ds).map ('e' :: ·)
    | _ :: ds => (spaced? Char.isDigit ds).map ('e' :: ·)
  if back.isEmpty && exponent.isEmpty then none else some (whole ++ back ++ exponent)

/-- Only numbers above the range are refused; those below it are infinite. -/
def inRange? : Decimal.Binary64 → Option Value
  | .infinite false => none
  | x => some (.float x.toFloat)

/-- A number without its sign. -/
def unsignedNumber? (negative : Bool) (cs : Chars) : Option Value :=
  match wholePart? cs with
  | some ds =>
    (Decimal.natural? ds).bind fun n => bounded? (if negative then -(n : Int) else n)
  | none =>
    match String.ofList cs with
    | "inf" => some (.float (Decimal.Binary64.infinite negative).toFloat)
    | "nan" => some (.float Decimal.Binary64.nan.toFloat)
    | _ =>
      (floatDigits? cs).bind fun ds => (Decimal.unsignedReading? negative ds).bind inRange?

def number? : Chars → Option Value
  | '-' :: rest => unsignedNumber? true rest
  | '+' :: rest => unsignedNumber? false rest
  | '0' :: 'x' :: rest => (radix? 16 rest).bind fun n => bounded? n
  | '0' :: 'o' :: rest => (radix? 8 rest).bind fun n => bounded? n
  | '0' :: 'b' :: rest => (radix? 2 rest).bind fun n => bounded? n
  | cs => unsignedNumber? false cs

/-- A number of exactly `count` digits between two bounds, with the rest. -/
def field? (count low high : Nat) (cs : Chars) : Option (Nat × Chars) := do
  let digits := cs.take count
  if digits.length ≠ count ∨ !digits.all Char.isDigit then none
  let n ← Decimal.natural? digits
  if low ≤ n ∧ n ≤ high then some (n, cs.drop count) else none

def expect? (c : Char) : Chars → Option Chars
  | d :: rest => if d = c then some rest else none
  | [] => none

def daysInMonth (year month : Nat) : Nat :=
  if month = 2 then
    if year % 4 = 0 ∧ (year % 100 ≠ 0 ∨ year % 400 = 0) then 29 else 28
  else if [4, 6, 9, 11].contains month then 30
  else 31

def date? (cs : Chars) : Option (Chars × Chars) := do
  let (year, rest) ← field? 4 0 9999 cs
  let (month, rest) ← field? 2 1 12 (← expect? '-' rest)
  let (_, rest) ← field? 2 1 (daysInMonth year month) (← expect? '-' rest)
  return (cs.take 10, rest)

/-- The digits behind the point of a second, in nanoseconds and without zeros at the end. -/
def fractionText (digits : Chars) : Chars :=
  match ((digits.take 9).reverse.dropWhile (· = '0')).reverse with
  | [] => []
  | ds => '.' :: ds

def time? (cs : Chars) : Option (Chars × Chars) := do
  let (_, rest) ← field? 2 0 23 cs
  let (_, rest) ← field? 2 0 59 (← expect? ':' rest)
  let (_, rest) ← field? 2 0 60 (← expect? ':' rest)
  match rest with
  | '.' :: tail =>
    let digits := tail.takeWhile Char.isDigit
    if digits.isEmpty then none
    else some (cs.take 8 ++ fractionText digits, tail.drop digits.length)
  | _ => some (cs.take 8, rest)

/-- The offset of a time from UTC; nothing if there is none. No offset counts as positive. -/
def offset? (cs : Chars) : Option (Chars × Chars) :=
  match cs with
  | 'Z' :: rest => some (['Z'], rest)
  | 'z' :: rest => some (['Z'], rest)
  | sign :: rest =>
    if sign = '+' ∨ sign = '-' then do
      let (hour, tail) ← field? 2 0 23 rest
      let (minute, tail) ← field? 2 0 59 (← expect? ':' tail)
      return ((if hour = 0 ∧ minute = 0 then '+' else sign) :: rest.take 5, tail)
    else some ([], cs)
  | [] => some ([], [])

/-- A date, a time, or both with a `T` or a blank between. -/
def moment? (cs : Chars) : Option (Value × Chars) :=
  let found (text rest : Chars) : Option (Value × Chars) :=
    some (.moment (String.ofList text), rest)
  match date? cs with
  | none => (time? cs).bind fun t => found t.1 t.2
  | some (date, sep :: rest) =>
    if sep = 'T' ∨ sep = 't' ∨ (sep = ' ' ∧ rest.head?.any Char.isDigit) then do
      let (time, rest) ← time? rest
      let (zone, rest) ← offset? rest
      found (date ++ 'T' :: time ++ zone) rest
    else found date (sep :: rest)
  | some (date, []) => found date []

/-- The characters that a bare number, truth value or date is made of. -/
def isBare (c : Char) : Bool :=
  c.isAlphanum || c = '_' || c = '-' || c = '+' || c = '.' || c = ':'

/-- Dates and times start like a number but have a dash or a colon in a fixed place. -/
def looksLikeMoment (cs : Chars) : Bool :=
  let digits := cs.takeWhile Char.isDigit
  match cs.drop digits.length with
  | '-' :: _ => digits.length = 4
  | ':' :: _ => digits.length = 2
  | _ => false

/-- A scalar that is not a string. -/
def bare? (cs : Chars) : Option (Value × Chars) :=
  if looksLikeMoment cs then moment? cs
  else
    let word := cs.takeWhile isBare
    let rest := cs.drop word.length
    match String.ofList word with
    | "true" => some (.boolean true, rest)
    | "false" => some (.boolean false, rest)
    | _ => (number? word).map fun v => (v, rest)

end PhasedGrid.Toml
