import PhasedGrid.Decimal.Numeral
import PhasedGrid.Decimal.Shortest

/-!
Readings as decimal text: written positionally with the fewest digits that read back, and read by
rounding to the nearest number.
-/

namespace PhasedGrid.Decimal

set_option autoImplicit false

/-- How a number is laid out: the mark of a whole number and the name of not-a-number. -/
structure Layout where
  whole : String
  nan : String

/-- Readings in messages and listings: whole numbers stand bare. -/
def plain : Layout := ⟨"", "NaN"⟩

/-- Readings in configuration files: whole numbers keep a decimal place. -/
def tabular : Layout := ⟨".0", "nan"⟩

/-- A decimal without exponent; `whole` follows when nothing stands behind the point. -/
def Scaled.positional (whole : String) (d : Scaled) : String :=
  let ds := Nat.toDigits 10 d.digits
  if 0 ≤ d.exponent then
    String.ofList ((if d.digits = 0 then ['0'] else ds ++ List.replicate d.exponent.toNat '0')) ++ whole
  else
    let places := (-d.exponent).toNat
    let ds := List.replicate (places + 1 - ds.length) '0' ++ ds
    let front := ds.take (ds.length - places)
    let back := ((ds.drop (ds.length - places)).reverse.dropWhile (· = '0')).reverse
    String.ofList front ++ if back.isEmpty then whole else "." ++ String.ofList back

def Binary64.render (layout : Layout) : Binary64 → String
  | .nan => layout.nan
  | .infinite negative => if negative then "-inf" else "inf"
  | .finite negative m q =>
    let size := if m = 0 then Scaled.positional layout.whole ⟨0, 0⟩
      else (shortest m q).positional layout.whole
    if negative then "-" ++ size else size

def render (layout : Layout) (x : Float) : String :=
  (Binary64.ofFloat x).render layout

/-- The digits in front of and behind the point and the exponent of a decimal fraction. -/
structure Fraction where
  front : List Char
  back : List Char
  exponent : Int

/-- The exponent after its letter: an optional sign and at least one digit. -/
def exponent? : List Char → Option Int
  | '-' :: rest => (natural? rest).map fun n => -(n : Int)
  | '+' :: rest => (natural? rest).map Int.ofNat
  | cs => (natural? cs).map Int.ofNat

/-- Digits with an optional point, at least one digit, then an optional exponent. -/
def fraction? (cs : List Char) : Option Fraction :=
  let front := cs.takeWhile Char.isDigit
  let rest := cs.dropWhile Char.isDigit
  let (back, rest) := match rest with
    | '.' :: tail => (tail.takeWhile Char.isDigit, tail.dropWhile Char.isDigit)
    | _ => ([], rest)
  if front.isEmpty && back.isEmpty then none
  else
    match rest with
    | [] => some ⟨front, back, 0⟩
    | e :: tail =>
      if e = 'e' ∨ e = 'E' then (exponent? tail).map fun n => ⟨front, back, n⟩ else none

/-- The nearest number to a decimal fraction; beyond 10 ^ 400 and below 10 ^ -400 the digits do
not matter any more. -/
def Fraction.nearest (negative : Bool) (f : Fraction) : Binary64 :=
  let digits := (readDigits? 0 (f.front ++ f.back)).getD 0
  let exponent := f.exponent - f.back.length
  let size : Int := (Nat.toDigits 10 digits).length + exponent
  if digits = 0 then .finite negative 0 (-1074)
  else if 400 < size then .infinite negative
  else if size < -400 then .finite negative 0 (-1074)
  else if 0 ≤ exponent then Binary64.nearest negative (digits * Nat.pow 10 exponent.toNat) 1
  else Binary64.nearest negative digits (Nat.pow 10 (-exponent).toNat)

/-- A number without its sign: a decimal fraction, or a name in any case. -/
def unsignedReading? (negative : Bool) (cs : List Char) : Option Binary64 :=
  let name := String.ofList (cs.map Char.toLower)
  if name = "inf" ∨ name = "infinity" then some (.infinite negative)
  else if name = "nan" then some .nan
  else (fraction? cs).map (Fraction.nearest negative)

def binary64? : List Char → Option Binary64
  | '-' :: rest => unsignedReading? true rest
  | '+' :: rest => unsignedReading? false rest
  | cs => unsignedReading? false cs

/-- Reads a number; the whole text has to be one. -/
def reading? (s : String) : Option Float :=
  (binary64? s.toList).map Binary64.toFloat

end PhasedGrid.Decimal
