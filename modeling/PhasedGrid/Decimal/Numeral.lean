/-!
Whole numbers as decimal text. Reading takes an optional sign and ASCII digits, nothing else, and
refuses what lies outside the given bounds.
-/

namespace PhasedGrid.Decimal

set_option autoImplicit false

/-- The value of a digit, none for any other character. -/
def digit? (c : Char) : Option Nat :=
  if c.isDigit then some (c.toNat - '0'.toNat) else none

/-- The value of a non-empty run of digits behind those that make up `acc`. -/
def readDigits? (acc : Nat) : List Char → Option Nat
  | [] => some acc
  | c :: rest => (digit? c).bind fun d => readDigits? (10 * acc + d) rest

/-- A run of at least one digit. -/
def natural? : List Char → Option Nat
  | [] => none
  | cs => readDigits? 0 cs

/-- An unsigned number up to `limit`; a plus sign may stand in front. -/
def unsigned? (limit : Nat) (s : String) : Option Nat :=
  let digits := match s.toList with
    | '+' :: rest => rest
    | cs => cs
  (natural? digits).filter (· ≤ limit)

/-- A signed number from `-limit - 1` to `limit`; a sign may stand in front. -/
def signed? (limit : Nat) (s : String) : Option Int :=
  match s.toList with
  | '-' :: rest => ((natural? rest).filter (· ≤ limit + 1)).map fun n => -(n : Int)
  | '+' :: rest => ((natural? rest).filter (· ≤ limit)).map Int.ofNat
  | cs => ((natural? cs).filter (· ≤ limit)).map Int.ofNat

/-- The decimal digits of a number, most significant first. -/
def natText (n : Nat) : String := String.ofList (Nat.toDigits 10 n)

def intText : Int → String
  | .ofNat n => natText n
  | .negSucc n => "-" ++ natText (n + 1)

/-- The largest values of the unsigned and signed 64-bit and of the unsigned 32-bit words. -/
def maxU64 : Nat := Nat.pow 2 64 - 1
def maxI64 : Nat := Nat.pow 2 63 - 1
def maxU32 : Nat := Nat.pow 2 32 - 1

end PhasedGrid.Decimal
