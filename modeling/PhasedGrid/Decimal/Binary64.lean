/-!
Binary64 numbers taken apart: sign, significand and exponent of a word, and the word of these. A
quotient of naturals is rounded to the nearest finite number, an exact half to the even one.
-/

namespace PhasedGrid.Decimal

set_option autoImplicit false

/-- What a 64-bit word stands for; a finite number is `±significand * 2 ^ exponent`. -/
inductive Binary64 where
  | nan
  | infinite (negative : Bool)
  | finite (negative : Bool) (significand : Nat) (exponent : Int)
  deriving DecidableEq, Repr

namespace Binary64

def ofBits (bits : UInt64) : Binary64 :=
  let word := bits.toNat
  let negative := decide (word / Nat.pow 2 63 % 2 = 1)
  let field : Nat := word / Nat.pow 2 52 % Nat.pow 2 11
  let fraction : Nat := word % Nat.pow 2 52
  if field = 2047 then if fraction = 0 then .infinite negative else .nan
  else if field = 0 then .finite negative fraction (-1074)
  else .finite negative (Nat.pow 2 52 + fraction) ((field : Int) - 1075)

def signBits (negative : Bool) : Nat := if negative then Nat.pow 2 63 else 0

def toBits : Binary64 → UInt64
  | .nan => UInt64.ofNat (2047 * Nat.pow 2 52 + Nat.pow 2 51)
  | .infinite negative => UInt64.ofNat (signBits negative + 2047 * Nat.pow 2 52)
  | .finite negative m q =>
    if m < Nat.pow 2 52 then UInt64.ofNat (signBits negative + m)
    else UInt64.ofNat (signBits negative + (q + 1075).toNat * Nat.pow 2 52 + (m - Nat.pow 2 52))

def ofFloat (x : Float) : Binary64 := ofBits x.toBits

def toFloat (b : Binary64) : Float := Float.ofBits b.toBits

/-- The whole number nearest to `num / den`; a half goes to the even neighbour. -/
def roundEven (num den : Nat) : Nat :=
  let whole := num / den
  let twice := 2 * (num % den)
  if twice < den then whole
  else if den < twice then whole + 1
  else whole + whole % 2

/-- The quotient `num / den` divided by `2 ^ q`, as numerator and denominator. -/
def scaled (num den : Nat) (q : Int) : Nat × Nat :=
  if 0 ≤ q then (num, den * Nat.pow 2 q.toNat) else (num * Nat.pow 2 (-q).toNat, den)

/-- The exponent that leaves 53 bits before the point of a positive quotient, at least -1074. -/
def exponentOf (num den : Nat) : Int :=
  let low : Int := (num.log2 : Int) - den.log2 - 53
  let (a, b) := scaled num den low
  max (if a / b < Nat.pow 2 53 then low else low + 1) (-1074)

/-- The binary64 number nearest to `±num / den`. -/
def nearest (negative : Bool) (num den : Nat) : Binary64 :=
  if num = 0 then .finite negative 0 (-1074)
  else
    let q := exponentOf num den
    let (a, b) := scaled num den q
    let m := roundEven a b
    let (m, q) := if m = Nat.pow 2 53 then (Nat.pow 2 52, q + 1) else (m, q)
    if 971 < q then .infinite negative else .finite negative m q

end Binary64

end PhasedGrid.Decimal
