import PhasedGrid.Decimal.Binary64

/-!
The fewest decimal digits that read back as a given binary64 number. Decimals of 1, 2, ... 17
digits are tried in turn; on each grid only the two neighbours of the value can be nearest.
-/

namespace PhasedGrid.Decimal

set_option autoImplicit false

/-- The decimal `digits * 10 ^ exponent`. -/
structure Scaled where
  digits : Nat
  exponent : Int
  deriving DecidableEq, Repr

/-- A positive real with the ends of the interval that rounds to it, over one denominator. -/
structure Rounded where
  value : Nat
  low : Nat
  high : Nat
  denominator : Nat
  closed : Bool

/-- The interval of `m * 2 ^ q`: half-way to both neighbours, with its ends if `m` is even. -/
def Rounded.of (m : Nat) (q : Int) : Rounded :=
  let below := if m = Nat.pow 2 52 ∧ -1074 < q then 1 else 2
  let up := if 2 ≤ q then Nat.pow 2 (q - 2).toNat else 1
  let down := if 2 ≤ q then 1 else Nat.pow 2 (2 - q).toNat
  { value := 4 * m * up
    low := (4 * m - below) * up
    high := (4 * m + 2) * up
    denominator := down
    closed := m % 2 = 0 }

/-- The number of digits before the point, or minus the number of zeros behind it. -/
def Rounded.magnitude (r : Rounded) : Int :=
  if r.denominator ≤ r.value then (Nat.toDigits 10 (r.value / r.denominator)).length
  else 1 - ((Nat.toDigits 10 ((r.denominator - 1) / r.value)).length : Int)

/-- The same interval measured in units of `10 ^ k`. -/
def Rounded.inUnits (r : Rounded) (k : Int) : Rounded :=
  if 0 ≤ k then { r with denominator := r.denominator * Nat.pow 10 k.toNat }
  else
    let up := Nat.pow 10 (-k).toNat
    { r with value := r.value * up, low := r.low * up, high := r.high * up }

def Rounded.holds (r : Rounded) (d : Nat) : Bool :=
  let x := d * r.denominator
  if r.closed then r.low ≤ x && x ≤ r.high else r.low < x && x < r.high

/-- The nearer of the value's two neighbours on the grid of units that reads back. -/
def Rounded.onGrid? (r : Rounded) (k : Int) : Option Scaled :=
  let u := r.inUnits k
  let d := u.value / u.denominator
  let short := u.value - d * u.denominator
  let long := (d + 1) * u.denominator - u.value
  match u.holds d, u.holds (d + 1) with
  | true, true => some ⟨if short < long ∨ (short = long ∧ d % 2 = 0) then d else d + 1, k⟩
  | true, false => some ⟨d, k⟩
  | false, true => some ⟨d + 1, k⟩
  | false, false => none

/-- The first hit on the grids from `n` digits on. -/
def Rounded.search (r : Rounded) (n : Nat) : Nat → Option Scaled
  | 0 => none
  | fuel + 1 =>
    match r.onGrid? (r.magnitude - n) with
    | some d => some d
    | none => r.search (n + 1) fuel

/-- All digits of `m * 2 ^ q`. -/
def exact (m : Nat) (q : Int) : Scaled :=
  if 0 ≤ q then ⟨m * Nat.pow 2 q.toNat, 0⟩ else ⟨m * Nat.pow 5 (-q).toNat, q⟩

/-- The shortest decimal that reads back as `m * 2 ^ q`. -/
def shortest (m : Nat) (q : Int) : Scaled :=
  ((Rounded.of m q).search 1 17).getD (exact m q)

end PhasedGrid.Decimal
