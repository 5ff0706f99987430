/-!
Names for nodes that have none: random numbers in the form of a version 4 UUID.
-/

namespace PhasedGrid.Node

set_option autoImplicit false

/-- The lowest 32 hexadecimal digits of a number, most significant first. -/
def uuidDigits (bits : Nat) : List Char :=
  (List.range 32).map fun i => Nat.digitChar (bits / Nat.pow 16 (31 - i) % 16)

/-- Digit 12 tells the version, and digit 16 is one of the four that the form allows. -/
def stampDigits (ds : List Char) (variant : Nat) : List Char :=
  (ds.set 12 '4').set 16 (Nat.digitChar (8 + variant % 4))

/-- Groups of 8, 4, 4, 4 and 12 digits with dashes between. -/
def freshName (bits : Nat) : String :=
  let ds := stampDigits (uuidDigits bits) bits
  let group (start count : Nat) : List Char := (ds.drop start).take count
  String.ofList
    (group 0 8 ++ '-' :: group 8 4 ++ '-' :: group 12 4 ++ '-' :: group 16 4 ++ '-' :: group 20 12)

end PhasedGrid.Node
