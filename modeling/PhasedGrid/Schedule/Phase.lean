import PhasedGrid.Time.Span

/-!
The phase that a time of day belongs to when the phases of a round follow one another from
midnight on.
-/

namespace PhasedGrid.Schedule

set_option autoImplicit false

/-- A phase of the round and the milliseconds that are left of it. -/
structure NaturalPhase where
  index : Nat
  remaining : Nat
  deriving DecidableEq, Repr

/-- The phase that holds `offset`, counted from the start of the first of `lengths`. -/
def locate : List Nat → Nat → Option NaturalPhase
  | [], _ => none
  | len :: rest, offset =>
    if offset < len then some ⟨0, len - offset⟩
    else (locate rest (offset - len)).map fun p => { p with index := p.index + 1 }

/-- Remaining times stop at what 64 bits hold. -/
def longestRemaining : Nat := Nat.pow 2 64 - 1

/-- The phase of a time of day, for phases of the given lengths in milliseconds. -/
def naturalOfMillis (lengths : List Nat) (time : Nat) : Option NaturalPhase :=
  let round := lengths.foldr (· + ·) 0
  if round = 0 then none
  else (locate lengths (time % round)).map fun p =>
    { p with remaining := min p.remaining longestRemaining }

/-- The phase of a time of day; all spans count in whole milliseconds. -/
def naturalPhase (phases : List Span) (time : Span) : Option NaturalPhase :=
  naturalOfMillis (phases.map Span.millis) time.millis

end PhasedGrid.Schedule
