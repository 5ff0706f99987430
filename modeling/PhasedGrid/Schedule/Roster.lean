import PhasedGrid.Time.Span

/-!
The modules of a round in the order of their registration. The first registration of a name
counts, and no phase is shorter than a millisecond.
-/

namespace PhasedGrid.Schedule

set_option autoImplicit false

/-- A registered module and the length of its phase. -/
structure Entry where
  id : String
  phase : Span
  deriving DecidableEq, Repr

structure Roster where
  entries : List Entry := []
  deriving DecidableEq, Repr

namespace Roster

def shortestPhase : Span := .ofMillis 1

/-- The phase length that is registered for a wish. -/
def clamp (phase : Span) : Span :=
  if phase.nanos < shortestPhase.nanos then shortestPhase else phase

def size (r : Roster) : Nat := r.entries.length

def get? (r : Roster) (index : Nat) : Option Entry := r.entries[index]?

def has (r : Roster) (id : String) : Bool := r.entries.any fun e => e.id = id

def indexOf? (r : Roster) (id : String) : Option Nat := r.entries.findIdx? fun e => e.id = id

/-- Appends a module unless its name is taken. -/
def register (r : Roster) (id : String) (phase : Span) : Bool × Roster :=
  if r.has id then (false, r) else (true, ⟨r.entries ++ [⟨id, clamp phase⟩]⟩)

def phases (r : Roster) : List Span := r.entries.map Entry.phase

/-- The length of a round, if a span can hold it. -/
def roundLength (r : Roster) : Except TimeFault Span :=
  let total : Span := ⟨(r.phases.map Span.nanos).foldr (· + ·) 0⟩
  if total.fits then .ok total else .error .spanTooLong

end Roster

end PhasedGrid.Schedule
