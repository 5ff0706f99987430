import PhasedGrid.Schedule.Phase
import PhasedGrid.Time.Clock

/-!
The position in the round of phases. Phases follow one another for their configured lengths; when
more than the alignment interval has passed since the last alignment, the position snaps to the
natural phase of the current time of day.
-/

namespace PhasedGrid.Schedule

set_option autoImplicit false

/-- One step of the round. -/
structure PhaseStep where
  index : Nat
  duration : Span
  aligned : Bool
  deriving DecidableEq, Repr

structure Cursor where
  index : Nat
  counter : Nat
  lastAlignment : Moment
  interval : Span
  deriving DecidableEq, Repr

namespace Cursor

/-- How far the last alignment is dated back at the start: twice the interval, or one day if that
is too long for an offset. -/
def backdating (interval : Span) : Except TimeFault Int :=
  let twice : Span := ⟨2 * interval.nanos⟩
  if twice.fits then .ok ((offsetOf? twice).getD (Moment.secondsPerDay * Span.perSecond))
  else .error .spanTooLong

/-- A cursor whose first step aligns. -/
def start (now : Moment) (interval : Span) : Except TimeFault Cursor := do
  let back ← backdating interval
  let last ← now.add (-back)
  return ⟨0, 0, last, interval⟩

def reset (c : Cursor) : Cursor := { c with index := 0 }

/-- Whether more than the interval has passed since the last alignment. -/
def alignmentDue (c : Cursor) (now : Moment) : Bool :=
  c.interval.nanos < (now.since c.lastAlignment).toNat

/-- The next step at `now`; without phases the cursor goes back to the start. -/
def advance (c : Cursor) (phases : List Span) (now : Moment) : Option PhaseStep × Cursor :=
  if phases.isEmpty then (none, c.reset)
  else
    let next := (c.index + 1) % phases.length
    let stepped := { c with index := next, counter := c.counter + 1 }
    let relative : PhaseStep := ⟨next, phases[next]?.getD .zero, false⟩
    if c.alignmentDue now then
      match naturalPhase phases now.timeOfDay with
      | some p =>
        (some ⟨p.index, .ofMillis p.remaining, true⟩,
          { stepped with index := p.index, lastAlignment := now })
      | none => (some relative, stepped)
    else (some relative, stepped)

end Cursor

end PhasedGrid.Schedule
