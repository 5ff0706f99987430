import PhasedGrid.Time.Moment

/-!
Clocks with a fixed skew against the reference time.
-/

namespace PhasedGrid

set_option autoImplicit false

/-- The largest offset, in milliseconds. -/
def longestOffset : Nat := Nat.pow 2 63 - 1

/-- A skew in milliseconds as an offset in nanoseconds. -/
def skewOffset (ms : Int) : Except TimeFault Int :=
  if ms.natAbs ≤ longestOffset then .ok (ms * Span.perMilli) else .error .offsetTooLong

/-- A span as an offset, unless it is too long for one. -/
def offsetOf? (d : Span) : Option Int :=
  if d.nanos ≤ longestOffset * Span.perMilli then some d.nanos else none

/-- A clock that stood at `origin` when it was started and has run evenly since, unless it stands
still. -/
structure Clock where
  origin : Moment
  skew : Int
  still : Bool := false
  deriving DecidableEq, Repr

namespace Clock

def start (origin : Moment) (skewMs : Int) : Except TimeFault Clock :=
  (skewOffset skewMs).map fun skew => { origin, skew }

/-- The same clock with another skew. -/
def skewed (c : Clock) (ms : Int) : Except TimeFault Clock :=
  (skewOffset ms).map fun skew => { c with skew }

/-- The reading after `elapsed`: first the elapsed time is added, then the skew. -/
def read (c : Clock) (elapsed : Span) : Except TimeFault Moment :=
  (c.origin.add (if c.still then 0 else (offsetOf? elapsed).getD 0)).bind fun m => m.add c.skew

/-- The readings at the start and after each advance. -/
def readings (c : Clock) (elapsed : Nat) : List Nat → Except TimeFault (List Moment)
  | [] => (c.read (.ofMillis elapsed)).map fun m => [m]
  | ms :: rest => do
    let m ← c.read (.ofMillis elapsed)
    let later ← readings c (elapsed + ms) rest
    return m :: later

end Clock

end PhasedGrid
