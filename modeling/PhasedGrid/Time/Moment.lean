import PhasedGrid.Time.Span

/-!
Moments of UTC with nanoseconds. The last second of a minute may hold up to two thousand million
nanoseconds: the second half is a leap second, which offsets enter and leave as if it were counted
only while one is in it.
-/

namespace PhasedGrid

set_option autoImplicit false

/-- Seconds since 1970-01-01T00:00:00 and the nanoseconds within that second. -/
structure Moment where
  seconds : Int
  nanos : Nat
  deriving DecidableEq, Repr, Inhabited

namespace Moment

/-- The calendar runs from the year -262143 to the year 262142. -/
def firstSecond : Int := -8334601228800
def lastSecond : Int := 8210266876799

def secondsPerDay : Nat := 86400

def secondOfDay (m : Moment) : Nat := (m.seconds % secondsPerDay).toNat

def ofMillis (ms : Int) : Moment :=
  ⟨ms / 1000, (ms % 1000).toNat * Span.perMilli⟩

/-- The milliseconds since 1970. -/
def toMillis (m : Moment) : Int := m.seconds * 1000 + m.nanos / Span.perMilli

/-- Seconds and nanoseconds, the latter possibly out of their second, brought into order. -/
def carry (seconds nanos : Int) : Int × Int :=
  if nanos < 0 then (seconds - 1, nanos + Span.perSecond)
  else if Span.perSecond ≤ nanos then (seconds + 1, nanos - Span.perSecond)
  else (seconds, nanos)

/-- A moment moved by an offset in nanoseconds, without regard to the calendar's ends. -/
def shift (m : Moment) (offset : Int) : Moment :=
  let whole := Int.tdiv offset Span.perSecond
  let part := Int.tmod offset Span.perSecond
  let nanos : Int := m.nanos
  if Span.perSecond ≤ m.nanos then
    if 0 < whole ∨ (0 < part ∧ 2 * (Span.perSecond : Int) - part ≤ nanos) then
      let (s, n) := carry (m.seconds + whole) (nanos - Span.perSecond + part)
      ⟨s, n.toNat⟩
    else if whole < 0 then
      let (s, n) := carry (m.seconds + 1 + whole) (nanos - Span.perSecond + part)
      ⟨s, n.toNat⟩
    else ⟨m.seconds, (nanos + part).toNat⟩
  else
    let (s, n) := carry (m.seconds + whole) (nanos + part)
    ⟨s, n.toNat⟩

def inCalendar (m : Moment) : Bool :=
  firstSecond ≤ m.seconds && m.seconds ≤ lastSecond

/-- A moment moved by an offset, inside the calendar. -/
def add (m : Moment) (offset : Int) : Except TimeFault Moment :=
  let moved := m.shift offset
  if moved.inCalendar then .ok moved else .error .outsideCalendar

/-- The nanoseconds from `earlier` to `m`. Leap seconds lie at the same second of each day, so they
count by the order of the times of day. -/
def since (m earlier : Moment) : Int :=
  let leap : Int :=
    if earlier.secondOfDay < m.secondOfDay ∧ Span.perSecond ≤ earlier.nanos then 1
    else if m.secondOfDay < earlier.secondOfDay ∧ Span.perSecond ≤ m.nanos then -1
    else 0
  (m.seconds - earlier.seconds + leap) * Span.perSecond + ((m.nanos : Int) - earlier.nanos)

/-- The time since midnight in whole milliseconds; a leap second stays at its last one. -/
def timeOfDay (m : Moment) : Span :=
  .ofMillis (m.secondOfDay * 1000 + min (m.nanos / Span.perMilli) 999)

end Moment

end PhasedGrid
