/-!
Spans of time in whole nanoseconds, and offsets between moments.
-/

namespace PhasedGrid

set_option autoImplicit false

/-- A non-negative length of time. -/
structure Span where
  nanos : Nat
  deriving DecidableEq, Repr, Inhabited

namespace Span

def perSecond : Nat := 1000000000
def perMilli : Nat := 1000000

def ofMillis (ms : Nat) : Span := ⟨ms * perMilli⟩
def ofSeconds (s nanos : Nat) : Span := ⟨s * perSecond + nanos⟩

def seconds (d : Span) : Nat := d.nanos / perSecond
def subsecond (d : Span) : Nat := d.nanos % perSecond

/-- The whole milliseconds of a span. -/
def millis (d : Span) : Nat := d.nanos / perMilli

def zero : Span := ⟨0⟩

instance : Add Span := ⟨fun a b => ⟨a.nanos + b.nanos⟩⟩

/-- Spans hold their seconds in an unsigned 64-bit word. -/
def fits (d : Span) : Bool := d.seconds < Nat.pow 2 64

theorem millis_ofMillis (ms : Nat) : (ofMillis ms).millis = ms := by
  simp [ofMillis, millis, perMilli]

end Span

/-- Reasons why a computation on times has no result. -/
inductive TimeFault where
  | spanTooLong
  | offsetTooLong
  | outsideCalendar
  deriving DecidableEq, Repr

end PhasedGrid
