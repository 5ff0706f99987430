import PhasedGrid.Command.Report
import PhasedGrid.Config.Settings
import PhasedGrid.Schedule.Phase

/-!
The phases that follow a time of day.
-/

namespace PhasedGrid.Command

set_option autoImplicit false

/-- A number of one or two digits, up to a bound, with blanks in front. -/
def timePart? (bound : Nat) (cs : List Char) : Option (Nat × List Char) :=
  let cs := cs.dropWhile Text.isBlank
  let digits := (cs.take 2).takeWhile Char.isDigit
  match Decimal.natural? digits with
  | some n => if n ≤ bound then some (n, cs.drop digits.length) else none
  | none => none

/-- Milliseconds behind a point; more than three digits do not count. -/
def fractionPart? : List Char → Option Nat
  | [] => some 0
  | '.' :: ds =>
    if !ds.isEmpty ∧ ds.all Char.isDigit then
      Decimal.natural? ((ds.take 3) ++ List.replicate (3 - ds.length) '0')
    else none
  | _ => none

/-- A colon. -/
def colon? : List Char → Option (List Char)
  | ':' :: rest => some rest
  | _ => none

/-- A time of day in milliseconds, given as hours, minutes and seconds with an optional fraction. The
sixtieth second of a minute is the last millisecond of the one before. -/
def timeOfDay? (text : String) : Option Nat := do
  let (hour, rest) ← timePart? 23 text.toList
  let (minute, rest) ← timePart? 59 (← colon? rest)
  let (second, rest) ← timePart? 60 (← colon? rest)
  let part ← fractionPart? rest
  let minutes := hour * 60 + minute
  if second = 60 then return minutes * 60000 + 59999
  else return minutes * 60000 + second * 1000 + part

/-- A phase to come: when it starts, of which module it is, and how many milliseconds are left. -/
structure Upcoming where
  time : Nat
  module : String
  duration : Nat
  deriving DecidableEq, Repr

/-- One phase after the other from a module on. The time after each phase has to fit a span. -/
def phasesFrom (modules : List Config.ModuleSetting) :
    (count time index duration : Nat) → Except TimeFault (List Upcoming)
  | 0, _, _, _ => .ok []
  | count + 1, time, index, duration =>
    let id := (modules[index]?.map Config.ModuleSetting.id).getD ""
    let later := time + duration
    if (Span.ofMillis later).fits then
      let next := (index + 1) % modules.length
      (phasesFrom modules count later next ((modules[next]?.map Config.ModuleSetting.phase).getD 0)).map
        fun rest => ⟨time, id, duration⟩ :: rest
    else .error .spanTooLong

/-- The `count` phases from a time of day on; the first one has begun already. -/
def upcoming (modules : List Config.ModuleSetting) (time count : Nat) :
    Except TimeFault (Except TaskError (List Upcoming)) :=
  match Schedule.naturalOfMillis (modules.map Config.ModuleSetting.phase) time with
  | none => .ok (.error .noPhase)
  | some p => (phasesFrom modules count time p.index p.remaining).map .ok

def Upcoming.line (u : Upcoming) : String := timeText u.time ++ " " ++ phaseText u.module u.duration

/-- The lines for the phases that follow a time of day. -/
def forecast (s : Config.ScheduleSettings) (start : String) (count : Nat) :
    Except TimeFault (Except TaskError (List String)) :=
  match timeOfDay? start with
  | none => .ok (.error (.badTime start))
  | some time => (upcoming s.modules time count).map fun r => r.map (List.map Upcoming.line)

end PhasedGrid.Command
