import PhasedGrid.Command.Report
import PhasedGrid.Node.System

/-!
A cluster inside one process whose first node collects the state of all.
-/

namespace PhasedGrid.Command

set_option autoImplicit false

open PhasedGrid.Node (Reply Results System)

/-- The module that the snapshots are for. -/
def simulationModule : String := "gm"

def simulatedName (index : Nat) : String := "node-" ++ Decimal.natText index

/-- The settings of one node: the others are its peers, and its only device stores `power`. -/
def simulatedSettings (base : Config.Settings) (nodes index : Nat) (power : Float) : Config.Settings :=
  let device := "sst" ++ Decimal.natText index
  { base with
    uuid := some (simulatedName index)
    peers := (List.range nodes).map simulatedName
    devices :=
      { specs := [device ++ ":Sst"]
        values := [⟨device, base.snapshot.signal, power⟩] } }

/-- How long a round may take: every wait that is granted, two cycles of phases, and a second for
delivery. It has to fit a word of 64 bits. -/
def roundWait (s : Config.Settings) : Except TimeFault Nat :=
  let cycle := (s.schedule.modules.map Config.ModuleSetting.phase).foldr (· + ·) 0
  let wait := s.snapshot.responseTimeout * (s.snapshot.extensions + 1) + 2 * cycle + 1000
  if wait ≤ Decimal.maxU64 then .ok wait else .error .spanTooLong

/-- Starts the nodes from number `index` on. -/
def startNodes (base : Config.Settings) (nodes : Nat) (basePower : Float) (s : System) :
    (left index : Nat) → Except TimeFault (Except TaskError System)
  | 0, _ => .ok (.ok s)
  | left + 1, index => do
    let settings := simulatedSettings base nodes index (basePower + index.toFloat)
    match ← s.start settings (simulatedName index) with
    | (.error _, _) => return .error (.notStarted (simulatedName index))
    | (.ok _, s) => startNodes base nodes basePower s left (index + 1)

def roundLine (json : Bool) (round wait : Nat) : Reply → String
  | .state c =>
    if json then stateJson c
    else
      let total := (c.values.filterMap Decimal.reading?).foldl (· + ·) (-0.0)
      "✓ round " ++ Decimal.natText round ++ " " ++ c.version.text ++ ": [" ++ c.gateway ++ "] total "
        ++ Decimal.render Decimal.plain total
  | _ =>
    "✗ round " ++ Decimal.natText round ++ ": no complete snapshot within " ++ Decimal.natText wait ++ "ms"

/-- The rounds from number `round` on. -/
def rounds (json : Bool) (wait : Nat) (results : Results) (s : System) : (left round : Nat) → List String
  | 0, _ => []
  | left + 1, round =>
    let (_, s) := s.request (simulatedName 0) simulationModule
    match s.await results wait with
    | (.closed, _) => []
    | (reply, s) => roundLine json round wait reply :: rounds json wait results s left (round + 1)

/-- The lines of a simulation; the clock does not have the configured skew yet. -/
def simulate (base : Config.Settings) (clock : Clock) (nodes count : Nat) (basePower : Float)
    (timeout : Option Nat) (json : Bool) : Except TimeFault (Except TaskError (List String)) := do
  if nodes = 0 then return .error .noNodes
  let responseTimeout := timeout.getD base.snapshot.responseTimeout
  let base := { base with snapshot := { base.snapshot with responseTimeout } }
  let wait ← roundWait base
  let clock ← clock.skewed base.schedule.skew
  match ← startNodes base nodes basePower { clock } nodes 0 with
  | .error e => return .error e
  | .ok s =>
    let (results, s) := s.subscribe (simulatedName 0) simulationModule
    let head := "Cluster: " ++ Decimal.natText nodes ++ " nodes, response timeout "
      ++ Decimal.natText responseTimeout ++ "ms"
    return .ok (head :: rounds json wait results s count 1)

end PhasedGrid.Command
