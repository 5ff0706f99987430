import PhasedGrid.Table

/-!
A bank of timers. Each arming starts a sleeper that reports its handle and generation when its
time has come; the bank decides whether a report is still current. Re-arming a pending timer
displaces what was pending and silences its sleeper.
-/

namespace PhasedGrid.Schedule

set_option autoImplicit false

variable {α : Type}

/-- What a sleeper reports. -/
structure Report where
  handle : Nat
  generation : Nat
  deriving DecidableEq, Repr

/-- An armed delay that has not run out. Sleepers are numbered in the order of arming. -/
structure Sleeper where
  number : Nat
  due : Nat
  report : Report
  deriving DecidableEq, Repr

structure Pending (α : Type) where
  payload : α
  sleeper : Nat
  deriving DecidableEq, Repr

structure Slot (α : Type) where
  owner : String
  generation : Nat
  pending : Option (Pending α)
  deriving DecidableEq, Repr

structure Timers (α : Type) where
  slots : Table Nat (Slot α) := []
  sleepers : List Sleeper := []
  armings : Nat := 0
  deriving DecidableEq, Repr

/-- The result of arming a timer. -/
inductive Armed (α : Type) where
  | fresh
  | replaced (owner : String) (payload : α)
  | unknown
  deriving DecidableEq, Repr

namespace Timers

/-- Binds a handle to an owner, with nothing pending. -/
def insert (t : Timers α) (handle : Nat) (owner : String) : Timers α :=
  { t with slots := Table.insert handle ⟨owner, 0, none⟩ t.slots }

def owner? (t : Timers α) (handle : Nat) : Option String :=
  (Table.get? handle t.slots).map Slot.owner

def isPending (t : Timers α) (handle : Nat) : Bool :=
  (Table.get? handle t.slots).any fun s => s.pending.isSome

def size (t : Timers α) : Nat := t.slots.length

/-- Takes a sleeper out before it reports. -/
def silence (t : Timers α) (sleeper : Nat) : Timers α :=
  { t with sleepers := t.sleepers.filter fun s => s.number ≠ sleeper }

/-- Arms a timer at `now` for `delay`. -/
def arm (t : Timers α) (now handle delay : Nat) (payload : α) : Armed α × Timers α :=
  match Table.get? handle t.slots with
  | none => (.unknown, t)
  | some slot =>
    let generation := slot.generation + 1
    let sleeper : Sleeper := ⟨t.armings, now + delay, ⟨handle, generation⟩⟩
    let armed : Timers α :=
      { slots := Table.insert handle { slot with generation, pending := some ⟨payload, t.armings⟩ } t.slots
        sleepers := t.sleepers ++ [sleeper]
        armings := t.armings + 1 }
    match slot.pending with
    | none => (.fresh, armed)
    | some old => (.replaced slot.owner old.payload, armed.silence old.sleeper)

/-- The due sleepers in order of due time, those of one time in order of arming. -/
def due (t : Timers α) (now : Nat) : List Sleeper :=
  (t.sleepers.filter (·.due ≤ now)).mergeSort fun a b => a.due ≤ b.due

/-- Lets all due sleepers report. -/
def wake (t : Timers α) (now : Nat) : List Report × Timers α :=
  ((due t now).map Sleeper.report, { t with sleepers := t.sleepers.filter fun s => now < s.due })

/-- The earliest time at which a sleeper reports. -/
def nextDue? (t : Timers α) : Option Nat :=
  (t.sleepers.map Sleeper.due).min?

/-- Claims what is pending, if the report is of the slot's latest arming. -/
def fire (t : Timers α) (r : Report) : Option (String × α) × Timers α :=
  match Table.get? r.handle t.slots with
  | none => (none, t)
  | some slot =>
    if slot.generation = r.generation then
      match slot.pending with
      | none => (none, t)
      | some p =>
        (some (slot.owner, p.payload),
          { t with slots := Table.insert r.handle { slot with pending := none } t.slots })
    else (none, t)

/-- What is pending, by handle. -/
def payloads (t : Timers α) : List α :=
  t.slots.filterMap fun e => e.2.pending.map Pending.payload

/-- Removes every slot and silences the pending sleepers; counts what was pending. -/
def shutdown (t : Timers α) : Nat × Timers α :=
  let pending := t.slots.filterMap fun e => e.2.pending
  let silenced := pending.map Pending.sleeper
  (pending.length,
    { t with slots := [], sleepers := t.sleepers.filter fun s => !silenced.contains s.number })

end Timers

end PhasedGrid.Schedule
