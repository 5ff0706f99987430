import PhasedGrid.Table

/-!
One queue of jobs per module, first in first out. A queue that has run empty stays.
-/

namespace PhasedGrid.Schedule

set_option autoImplicit false

variable {α : Type}

structure Queues (α : Type) where
  byModule : Table String (List α) := []
  deriving DecidableEq, Repr

namespace Queues

/-- The jobs waiting for a module, oldest first. -/
def waiting (q : Queues α) (module : String) : List α := (Table.get? module q.byModule).getD []

def depth (q : Queues α) (module : String) : Nat := (q.waiting module).length

def push (q : Queues α) (module : String) (job : α) : Queues α :=
  ⟨Table.insert module (q.waiting module ++ [job]) q.byModule⟩

/-- Takes the oldest job of a module. -/
def pop? (q : Queues α) (module : String) : Option (α × Queues α) :=
  match q.waiting module with
  | [] => none
  | job :: rest => some (job, ⟨Table.insert module rest q.byModule⟩)

def jobs (q : Queues α) : List α := q.byModule.flatMap Prod.snd

def total (q : Queues α) : Nat := q.jobs.length

end Queues

end PhasedGrid.Schedule
