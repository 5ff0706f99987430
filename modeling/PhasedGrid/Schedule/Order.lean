import PhasedGrid.Time.Span

/-!
What can be asked of a scheduler, and the jobs that carry such orders with them.
-/

namespace PhasedGrid.Schedule

set_option autoImplicit false

/-- How a timer's job is released. -/
inductive TimerStatus where
  | expired
  | cancelled
  deriving DecidableEq, Repr

/-- An order given by the holder of a handle. A job names itself by its label and gives its
follow-up orders when it runs, for which it owns a handle; one that `captures` a handle owns it
whether it gives orders or not. Delays are in milliseconds. -/
inductive Order (α : Type) where
  | register (id : String) (phase : Span)
  | allocate (owner : String)
  | after (timer delay : Nat) (label : α) (follow : List (Order α)) (captures : Bool := false)
  | now (module : String) (label : α) (follow : List (Order α)) (wake : Bool)
      (captures : Bool := false)
  | post (label : α) (follow : List (Order α)) (captures : Bool := false)
  | stop
  deriving Inhabited

variable {α : Type}

/-- A job in the scheduler's keeping; jobs are numbered in the order of submission. -/
structure Job (α : Type) where
  number : Nat
  label : α
  follow : List (Order α)
  captures : Bool

/-- Whether a job owns a handle until it has run or is dropped, which keeps the scheduler alive. -/
def Job.holds (j : Job α) : Bool := j.captures || !j.follow.isEmpty

/-- A job in a module's queue, bound to its timer's status if it came from a timer. -/
structure Task (α : Type) where
  job : Job α
  status : Option TimerStatus

/-- An order on its way through the ingress queue, or the worker's own continuation. -/
inductive Command (α : Type) where
  | register (id : String) (phase : Span)
  | allocate (timer : Nat) (owner : String)
  | after (timer delay : Nat) (job : Job α)
  | now (module : String) (job : Job α) (wake : Bool)
  | post (job : Job α)
  | work
  | stop

def Command.job? : Command α → Option (Job α)
  | .after _ _ job => some job
  | .now _ job _ => some job
  | .post job => some job
  | _ => none

mutual

/-- The number of orders in an order, itself included. -/
def Order.weight : Order α → Nat
  | .after _ _ _ follow _ => 1 + Order.weights follow
  | .now _ _ follow _ _ => 1 + Order.weights follow
  | .post _ follow _ => 1 + Order.weights follow
  | _ => 1

def Order.weights : List (Order α) → Nat
  | [] => 0
  | o :: rest => o.weight + Order.weights rest

end

def Job.weight (j : Job α) : Nat := 1 + Order.weights j.follow

end PhasedGrid.Schedule
