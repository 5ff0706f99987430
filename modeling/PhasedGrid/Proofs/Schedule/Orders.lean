import Mathlib.Algebra.Ring.Nat
import PhasedGrid.Schedule.Loop

/-!
What a series of orders sends to a scheduler. Every order sends one command; timers and jobs are
numbered in the order in which they are asked for, so the commands of a series can be told from the
orders alone.
-/

namespace PhasedGrid.Schedule

set_option autoImplicit false

variable {α : Type}

/-- The timers that an order allocates. -/
@[simp] def Order.opens : Order α → Nat
  | .allocate _ => 1
  | _ => 0

/-- The jobs that an order submits. -/
@[simp] def Order.submits : Order α → Nat
  | .after .. => 1
  | .now .. => 1
  | .post .. => 1
  | _ => 0

/-- What the job of an order is to ask for when it runs. -/
def Order.follows : Order α → List (Order α)
  | .after _ _ _ follow _ => follow
  | .now _ _ follow _ _ => follow
  | .post _ follow _ => follow
  | _ => []

/-- The command of an order that is given after `handle` timers and `number` jobs. -/
def Order.command (handle number : Nat) : Order α → Command α
  | .register id phase => .register id phase
  | .allocate owner => .allocate handle owner
  | .after timer delay label follow captures =>
    .after timer delay ⟨number, label, follow, captures⟩
  | .now module label follow wake captures => .now module ⟨number, label, follow, captures⟩ wake
  | .post label follow captures => .post ⟨number, label, follow, captures⟩
  | .stop => .stop

theorem Order.follow_of_command {o : Order α} {handle number : Nat} {j : Job α}
    (h : (o.command handle number).job? = some j) : j.follow = o.follows := by
  cases o with
  | after | now | post =>
    obtain rfl := Option.some.inj h
    rfl
  | _ => cases h

def opened (os : List (Order α)) : Nat := (os.map Order.opens).sum

def submissions (os : List (Order α)) : Nat := (os.map Order.submits).sum

/-- The commands of a series of orders that begins after `handle` timers and `number` jobs. -/
def commands (handle number : Nat) : List (Order α) → List (Command α)
  | [] => []
  | o :: os => o.command handle number :: commands (handle + o.opens) (number + o.submits) os

/-- The number of the timer that a command allocates. -/
@[simp] def Command.handle? : Command α → Option Nat
  | .allocate timer _ => some timer
  | _ => none

/-- Whether a command comes from an order and not from the worker. -/
@[simp] def Command.ordered : Command α → Bool
  | .work => false
  | _ => true

section Series

variable (h n : Nat)

theorem commands_append (os os' : List (Order α)) :
    commands h n (os ++ os') =
      commands h n os ++ commands (h + opened os) (n + submissions os) os' := by
  induction os generalizing h n with
  | nil => rfl
  | cons o os ih =>
    rw [List.cons_append, commands, ih, commands, List.cons_append]
    simp only [opened, submissions, List.map_cons, List.sum_cons, Nat.add_assoc]

theorem handles_commands (os : List (Order α)) :
    (commands h n os).filterMap Command.handle? = List.range' h (opened os) := by
  induction os generalizing h n with
  | nil => rfl
  | cons o os ih =>
    rw [commands, List.filterMap_cons, ih]
    unfold opened
    cases o <;> simp [Order.command, Command.handle?, Order.opens, Nat.add_comm 1, List.range'_succ]

theorem numbers_commands (os : List (Order α)) :
    ((commands h n os).filterMap Command.job?).map Job.number =
      List.range' n (submissions os) := by
  induction os generalizing h n with
  | nil => rfl
  | cons o os ih =>
    have ih := ih (h + o.opens) (n + o.submits)
    unfold submissions at ih ⊢
    cases o <;>
      simp [commands, Order.command, Command.job?, Order.submits, Nat.add_comm 1, List.range'_succ]
        at ih ⊢ <;> exact ih

theorem exists_of_mem_commands {os : List (Order α)} {c : Command α} (hc : c ∈ commands h n os) :
    ∃ o ∈ os, ∃ h' n', c = o.command h' n' := by
  induction os generalizing h n with
  | nil => cases hc
  | cons o os ih =>
    rcases List.mem_cons.mp hc with rfl | hc
    · exact ⟨o, List.mem_cons_self, h, n, rfl⟩
    · obtain ⟨o', ho', hcommand⟩ := ih _ _ hc
      exact ⟨o', List.mem_cons_of_mem o ho', hcommand⟩

theorem ordered_of_mem_commands {os : List (Order α)} {c : Command α} (hc : c ∈ commands h n os) :
    c.ordered := by
  obtain ⟨o, -, h', n', rfl⟩ := exists_of_mem_commands h n hc
  cases o <;> rfl

end Series

namespace Loop

/-- The state behind a series of orders that are given while the loop goes on. -/
def sends (s : Loop α) (os : List (Order α)) : Loop α :=
  { s with
    handles := s.handles + opened os
    submitted := s.submitted + submissions os
    ingress := s.ingress ++ commands s.handles s.submitted os }

variable {s : Loop α}

theorem ended_send (s : Loop α) (c : Command α) : (s.send c).ended = s.ended := by
  unfold send
  split <;> rfl

theorem ended_issue (s : Loop α) (o : Order α) : (s.issue o).ended = s.ended := by
  cases o <;> exact ended_send ..

/-- Jobs are counted at once, whether the loop goes on or not. -/
theorem submitted_issue (s : Loop α) (o : Order α) :
    (s.issue o).submitted = s.submitted + o.submits := by
  have hsend : ∀ (s : Loop α) (c : Command α), (s.send c).submitted = s.submitted := by
    intro s c
    unfold send
    split <;> rfl
  cases o <;> exact hsend ..

theorem submitted_foldl_issue (s : Loop α) (os : List (Order α)) :
    (os.foldl issue s).submitted = s.submitted + submissions os := by
  induction os generalizing s with
  | nil => rfl
  | cons o os ih =>
    rw [List.foldl_cons, ih, submitted_issue, Nat.add_assoc]
    rfl

theorem send_eq (hs : s.ended = false) (c : Command α) :
    s.send c = { s with ingress := s.ingress ++ [c] } :=
  if_neg (by rw [hs]; decide)

theorem issue_eq (hs : s.ended = false) (o : Order α) : s.issue o = s.sends [o] := by
  unfold issue
  cases o <;> exact send_eq (by exact hs) _

theorem sends_cons (s : Loop α) (o : Order α) (os : List (Order α)) :
    (s.sends [o]).sends os = s.sends (o :: os) := by
  simp [sends, opened, submissions, commands, Nat.add_assoc]

theorem foldl_issue (hs : s.ended = false) (os : List (Order α)) :
    os.foldl issue s = s.sends os := by
  induction os generalizing s with
  | nil => simp [sends, opened, submissions, commands]
  | cons o os ih => rw [List.foldl_cons, issue_eq hs, ih (s := s.sends [o]) hs, sends_cons]

end Loop

end PhasedGrid.Schedule
