import PhasedGrid.Proofs.Schedule.Runs

/-!
The books of a run. What is sent is taken up in the same order; a job that is taken up is armed,
queued, run or refused; what leaves a timer is queued, and what leaves a queue has run. Each of
these is a balance that every change keeps.
-/

namespace PhasedGrid.Schedule

set_option autoImplicit false

variable {α : Type}

/-- The orders that come with an entry: one from outside, or those of a job that runs. -/
@[simp] def Mark.orders : Mark α → List (Order α)
  | .gave o => [o]
  | .seen (.ran job _ _) => job.follow
  | _ => []

/-- The command that is taken up, unless it is the worker's own. -/
@[simp] def Mark.command? : Mark α → Option (Command α)
  | .applied c _ => if c.ordered then some c else none
  | _ => none

@[simp] def Mark.queued? : Mark α → Option (Task α)
  | .queued _ task _ => some task
  | _ => none

@[simp] def Mark.posted? : Mark α → Option (Job α)
  | .applied (.post job) _ => some job
  | _ => none

@[simp] def Mark.ran? : Mark α → Option (Task α)
  | .seen (.ran job status _) => some ⟨job, status⟩
  | _ => none

@[simp] def Mark.refused? : Mark α → Option (Job α)
  | .seen (.refused job) => some job
  | _ => none

/-- All orders of a run, those that jobs give included. -/
def given (tr : List (Mark α)) : List (Order α) := tr.flatMap Mark.orders

/-- The commands that the orders of a run send. -/
def sent (tr : List (Mark α)) : List (Command α) := commands 0 0 (given tr)

def handled (tr : List (Mark α)) : List (Command α) := tr.filterMap Mark.command?

def queued (tr : List (Mark α)) : List (Task α) := tr.filterMap Mark.queued?

def posts (tr : List (Mark α)) : List (Job α) := tr.filterMap Mark.posted?

def ran (tr : List (Mark α)) : List (Task α) := tr.filterMap Mark.ran?

def refusals (tr : List (Mark α)) : List (Job α) := tr.filterMap Mark.refused?

def carried (cs : List (Command α)) : List (Job α) := cs.filterMap Command.job?

section Append

variable (tr ms : List (Mark α))

theorem given_append : given (tr ++ ms) = given tr ++ given ms := List.flatMap_append

theorem handled_append : handled (tr ++ ms) = handled tr ++ handled ms := List.filterMap_append

theorem queued_append : queued (tr ++ ms) = queued tr ++ queued ms := List.filterMap_append

theorem posts_append : posts (tr ++ ms) = posts tr ++ posts ms := List.filterMap_append

theorem ran_append : ran (tr ++ ms) = ran tr ++ ran ms := List.filterMap_append

theorem refusals_append : refusals (tr ++ ms) = refusals tr ++ refusals ms := List.filterMap_append

theorem sent_append :
    sent (tr ++ ms) =
      sent tr ++ commands (opened (given tr)) (submissions (given tr)) (given ms) := by
  unfold sent
  rw [given_append, commands_append, Nat.zero_add, Nat.zero_add]

end Append

section Split

variable {β γ : Type}

/-- An entry of a longer list stands in its old part or in the new one. -/
theorem split_append {l l' p q : List β} {x : β} (h : l ++ l' = p ++ x :: q) :
    (∃ q', l = p ++ x :: q' ∧ q = q' ++ l') ∨ ∃ p', p = l ++ p' ∧ l' = p' ++ x :: q := by
  rcases List.append_eq_append_iff.mp h with ⟨as, hp, hl'⟩ | ⟨bs, hl, hq⟩
  · exact .inr ⟨as, hp, hl'⟩
  · cases bs with
    | nil => exact .inr ⟨[], by rw [hl, List.append_nil, List.append_nil], hq.symm⟩
    | cons y bs =>
      obtain ⟨rfl, rfl⟩ := List.cons.inj hq
      exact .inl ⟨bs, hl, rfl⟩

theorem split_cons {l p q : List β} {x y : β} (h : y :: l = p ++ x :: q) (hx : x ∉ l) :
    p = [] ∧ y = x ∧ l = q := by
  cases p with
  | nil => exact ⟨rfl, List.cons.inj h⟩
  | cons z p =>
    refine absurd ?_ hx
    rw [(List.cons.inj h).2]
    simp

/-- In a list with distinct values, the place of a value is unique. -/
theorem split_unique {f : β → Option γ} {l p q p' q' : List β} {x y : β} {a : γ}
    (hl : (l.filterMap f).Nodup) (hx : f x = some a) (hy : f y = some a) (h : l = p ++ x :: q)
    (h' : l = p' ++ y :: q') : p = p' ∧ x = y := by
  induction p generalizing l p' with
  | nil =>
    subst h
    cases p' with
    | nil => exact ⟨rfl, (List.cons.inj h').1⟩
    | cons z p' =>
      obtain ⟨rfl, rfl⟩ := List.cons.inj h'
      rw [List.nil_append, List.filterMap_cons_some hx, List.nodup_cons] at hl
      exact absurd (List.mem_filterMap.mpr ⟨y, by simp, hy⟩) hl.1
  | cons z p ih =>
    subst h
    cases p' with
    | nil =>
      obtain ⟨rfl, rfl⟩ := List.cons.inj h'
      rw [List.cons_append, List.filterMap_cons_some hy, List.nodup_cons] at hl
      exact absurd (List.mem_filterMap.mpr ⟨x, by simp, hx⟩) hl.1
    | cons z' p' =>
      obtain ⟨rfl, htail⟩ := List.cons.inj h'
      have hnodup : ((p ++ x :: q).filterMap f).Nodup :=
        hl.sublist ((List.sublist_cons_self z _).filterMap f)
      obtain ⟨rfl, rfl⟩ := ih hnodup rfl htail
      exact ⟨rfl, rfl⟩

end Split

theorem filter_commands (h n : Nat) (os : List (Order α)) :
    (commands h n os).filter Command.ordered = commands h n os :=
  List.filter_eq_self.mpr fun _ hc => ordered_of_mem_commands h n hc

/-- The next command does not allocate a timer that is there already. -/
def Loop.OpensNew (s : Loop α) : Prop :=
  ∀ h owner rest, s.ingress = .allocate h owner :: rest → Table.get? h s.timers.slots = none

/-- What a change that takes up the commands `cs` does to the slots: nothing, or it opens one, or it
writes one that is there. -/
inductive SlotChange (t t' : Timers (Job α)) (cs : List (Command α)) : Prop
  | keeps : t'.slots = t.slots → (∀ k owner, .allocate k owner ∉ cs) → SlotChange t t' cs
  | opens (h : Nat) (owner : String) :
      Table.get? h t.slots = none → t'.slots = Table.insert h ⟨owner, 0, none⟩ t.slots →
        cs = [.allocate h owner] → SlotChange t t' cs
  | writes (h : Nat) (old new : Slot (Job α)) :
      Table.get? h t.slots = some old → t'.slots = Table.insert h new t.slots →
        new.owner = old.owner → old.generation ≤ new.generation →
        (∀ p, new.pending = some p → ∃ d, .after h d p.payload ∈ cs) →
        (∀ k owner, .allocate k owner ∉ cs) → SlotChange t t' cs

namespace Change

variable {s s' : Loop α} {ms : List (Mark α)}

/-- The command at the head of the line is taken up next, and new ones stand at the end. -/
theorem line (h : Change s ms s') :
    s'.handles = s.handles + opened (given ms) ∧
      s'.submitted = s.submitted + submissions (given ms) ∧
      handled ms ++ s'.ingress.filter Command.ordered =
        s.ingress.filter Command.ordered ++ commands s.handles s.submitted (given ms) := by
  cases h with
  | gave | served => simp [Loop.sends, handled, given, filter_commands]
  | posted j rest hc =>
    rw [hc]
    simp [Loop.sends, handled, given, List.filter_cons, filter_commands]
  | taken c rest hc =>
    rw [hc]
    cases c <;> simp [handled, given, List.filter_cons, opened, submissions, commands]
  | allocated _ _ _ hc | armed _ _ _ _ _ hc | rearmed _ _ _ _ _ _ _ hc | refused _ _ _ _ hc
  | enqueued _ _ _ _ hc =>
    rw [hc]
    simp [handled, given, opened, submissions, commands, List.filterMap_cons, List.filter_cons]
  | _ => simp [handled, given, opened, submissions, commands]

/-- What is queued or posted waits or has run. -/
theorem tasks (h : Change s ms s') (hq : s.queues.Sorted) :
    s'.queues.Sorted ∧
      ((queued ms).map Task.job ++ posts ms ++ s.queues.jobs.map Task.job).Perm
        ((ran ms).map Task.job ++ s'.queues.jobs.map Task.job) := by
  cases h with
  | served e task queues _ hpop => exact ⟨hq.pop hpop, (hq.jobs_pop hpop).map Task.job⟩
  | rearmed | expired | enqueued => exact ⟨hq.push _ _, ((hq.jobs_push _ _).map Task.job).symm⟩
  | taken c rest _ _ hj =>
    cases c with
    | post j => cases hj
    | _ => exact ⟨hq, .refl _⟩
  | _ => exact ⟨hq, .refl _⟩

/-- A command that is taken up arms its job, queues or posts it, or has it refused; what leaves a
timer is queued. -/
theorem armings (h : Change s ms s') (ht : s.timers.Sorted) (hnew : s.OpensNew) :
    s'.timers.Sorted ∧
      (carried (handled ms) ++ s.timers.payloads).Perm
        ((queued ms).map Task.job ++ posts ms ++ refusals ms ++ s'.timers.payloads) := by
  cases h with
  | taken c rest _ hh hj =>
    refine ⟨ht, ?_⟩
    cases c with
    | register | work | stop => exact .refl _
    | allocate => cases hh
    | _ => cases hj
  | allocated h owner rest hc =>
    exact ⟨ht.insert h owner, (ht.payloads_insert (hnew h owner rest hc) owner).symm⟩
  | armed h d j rest timers hc harm =>
    obtain ⟨slot, hslot, hp⟩ := Timers.arm_fresh harm
    obtain ⟨hsorted, hperm⟩ := hslot.payloads ht
    rw [hp] at hperm
    exact ⟨hsorted, hperm.symm⟩
  | rearmed h d j rest timers owner old hc harm =>
    obtain ⟨slot, p, hslot, hp, rfl, rfl⟩ := Timers.arm_replaced harm
    obtain ⟨hsorted, hperm⟩ := hslot.payloads ht
    rw [hp] at hperm
    exact ⟨hsorted, hperm.symm⟩
  | expired r reports timers owner j hr hfire => exact ht.payloads_fire hfire
  | _ => exact ⟨ht, .refl _⟩

theorem slots (h : Change s ms s') (hnew : s.OpensNew) :
    SlotChange s.timers s'.timers (handled ms) := by
  cases h with
  | taken c rest _ hh hj =>
    refine .keeps rfl ?_
    cases c with
    | allocate => cases hh
    | _ => simp [handled]
  | allocated h o rest hc => exact .opens h o (hnew h o rest hc) rfl rfl
  | armed h d j rest timers hc harm =>
    obtain ⟨slot, hslot, -⟩ := Timers.arm_fresh harm
    refine .writes h slot _ hslot.known hslot.slots rfl (Nat.le_succ _) (fun p hp => ⟨d, ?_⟩) ?_
    · obtain rfl := Option.some.inj hp
      exact List.mem_cons_self
    · simp [handled]
  | rearmed h d j rest timers o old hc harm =>
    obtain ⟨slot, p, hslot, -⟩ := Timers.arm_replaced harm
    refine .writes h slot _ hslot.known hslot.slots rfl (Nat.le_succ _) (fun p hp => ⟨d, ?_⟩) ?_
    · obtain rfl := Option.some.inj hp
      exact List.mem_cons_self
    · simp [handled, List.filterMap_cons]
  | expired r reports timers o j hr hfire =>
    obtain ⟨slot, p, hslot, -, -, -, -, rfl⟩ := Timers.fire_eq_some hfire
    refine .writes r.handle slot _ hslot rfl rfl (Nat.le_refl _) (fun q hq => ?_) ?_
    · cases hq
    · simp [handled]
  | _ => exact .keeps rfl (by simp [handled, List.filterMap_cons])

end Change

namespace SlotChange

variable {t t' : Timers (Job α)} {cs : List (Command α)} {k : Nat}

/-- A timer has an owner once its allocation is taken up. -/
theorem owners (h : SlotChange t t' cs) (k : Nat) (owner : String) :
    t'.owner? k = some owner ↔ t.owner? k = some owner ∨ .allocate k owner ∈ cs := by
  cases h with
  | keeps hslots hcs => simp [Timers.owner?, hslots, hcs]
  | opens h o hnone hslots hcs =>
    have howner : t.owner? h = none := by
      rw [Timers.owner?, hnone]
      rfl
    rw [Timers.owner?_of_slots hslots, hcs]
    by_cases hk : h = k
    · subst hk
      simp only [howner, if_true, List.mem_singleton, Command.allocate.injEq, true_and,
        Option.some.injEq, reduceCtorEq, false_or]
      exact eq_comm
    · simp [hk, Ne.symm hk]
  | writes h old new hold hslots howner _ _ hcs =>
    rw [Timers.owner?_of_known hslots hold howner]
    simp [hcs]

/-- A timer that is known stays known, and its generation does not go down. -/
theorem generation (h : SlotChange t t' cs) {slot : Slot (Job α)}
    (hk : Table.get? k t.slots = some slot) :
    ∃ slot', Table.get? k t'.slots = some slot' ∧ slot.generation ≤ slot'.generation := by
  cases h with
  | keeps hslots => exact ⟨slot, by rw [hslots, hk], Nat.le_refl _⟩
  | opens h o hnone hslots =>
    have hne : h ≠ k := by
      rintro rfl
      rw [hnone] at hk
      cases hk
    exact ⟨slot, by rw [hslots, Table.get?_insert, if_neg hne, hk], Nat.le_refl _⟩
  | writes h old new hold hslots _ hle =>
    rw [hslots, Table.get?_insert]
    by_cases hh : h = k
    · subst hh
      obtain rfl := Option.some.inj (hold.symm.trans hk)
      exact ⟨new, if_pos rfl, hle⟩
    · exact ⟨slot, (if_neg hh).trans hk, Nat.le_refl _⟩

/-- What is pending was pending before, or it has just been armed. -/
theorem pending (h : SlotChange t t' cs) {p : Pending (Job α)} (hp : t'.pending? k = some p) :
    t.pending? k = some p ∨ ∃ d, .after k d p.payload ∈ cs := by
  cases h with
  | keeps hslots =>
    rw [Timers.pending?, hslots] at hp
    exact .inl hp
  | opens h o hnone hslots =>
    rw [Timers.pending?_of_slots hslots] at hp
    split at hp
    · cases hp
    · exact .inl hp
  | writes h old new hold hslots _ _ hpending =>
    rw [Timers.pending?_of_slots hslots] at hp
    split at hp
    · rename_i hk
      exact .inr (hk ▸ hpending p hp)
    · exact .inl hp

end SlotChange

/-- The books as they stand after a run. -/
structure Accounts (tr : List (Mark α)) (s : Loop α) : Prop where
  handles : s.handles = opened (given tr)
  submitted : s.submitted = submissions (given tr)
  line : handled tr ++ s.ingress.filter Command.ordered = sent tr
  queues : s.queues.Sorted
  timers : s.timers.Sorted
  owners : ∀ h owner, s.timers.owner? h = some owner ↔ .allocate h owner ∈ handled tr
  tasks : ((queued tr).map Task.job ++ posts tr).Perm
    ((ran tr).map Task.job ++ s.queues.jobs.map Task.job)
  armings : (carried (handled tr)).Perm
    ((queued tr).map Task.job ++ posts tr ++ refusals tr ++ s.timers.payloads)

namespace Accounts

variable {s s' : Loop α} {tr ms : List (Mark α)}

/-- Every timer is allocated once, and those with a slot have been. -/
theorem opensNew (h : Accounts tr s) : s.OpensNew := by
  intro k owner rest hc
  -- All allocations that are sent are numbered in one series, taken up or not.
  have hnodup : ((sent tr).filterMap Command.handle?).Nodup := by
    rw [sent, handles_commands]
    exact List.nodup_range'
  rw [← h.line, hc, List.filterMap_append] at hnodup
  cases hk : Table.get? k s.timers.slots with
  | none => rfl
  | some slot =>
    have howner : s.timers.owner? k = some slot.owner := by rw [Timers.owner?, hk]; rfl
    have hold : k ∈ (handled tr).filterMap Command.handle? :=
      List.mem_filterMap.mpr ⟨_, (h.owners k slot.owner).mp howner, rfl⟩
    have hhead : k ∈ ((Command.allocate k owner :: rest).filter Command.ordered).filterMap
        Command.handle? :=
      List.mem_filterMap.mpr ⟨_, List.mem_filter.mpr ⟨List.mem_cons_self, rfl⟩, rfl⟩
    exact absurd rfl ((List.nodup_append.mp hnodup).2.2 k hold k hhead)

theorem change (h : Accounts tr s) (hc : Change s ms s') :
    Accounts (tr ++ ms) s' := by
  obtain ⟨hhandles, hsubmitted, hline⟩ := hc.line
  obtain ⟨hqueues, htasks⟩ := hc.tasks h.queues
  obtain ⟨htimers, harmings⟩ := hc.armings h.timers h.opensNew
  refine ⟨?_, ?_, ?_, hqueues, htimers, fun k owner => ?_, ?_, ?_⟩
  · rw [hhandles, h.handles, given_append, opened, opened, opened, List.map_append, List.sum_append]
  · rw [hsubmitted, h.submitted, given_append, submissions, submissions, submissions,
      List.map_append, List.sum_append]
  · rw [handled_append, List.append_assoc, hline, ← List.append_assoc, h.line, sent_append,
      h.handles, h.submitted]
  · rw [(hc.slots h.opensNew).owners, h.owners, handled_append, List.mem_append]
  · -- Both sides of a balance count each job alike, before the change and in it.
    classical
    refine List.perm_iff_count.mpr fun a => ?_
    have hold := h.tasks.count_eq a
    have hstep := htasks.count_eq a
    simp only [queued_append, posts_append, ran_append, List.map_append, List.count_append]
      at hold hstep ⊢
    omega
  · classical
    refine List.perm_iff_count.mpr fun a => ?_
    have hold := h.armings.count_eq a
    have hstep := harmings.count_eq a
    simp only [queued_append, posts_append, refusals_append, handled_append, carried,
      List.filterMap_append, List.map_append, List.count_append] at hold hstep ⊢
    omega

theorem numbers (h : Accounts tr s) :
    (carried (sent tr)).map Job.number = List.range s.submitted := by
  rw [carried, sent, numbers_commands, h.submitted, List.range_eq_range']

theorem nodup_sent (h : Accounts tr s) : ((carried (sent tr)).map Job.number).Nodup := by
  rw [h.numbers]
  exact List.nodup_range

theorem nodup_handled (h : Accounts tr s) : ((carried (handled tr)).map Job.number).Nodup := by
  have hsent := h.nodup_sent
  rw [← h.line, carried, List.filterMap_append, List.map_append] at hsent
  exact (List.nodup_append.mp hsent).1

/-- What was taken up was armed, queued, posted or refused, and each job only once. -/
theorem nodup_armings (h : Accounts tr s) :
    (((queued tr).map Task.job ++ posts tr ++ refusals tr ++ s.timers.payloads).map
      Job.number).Nodup :=
  (h.armings.map Job.number).nodup_iff.mp h.nodup_handled

theorem nodup_tasks (h : Accounts tr s) :
    (((queued tr).map Task.job ++ posts tr).map Job.number).Nodup := by
  have hall := h.nodup_armings
  rw [List.append_assoc, List.map_append] at hall
  exact (List.nodup_append.mp hall).1

theorem not_ran (h : Accounts tr s) {task task' : Task α} (hran : task ∈ ran tr)
    (hw : task' ∈ s.queues.jobs) : task.job.number ≠ task'.job.number := by
  have hall := (h.tasks.map Job.number).nodup_iff.mp h.nodup_tasks
  rw [List.map_append] at hall
  refine (List.nodup_append.mp hall).2.2 _ ?_ _ ?_
  · exact List.mem_map_of_mem (List.mem_map_of_mem hran)
  · exact List.mem_map_of_mem (List.mem_map_of_mem hw)

theorem not_queued (h : Accounts tr s) {task : Task α} {j : Job α} (hq : task ∈ queued tr)
    (hp : j ∈ posts tr) : task.job.number ≠ j.number := by
  have hall := h.nodup_tasks
  rw [List.map_append] at hall
  refine (List.nodup_append.mp hall).2.2 _ ?_ _ ?_
  · exact List.mem_map_of_mem (List.mem_map_of_mem hq)
  · exact List.mem_map_of_mem hp

theorem carried_filter (cs : List (Command α)) :
    carried (cs.filter Command.ordered) = carried cs := by
  unfold carried
  rw [List.filterMap_filter]
  refine List.filterMap_congr fun c _ => ?_
  cases c <;> rfl

/-- Every job that was submitted waits in one place, has run or was refused. -/
theorem places (h : Accounts tr s) :
    (s.jobs ++ (ran tr).map Task.job ++ refusals tr).Perm (carried (sent tr)) := by
  classical
  refine List.perm_iff_count.mpr fun j => ?_
  have hline := congrArg (List.count j) (congrArg carried h.line)
  have hcarried := congrArg (List.count j) (carried_filter s.ingress)
  have htasks := h.tasks.count_eq j
  have harmings := h.armings.count_eq j
  simp only [Loop.jobs, carried, List.filterMap_append, List.count_append]
    at hline hcarried htasks harmings ⊢
  omega

end Accounts

/-- A scheduler to which nothing has happened yet. -/
structure Loop.Fresh (s : Loop α) : Prop where
  live : s.ended = false
  roster : s.roster.entries = []
  queues : s.queues = {}
  timers : s.timers = {}
  reports : s.reports = []
  ingress : s.ingress = []
  handles : s.handles = 0
  submitted : s.submitted = 0

theorem Loop.start_eq {clock : Clock} {interval : Span} {time : Nat} {s : Loop α}
    (h : Loop.start clock interval time = .ok s) :
    ∃ cursor, s = {
      clock, cursor, time, roster := {}, queues := {}, timers := {}, reports := [], busy := false,
      deadline := none, ingress := [], held := true, handles := 0, submitted := 0,
      ended := false } := by
  unfold start at h
  cases hread : clock.read (.ofMillis time) with
  | error fault =>
    rw [hread] at h
    cases h
  | ok now =>
    cases hcursor : Cursor.start now interval with
    | error fault =>
      simp only [hread, hcursor, bind, Except.bind] at h
      cases h
    | ok cursor =>
      simp only [hread, hcursor, bind, Except.bind, pure, Except.pure] at h
      exact ⟨cursor, (Except.ok.inj h).symm⟩

theorem Loop.fresh_of_start {clock : Clock} {interval : Span} {time : Nat} {s : Loop α}
    (h : Loop.start clock interval time = .ok s) : s.Fresh := by
  obtain ⟨cursor, rfl⟩ := start_eq h
  exact ⟨rfl, rfl, rfl, rfl, rfl, rfl, rfl, rfl⟩

theorem Accounts.start {s : Loop α} (h : s.Fresh) : Accounts [] s where
  handles := h.handles
  submitted := h.submitted
  line := by
    rw [h.ingress]
    rfl
  queues := by
    rw [h.queues]
    exact Table.sorted_nil
  timers := by
    rw [h.timers]
    exact Table.sorted_nil
  owners k owner := by
    rw [h.timers]
    exact iff_of_false nofun nofun
  tasks := by
    rw [h.queues]
    exact .refl _
  armings := by
    rw [h.timers]
    exact .refl _

theorem Leads.accounts {s₀ s : Loop α} {tr : List (Mark α)} (h₀ : s₀.Fresh)
    (h : Leads s₀ tr s) : Accounts tr s := by
  induction h with
  | start => exact .start h₀
  | change _ hc ih => exact ih.change hc

end PhasedGrid.Schedule
