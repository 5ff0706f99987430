import PhasedGrid.Proofs.Schedule.Armings

/-!
No job is lost and none runs twice. At every moment before the loop ends, a job that was submitted
is in one place: on its way in, pending on the timer it was armed on, in the queue of its module,
done, or dropped because its timer was not allocated when it was armed.
-/

namespace PhasedGrid.Schedule

set_option autoImplicit false

variable {α : Type}

/-- Among the commands `cs` is the one that brings a task to the queue of `m`. -/
def Task.From (cs : List (Command α)) (m : String) (task : Task α) : Prop :=
  match task.status with
  | none => ∃ wake, Command.now m task.job wake ∈ cs
  | some _ => ∃ h d, Command.after h d task.job ∈ cs ∧ Command.allocate h m ∈ cs

theorem Task.From.mono {cs cs' : List (Command α)} {m : String} {task : Task α}
    (h : task.From cs m) (hcs : ∀ c ∈ cs, c ∈ cs') : task.From cs' m := by
  unfold From at h ⊢
  split at h
  · obtain ⟨wake, hc⟩ := h
    exact ⟨wake, hcs _ hc⟩
  · obtain ⟨k, d, hc, ho⟩ := h
    exact ⟨k, d, hcs _ hc, hcs _ ho⟩

/-- Where the jobs came from that are pending, queued or refused. -/
structure Sourced (tr : List (Mark α)) (s : Loop α) : Prop where
  pending : ∀ h p, s.timers.pending? h = some p → ∃ d, .after h d p.payload ∈ handled tr
  queued : ∀ m task time, .queued m task time ∈ tr → task.From (handled tr) m
  refused : ∀ j ∈ refusals tr, ∃ h d pre post,
    handled tr = pre ++ .after h d j :: post ∧ ∀ owner, .allocate h owner ∉ pre

namespace Sourced

variable {s s' : Loop α} {tr ms : List (Mark α)}

/-- What a timer releases goes to the module that the timer was allocated for. -/
theorem released (h : Sourced tr s) (hA : Accounts tr s) {k : Nat} {slot : Slot (Job α)}
    {p : Pending (Job α)} (hk : Table.get? k s.timers.slots = some slot)
    (hp : slot.pending = some p) (status : TimerStatus) :
    Task.From (handled tr) slot.owner ⟨p.payload, some status⟩ := by
  obtain ⟨d, hd⟩ := h.pending k p (by rw [Timers.pending?, hk]; exact hp)
  refine ⟨k, d, hd, (hA.owners k slot.owner).mp ?_⟩
  rw [Timers.owner?, hk]
  rfl

theorem queued_change (h : Sourced tr s) (hA : Accounts tr s) (hc : Change s ms s') {m : String}
    {task : Task α} {time : Nat} (hmem : .queued m task time ∈ ms) :
    task.From (handled (tr ++ ms)) m := by
  have hold : ∀ {owner : String} {t : Task α}, t.From (handled tr) owner →
      t.From (handled (tr ++ ms)) owner := by
    intro owner t ht
    refine ht.mono fun c hc => ?_
    rw [handled_append]
    exact List.mem_append_left _ hc
  cases hc with
  | enqueued m' j wake rest =>
    simp only [List.mem_cons, reduceCtorEq, Mark.queued.injEq, List.not_mem_nil, or_false,
      false_or] at hmem
    obtain ⟨rfl, rfl, -⟩ := hmem
    refine ⟨wake, ?_⟩
    rw [handled_append]
    exact List.mem_append_right _ List.mem_cons_self
  | rearmed k d j rest timers owner old _ harm =>
    simp only [List.mem_cons, reduceCtorEq, Mark.queued.injEq, List.not_mem_nil, or_false,
      false_or] at hmem
    obtain ⟨rfl, rfl, -⟩ := hmem
    obtain ⟨slot, p, hslot, hp, rfl, rfl⟩ := Timers.arm_replaced harm
    exact hold (h.released hA hslot.known hp _)
  | expired r reports timers owner j _ hfire =>
    obtain ⟨rfl, rfl, -⟩ := Mark.queued.inj (List.mem_singleton.mp hmem)
    obtain ⟨slot, p, hslot, -, hp, rfl, rfl, -⟩ := Timers.fire_eq_some hfire
    exact hold (h.released hA hslot hp _)
  | _ => simp at hmem

theorem refused_change (hA : Accounts tr s) (hc : Change s ms s') {j : Job α}
    (hj : j ∈ refusals ms) :
    ∃ h d pre post, handled (tr ++ ms) = pre ++ .after h d j :: post ∧
      ∀ owner, .allocate h owner ∉ pre := by
  cases hc with
  | refused k d j' rest _ hnone =>
    obtain rfl := List.mem_singleton.mp hj
    refine ⟨k, d, handled tr, [], handled_append .., fun owner hmem => ?_⟩
    have howner := (hA.owners k owner).mpr hmem
    rw [Timers.owner?, hnone] at howner
    cases howner
  | _ => cases hj

theorem change (h : Sourced tr s) (hA : Accounts tr s)
    (hc : Change s ms s') : Sourced (tr ++ ms) s' := by
  refine ⟨fun k p hp => ?_, fun m task time hmem => ?_, fun j hj => ?_⟩
  · rw [handled_append]
    rcases (hc.slots hA.opensNew).pending hp with hp | ⟨d, hd⟩
    · obtain ⟨d, hd⟩ := h.pending k p hp
      exact ⟨d, List.mem_append_left _ hd⟩
    · exact ⟨d, List.mem_append_right _ hd⟩
  · rcases List.mem_append.mp hmem with hmem | hmem
    · refine (h.queued m task time hmem).mono fun c hc => ?_
      rw [handled_append]
      exact List.mem_append_left _ hc
    · exact h.queued_change hA hc hmem
  · rw [refusals_append] at hj
    rcases List.mem_append.mp hj with hj | hj
    · obtain ⟨k, d, pre, post, heq, hpre⟩ := h.refused j hj
      refine ⟨k, d, pre, post ++ handled ms, ?_, hpre⟩
      rw [handled_append, heq, List.append_assoc, List.cons_append]
    · exact refused_change hA hc hj

end Sourced

/-- The state of every job before the loop ends.

Jobs are numbered in the order in which they were submitted, and each is in one place. -/
structure Kept (tr : List (Mark α)) (s : Loop α) : Prop where
  numbers : (carried (sent tr)).map Job.number = List.range s.submitted
  places : (s.jobs ++ (ran tr).map Task.job ++ refusals tr).Perm (carried (sent tr))
  /-- What was not taken up yet is on its way in, in the order in which it was sent. -/
  ingress : handled tr ++ s.ingress.filter Command.ordered = sent tr
  /-- A job is pending on the timer it was armed on. -/
  onTimer : ∀ h p, s.timers.pending? h = some p → ∃ d, .after h d p.payload ∈ handled tr
  /-- What waits in a queue was appended to it. -/
  inQueue : ∀ m, ∀ task ∈ s.queues.waiting m, task ∈ appended m tr
  /-- A job is appended to the queue of its module, or of the owner of its timer. -/
  owned : ∀ m, ∀ task ∈ appended m tr, task.From (handled tr) m
  /-- No job is appended to a queue twice. -/
  once : ((queued tr).map Task.number).Nodup
  /-- A job that was refused was to be armed on a timer that had not been allocated. -/
  unknown : ∀ j ∈ refusals tr, ∃ h d pre post,
    sent tr = pre ++ .after h d j :: post ∧ ∀ owner, .allocate h owner ∉ pre
  /-- A job that is armed on a timer allocated before is not refused. -/
  known : ∀ pre post h d j owner, sent tr = pre ++ .after h d j :: post →
    .allocate h owner ∈ pre → j ∉ refusals tr
  /-- An armed job that is not refused is pending, or was released with the status that is due. -/
  fates : ∀ pre post h d j time, tr = pre ++ .applied (.after h d j) time :: post →
    (∃ rest, post = .seen (.refused j) :: rest) ∨
      Fate (∃ p, s.timers.pending? h = some p ∧ p.payload = j) h j (time + d) post

section Leads

variable {s₀ s : Loop α} {tr : List (Mark α)}

theorem Leads.sourced (h₀ : s₀.Fresh) (h : Leads s₀ tr s) : Sourced tr s := by
  induction h with
  | start =>
    refine ⟨fun k p hp => ?_, nofun, nofun⟩
    rw [h₀.timers] at hp
    cases hp
  | change hl hc ih => exact ih.change (hl.accounts h₀) hc

theorem Leads.fated (h₀ : s₀.Fresh) (h : Leads s₀ tr s) : s.Stamped ∧ Fated tr s := by
  induction h with
  | start =>
    refine ⟨⟨fun x hx => ?_, fun r hr => ?_⟩, fun pre _ _ _ _ _ heq => ?_⟩
    · rw [h₀.timers] at hx
      cases hx
    · rw [h₀.reports] at hr
      cases hr
    · cases pre <;> cases heq
  | change hl hc ih =>
    have hA := hl.accounts h₀
    exact ⟨ih.1.change hA.opensNew hc,
      ih.2.change ih.1 hA.opensNew hc⟩

theorem Leads.kept (h₀ : s₀.Fresh) (h : Leads s₀ tr s) : Kept tr s := by
  have hA := h.accounts h₀
  have hsourced := h.sourced h₀
  have hlined := (h.lined h₀).1
  have hunknown : ∀ j ∈ refusals tr, ∃ h d pre post,
      sent tr = pre ++ .after h d j :: post ∧ ∀ owner, .allocate h owner ∉ pre := by
    intro j hj
    obtain ⟨k, d, pre, post, heq, hpre⟩ := hsourced.refused j hj
    refine ⟨k, d, pre, post ++ s.ingress.filter Command.ordered, ?_, hpre⟩
    rw [← hA.line, heq, List.append_assoc, List.cons_append]
  refine ⟨hA.numbers, hA.places, hA.line, hsourced.pending, fun m task htask => ?_,
    fun m task htask => ?_, ?_, hunknown, ?_, ?_⟩
  · rw [← hlined m]
    exact List.mem_append_right _ htask
  · obtain ⟨time, hmem⟩ := mem_appended htask
    exact hsourced.queued m task time hmem
  · have hall := hA.nodup_tasks
    rw [List.map_append, List.map_map] at hall
    exact (List.nodup_append.mp hall).1
  · intro pre post k d j owner heq hmem hj
    obtain ⟨k', d', pre', post', heq', hpre'⟩ := hunknown j hj
    have hnodup : ((sent tr).filterMap fun c => c.job?.map Job.number).Nodup := by
      rw [← List.map_filterMap]
      exact hA.nodup_sent
    -- A job is sent once, so it stands behind the same commands in both.
    obtain ⟨rfl, hc⟩ := split_unique hnodup rfl rfl heq heq'
    obtain ⟨rfl, -⟩ := Command.after.inj hc
    exact hpre' owner hmem
  · intro pre post k d j time heq
    refine ((h.fated h₀).2 pre post k d j time heq).imp id (Fate.mono ?_)
    rintro ⟨slot, p, hslot, hp, hj, -⟩
    refine ⟨p, ?_, hj⟩
    rw [Timers.pending?, hslot]
    exact hp

theorem Leads.not_ended (h : Leads s₀ tr s) : Mark.seen .ended ∉ tr := by
  induction h with
  | start => exact List.not_mem_nil
  | change _ hc ih =>
    intro hmem
    rcases List.mem_append.mp hmem with hmem | hmem
    · exact ih hmem
    · cases hc <;> simp at hmem

end Leads

/-- In every run: at each moment before the loop ends the jobs are accounted for, and after the end
nothing happens but that orders are given in vain. -/
theorem jobs_kept {clock : Clock} {interval : Span} {time : Nat} {s₀ s : Loop α}
    {tr : List (Mark α)} (h₀ : Loop.start clock interval time = .ok s₀) (hr : Runs s₀ tr s) :
    (s.ended = false → Kept tr s) ∧
      ∀ pre post, tr = pre ++ .seen .ended :: post →
        ∃ os : List (Order α), post = os.map .gave := by
  have hfresh := Loop.fresh_of_start h₀
  rcases hr.leads hfresh.live with ⟨hs, hl⟩ | ⟨hs, s₁, tr₁, os, hl, rfl⟩
  · refine ⟨fun _ => hl.kept hfresh, fun pre post heq => absurd ?_ hl.not_ended⟩
    rw [heq]
    simp
  · refine ⟨fun hlive => absurd hlive (by rw [hs]; decide), fun pre post heq => ?_⟩
    rcases split_append heq with ⟨post', heq', -⟩ | ⟨pre', -, hcoda⟩
    · refine absurd ?_ hl.not_ended
      rw [heq']
      simp
    · obtain ⟨-, -, rfl⟩ := split_cons hcoda (by simp)
      exact ⟨os, rfl⟩

/-- A job in each place: one timer is armed three times, with a report between the last two, and one
that was never allocated once. -/
def rearming : List (Move String) :=
  [.order (.register "a" (.ofMillis 100)), .order (.allocate "a"), .order (.after 0 5 "first" []),
    .order (.after 0 5 "second" [.now "b" "third" [] true]), .order (.after 7 1 "lost" []),
    .turn, .turn, .turn, .turn, .turn, .turn, .wait 5, .report 0, .turn, .turn, .turn,
    .order (.after 0 20 "fourth" []), .order (.post "fifth" []), .turn]

set_option maxRecDepth 4000 in
/-- The job in each place, put to the general statement. -/
theorem rearming_kept :
    ∃ s₀ tr s, Loop.start epoch (.ofSeconds 100 0) 0 = .ok s₀ ∧ Runs s₀ tr s ∧
      s.jobs.map Job.label = ["fifth", "fourth", "third"] ∧
      (ran tr).map (fun task => (task.job.label, task.status)) =
        [("first", some .cancelled), ("second", some .expired)] ∧
      (refusals tr).map Job.label = ["lost"] ∧ Kept tr s := by
  obtain ⟨s₀, tr, s, h₀, hr, hp⟩ := exists_run epoch (.ofSeconds 100 0) 0 rearming
    (fun tr s => !s.ended && s.jobs.map Job.label == ["fifth", "fourth", "third"] &&
      (ran tr).map (fun task => (task.job.label, task.status)) ==
        [("first", some .cancelled), ("second", some .expired)] &&
      (refusals tr).map Job.label == ["lost"])
    (by decide +kernel)
  simp only [Bool.and_eq_true, Bool.not_eq_true', beq_iff_eq] at hp
  obtain ⟨⟨⟨hlive, hjobs⟩, hran⟩, hrefused⟩ := hp
  exact ⟨s₀, tr, s, h₀, hr, hjobs, hran, hrefused, (jobs_kept h₀ hr).1 hlive⟩

end PhasedGrid.Schedule
