import PhasedGrid.Proofs.Schedule.Strides

/-!
At most one continuation of the worker is under way, and the worker is busy exactly as long as one
is. So nothing that calls an idle worker is forgotten, and the next job waits for the commands that
were there when the last one was done.
-/

namespace PhasedGrid.Schedule

set_option autoImplicit false

variable {α : Type}

/-- A run in which somebody can give orders all the time. -/
inductive Lives (s₀ : Loop α) : List (Mark α) → Loop α → Prop
  | start : s₀.alive → Lives s₀ [] s₀
  | step {tr ms : List (Mark α)} {s s' : Loop α} :
      Lives s₀ tr s → Step s ms s' → s'.alive → Lives s₀ (tr ++ ms) s'

theorem Lives.runs {s₀ s : Loop α} {tr : List (Mark α)} (h : Lives s₀ tr s) : Runs s₀ tr s := by
  induction h with
  | start => exact .start
  | step _ hstep _ ih => exact ih.step hstep

/-- The continuations of the worker that are under way. -/
def Loop.continuations (s : Loop α) : Nat := s.ingress.countP fun c => !c.ordered

/-- `task` was queued for `m` by a command that is not to wake the worker, and the worker has not
been called since. -/
def Deferred (m : String) (task : Task α) (tr : List (Mark α)) : Prop :=
  ∃ pre post job time, task = ⟨job, none⟩ ∧
    tr = pre ++ .applied (.now m job false) time :: .queued m task time :: post ∧
      ∀ x ∈ post, x.wakes = false

/-- The entry `x` behind `pre` tells that a job from a queue has run. -/
def Served (pre : List (Mark α)) (x : Mark α) : Prop :=
  ∃ task time, x = .seen (.ran task.job task.status time) ∧ task ∈ queued pre

/-- Whatever has been sent by the time a job from a queue is done is taken up before another one. -/
def Drained (tr : List (Mark α)) : Prop :=
  ∀ pre x mid y post, tr = pre ++ x :: mid ++ y :: post → Served pre x →
    Served (pre ++ x :: mid) y → sent (pre ++ [x]) <+: handled (pre ++ x :: mid)

/-- What holds of the worker between two events. -/
structure SingleFlight (tr : List (Mark α)) (s : Loop α) : Prop where
  one : s.continuations = if s.busy then 1 else 0
  deferred : s.busy = false → ∀ e, s.active? = some e → ∀ task ∈ s.queues.waiting e.id,
    Deferred e.id task tr
  drained : Drained tr

/-- The commands `cs` are taken up by now, or else before the continuation that is under way. -/
def Ahead (cs : List (Command α)) (tr : List (Mark α)) (s : Loop α) : Prop :=
  cs <+: handled tr ∨ s.busy ∧ ∃ xs ys, s.ingress = xs ++ .work :: ys ∧ (∀ c ∈ xs, c.ordered) ∧
    cs <+: handled tr ++ xs

/-- What had been sent when a job from a queue was done goes ahead of the next one. -/
def Leading (tr : List (Mark α)) (s : Loop α) : Prop :=
  ∀ pre x mid, tr = pre ++ x :: mid → Served pre x → Ahead (sent (pre ++ [x])) tr s

/-- A call to the worker of a loop in which orders can be given. -/
inductive Works (s : Loop α) : List (Mark α) → Loop α → Prop
  | idle : (∀ e, s.active? = some e → s.queues.waiting e.id = []) →
      Works s [] { s with busy := false }
  | served (e : Entry) (task : Task α) (queues : Queues (Task α)) :
      s.active? = some e → s.queues.pop? e.id = some (task, queues) →
        Works s [.seen (.ran task.job task.status s.time)]
          (({ s with queues, busy := true }.sends task.job.follow).send .work)

theorem ordered_of_mem_handled {tr : List (Mark α)} {c : Command α} (h : c ∈ handled tr) :
    c.ordered := by
  obtain ⟨x, -, hx⟩ := List.mem_filterMap.mp h
  cases x with
  | applied c' time =>
    obtain ⟨hc, heq⟩ := Option.ite_none_right_eq_some.mp hx
    exact Option.some.inj heq ▸ hc
  | _ => cases hx

theorem Loop.continuations_eq_zero_iff (s : Loop α) :
    s.continuations = 0 ↔ ∀ c ∈ s.ingress, c.ordered := by
  simp [continuations, List.countP_eq_zero]

theorem Loop.worker_eq {s : Loop α} (hs : s.ended = false) {e : Entry} {task : Task α}
    {queues : Queues (Task α)} (he : s.active? = some e)
    (hpop : s.queues.pop? e.id = some (task, queues)) :
    s.worker =
      let next := { s with queues, busy := true }.sends task.job.follow
      let events := [.ran task.job task.status s.time]
      if next.alive then (next.send .work, events) else ({ next with busy := false }, events) := by
  unfold active? at he
  simp only [worker, he, hpop, runJob, foldl_issue (s := { s with queues, busy := true }) hs]

theorem Loop.worker_works {s : Loop α} (hs : s.ended = false) (ha : s.worker.1.alive) :
    Works s (s.worker.2.map .seen) s.worker.1 := by
  cases he : s.active? with
  | none =>
    have hidle : s.worker = ({ s with busy := false }, []) := by
      unfold active? at he
      simp only [worker, he]
    rw [hidle]
    apply Works.idle
    intro e he'
    rw [he] at he'
    cases he'
  | some e =>
    cases hpop : s.queues.pop? e.id with
    | none =>
      have hidle : s.worker = ({ s with busy := false }, []) := by
        unfold active? at he
        simp only [worker, he, hpop]
      rw [hidle]
      apply Works.idle
      intro e' he'
      obtain rfl : e = e' := Option.some.inj (he.symm.trans he')
      unfold Queues.pop? at hpop
      split at hpop
      · assumption
      · cases hpop
    | some popped =>
      obtain ⟨task, queues⟩ := popped
      rw [worker_eq hs he hpop] at ha ⊢
      dsimp only at ha ⊢
      split
      · exact .served e task queues he hpop
      · -- Whether orders can be given does not depend on the worker being busy.
        rename_i hdead
        rw [if_neg hdead] at ha
        exact absurd ha hdead

section Spares

variable {s s₁ s' : Loop α} {tr ms ws : List (Mark α)}

theorem Spares.continuations (h : Spares s ms s₁) : s₁.continuations = s.continuations := by
  obtain ⟨new, hnew, hline⟩ := h.line
  have hcount := congrArg (List.countP fun c => !c.ordered) hline
  have hnone : ∀ cs : List (Command α), (∀ c ∈ cs, c.ordered) → cs.countP (fun c => !c.ordered) = 0 := by
    intro cs hcs
    simpa [List.countP_eq_zero] using hcs
  rw [List.countP_append, List.countP_append, hnone _ hnew,
    hnone _ fun _ => ordered_of_mem_handled] at hcount
  unfold Loop.continuations
  omega

theorem Ahead.spares {cs : List (Command α)} (h : Ahead cs tr s) (hsp : Spares s ms s₁) :
    Ahead cs (tr ++ ms) s₁ := by
  unfold Ahead
  rw [handled_append, hsp.busy]
  rcases h with h | ⟨hb, xs, ys, hi, hxs, hcs⟩
  · exact .inl (h.trans (List.prefix_append _ _))
  obtain ⟨new, -, hline⟩ := hsp.line
  rw [hi, List.append_assoc, List.cons_append] at hline
  refine .inr ⟨hb, ?_⟩
  rcases List.append_eq_append_iff.mp hline with ⟨zs, rfl, hrest⟩ | ⟨zs, hh, hrest⟩
  · refine ⟨zs, ys ++ new, hrest, ?_, ?_⟩
    · intro c hc
      exact hxs c (List.mem_append_right _ hc)
    · rw [List.append_assoc]
      exact hcs
  · -- The continuation is not among what is taken up, so that is all that stood before it.
    cases zs with
    | nil =>
      refine ⟨[], ys ++ new, hrest.symm, nofun, ?_⟩
      rw [hh, List.append_nil, List.append_nil]
      exact hcs
    | cons z zs =>
      obtain ⟨rfl, -⟩ := List.cons.inj hrest
      have hmem : Command.work ∈ handled ms := by
        rw [hh]
        simp
      cases ordered_of_mem_handled hmem

/-- No job from a queue runs while the worker does nothing. -/
theorem Spares.served (h : Spares s ms s₁) (hA : Accounts (tr ++ ms ++ ws) s')
    {pre mid : List (Mark α)} {x : Mark α} (heq : tr ++ ms = pre ++ x :: mid) (hx : Served pre x) :
    ∃ mid', tr = pre ++ x :: mid' ∧ mid = mid' ++ ms := by
  rcases split_append heq with hold | ⟨pre', rfl, hms⟩
  · exact hold
  obtain ⟨task, time, rfl, hq⟩ := hx
  have hran : task ∈ ran ms := by
    rw [hms, ran_append]
    simp [ran]
  have hqueued : task ∈ queued (tr ++ ms ++ ws) := by
    rw [heq, queued_append, queued_append]
    exact List.mem_append_left _ (List.mem_append_left _ hq)
  have hposted : task.job ∈ posts (tr ++ ms ++ ws) := by
    rw [posts_append, posts_append]
    exact List.mem_append_left _ (List.mem_append_right _ (h.posted task hran))
  exact absurd rfl (hA.not_queued hqueued hposted)

theorem Spares.drained (h : Spares s ms s₁) (hA : Accounts (tr ++ ms ++ ws) s') (hd : Drained tr) :
    Drained (tr ++ ms) := by
  intro pre x mid y post heq hx hy
  obtain ⟨post', heq', -⟩ := h.served hA heq hy
  exact hd pre x mid y post' heq' hx hy

theorem Spares.leading (h : Spares s ms s₁) (hA : Accounts (tr ++ ms ++ ws) s')
    (hl : Leading tr s) : Leading (tr ++ ms) s₁ := by
  intro pre x mid heq hx
  obtain ⟨mid', heq', -⟩ := h.served hA heq hx
  exact (hl pre x mid' heq' hx).spares h

end Spares

section Worker

variable {s s₁ s' : Loop α} {tr ws : List (Mark α)}

theorem Ahead.of_idle {cs : List (Command α)} (h : Ahead cs tr s) (hb : s.busy = false) :
    cs <+: handled tr := by
  refine h.resolve_right ?_
  rintro ⟨hbusy, -⟩
  rw [hb] at hbusy
  cases hbusy

theorem Ahead.of_work {cs rest : List (Command α)} (h : Ahead cs tr s)
    (hi : s.ingress = .work :: rest) : cs <+: handled tr := by
  rcases h with h | ⟨-, xs, ys, hxs, hordered, hcs⟩
  · exact h
  cases xs with
  | nil =>
    rw [List.append_nil] at hcs
    exact hcs
  | cons x xs =>
    rw [hi] at hxs
    obtain ⟨rfl, -⟩ := List.cons.inj hxs
    cases hordered .work List.mem_cons_self

/-- A call to the worker when no continuation is under way and all that had been sent by the end of
the last job is taken up. -/
theorem Works.flight (h : Works s ws s₁) (hs : s.ended = false) (hnone : s.continuations = 0)
    (hd : Drained tr)
    (hall : ∀ pre x mid, tr = pre ++ x :: mid → Served pre x → sent (pre ++ [x]) <+: handled tr)
    (hline : handled (tr ++ ws) ++ s₁.ingress.filter Command.ordered = sent (tr ++ ws)) :
    SingleFlight (tr ++ ws) s₁ ∧ Leading (tr ++ ws) s₁ := by
  cases h with
  | idle hrest =>
    rw [List.append_nil]
    refine ⟨⟨hnone, ?_, hd⟩, ?_⟩
    · intro _ e he task htask
      rw [show s.queues.waiting e.id = [] from hrest e he] at htask
      cases htask
    · intro pre x mid heq hx
      exact .inl (hall pre x mid heq hx)
  | served e task queues he hpop =>
    let xs := s.ingress ++ commands s.handles s.submitted task.job.follow
    have hxs : ∀ c ∈ xs, c.ordered := by
      intro c hc
      rcases List.mem_append.mp hc with hc | hc
      · exact s.continuations_eq_zero_iff.mp hnone c hc
      · exact ordered_of_mem_commands _ _ hc
    have hsame : handled (tr ++ [.seen (.ran task.job task.status s.time)]) = handled tr := by
      rw [handled_append]
      exact List.append_nil _
    have hsend := Loop.send_eq (s := { s with queues, busy := true }.sends task.job.follow) hs
      Command.work
    rw [hsend] at hline ⊢
    change handled _ ++ (xs ++ [Command.work]).filter Command.ordered = _ at hline
    refine ⟨⟨?_, nofun, ?_⟩, ?_⟩
    · have hzero : xs.countP (fun c => !c.ordered) = 0 := by
        rw [List.countP_eq_zero]
        simpa using hxs
      change (xs ++ [Command.work]).countP (fun c : Command α => !c.ordered) = 1
      rw [List.countP_append, hzero]
      rfl
    · intro pre x mid y post heq hx hy
      rcases split_append heq with ⟨post', heq', -⟩ | ⟨pre', hpre, hlast⟩
      · exact hd pre x mid y post' heq' hx hy
      · obtain ⟨rfl, -, -⟩ := split_cons hlast List.not_mem_nil
        rw [List.append_nil] at hpre
        rw [hpre]
        exact hall pre x mid hpre.symm hx
    · intro pre x mid heq hx
      rcases split_append heq with ⟨mid', heq', -⟩ | ⟨pre', rfl, hlast⟩
      · left
        rw [hsame]
        exact hall pre x mid' heq' hx
      · -- The job that has just run sends its own commands in front of the continuation.
        obtain ⟨rfl, rfl, -⟩ := split_cons hlast List.not_mem_nil
        refine .inr ⟨rfl, xs, [], rfl, hxs, ?_⟩
        rw [List.append_nil, ← hline, List.filter_append, List.filter_eq_self.mpr hxs]
        exact ⟨[], by rw [List.append_nil]; exact congrArg _ (List.append_nil xs)⟩

theorem Served.before {pre mid : List (Mark α)} {x : Mark α} {c : Command α} {time : Nat}
    (hx : Served pre x) (heq : tr ++ [.applied c time] = pre ++ x :: mid) :
    ∃ mid', tr = pre ++ x :: mid' := by
  rcases split_append heq with ⟨mid', hold, -⟩ | ⟨pre', -, hlast⟩
  · exact ⟨mid', hold⟩
  · obtain ⟨-, rfl, -⟩ := split_cons hlast List.not_mem_nil
    obtain ⟨task, time', hran, -⟩ := hx
    cases hran

end Worker

section Step

variable {s s' : Loop α} {tr ms : List (Mark α)}

theorem Deferred.append {m : String} {task : Task α} (h : Deferred m task tr)
    (hms : ∀ x ∈ ms, x.wakes = false) : Deferred m task (tr ++ ms) := by
  obtain ⟨pre, post, job, time, hjob, rfl, hpost⟩ := h
  refine ⟨pre, post ++ ms, job, time, hjob, by simp, ?_⟩
  intro x hx
  rcases List.mem_append.mp hx with hx | hx
  · exact hpost x hx
  · exact hms x hx

/-- As long as the worker is not called, what is added to the queues was to be deferred. -/
theorem Quiet.deferred (h : Quiet s ms s')
    (hd : ∀ e, s.active? = some e → ∀ task ∈ s.queues.waiting e.id, Deferred e.id task tr) :
    ∀ e, s'.active? = some e → ∀ task ∈ s'.queues.waiting e.id, Deferred e.id task (tr ++ ms) := by
  intro e he task htask
  have hold := hd e (h.active e he)
  rcases h.queues with hq | ⟨m, j, time, rfl, hq⟩
  · rw [hq] at htask
    exact (hold task htask).append h.wakes
  · rw [hq, Queues.waiting_push] at htask
    split at htask
    · rename_i hm
      subst hm
      rcases List.mem_append.mp htask with htask | htask
      · exact (hold task htask).append h.wakes
      · obtain rfl := List.mem_singleton.mp htask
        exact ⟨tr, [], j, time, rfl, rfl, nofun⟩
    · exact (hold task htask).append h.wakes

theorem SingleFlight.stride (h : SingleFlight tr s) (hl : Leading tr s) (hs : s.ended = false)
    (hstride : Stride s ms s') (ha : s'.alive) (hA : Accounts (tr ++ ms) s') :
    SingleFlight (tr ++ ms) s' ∧ Leading (tr ++ ms) s' := by
  cases hstride with
  | quiet hq =>
    rw [← List.append_nil (tr ++ ms)] at hA
    refine ⟨⟨?_, ?_, hq.drained hA h.drained⟩, hq.leading hA hl⟩
    · rw [hq.continuations, hq.busy]
      exact h.one
    · rw [hq.busy]
      intro hb
      exact hq.deferred (h.deferred hb)
  | @asked ms s₁ deadline hsp =>
    rw [← List.append_assoc] at hA ⊢
    have hone := h.one
    rw [← hsp.continuations, ← hsp.busy] at hone
    have hdrained := hsp.drained hA h.drained
    have hleading := hsp.leading hA hl
    unfold Loop.startWorker at hA ha ⊢
    by_cases hb : s₁.busy
    · rw [if_pos hb] at hA ha ⊢
      rw [List.map_nil, List.append_nil]
      refine ⟨⟨hone, ?_, hdrained⟩, hleading⟩
      intro hidle
      exact absurd (hb.symm.trans hidle) (by decide)
    · rw [if_neg hb] at hA ha ⊢
      have hidle : s₁.busy = false := Bool.eq_false_iff.mpr hb
      have hlive : s₁.ended = false := hsp.ended.trans hs
      rw [hidle] at hone
      have hworks := Loop.worker_works hlive ha
      obtain ⟨hflight, hlead⟩ := hworks.flight hlive hone hdrained
        (fun pre x mid heq hx => (hleading pre x mid heq hx).of_idle hidle) hA.line
      exact ⟨⟨hflight.one, hflight.deferred, hflight.drained⟩, hlead⟩
  | @continued rest hi =>
    have hone := h.one
    have hcount : s.continuations = { s with ingress := rest }.continuations + 1 := by
      unfold Loop.continuations
      rw [hi]
      exact List.countP_cons_of_pos rfl
    have hnone : { s with ingress := rest }.continuations = 0 := by
      split at hone <;> omega
    have hsame : handled (tr ++ [.applied .work s.time]) = handled tr := by
      rw [handled_append]
      exact List.append_nil _
    rw [List.append_cons] at hA ⊢
    have hworks := Loop.worker_works (s := { s with ingress := rest }) hs ha
    refine hworks.flight hs hnone ?_ ?_ hA.line
    · intro pre x mid y post heq hx hy
      obtain ⟨post', heq'⟩ := hy.before heq
      exact h.drained pre x mid y post' heq' hx hy
    · intro pre x mid heq hx
      obtain ⟨mid', heq'⟩ := hx.before heq
      rw [hsame]
      exact (hl pre x mid' heq' hx).of_work hi

theorem Step.not_ended (h : Step s ms s') (hs : s'.ended = false) : s.ended = false := by
  cases h with
  | order o =>
    rw [Loop.ended_issue] at hs
    exact hs
  | turn ht => exact (Loop.turn_leads ht).1
  | wait | hold | report => exact hs

end Step

/-- In every run in which somebody can give orders all the time, at each moment before the loop
ends: the worker is busy exactly when a continuation is under way, and there is never more than one;
a job that waits for an idle worker in its own phase was to be deferred; and whatever was sent by the
time a job from a queue was done has been taken up before the next one. -/
theorem single_flight {clock : Clock} {interval : Span} {time : Nat} {s₀ s : Loop α}
    {tr : List (Mark α)} (h₀ : Loop.start clock interval time = .ok s₀) (hr : Lives s₀ tr s)
    (hs : s.ended = false) : SingleFlight tr s := by
  have hfresh := Loop.fresh_of_start h₀
  suffices SingleFlight tr s ∧ Leading tr s from this.1
  induction hr with
  | start ha =>
    obtain ⟨cursor, rfl⟩ := Loop.start_eq h₀
    refine ⟨⟨rfl, ?_, ?_⟩, ?_⟩
    · intro _ e he
      cases he
    · intro pre x mid y post heq
      cases pre <;> cases heq
    · intro pre x mid heq
      cases pre <;> cases heq
  | @step tr ms s s' hr hstep ha ih =>
    have hlive := hstep.not_ended hs
    obtain ⟨h, hl⟩ := ih hlive
    have hleads : ∀ {tr s}, Lives s₀ tr s → s.ended = false → Leads s₀ tr s := by
      intro tr s hr hs
      rcases hr.runs.leads hfresh.live with ⟨-, hl⟩ | ⟨hend, -⟩
      · exact hl
      · rw [hs] at hend
        cases hend
    have hshown : s.roster.entries = [] ∨ s.active?.isSome := by
      refine ((hleads hr hlive).lined hfresh).2.1.imp id ?_
      rintro ⟨e, phase, he, -⟩
      exact Option.isSome_of_eq_some he
    have hA := (hleads (hr.step hstep ha) hs).accounts hfresh
    rcases hstep.stride hlive hshown with hend | hstride
    · rw [hs] at hend
      cases hend
    · exact h.stride hl hlive hstride ha hA

/-- Whether somebody can give orders after every move of a script. -/
def Loop.lively (s : Loop α) : List (Move α) → Bool
  | [] => true
  | m :: rest => (s.move m).all fun next => next.2.alive && next.2.lively rest

theorem Lives.play {s₀ s s' : Loop α} {tr tr' : List (Mark α)} (h : Lives s₀ tr s)
    {moves : List (Move α)} (hp : s.play moves = some (tr', s')) (hl : s.lively moves) :
    Lives s₀ (tr ++ tr') s' := by
  induction moves generalizing s tr tr' with
  | nil =>
    obtain ⟨rfl, rfl⟩ := Prod.mk.inj (Option.some.inj hp)
    rw [List.append_nil]
    exact h
  | cons m rest ih =>
    obtain ⟨first, hfirst, hrest⟩ := Option.bind_eq_some_iff.mp hp
    obtain ⟨later, hlater, heq⟩ := Option.map_eq_some_iff.mp hrest
    obtain ⟨rfl, rfl⟩ := Prod.mk.inj heq
    unfold Loop.lively at hl
    rw [hfirst, Option.all_some, Bool.and_eq_true] at hl
    rw [← List.append_assoc]
    exact ih (h.step (Loop.move_step hfirst) hl.1) hlater hl.2

/-- Two jobs wait for a phase that wakes the worker. The orders of the first one and an allocation go
ahead of the second, and at the end a deferred job is left in front of an idle worker. -/
def deferring : List (Move String) :=
  [.order (.register "a" (.ofMillis 10)), .turn, .order (.register "b" (.ofMillis 10)), .turn,
    .order (.now "b" "mail" [.now "b" "note" [] false] false), .turn,
    .order (.now "b" "scan" [] false), .turn, .wait 10, .turn, .order (.allocate "a"), .turn, .turn,
    .turn, .turn, .turn, .order (.now "b" "sweep" [] false), .turn]

set_option maxRecDepth 4000 in
/-- The jobs of this script, put to the general statement. -/
theorem deferring_flight :
    ∃ s₀ tr s, Loop.start epoch (.ofSeconds 100 0) 0 = .ok s₀ ∧ Lives s₀ tr s ∧ s.ended = false ∧
      (ran tr).map (fun task => task.job.label) = ["mail", "scan", "note"] ∧
      s.active?.map Entry.id = some "b" ∧
      (s.queues.waiting "b").map (fun task => task.job.label) = ["sweep"] ∧ SingleFlight tr s := by
  obtain ⟨s₀, ⟨tr, s⟩, h₀, hplay, hp⟩ := exists_play epoch (.ofSeconds 100 0) 0 deferring
    (fun s₀ r => s₀.alive && s₀.lively deferring && !r.2.ended &&
      (ran r.1).map (fun task => task.job.label) == ["mail", "scan", "note"] &&
      r.2.active?.map Entry.id == some "b" &&
      (r.2.queues.waiting "b").map (fun task => task.job.label) == ["sweep"])
    (by decide +kernel)
  simp only [Bool.and_eq_true, Bool.not_eq_true', beq_iff_eq] at hp
  obtain ⟨⟨⟨⟨⟨halive, hlively⟩, hlive⟩, hran⟩, hactive⟩, hwaiting⟩ := hp
  have hr : Lives s₀ tr s := (Lives.start halive).play hplay hlively
  exact ⟨s₀, tr, s, h₀, hr, hlive, hran, hactive, hwaiting, single_flight h₀ hr hlive⟩

end PhasedGrid.Schedule
