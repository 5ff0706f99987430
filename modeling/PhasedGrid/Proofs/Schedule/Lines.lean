import PhasedGrid.Proofs.Schedule.Accounts
import PhasedGrid.Proofs.Schedule.Plays

/-!
First in, first out. The jobs that ran from the queue of a module, followed by those that still
wait in it, are the jobs that were appended to it, in that order; and each of them ran while the
phase that was published last was the module's own.
-/

namespace PhasedGrid.Schedule

set_option autoImplicit false

variable {α : Type}

def Task.number (t : Task α) : Nat := t.job.number

@[simp] def Mark.queuedTo? (m : String) : Mark α → Option (Task α)
  | .queued m' task _ => if m' = m then some task else none
  | _ => none

@[simp] def Mark.phase? : Mark α → Option PhaseChange
  | .seen (.changed phase) => some phase
  | _ => none

/-- The job that a command queues for `m` without delay. -/
@[simp] def Command.now? (m : String) : Command α → Option (Job α)
  | .now m' job _ => if m' = m then some job else none
  | _ => none

/-- What was appended to the queue of `m`, in this order. -/
def appended (m : String) (tr : List (Mark α)) : List (Task α) := tr.filterMap (Mark.queuedTo? m)

def phases (tr : List (Mark α)) : List PhaseChange := tr.filterMap Mark.phase?

/-- What ran of the jobs that were appended to the queue of `m`. -/
def ranOf (m : String) (tr : List (Mark α)) : List (Task α) :=
  (ran tr).filter fun task => task.number ∈ (appended m tr).map Task.number

theorem appended_append (m : String) (tr ms : List (Mark α)) :
    appended m (tr ++ ms) = appended m tr ++ appended m ms := List.filterMap_append

theorem appended_queued (m m' : String) (task : Task α) (time : Nat) :
    appended m [Mark.queued m' task time] = if m' = m then [task] else [] := by
  unfold appended
  rw [List.filterMap_cons]
  dsimp only [Mark.queuedTo?]
  split <;> split <;> simp_all

theorem phases_append (tr ms : List (Mark α)) : phases (tr ++ ms) = phases tr ++ phases ms :=
  List.filterMap_append

theorem mem_appended {m : String} {tr : List (Mark α)} {task : Task α}
    (h : task ∈ appended m tr) : ∃ time, Mark.queued m task time ∈ tr := by
  obtain ⟨x, hx, hq⟩ := List.mem_filterMap.mp h
  cases x with
  | queued m' task' time =>
    obtain ⟨rfl, htask⟩ := Option.ite_none_right_eq_some.mp hq
    obtain rfl := Option.some.inj htask
    exact ⟨time, hx⟩
  | _ => cases hq

theorem mem_queued_of_appended {m : String} {tr : List (Mark α)} {task : Task α}
    (h : task ∈ appended m tr) : task ∈ queued tr :=
  have ⟨_, hmem⟩ := mem_appended h
  List.mem_filterMap.mpr ⟨_, hmem, rfl⟩

section Append

variable {m : String} {tr ms : List (Mark α)}

theorem ranOf_append_ran (h : appended m ms = []) :
    ranOf m (tr ++ ms) =
      ranOf m tr ++ (ran ms).filter fun task => task.number ∈ (appended m tr).map Task.number := by
  unfold ranOf
  rw [appended_append, h, List.append_nil, ran_append, List.filter_append]

theorem ranOf_append_one {t : Task α} (h : appended m ms = []) (hran : ran ms = [t]) :
    ranOf m (tr ++ ms) =
      ranOf m tr ++ if t.number ∈ (appended m tr).map Task.number then [t] else [] := by
  rw [ranOf_append_ran h, hran]
  simp only [List.filter_cons, List.filter_nil, decide_eq_true_eq]

theorem ranOf_append_queued (h : ran ms = [])
    (hnew : ∀ t ∈ ran tr, ∀ t' ∈ appended m ms, t.number ≠ t'.number) :
    ranOf m (tr ++ ms) = ranOf m tr := by
  unfold ranOf
  rw [appended_append, ran_append, h, List.append_nil]
  refine List.filter_congr fun t ht => decide_eq_decide.mpr ?_
  rw [List.map_append, List.mem_append, or_iff_left_iff_imp]
  intro hmem
  obtain ⟨t', ht', heq⟩ := List.mem_map.mp hmem
  exact absurd heq.symm (hnew t ht t' ht')

end Append

/-- A job is appended to a queue in one place of the record. -/
theorem Accounts.queued_unique {s : Loop α} {tr : List (Mark α)} (h : Accounts tr s) {m m' : String} {task task' : Task α}
    {t t' : Nat} {pre post pre' post' : List (Mark α)} (hsplit : tr = pre ++ .queued m task t :: post)
    (hsplit' : tr = pre' ++ .queued m' task' t' :: post') (hn : task.number = task'.number) :
    pre = pre' ∧ Mark.queued m task t = .queued m' task' t' := by
  have hnodup : (tr.filterMap fun x => x.queued?.map Task.number).Nodup := by
    have hall := h.nodup_tasks
    rw [List.map_append, List.map_map, queued, List.map_filterMap] at hall
    exact (List.nodup_append.mp hall).1
  have hnumber : (Mark.queued m' task' t').queued?.map Task.number = some task.number :=
    congrArg some hn.symm
  exact split_unique hnodup rfl hnumber hsplit hsplit'

/-- No job is appended to the queues of two modules. -/
theorem Accounts.module_unique {s : Loop α} {tr : List (Mark α)} (h : Accounts tr s) {m m' : String}
    {task task' : Task α} (hm : task ∈ appended m tr) (hm' : task' ∈ appended m' tr)
    (hn : task.number = task'.number) : m = m' := by
  obtain ⟨t, ht⟩ := mem_appended hm
  obtain ⟨t', ht'⟩ := mem_appended hm'
  obtain ⟨p, q, hsplit⟩ := List.append_of_mem ht
  obtain ⟨p', q', hsplit'⟩ := List.append_of_mem ht'
  cases (h.queued_unique hsplit hsplit' hn).2
  rfl

/-- What ran from each queue, and then what still waits in it, is what was appended to it. -/
def Lined (tr : List (Mark α)) (s : Loop α) : Prop :=
  ∀ m, ranOf m tr ++ s.queues.waiting m = appended m tr

section Change

variable {s s' : Loop α} {tr ms : List (Mark α)}

theorem Lined.idle (h : Lined tr s) (hran : ran ms = []) (happ : ∀ m, appended m ms = [])
    (hq : s'.queues = s.queues) : Lined (tr ++ ms) s' := by
  intro m
  rw [ranOf_append_ran (happ m), hran, appended_append, happ m, hq]
  simpa using h m

theorem Lined.push (h : Lined tr s) (h' : Accounts (tr ++ ms) s') {m₀ : String} {task : Task α}
    (hran : ran ms = []) (happ : ∀ m, appended m ms = if m₀ = m then [task] else [])
    (hq : s'.queues = s.queues.push m₀ task) : Lined (tr ++ ms) s' := by
  intro m
  -- A job that had run already would now be in the books twice.
  have hnew : ∀ t ∈ ran tr, ∀ t' ∈ appended m ms, t.number ≠ t'.number := by
    intro t ht t' ht'
    rw [happ m] at ht'
    split at ht'
    · have hwaiting : task ∈ s'.queues.waiting m₀ := by
        rw [hq, Queues.waiting_push]
        simp
      rw [List.mem_singleton.mp ht']
      refine h'.not_ran ?_ (Queues.mem_jobs_of_waiting _ hwaiting)
      rw [ran_append]
      exact List.mem_append_left _ ht
    · cases ht'
  rw [ranOf_append_queued hran hnew, appended_append, happ m, hq, Queues.waiting_push, ← h m]
  split
  · rename_i hm
    rw [hm, List.append_assoc]
  · rw [List.append_nil]

theorem Lined.change (h : Lined tr s) (hA : Accounts tr s)
    (hc : Change s ms s') : Lined (tr ++ ms) s' := by
  have h' := hA.change hc
  cases hc with
  | rearmed k d j rest timers owner old => exact h.push h' rfl (appended_queued · owner _ _) rfl
  | expired r reports timers owner j => exact h.push h' rfl (appended_queued · owner _ _) rfl
  | enqueued m j wake rest => exact h.push h' rfl (appended_queued · m _ _) rfl
  | posted j rest =>
    intro m
    have hj : (⟨j, none⟩ : Task α).number ∉ (appended m tr).map Task.number := by
      intro hmem
      obtain ⟨task, htask, heq⟩ := List.mem_map.mp hmem
      refine h'.not_queued (j := j) ?_ ?_ heq
      · rw [queued_append]
        exact List.mem_append_left _ (mem_queued_of_appended htask)
      · rw [posts_append]
        exact List.mem_append_right _ List.mem_cons_self
    have hran : ranOf m (tr ++ [.applied (.post j) s.time, .seen (.ran j none s.time)]) =
        ranOf m tr := by
      rw [ranOf_append_one (t := ⟨j, none⟩) rfl rfl, if_neg hj, List.append_nil]
    rw [hran, appended_append]
    exact (h m).trans (List.append_nil _).symm
  | served e task queues he hpop =>
    intro m
    have hwaiting := Queues.waiting_pop hpop m
    -- The job was appended to the queue it is taken from, and to no other.
    have htask : task ∈ appended e.id tr := by
      rw [← h e.id, Queues.waiting_pop hpop e.id, if_pos rfl]
      simp
    have hmem : task.number ∈ (appended m tr).map Task.number ↔ e.id = m := by
      constructor
      · intro hn
        obtain ⟨task', htask', heq⟩ := List.mem_map.mp hn
        exact hA.module_unique htask htask' heq.symm
      · rintro rfl
        exact List.mem_map_of_mem htask
    rw [ranOf_append_one (t := task) rfl rfl, appended_append, if_congr hmem rfl rfl,
      List.append_assoc]
    exact (congrArg (ranOf m tr ++ ·) hwaiting.symm).trans ((h m).trans (List.append_nil _).symm)
  | _ => exact h.idle rfl (fun _ => rfl) rfl

/-- The module whose phase was published last is the one at the cursor, once there is any. -/
def Shown (tr : List (Mark α)) (s : Loop α) : Prop :=
  s.roster.entries = [] ∨
    ∃ e phase, s.roster.get? s.cursor.index = some e ∧ (phases tr).getLast? = some phase ∧
      phase.module = e.id

theorem Shown.idle (h : Shown tr s) (hms : phases ms = []) (hr : s'.roster = s.roster)
    (hc : s'.cursor = s.cursor) : Shown (tr ++ ms) s' := by
  unfold Shown
  rw [phases_append, hms, List.append_nil, hr, hc]
  exact h

theorem Shown.change (h : Shown tr s) (hc : Change s ms s') :
    Shown (tr ++ ms) s' := by
  cases hc with
  | rested cursor hnil => exact .inl hnil
  | joined more hne =>
    obtain ⟨e, phase, he, hlast, hm⟩ := h.resolve_left hne
    refine .inr ⟨e, phase, ?_, ?_, hm⟩
    · obtain ⟨hlt, -⟩ := List.getElem?_eq_some_iff.mp he
      exact (List.getElem?_append_left hlt).trans he
    · rw [List.append_nil]
      exact hlast
  | phased roster cursor phase e he hm =>
    refine .inr ⟨e, phase, he, ?_, hm⟩
    rw [phases_append]
    exact List.getLast?_concat
  | _ => exact h.idle rfl rfl rfl

/-- A job that ran was posted, or it came from the queue of the module whose phase it was. -/
def Paced (tr : List (Mark α)) : Prop :=
  ∀ pre post job status time, tr = pre ++ .seen (.ran job status time) :: post →
    job ∈ posts tr ∨
      ∃ m phase, ⟨job, status⟩ ∈ appended m tr ∧ (phases pre).getLast? = some phase ∧
        phase.module = m

theorem Paced.change (h : Paced tr) (hA : Accounts tr s) (hl : Lined tr s) (hshown : Shown tr s)
    (hc : Change s ms s') : Paced (tr ++ ms) := by
  intro pre post job status time heq
  rcases split_append heq with ⟨post', rfl, rfl⟩ | ⟨pre', rfl, hms⟩
  · rw [posts_append]
    refine (h pre post' job status time rfl).imp (List.mem_append_left _) ?_
    rintro ⟨m, phase, hm, hphase⟩
    refine ⟨m, phase, ?_, hphase⟩
    rw [appended_append]
    exact List.mem_append_left _ hm
  have hmem : Mark.seen (.ran job status time) ∈ ms := by
    rw [hms]
    simp
  cases hc with
  | posted j rest =>
    left
    simp only [List.mem_cons, reduceCtorEq, Mark.seen.injEq, Event.ran.injEq, List.not_mem_nil,
      false_or, or_false] at hmem
    rw [hmem.1, posts_append]
    exact List.mem_append_right _ List.mem_cons_self
  | served e task queues he hpop =>
    -- The worker serves the module at the cursor, and that is the one that was shown last.
    obtain ⟨rfl, hx, -⟩ := split_cons hms List.not_mem_nil
    obtain ⟨hjob, hstatus, -⟩ := Event.ran.inj (Mark.seen.inj hx)
    obtain ⟨e', phase, he', hlast, hphase⟩ := hshown.resolve_left fun hnil => by
      rw [Roster.get?, hnil] at he
      cases he
    obtain rfl : e' = e := Option.some.inj (he'.symm.trans he)
    refine .inr ⟨e'.id, phase, ?_, by rw [List.append_nil, hlast], hphase⟩
    rw [appended_append, ← hl e'.id, Queues.waiting_pop hpop, if_pos rfl, ← hjob, ← hstatus]
    simp
  | _ => simp at hmem

end Change

/-- A job is appended to a queue as the command that says so is taken up. -/
theorem Change.nows {s s' : Loop α} {ms : List (Mark α)} (h : Change s ms s') (m : String) :
    ((appended m ms).filter fun task => task.status.isNone).map Task.job =
      (handled ms).filterMap (Command.now? m) := by
  cases h with
  | enqueued m' j wake rest =>
    by_cases hm : m' = m <;> simp [appended, handled, List.filterMap_cons, hm]
  | rearmed k d j rest timers owner old =>
    by_cases hm : owner = m <;> simp [appended, handled, List.filterMap_cons, hm]
  | expired r reports timers owner j =>
    by_cases hm : owner = m <;> simp [appended, handled, hm]
  | taken c rest _ _ hj =>
    cases c with
    | after | now | post => cases hj
    | _ => rfl
  | _ => rfl

/-- The jobs that a queue got without a timer are those of its commands, in their order. -/
theorem Leads.nows {s₀ s : Loop α} {tr : List (Mark α)} (h : Leads s₀ tr s) (m : String) :
    ((appended m tr).filter fun task => task.status.isNone).map Task.job =
      (handled tr).filterMap (Command.now? m) := by
  induction h with
  | start => rfl
  | change _ hc ih =>
    rw [appended_append, List.filter_append, List.map_append, ih, hc.nows, handled_append,
      List.filterMap_append]

theorem Leads.lined {s₀ s : Loop α} {tr : List (Mark α)} (h₀ : s₀.Fresh) (h : Leads s₀ tr s) :
    Lined tr s ∧ Shown tr s ∧ Paced tr := by
  induction h with
  | start =>
    refine ⟨fun m => ?_, .inl h₀.roster, fun pre post job status time heq => ?_⟩
    · rw [h₀.queues]
      rfl
    · cases pre <;> cases heq
  | change hl hc ih =>
    obtain ⟨hlined, hshown, hpaced⟩ := ih
    have hA := hl.accounts h₀
    exact ⟨hlined.change hA hc, hshown.change hc, hpaced.change hA hlined hshown hc⟩

section Coda

variable (os : List (Order α))

theorem ran_coda : ran (coda os) = [] := filterMap_coda rfl (fun _ => rfl) os

theorem appended_coda (m : String) : appended m (coda os) = [] :=
  filterMap_coda rfl (fun _ => rfl) os

theorem handled_coda : handled (coda os) = [] := filterMap_coda rfl (fun _ => rfl) os

end Coda

/-- Whenever a job from the queue of `m` ran, the last phase that had been published was that of
`m`; in particular there was one. -/
def InPhase (m : String) (tr : List (Mark α)) : Prop :=
  ∀ (pre post : List (Mark α)) (task : Task α) (time : Nat),
    tr = pre ++ .seen (.ran task.job task.status time) :: post →
      task.number ∈ (appended m tr).map Task.number →
        ∃ phase, (phases pre).getLast? = some phase ∧ phase.module = m

theorem Paced.inPhase {s : Loop α} {tr : List (Mark α)} (h : Paced tr) (hA : Accounts tr s)
    (m : String) : InPhase m tr := by
  intro pre post task time heq hn
  obtain ⟨task', htask', hnumber⟩ := List.mem_map.mp hn
  rcases h pre post _ _ time heq with hposted | ⟨m', phase, hm', hlast, hphase⟩
  · exact absurd hnumber (hA.not_queued (mem_queued_of_appended htask') hposted)
  · obtain rfl := hA.module_unique htask' hm' hnumber
    exact ⟨phase, hlast, hphase⟩

theorem InPhase.coda {m : String} {tr : List (Mark α)} (h : InPhase m tr) (os : List (Order α)) :
    InPhase m (tr ++ Schedule.coda os) := by
  intro pre post task time heq hn
  rw [appended_append, appended_coda, List.append_nil] at hn
  rcases split_append heq with ⟨post', heq', -⟩ | ⟨pre', -, hcoda⟩
  · exact h pre post' task time heq' hn
  · have hmem : task ∈ ran (Schedule.coda os) := by
      rw [hcoda, ran_append]
      simp [ran]
    rw [ran_coda] at hmem
    cases hmem

/-- In every run and for every module: what ran from its queue is what was appended to it first, and
as long as the loop goes on the rest still waits there in order; the jobs appended without a timer
are those of the commands in the order they were taken up; and each job from the queue ran in the
module's phase. -/
theorem queue_order {clock : Clock} {interval : Span} {time : Nat} {s₀ s : Loop α}
    {tr : List (Mark α)} (h₀ : Loop.start clock interval time = .ok s₀) (hr : Runs s₀ tr s)
    (m : String) :
    ranOf m tr <+: appended m tr ∧
      (s.ended = false → ranOf m tr ++ s.queues.waiting m = appended m tr) ∧
      ((appended m tr).filter fun task => task.status.isNone).map Task.job =
        (handled tr).filterMap (Command.now? m) ∧
      InPhase m tr := by
  have hfresh := Loop.fresh_of_start h₀
  rcases hr.leads hfresh.live with ⟨hs, hl⟩ | ⟨hs, s₁, tr₁, os, hl, rfl⟩
  · obtain ⟨hlined, -, hpaced⟩ := hl.lined hfresh
    exact ⟨⟨_, hlined m⟩, fun _ => hlined m, hl.nows m, hpaced.inPhase (hl.accounts hfresh) m⟩
  · obtain ⟨hlined, -, hpaced⟩ := hl.lined hfresh
    have happ : appended m (tr₁ ++ coda os) = appended m tr₁ := by
      rw [appended_append, appended_coda, List.append_nil]
    have hran : ranOf m (tr₁ ++ coda os) = ranOf m tr₁ := by
      rw [ranOf_append_ran (appended_coda os m), ran_coda]
      exact List.append_nil _
    rw [happ, hran, handled_append, handled_coda, List.append_nil]
    have hphase : InPhase m tr₁ := hpaced.inPhase (hl.accounts hfresh) m
    refine ⟨⟨_, hlined m⟩, fun hlive => ?_, hl.nows m, hphase.coda os⟩
    rw [hs] at hlive
    cases hlive

/-- Two modules with phases of ten milliseconds. The phase passes to the second one while the
worker's continuation is under way and a job of the first is still waiting. -/
def handover : List (Move String) :=
  [.order (.register "a" (.ofMillis 10)), .order (.register "b" (.ofMillis 10)), .turn, .turn,
    .order (.now "b" "mail" [] true), .turn, .order (.now "a" "scan" [.post "note" []] true),
    .order (.now "a" "sweep" [] true), .turn, .turn, .turn, .wait 10, .turn, .turn, .turn]

set_option maxRecDepth 4000 in
/-- The job that still waits after the change of phase, put to the general statement. -/
theorem handover_order :
    ∃ s₀ tr s, Loop.start epoch (.ofSeconds 100 0) 0 = .ok s₀ ∧ Runs s₀ tr s ∧
      (ran tr).map (fun task => task.job.label) = ["scan", "note", "mail"] ∧
      (appended "a" tr).map Task.number = [1, 2] ∧ (ranOf "a" tr).map Task.number = [1] ∧
      ranOf "a" tr ++ s.queues.waiting "a" = appended "a" tr ∧
      InPhase "a" tr ∧ InPhase "b" tr := by
  obtain ⟨s₀, tr, s, h₀, hr, hp⟩ := exists_run epoch (.ofSeconds 100 0) 0 handover
    (fun tr s => !s.ended &&
      (ran tr).map (fun task => task.job.label) == ["scan", "note", "mail"] &&
      (appended "a" tr).map Task.number == [1, 2] && (ranOf "a" tr).map Task.number == [1])
    (by decide +kernel)
  simp only [Bool.and_eq_true, Bool.not_eq_true', beq_iff_eq] at hp
  obtain ⟨⟨⟨hlive, hran⟩, happ⟩, hof⟩ := hp
  obtain ⟨-, hline, -, ha⟩ := queue_order h₀ hr "a"
  obtain ⟨-, -, -, hb⟩ := queue_order h₀ hr "b"
  exact ⟨s₀, tr, s, h₀, hr, hran, happ, hof, hline hlive, ha, hb⟩

end PhasedGrid.Schedule
