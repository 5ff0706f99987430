import PhasedGrid.Proofs.Schedule.Flight
import PhasedGrid.Proofs.Schedule.Releases

/-!
How a loop ends. It ends when it comes to its next command and that is a stop, or there is none and
nobody is left to give one. The worker's continuation gives nobody a handle: once the last handle is
gone the line only gets shorter, and every call to the worker is good for one job.
-/

namespace PhasedGrid.Schedule

set_option autoImplicit false

variable {α : Type}

@[simp] def Mark.applied? : Mark α → Option (Command α)
  | .applied c _ => some c
  | _ => none

/-- The commands that are taken up, those of the worker included. -/
def applied (tr : List (Mark α)) : List (Command α) := tr.filterMap Mark.applied?

/-- The loop comes to its next command, and it is the end. -/
structure Loop.AtEnd (s : Loop α) : Prop where
  live : s.ended = false
  phase : ¬ s.deadline.any (· ≤ s.time) = true
  reports : s.reports = []
  last : (∃ rest, s.ingress = .stop :: rest) ∨ s.ingress = [] ∧ s.alive = false

/-- What can follow on a state if orders from outside need a handle there, and a new handle there
comes from one that is left; a job that gives its own away counts as doing so right before the turn
that runs it. -/
inductive Ensues (s : Loop α) : List (Mark α) → Loop α → Prop
  | start : Ensues s [] s
  | step {tr ms : List (Mark α)} {t t' : Loop α} :
      Ensues s tr t → Step t ms t' → (gaves ms ≠ [] → t.held) → (t'.held → t.alive) →
        Ensues s (tr ++ ms) t'

section Lists

variable (tr ms : List (Mark α))

theorem applied_append : applied (tr ++ ms) = applied tr ++ applied ms := List.filterMap_append

theorem applied_seen (events : List (Event α)) : applied (events.map .seen) = [] := by
  refine List.filterMap_eq_nil_iff.mpr fun x hx => ?_
  obtain ⟨e, -, rfl⟩ := List.mem_map.mp hx
  rfl

theorem handled_eq : handled tr = (applied tr).filter Command.ordered := by
  unfold handled applied
  rw [List.filter_filterMap]
  refine List.filterMap_congr fun x _ => ?_
  cases x <;> rfl

end Lists

section Alive

variable {s : Loop α} {tr : List (Mark α)}

theorem Loop.alive_iff (s : Loop α) : s.alive ↔ s.held ∨ ∃ j ∈ s.jobs, j.holds := by
  simp [alive]

theorem Loop.alive_eq_false_iff (s : Loop α) :
    s.alive = false ↔ s.held = false ∧ ∀ j ∈ s.jobs, j.holds = false := by
  simp [alive]

/-- Orders are given through a handle. -/
theorem Job.follow_eq_nil {j : Job α} (h : j.holds = false) : j.follow = [] := by
  unfold holds at h
  rw [Bool.or_eq_false_iff, Bool.not_eq_false'] at h
  exact List.isEmpty_iff.mp h.2

/-- The worker's continuation keeps nobody alive. -/
theorem Loop.alive_send_work (hs : s.ended = false) : (s.send .work).alive = s.alive := by
  rw [send_eq hs]
  simp [alive, jobs, Command.job?]

theorem Loop.alive_finish (s : Loop α) : s.finish.alive = s.held := by
  simp [alive, jobs, finish, Timers.payloads, Timers.shutdown, Queues.jobs]

/-- The jobs that wait somewhere are those that were submitted and have neither run nor been
refused. -/
theorem Accounts.mem_jobs_iff (h : Accounts tr s) (j : Job α) :
    j ∈ s.jobs ↔ j ∈ carried (sent tr) ∧ j ∉ (ran tr).map Task.job ∧ j ∉ refusals tr := by
  have hnodup := (h.places.map Job.number).nodup_iff.mpr h.nodup_sent
  rw [List.append_assoc, List.map_append] at hnodup
  have hapart := (List.nodup_append.mp hnodup).2.2
  rw [← h.places.mem_iff, List.append_assoc, List.mem_append, List.mem_append]
  constructor
  · intro hj
    have hnone : j ∉ (ran tr).map Task.job ++ refusals tr := fun hmem =>
      hapart _ (List.mem_map_of_mem hj) _ (List.mem_map_of_mem hmem) rfl
    rw [List.mem_append, not_or] at hnone
    exact ⟨.inl hj, hnone⟩
  · rintro ⟨hj | hj | hj, hran, hrefused⟩
    · exact hj
    · exact absurd hj hran
    · exact absurd hj hrefused

end Alive

/-- The jobs that ran are those that were posted, and one from a queue at most for every call to the
worker. -/
def OnePerCall (ms : List (Mark α)) : Prop :=
  ∃ jobs : List (Job α), ((ran ms).map Task.job).Perm (posts ms ++ jobs) ∧
    jobs.length ≤ ms.countP Mark.wakes

theorem OnePerCall.of_posts {ms : List (Mark α)} (h : (ran ms).map Task.job = posts ms) :
    OnePerCall ms := by
  refine ⟨[], ?_, Nat.zero_le _⟩
  rw [h, List.append_nil]

theorem OnePerCall.append {ms ms' : List (Mark α)} (h : OnePerCall ms) (h' : OnePerCall ms') :
    OnePerCall (ms ++ ms') := by
  obtain ⟨jobs, hperm, hlength⟩ := h
  obtain ⟨jobs', hperm', hlength'⟩ := h'
  refine ⟨jobs ++ jobs', ?_, ?_⟩
  · rw [ran_append, posts_append, List.map_append]
    refine (hperm.append hperm').trans ?_
    rw [List.append_assoc, List.append_assoc]
    exact (List.perm_append_comm_assoc ..).append_left _
  · rw [List.length_append, List.countP_append]
    exact Nat.add_le_add hlength hlength'

/-- What does not go through the worker: commands are taken up, and no job runs. -/
structure Still (s : Loop α) (ms : List (Mark α)) (t : Loop α) : Prop where
  live : t.ended = false
  held : t.held = s.held
  line : applied ms ++ t.ingress = s.ingress
  posted : posts ms = []
  idle : ran ms = []

/-- What a turn does that does not end the loop. Commands that it appends to the line come from
orders, unless somebody is left to give more of them; and it runs the jobs that are posted and, if
it calls the worker, one from a queue. -/
structure Bears (s : Loop α) (ms : List (Mark α)) (s' : Loop α) : Prop where
  live : s'.ended = false
  held : s'.held = s.held
  line : ∃ new, applied ms ++ s'.ingress = s.ingress ++ new ∧
    (s'.alive = false → ∀ c ∈ new, c.ordered)
  served : OnePerCall ms

section Turns

variable {s s' t : Loop α} {ms : List (Mark α)} {events : List (Event α)} {c : Command α}
  {rest : List (Command α)}

/-- A call to the worker runs one job at most. It puts its continuation in the line only if somebody
is left who can give orders. -/
theorem Loop.worker_cases (hs : s.ended = false) :
    s.worker.1.ended = false ∧ s.worker.1.held = s.held ∧
      (∃ new, s.worker.1.ingress = s.ingress ++ new ∧
        (s.worker.1.alive = false → ∀ c ∈ new, c.ordered)) ∧
      (s.worker.2 = [] ∨ ∃ task : Task α, s.worker.2 = [.ran task.job task.status s.time]) := by
  unfold worker
  split
  · exact ⟨hs, rfl, ⟨[], (List.append_nil _).symm, nofun⟩, .inl rfl⟩
  split
  · exact ⟨hs, rfl, ⟨[], (List.append_nil _).symm, nofun⟩, .inl rfl⟩
  rename_i task queues hpop
  dsimp only [runJob]
  rw [foldl_issue (s := { s with queues, busy := true }) hs]
  have hlive : ({ s with queues, busy := true }.sends task.job.follow).ended = false := hs
  split
  · rename_i halive
    dsimp only
    rw [alive_send_work hlive, halive, send_eq hlive]
    refine ⟨hs, rfl, ⟨commands s.handles s.submitted task.job.follow ++ [.work], ?_, nofun⟩,
      .inr ⟨task, rfl⟩⟩
    exact List.append_assoc ..
  · refine ⟨hs, rfl, ⟨commands s.handles s.submitted task.job.follow, rfl, fun _ _ => ?_⟩,
      .inr ⟨task, rfl⟩⟩
    exact ordered_of_mem_commands _ _

namespace Still

theorem taken (hc : s.ingress = c :: rest) (hs : t.ended = false) (hh : t.held = s.held)
    (hi : t.ingress = rest) (ha : applied ms = [c]) (hp : posts ms = []) (hr : ran ms = []) :
    Still s ms t := by
  refine ⟨hs, hh, ?_, hp, hr⟩
  rw [ha, hi, hc]
  rfl

theorem bears (h : Still s ms t) : Bears s ms t := by
  refine ⟨h.live, h.held, ⟨[], ?_, nofun⟩, .of_posts ?_⟩
  · rw [h.line, List.append_nil]
  · rw [h.idle, h.posted]
    rfl

/-- The worker is called. -/
theorem worker (h : Still s ms t) (hw : 1 ≤ ms.countP Mark.wakes) :
    Bears s (ms ++ t.worker.2.map .seen) t.worker.1 := by
  obtain ⟨hlive, hheld, ⟨new, hnew, hordered⟩, hevents⟩ := t.worker_cases h.live
  refine ⟨hlive, hheld.trans h.held, ⟨new, ?_, hordered⟩, ?_⟩
  · rw [applied_append, applied_seen, List.append_nil, hnew, ← List.append_assoc, h.line]
  · unfold OnePerCall
    rw [ran_append, posts_append, h.idle, h.posted, List.countP_append]
    rcases hevents with hnone | ⟨task, hone⟩
    · rw [hnone]
      exact ⟨[], .refl _, Nat.zero_le _⟩
    · rw [hone]
      exact ⟨[task.job], .refl _, Nat.le_add_right_of_le hw⟩

theorem startWorker (h : Still s ms t) (hw : 1 ≤ ms.countP Mark.wakes) :
    Bears s (ms ++ t.startWorker.2.map .seen) t.startWorker.1 := by
  unfold Loop.startWorker
  split
  · rw [List.map_nil, List.append_nil]
    exact h.bears
  · exact h.worker hw

theorem changePhase (h : Still s ms t) (hc : t.changePhase = .ok (s', events)) :
    Bears s (ms ++ events.map .seen) s' := by
  rcases Loop.changePhase_cases hc with
    ⟨cursor, -, rfl, rfl⟩ | ⟨cursor, e, phase, d, -, -, rfl, rfl⟩
  · rw [List.map_nil, List.append_nil]
    have hreset : Still s ms { t with cursor, deadline := none } :=
      ⟨h.live, h.held, h.line, h.posted, h.idle⟩
    exact hreset.bears
  · have hphase : Still s (ms ++ [.seen (.changed phase)]) { t with cursor } := by
      refine ⟨h.live, h.held, ?_, ?_, ?_⟩
      · rw [applied_append]
        exact (congrArg (· ++ t.ingress) (List.append_nil _)).trans h.line
      · rw [posts_append, h.posted]
        rfl
      · rw [ran_append, h.idle]
        rfl
    have hbears := hphase.startWorker (by simp)
    rw [List.append_assoc] at hbears
    exact ⟨hbears.live, hbears.held, hbears.line, hbears.served⟩

end Still

namespace Loop

theorem onReport_bears (hs : s.ended = false) {r : Report} {reports : List Report} :
    Bears s (s.hearing r ++ ({ s with reports }.onReport r).2.map .seen)
      ({ s with reports }.onReport r).1 := by
  unfold hearing onReport
  dsimp only
  cases hfire : s.timers.fire r with
  | mk fired timers =>
    cases fired with
    | none => exact Still.bears ⟨hs, rfl, rfl, rfl, rfl⟩
    | some p => exact Still.startWorker ⟨hs, rfl, rfl, rfl, rfl⟩ (by simp)

theorem register_bears (hs : s.ended = false) {name : String} {phase : Span}
    (hc : s.ingress = .register name phase :: rest)
    (h : { s with ingress := rest }.apply (.register name phase) = .ok (s', events)) :
    Bears s (.applied (.register name phase) s.time :: events.map .seen) s' := by
  have htaken : ∀ roster, Still s [.applied (.register name phase) s.time]
      { s with ingress := rest, roster } := fun _ => .taken hc hs rfl rfl rfl rfl rfl
  unfold apply at h
  dsimp only at h
  split at h
  · exact (htaken _).changePhase h
  · obtain ⟨rfl, rfl⟩ := Prod.mk.inj (Except.ok.inj h)
    exact (htaken _).bears

theorem after_bears (hs : s.ended = false) {timer delay : Nat} {job : Job α}
    (hc : s.ingress = .after timer delay job :: rest)
    (h : { s with ingress := rest }.apply (.after timer delay job) = .ok (s', events)) :
    Bears s (s.taking (.after timer delay job) ++ events.map .seen) s' := by
  unfold apply at h
  unfold taking
  dsimp only at h ⊢
  cases harm : s.timers.arm s.time timer delay job with
  | mk armed timers =>
    rw [harm] at h
    cases armed with
    | fresh =>
      obtain ⟨rfl, rfl⟩ := Prod.mk.inj (Except.ok.inj h)
      exact Still.bears (.taken hc hs rfl rfl rfl rfl rfl)
    | replaced owner old =>
      obtain ⟨rfl, rfl⟩ := Prod.mk.inj (Except.ok.inj h)
      exact Still.startWorker (.taken hc hs rfl rfl rfl rfl rfl) (by simp)
    | unknown =>
      obtain ⟨rfl, rfl⟩ := Prod.mk.inj (Except.ok.inj h)
      exact Still.bears (.taken hc hs rfl rfl rfl rfl rfl)

theorem post_bears (hs : s.ended = false) {job : Job α} (hc : s.ingress = .post job :: rest) :
    Bears s [.applied (.post job) s.time, .seen (.ran job none s.time)]
      ({ s with ingress := rest }.sends job.follow) := by
  refine ⟨hs, rfl, ⟨commands s.handles s.submitted job.follow, ?_, fun _ _ => ?_⟩, .of_posts rfl⟩
  · rw [hc]
    rfl
  · exact ordered_of_mem_commands _ _

theorem apply_bears (hs : s.ended = false) (hc : s.ingress = c :: rest)
    (h : { s with ingress := rest }.apply c = .ok (s', events)) :
    (c = .stop ∧ events = [.ended] ∧ s' = { s with ingress := rest }.finish) ∨
      Bears s (s.taking c ++ events.map .seen) s' := by
  cases c with
  | register id phase => exact .inr (register_bears hs hc h)
  | allocate timer owner =>
    obtain ⟨rfl, rfl⟩ := Prod.mk.inj (Except.ok.inj h)
    exact .inr (Still.bears (.taken hc hs rfl rfl rfl rfl rfl))
  | after timer delay job => exact .inr (after_bears hs hc h)
  | now module job wake =>
    obtain ⟨hnext, rfl⟩ := Prod.mk.inj (Except.ok.inj h)
    have hqueued : Still s
        [.applied (.now module job wake) s.time, .queued module ⟨job, none⟩ s.time]
        { s with ingress := rest, queues := s.queues.push module ⟨job, none⟩ } :=
      .taken hc hs rfl rfl rfl rfl rfl
    right
    cases wake with
    | false =>
      obtain rfl := hnext
      exact hqueued.bears
    | true =>
      obtain rfl := hnext
      exact hqueued.startWorker (by simp)
  | post job =>
    obtain ⟨rfl, rfl⟩ := Prod.mk.inj (Except.ok.inj h)
    rw [foldl_issue (s := { s with ingress := rest }) hs]
    exact .inr (post_bears hs hc)
  | work =>
    obtain ⟨rfl, rfl⟩ := Prod.mk.inj (Except.ok.inj h)
    have htaken : Still s [.applied .work s.time] { s with ingress := rest } :=
      .taken hc hs rfl rfl rfl rfl rfl
    exact .inr (htaken.worker (by simp))
  | stop =>
    obtain ⟨rfl, rfl⟩ := Prod.mk.inj (Except.ok.inj h)
    exact .inl ⟨rfl, rfl, rfl⟩

/-- A turn ends the loop only if the loop has come to the end of its commands. -/
theorem turn_bears (h : s.turn = .ok (some (s', events))) :
    (s.AtEnd ∧ events = [.ended] ∧ s'.ended ∧ s'.alive = s.held) ∨
      Bears s (s.marks ++ events.map .seen) s' := by
  obtain ⟨hs, hturn⟩ := turn_cases h
  generalize s.marks = ms at hturn ⊢
  cases hturn with
  | phase hd hc =>
    have hstill : Still s [] { s with deadline := none } := ⟨hs, rfl, rfl, rfl, rfl⟩
    exact .inr (hstill.changePhase hc)
  | report => exact .inr (onReport_bears hs)
  | @command c rest _ _ hd hr hi hc =>
    rcases apply_bears hs hi hc with ⟨rfl, rfl, rfl⟩ | hbears
    · exact .inl ⟨⟨hs, hd, hr, .inl ⟨rest, hi⟩⟩, rfl, rfl, alive_finish _⟩
    · exact .inr hbears
  | deserted hd hr hi hdead =>
    exact .inl ⟨⟨hs, hd, hr, .inr ⟨hi, hdead⟩⟩, rfl, rfl, alive_finish s⟩
  | woken => exact .inr (Still.bears ⟨hs, rfl, rfl, rfl, rfl⟩)

namespace AtEnd

theorem turn (h : s.AtEnd) : ∃ s', s.turn = .ok (some (s', [.ended])) ∧ s'.ended := by
  unfold Loop.turn
  rw [if_neg (by rw [h.live]; decide), if_neg h.phase, h.reports]
  rcases h.last with ⟨rest, hi⟩ | ⟨hi, hdead⟩
  · rw [hi]
    exact ⟨_, rfl, rfl⟩
  · rw [hi, hdead]
    exact ⟨_, rfl, rfl⟩

/-- The last turn takes up the stop, if there is one. -/
theorem marks_cases (h : s.AtEnd) :
    (∃ rest, s.ingress = .stop :: rest ∧ s.marks = [.applied .stop s.time]) ∨
      s.ingress = [] ∧ s.alive = false ∧ s.marks = [] := by
  rcases h.last with ⟨rest, hi⟩ | ⟨hi, hdead⟩
  · exact .inl ⟨rest, hi, marks_of_command h.phase h.reports hi⟩
  · exact .inr ⟨hi, hdead, marks_of_idle h.phase h.reports hi⟩

end AtEnd

end Loop

end Turns

section Dead

variable {s₀ s s' t : Loop α} {tr ms : List (Mark α)} {events : List (Event α)}

/-- If no job that waits has orders to give, none are given as long as none come from outside, and
no job comes to wait that did not wait before. -/
theorem Leads.barren (h₀ : s₀.Fresh) (h : Leads s₀ tr s) (hjobs : ∀ j ∈ s.jobs, j.follow = [])
    (hnext : Leads s ms s') (hnone : gaves ms = []) :
    given ms = [] ∧ s'.jobs ⊆ s.jobs := by
  induction hnext with
  | start => exact ⟨rfl, List.Subset.refl _⟩
  | @change ms ms' t t' hleads hc ih =>
    rw [gaves_append, List.append_eq_nil_iff] at hnone
    obtain ⟨hgiven, hbarren⟩ := ih hnone.1
    have hall : given (ms ++ ms') = [] := by
      rw [given_append, hgiven, hc.given_eq fun j hj => hjobs j (hbarren hj), hnone.2]
      rfl
    refine ⟨hall, fun j hj => ?_⟩
    -- Nothing was submitted since, so what waits now waited before.
    have hA := (h.trans (hleads.change hc)).accounts h₀
    obtain ⟨hsent, hran, hrefused⟩ := (hA.mem_jobs_iff j).mp hj
    rw [sent_append, hall, commands, List.append_nil] at hsent
    rw [ran_append, List.map_append, List.mem_append, not_or] at hran
    rw [refusals_append, List.mem_append, not_or] at hrefused
    exact ((h.accounts h₀).mem_jobs_iff j).mpr ⟨hsent, hran.1, hrefused.1⟩

/-- What may still happen when nobody can give orders any more. -/
structure Wanes (s : Loop α) (ms : List (Mark α)) (s' : Loop α) : Prop where
  dead : s'.alive = false
  prior : applied ms <+: s.ingress
  waiting : s'.ended = false → applied ms ++ s'.ingress = s.ingress
  served : OnePerCall ms

namespace Wanes

theorem trans {ms' : List (Mark α)} (h : Wanes s ms t) (hlive : t.ended = false)
    (h' : Wanes t ms' s') : Wanes s (ms ++ ms') s' := by
  have hline := h.waiting hlive
  refine ⟨h'.dead, ?_, fun hs' => ?_, h.served.append h'.served⟩
  · rw [applied_append, ← hline]
    exact (List.prefix_append_right_inj _).mpr h'.prior
  · rw [applied_append, List.append_assoc, h'.waiting hs', hline]

/-- A turn of a loop to which nobody can give orders. -/
theorem turn (h₀ : s₀.Fresh) (h : Leads s₀ tr s) (hdead : s.alive = false)
    (ht : s.turn = .ok (some (s', events))) : Wanes s (s.marks ++ events.map .seen) s' := by
  obtain ⟨hheld, hjobs⟩ := s.alive_eq_false_iff.mp hdead
  rcases Loop.turn_bears ht with ⟨hend, rfl, hs', halive⟩ | hbears
  · have hended : ∀ {p : Prop}, s'.ended = false → p := by
      intro p hlive
      rw [hs'] at hlive
      cases hlive
    rcases hend.marks_cases with ⟨rest, hi, hmarks⟩ | ⟨-, -, hmarks⟩
    · rw [hmarks]
      exact ⟨halive.trans hheld, ⟨rest, hi.symm⟩, hended, .of_posts rfl⟩
    · rw [hmarks]
      exact ⟨halive.trans hheld, List.nil_prefix, hended, .of_posts rfl⟩
  · obtain ⟨-, hleads | ⟨s₁, -, rfl, -⟩⟩ := Loop.turn_leads ht
    · have hnone : gaves (s.marks ++ events.map .seen) = [] := by
        rw [gaves_append, Loop.gaves_marks, gaves_seen, List.append_nil]
      obtain ⟨hgiven, hbarren⟩ :=
        h.barren h₀ (fun j hj => Job.follow_eq_nil (hjobs j hj)) hleads hnone
      have hdead' : s'.alive = false :=
        s'.alive_eq_false_iff.mpr ⟨hbears.held.trans hheld, fun j hj => hjobs j (hbarren hj)⟩
      obtain ⟨new, hline, hordered⟩ := hbears.line
      have hline' : applied (s.marks ++ events.map .seen) ++ s'.ingress = s.ingress := by
        -- Whatever comes from an order has been sent, and nothing is sent any more.
        have hbefore := (h.accounts h₀).line
        have hafter := ((h.trans hleads).accounts h₀).line
        rw [sent_append, hgiven, commands, List.append_nil, ← hbefore, handled_append,
          List.append_assoc, List.append_cancel_left_eq, handled_eq, ← List.filter_append, hline,
          List.filter_append, List.append_right_eq_self, List.filter_eq_nil_iff] at hafter
        obtain rfl : new = [] :=
          List.eq_nil_iff_forall_not_mem.mpr fun c hc => hafter c hc (hordered hdead' c hc)
        rw [hline, List.append_nil]
      exact ⟨hdead', ⟨_, hline'⟩, fun _ => hline', hbears.served⟩
    · cases hbears.live

end Wanes

theorem Ensues.runs (h : Runs s₀ tr s) (hnext : Ensues s ms s') : Runs s₀ (tr ++ ms) s' := by
  induction hnext with
  | start =>
    rw [List.append_nil]
    exact h
  | step _ hstep _ _ ih =>
    rw [← List.append_assoc]
    exact ih.step hstep

/-- Once nobody can give orders, the handles are gone for good. -/
theorem Ensues.wanes (h₀ : s₀.Fresh) (h : Runs s₀ tr s) (hdead : s.alive = false)
    (hnext : Ensues s ms s') : Wanes s ms s' := by
  induction hnext with
  | start => exact ⟨hdead, List.nil_prefix, fun _ => rfl, .of_posts rfl⟩
  | @step ms ms' t t' hnext hstep hgave hheld ih =>
    obtain ⟨hnone, hjobs⟩ := t.alive_eq_false_iff.mp ih.dead
    have hsilent : ∀ {t' : Loop α}, t'.alive = false → t'.ended = t.ended →
        t'.ingress = t.ingress → Wanes s (ms ++ []) t' := by
      intro t' hdead' hended hingress
      rw [List.append_nil]
      refine ⟨hdead', ih.prior, fun hlive => ?_, ih.served⟩
      rw [hingress]
      exact ih.waiting (hended.symm.trans hlive)
    cases hstep with
    | order o =>
      rw [hgave (List.cons_ne_nil o [])] at hnone
      cases hnone
    | turn ht =>
      obtain ⟨hlive, -⟩ := Loop.turn_leads ht
      have hleads := ((hnext.runs h).leads h₀.live).live hlive
      exact ih.trans hlive (.turn h₀ hleads ih.dead ht)
    | wait | report => exact hsilent ih.dead rfl rfl
    | hold held =>
      refine hsilent (({ t with held } : Loop α).alive_eq_false_iff.mpr ⟨?_, hjobs⟩) rfl rfl
      refine Bool.eq_false_iff.mpr fun h => ?_
      have halive := hheld h
      rw [ih.dead] at halive
      cases halive

end Dead

section End

variable {s₀ s s' : Loop α} {tr ms : List (Mark α)} {events : List (Event α)}

theorem Loop.turn_ends (ht : s.turn = .ok (some (s', events))) (hs' : s'.ended) :
    s.AtEnd ∧ events = [.ended] := by
  rcases turn_bears ht with ⟨hend, hevents, -⟩ | hbears
  · exact ⟨hend, hevents⟩
  · rw [hbears.live] at hs'
    cases hs'

/-- The run came to the end of its commands at some moment. -/
def Closed (s₀ : Loop α) (tr : List (Mark α)) (s : Loop α) : Prop :=
  ∃ s₁ s₂ tr₁ post, Runs s₀ tr₁ s₁ ∧ s₁.AtEnd ∧ s₁.turn = .ok (some (s₂, [.ended])) ∧
    s₂.ended ∧ Runs s₂ post s ∧ tr = tr₁ ++ (s₁.marks ++ [.seen .ended]) ++ post

theorem Runs.ended (h : Runs s₀ tr s) (h₀ : s₀.ended) : s.ended := by
  induction h with
  | start => exact h₀
  | order o _ ih =>
    rw [Loop.ended_issue]
    exact ih
  | turn _ ht ih =>
    rw [(Loop.turn_leads ht).1] at ih
    cases ih
  | wait | hold | report => assumption

theorem Closed.step (h : Closed s₀ tr s) (hstep : Step s ms s') : Closed s₀ (tr ++ ms) s' := by
  obtain ⟨s₁, s₂, tr₁, post, hr, hend, ht, hs₂, hlater, rfl⟩ := h
  exact ⟨s₁, s₂, tr₁, post ++ ms, hr, hend, ht, hs₂, hlater.step hstep, List.append_assoc ..⟩

theorem Runs.closed (h : Runs s₀ tr s) (h₀ : s₀.ended = false) (hs : s.ended) :
    Closed s₀ tr s := by
  induction h with
  | start =>
    rw [h₀] at hs
    cases hs
  | @order tr s o _ ih =>
    rw [Loop.ended_issue] at hs
    exact (ih hs).step (.order s o)
  | @turn tr s s' events hr ht ih =>
    obtain ⟨hend, rfl⟩ := Loop.turn_ends ht hs
    exact ⟨s, s', tr, [], hr, hend, ht, hs, .start, (List.append_nil _).symm⟩
  | @wait tr s time _ hle ih => exact List.append_nil tr ▸ (ih hs).step (.wait s time hle)
  | @hold tr s held _ ih => exact List.append_nil tr ▸ (ih hs).step (.hold s held)
  | @report tr s x _ hx hdue ih => exact List.append_nil tr ▸ (ih hs).step (.report s x hx hdue)

theorem Closed.ended (h : Closed s₀ tr s) : s.ended := by
  obtain ⟨_, _, _, _, _, _, _, hs₂, hlater, _⟩ := h
  exact hlater.ended hs₂

theorem Lives.alive (h : Lives s₀ tr s) : s.alive := by
  cases h <;> assumption

/-- As long as somebody can give orders, only a stop ends the loop. -/
theorem Lives.live (h₀ : s₀.ended = false) (h : Lives s₀ tr s) (hstop : .stop ∉ applied tr) :
    s.ended = false := by
  induction h with
  | start => exact h₀
  | @step tr ms s s' h hstep _ ih =>
    rw [applied_append, List.mem_append, not_or] at hstop
    have hs := ih hstop.1
    cases hstep with
    | order o =>
      rw [Loop.ended_issue]
      exact hs
    | turn ht =>
      refine Bool.eq_false_iff.mpr fun hs' => ?_
      obtain ⟨hend, rfl⟩ := Loop.turn_ends ht hs'
      rcases hend.marks_cases with ⟨rest, -, hmarks⟩ | ⟨-, hdead, -⟩
      · refine hstop.2 ?_
        rw [hmarks]
        exact List.mem_cons_self
      · rw [h.alive] at hdead
        cases hdead
    | wait | hold | report => exact hs

end End

/-- In every run: a handle is left as long as there is one outside or a job that owns one has neither
run nor been refused. A turn ends the loop exactly when it comes to its next command and finds a
stop, or nothing and no handle left; the loop has ended exactly when such a turn was taken, so only a
stop ends it while a handle is left. When none is, this stays so, nothing but what is in the line is
taken up any more, and a call to the worker is good for one job from a queue. -/
theorem loop_ends {clock : Clock} {interval : Span} {time : Nat} {s₀ s : Loop α}
    {tr : List (Mark α)} (h₀ : Loop.start clock interval time = .ok s₀) (hr : Runs s₀ tr s) :
    (s.ended = false → (s.alive ↔ s.held ∨ ∃ j ∈ carried (sent tr),
      j.holds ∧ j ∉ (ran tr).map Task.job ∧ j ∉ refusals tr)) ∧
    ((∃ s' events, s.turn = .ok (some (s', events)) ∧ s'.ended) ↔ s.AtEnd) ∧
    (s.ended ↔ Closed s₀ tr s) ∧
    (Lives s₀ tr s → .stop ∉ applied tr → s.ended = false) ∧
    (s.alive = false → ∀ ms s', Ensues s ms s' → Wanes s ms s') := by
  have hfresh := Loop.fresh_of_start h₀
  refine ⟨fun hs => ?_, ⟨?_, ?_⟩, ⟨hr.closed hfresh.live, Closed.ended⟩, Lives.live hfresh.live,
    fun hdead ms s' => Ensues.wanes hfresh hr hdead⟩
  · have hA := ((hr.leads hfresh.live).live hs).accounts hfresh
    rw [s.alive_iff]
    refine or_congr_right (exists_congr fun j => ?_)
    rw [hA.mem_jobs_iff]
    tauto
  · rintro ⟨s', events, ht, hs'⟩
    exact (Loop.turn_ends ht hs').1
  · intro hend
    obtain ⟨s', ht, hs'⟩ := hend.turn
    exact ⟨s', _, ht, hs'⟩

/-- Whether a script keeps to what is allowed: orders need a handle, and a handle comes from one that
is alive. -/
def Loop.licit (s : Loop α) : List (Move α) → Bool
  | [] => true
  | m :: rest => (s.move m).all fun next =>
    ((gaves next.1).isEmpty || s.held) && (!next.2.held || s.alive) && next.2.licit rest

theorem Ensues.play {s t t' : Loop α} {tr tr' : List (Mark α)} (h : Ensues s tr t)
    {moves : List (Move α)} (hp : t.play moves = some (tr', t')) (hl : t.licit moves) :
    Ensues s (tr ++ tr') t' := by
  induction moves generalizing t tr tr' with
  | nil =>
    obtain ⟨rfl, rfl⟩ := Prod.mk.inj (Option.some.inj hp)
    rw [List.append_nil]
    exact h
  | cons m rest ih =>
    obtain ⟨first, hfirst, hrest⟩ := Option.bind_eq_some_iff.mp hp
    obtain ⟨later, hlater, heq⟩ := Option.map_eq_some_iff.mp hrest
    obtain ⟨rfl, rfl⟩ := Prod.mk.inj heq
    unfold Loop.licit at hl
    rw [hfirst, Option.all_some] at hl
    simp only [Bool.and_eq_true, Bool.or_eq_true, List.isEmpty_iff, Bool.not_eq_true'] at hl
    obtain ⟨⟨hgave, hheld⟩, hl⟩ := hl
    rw [← List.append_assoc]
    refine ih (h.step (Loop.move_step hfirst) hgave.resolve_left fun hnew => ?_) hlater hl
    exact hheld.resolve_left (by simp [hnew])

/-- When the handle outside is dropped, the one that a timer's job owns is all that is left. -/
def dropping : List (Move String) :=
  [.order (.register "a" (.ofMillis 100)), .turn, .order (.allocate "a"),
    .order (.after 0 60 "poll" [] true), .turn, .turn, .hold false]

/-- The job of the timer hands its handle out, and this one is dropped behind three more jobs, of
which only the first has an order to give. -/
def lending : List (Move String) :=
  [.wait 60, .report 0, .hold true, .turn, .turn,
    .order (.now "a" "scan" [.post "note" []] false), .order (.now "a" "mail" [] true),
    .order (.now "a" "sweep" [] false), .turn, .hold false, .turn]

/-- The rest of that run: the phase changes once, and the line is worked off. -/
def waning : List (Move String) :=
  [.wait 40, .turn, .turn, .turn, .turn]

set_option maxRecDepth 4000 in
/-- The loop of these scripts when its first handle is dropped, when nobody is left, and at its end,
put to the general statement. A job that owns a handle keeps the loop waiting, though it gives no
order. -/
theorem dropping_ends :
    ∃ s₀ tr s₁ ms₁ s₂ ms₂ s, Loop.start epoch (.ofSeconds 100 0) 0 = .ok s₀ ∧
      Runs s₀ tr s₁ ∧ s₁.held = false ∧ s₁.turn = .ok none ∧
      (∃ j ∈ carried (sent tr), j.holds ∧ j ∉ (ran tr).map Task.job ∧ j ∉ refusals tr) ∧
      (∀ j ∈ carried (sent tr), j.follow = []) ∧
      Ensues s₁ ms₁ s₂ ∧ (ran ms₁).map (fun task => task.job.label) = ["poll", "scan"] ∧
      s₂.alive = false ∧
      Ensues s₂ ms₂ s ∧ (ran ms₂).map (fun task => task.job.label) = ["mail", "note"] ∧
      ms₂.countP Mark.wakes = 1 ∧ Wanes s₂ ms₂ s ∧ Closed s₀ (tr ++ ms₁ ++ ms₂) s := by
  obtain ⟨s₀, r, h₀, hf, hp⟩ :=
    exists_start (α := String) epoch (.ofSeconds 100 0) 0
      (fun s₀ => (s₀.play dropping).bind fun first =>
        (first.2.play lending).bind fun next =>
          (next.2.play waning).map fun last => (first, next, last))
      (fun _ r => !r.1.2.ended && !r.1.2.held && r.1.2.alive &&
        r.1.2.turn.toOption.any Option.isNone && (carried (sent r.1.1)).all (·.follow.isEmpty) &&
        r.1.2.licit lending &&
        (ran r.2.1.1).map (fun task => task.job.label) == ["poll", "scan"] && !r.2.1.2.alive &&
        r.2.1.2.licit waning &&
        (ran r.2.2.1).map (fun task => task.job.label) == ["mail", "note"] &&
        r.2.2.1.countP Mark.wakes == 1 && r.2.2.2.ended)
      (by decide +kernel)
  obtain ⟨⟨tr, s₁⟩, hdropping, hrest⟩ := Option.bind_eq_some_iff.mp hf
  obtain ⟨⟨ms₁, s₂⟩, hlending, hlast⟩ := Option.bind_eq_some_iff.mp hrest
  obtain ⟨⟨ms₂, s⟩, hwaning, rfl⟩ := Option.map_eq_some_iff.mp hlast
  simp only [Bool.and_eq_true, Bool.not_eq_true', beq_iff_eq, List.all_eq_true,
    List.isEmpty_iff] at hp
  obtain ⟨⟨⟨⟨⟨⟨⟨⟨⟨⟨⟨hlive, hheld⟩, halive⟩, hidle⟩, hbarren⟩, hlicit₁⟩, hran₁⟩, hdead⟩, hlicit₂⟩,
    hran₂⟩, hwakes⟩, hended⟩ := hp
  have hr₁ : Runs s₀ tr s₁ := Runs.start.play hdropping
  have hnext₁ : Ensues s₁ ms₁ s₂ := Ensues.start.play hlending hlicit₁
  have hr₂ := hnext₁.runs hr₁
  have hnext₂ : Ensues s₂ ms₂ s := Ensues.start.play hwaning hlicit₂
  obtain ⟨hwaits, -⟩ := loop_ends h₀ hr₁
  obtain ⟨-, -, -, -, hwanes⟩ := loop_ends h₀ hr₂
  obtain ⟨-, -, hclosed, -⟩ := loop_ends h₀ (hnext₂.runs hr₂)
  refine ⟨s₀, tr, s₁, ms₁, s₂, ms₂, s, h₀, hr₁, hheld, Loop.turn_eq_none hidle, ?_, hbarren,
    hnext₁, hran₁, hdead, hnext₂, hran₂, hwakes, hwanes hdead ms₂ s hnext₂, hclosed.mp hended⟩
  refine ((hwaits hlive).mp halive).resolve_left fun h => ?_
  rw [hheld] at h
  cases h

end PhasedGrid.Schedule
