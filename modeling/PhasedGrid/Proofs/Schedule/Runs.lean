import PhasedGrid.Proofs.Schedule.Orders
import PhasedGrid.Proofs.Schedule.Stores

/-!
Runs of a scheduler and what is written down of them. Between its turns orders are given, time
passes, handles are dropped and due sleepers report, at any moment and in any order. A turn does a
few small things one after the other; every run is a chain of such changes until the loop ends.
-/

namespace PhasedGrid.Schedule

set_option autoImplicit false

variable {α : Type}

/-- An entry in the record of a run: an order is given, a command is taken up, a job is appended to
a module's queue, or something is seen from outside. -/
inductive Mark (α : Type) where
  | gave (order : Order α)
  | applied (command : Command α) (time : Nat)
  | queued (module : String) (task : Task α) (time : Nat)
  | seen (event : Event α)

namespace Loop

/-- The record of a command that is taken up, with the job that it appends to a queue. -/
def taking (s : Loop α) (c : Command α) : List (Mark α) :=
  .applied c s.time ::
    match c with
    | .after timer delay job =>
      match (s.timers.arm s.time timer delay job).1 with
      | .replaced owner old => [.queued owner ⟨old, some .cancelled⟩ s.time]
      | _ => []
    | .now module job _ => [.queued module ⟨job, none⟩ s.time]
    | _ => []

/-- The record of a timer report: the job that it appends to a queue, if it is current. -/
def hearing (s : Loop α) (r : Report) : List (Mark α) :=
  match (s.timers.fire r).1 with
  | some (owner, job) => [.queued owner ⟨job, some .expired⟩ s.time]
  | none => []

/-- What the next turn does before anything of it is seen. -/
def marks (s : Loop α) : List (Mark α) :=
  if s.deadline.any (· ≤ s.time) then []
  else
    match s.reports with
    | r :: _ => s.hearing r
    | [] =>
      match s.ingress with
      | c :: _ => s.taking c
      | [] => []

/-- Before anything of it is seen, a turn takes up a command or appends a job to a queue. -/
theorem mem_marks {s : Loop α} {x : Mark α} (hx : x ∈ s.marks) :
    (∃ c, x = .applied c s.time) ∨ ∃ m task, x = .queued m task s.time := by
  unfold marks hearing taking at hx
  split at hx
  · cases hx
  split at hx
  · split at hx
    · exact .inr ⟨_, _, List.mem_singleton.mp hx⟩
    · cases hx
  split at hx
  · rcases List.mem_cons.mp hx with rfl | hx
    · exact .inl ⟨_, rfl⟩
    right
    split at hx
    · split at hx
      · exact ⟨_, _, List.mem_singleton.mp hx⟩
      · cases hx
    · exact ⟨_, _, List.mem_singleton.mp hx⟩
    · cases hx
  · cases hx

/-- A sleeper reports on its own. -/
def hear (s : Loop α) (x : Sleeper) : Loop α :=
  { s with timers := s.timers.silence x.number, reports := s.reports ++ [x.report] }

end Loop

/-- `Runs s₀ tr s`: with the record `tr`, a run leads from `s₀` to `s`. -/
inductive Runs (s₀ : Loop α) : List (Mark α) → Loop α → Prop
  | start : Runs s₀ [] s₀
  | order {tr : List (Mark α)} {s : Loop α} (o : Order α) :
      Runs s₀ tr s → Runs s₀ (tr ++ [.gave o]) (s.issue o)
  | turn {tr : List (Mark α)} {s s' : Loop α} {events : List (Event α)} :
      Runs s₀ tr s → s.turn = .ok (some (s', events)) →
        Runs s₀ (tr ++ (s.marks ++ events.map .seen)) s'
  | wait {tr : List (Mark α)} {s : Loop α} (time : Nat) :
      Runs s₀ tr s → s.time ≤ time → Runs s₀ tr { s with time }
  | hold {tr : List (Mark α)} {s : Loop α} (held : Bool) :
      Runs s₀ tr s → Runs s₀ tr { s with held }
  | report {tr : List (Mark α)} {s : Loop α} (x : Sleeper) :
      Runs s₀ tr s → x ∈ s.timers.sleepers → x.due ≤ s.time → Runs s₀ tr (s.hear x)

/-- A single event of a run: an order, a turn of the loop, or something that happens around it. -/
inductive Step : Loop α → List (Mark α) → Loop α → Prop
  | order (s : Loop α) (o : Order α) : Step s [.gave o] (s.issue o)
  | turn {s s' : Loop α} {events : List (Event α)} :
      s.turn = .ok (some (s', events)) → Step s (s.marks ++ events.map .seen) s'
  | wait (s : Loop α) (time : Nat) : s.time ≤ time → Step s [] { s with time }
  | hold (s : Loop α) (held : Bool) : Step s [] { s with held }
  | report (s : Loop α) (x : Sleeper) :
      x ∈ s.timers.sleepers → x.due ≤ s.time → Step s [] (s.hear x)

theorem Runs.step {s₀ s s' : Loop α} {tr ms : List (Mark α)} (h : Runs s₀ tr s)
    (hstep : Step s ms s') : Runs s₀ (tr ++ ms) s' := by
  cases hstep with
  | order o => exact h.order o
  | turn ht => exact h.turn ht
  | wait time hle =>
    rw [List.append_nil]
    exact h.wait time hle
  | hold held =>
    rw [List.append_nil]
    exact h.hold held
  | report x hx hdue =>
    rw [List.append_nil]
    exact h.report x hx hdue

/-- The small things of which a run is made while the loop goes on, each with its record. -/
inductive Change : Loop α → List (Mark α) → Loop α → Prop
  | tuned (s : Loop α) (busy : Bool) (deadline : Option Nat) :
      Change s [] { s with busy, deadline }
  | waited (s : Loop α) (time : Nat) (held : Bool) :
      s.time ≤ time → Change s [] { s with time, held }
  | gave (s : Loop α) (o : Order α) : Change s [.gave o] (s.sends [o])
  | continued (s : Loop α) : Change s [] { s with ingress := s.ingress ++ [.work] }
  /-- Sleepers report or are forgotten, and so are reports. -/
  | reported (s : Loop α) (sleepers : List Sleeper) (reports : List Report) :
      (∀ x ∈ sleepers, x ∈ s.timers.sleepers) →
      (∀ r ∈ reports, r ∈ s.reports ∨ ∃ x ∈ s.timers.sleepers, x.report = r ∧ x.due ≤ s.time) →
        Change s [] { s with timers := { s.timers with sleepers }, reports }
  /-- A command is taken up that concerns neither a timer nor a job. -/
  | taken (s : Loop α) (c : Command α) (rest : List (Command α)) :
      s.ingress = c :: rest → c.handle? = none → c.job? = none →
        Change s [.applied c s.time] { s with ingress := rest }
  | rested (s : Loop α) (cursor : Cursor) :
      s.roster.entries = [] → Change s [] { s with cursor }
  | joined (s : Loop α) (more : List Entry) :
      s.roster.entries ≠ [] → Change s [] { s with roster := ⟨s.roster.entries ++ more⟩ }
  | phased (s : Loop α) (roster : Roster) (cursor : Cursor) (phase : PhaseChange) (e : Entry) :
      roster.get? cursor.index = some e → phase.module = e.id →
        Change s [.seen (.changed phase)] { s with roster, cursor }
  | allocated (s : Loop α) (h : Nat) (owner : String) (rest : List (Command α)) :
      s.ingress = .allocate h owner :: rest →
        Change s [.applied (.allocate h owner) s.time]
          { s with ingress := rest, timers := s.timers.insert h owner }
  | armed (s : Loop α) (h d : Nat) (j : Job α) (rest : List (Command α)) (timers : Timers (Job α)) :
      s.ingress = .after h d j :: rest → s.timers.arm s.time h d j = (.fresh, timers) →
        Change s [.applied (.after h d j) s.time] { s with ingress := rest, timers }
  | rearmed (s : Loop α) (h d : Nat) (j : Job α) (rest : List (Command α))
      (timers : Timers (Job α)) (owner : String) (old : Job α) :
      s.ingress = .after h d j :: rest → s.timers.arm s.time h d j = (.replaced owner old, timers) →
        Change s
          [.applied (.after h d j) s.time, .queued owner ⟨old, some .cancelled⟩ s.time]
          { s with
            ingress := rest, timers, queues := s.queues.push owner ⟨old, some .cancelled⟩ }
  | refused (s : Loop α) (h d : Nat) (j : Job α) (rest : List (Command α)) :
      s.ingress = .after h d j :: rest → Table.get? h s.timers.slots = none →
        Change s [.applied (.after h d j) s.time, .seen (.refused j)] { s with ingress := rest }
  | expired (s : Loop α) (r : Report) (reports : List Report) (timers : Timers (Job α))
      (owner : String) (j : Job α) :
      s.reports = r :: reports → s.timers.fire r = (some (owner, j), timers) →
        Change s [.queued owner ⟨j, some .expired⟩ s.time]
          { s with timers, reports, queues := s.queues.push owner ⟨j, some .expired⟩ }
  | enqueued (s : Loop α) (m : String) (j : Job α) (wake : Bool) (rest : List (Command α)) :
      s.ingress = .now m j wake :: rest →
        Change s [.applied (.now m j wake) s.time, .queued m ⟨j, none⟩ s.time]
          { s with ingress := rest, queues := s.queues.push m ⟨j, none⟩ }
  | posted (s : Loop α) (j : Job α) (rest : List (Command α)) :
      s.ingress = .post j :: rest →
        Change s [.applied (.post j) s.time, .seen (.ran j none s.time)]
          ({ s with ingress := rest }.sends j.follow)
  | served (s : Loop α) (e : Entry) (task : Task α) (queues : Queues (Task α)) :
      s.roster.get? s.cursor.index = some e → s.queues.pop? e.id = some (task, queues) →
        Change s [.seen (.ran task.job task.status s.time)]
          ({ s with queues }.sends task.job.follow)

/-- A chain of changes while the loop goes on. -/
inductive Leads (s₀ : Loop α) : List (Mark α) → Loop α → Prop
  | start : Leads s₀ [] s₀
  | change {tr ms : List (Mark α)} {s s' : Loop α} :
      Leads s₀ tr s → Change s ms s' → Leads s₀ (tr ++ ms) s'

theorem Change.ended {s s' : Loop α} {ms : List (Mark α)} (h : Change s ms s') :
    s'.ended = s.ended := by
  cases h <;> rfl

namespace Leads

variable {s s' s'' : Loop α} {tr tr' : List (Mark α)}

theorem ended (h : Leads s tr s') : s'.ended = s.ended := by
  induction h with
  | start => rfl
  | change _ hc ih => exact hc.ended.trans ih

theorem trans (h : Leads s tr s') (h' : Leads s' tr' s'') : Leads s (tr ++ tr') s'' := by
  induction h' with
  | start =>
    rw [List.append_nil]
    exact h
  | change _ hc ih =>
    rw [← List.append_assoc]
    exact ih.change hc

theorem silent (h : Leads s tr s') (h' : Leads s' [] s'') : Leads s tr s'' :=
  List.append_nil tr ▸ h.trans h'

theorem one {ms : List (Mark α)} (h : Change s ms s') : Leads s ms s' := start.change h

end Leads

theorem locate_lt {lengths : List Nat} {offset : Nat} {p : NaturalPhase}
    (h : locate lengths offset = some p) : p.index < lengths.length := by
  induction lengths generalizing offset p with
  | nil => cases h
  | cons len rest ih =>
    unfold locate at h
    split at h
    · cases h
      exact Nat.succ_pos _
    · obtain ⟨q, hq, rfl⟩ := Option.map_eq_some_iff.mp h
      exact Nat.succ_lt_succ (ih hq)

theorem naturalPhase_lt {phases : List Span} {time : Span} {p : NaturalPhase}
    (h : naturalPhase phases time = some p) : p.index < phases.length := by
  unfold naturalPhase naturalOfMillis at h
  dsimp only at h
  split at h
  · cases h
  · obtain ⟨q, hq, rfl⟩ := Option.map_eq_some_iff.mp h
    rw [← List.length_map Span.millis]
    exact (locate_lt hq :)

namespace Cursor

/-- A step goes to a phase of the round; only without phases there is none. -/
theorem advance_cases (c : Cursor) (phases : List Span) (now : Moment) :
    (phases = [] ∧ c.advance phases now = (none, c.reset)) ∨
      ∃ step c', c.advance phases now = (some step, c') ∧ c'.index = step.index ∧
        step.index < phases.length := by
  unfold advance
  by_cases hp : phases = []
  · exact .inl ⟨hp, by rw [hp]; rfl⟩
  right
  rw [if_neg (by simpa using hp)]
  have hnext : (c.index + 1) % phases.length < phases.length :=
    Nat.mod_lt _ (List.length_pos_iff.mpr hp)
  dsimp only
  split
  · split
    · rename_i p h
      exact ⟨_, _, rfl, rfl, naturalPhase_lt h⟩
    · exact ⟨_, _, rfl, rfl, hnext⟩
  · exact ⟨_, _, rfl, rfl, hnext⟩

end Cursor

theorem Roster.register_cases (r : Roster) (id : String) (phase : Span) :
    r.register id phase = (false, r) ∨ ∃ e, r.register id phase = (true, ⟨r.entries ++ [e]⟩) := by
  unfold register
  split
  · exact .inl rfl
  · exact .inr ⟨_, rfl⟩

namespace Loop

variable {s s' : Loop α} {events : List (Event α)}

theorem tuned_leads (s : Loop α) (busy : Bool) (deadline : Option Nat) :
    Leads s [] { s with busy, deadline } :=
  .one (.tuned s busy deadline)

theorem send_leads (hs : s.ended = false) : Leads s [] (s.send .work) := by
  rw [send_eq hs]
  exact .one (.continued s)

theorem worker_leads (hs : s.ended = false) : Leads s (s.worker.2.map .seen) s.worker.1 := by
  unfold worker
  split
  · exact tuned_leads s false s.deadline
  rename_i e he
  split
  · exact tuned_leads s false s.deadline
  rename_i task queues hq
  have hbusy : Leads s [] { s with busy := true } := tuned_leads s true s.deadline
  have hrun := hbusy.change (.served { s with busy := true } e task queues he hq)
  dsimp only [runJob]
  rw [foldl_issue (s := { s with queues, busy := true }) hs]
  split
  · exact hrun.trans (send_leads hs)
  · exact hrun.trans (tuned_leads _ false _)

theorem startWorker_leads (hs : s.ended = false) :
    Leads s (s.startWorker.2.map .seen) s.startWorker.1 := by
  unfold startWorker
  split
  · exact .start
  · exact worker_leads hs

/-- A change of phase publishes the module at the new position, unless there is none. -/
theorem changePhase_cases (h : s.changePhase = .ok (s', events)) :
    (∃ cursor, s.roster.entries = [] ∧ s' = { s with cursor, deadline := none } ∧ events = []) ∨
      ∃ cursor e phase deadline, s.roster.get? cursor.index = some e ∧ phase.module = e.id ∧
        s' = { { s with cursor }.startWorker.1 with deadline } ∧
        events = .changed phase :: { s with cursor }.startWorker.2 := by
  unfold changePhase at h
  cases hread : s.clock.read (.ofMillis s.time) with
  | error fault =>
    rw [hread] at h
    cases h
  | ok now =>
    rcases s.cursor.advance_cases s.roster.phases now with
      ⟨hnil, hadv⟩ | ⟨step, cursor, hadv, hindex, hlt⟩
    · simp only [hread, bind, Except.bind, hadv, pure, Except.pure] at h
      obtain ⟨rfl, rfl⟩ := Prod.mk.inj (Except.ok.inj h)
      exact .inl ⟨_, List.map_eq_nil_iff.mp hnil, rfl, rfl⟩
    · have hsize : step.index < s.roster.entries.length := by simpa [Roster.phases] using hlt
      have he : s.roster.get? step.index = some s.roster.entries[step.index] :=
        List.getElem?_eq_getElem hsize
      simp only [hread, bind, Except.bind, hadv, pure, Except.pure, he] at h
      obtain ⟨rfl, rfl⟩ := Prod.mk.inj (Except.ok.inj h)
      exact .inr ⟨cursor, _, _, _, by rw [hindex, he], rfl, rfl, rfl⟩

/-- A change of phase, with the roster as it stands or with a new one that is not empty. -/
theorem changePhase_leads (hs : s.ended = false) {roster : Roster}
    (hr : roster = s.roster ∨ roster.entries ≠ [])
    (h : { s with roster }.changePhase = .ok (s', events)) : Leads s (events.map .seen) s' := by
  rcases changePhase_cases h with ⟨cursor, hnil, rfl, rfl⟩ | ⟨cursor, e, phase, d, he, hm, rfl, rfl⟩
  · -- Without modules only the cursor goes back, so the roster is the one that was there.
    obtain rfl : roster = s.roster := hr.resolve_right fun hne => hne hnil
    exact (tuned_leads s s.busy none).change (.rested { s with deadline := none } cursor hnil)
  · have hphased := Leads.one (.phased s roster cursor phase e he hm)
    have hwork := hphased.trans (startWorker_leads hs)
    exact hwork.silent (tuned_leads _ _ d)

theorem register_leads (hs : s.ended = false) {id : String} {phase : Span}
    (h : s.apply (.register id phase) = .ok (s', events)) : Leads s (events.map .seen) s' := by
  unfold apply at h
  rcases s.roster.register_cases id phase with hold | ⟨e, hnew⟩
  · simp only [hold, Bool.false_eq_true, false_and, if_false] at h
    obtain ⟨rfl, rfl⟩ := Prod.mk.inj (Except.ok.inj h)
    exact .start
  simp only [hnew, true_and] at h
  split at h
  · exact changePhase_leads hs (.inr (by simp)) h
  · rename_i hsize
    obtain ⟨rfl, rfl⟩ := Prod.mk.inj (Except.ok.inj h)
    refine .one (.joined s _ fun hnil => hsize ?_)
    rw [Roster.size, hnil]
    rfl

/-- Arming a timer: it may be unknown, at rest or pending. -/
theorem after_leads (hs : s.ended = false) {timer delay : Nat} {job : Job α}
    {rest : List (Command α)} (hc : s.ingress = .after timer delay job :: rest)
    (h : { s with ingress := rest }.apply (.after timer delay job) = .ok (s', events)) :
    Leads s (s.taking (.after timer delay job) ++ events.map .seen) s' := by
  unfold apply at h
  unfold taking
  dsimp only at h ⊢
  cases harm : s.timers.arm s.time timer delay job with
  | mk armed timers =>
    rw [harm] at h
    cases armed with
    | fresh =>
      obtain ⟨rfl, rfl⟩ := Prod.mk.inj (Except.ok.inj h)
      exact .one (.armed s timer delay job rest timers hc harm)
    | replaced owner old =>
      obtain ⟨rfl, rfl⟩ := Prod.mk.inj (Except.ok.inj h)
      have hre := Leads.one (.rearmed s timer delay job rest timers owner old hc harm)
      exact hre.trans (startWorker_leads hs)
    | unknown =>
      obtain ⟨rfl, rfl⟩ := Prod.mk.inj (Except.ok.inj h)
      exact .one (.refused s timer delay job rest hc (Timers.arm_unknown harm))

theorem apply_leads (hs : s.ended = false) {c : Command α} {rest : List (Command α)}
    (hc : s.ingress = c :: rest) (h : { s with ingress := rest }.apply c = .ok (s', events)) :
    Leads s (s.taking c ++ events.map .seen) s' ∨
      ∃ s₁, Leads s (s.taking c) s₁ ∧ s' = s₁.finish ∧ events = [.ended] := by
  cases c with
  | register id phase =>
    have htaken := Leads.one (.taken s _ rest hc rfl rfl)
    exact .inl (htaken.trans (register_leads hs h))
  | allocate timer owner =>
    obtain ⟨rfl, rfl⟩ := Prod.mk.inj (Except.ok.inj h)
    exact .inl (.one (.allocated s timer owner rest hc))
  | after timer delay job =>
    exact .inl (after_leads hs hc h)
  | now module job wake =>
    have hqueued := Leads.one (.enqueued s module job wake rest hc)
    obtain ⟨hnext, rfl⟩ := Prod.mk.inj (Except.ok.inj h)
    left
    cases wake with
    | false =>
      obtain rfl := hnext
      exact hqueued
    | true =>
      obtain rfl := hnext
      exact hqueued.trans (startWorker_leads hs)
  | post job =>
    obtain ⟨rfl, rfl⟩ := Prod.mk.inj (Except.ok.inj h)
    rw [foldl_issue (s := { s with ingress := rest }) hs]
    exact .inl (.one (.posted s job rest hc))
  | work =>
    obtain ⟨rfl, rfl⟩ := Prod.mk.inj (Except.ok.inj h)
    have htaken := Leads.one (.taken s _ rest hc rfl rfl)
    exact .inl (htaken.trans (worker_leads hs))
  | stop =>
    obtain ⟨rfl, rfl⟩ := Prod.mk.inj (Except.ok.inj h)
    exact .inr ⟨_, .one (.taken s _ rest hc rfl rfl), rfl, rfl⟩

theorem onReport_leads (hs : s.ended = false) {r : Report} {rest : List Report}
    (hr : s.reports = r :: rest) :
    Leads s (s.hearing r ++ ({ s with reports := rest }.onReport r).2.map .seen)
      ({ s with reports := rest }.onReport r).1 := by
  unfold hearing onReport
  dsimp only
  cases hfire : s.timers.fire r with
  | mk fired timers =>
    cases fired with
    | none =>
      refine .one (.reported s s.timers.sleepers rest (fun _ hx => hx) fun x hx => .inl ?_)
      rw [hr]
      exact List.mem_cons_of_mem r hx
    | some p =>
      have hex := Leads.one (.expired s r rest timers p.1 p.2 hr hfire)
      exact hex.trans (startWorker_leads hs)

theorem map_some_eq_ok {β : Type} {x : Except TimeFault β} {y : β}
    (h : x.map some = .ok (some y)) : x = .ok y := by
  cases x with
  | error fault => cases h
  | ok z =>
    obtain rfl := Option.some.inj (Except.ok.inj h)
    rfl

section Marks

theorem marks_of_due (hd : s.deadline.any (· ≤ s.time) = true) : s.marks = [] := if_pos hd

variable (hd : ¬s.deadline.any (· ≤ s.time) = true)
include hd

theorem marks_of_report {r : Report} {rest : List Report} (hr : s.reports = r :: rest) :
    s.marks = s.hearing r := by
  rw [marks, if_neg hd, hr]

theorem marks_of_command (hr : s.reports = []) {c : Command α} {rest : List (Command α)}
    (hc : s.ingress = c :: rest) : s.marks = s.taking c := by
  rw [marks, if_neg hd, hr, hc]

theorem marks_of_idle (hr : s.reports = []) (hc : s.ingress = []) : s.marks = [] := by
  rw [marks, if_neg hd, hr, hc]

end Marks

/-- What a turn is about, with what it does before anything of it is seen. -/
inductive Turning (s : Loop α) : List (Mark α) → Loop α → List (Event α) → Prop
  | phase {s' : Loop α} {events : List (Event α)} :
      s.deadline.any (· ≤ s.time) = true →
      { s with deadline := none }.changePhase = .ok (s', events) → Turning s [] s' events
  | report {r : Report} {rest : List Report} :
      ¬s.deadline.any (· ≤ s.time) = true → s.reports = r :: rest →
        Turning s (s.hearing r) ({ s with reports := rest }.onReport r).1
          ({ s with reports := rest }.onReport r).2
  | command {c : Command α} {rest : List (Command α)} {s' : Loop α} {events : List (Event α)} :
      ¬s.deadline.any (· ≤ s.time) = true → s.reports = [] → s.ingress = c :: rest →
      { s with ingress := rest }.apply c = .ok (s', events) → Turning s (s.taking c) s' events
  | deserted :
      ¬s.deadline.any (· ≤ s.time) = true → s.reports = [] → s.ingress = [] → s.alive = false →
        Turning s [] s.finish [.ended]
  | woken {reports : List Report} {timers : Timers (Job α)} :
      s.timers.wake s.time = (reports, timers) → Turning s [] { s with timers, reports } []

theorem turn_cases (h : s.turn = .ok (some (s', events))) :
    s.ended = false ∧ Turning s s.marks s' events := by
  unfold turn at h
  split at h
  · cases h
  rename_i hs
  refine ⟨Bool.eq_false_iff.mpr hs, ?_⟩
  split at h
  · rename_i hd
    rw [marks_of_due hd]
    exact .phase hd (map_some_eq_ok h)
  rename_i hd
  split at h
  · rename_i r rest hr
    rw [marks_of_report hd hr]
    obtain ⟨rfl, rfl⟩ := Prod.mk.inj (Option.some.inj (Except.ok.inj h))
    exact .report hd hr
  rename_i hr
  split at h
  · rename_i c rest hc
    rw [marks_of_command hd hr hc]
    exact .command hd hr hc (map_some_eq_ok h)
  rename_i hc
  rw [marks_of_idle hd hr hc]
  split at h
  · rename_i hdead
    rw [Bool.not_eq_true'] at hdead
    obtain ⟨rfl, rfl⟩ := Prod.mk.inj (Option.some.inj (Except.ok.inj h))
    exact .deserted hd hr hc hdead
  split at h
  · cases h
  · rename_i reports timers _ hw
    obtain ⟨rfl, rfl⟩ := Prod.mk.inj (Option.some.inj (Except.ok.inj h))
    exact .woken hw

/-- Every turn is a chain of changes, and then perhaps the end. -/
theorem turn_leads (h : s.turn = .ok (some (s', events))) :
    s.ended = false ∧
      (Leads s (s.marks ++ events.map .seen) s' ∨
        ∃ s₁, Leads s s.marks s₁ ∧ s' = s₁.finish ∧ events = [.ended]) := by
  obtain ⟨hs, hturn⟩ := turn_cases h
  refine ⟨hs, ?_⟩
  generalize s.marks = ms at hturn ⊢
  cases hturn with
  | phase hd hc =>
    have htuned : Leads s [] { s with deadline := none } := tuned_leads s s.busy none
    exact .inl (htuned.trans (changePhase_leads hs (.inl rfl) hc))
  | report hd hr => exact .inl (onReport_leads hs hr)
  | command hd hr hi hc => exact apply_leads hs hi hc
  | deserted => exact .inr ⟨s, .start, rfl, rfl⟩
  | woken hw =>
    obtain ⟨rfl, rfl⟩ := Prod.mk.inj hw
    refine .inl (.one (.reported s _ _ (fun x hx => (List.mem_filter.mp hx).1) fun r hr => ?_))
    obtain ⟨x, hx, rfl⟩ := List.mem_map.mp hr
    obtain ⟨hmem, hdue⟩ := Timers.mem_due.mp hx
    exact .inr ⟨x, hmem, rfl, hdue⟩

end Loop

/-- The end of the loop and what is ordered after it. -/
def coda (os : List (Order α)) : List (Mark α) := .seen .ended :: os.map .gave

theorem filterMap_coda {β : Type} {f : Mark α → Option β} (he : f (.seen .ended) = none)
    (hg : ∀ o, f (.gave o) = none) (os : List (Order α)) : (coda os).filterMap f = [] := by
  refine List.filterMap_eq_nil_iff.mpr fun x hx => ?_
  rcases List.mem_cons.mp hx with rfl | hx
  · exact he
  · obtain ⟨o, -, rfl⟩ := List.mem_map.mp hx
    exact hg o

/-- While the loop goes on, its record is a chain of changes; after the end orders are still given,
but nothing comes of them. -/
def Trails (s₀ : Loop α) (tr : List (Mark α)) (s : Loop α) : Prop :=
  (s.ended = false ∧ Leads s₀ tr s) ∨
    (s.ended = true ∧ ∃ (s₁ : Loop α) (tr₁ : List (Mark α)) (os : List (Order α)),
      Leads s₀ tr₁ s₁ ∧ tr = tr₁ ++ coda os)

namespace Trails

variable {s₀ s s' : Loop α} {tr ms : List (Mark α)}

theorem order (h : Trails s₀ tr s) (o : Order α) : Trails s₀ (tr ++ [.gave o]) (s.issue o) := by
  rcases h with ⟨hs, hl⟩ | ⟨hs, s₁, tr₁, os, hl, rfl⟩
  · rw [Loop.issue_eq hs]
    exact .inl ⟨hs, hl.change (.gave s o)⟩
  · refine .inr ⟨?_, s₁, tr₁, os ++ [o], hl, by simp [coda]⟩
    rw [Loop.ended_issue]
    exact hs

theorem turn (h₀ : s₀.ended = false) (h : Trails s₀ tr s) {events : List (Event α)}
    (ht : s.turn = .ok (some (s', events))) :
    Trails s₀ (tr ++ (s.marks ++ events.map .seen)) s' := by
  obtain ⟨hs, hturn⟩ := Loop.turn_leads ht
  have hl : Leads s₀ tr s := by
    rcases h with ⟨-, hl⟩ | ⟨hend, -⟩
    · exact hl
    · rw [hs] at hend
      cases hend
  rcases hturn with hturn | ⟨s₁, hturn, rfl, rfl⟩
  · have hnext := hl.trans hturn
    exact .inl ⟨hnext.ended.trans h₀, hnext⟩
  · exact .inr ⟨rfl, s₁, _, [], hl.trans hturn, by simp [coda]⟩

/-- A change without a record, at any time. -/
theorem silent (h : Trails s₀ tr s) (he : s'.ended = s.ended) (hc : Change s [] s') :
    Trails s₀ tr s' := by
  unfold Trails
  rw [he]
  exact h.imp (fun ⟨hs, hl⟩ => ⟨hs, hl.silent (.one hc)⟩) id

theorem step (h₀ : s₀.ended = false) (h : Trails s₀ tr s) (hstep : Step s ms s') :
    Trails s₀ (tr ++ ms) s' := by
  cases hstep with
  | order o => exact h.order o
  | turn ht => exact h.turn h₀ ht
  | wait time hle =>
    rw [List.append_nil]
    exact h.silent rfl (.waited s time s.held hle)
  | hold held =>
    rw [List.append_nil]
    exact h.silent rfl (.waited s s.time held (Nat.le_refl _))
  | report x hx hdue =>
    rw [List.append_nil]
    refine h.silent rfl (.reported s _ _ (fun y hy => (List.mem_filter.mp hy).1) fun r hr => ?_)
    rcases List.mem_append.mp hr with hr | hr
    · exact .inl hr
    · exact .inr ⟨x, hx, (List.mem_singleton.mp hr).symm, hdue⟩

end Trails

theorem Runs.leads {s₀ s : Loop α} {tr : List (Mark α)} (h₀ : s₀.ended = false)
    (h : Runs s₀ tr s) : Trails s₀ tr s := by
  induction h with
  | start => exact .inl ⟨h₀, .start⟩
  | @order tr s o _ ih => exact ih.step h₀ (.order s o)
  | turn _ ht ih => exact ih.step h₀ (.turn ht)
  | @wait tr s time _ hle ih => exact List.append_nil tr ▸ ih.step h₀ (.wait s time hle)
  | @hold tr s held _ ih => exact List.append_nil tr ▸ ih.step h₀ (.hold s held)
  | @report tr s x _ hx hdue ih => exact List.append_nil tr ▸ ih.step h₀ (.report s x hx hdue)

end PhasedGrid.Schedule
