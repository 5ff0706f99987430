import PhasedGrid.Proofs.Schedule.Lines

/-!
What the events of a run do to the worker. An event leaves the worker alone, or it asks it to start,
or it is the worker's own continuation; a worker that is asked while it is busy does nothing.
-/

namespace PhasedGrid.Schedule

set_option autoImplicit false

variable {α : Type}

/-- Whether an entry of the record tells of a call to the worker. -/
@[simp] def Mark.wakes : Mark α → Bool
  | .applied .work _ => true
  | .applied (.now _ _ wake) _ => wake
  | .queued _ task _ => task.status.isSome
  | .seen (.changed _) => true
  | _ => false

/-- The module whose phase it is. -/
def Loop.active? (s : Loop α) : Option Entry := s.roster.get? s.cursor.index

/-- An event in the course of which the worker does nothing. -/
structure Spares (s : Loop α) (ms : List (Mark α)) (s' : Loop α) : Prop where
  ended : s'.ended = s.ended
  busy : s'.busy = s.busy
  line : ∃ new : List (Command α),
    (∀ c ∈ new, c.ordered) ∧ handled ms ++ s'.ingress = s.ingress ++ new
  posted : ∀ task ∈ ran ms, task.job ∈ posts ms

/-- An event that does not call the worker. The phase stays; a job that is queued is to wait. -/
structure Quiet (s : Loop α) (ms : List (Mark α)) (s' : Loop α) : Prop extends Spares s ms s' where
  wakes : ∀ x ∈ ms, x.wakes = false
  active : ∀ e, s'.active? = some e → s.active? = some e
  queues : s'.queues = s.queues ∨ ∃ m j time,
    ms = [.applied (.now m j false) time, .queued m ⟨j, none⟩ time] ∧
      s'.queues = s.queues.push m ⟨j, none⟩

/-- What an event comes to for the worker, unless it ends the loop. -/
inductive Stride (s : Loop α) : List (Mark α) → Loop α → Prop
  | quiet {ms : List (Mark α)} {s' : Loop α} : Quiet s ms s' → Stride s ms s'
  | asked {ms : List (Mark α)} {s₁ : Loop α} (deadline : Option Nat) : Spares s ms s₁ →
      Stride s (ms ++ s₁.startWorker.2.map .seen) { s₁.startWorker.1 with deadline }
  | continued {rest : List (Command α)} : s.ingress = .work :: rest →
      Stride s (.applied .work s.time :: { s with ingress := rest }.worker.2.map .seen)
        { s with ingress := rest }.worker.1

section Cases

variable {s s' t : Loop α} {ms : List (Mark α)} {events : List (Event α)} {c : Command α}
  {rest : List (Command α)}

theorem Spares.silent (he : s'.ended = s.ended) (hb : s'.busy = s.busy)
    (hi : s'.ingress = s.ingress) (hh : handled ms = []) (hr : ran ms = []) : Spares s ms s' := by
  refine ⟨he, hb, ⟨[], nofun, ?_⟩, ?_⟩
  · rw [hh, hi, List.append_nil]
    rfl
  · rw [hr]
    exact nofun

theorem Spares.taken (hc : s.ingress = c :: rest) (he : s'.ended = s.ended)
    (hb : s'.busy = s.busy) (hi : s'.ingress = rest) (hh : handled ms = [c]) (hr : ran ms = []) :
    Spares s ms s' := by
  refine ⟨he, hb, ⟨[], nofun, ?_⟩, ?_⟩
  · rw [hh, hi, hc, List.append_nil]
    rfl
  · rw [hr]
    exact nofun

namespace Loop

theorem startWorker_stride (h : Spares s ms t) :
    Stride s (ms ++ t.startWorker.2.map .seen) t.startWorker.1 := .asked t.startWorker.1.deadline h

theorem changePhase_stride (h : Spares s ms t) (hnil : t.roster.entries = [] → Quiet s ms t)
    (hc : t.changePhase = .ok (s', events)) : Stride s (ms ++ events.map .seen) s' := by
  rcases changePhase_cases hc with ⟨cursor, hn, rfl, rfl⟩ | ⟨cursor, e, phase, d, -, -, rfl, rfl⟩
  · have hq := hnil hn
    rw [List.map_nil, List.append_nil]
    refine .quiet ⟨⟨hq.ended, hq.busy, hq.line, hq.posted⟩, hq.wakes, ?_, hq.queues⟩
    intro e he
    rw [active?, Roster.get?, hn] at he
    cases he
  · have hphase : Spares s (ms ++ [.seen (.changed phase)]) { t with cursor } := by
      obtain ⟨new, hnew, hline⟩ := h.line
      refine ⟨h.ended, h.busy, ⟨new, hnew, ?_⟩, ?_⟩
      · rw [handled_append]
        exact (congrArg (· ++ t.ingress) (List.append_nil _)).trans hline
      · rw [ran_append, posts_append]
        intro task htask
        exact List.mem_append_left _ (h.posted task ((List.append_nil (ran ms)) ▸ htask))
    have hstride := Stride.asked d hphase
    rw [List.append_assoc] at hstride
    exact hstride

theorem onReport_stride {r : Report} {reports : List Report} :
    Stride s (s.hearing r ++ ({ s with reports }.onReport r).2.map .seen)
      ({ s with reports }.onReport r).1 := by
  unfold hearing onReport
  dsimp only
  cases hfire : s.timers.fire r with
  | mk fired timers =>
    cases fired with
    | none => exact .quiet ⟨.silent rfl rfl rfl rfl rfl, nofun, fun _ => id, .inl rfl⟩
    | some p => exact startWorker_stride (.silent rfl rfl rfl rfl rfl)

theorem register_stride (hp : s.roster.entries = [] ∨ s.active?.isSome) {name : String}
    {phase : Span} (hc : s.ingress = .register name phase :: rest)
    (h : { s with ingress := rest }.apply (.register name phase) = .ok (s', events)) :
    Stride s (.applied (.register name phase) s.time :: events.map .seen) s' := by
  unfold apply at h
  rcases s.roster.register_cases name phase with hold | ⟨e, hnew⟩
  · simp only [hold, Bool.false_eq_true, false_and, if_false] at h
    obtain ⟨rfl, rfl⟩ := Prod.mk.inj (Except.ok.inj h)
    exact .quiet ⟨.taken hc rfl rfl rfl rfl rfl, by simp, fun _ => id, .inl rfl⟩
  simp only [hnew, true_and] at h
  split at h
  · have hsp : Spares s [.applied (.register name phase) s.time]
        { s with ingress := rest, roster := ⟨s.roster.entries ++ [e]⟩ } :=
      .taken hc rfl rfl rfl rfl rfl
    exact changePhase_stride hsp (by simp) h
  · rename_i hsize
    obtain ⟨rfl, rfl⟩ := Prod.mk.inj (Except.ok.inj h)
    refine .quiet ⟨.taken hc rfl rfl rfl rfl rfl, by simp, ?_, .inl rfl⟩
    -- The roster was not empty, so the module at the cursor is still the one that was there.
    have hsome : s.active?.isSome := by
      refine hp.resolve_left ?_
      intro hnil
      rw [Roster.size, hnil] at hsize
      exact hsize rfl
    obtain ⟨e₀, he₀⟩ := Option.isSome_iff_exists.mp hsome
    obtain ⟨hlt, -⟩ := List.getElem?_eq_some_iff.mp he₀
    intro e' he'
    rw [← he']
    exact (List.getElem?_append_left hlt).symm

theorem after_stride {timer delay : Nat} {job : Job α}
    (hc : s.ingress = .after timer delay job :: rest)
    (h : { s with ingress := rest }.apply (.after timer delay job) = .ok (s', events)) :
    Stride s (s.taking (.after timer delay job) ++ events.map .seen) s' := by
  unfold apply at h
  unfold taking
  dsimp only at h ⊢
  cases harm : s.timers.arm s.time timer delay job with
  | mk armed timers =>
    rw [harm] at h
    cases armed with
    | fresh =>
      obtain ⟨rfl, rfl⟩ := Prod.mk.inj (Except.ok.inj h)
      exact .quiet ⟨.taken hc rfl rfl rfl rfl rfl, by simp, fun _ => id, .inl rfl⟩
    | replaced owner old =>
      obtain ⟨rfl, rfl⟩ := Prod.mk.inj (Except.ok.inj h)
      exact startWorker_stride (.taken hc rfl rfl rfl rfl rfl)
    | unknown =>
      obtain ⟨rfl, rfl⟩ := Prod.mk.inj (Except.ok.inj h)
      exact .quiet ⟨.taken hc rfl rfl rfl rfl rfl, by simp, fun _ => id, .inl rfl⟩

theorem post_stride {job : Job α} (hc : s.ingress = .post job :: rest) :
    Stride s [.applied (.post job) s.time, .seen (.ran job none s.time)]
      ({ s with ingress := rest }.sends job.follow) := by
  refine .quiet ⟨⟨rfl, rfl, ⟨commands s.handles s.submitted job.follow, ?_, ?_⟩, ?_⟩, by simp, fun _ => id,
    .inl rfl⟩
  · exact fun _ => ordered_of_mem_commands _ _
  · rw [hc]
    rfl
  · intro task htask
    rw [List.mem_singleton.mp htask]
    exact List.mem_cons_self

theorem apply_stride (hs : s.ended = false) (hp : s.roster.entries = [] ∨ s.active?.isSome)
    (hc : s.ingress = c :: rest) (h : { s with ingress := rest }.apply c = .ok (s', events)) :
    s'.ended ∨ Stride s (s.taking c ++ events.map .seen) s' := by
  cases c with
  | register id phase => exact .inr (register_stride hp hc h)
  | allocate timer owner =>
    obtain ⟨rfl, rfl⟩ := Prod.mk.inj (Except.ok.inj h)
    exact .inr (.quiet ⟨.taken hc rfl rfl rfl rfl rfl, by simp [taking], fun _ => id, .inl rfl⟩)
  | after timer delay job => exact .inr (after_stride hc h)
  | now module job wake =>
    obtain ⟨hnext, rfl⟩ := Prod.mk.inj (Except.ok.inj h)
    cases wake with
    | false =>
      obtain rfl := hnext
      have hq : Quiet s [.applied (.now module job false) s.time, .queued module ⟨job, none⟩ s.time]
          { s with ingress := rest, queues := s.queues.push module ⟨job, none⟩ } :=
        ⟨.taken hc rfl rfl rfl rfl rfl, by simp, fun _ => id, .inr ⟨module, job, s.time, rfl, rfl⟩⟩
      exact .inr (.quiet hq)
    | true =>
      obtain rfl := hnext
      exact .inr (startWorker_stride (.taken hc rfl rfl rfl rfl rfl))
  | post job =>
    obtain ⟨rfl, rfl⟩ := Prod.mk.inj (Except.ok.inj h)
    rw [foldl_issue (s := { s with ingress := rest }) hs]
    exact .inr (post_stride hc)
  | work =>
    obtain ⟨rfl, rfl⟩ := Prod.mk.inj (Except.ok.inj h)
    exact .inr (.continued hc)
  | stop =>
    obtain ⟨rfl, rfl⟩ := Prod.mk.inj (Except.ok.inj h)
    exact .inl rfl

theorem turn_stride (hp : s.roster.entries = [] ∨ s.active?.isSome)
    (h : s.turn = .ok (some (s', events))) :
    s'.ended ∨ Stride s (s.marks ++ events.map .seen) s' := by
  obtain ⟨hs, hturn⟩ := turn_cases h
  generalize s.marks = ms at hturn ⊢
  cases hturn with
  | phase hd hc =>
    have hq : Quiet s [] { s with deadline := none } :=
      ⟨.silent rfl rfl rfl rfl rfl, nofun, fun _ => id, .inl rfl⟩
    exact .inr (changePhase_stride hq.toSpares (fun _ => hq) hc)
  | report => exact .inr onReport_stride
  | command _ _ hi hc => exact apply_stride hs hp hi hc
  | deserted => exact .inl rfl
  | woken => exact .inr (.quiet ⟨.silent rfl rfl rfl rfl rfl, nofun, fun _ => id, .inl rfl⟩)

end Loop

/-- Every event of a loop that goes on is one of the three. -/
theorem Step.stride (hs : s.ended = false) (hp : s.roster.entries = [] ∨ s.active?.isSome)
    (h : Step s ms s') : s'.ended ∨ Stride s ms s' := by
  cases h with
  | order o =>
    rw [Loop.issue_eq hs]
    refine .inr (.quiet ⟨⟨rfl, rfl, ⟨commands s.handles s.submitted [o], ?_, rfl⟩, nofun⟩, by simp,
      fun _ => id, .inl rfl⟩)
    exact fun _ => ordered_of_mem_commands _ _
  | turn ht => exact Loop.turn_stride hp ht
  | wait | hold | report =>
    exact .inr (.quiet ⟨.silent rfl rfl rfl rfl rfl, nofun, fun _ => id, .inl rfl⟩)

end Cases

end PhasedGrid.Schedule
