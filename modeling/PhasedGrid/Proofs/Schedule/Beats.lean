import Mathlib.Data.List.Induction
import PhasedGrid.Proofs.Schedule.Lines
import PhasedGrid.Proofs.Schedule.Natural

/-!
What the events of a run do to the round of phases. The worker, the timers and all commands but one
leave the round alone. It goes on when the deadline of a phase has come, and it begins when a first
module is registered; either way one change of phase is published, and nothing else of that event
concerns the round.
-/

namespace PhasedGrid.Schedule

set_option autoImplicit false

variable {α : Type}

section Registered

/-- The roster after an entry of the record. -/
@[simp] def Mark.enlist (r : Roster) : Mark α → Roster
  | .applied (.register id phase) _ => (r.register id phase).2
  | _ => r

@[simp] def Mark.wish? : Mark α → Option Span
  | .applied (.register _ phase) _ => some phase
  | _ => none

/-- The phases that modules ask for. -/
def wishes (tr : List (Mark α)) : List Span := tr.filterMap Mark.wish?

def enroll (r : Roster) (ms : List (Mark α)) : Roster := ms.foldl Mark.enlist r

/-- The modules that a run has registered. -/
def registered (tr : List (Mark α)) : Roster := enroll {} tr

theorem enroll_append (r : Roster) (tr ms : List (Mark α)) :
    enroll r (tr ++ ms) = enroll (enroll r tr) ms := List.foldl_append

theorem registered_append (tr ms : List (Mark α)) :
    registered (tr ++ ms) = enroll (registered tr) ms := enroll_append {} tr ms

theorem enroll_of_not_register {ms : List (Mark α)}
    (h : ∀ id phase t, .applied (.register id phase) t ∉ ms) (r : Roster) : enroll r ms = r := by
  induction ms generalizing r with
  | nil => rfl
  | cons x ms ih =>
    have hx : x.enlist r = r := by
      unfold Mark.enlist
      split
      · exact absurd List.mem_cons_self (h _ _ _)
      · rfl
    change enroll (x.enlist r) ms = r
    rw [hx]
    exact ih (fun id phase t hm => h id phase t (List.mem_cons_of_mem x hm)) r

theorem enlist_ne_nil {r : Roster} (h : r.entries ≠ []) (x : Mark α) :
    (x.enlist r).entries ≠ [] := by
  unfold Mark.enlist
  split
  · rename_i id phase _
    rcases r.register_cases id phase with hold | ⟨e, hnew⟩
    · rw [hold]
      exact h
    · rw [hnew]
      exact List.append_ne_nil_of_left_ne_nil h [e]
  · exact h

theorem enroll_ne_nil {r : Roster} (h : r.entries ≠ []) (ms : List (Mark α)) :
    (enroll r ms).entries ≠ [] := by
  induction ms generalizing r with
  | nil => exact h
  | cons x ms ih => exact ih (enlist_ne_nil h x)

/-- No phase is shorter than a millisecond. -/
theorem clamp_millis (phase : Span) : 1 ≤ (Roster.clamp phase).millis := by
  have hshort : Roster.shortestPhase.nanos = Span.perMilli := rfl
  unfold Roster.clamp
  split
  · decide
  · rename_i h
    rw [hshort] at h
    exact (Nat.one_le_div_iff (by decide)).mpr (Nat.not_lt.mp h)

theorem mem_register {r : Roster} {id : String} {phase : Span} {e : Entry}
    (h : e ∈ (r.register id phase).2.entries) : e ∈ r.entries ∨ e = ⟨id, Roster.clamp phase⟩ := by
  unfold Roster.register at h
  split at h
  · exact Or.inl h
  · exact (List.mem_append.mp h).imp_right List.mem_singleton.mp

/-- What holds of every phase as it is registered holds of the phases of the round. -/
theorem enroll_entries {P : Span → Prop} {r : Roster} {ms : List (Mark α)}
    (hr : ∀ e ∈ r.entries, P e.phase)
    (h : ∀ id phase t, .applied (.register id phase) t ∈ ms → P (Roster.clamp phase)) :
    ∀ e ∈ (enroll r ms).entries, P e.phase := by
  induction ms generalizing r with
  | nil => exact hr
  | cons x ms ih =>
    refine ih (r := x.enlist r) ?_ fun id phase t hm => h id phase t (List.mem_cons_of_mem x hm)
    unfold Mark.enlist
    split
    · rename_i id phase t
      intro e he
      rcases mem_register he with he | rfl
      · exact hr e he
      · exact h id phase t List.mem_cons_self
    · exact hr

theorem registered_millis (tr : List (Mark α)) : ∀ e ∈ (registered tr).entries, 1 ≤ e.phase.millis :=
  enroll_entries (P := fun phase => 1 ≤ phase.millis) nofun fun _ phase _ _ => clamp_millis phase

/-- Phases of whole milliseconds stay so. -/
theorem registered_whole {tr : List (Mark α)}
    (h : ∀ phase ∈ wishes tr, phase = .ofMillis phase.millis) :
    ∀ e ∈ (registered tr).entries, e.phase = .ofMillis e.phase.millis := by
  refine enroll_entries (P := fun phase => phase = .ofMillis phase.millis) nofun ?_
  intro id phase t hm
  unfold Roster.clamp
  split
  · rfl
  · exact h phase (List.mem_filterMap.mpr ⟨_, hm, rfl⟩)

theorem has_register (r : Roster) (id : String) (phase : Span) :
    (r.register id phase).2.has id := by
  unfold Roster.register
  split
  · assumption
  · unfold Roster.has
    rw [List.any_append]
    simp

theorem has_of_subset {r r' : Roster} (h : r.entries ⊆ r'.entries) {id : String} (hid : r.has id) :
    r'.has id := by
  obtain ⟨e, he, heq⟩ := List.any_eq_true.mp hid
  exact List.any_eq_true.mpr ⟨e, h he, heq⟩

theorem enlist_subset (r : Roster) (x : Mark α) : r.entries ⊆ (x.enlist r).entries := by
  unfold Mark.enlist
  split
  · rename_i id phase _
    rcases r.register_cases id phase with hold | ⟨e, hnew⟩
    · rw [hold]
      exact List.Subset.refl _
    · rw [hnew]
      exact List.subset_append_left _ _
  · exact List.Subset.refl _

/-- A name that has been registered is taken. -/
theorem registered_has {tr : List (Mark α)} {id : String} {phase : Span} {t : Nat}
    (h : .applied (.register id phase) t ∈ tr) : (registered tr).has id := by
  induction tr using List.reverseRecOn with
  | nil => cases h
  | append_singleton tr x ih =>
    rw [registered_append]
    rcases List.mem_append.mp h with h | h
    · exact has_of_subset (enlist_subset _ x) (ih h)
    · obtain rfl := List.mem_singleton.mp h
      exact has_register _ id phase

/-- A module as it was registered for the first time, with a phase that is not too short. -/
def Enrolled (tr : List (Mark α)) (e : Entry) : Prop :=
  ∃ before phase t after, tr = before ++ .applied (.register e.id phase) t :: after ∧
    e.phase = Roster.clamp phase ∧ ∀ phase' t', .applied (.register e.id phase') t' ∉ before

theorem registered_enrolled {tr : List (Mark α)} {e : Entry} (h : e ∈ (registered tr).entries) :
    Enrolled tr e := by
  induction tr using List.reverseRecOn with
  | nil => cases h
  | append_singleton tr x ih =>
    have hold : e ∈ (registered tr).entries → Enrolled (tr ++ [x]) e := by
      intro he
      obtain ⟨before, phase, t, after, rfl, hrest⟩ := ih he
      exact ⟨before, phase, t, after ++ [x], List.append_assoc .., hrest⟩
    rw [registered_append] at h
    change e ∈ (x.enlist (registered tr)).entries at h
    unfold Mark.enlist at h
    split at h
    · rename_i id phase t
      by_cases hid : (registered tr).has id
      · rw [Roster.register, if_pos hid] at h
        exact hold h
      rcases mem_register h with he | rfl
      · exact hold he
      · exact ⟨tr, phase, t, [], rfl, rfl, fun _ _ hmem => hid (registered_has hmem)⟩
    · exact hold h

end Registered

/-- The parts of a scheduler that make up the round are as they were. -/
structure Calm (s s' : Loop α) : Prop where
  clock : s'.clock = s.clock
  time : s'.time = s.time
  roster : s'.roster = s.roster
  cursor : s'.cursor = s.cursor
  deadline : s'.deadline = s.deadline
  ended : s'.ended = s.ended

namespace Calm

variable {s s' s'' : Loop α}

theorem refl (s : Loop α) : Calm s s := ⟨rfl, rfl, rfl, rfl, rfl, rfl⟩

theorem trans (h : Calm s s') (k : Calm s' s'') : Calm s s'' :=
  ⟨k.clock.trans h.clock, k.time.trans h.time, k.roster.trans h.roster, k.cursor.trans h.cursor,
    k.deadline.trans h.deadline, k.ended.trans h.ended⟩

end Calm

/-- An event that publishes nothing. A module may join the round, but not as the first one. -/
structure Steady (s : Loop α) (ms : List (Mark α)) (s' : Loop α) : Prop where
  clock : s'.clock = s.clock
  time : s.time ≤ s'.time
  roster : s'.roster = enroll s.roster ms
  cursor : s'.cursor = s.cursor
  deadline : (s'.ended = s.ended ∧ s'.deadline = s.deadline) ∨ (s'.ended ∧ s'.deadline = none)
  phases : phases ms = []
  joined : ∀ id phase t, .applied (.register id phase) t ∈ ms → s.roster.entries ≠ []

/-- A change of phase: the deadline of the phase before has come, or a first module has just been
registered. -/
structure Changes (s : Loop α) (ms : List (Mark α)) (p : PhaseChange) (rest : List (Mark α))
    (s' : Loop α) : Prop where
  alive : s.ended = false ∧ s'.ended = false
  clock : s'.clock = s.clock
  time : s'.time = s.time
  roster : s'.roster = enroll s.roster ms
  cause : (ms = [] ∧ ∃ d ∈ s.deadline, d ≤ s.time) ∨
    ∃ id phase, ms = [.applied (.register id phase) s.time] ∧ s.roster.entries = []
  phases : phases rest = []
  joined : ∀ id phase t, .applied (.register id phase) t ∉ rest
  read : s.clock.read (.ofMillis s.time) = .ok p.moment
  step : s.cursor.Advancing s'.roster.phases p.moment ⟨p.index, p.duration, p.aligned⟩ s'.cursor
  counter : p.counter = s'.cursor.counter
  module : ∃ e, s'.roster.get? p.index = some e ∧ p.module = e.id
  deadline : s'.deadline = some (s.time + p.duration.millis)

namespace Changes

variable {s s' : Loop α} {ms rest : List (Mark α)} {p : PhaseChange}

theorem before (h : Changes s ms p rest s') : PhasedGrid.Schedule.phases ms = [] := by
  rcases h.cause with ⟨rfl, -⟩ | ⟨id, phase, rfl, -⟩ <;> rfl

theorem phases_eq (h : Changes s ms p rest s') :
    PhasedGrid.Schedule.phases (ms ++ .seen (.changed p) :: rest) = [p] := by
  rw [phases_append, h.before, List.nil_append]
  exact congrArg (p :: ·) h.phases

end Changes

/-- What an event comes to for the round. -/
inductive Beat (s : Loop α) : List (Mark α) → Loop α → Prop
  | steady {ms : List (Mark α)} {s' : Loop α} : Steady s ms s' → Beat s ms s'
  | changed {ms rest : List (Mark α)} {p : PhaseChange} {s' : Loop α} : Changes s ms p rest s' →
      Beat s (ms ++ .seen (.changed p) :: rest) s'

section Cases

variable {s s' : Loop α} {events : List (Event α)} {c : Command α} {rest : List (Command α)}

theorem Calm.steady (h : Calm s s') {ms : List (Mark α)} (hp : phases ms = [])
    (hm : ∀ id phase t, .applied (.register id phase) t ∉ ms) : Steady s ms s' := by
  refine ⟨h.clock, Nat.le_of_eq h.time.symm, ?_, h.cursor, Or.inl ⟨h.ended, h.deadline⟩, hp,
    fun id phase t hx => ?_⟩
  · rw [h.roster, enroll_of_not_register hm]
  · exact absurd hx (hm id phase t)

namespace Loop

theorem issue_calm (s : Loop α) (o : Order α) : Calm s (s.issue o) := by
  have hsend : ∀ {t : Loop α} (c : Command α), Calm s t → Calm s (t.send c) := by
    intro t c h
    unfold send
    split
    · exact h
    · exact h.trans ⟨rfl, rfl, rfl, rfl, rfl, rfl⟩
  unfold issue
  cases o <;> exact hsend _ ⟨rfl, rfl, rfl, rfl, rfl, rfl⟩

/-- What the worker does concerns its queue and the ingress only. -/
theorem worker_calm (hs : s.ended = false) : Calm s s.worker.1 := by
  unfold worker
  split
  · exact ⟨rfl, rfl, rfl, rfl, rfl, rfl⟩
  split
  · exact ⟨rfl, rfl, rfl, rfl, rfl, rfl⟩
  rename_i task queues _
  dsimp only [runJob]
  rw [foldl_issue (s := { s with queues, busy := true }) hs]
  split
  · rw [send_eq (by exact hs)]
    exact ⟨rfl, rfl, rfl, rfl, rfl, rfl⟩
  · exact ⟨rfl, rfl, rfl, rfl, rfl, rfl⟩

theorem worker_seen (s : Loop α) : phases (s.worker.2.map .seen) = [] := by
  unfold worker
  split
  · rfl
  split
  · rfl
  · dsimp only [runJob]
    split <;> rfl

theorem startWorker_calm (hs : s.ended = false) : Calm s s.startWorker.1 := by
  unfold startWorker
  split
  · exact .refl s
  · exact worker_calm hs

theorem startWorker_seen (s : Loop α) : phases (s.startWorker.2.map .seen) = [] := by
  unfold startWorker
  split
  · rfl
  · exact worker_seen s

theorem register_notMem_seen (events : List (Event α)) (id : String) (phase : Span) (t : Nat) :
    .applied (.register id phase) t ∉ events.map Mark.seen := by
  intro hm
  obtain ⟨e, -, he⟩ := List.mem_map.mp hm
  cases he

/-- An event that ends with a call to the worker. -/
theorem startWorker_beat (ms : List (Mark α)) (h : Calm s s') (hs : s.ended = false)
    (hp : phases ms = []) (hm : ∀ id phase t, .applied (.register id phase) t ∉ ms) :
    Beat s (ms ++ s'.startWorker.2.map .seen) s'.startWorker.1 := by
  refine .steady ((h.trans (startWorker_calm (h.ended.trans hs))).steady ?_ fun id phase t hx => ?_)
  · rw [phases_append, hp, startWorker_seen]
    rfl
  · rcases List.mem_append.mp hx with hx | hx
    · exact hm id phase t hx
    · exact register_notMem_seen _ id phase t hx

/-- In a round of some length a change of phase is published. -/
theorem changePhase_changes (hs : s.ended = false) {e₀ : Entry} (he₀ : e₀ ∈ s.roster.entries)
    (hlong : 1 ≤ e₀.phase.millis) (h : s.changePhase = .ok (s', events)) :
    ∃ p cursor later, events = .changed p :: later ∧ phases (later.map .seen) = [] ∧
      s.clock.read (.ofMillis s.time) = .ok p.moment ∧
      s.cursor.Advancing s.roster.phases p.moment ⟨p.index, p.duration, p.aligned⟩ cursor ∧
      p.counter = cursor.counter ∧ (∃ e, s.roster.get? p.index = some e ∧ p.module = e.id) ∧
      Calm { s with cursor, deadline := some (s.time + p.duration.millis) } s' := by
  have hmem : e₀.phase ∈ s.roster.phases := List.mem_map_of_mem he₀
  unfold changePhase at h
  cases hread : s.clock.read (.ofMillis s.time) with
  | error fault =>
    rw [hread] at h
    cases h
  | ok now =>
    obtain ⟨step, cursor, hadv, hstep⟩ := s.cursor.advance_advancing hmem hlong now
    have hlt : step.index < s.roster.entries.length := by
      rcases s.cursor.advance_cases s.roster.phases now with ⟨hnil, -⟩ | ⟨u, d, hadv', -, hlt⟩
      · rw [hnil] at hmem
        cases hmem
      · rw [hadv] at hadv'
        obtain rfl := Option.some.inj (Prod.mk.inj hadv').1
        simpa [Roster.phases] using hlt
    have he : s.roster.get? step.index = some s.roster.entries[step.index] :=
      List.getElem?_eq_getElem hlt
    simp only [hread, bind, Except.bind, hadv, pure, Except.pure, he] at h
    obtain ⟨rfl, rfl⟩ := Prod.mk.inj (Except.ok.inj h)
    have hcalm := startWorker_calm (s := { s with cursor }) hs
    refine ⟨_, cursor, _, rfl, startWorker_seen _, rfl, hstep, rfl, ⟨_, he, rfl⟩, ?_⟩
    exact ⟨hcalm.clock, hcalm.time, hcalm.roster, hcalm.cursor,
      congrArg (fun t => some (t + step.duration.millis)) hcalm.time, hcalm.ended⟩

/-- A change of phase fails only where the clock cannot be read. -/
theorem changePhase_ok {now : Moment} (h : s.clock.read (.ofMillis s.time) = .ok now) :
    ∃ r, s.changePhase = .ok r := by
  unfold changePhase
  rw [h]
  simp only [bind, Except.bind, pure, Except.pure]
  split <;> exact ⟨_, rfl⟩

theorem turn_ok {now : Moment} (h : s.clock.read (.ofMillis s.time) = .ok now) :
    ∃ r, s.turn = .ok r := by
  unfold turn
  split
  · exact ⟨_, rfl⟩
  split
  · obtain ⟨r, hr⟩ := changePhase_ok (s := { s with deadline := none }) h
    exact ⟨some r, by rw [hr]; rfl⟩
  split
  · exact ⟨_, rfl⟩
  split
  · rename_i c rest _
    have happly : ∃ r, { s with ingress := rest }.apply c = .ok r := by
      unfold apply
      split
      · dsimp only
        split
        · exact changePhase_ok h
        · exact ⟨_, rfl⟩
      · exact ⟨_, rfl⟩
      · split <;> exact ⟨_, rfl⟩
      all_goals exact ⟨_, rfl⟩
    obtain ⟨r, hr⟩ := happly
    exact ⟨some r, by rw [hr]; rfl⟩
  split
  · exact ⟨_, rfl⟩
  split <;> exact ⟨_, rfl⟩

/-- When a phase is over, the next turn publishes the next one. -/
theorem turn_due (hs : s.ended = false) {d : Nat} (hd : d ∈ s.deadline) (hle : d ≤ s.time)
    {e₀ : Entry} (he₀ : e₀ ∈ s.roster.entries) (hlong : 1 ≤ e₀.phase.millis) {now : Moment}
    (h : s.clock.read (.ofMillis s.time) = .ok now) :
    ∃ s' p later, s.turn = .ok (some (s', .changed p :: later)) := by
  obtain ⟨⟨s', events⟩, hchange⟩ := changePhase_ok (s := { s with deadline := none }) h
  obtain ⟨p, -, later, rfl, -⟩ :=
    changePhase_changes (s := { s with deadline := none }) hs he₀ hlong hchange
  have hdue : s.deadline.any (· ≤ s.time) = true :=
    (Option.any_eq_true ..).mpr ⟨d, hd, decide_eq_true hle⟩
  refine ⟨s', p, later, ?_⟩
  rw [turn, if_neg (by rw [hs]; decide), if_pos hdue, hchange]
  rfl

theorem changePhase_beat (ms : List (Mark α)) (hs : s.ended = false) {t : Loop α}
    (ht : t.ended = false ∧ t.clock = s.clock ∧ t.time = s.time ∧ t.cursor = s.cursor)
    (hroster : t.roster = enroll s.roster ms)
    (hcause : (ms = [] ∧ ∃ d ∈ s.deadline, d ≤ s.time) ∨
      ∃ id phase, ms = [.applied (.register id phase) s.time] ∧ s.roster.entries = [])
    {e₀ : Entry} (he₀ : e₀ ∈ t.roster.entries) (hlong : 1 ≤ e₀.phase.millis)
    (h : t.changePhase = .ok (s', events)) : Beat s (ms ++ events.map .seen) s' := by
  obtain ⟨hend, hclock, htime, hcursor⟩ := ht
  obtain ⟨p, cursor, later, rfl, hlater, hread, hstep, hcount, hmodule, hcalm⟩ :=
    changePhase_changes hend he₀ hlong h
  rw [hclock, htime] at hread
  rw [hcursor] at hstep
  refine .changed ⟨⟨hs, hcalm.ended.trans hend⟩, hcalm.clock.trans hclock, hcalm.time.trans htime,
    hcalm.roster.trans hroster, hcause, hlater, register_notMem_seen later, hread, ?_, ?_, ?_, ?_⟩
  · rw [hcalm.roster, hcalm.cursor]
    exact hstep
  · rw [hcalm.cursor]
    exact hcount
  · rw [hcalm.roster]
    exact hmodule
  · rw [← htime]
    exact hcalm.deadline

theorem register_beat (hs : s.ended = false) {id : String} {phase : Span}
    (h : { s with ingress := rest }.apply (.register id phase) = .ok (s', events)) :
    Beat s (.applied (.register id phase) s.time :: events.map .seen) s' := by
  unfold apply at h
  dsimp only at h
  rcases s.roster.register_cases id phase with hold | ⟨e, hnew⟩
  · -- a name that is taken: then the roster is not empty
    have hjoin : s.roster.entries ≠ [] := by
      intro hnil
      unfold Roster.register Roster.has at hold
      rw [hnil] at hold
      cases hold
    simp only [hold, Bool.false_eq_true, false_and, if_false] at h
    obtain ⟨rfl, rfl⟩ := Prod.mk.inj (Except.ok.inj h)
    exact .steady ⟨rfl, Nat.le_refl _, (congrArg Prod.snd hold).symm, rfl, Or.inl ⟨rfl, rfl⟩, rfl,
      fun _ _ _ _ => hjoin⟩
  have hroster : (s.roster.register id phase).2 = ⟨s.roster.entries ++ [e]⟩ :=
    congrArg Prod.snd hnew
  have hmem : e ∈ (s.roster.register id phase).2.entries := by
    rw [hroster]
    exact List.mem_append_right _ List.mem_cons_self
  simp only [hnew, true_and] at h
  split at h
  · rename_i hsize
    have hnil : s.roster.entries = [] := by
      rw [Roster.size, List.length_append, List.length_singleton] at hsize
      exact List.length_eq_zero_iff.mp (by omega)
    have hlong : 1 ≤ e.phase.millis := by
      rcases mem_register hmem with he | rfl
      · rw [hnil] at he
        cases he
      · exact clamp_millis phase
    exact changePhase_beat [.applied (.register id phase) s.time]
      (t := { s with ingress := rest, roster := ⟨s.roster.entries ++ [e]⟩ }) hs
      ⟨hs, rfl, rfl, rfl⟩ hroster.symm (Or.inr ⟨id, phase, rfl, hnil⟩)
      (List.mem_append_right _ List.mem_cons_self) hlong h
  · rename_i hsize
    obtain ⟨rfl, rfl⟩ := Prod.mk.inj (Except.ok.inj h)
    refine .steady ⟨rfl, Nat.le_refl _, hroster.symm, rfl, Or.inl ⟨rfl, rfl⟩, rfl,
      fun _ _ _ _ => ?_⟩
    intro hnil
    rw [Roster.size, hnil] at hsize
    exact hsize rfl

theorem apply_beat (hs : s.ended = false)
    (h : { s with ingress := rest }.apply c = .ok (s', events)) :
    Beat s (s.taking c ++ events.map .seen) s' := by
  cases c with
  | register id phase => exact register_beat hs h
  | allocate timer owner =>
    obtain ⟨rfl, rfl⟩ := Prod.mk.inj (Except.ok.inj h)
    have hcalm : Calm s { s with ingress := rest, timers := s.timers.insert timer owner } :=
      ⟨rfl, rfl, rfl, rfl, rfl, rfl⟩
    exact .steady (hcalm.steady rfl (by simp [taking]))
  | after timer delay job =>
    unfold apply at h
    unfold taking
    dsimp only at h ⊢
    cases harm : s.timers.arm s.time timer delay job with
    | mk armed timers =>
      rw [harm] at h
      have hcalm : ∀ queues, Calm s { s with ingress := rest, timers, queues } := fun _ =>
        ⟨rfl, rfl, rfl, rfl, rfl, rfl⟩
      cases armed with
      | fresh =>
        obtain ⟨rfl, rfl⟩ := Prod.mk.inj (Except.ok.inj h)
        exact .steady ((hcalm s.queues).steady rfl (by simp))
      | replaced owner old =>
        obtain ⟨rfl, rfl⟩ := Prod.mk.inj (Except.ok.inj h)
        exact startWorker_beat _ (hcalm _) hs rfl (by simp)
      | unknown =>
        obtain ⟨rfl, rfl⟩ := Prod.mk.inj (Except.ok.inj h)
        have hcalm : Calm s { s with ingress := rest } := ⟨rfl, rfl, rfl, rfl, rfl, rfl⟩
        exact .steady (hcalm.steady rfl (by simp))
  | now module job wake =>
    obtain ⟨hnext, rfl⟩ := Prod.mk.inj (Except.ok.inj h)
    have hcalm : Calm s { s with ingress := rest, queues := s.queues.push module ⟨job, none⟩ } :=
      ⟨rfl, rfl, rfl, rfl, rfl, rfl⟩
    cases wake with
    | false =>
      obtain rfl := hnext
      exact .steady (hcalm.steady rfl (by simp [taking]))
    | true =>
      obtain rfl := hnext
      exact startWorker_beat (s.taking (.now module job true)) hcalm hs rfl (by simp [taking])
  | post job =>
    obtain ⟨rfl, rfl⟩ := Prod.mk.inj (Except.ok.inj h)
    rw [foldl_issue (s := { s with ingress := rest }) hs]
    have hcalm : Calm s ({ s with ingress := rest }.sends job.follow) :=
      ⟨rfl, rfl, rfl, rfl, rfl, rfl⟩
    exact .steady (hcalm.steady rfl (by simp [taking]))
  | work =>
    obtain ⟨rfl, rfl⟩ := Prod.mk.inj (Except.ok.inj h)
    have hcalm : Calm s { s with ingress := rest }.worker.1 := by
      have hw := worker_calm (s := { s with ingress := rest }) hs
      exact ⟨hw.clock, hw.time, hw.roster, hw.cursor, hw.deadline, hw.ended⟩
    refine .steady (hcalm.steady (worker_seen _) fun id phase t hx => ?_)
    rcases List.mem_cons.mp hx with he | hx
    · cases he
    · exact register_notMem_seen _ id phase t hx
  | stop =>
    obtain ⟨rfl, rfl⟩ := Prod.mk.inj (Except.ok.inj h)
    exact .steady ⟨rfl, Nat.le_refl _, rfl, rfl, Or.inr ⟨rfl, rfl⟩, rfl, by simp [taking]⟩

theorem onReport_beat (hs : s.ended = false) {r : Report} {reports : List Report} :
    Beat s (s.hearing r ++ ({ s with reports }.onReport r).2.map .seen)
      ({ s with reports }.onReport r).1 := by
  unfold hearing onReport
  dsimp only
  cases hfire : s.timers.fire r with
  | mk fired timers =>
    cases fired with
    | none =>
      have hcalm : Calm s { s with reports } := ⟨rfl, rfl, rfl, rfl, rfl, rfl⟩
      exact .steady (hcalm.steady rfl (by simp))
    | some p =>
      have hcalm : ∀ queues, Calm s { s with reports, timers, queues } := fun _ =>
        ⟨rfl, rfl, rfl, rfl, rfl, rfl⟩
      exact startWorker_beat _ (hcalm _) hs rfl (by simp)

/-- Every turn is a beat of the round. -/
theorem turn_beat (hlong : ∀ e ∈ s.roster.entries, 1 ≤ e.phase.millis)
    (hd : ∀ d ∈ s.deadline, s.roster.entries ≠ []) (h : s.turn = .ok (some (s', events))) :
    Beat s (s.marks ++ events.map .seen) s' := by
  obtain ⟨hs, hturn⟩ := turn_cases h
  generalize s.marks = ms at hturn ⊢
  cases hturn with
  | phase hdue hc =>
    obtain ⟨d, hmem, hle⟩ := (Option.any_eq_true ..).mp hdue
    rw [decide_eq_true_eq] at hle
    obtain ⟨e₀, he₀⟩ := List.exists_mem_of_ne_nil _ (hd d hmem)
    exact changePhase_beat [] (t := { s with deadline := none }) hs ⟨hs, rfl, rfl, rfl⟩ rfl
      (Or.inl ⟨rfl, d, hmem, hle⟩) he₀ (hlong e₀ he₀) hc
  | report => exact onReport_beat hs
  | command _ _ _ hc => exact apply_beat hs hc
  | deserted => exact .steady ⟨rfl, Nat.le_refl _, rfl, rfl, Or.inr ⟨rfl, rfl⟩, rfl, by simp⟩
  | @woken reports timers =>
    have hcalm : Calm s { s with timers, reports } := ⟨rfl, rfl, rfl, rfl, rfl, rfl⟩
    exact .steady (hcalm.steady rfl fun _ _ _ => List.not_mem_nil)

end Loop

/-- Every event is a beat of the round. -/
theorem Step.beat {ms : List (Mark α)} (hlong : ∀ e ∈ s.roster.entries, 1 ≤ e.phase.millis)
    (hd : ∀ d ∈ s.deadline, s.roster.entries ≠ []) (h : Step s ms s') : Beat s ms s' := by
  cases h with
  | order o =>
    exact .steady ((s.issue_calm o).steady rfl (by simp))
  | turn ht => exact Loop.turn_beat hlong hd ht
  | wait time hle => exact .steady ⟨rfl, hle, rfl, rfl, Or.inl ⟨rfl, rfl⟩, rfl, nofun⟩
  | hold held =>
    have hcalm : Calm s { s with held } := ⟨rfl, rfl, rfl, rfl, rfl, rfl⟩
    exact .steady (hcalm.steady rfl fun _ _ _ => List.not_mem_nil)
  | report x hx hdue =>
    have hcalm : Calm s (s.hear x) := ⟨rfl, rfl, rfl, rfl, rfl, rfl⟩
    exact .steady (hcalm.steady rfl fun _ _ _ => List.not_mem_nil)

end Cases

end PhasedGrid.Schedule
