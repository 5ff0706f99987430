import PhasedGrid.Proofs.Schedule.Beats
import PhasedGrid.Proofs.Schedule.Driving
import PhasedGrid.Proofs.Schedule.Plays
import PhasedGrid.Proofs.Time.Moments

/-!
The timeline of a scheduler on virtual time. Its phases follow one another without a gap from the
registration of the first module on: each change of phase is published at the instant at which the
phase before is over, whatever else goes on at that instant. Which phase comes next depends on the
modules that are registered by then and on the last alignment.
-/

namespace PhasedGrid.Schedule

set_option autoImplicit false

variable {α : Type}

/-- A run on virtual time, with the times at which its changes of phase are published. Time passes
as in any run, but never beyond the end of a phase. -/
inductive Timed (s₀ : Loop α) : List (Mark α) → List Nat → Loop α → Prop
  | start : Timed s₀ [] [] s₀
  | step {tr ms : List (Mark α)} {ts : List Nat} {s s' : Loop α} : Timed s₀ tr ts s → Step s ms s' →
      (s.ended = false → s.time < s'.time → ∀ d ∈ s.deadline, s'.time ≤ d) →
        Timed s₀ (tr ++ ms) (ts ++ (phases ms).map fun _ => s.time) s'

theorem Timed.runs {s₀ s : Loop α} {tr : List (Mark α)} {ts : List Nat} (h : Timed s₀ tr ts s) :
    Runs s₀ tr s := by
  induction h with
  | start => exact .start
  | step _ hstep _ ih => exact ih.step hstep

/-- The position of the phase that was published last; at the start it is the first one. -/
def lastIndex (ps : List PhaseChange) : Nat := (ps.getLast?.map PhaseChange.index).getD 0

/-- The moment of the last alignment, `first` if there was none. -/
def alignment (first : Moment) (ps : List PhaseChange) : Moment :=
  ((ps.filter PhaseChange.aligned).getLast?.map PhaseChange.moment).getD first

theorem lastIndex_concat (ps : List PhaseChange) (p : PhaseChange) :
    lastIndex (ps ++ [p]) = p.index := by
  rw [lastIndex, List.getLast?_concat, Option.map_some, Option.getD_some]

theorem alignment_concat (first : Moment) (ps : List PhaseChange) (p : PhaseChange) :
    alignment first (ps ++ [p]) = if p.aligned then p.moment else alignment first ps := by
  unfold alignment
  rw [List.filter_append]
  by_cases h : p.aligned
  · rw [if_pos h, List.filter_cons_of_pos h, List.filter_nil, List.getLast?_concat, Option.map_some,
      Option.getD_some]
  · rw [if_neg h, List.filter_cons_of_neg h, List.filter_nil, List.append_nil]

/-- The last change of a record is published somewhere in it. -/
theorem exists_split {tr : List (Mark α)} {ps : List PhaseChange} {q : PhaseChange}
    (h : phases tr = ps ++ [q]) :
    ∃ pre post, tr = pre ++ .seen (.changed q) :: post ∧ phases pre = ps := by
  obtain ⟨tr₁, tr₂, rfl, hps, hq⟩ := List.filterMap_eq_append_iff.mp h
  obtain ⟨before, x, post, rfl, hbefore, hx, -⟩ := List.filterMap_eq_cons_iff.mp hq
  obtain rfl : x = .seen (.changed q) := by
    unfold Mark.phase? at hx
    split at hx
    · rw [Option.some.inj hx]
    · cases hx
  refine ⟨tr₁ ++ before, post, (List.append_assoc ..).symm, ?_⟩
  rw [phases_append, phases, hps, phases, List.filterMap_eq_nil_iff.mpr hbefore, List.append_nil]

/-- A change of phase in its place: `pre` is the record before it, `ts` are the times of the changes
of the run, and `first` stands for an alignment before the first change. It comes when the phase
before is over; what the clock shows then is that much later than before, too, unless the clock is
behind and was started in a leap second. -/
structure OnSchedule (clock : Clock) (interval : Span) (first : Moment) (ts : List Nat)
    (pre : List (Mark α)) (p : PhaseChange) (t : Nat) : Prop where
  time : ts[(phases pre).length]? = some t
  read : clock.read (.ofMillis t) = .ok p.moment
  counter : p.counter = (phases pre).length + 1
  begins : phases pre = [] → ∃ tr id phase,
    pre = tr ++ [.applied (.register id phase) t] ∧ (registered tr).entries = []
  follows : ∀ ps q, phases pre = ps ++ [q] → ∃ t', ts[ps.length]? = some t' ∧
    q.duration = .ofMillis q.duration.millis ∧ t = t' + q.duration.millis ∧
    (clock.still = false → clock.origin.Plain ∨ clock.origin.Proper ∧ 0 ≤ clock.skew →
      t ≤ longestOffset → p.moment = q.moment.shift q.duration.nanos)
  module : ∃ e, (registered pre).get? p.index = some e ∧ Enrolled pre e ∧ p.module = e.id ∧
    (p.aligned = false → p.index = (lastIndex (phases pre) + 1) % (registered pre).size ∧
      p.duration = e.phase)
  aligned : p.aligned ↔ (interval.nanos : Int) < p.moment.since (alignment first (phases pre))

theorem OnSchedule.mono {clock : Clock} {interval : Span} {first : Moment} {ts : List Nat}
    {pre : List (Mark α)} {p : PhaseChange} {t : Nat}
    (h : OnSchedule clock interval first ts pre p t) (us : List Nat) :
    OnSchedule clock interval first (ts ++ us) pre p t := by
  have hget : ∀ {k x : Nat}, ts[k]? = some x → (ts ++ us)[k]? = some x := by
    intro k x hx
    obtain ⟨hk, -⟩ := List.getElem?_eq_some_iff.mp hx
    rw [List.getElem?_append_left hk, hx]
  refine { h with time := hget h.time, follows := fun ps q hq => ?_ }
  obtain ⟨t', ht', hrest⟩ := h.follows ps q hq
  exact ⟨t', hget ht', hrest⟩

theorem notMem_of_silent {ms : List (Mark α)} (h : phases ms = []) (p : PhaseChange) :
    .seen (.changed p) ∉ ms := by
  intro hp
  have hmem : p ∈ phases ms := List.mem_filterMap.mpr ⟨_, hp, rfl⟩
  rw [h] at hmem
  cases hmem

/-- The round at any time of a run on virtual time: what the scheduler keeps is what the record
says, the deadline is the end of the last phase, and all changes are on schedule. -/
structure Ticking (s₀ : Loop α) (tr : List (Mark α)) (ts : List Nat) (s : Loop α) : Prop where
  clock : s.clock = s₀.clock
  roster : s.roster = registered tr
  times : ts.length = (phases tr).length
  counter : s.cursor.counter = (phases tr).length
  index : s.cursor.index = lastIndex (phases tr)
  interval : s.cursor.interval = s₀.cursor.interval
  alignment : s.cursor.lastAlignment = alignment s₀.cursor.lastAlignment (phases tr)
  silent : phases tr = [] ↔ s.roster.entries = []
  deadline : (s.deadline = none ∧ (s.ended = false → phases tr = [])) ∨
    ∃ ps q us t, phases tr = ps ++ [q] ∧ ts = us ++ [t] ∧ s.deadline = some (t + q.duration.millis)
  onTime : s.ended = false → ∀ d ∈ s.deadline, s.time ≤ d
  whole : ∀ q ∈ phases tr, q.duration = .ofMillis q.duration.millis
  changes : ∀ pre p post, tr = pre ++ .seen (.changed p) :: post →
    ∃ t, OnSchedule s₀.clock s₀.cursor.interval s₀.cursor.lastAlignment ts pre p t
  opened : ∀ pre id phase t post, tr = pre ++ .applied (.register id phase) t :: post →
    (registered pre).entries = [] → ∃ p post', post = .seen (.changed p) :: post'

namespace Ticking

variable {s₀ s s' : Loop α} {tr ms rest : List (Mark α)} {ts : List Nat} {p : PhaseChange}

/-- The record has nothing to say about phases before the first entry. -/
theorem start (hroster : s₀.roster = {}) (hdeadline : s₀.deadline = none)
    (hcounter : s₀.cursor.counter = 0) (hindex : s₀.cursor.index = 0) : Ticking s₀ [] [] s₀ := by
  refine ⟨rfl, hroster, rfl, hcounter, hindex, rfl, rfl, ?_, Or.inl ⟨hdeadline, fun _ => rfl⟩, ?_,
    nofun, ?_, ?_⟩
  · rw [hroster]
    exact iff_of_true rfl rfl
  · rw [hdeadline]
    exact nofun
  · intro pre p post hsplit
    cases pre <;> cases hsplit
  · intro pre id phase t post hsplit
    cases pre <;> cases hsplit

/-- Where the round is under way there is a deadline. -/
theorem exists_last (h : Ticking s₀ tr ts s) {d : Nat} (hd : d ∈ s.deadline) :
    ∃ ps q us t, phases tr = ps ++ [q] ∧ ts = us ++ [t] ∧ d = t + q.duration.millis := by
  rcases h.deadline with ⟨hnone, -⟩ | ⟨ps, q, us, t, hps, hts, hdue⟩
  · rw [hnone] at hd
    cases hd
  · rw [hdue] at hd
    exact ⟨ps, q, us, t, hps, hts, (Option.some.inj hd).symm⟩

theorem steady (h : Ticking s₀ tr ts s) (hb : Steady s ms s')
    (hwait : s.ended = false → s.time < s'.time → ∀ d ∈ s.deadline, s'.time ≤ d) :
    Ticking s₀ (tr ++ ms) ts s' := by
  have hphases : phases (tr ++ ms) = phases tr := by
    rw [phases_append, hb.phases, List.append_nil]
  have hjoined : ∀ id phase t, .applied (.register id phase) t ∈ ms →
      (registered tr).entries ≠ [] := by
    rw [← h.roster]
    exact hb.joined
  refine ⟨hb.clock.trans h.clock, ?_, ?_, ?_, ?_, ?_, ?_, ?_, ?_, fun he d hd => ?_, ?_, ?_, ?_⟩
  · rw [registered_append, ← h.roster, hb.roster]
  · rw [hphases, h.times]
  · rw [hb.cursor, hphases, h.counter]
  · rw [hb.cursor, hphases, h.index]
  · rw [hb.cursor, h.interval]
  · rw [hb.cursor, hphases, h.alignment]
  · rw [hphases, h.silent, hb.roster]
    refine ⟨fun hnil => ?_, fun hnil => ?_⟩
    · rw [enroll_of_not_register fun id phase t hm => absurd hnil (hb.joined id phase t hm)]
      exact hnil
    · by_contra hne
      exact enroll_ne_nil hne ms hnil
  · rcases hb.deadline with ⟨hend, hsame⟩ | ⟨hend, hnone⟩
    · rw [hphases, hend, hsame]
      exact h.deadline
    · exact Or.inl ⟨hnone, fun he => absurd hend (Bool.eq_false_iff.mp he)⟩
  · rcases hb.deadline with ⟨hend, hsame⟩ | ⟨-, hnone⟩
    · rw [hsame] at hd
      rcases Nat.lt_or_eq_of_le hb.time with hlt | heq
      · exact hwait (hend ▸ he) hlt d hd
      · exact heq ▸ h.onTime (hend ▸ he) d hd
    · rw [hnone] at hd
      cases hd
  · rw [hphases]
    exact h.whole
  · intro pre p post hsplit
    rcases split_append hsplit with ⟨q, htr, -⟩ | ⟨pre', -, hms⟩
    · exact h.changes pre p q htr
    · have hmem : .seen (.changed p) ∈ ms := hms ▸ List.mem_append_right _ List.mem_cons_self
      exact absurd hmem (notMem_of_silent hb.phases p)
  · intro pre id phase t post hsplit hnil
    rcases split_append hsplit with ⟨q, htr, hpost⟩ | ⟨pre', hpre, hms⟩
    · obtain ⟨p, post', hq⟩ := h.opened pre id phase t q htr hnil
      exact ⟨p, post' ++ ms, by rw [hpost, hq, List.cons_append]⟩
    · have hmem : .applied (.register id phase) t ∈ ms := by
        rw [hms]
        exact List.mem_append_right _ List.mem_cons_self
      rw [hpre, registered_append] at hnil
      exact absurd hnil (enroll_ne_nil (hjoined id phase t hmem) pre')

/-- A phase ends when it has lasted as long as it was to last. -/
theorem follows (h : Ticking s₀ tr ts s) (hc : Changes s ms p rest s') {ps : List PhaseChange}
    {q : PhaseChange} (hq : phases tr = ps ++ [q]) : ∃ t, ts[ps.length]? = some t ∧
      q.duration = .ofMillis q.duration.millis ∧ s.time = t + q.duration.millis ∧
      (s₀.clock.still = false →
        s₀.clock.origin.Plain ∨ s₀.clock.origin.Proper ∧ 0 ≤ s₀.clock.skew →
        s.time ≤ longestOffset → p.moment = q.moment.shift q.duration.nanos) := by
  rcases hc.cause with ⟨-, d, hd, hle⟩ | ⟨id, phase, -, hempty⟩
  · obtain ⟨ps', q', us, t, hps, hts, rfl⟩ := h.exists_last hd
    obtain ⟨rfl, hqq⟩ := List.append_inj' (hq.symm.trans hps) rfl
    obtain rfl := (List.cons.inj hqq).1
    have hlen : us.length = ps.length := by
      have hcount := h.times
      rw [hts, hps, List.length_append, List.length_append] at hcount
      exact Nat.add_right_cancel hcount
    have hlast : ts[ps.length]? = some t := by
      rw [hts, ← hlen, List.getElem?_concat_length]
    have htime : s.time = t + q.duration.millis := Nat.le_antisymm (h.onTime hc.alive.1 _ hd) hle
    have hduration := h.whole q (hps ▸ List.mem_append_right _ List.mem_cons_self)
    refine ⟨t, hlast, hduration, htime, fun hstill ho hfit => ?_⟩
    obtain ⟨pre, post, htr, rfl⟩ := exists_split hps
    obtain ⟨t', hq'⟩ := h.changes pre q post htr
    obtain rfl := Option.some.inj (hq'.time.symm.trans hlast)
    have hread := hc.read
    rw [h.clock, htime] at hread
    rw [hduration]
    exact Clock.read_later hstill ho (htime ▸ hfit) hq'.read hread
  · rw [h.silent.mpr hempty] at hq
    exact absurd hq (by simp)

/-- A change of phase is published when its time has come. -/
theorem onSchedule (h : Ticking s₀ tr ts s) (hc : Changes s ms p rest s')
    (hwhole : ∀ phase ∈ wishes (tr ++ ms), phase = .ofMillis phase.millis) :
    OnSchedule s₀.clock s₀.cursor.interval s₀.cursor.lastAlignment (ts ++ [s.time]) (tr ++ ms) p
      s.time := by
  have hphases : phases (tr ++ ms) = phases tr := by rw [phases_append, hc.before, List.append_nil]
  have hroster : s'.roster = registered (tr ++ ms) := by
    rw [hc.roster, registered_append, h.roster]
  obtain ⟨e, he, hmodule⟩ := hc.module
  refine ⟨?_, ?_, ?_, fun hnil => ?_, fun ps q hq => ?_,
    ⟨e, hroster ▸ he, ?_, hmodule, fun ha => ?_⟩, ?_⟩
  · rw [hphases, ← h.times, List.getElem?_concat_length]
  · rw [← h.clock]
    exact hc.read
  · rw [hc.counter, hc.step.counter, h.counter, hphases]
  · rw [hphases] at hnil
    rcases hc.cause with ⟨-, d, hd, -⟩ | ⟨id, phase, rfl, hempty⟩
    · obtain ⟨ps, q, -, -, hps, -⟩ := h.exists_last hd
      rw [hps] at hnil
      exact absurd hnil (by simp)
    · exact ⟨tr, id, phase, rfl, h.roster ▸ hempty⟩
  · obtain ⟨t, ht, hrest⟩ := h.follows hc (hphases.symm.trans hq)
    exact ⟨t, (List.getElem?_append_left (List.getElem?_eq_some_iff.mp ht).1).trans ht, hrest⟩
  · exact registered_enrolled (List.mem_of_getElem? (hroster ▸ he))
  · obtain ⟨hi, hd⟩ := hc.step.relative ha
    have hsize : s'.roster.phases.length = (registered (tr ++ ms)).size := by
      rw [hroster, Roster.phases, List.length_map]
      rfl
    refine ⟨?_, ?_⟩
    · rw [← hsize, hphases, ← h.index]
      exact hi
    · have hget : s'.roster.phases[p.index]? = some e.phase := by
        rw [Roster.phases, List.getElem?_map]
        exact congrArg (Option.map Entry.phase) he
      exact (Option.some.inj (hget.symm.trans hd)).symm
  · have hdue := hc.step.due
    rw [hphases, ← h.interval, ← h.alignment]
    exact ((Bool.eq_iff_iff.mp hdue).trans decide_eq_true_iff).trans Int.lt_toNat

theorem changed_whole (h : Ticking s₀ tr ts s) (hc : Changes s ms p rest s')
    (hwhole : ∀ phase ∈ wishes (tr ++ ms), phase = .ofMillis phase.millis) :
    p.duration = .ofMillis p.duration.millis := by
  cases ha : p.aligned with
  | true =>
    obtain ⟨n, -, -, hd⟩ := hc.step.natural ha
    have hd : p.duration = .ofMillis n.remaining := hd
    rw [hd, Span.millis_ofMillis]
  | false =>
    obtain ⟨e, he, -, -, hrel⟩ := (h.onSchedule hc hwhole).module
    rw [(hrel ha).2]
    exact registered_whole hwhole e (List.mem_of_getElem? he)

theorem changed_changes (h : Ticking s₀ tr ts s) (hc : Changes s ms p rest s')
    (hwhole : ∀ phase ∈ wishes (tr ++ ms), phase = .ofMillis phase.millis)
    {pre post : List (Mark α)} {q : PhaseChange}
    (hsplit : tr ++ (ms ++ .seen (.changed p) :: rest) = pre ++ .seen (.changed q) :: post) :
    ∃ t, OnSchedule s₀.clock s₀.cursor.interval s₀.cursor.lastAlignment (ts ++ [s.time]) pre q
      t := by
  rcases split_append hsplit with ⟨post', htr, -⟩ | ⟨pre', rfl, hev⟩
  · obtain ⟨t, ht⟩ := h.changes pre q post' htr
    exact ⟨t, ht.mono _⟩
  · rcases split_append hev with ⟨post', hin, -⟩ | ⟨pre'', rfl, hin⟩
    · have hmem : .seen (.changed q) ∈ ms := hin ▸ List.mem_append_right _ List.mem_cons_self
      exact absurd hmem (notMem_of_silent hc.before q)
    · obtain ⟨rfl, heq, -⟩ := split_cons hin (notMem_of_silent hc.phases q)
      cases heq
      rw [List.append_nil]
      exact ⟨s.time, h.onSchedule hc hwhole⟩

/-- The first module of a round is followed by a change of phase at once. -/
theorem changed_opened (h : Ticking s₀ tr ts s) (hc : Changes s ms p rest s')
    {pre post : List (Mark α)} {id : String} {phase : Span} {t : Nat}
    (hsplit : tr ++ (ms ++ .seen (.changed p) :: rest) =
      pre ++ .applied (.register id phase) t :: post) (hnil : (registered pre).entries = []) :
    ∃ q post', post = .seen (.changed q) :: post' := by
  rcases split_append hsplit with ⟨q, htr, rfl⟩ | ⟨pre', rfl, hev⟩
  · obtain ⟨q', post', rfl⟩ := h.opened pre id phase t q htr hnil
    exact ⟨q', _, rfl⟩
  · rcases split_append hev with ⟨post', hin, rfl⟩ | ⟨pre'', -, hin⟩
    · rcases hc.cause with ⟨rfl, -⟩ | ⟨id', phase', rfl, -⟩
      · exact absurd hin (by simp)
      · obtain ⟨-, -, rfl⟩ := split_cons hin List.not_mem_nil
        exact ⟨p, rest, rfl⟩
    · obtain ⟨-, heq, -⟩ := split_cons hin (hc.joined id phase t)
      cases heq

theorem changed (h : Ticking s₀ tr ts s) (hc : Changes s ms p rest s')
    (hwhole : ∀ phase ∈ wishes (tr ++ ms), phase = .ofMillis phase.millis) :
    Ticking s₀ (tr ++ (ms ++ .seen (.changed p) :: rest)) (ts ++ [s.time]) s' := by
  have hphases : phases (tr ++ (ms ++ .seen (.changed p) :: rest)) = phases tr ++ [p] := by
    rw [phases_append, hc.phases_eq]
  have hlast : enroll s.roster (ms ++ .seen (.changed p) :: rest) = s'.roster := by
    rw [enroll_append, ← hc.roster]
    exact enroll_of_not_register hc.joined s'.roster
  obtain ⟨e, he, -⟩ := hc.module
  have hne : s'.roster.entries ≠ [] := List.ne_nil_of_mem (List.mem_of_getElem? he)
  refine ⟨hc.clock.trans h.clock, ?_, ?_, ?_, ?_, hc.step.interval.trans h.interval, ?_, ?_, ?_,
    fun _ d hd => ?_, fun q hq => ?_, fun pre q post hsplit => h.changed_changes hc hwhole hsplit,
    fun pre id phase t post hsplit => h.changed_opened hc hsplit⟩
  · rw [registered_append, ← h.roster, hlast]
  · rw [hphases, List.length_append, List.length_append, h.times]
    rfl
  · rw [hphases, hc.step.counter, h.counter, List.length_append]
    rfl
  · rw [hphases, lastIndex_concat]
    exact hc.step.index
  · rw [hphases, alignment_concat, hc.step.lastAlignment, h.alignment]
  · rw [hphases]
    exact iff_of_false (by simp) hne
  · exact Or.inr ⟨phases tr, p, ts, s.time, hphases, rfl, hc.deadline⟩
  · rw [hc.deadline] at hd
    obtain rfl := Option.some.inj hd
    rw [hc.time]
    exact Nat.le_add_right _ _
  · rw [hphases] at hq
    rcases List.mem_append.mp hq with hq | hq
    · exact h.whole q hq
    · obtain rfl := List.mem_singleton.mp hq
      exact h.changed_whole hc hwhole

theorem step (h : Ticking s₀ tr ts s) (hstep : Step s ms s')
    (hwait : s.ended = false → s.time < s'.time → ∀ d ∈ s.deadline, s'.time ≤ d)
    (hwhole : ∀ phase ∈ wishes (tr ++ ms), phase = .ofMillis phase.millis) :
    Ticking s₀ (tr ++ ms) (ts ++ (phases ms).map fun _ => s.time) s' := by
  have hlong : ∀ e ∈ s.roster.entries, 1 ≤ e.phase.millis := by
    rw [h.roster]
    exact registered_millis tr
  have hround : ∀ d ∈ s.deadline, s.roster.entries ≠ [] := by
    intro d hd hnil
    obtain ⟨ps, q, -, -, hps, -⟩ := h.exists_last hd
    rw [h.silent.mpr hnil] at hps
    exact absurd hps (by simp)
  cases hstep.beat hlong hround with
  | steady hb =>
    rw [hb.phases, List.map_nil, List.append_nil]
    exact h.steady hb hwait
  | @changed ms rest p _ hc =>
    rw [hc.phases_eq]
    refine h.changed hc fun phase hm => hwhole phase ?_
    rw [← List.append_assoc, wishes, List.filterMap_append]
    exact List.mem_append_left _ hm

end Ticking

namespace Timed

variable {s₀ s s' : Loop α} {tr ms : List (Mark α)} {ts : List Nat}

theorem ticking (h₀ : Ticking s₀ [] [] s₀) (h : Timed s₀ tr ts s)
    (hwhole : ∀ phase ∈ wishes tr, phase = .ofMillis phase.millis) : Ticking s₀ tr ts s := by
  induction h with
  | start => exact h₀
  | step _ hstep hwait ih =>
    refine (ih fun phase hm => hwhole phase ?_).step hstep hwait hwhole
    rw [wishes, List.filterMap_append]
    exact List.mem_append_left _ hm

theorem turn (h : Timed s₀ tr ts s) {events : List (Event α)}
    (ht : s.turn = .ok (some (s', events))) :
    ∃ us, Timed s₀ (tr ++ (s.marks ++ events.map .seen)) (ts ++ us) s' :=
  ⟨_, h.step (.turn ht) fun _ hlt => absurd (Loop.time_turn ht) (Nat.ne_of_gt hlt)⟩

theorem wait (h : Timed s₀ tr ts s) {time : Nat} (hle : s.time ≤ time)
    (hwait : s.ended = false → s.time < time → ∀ d ∈ s.deadline, time ≤ d) :
    Timed s₀ tr ts { s with time } := by
  have hstep := h.step (.wait s time hle) hwait
  rw [phases, List.filterMap_nil, List.map_nil, List.append_nil, List.append_nil] at hstep
  exact hstep

end Timed

section Driven

namespace Loop

variable {s s' : Loop α} {log log' : Array (Event α)}

theorem settleWithin_idle {fuel : Nat} (h : s.settleWithin log fuel = .ok (s', log')) :
    s'.turn = .ok none := by
  induction fuel generalizing s log with
  | zero => cases h
  | succ fuel ih =>
    unfold settleWithin at h
    split at h
    · cases h
    · rename_i ht
      obtain ⟨rfl, -⟩ := Prod.mk.inj (Except.ok.inj h)
      exact ht
    · exact ih h

/-- A loop that has nothing to do waits for something later, and not beyond the end of the phase. -/
theorem next_later (h : s.turn = .ok none) {next : Nat} (hn : s.nextEvent? = some next) :
    s.time < next ∧ ∀ d ∈ s.deadline, next ≤ d := by
  unfold nextEvent? at hn
  split at hn
  · cases hn
  rename_i hs
  obtain ⟨hmem, hmin⟩ := List.min?_eq_some_iff.mp hn
  refine ⟨?_, fun d hd => hmin d (List.mem_append_left _ (Option.mem_toList.mpr hd))⟩
  have hmap : ∀ {β : Type} {x : Except TimeFault β}, x.map some ≠ .ok none := by
    intro β x hx
    cases x <;> cases hx
  unfold turn at h
  rw [if_neg hs] at h
  split at h
  · exact absurd h hmap
  rename_i hdue
  split at h
  · cases h
  split at h
  · exact absurd h hmap
  split at h
  · cases h
  split at h
  · rename_i hwake
    by_contra hle
    rcases List.mem_append.mp hmem with hd | hd
    · refine hdue ((Option.any_eq_true ..).mpr ⟨next, Option.mem_toList.mp hd, ?_⟩)
      exact decide_eq_true (Nat.le_of_not_lt hle)
    · obtain ⟨hsleep, -⟩ := List.min?_eq_some_iff.mp (Option.mem_toList.mp hd)
      obtain ⟨x, hx, rfl⟩ := List.mem_map.mp hsleep
      have hreport : x.report ∈ (s.timers.wake s.time).1 :=
        List.mem_map_of_mem (Timers.mem_due.mpr ⟨hx, Nat.le_of_not_lt hle⟩)
      rw [hwake] at hreport
      cases hreport
  · cases h

end Loop

/-- The run on virtual time goes on to `s'`. -/
def Timed.GoesOn (s₀ : Loop α) (tr : List (Mark α)) (ts : List Nat) (s' : Loop α) : Prop :=
  ∃ ms us, Timed s₀ (tr ++ ms) (ts ++ us) s'

namespace Timed

variable {s₀ s s' s'' : Loop α} {tr : List (Mark α)} {ts : List Nat} {log log' : Array (Event α)}

theorem goesOn (h : Timed s₀ tr ts s) : GoesOn s₀ tr ts s :=
  ⟨[], [], by rwa [List.append_nil, List.append_nil]⟩

theorem GoesOn.trans (h : GoesOn s₀ tr ts s')
    (h' : ∀ tr' ts', Timed s₀ tr' ts' s' → GoesOn s₀ tr' ts' s'') : GoesOn s₀ tr ts s'' := by
  obtain ⟨ms, us, hrun⟩ := h
  obtain ⟨ms', us', hrun'⟩ := h' _ _ hrun
  refine ⟨ms ++ ms', us ++ us', ?_⟩
  rw [← List.append_assoc, ← List.append_assoc]
  exact hrun'

theorem settleWithin (h : Timed s₀ tr ts s) {fuel : Nat}
    (hs : s.settleWithin log fuel = .ok (s', log')) : GoesOn s₀ tr ts s' := by
  induction fuel generalizing s tr ts log with
  | zero => cases hs
  | succ fuel ih =>
    unfold Loop.settleWithin at hs
    split at hs
    · cases hs
    · obtain ⟨rfl, -⟩ := Prod.mk.inj (Except.ok.inj hs)
      exact h.goesOn
    · rename_i ht
      obtain ⟨us, hturn⟩ := h.turn ht
      exact GoesOn.trans ⟨_, us, hturn⟩ fun _ _ hrun => ih hrun hs

/-- A loop that has nothing to do can wait until something happens. -/
theorem rest (h : Timed s₀ tr ts s) (ht : s.turn = .ok none) {time : Nat} (hle : s.time ≤ time)
    (hnext : ∀ next, s.nextEvent? = some next → time ≤ next) : Timed s₀ tr ts { s with time } := by
  refine h.wait hle fun hs _ d hd => ?_
  have hmem : d ∈ s.deadline.toList ++ s.timers.nextDue?.toList :=
    List.mem_append_left _ (Option.mem_toList.mpr hd)
  cases hn : s.nextEvent? with
  | none =>
    unfold Loop.nextEvent? at hn
    rw [if_neg (by rw [hs]; decide), List.min?_eq_none_iff] at hn
    rw [hn] at hmem
    cases hmem
  | some next => exact Nat.le_trans (hnext next hn) ((Loop.next_later ht hn).2 d hd)

theorem runFrom {now target : Nat} (h : Timed s₀ tr ts s) (ht : s.turn = .ok none)
    (hnow : s.time = now) (hle : now ≤ target) (hs : s.runFrom now target log = .ok (s', log')) :
    GoesOn s₀ tr ts s' := by
  induction now, s, log using Loop.runFrom.induct target generalizing tr ts with
  | case1 now s log hnone =>
    rw [Loop.runFrom, hnone] at hs
    obtain ⟨rfl, -⟩ := Prod.mk.inj (Except.ok.inj hs)
    refine (h.rest ht (hnow ▸ hle) fun next hn => ?_).goesOn
    rw [hnone] at hn
    cases hn
  | case2 now s log next hnext hlater fault hsettle =>
    rw [Loop.runFrom, hnext] at hs
    dsimp only at hs
    rw [dif_pos hlater, hsettle] at hs
    cases hs
  | case3 now s log next hnext hlater s₁ log₁ hsettle ih =>
    rw [Loop.runFrom, hnext] at hs
    dsimp only at hs
    rw [dif_pos hlater, hsettle] at hs
    have hrest : Timed s₀ tr ts { s with time := next } := by
      refine h.rest ht (hnow ▸ Nat.le_of_lt hlater.1) fun next' hn => ?_
      exact Nat.le_of_eq (Option.some.inj (hnext.symm.trans hn))
    have htime : s₁.time = next := Loop.time_settleWithin hsettle
    exact (hrest.settleWithin hsettle).trans fun _ _ hrun =>
      ih hrun (Loop.settleWithin_idle hsettle) htime hlater.2 hs
  | case4 now s log next hnext hlater =>
    rw [Loop.runFrom, hnext] at hs
    dsimp only at hs
    rw [dif_neg hlater] at hs
    obtain ⟨rfl, -⟩ := Prod.mk.inj (Except.ok.inj hs)
    refine (h.rest ht (hnow ▸ hle) fun next' hn => ?_).goesOn
    obtain rfl := Option.some.inj (hnext.symm.trans hn)
    have hafter := (Loop.next_later ht hnext).1
    omega

/-- A scheduler that is driven on virtual time never waits beyond the end of a phase. -/
theorem advance (h : Timed s₀ tr ts s) {ms : Nat} (hs : s.advance ms log = .ok (s', log')) :
    GoesOn s₀ tr ts s' := by
  unfold Loop.advance at hs
  cases hsettle : s.settle log with
  | error fault =>
    rw [hsettle] at hs
    cases hs
  | ok settled =>
    rw [hsettle] at hs
    refine (h.settleWithin hsettle).trans fun _ _ hrun => ?_
    exact hrun.runFrom (Loop.settleWithin_idle hsettle) rfl (Nat.le_add_right _ ms) hs

end Timed

end Driven

section Start

variable {clock : Clock} {interval : Span} {time : Nat} {s₀ s : Loop α} {tr : List (Mark α)}
  {ts : List Nat}

theorem Cursor.start_eq {now : Moment} {c : Cursor} (h : Cursor.start now interval = .ok c) :
    ∃ back last, Cursor.backdating interval = .ok back ∧ now.add (-back) = .ok last ∧
      c = ⟨0, 0, last, interval⟩ := by
  unfold Cursor.start at h
  cases hback : Cursor.backdating interval with
  | error fault =>
    rw [hback] at h
    cases h
  | ok back =>
    cases hlast : now.add (-back) with
    | error fault =>
      simp only [hback, hlast, bind, Except.bind] at h
      cases h
    | ok last =>
      simp only [hback, hlast, bind, Except.bind, pure, Except.pure] at h
      exact ⟨back, last, rfl, hlast, (Except.ok.inj h).symm⟩

/-- The moment to which the cursor of a new scheduler dates its last alignment back. -/
def BackDated (clock : Clock) (interval : Span) (time : Nat) (first : Moment) : Prop :=
  ∃ now back, clock.read (.ofMillis time) = .ok now ∧ Cursor.backdating interval = .ok back ∧
    now.add (-back) = .ok first

theorem Loop.start_ticking (h : Loop.start clock interval time = .ok s₀) :
    s₀.clock = clock ∧ s₀.cursor.interval = interval ∧
      BackDated clock interval time s₀.cursor.lastAlignment ∧ Ticking s₀ [] [] s₀ := by
  unfold Loop.start at h
  cases hread : clock.read (.ofMillis time) with
  | error fault =>
    rw [hread] at h
    cases h
  | ok now =>
    cases hcursor : Cursor.start now interval with
    | error fault =>
      simp only [hread, hcursor, bind, Except.bind] at h
      cases h
    | ok cursor =>
      simp only [hread, hcursor, bind, Except.bind, pure, Except.pure] at h
      obtain rfl := Except.ok.inj h
      obtain ⟨back, last, hback, hlast, rfl⟩ := Cursor.start_eq hcursor
      exact ⟨rfl, rfl, ⟨now, back, hread, hback, hlast⟩, .start rfl rfl rfl rfl⟩

/-- The phases of a run on virtual time, whatever else happens in it. Every change of phase is on
schedule, and there is one as soon as a module is registered. No phase lasts longer than announced:
at its end the next turn publishes the next one. Turns fail only where the clock cannot be read. -/
theorem phases_on_schedule (h₀ : Loop.start clock interval time = .ok s₀) (h : Timed s₀ tr ts s)
    (hwhole : ∀ phase ∈ wishes tr, phase = .ofMillis phase.millis) :
    BackDated clock interval time s₀.cursor.lastAlignment ∧
    ts.length = (phases tr).length ∧
    (∀ pre p post, tr = pre ++ .seen (.changed p) :: post →
      ∃ t, OnSchedule clock interval s₀.cursor.lastAlignment ts pre p t) ∧
    (∀ pre id phase t post, tr = pre ++ .applied (.register id phase) t :: post →
      (registered pre).entries = [] → ∃ p post', post = .seen (.changed p) :: post') ∧
    (s.ended = false → ∀ ps q us t, phases tr = ps ++ [q] → ts = us ++ [t] →
      s.time ≤ t + q.duration.millis) ∧
    ∀ now, clock.read (.ofMillis s.time) = .ok now → (∃ next, s.turn = .ok next) ∧
      (s.ended = false → ∀ ps q us t, phases tr = ps ++ [q] → ts = us ++ [t] →
        s.time = t + q.duration.millis →
          ∃ s' p later, s.turn = .ok (some (s', .changed p :: later))) := by
  obtain ⟨rfl, rfl, hback, hstart⟩ := Loop.start_ticking h₀
  have hticking := h.ticking hstart hwhole
  have hlast : s.ended = false → ∀ ps q us t, phases tr = ps ++ [q] → ts = us ++ [t] →
      s.deadline = some (t + q.duration.millis) := by
    intro hs ps q us t hps hts
    rcases hticking.deadline with ⟨-, hnone⟩ | ⟨ps', q', us', t', hps', hts', hd⟩
    · rw [hnone hs] at hps
      exact absurd hps (by simp)
    · obtain ⟨-, hq⟩ := List.append_inj' (hps.symm.trans hps') rfl
      obtain ⟨-, ht⟩ := List.append_inj' (hts.symm.trans hts') rfl
      rw [(List.cons.inj hq).1, (List.cons.inj ht).1]
      exact hd
  refine ⟨hback, hticking.times, hticking.changes, hticking.opened, fun hs ps q us t hps hts => ?_,
    fun now hread => ⟨?_, fun hs ps q us t hps hts htime => ?_⟩⟩
  · exact hticking.onTime hs _ (hlast hs ps q us t hps hts)
  · rw [← hticking.clock] at hread
    exact Loop.turn_ok hread
  · rw [← hticking.clock] at hread
    have hne : s.roster.entries ≠ [] := by
      intro hnil
      rw [hticking.silent.mpr hnil] at hps
      exact absurd hps (by simp)
    obtain ⟨e₀, he₀⟩ := List.exists_mem_of_ne_nil _ hne
    refine Loop.turn_due hs (hlast hs ps q us t hps hts) (Nat.le_of_eq htime.symm) he₀ ?_ hread
    exact registered_millis tr e₀ (hticking.roster ▸ he₀)

end Start

section Script

variable {s₀ s s' : Loop α} {tr tr' : List (Mark α)} {ts us : List Nat}

/-- Plays a script in which no wait goes beyond the end of a phase. -/
def Loop.tick (s : Loop α) : List (Move α) → Option (List (Mark α) × List Nat × Loop α)
  | [] => some ([], [], s)
  | m :: rest =>
    (s.move m).bind fun first =>
      if s.deadline.all (first.2.time ≤ ·) then
        (first.2.tick rest).map fun later =>
          (first.1 ++ later.1, ((phases first.1).map fun _ => s.time) ++ later.2.1, later.2.2)
      else none

theorem Timed.tick (h : Timed s₀ tr ts s) {moves : List (Move α)}
    (hp : s.tick moves = some (tr', us, s')) : Timed s₀ (tr ++ tr') (ts ++ us) s' := by
  induction moves generalizing s tr ts tr' us with
  | nil =>
    obtain ⟨rfl, rfl, rfl⟩ : [] = tr' ∧ [] = us ∧ s = s' := by simpa [Loop.tick] using hp
    rw [List.append_nil, List.append_nil]
    exact h
  | cons m rest ih =>
    obtain ⟨⟨ms, s₁⟩, hfirst, hrest⟩ := Option.bind_eq_some_iff.mp hp
    split at hrest
    · rename_i hall
      obtain ⟨⟨ms', us', s₂⟩, hlater, heq⟩ := Option.map_eq_some_iff.mp hrest
      obtain ⟨rfl, rfl, rfl⟩ : ms ++ ms' = tr' ∧ ((phases ms).map fun _ => s.time) ++ us' = us ∧
        s₂ = s' := by simpa using heq
      have hwait : s.ended = false → s.time < s₁.time → ∀ d ∈ s.deadline, s₁.time ≤ d := by
        intro _ _ d hd
        rw [hd] at hall
        exact of_decide_eq_true hall
      rw [← List.append_assoc, ← List.append_assoc]
      exact ih (h.step (Loop.move_step hfirst) hwait) hlater
    · cases hrest

/-- One module joins in the middle of the phase of another one. -/
def joining : List (Move Unit) :=
  [.order (.register "a" (.ofMillis 30)), .turn, .wait 10, .order (.register "b" (.ofMillis 20)),
    .turn, .wait 20, .turn, .wait 20, .turn, .wait 5]

theorem phases_on_schedule_joining :
    ∃ (s₀ s : Loop Unit) (tr : List (Mark Unit)) (ts : List Nat),
      Loop.start epoch (.ofSeconds 100 0) 0 = .ok s₀ ∧ Timed s₀ tr ts s ∧
      ts = [0, 30, 50] ∧ s.time = 55 ∧
      (phases tr).map (fun p => (p.module, p.aligned)) = [("a", true), ("b", false), ("a", false)] ∧
      ∀ pre p post, tr = pre ++ .seen (.changed p) :: post →
        ∃ t, OnSchedule epoch (.ofSeconds 100 0) s₀.cursor.lastAlignment ts pre p t := by
  obtain ⟨s₀, ⟨tr, ts, s⟩, h₀, htick, hp⟩ := exists_start epoch (.ofSeconds 100 0) 0
    (fun s₀ => s₀.tick joining) (fun _ r => decide (r.2.1 = [0, 30, 50] ∧ r.2.2.time = 55 ∧
      (phases r.1).map (fun p => (p.module, p.aligned)) =
        [("a", true), ("b", false), ("a", false)] ∧
      ∀ phase ∈ wishes r.1, phase = .ofMillis phase.millis)) (by decide +kernel)
  obtain ⟨hts, htime, hphases, hwhole⟩ := of_decide_eq_true hp
  have hrun : Timed s₀ tr ts s := Timed.start.tick htick
  obtain ⟨-, -, hchanges, -⟩ := phases_on_schedule h₀ hrun hwhole
  exact ⟨s₀, s, tr, ts, h₀, hrun, hts, htime, hphases, hchanges⟩

/-- A clock that was started half a second into the leap second of 2016 and is 600 ms behind. -/
def leaping : Clock := { origin := ⟨1483228799, 1500000000⟩, skew := -600000000 }

/-- Two modules take turns while the leap second ends. -/
def overLeap : List (Move Unit) :=
  [.order (.register "a" (.ofMillis 100)), .turn, .order (.register "b" (.ofMillis 400)), .turn,
    .wait 100, .turn, .wait 400, .turn]

/-- The moments of two changes need not be apart by the phase between them. The skew is taken off
after the elapsed time has been added; where the leap second ends in between, the clock goes back,
and the third change shows an earlier moment than the second one, 400 ms before it. -/
theorem leap_second_gap :
    ∃ (s₀ s : Loop Unit) (tr : List (Mark Unit)) (ts : List Nat),
      Loop.start leaping (.ofSeconds 100 0) 0 = .ok s₀ ∧ Timed s₀ tr ts s ∧
      (∀ phase ∈ wishes tr, phase = .ofMillis phase.millis) ∧ ts = [0, 100, 500] ∧
      phases tr = [⟨1, 0, "a", .ofMillis 100, true, ⟨1483228799, 900000000⟩⟩,
        ⟨2, 1, "b", .ofMillis 400, false, ⟨1483228799, 1000000000⟩⟩,
        ⟨3, 0, "a", .ofMillis 100, false, ⟨1483228799, 400000000⟩⟩] ∧
      ¬ ∀ (k : Nat) (q p : PhaseChange), (phases tr)[k]? = some q → (phases tr)[k + 1]? = some p →
        p.moment = q.moment.shift q.duration.nanos := by
  obtain ⟨s₀, ⟨tr, ts, s⟩, h₀, htick, hp⟩ := exists_start leaping (.ofSeconds 100 0) 0
    (fun s₀ => s₀.tick overLeap) (fun _ r => decide (
      (∀ phase ∈ wishes r.1, phase = .ofMillis phase.millis) ∧ r.2.1 = [0, 100, 500] ∧
      phases r.1 = [⟨1, 0, "a", .ofMillis 100, true, ⟨1483228799, 900000000⟩⟩,
        ⟨2, 1, "b", .ofMillis 400, false, ⟨1483228799, 1000000000⟩⟩,
        ⟨3, 0, "a", .ofMillis 100, false, ⟨1483228799, 400000000⟩⟩])) (by decide +kernel)
  obtain ⟨hwhole, hts, hphases⟩ := of_decide_eq_true hp
  refine ⟨s₀, s, tr, ts, h₀, Timed.start.tick htick, hwhole, hts, hphases, fun hapart => ?_⟩
  rw [hphases] at hapart
  have hmoment := hapart 1 _ _ rfl rfl
  revert hmoment
  decide

end Script

end PhasedGrid.Schedule
