import PhasedGrid.Proofs.Node.Runs

/-!
The armings of a node's response timer along a run, set against the record of its scheduler. Every
job that is armed on the timer comes from one of them, and later armings are for later versions.
-/

namespace PhasedGrid.Node

set_option autoImplicit false

open PhasedGrid.Peer (Network)
open PhasedGrid.Schedule
open PhasedGrid.Snapshot (Version)

variable {n next : Node} {tr ms : List (Mark Duty)} {as bs : List Arming} {s₀ : Loop Duty}

def arming (n : Node) : Order Duty :=
  .after n.timer n.member.agent.policy.responseTimeout .respond []

/-- What a mark can be that is written down at the given time. -/
inductive Dated (time : Nat) : Mark Duty → Prop
  | gave (o : Order Duty) : Dated time (.gave o)
  | applied (c : Command Duty) : Dated time (.applied c time)
  | queued (m : String) (task : Schedule.Task Duty) : Dated time (.queued m task time)
  | seen (e : Event Duty) : Dated time (.seen e)

/-- What an event changes for the armings and their record. -/
structure Advances (n : Node) (ms : List (Mark Duty)) (bs : List Arming) (next : Node) : Prop where
  timer : next.timer = n.timer
  uuid : next.uuid = n.uuid
  policy : next.member.agent.policy = n.member.agent.policy
  started : n.member.agent.started ≤ next.member.agent.started
  time : n.loop.time ≤ next.loop.time
  submitted : next.loop.submitted = n.loop.submitted + submissions (gaves ms)
  dated : ∀ x ∈ ms, Dated n.loop.time x
  armings : bs = [] ∧ (∀ o ∈ gaves ms, Apart n.timer o) ∨
    ms = [.gave n.arming] ∧
      bs = [⟨n.loop.submitted, ⟨n.uuid, next.member.agent.started⟩, n.loop.time⟩]
  current : next.member.agent.awaiting →
    next.member.agent.current = ⟨next.uuid, next.member.agent.started⟩

/-- The record of a node, with the orders in it and the reports that wait. -/
structure Recorded (s₀ : Loop Duty) (tr : List (Mark Duty)) (n : Node) : Prop where
  trails : Trails s₀ tr n.loop
  orders : ∀ o ∈ gaves tr, Apart n.timer o ∨ o = n.arming
  submitted : n.loop.submitted = submissions (gaves tr)
  dated : ∀ m task t, .queued m task t ∈ tr → t ≤ n.loop.time
  statuses : n.statuses <:+ (reports tr).map Prod.snd
  current : n.member.agent.awaiting →
    n.member.agent.current = ⟨n.uuid, n.member.agent.started⟩

theorem Apart.follows {timer : Nat} {o : Order Duty} (h : Apart timer o) : o.follows = [] := by
  cases o with
  | after => exact h.2.2
  | now => exact h.2
  | post => exact h.2
  | _ => rfl

theorem Recorded.follows (h : Recorded s₀ tr n) : ∀ o ∈ gaves tr, o.follows = [] := by
  intro o ho
  rcases h.orders o ho with ho | rfl
  · exact ho.follows
  · rfl

section Turn

theorem turnMarks_dated (n next : Node) : ∀ x ∈ n.turnMarks next, Dated n.loop.time x := by
  intro x hx
  unfold turnMarks at hx
  split at hx
  · rename_i loop events _
    rcases List.mem_append.mp hx with hx | hx
    · rcases List.mem_append.mp hx with hx | hx
      · rcases Loop.mem_marks hx with ⟨c, rfl⟩ | ⟨m, task, rfl⟩
        · exact .applied c
        · exact .queued m task
      · obtain ⟨e, -, rfl⟩ := List.mem_map.mp hx
        exact .seen e
    · split at hx
      · obtain rfl := List.mem_singleton.mp hx
        exact .seen _
      · cases hx
  · obtain rfl := List.mem_singleton.mp hx
    exact .seen _

theorem gaves_turnMarks (n next : Node) : gaves (n.turnMarks next) = [] := by
  unfold turnMarks
  split
  · rw [gaves_append, gaves_append, Loop.gaves_marks, gaves_seen]
    split <;> rfl
  · rfl

theorem reports_marks (s : Loop Duty) : reports s.marks = [] := by
  refine List.filterMap_eq_nil_iff.mpr fun x hx => ?_
  rcases Loop.mem_marks hx with ⟨c, rfl⟩ | ⟨m, task, rfl⟩ <;> rfl

structure Turned (s₀ : Loop Duty) (tr : List (Mark Duty)) (n next : Node) : Prop where
  member : next.member = n.member
  timer : next.timer = n.timer
  statuses : next.statuses = n.statuses ++ (reports (n.turnMarks next)).map Prod.snd
  time : next.loop.time = n.loop.time
  submitted : next.loop.submitted = n.loop.submitted
  trails : Trails s₀ (tr ++ n.turnMarks next) next.loop

theorem schedulerTurn_turned (h₀ : s₀.Fresh) (h : Trails s₀ tr n.loop)
    (hg : ∀ o ∈ gaves tr, o.follows = []) (ht : n.schedulerTurn? = some next) :
    Turned s₀ tr n next := by
  unfold schedulerTurn? at ht
  split at ht
  · rename_i fault he
    obtain rfl := Option.some.inj ht
    have hmarks : n.turnMarks { n with loop := n.loop.finish, lost := true } = [.seen .ended] := by
      rw [turnMarks, he]
    refine ⟨rfl, rfl, ?_, rfl, rfl, ?_⟩
    · rw [hmarks]
      exact (List.append_nil _).symm
    · rw [hmarks]
      exact (h.live (Loop.live_of_fault he)).ends rfl
  · cases ht
  · rename_i loop events he
    obtain rfl := Option.some.inj ht
    have ho := foldl_observed { n with loop } events
    have hturn := h.turn h₀.live he
    generalize events.foldl observe { n with loop } = next at ho
    have hmarks : n.turnMarks next = n.loop.marks ++ events.map .seen ++
        if next.loop.ended && !loop.ended then [.seen .ended] else [] := by
      rw [turnMarks, he]
    refine ⟨ho.member, ho.timer, ?_, ho.time.trans (Loop.time_turn he),
      ho.submitted.trans (h.submitted_turn h₀ hg he), ?_⟩
    · rw [ho.statuses, hmarks, reports_append, reports_append, reports_marks, List.nil_append]
      split
      · rw [show reports [.seen .ended] = [] from rfl, List.append_nil]
      · rw [show reports [] = [] from rfl, List.append_nil]
    · rw [hmarks]
      -- A job that breaks the scheduler ends a loop that its turn has not ended.
      cases hend : loop.ended with
      | true =>
        have hnext : next.loop.ended := by
          rcases ho.loop with hl | hl
          · rw [hl]
            exact hend
          · exact hl
        rw [Bool.not_true, Bool.and_false, if_neg Bool.false_ne_true, List.append_nil]
        exact hturn.ended hend hnext
      | false =>
        rcases ho.loop with hl | hl
        · rw [hl, hend, Bool.false_and, if_neg Bool.false_ne_true, List.append_nil]
          exact hturn
        · rw [hl, Bool.not_false, Bool.and_true, if_pos rfl, ← List.append_assoc]
          exact (hturn.live hend).ends hl

end Turn

section Step

theorem Recorded.apart (h : Recorded s₀ tr n) (hagent : next.member.agent = n.member.agent)
    (htimer : next.timer = n.timer) (htime : n.loop.time ≤ next.loop.time)
    (hsubmitted : next.loop.submitted = n.loop.submitted + submissions (gaves ms))
    (hdated : ∀ x ∈ ms, Dated n.loop.time x) (horders : ∀ o ∈ gaves ms, Apart n.timer o) :
    Advances n ms [] next := by
  refine ⟨htimer, ?_, ?_, ?_, htime, hsubmitted, hdated, .inl ⟨rfl, horders⟩, ?_⟩
  · unfold uuid
    rw [hagent]
  · rw [hagent]
  · rw [hagent]
  · unfold uuid
    rw [hagent]
    exact h.current

theorem gave_dated (time : Nat) (os : List (Order Duty)) :
    ∀ x ∈ os.map Mark.gave, Dated time x := by
  intro x hx
  obtain ⟨o, -, rfl⟩ := List.mem_map.mp hx
  exact .gave o

/-- The timer is armed for the version that was started last. -/
theorem Advances.of_arming (htimer : next.timer = n.timer) (huuid : next.uuid = n.uuid)
    (hpolicy : next.member.agent.policy = n.member.agent.policy)
    (hstarted : n.member.agent.started ≤ next.member.agent.started)
    (htime : n.loop.time ≤ next.loop.time)
    (hsubmitted : next.loop.submitted = n.loop.submitted + 1)
    (hversion : next.member.agent.current = ⟨n.uuid, next.member.agent.started⟩) :
    Advances n [.gave n.arming] [⟨n.loop.submitted, next.member.agent.current, n.loop.time⟩]
      next := by
  refine ⟨htimer, huuid, hpolicy, hstarted, htime, hsubmitted, gave_dated _ [n.arming],
    .inr ⟨rfl, ?_⟩, ?_⟩
  · rw [hversion]
  · intro _
    rw [hversion, huuid]

theorem Recorded.collected (h : Recorded s₀ tr n) {net : Network} (hc : Collected n net next) :
    Advances n ((n.orders net).map .gave) (n.armed net next) next := by
  obtain ⟨htimer, hloop, -, harms⟩ := hc
  have htime : n.loop.time ≤ next.loop.time := by
    rw [hloop, Loop.time_foldl_issue]
  have hsubmitted : next.loop.submitted = n.loop.submitted + submissions (n.orders net) := by
    rw [hloop]
    exact Loop.submitted_foldl_issue ..
  unfold armed
  generalize n.orders net = os at harms hsubmitted ⊢
  cases harms with
  | idle huuid hpolicy hstarted hcur =>
    refine ⟨htimer, huuid, hpolicy, Nat.le_of_eq hstarted.symm, htime, hsubmitted, nofun,
      .inl ⟨rfl, nofun⟩, ?_⟩
    intro haw
    obtain ⟨haw, hsame⟩ := hcur haw
    rw [hsame, h.current haw, hstarted]
    exact congrArg (Version.mk · _) huuid.symm
  | opened huuid hpolicy hstarted hcur =>
    have hle : n.member.agent.started ≤ next.member.agent.started := by
      rw [hstarted]
      exact Nat.le_succ _
    refine .of_arming htimer huuid hpolicy hle htime hsubmitted ?_
    rw [hcur, hstarted]
    rfl
  | extended huuid hpolicy hstarted haw hcur =>
    refine .of_arming htimer huuid hpolicy (Nat.le_of_eq hstarted.symm) htime hsubmitted ?_
    rw [hcur, h.current haw, hstarted]

theorem Recorded.advances (h₀ : s₀.Fresh) (h : Recorded s₀ tr n) (hstep : Step n ms bs next) :
    Advances n ms bs next := by
  cases hstep with
  | scheduler ht =>
    have hturned := schedulerTurn_turned h₀ h.trails h.follows ht
    have hnone := gaves_turnMarks n next
    apply h.apart (congrArg (·.agent) hturned.member) hturned.timer
    · exact Nat.le_of_eq hturned.time.symm
    · rw [hnone]
      exact hturned.submitted
    · exact turnMarks_dated n next
    · rw [hnone]
      exact nofun
  | collector net hc => exact h.collected (collectorTurn_collected hc)
  | order o ho =>
    refine h.apart rfl rfl ?_ ?_ ?_ ?_
    · exact Nat.le_of_eq (Loop.time_issue ..).symm
    · exact Loop.submitted_issue ..
    · exact gave_dated _ [o]
    · intro o' ho'
      obtain rfl := List.mem_singleton.mp ho'
      exact ho
  | wait time hle => exact h.apart rfl rfl hle rfl nofun nofun
  | report x => exact h.apart rfl rfl (Nat.le_refl _) rfl nofun nofun
  | adjust inventory => exact h.apart rfl rfl (Nat.le_refl _) rfl nofun nofun

theorem Recorded.trails_step (h₀ : s₀.Fresh) (h : Recorded s₀ tr n) (hstep : Step n ms bs next) :
    Trails s₀ (tr ++ ms) next.loop := by
  cases hstep with
  | scheduler ht => exact (schedulerTurn_turned h₀ h.trails h.follows ht).trails
  | collector net hc =>
    rw [(collectorTurn_collected hc).loop]
    exact h.trails.orders _
  | order o => exact h.trails.order o
  | wait time hle => exact h.trails.step h₀.live (.wait n.loop time hle)
  | report x hx hdue => exact h.trails.step h₀.live (.report n.loop x hx hdue)
  | adjust =>
    rw [List.append_nil]
    exact h.trails

theorem Recorded.statuses_step (h₀ : s₀.Fresh) (h : Recorded s₀ tr n)
    (hstep : Step n ms bs next) : next.statuses <:+ (reports (tr ++ ms)).map Prod.snd := by
  rw [reports_append, List.map_append]
  have hquiet : reports ms = [] → next.statuses <:+ n.statuses →
      next.statuses <:+ (reports tr).map Prod.snd ++ (reports ms).map Prod.snd := by
    intro hnone hle
    rw [hnone, List.map_nil, List.append_nil]
    exact hle.trans h.statuses
  have hgave : ∀ os : List (Order Duty), reports (os.map .gave) = [] := by
    intro os
    refine List.filterMap_eq_nil_iff.mpr fun x hx => ?_
    obtain ⟨o, -, rfl⟩ := List.mem_map.mp hx
    rfl
  cases hstep with
  | scheduler ht =>
    obtain ⟨earlier, hearlier⟩ := h.statuses
    rw [(schedulerTurn_turned h₀ h.trails h.follows ht).statuses, ← hearlier, List.append_assoc]
    exact List.suffix_append _ _
  | collector net hc => exact hquiet (hgave _) (collectorTurn_collected hc).statuses
  | order o => exact hquiet (hgave [o]) List.suffix_rfl
  | wait | report | adjust => exact hquiet rfl List.suffix_rfl

theorem Recorded.step (h₀ : s₀.Fresh) (h : Recorded s₀ tr n) (hstep : Step n ms bs next) :
    Recorded s₀ (tr ++ ms) next := by
  have ha := h.advances h₀ hstep
  constructor
  · exact h.trails_step h₀ hstep
  · intro o ho
    have harming : next.arming = n.arming := by rw [arming, ha.timer, ha.policy, arming]
    rw [ha.timer, harming]
    rw [gaves_append] at ho
    rcases List.mem_append.mp ho with ho | ho
    · exact h.orders o ho
    rcases ha.armings with ⟨-, hapart⟩ | ⟨rfl, -⟩
    · exact .inl (hapart o ho)
    · exact .inr (List.mem_singleton.mp ho)
  · rw [ha.submitted, h.submitted, gaves_append, submissions, submissions, submissions,
      List.map_append, List.sum_append]
  · intro m task t hmem
    rcases List.mem_append.mp hmem with hmem | hmem
    · exact Nat.le_trans (h.dated m task t hmem) ha.time
    · cases ha.dated _ hmem
      exact ha.time
  · exact h.statuses_step h₀ hstep
  · exact ha.current

end Step

/-- What the armings of a run have to do with its record. Later armings have larger numbers, and
none is for an earlier version than the one before. -/
structure Armed (tr : List (Mark Duty)) (as : List Arming) (n : Node) : Prop where
  armed : ∀ d j, .after n.timer d j ∈ commands 0 0 (gaves tr) → ∃ a ∈ as, a.number = j.number
  numbers : ∀ a ∈ as, a.number < n.loop.submitted
  times : ∀ a ∈ as, a.time ≤ n.loop.time
  versions : ∀ a ∈ as, a.version.initiator = n.uuid ∧
    a.version.sequence ≤ n.member.agent.started
  grows : as.Pairwise fun a b => a.number < b.number ∧ a.version.sequence ≤ b.version.sequence
  late : ∀ a ∈ as, ∀ c j t, .applied c t ∈ tr → c.job? = some j → j.number = a.number → a.time ≤ t

namespace Armed

theorem sequence_le (h : Armed tr as n) {a b : Arming} (ha : a ∈ as) (hb : b ∈ as)
    (hle : a.number ≤ b.number) : a.version.sequence ≤ b.version.sequence := by
  obtain ⟨i, hi, rfl⟩ := List.getElem_of_mem ha
  obtain ⟨k, hk, rfl⟩ := List.getElem_of_mem hb
  have hgrows := List.pairwise_iff_getElem.mp h.grows
  rcases Nat.lt_trichotomy i k with hik | rfl | hki
  · exact (hgrows i k hi hk hik).2
  · exact Nat.le_refl _
  · exact absurd (hgrows k i hk hi hki).1 (Nat.not_lt.mpr hle)

theorem orders_step (h : Armed tr as n) (hr : Recorded s₀ tr n) (ha : Advances n ms bs next) :
    ∀ d j, .after next.timer d j ∈ commands 0 0 (gaves (tr ++ ms)) →
      ∃ a ∈ as ++ bs, a.number = j.number := by
  intro d j hmem
  rw [ha.timer, gaves_append, commands_append, Nat.zero_add, Nat.zero_add, ← hr.submitted] at hmem
  rcases List.mem_append.mp hmem with hmem | hmem
  · obtain ⟨a, ha, hnumber⟩ := h.armed d j hmem
    exact ⟨a, List.mem_append_left _ ha, hnumber⟩
  rcases ha.armings with ⟨-, hapart⟩ | ⟨rfl, rfl⟩
  · -- Nobody else knows the timer.
    obtain ⟨o, ho, k, number, hc⟩ := exists_of_mem_commands _ _ hmem
    have hother := hapart o ho
    cases o with
    | after =>
      obtain ⟨rfl, -, -⟩ := Command.after.inj hc
      exact absurd rfl hother.1
    | _ => cases hc
  · obtain ⟨-, -, rfl⟩ := Command.after.inj (List.mem_singleton.mp hmem)
    exact ⟨_, List.mem_append_right _ List.mem_cons_self, rfl⟩

theorem step (h₀ : s₀.Fresh) (hr : Recorded s₀ tr n) (h : Armed tr as n)
    (ha : Advances n ms bs next) : Armed (tr ++ ms) (as ++ bs) next := by
  have hle : n.loop.submitted ≤ next.loop.submitted := by
    rw [ha.submitted]
    exact Nat.le_add_right _ _
  have hbs : ∀ b ∈ bs, b = ⟨n.loop.submitted, ⟨n.uuid, next.member.agent.started⟩, n.loop.time⟩ ∧
      n.loop.submitted < next.loop.submitted ∧ ms = [.gave n.arming] := by
    intro b hb
    rcases ha.armings with ⟨rfl, -⟩ | ⟨hms, rfl⟩
    · cases hb
    · refine ⟨List.mem_singleton.mp hb, ?_, hms⟩
      rw [ha.submitted, hms]
      exact Nat.lt_succ_self _
  constructor
  · exact h.orders_step hr ha
  · intro a hmem
    rcases List.mem_append.mp hmem with hmem | hmem
    · exact Nat.lt_of_lt_of_le (h.numbers a hmem) hle
    · obtain ⟨rfl, hlt, -⟩ := hbs a hmem
      exact hlt
  · intro a hmem
    rcases List.mem_append.mp hmem with hmem | hmem
    · exact Nat.le_trans (h.times a hmem) ha.time
    · obtain ⟨rfl, -⟩ := hbs a hmem
      exact ha.time
  · intro a hmem
    rw [ha.uuid]
    rcases List.mem_append.mp hmem with hmem | hmem
    · obtain ⟨huuid, hseq⟩ := h.versions a hmem
      exact ⟨huuid, Nat.le_trans hseq ha.started⟩
    · obtain ⟨rfl, -⟩ := hbs a hmem
      exact ⟨rfl, Nat.le_refl _⟩
  · rw [List.pairwise_append]
    refine ⟨h.grows, ?_, ?_⟩
    · rcases ha.armings with ⟨rfl, -⟩ | ⟨-, rfl⟩
      · exact .nil
      · exact List.pairwise_singleton _ _
    · intro a hmem b hb
      obtain ⟨rfl, -⟩ := hbs b hb
      exact ⟨h.numbers a hmem, Nat.le_trans (h.versions a hmem).2 ha.started⟩
  · intro a hmem c j t happ hj heq
    rcases List.mem_append.mp hmem with hmem | hmem
    · rcases List.mem_append.mp happ with happ | happ
      · exact h.late a hmem c j t happ hj heq
      · cases ha.dated _ happ
        exact h.times a hmem
    · obtain ⟨rfl, -, rfl⟩ := hbs a hmem
      rcases List.mem_append.mp happ with happ | happ
      · -- What has been taken up was submitted before.
        have hlt := hr.trails.number_lt h₀ happ hj
        rw [hr.trails.given_eq h₀ hr.follows, ← hr.submitted, heq] at hlt
        exact absurd hlt (Nat.lt_irrefl _)
      · cases List.mem_singleton.mp happ

end Armed

end PhasedGrid.Node
