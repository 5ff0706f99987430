import PhasedGrid.Proofs.Node.Armings
import PhasedGrid.Proofs.Schedule.Plays

/-!
Which arming an expired response timer stands for. The report of an expiry names no version, so the
collector takes it for the version it awaits, whichever arming it comes from.
-/

namespace PhasedGrid.Node

set_option autoImplicit false

open PhasedGrid.Config (Settings)
open PhasedGrid.Peer (Network)
open PhasedGrid.Schedule
open PhasedGrid.Snapshot (Agent Version)

variable {n : Node} {tr : List (Mark Duty)} {as : List Arming} {s₀ : Loop Duty}

section Start

variable {s : Settings} {name : String} {clock : Clock} {time : Nat} {net net₀ : Network}
  {n₀ : Node}

structure Started (s : Settings) (name : String) (clock : Clock) (time : Nat) (s₀ : Loop Duty)
    (n₀ : Node) : Prop where
  start : Loop.start clock s.alignmentSpan time = .ok s₀
  loop : n₀.loop = (opening s).foldl Loop.issue s₀
  agent : n₀.member.agent = .new name s.snapshot s.peers
  statuses : n₀.statuses = []

theorem exists_started (h : start s name clock time net = .ok (.ok (n₀, net₀))) :
    ∃ s₀, Started s name clock time s₀ n₀ := by
  unfold start at h
  split at h
  · cases h
  split at h
  · cases h
  cases hloop : Loop.start (α := Duty) clock s.alignmentSpan time with
  | error fault =>
    rw [hloop] at h
    cases h
  | ok s₀ =>
    rw [hloop] at h
    obtain ⟨rfl, -⟩ := Prod.mk.inj (Except.ok.inj (Except.ok.inj h))
    refine ⟨s₀, hloop, ?_, rfl, rfl⟩
    rw [opening, List.foldl_append, List.foldl_map]
    rfl

theorem apart_opening (s : Settings) (timer : Nat) : ∀ o ∈ opening s, Apart timer o := by
  intro o ho
  rcases List.mem_append.mp ho with ho | ho
  · obtain ⟨m, -, rfl⟩ := List.mem_map.mp ho
    trivial
  · obtain rfl := List.mem_singleton.mp ho
    trivial

theorem Started.recorded (h : Started s name clock time s₀ n₀) :
    Recorded s₀ ((opening s).map .gave) n₀ := by
  have hfresh := Loop.fresh_of_start h.start
  constructor
  · rw [h.loop]
    exact Trails.orders (.inl ⟨hfresh.live, .start⟩) (opening s)
  · intro o ho
    rw [gaves_gave] at ho
    exact .inl (apart_opening s _ o ho)
  · rw [h.loop, Loop.submitted_foldl_issue, hfresh.submitted, gaves_gave, Nat.zero_add]
  · intro m task t hmem
    obtain ⟨o, -, ho⟩ := List.mem_map.mp hmem
    cases ho
  · rw [h.statuses]
    exact List.nil_suffix
  · intro haw
    rw [h.agent] at haw
    cases haw

theorem armed_opening (s : Settings) (n₀ : Node) : Armed ((opening s).map .gave) [] n₀ := by
  have hnone : ∀ d j, .after n₀.timer d j ∉ commands 0 0 (gaves ((opening s).map .gave)) := by
    intro d j hmem
    obtain ⟨o, ho, k, number, hc⟩ := exists_of_mem_commands _ _ hmem
    rw [gaves_gave] at ho
    have hother := apart_opening s n₀.timer o ho
    cases o with
    | after =>
      obtain ⟨rfl, -, -⟩ := Command.after.inj hc
      exact absurd rfl hother.1
    | _ => cases hc
  exact ⟨fun d j hmem => absurd hmem (hnone d j), nofun, nofun, nofun, .nil, nofun⟩

theorem Started.books (h₀ : Started s name clock time s₀ n₀)
    (h : Runs n₀ (opening s) tr as n) :
    Recorded s₀ tr n ∧ Armed tr as n ∧ n.member.agent.policy = s.snapshot := by
  induction h with
  | start => exact ⟨h₀.recorded, armed_opening s n₀, congrArg Agent.policy h₀.agent⟩
  | step _ hstep ih =>
    obtain ⟨hr, ha, hpolicy⟩ := ih
    have hfresh := Loop.fresh_of_start h₀.start
    have hadv := hr.advances hfresh hstep
    exact ⟨hr.step hfresh hstep, ha.step hfresh hr hadv, hadv.policy.trans hpolicy⟩

end Start

/-- An arming for `v` has come to the timer. -/
def Reached (timer : Nat) (as : List Arming) (tr : List (Mark Duty)) (v : Version) : Prop :=
  ∃ a ∈ as, a.version = v ∧
    ∃ d j t, .applied (.after timer d j) t ∈ tr ∧ j.number = a.number

theorem exists_report {status : TimerStatus} {rest : List TimerStatus}
    (h : status :: rest <:+ (reports tr).map Prod.snd) :
    ∃ j later, (j, status) :: later <:+ reports tr ∧ later.map Prod.snd = rest := by
  obtain ⟨earlier, hearlier⟩ := h
  obtain ⟨first, last, hsplit, -, hlast⟩ := List.map_eq_append_iff.mp hearlier.symm
  obtain ⟨report, later, rfl, hstatus, hrest⟩ := List.map_eq_cons_iff.mp hlast
  refine ⟨report.1, later, ?_, hrest⟩
  rw [hsplit, ← hstatus]
  exact List.suffix_append first _

theorem ran_of_report {j : Job Duty} {status : TimerStatus} (h : (j, status) ∈ reports tr) :
    j.label = .respond ∧ ⟨j, some status⟩ ∈ ran tr := by
  obtain ⟨x, hx, hreport⟩ := List.mem_filterMap.mp h
  unfold report? at hreport
  split at hreport
  · rename_i job status' t
    split at hreport
    · rename_i hlabel
      obtain ⟨rfl, rfl⟩ := Prod.mk.inj (Option.some.inj hreport)
      exact ⟨hlabel, List.mem_filterMap.mpr ⟨_, hx, rfl⟩⟩
    · cases hreport
  · cases hreport

theorem Recorded.arming_of_sent (h₀ : s₀.Fresh) (h : Recorded s₀ tr n) {timer delay : Nat}
    {j : Job Duty} (hsent : .after timer delay j ∈ sent tr) (hj : j.label = .respond) :
    timer = n.timer ∧ delay = n.member.agent.policy.responseTimeout := by
  unfold sent at hsent
  rw [h.trails.given_eq h₀ h.follows] at hsent
  obtain ⟨o, ho, k, number, hc⟩ := exists_of_mem_commands _ _ hsent
  cases o with
  | after =>
    obtain ⟨rfl, rfl, rfl⟩ := Command.after.inj hc
    rcases h.orders _ ho with hother | harming
    · obtain rfl := hj
      cases hother.2.1
    · obtain ⟨htimer, hdelay, -⟩ := Order.after.inj harming
      exact ⟨htimer, hdelay⟩
  | _ => cases hc

/-- The expiry that an awaiting collector reads next was armed by the collector a full response
timeout before the timer released it. It is of the version in progress exactly when an arming for
that version came to the timer before the release. -/
theorem expiry_report {s : Settings} {name : String} {clock : Clock} {time : Nat}
    {net net₀ : Network} {n₀ : Node} {rest : List TimerStatus}
    (h₀ : start s name clock time net = .ok (.ok (n₀, net₀))) (h : Runs n₀ (opening s) tr as n)
    (hst : n.statuses = .expired :: rest) (haw : n.member.agent.awaiting) :
    ∃ j later before m t fin, ∃ a ∈ as,
      (j, .expired) :: later <:+ reports tr ∧ later.map Prod.snd = rest ∧
      tr = before ++ .queued m ⟨j, some .expired⟩ t :: fin ∧ a.number = j.number ∧
      a.time + s.snapshot.responseTimeout ≤ t ∧ t ≤ n.loop.time ∧
      (a.version = n.member.agent.current ↔
        Reached n.timer as before n.member.agent.current) := by
  obtain ⟨s₀, hstarted⟩ := exists_started h₀
  obtain ⟨hr, ha, hpolicy⟩ := hstarted.books h
  have hfresh := Loop.fresh_of_start hstarted.start
  have hsuffix := hr.statuses
  rw [hst] at hsuffix
  -- From the report back to the job that ran, to its arming on the timer, to who asked for it.
  obtain ⟨j, later, hlater, hrest⟩ := exists_report hsuffix
  obtain ⟨hlabel, hran⟩ := ran_of_report (hlater.subset List.mem_cons_self)
  obtain ⟨timer, delay, t₀, t, pre, mid, fin, m, hx⟩ := hr.trails.expiry hfresh hran
  obtain ⟨rfl, rfl⟩ := hr.arming_of_sent hfresh hx.sent hlabel
  have hsent := hx.sent
  unfold sent at hsent
  rw [hr.trails.given_eq hfresh hr.follows] at hsent
  obtain ⟨a, hmem, hnumber⟩ := ha.armed _ j hsent
  have hrecord := hx.record
  have happ : .applied (.after n.timer n.member.agent.policy.responseTimeout j) t₀ ∈ tr := by
    rw [hrecord]
    simp
  have htime := ha.late a hmem _ j t₀ happ rfl hnumber.symm
  refine ⟨j, later, _, m, t, fin, a, hmem, hlater, hrest, hrecord, hnumber, ?_, ?_, ?_⟩
  · have hdue := hx.due
    rw [hpolicy] at hdue
    omega
  · apply hr.dated m ⟨j, some .expired⟩ t
    rw [hrecord]
    simp
  constructor
  · intro hversion
    refine ⟨a, hmem, hversion, n.member.agent.policy.responseTimeout, j, t₀, ?_, hnumber.symm⟩
    simp
  · rintro ⟨b, hb, hversion, d, i, t', happ', hi⟩
    -- Nobody came to the timer after `a`, so `b` came before it or is `a`.
    have hle : b.number ≤ a.number := by
      rw [← hi, hnumber]
      rcases List.mem_append.mp happ' with hpre | hpost
      · exact Nat.le_of_lt (hx.earlier hpre rfl)
      rcases List.mem_cons.mp hpost with heq | hmid
      · obtain ⟨-, -, rfl⟩ := Command.after.inj (Mark.applied.inj heq).1
        exact Nat.le_refl _
      · exact absurd hmid (hx.untouched d i t')
    have hseq := ha.sequence_le hb hmem hle
    obtain ⟨huuid, hbound⟩ := ha.versions a hmem
    rw [hr.current haw] at hversion ⊢
    rw [hversion] at hseq
    have hsame : a.version.sequence = n.member.agent.started := Nat.le_antisymm hbound hseq
    rw [← huuid, ← hsame]

/-- A node that waits for a peer; its scheduler has no other module than the collector's. -/
def paired : Settings := { peers := ["b"], schedule := { modules := [] } }

/-- The first request of all, and the end of its timeout. -/
def timedOut : List Move :=
  [.scheduler, .scheduler, .collector (some (Snapshot.Wire.request "a" "gm")), .scheduler, .wait 5000,
    .report 0]

set_option maxRecDepth 4000 in
/-- If nothing comes in between, the expiry is of the version in progress. -/
theorem timely_report :
    ∃ n₀ net₀ tr as n, start paired "a" epoch 0 {} = .ok (.ok (n₀, net₀)) ∧
      Runs n₀ (opening paired) tr as n ∧ n.statuses = [.expired] ∧ n.member.agent.awaiting ∧
      ∃ a ∈ as, a.version = n.member.agent.current ∧ a.time + 5000 ≤ n.loop.time := by
  obtain ⟨n₀, net₀, tr, as, n, h₀, h, hp⟩ := exists_run paired "a" epoch 0
    (timedOut ++ [.scheduler, .scheduler])
    (fun as n => n.statuses == [.expired] && n.member.agent.awaiting &&
      as.all fun a => a.version = n.member.agent.current)
    (by decide +kernel)
  simp only [Bool.and_eq_true, beq_iff_eq, List.all_eq_true, decide_eq_true_eq] at hp
  obtain ⟨⟨hst, haw⟩, hall⟩ := hp
  obtain ⟨j, later, before, m, t, fin, a, ha, -, -, -, -, hdue, hle, -⟩ :=
    expiry_report h₀ h hst haw
  exact ⟨n₀, net₀, tr, as, n, h₀, h, hst, haw, a, ha, hall a ha, Nat.le_trans hdue hle⟩

set_option maxRecDepth 4000 in
/-- A request that comes between the end of the timeout and its report starts a version that is
judged by the report at once. -/
theorem overtaken_report :
    ¬ ∀ (s : Settings) (name : String) (clock : Clock) (time : Nat) (net net₀ : Network)
        (n₀ n : Node) (tr : List (Mark Duty)) (as : List Arming) (rest : List TimerStatus),
      start s name clock time net = .ok (.ok (n₀, net₀)) → Runs n₀ (opening s) tr as n →
      n.statuses = .expired :: rest → n.member.agent.awaiting →
        ∃ a ∈ as, a.version = n.member.agent.current ∧
          a.time + s.snapshot.responseTimeout ≤ n.loop.time := by
  intro hclaim
  obtain ⟨n₀, net₀, tr, as, n, h₀, h, hp⟩ := exists_run paired "a" epoch 0
    (timedOut ++ [.collector (some (Snapshot.Wire.request "a" "gm")), .scheduler, .scheduler])
    (fun as n => n.statuses == [.expired] && n.member.agent.awaiting &&
      as.all fun a => a.version = n.member.agent.current → n.loop.time < a.time + 5000)
    (by decide +kernel)
  simp only [Bool.and_eq_true, beq_iff_eq, List.all_eq_true, decide_eq_true_eq] at hp
  obtain ⟨⟨hst, haw⟩, hall⟩ := hp
  obtain ⟨a, ha, hversion, hdue⟩ := hclaim _ _ _ _ _ _ _ _ _ _ _ h₀ h hst haw
  exact absurd (hall a ha hversion) (Nat.not_lt.mpr hdue)

end PhasedGrid.Node
