import PhasedGrid.Proofs.Schedule.Keeping

/-!
Back from what a timer released to the arming it comes from. Armings are taken up in the order of
their jobs' numbers, so the arming behind an expiry is the last one that was taken up before it.
-/

namespace PhasedGrid.Schedule

set_option autoImplicit false

variable {α : Type} {s₀ s : Loop α} {tr : List (Mark α)}

@[simp] def Mark.gave? : Mark α → Option (Order α)
  | .gave o => some o
  | _ => none

/-- The orders of a run that come from outside. -/
def gaves (tr : List (Mark α)) : List (Order α) := tr.filterMap Mark.gave?

theorem gaves_append (tr ms : List (Mark α)) : gaves (tr ++ ms) = gaves tr ++ gaves ms :=
  List.filterMap_append

theorem gaves_gave (os : List (Order α)) : gaves (os.map .gave) = os := by
  unfold gaves
  rw [List.filterMap_map]
  exact List.filterMap_some

theorem gaves_seen (events : List (Event α)) : gaves (events.map .seen) = [] := by
  refine List.filterMap_eq_nil_iff.mpr fun x hx => ?_
  obtain ⟨e, -, rfl⟩ := List.mem_map.mp hx
  rfl

theorem Loop.gaves_marks (s : Loop α) : gaves s.marks = [] := by
  refine List.filterMap_eq_nil_iff.mpr fun x hx => ?_
  rcases mem_marks hx with ⟨c, rfl⟩ | ⟨m, task, rfl⟩ <;> rfl

/-- If no job that waits has orders to give, all orders of a change come from outside. -/
theorem Change.given_eq {s' : Loop α} {ms : List (Mark α)} (h : Change s ms s')
    (hjobs : ∀ j ∈ s.jobs, j.follow = []) : given ms = gaves ms := by
  cases h with
  | posted j rest hi =>
    have hj : j ∈ s.jobs := by simp [Loop.jobs, hi, Command.job?]
    simp [given, gaves, hjobs j hj]
  | served e task queues he hpop =>
    have hw : task ∈ s.queues.waiting e.id := by
      rw [Queues.waiting_pop hpop, if_pos rfl]
      simp
    have hj : task.job ∈ s.jobs := by
      apply List.mem_append_right
      exact List.mem_map_of_mem (Queues.mem_jobs_of_waiting _ hw)
    simp [given, gaves, hjobs task.job hj]
  | _ => rfl

/-- If no job has orders to give, all orders of a run come from outside. -/
theorem Leads.given_eq (h₀ : s₀.Fresh) (h : Leads s₀ tr s) (hg : ∀ o ∈ gaves tr, o.follows = []) :
    given tr = gaves tr := by
  induction h with
  | start => rfl
  | @change tr ms s s' hl hc ih =>
    rw [gaves_append] at hg
    have hgiven := ih fun o ho => hg o (List.mem_append_left _ ho)
    have hjobs : ∀ j ∈ s.jobs, j.follow = [] := by
      intro j hj
      have hmem : j ∈ carried (sent tr) := by
        refine (hl.accounts h₀).places.subset ?_
        exact List.mem_append_left _ (List.mem_append_left _ hj)
      obtain ⟨c, hc, hcj⟩ := List.mem_filterMap.mp hmem
      obtain ⟨o, ho, k, n, rfl⟩ := exists_of_mem_commands 0 0 hc
      rw [hgiven] at ho
      rw [Order.follow_of_command hcj]
      exact hg o (List.mem_append_left _ ho)
    rw [given_append, gaves_append, hgiven, hc.given_eq hjobs]

theorem given_gave (os : List (Order α)) : given (os.map .gave) = os := by
  induction os with
  | nil => rfl
  | cons o os ih => exact congrArg (o :: ·) ih

theorem Trails.given_eq (h₀ : s₀.Fresh) (h : Trails s₀ tr s)
    (hg : ∀ o ∈ gaves tr, o.follows = []) : given tr = gaves tr := by
  rcases h with ⟨-, hl⟩ | ⟨-, s₁, tr₁, os, hl, rfl⟩
  · exact hl.given_eq h₀ hg
  · rw [gaves_append] at hg
    rw [given_append, gaves_append, hl.given_eq h₀ fun o ho => hg o (List.mem_append_left _ ho)]
    congr 1
    exact (given_gave os).trans (gaves_gave os).symm

theorem Loop.live_of_fault {fault : TimeFault} (h : s.turn = .error fault) : s.ended = false := by
  unfold turn at h
  split at h
  · cases h
  · rename_i hs
    exact Bool.eq_false_iff.mpr hs

theorem Leads.ends {s' : Loop α} (h : Leads s₀ tr s) (hs' : s'.ended) :
    Trails s₀ (tr ++ [.seen .ended]) s' :=
  .inr ⟨hs', s, tr, [], h, rfl⟩

namespace Trails

theorem live (h : Trails s₀ tr s) (hs : s.ended = false) : Leads s₀ tr s := by
  rcases h with ⟨-, hl⟩ | ⟨hend, -⟩
  · exact hl
  · rw [hs] at hend
    cases hend

theorem ended {s' : Loop α} (h : Trails s₀ tr s) (hs : s.ended) (hs' : s'.ended) :
    Trails s₀ tr s' := by
  rcases h with ⟨hlive, -⟩ | ⟨-, hend⟩
  · rw [hs] at hlive
    cases hlive
  · exact .inr ⟨hs', hend⟩

/-- Once the loop has ended nothing is taken up and nothing runs. -/
theorem exists_leads (h : Trails s₀ tr s) :
    ∃ s₁ tr₁ rest, Leads s₀ tr₁ s₁ ∧ tr = tr₁ ++ rest ∧ ran rest = [] ∧ handled rest = [] := by
  rcases h with ⟨-, hl⟩ | ⟨-, s₁, tr₁, os, hl, rfl⟩
  · exact ⟨s, tr, [], hl, (List.append_nil tr).symm, rfl, rfl⟩
  · exact ⟨s₁, tr₁, coda os, hl, rfl, ran_coda os, handled_coda os⟩

theorem orders (h : Trails s₀ tr s) (os : List (Order α)) :
    Trails s₀ (tr ++ os.map .gave) (os.foldl Loop.issue s) := by
  induction os generalizing tr s with
  | nil =>
    rw [List.map_nil, List.append_nil]
    exact h
  | cons o os ih =>
    rw [List.map_cons, List.append_cons]
    exact ih (h.order o)

theorem sent_of_applied (h₀ : s₀.Fresh) (h : Trails s₀ tr s) {c : Command α} {t : Nat}
    (hmem : .applied c t ∈ tr) (hc : c.ordered) : c ∈ sent tr := by
  have hhandled : c ∈ handled tr := by
    apply List.mem_filterMap.mpr
    exact ⟨_, hmem, if_pos hc⟩
  obtain ⟨s₁, tr₁, rest, hl, rfl, -, hrest⟩ := h.exists_leads
  rw [handled_append, hrest, List.append_nil] at hhandled
  rw [sent_append, ← (hl.accounts h₀).line]
  exact List.mem_append_left _ (List.mem_append_left _ hhandled)

theorem number_lt (h₀ : s₀.Fresh) (h : Trails s₀ tr s) {c : Command α} {j : Job α} {t : Nat}
    (hmem : .applied c t ∈ tr) (hj : c.job? = some j) : j.number < submissions (given tr) := by
  have hc : c.ordered := by
    cases c with
    | work => cases hj
    | _ => rfl
  have hnumber : j.number ∈ (carried (sent tr)).map Job.number := by
    apply List.mem_map_of_mem
    exact List.mem_filterMap.mpr ⟨c, h.sent_of_applied h₀ hmem hc, hj⟩
  rw [carried, sent, numbers_commands, ← List.range_eq_range'] at hnumber
  exact List.mem_range.mp hnumber

end Trails

/-- A turn submits nothing if no job has orders to give. -/
theorem Trails.submitted_turn (h₀ : s₀.Fresh) (h : Trails s₀ tr s)
    (hg : ∀ o ∈ gaves tr, o.follows = []) {s' : Loop α} {events : List (Event α)}
    (ht : s.turn = .ok (some (s', events))) : s'.submitted = s.submitted := by
  have hl := h.live (Loop.turn_leads ht).1
  have hsame : ∀ {ms : List (Mark α)} {s₁ : Loop α}, Leads s ms s₁ → gaves ms = [] →
      s₁.submitted = s.submitted := by
    intro ms s₁ hms hnone
    have hnext := hl.trans hms
    have hall : gaves (tr ++ ms) = gaves tr := by rw [gaves_append, hnone, List.append_nil]
    have hgiven := hnext.given_eq h₀ (by rw [hall]; exact hg)
    rw [(hnext.accounts h₀).submitted, (hl.accounts h₀).submitted, hgiven, hall,
      hl.given_eq h₀ hg]
  rcases (Loop.turn_leads ht).2 with hms | ⟨s₁, hms, rfl, -⟩
  · refine hsame hms ?_
    rw [gaves_append, Loop.gaves_marks, gaves_seen, List.append_nil]
  · exact (hsame hms s.gaves_marks : s₁.submitted = _)

/-- A job that runs with the status of a timer was appended to a queue with it. -/
theorem Leads.released (h₀ : s₀.Fresh) (h : Leads s₀ tr s) {task : Task α} (hran : task ∈ ran tr)
    (hs : task.status.isSome) : task ∈ queued tr := by
  induction h with
  | start => cases hran
  | @change tr ms s s' hl hc ih =>
    rw [ran_append] at hran
    rw [queued_append]
    apply List.mem_append_left
    rcases List.mem_append.mp hran with hran | hran
    · exact ih hran
    cases hc with
    | posted j rest =>
      rw [List.mem_singleton.mp hran] at hs
      cases hs
    | served e task' queues he hpop =>
      obtain rfl := List.mem_singleton.mp hran
      apply mem_queued_of_appended (m := e.id)
      rw [← (hl.lined h₀).1 e.id, Queues.waiting_pop hpop, if_pos rfl]
      simp
    | _ => cases hran

/-- Commands with jobs are taken up in the order of the jobs' numbers. -/
theorem Accounts.applied_lt (h : Accounts tr s) {pre post : List (Mark α)} {c c' : Command α}
    {j j' : Job α} {t t' : Nat} (hsplit : tr = pre ++ .applied c t :: post) (hj : c.job? = some j)
    (hmem : .applied c' t' ∈ pre) (hj' : c'.job? = some j') : j'.number < j.number := by
  have hsorted : ((carried (handled tr)).map Job.number).Pairwise (· < ·) := by
    have hsent := h.numbers
    rw [← h.line, carried, List.filterMap_append, List.map_append] at hsent
    have hall : (List.range s.submitted).Pairwise (· < ·) := List.pairwise_lt_range
    rw [← hsent] at hall
    exact (List.pairwise_append.mp hall).1
  have hcommand : ∀ {c : Command α} {j : Job α} {t : Nat}, c.job? = some j →
      (Mark.applied c t).command? = some c := by
    intro c j t hj
    cases c with
    | work => cases hj
    | _ => rfl
  have hsplits : carried (handled tr) = carried (handled pre) ++ j :: carried (handled post) := by
    rw [hsplit, handled_append, carried, List.filterMap_append]
    unfold handled
    rw [List.filterMap_cons_some (hcommand hj), List.filterMap_cons_some hj]
    rfl
  rw [hsplits, List.map_append, List.map_cons] at hsorted
  refine (List.pairwise_append.mp hsorted).2.2 j'.number ?_ j.number List.mem_cons_self
  apply List.mem_map_of_mem
  exact List.mem_filterMap.mpr ⟨c', List.mem_filterMap.mpr ⟨_, hmem, hcommand hj'⟩, hj'⟩

/-- A job that expired was armed on a timer to which nobody came until it was released, and by then
its delay had passed. -/
theorem Leads.expiry (h₀ : s₀.Fresh) (h : Leads s₀ tr s) {j : Job α}
    (hq : ⟨j, some .expired⟩ ∈ queued tr) :
    ∃ k d t₀ pre mid fin m t, tr = pre ++ .applied (.after k d j) t₀ :: mid ++
      .queued m ⟨j, some .expired⟩ t :: fin ∧ Untouched k mid ∧ t₀ + d ≤ t := by
  have hA := h.accounts h₀
  obtain ⟨x, hx, hxq⟩ := List.mem_filterMap.mp hq
  obtain ⟨m, task, t, rfl⟩ : ∃ m task t, x = .queued m task t := by
    cases x with
    | queued m task t => exact ⟨m, task, t, rfl⟩
    | _ => cases hxq
  obtain rfl : task = ⟨j, some .expired⟩ := Option.some.inj hxq
  obtain ⟨k, d, hafter, -⟩ := (h.sourced h₀).queued m _ t hx
  obtain ⟨y, hy, hyc⟩ := List.mem_filterMap.mp hafter
  obtain ⟨t₀, rfl⟩ : ∃ t₀, y = .applied (.after k d j) t₀ := by
    cases y with
    | applied c t₀ =>
      obtain ⟨-, hc⟩ := Option.ite_none_right_eq_some.mp hyc
      exact ⟨t₀, congrArg (Mark.applied · t₀) (Option.some.inj hc)⟩
    | _ => cases hyc
  obtain ⟨before, after, hsplit⟩ := List.append_of_mem hx
  obtain ⟨pre, post, hpre⟩ := List.append_of_mem hy
  -- Whatever stands in another place than the queues does not have the job's number.
  have hplaces := hA.nodup_armings
  have hnumber : j.number ∈ ((queued tr).map Task.job).map Job.number :=
    List.mem_map_of_mem (List.mem_map_of_mem hq)
  simp only [List.map_append] at hplaces
  obtain ⟨hplaces, -, hpending⟩ := List.nodup_append.mp hplaces
  obtain ⟨-, -, hrefused⟩ := List.nodup_append.mp hplaces
  rcases (h.fated h₀).2 pre post k d j t₀ hpre with ⟨rest, rfl⟩ | hfate
  · have hmem : j ∈ refusals tr := by
      rw [hpre, refusals_append]
      simp [refusals]
    exact absurd rfl (hrefused j.number (List.mem_append_left _ hnumber) j.number
      (List.mem_map_of_mem hmem))
  cases hfate with
  | pending hwaits =>
    obtain ⟨slot, p, hslot, hp, rfl, -⟩ := hwaits
    have hmem : p.payload ∈ s.timers.payloads := by
      apply List.mem_filterMap.mpr
      exact ⟨(k, slot), Table.mem_of_get? hslot, by rw [hp]; rfl⟩
    exact absurd rfl (hpending _ (List.mem_append_left _ (List.mem_append_left _ hnumber)) _
      (List.mem_map_of_mem hmem))
  | @cancelled mid fin d' j' m' t' hmid =>
    have hother : tr = (pre ++ .applied (.after k d j) t₀ :: mid ++ [.applied (.after k d' j') t']) ++
        .queued m' ⟨j, some .cancelled⟩ t' :: fin := by
      rw [hpre]
      simp
    cases (hA.queued_unique hsplit hother rfl).2
  | @expired mid fin m' t' hmid hdue =>
    refine ⟨k, d, t₀, pre, mid, fin, m', t', ?_, hmid, hdue⟩
    rw [hpre]
    simp

/-- A job that ran as expired, traced back to its arming. -/
structure Expiry (tr : List (Mark α)) (j : Job α) (timer delay armed released : Nat)
    (before mid fin : List (Mark α)) (module : String) : Prop where
  record : tr = before ++ .applied (.after timer delay j) armed :: mid ++
    .queued module ⟨j, some .expired⟩ released :: fin
  sent : .after timer delay j ∈ sent tr
  /-- Nobody comes to the timer between the arming and the release. -/
  untouched : Untouched timer mid
  due : armed + delay ≤ released
  /-- Whatever was taken up before has a smaller number. -/
  earlier : ∀ {c : Command α} {i : Job α} {t : Nat}, .applied c t ∈ before → c.job? = some i →
    i.number < j.number

theorem Trails.expiry (h₀ : s₀.Fresh) (h : Trails s₀ tr s) {j : Job α}
    (hran : ⟨j, some .expired⟩ ∈ ran tr) :
    ∃ k d t₀ t pre mid fin m, Expiry tr j k d t₀ t pre mid fin m := by
  obtain ⟨s₁, tr₁, rest, hl, htr, hrest, -⟩ := h.exists_leads
  rw [htr, ran_append, hrest, List.append_nil] at hran
  have hq := hl.released h₀ hran rfl
  obtain ⟨k, d, t₀, pre, mid, fin, m, t, heq, hmid, hdue⟩ := hl.expiry h₀ hq
  have hA := hl.accounts h₀
  have hrecord : tr = pre ++ .applied (.after k d j) t₀ :: mid ++
      .queued m ⟨j, some .expired⟩ t :: (fin ++ rest) := by
    rw [htr, heq]
    simp
  refine ⟨k, d, t₀, t, pre, mid, fin ++ rest, m, ⟨hrecord, ?_, hmid, hdue, ?_⟩⟩
  · refine h.sent_of_applied h₀ (t := t₀) ?_ rfl
    rw [hrecord]
    simp
  · intro c i t' hmem hi
    have hsplit : tr₁ = pre ++ .applied (.after k d j) t₀ ::
        (mid ++ .queued m ⟨j, some .expired⟩ t :: fin) := by
      rw [heq]
      simp
    exact hA.applied_lt hsplit rfl hmem hi

end PhasedGrid.Schedule
