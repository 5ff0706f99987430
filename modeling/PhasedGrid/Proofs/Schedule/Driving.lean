import PhasedGrid.Proofs.Schedule.Runs
import PhasedGrid.Schedule.Run

/-!
A scheduler that is driven on virtual time makes a run like any other: turns do not take time, time
passes only between them, and what the driver logs is what is seen of the run.
-/

namespace PhasedGrid.Schedule

set_option autoImplicit false

variable {α : Type}

@[simp] def Mark.event? : Mark α → Option (Event α)
  | .seen e => some e
  | _ => none

/-- What is seen of a run from outside. -/
def seen (tr : List (Mark α)) : List (Event α) := tr.filterMap Mark.event?

theorem seen_append (tr ms : List (Mark α)) : seen (tr ++ ms) = seen tr ++ seen ms :=
  List.filterMap_append

theorem seen_events (events : List (Event α)) : seen (events.map .seen) = events := by
  unfold seen
  rw [List.filterMap_map]
  exact List.filterMap_some

namespace Loop

variable {s s' : Loop α} {events : List (Event α)} {log log' : Array (Event α)}

/-- What a turn does first cannot be seen from outside. -/
theorem seen_marks (s : Loop α) : seen s.marks = [] := by
  refine List.filterMap_eq_nil_iff.mpr fun x hx => ?_
  rcases mem_marks hx with ⟨c, rfl⟩ | ⟨m, task, rfl⟩ <;> rfl

section Time

theorem time_send (s : Loop α) (c : Command α) : (s.send c).time = s.time := by
  unfold send
  split <;> rfl

theorem time_issue (s : Loop α) (o : Order α) : (s.issue o).time = s.time := by
  cases o <;> exact time_send ..

theorem time_foldl_issue (s : Loop α) (os : List (Order α)) :
    (os.foldl issue s).time = s.time := by
  induction os generalizing s with
  | nil => rfl
  | cons o os ih => exact (ih (s.issue o)).trans (time_issue s o)

theorem time_runJob (s : Loop α) (job : Job α) (status : Option TimerStatus) :
    (s.runJob job status).1.time = s.time :=
  time_foldl_issue s job.follow

theorem time_worker (s : Loop α) : s.worker.1.time = s.time := by
  unfold worker
  split
  · rfl
  split
  · rfl
  rename_i task queues _
  have hrun := time_runJob { s with queues, busy := true } task.job task.status
  dsimp only
  split
  · exact (time_send ..).trans hrun
  · exact hrun

theorem time_startWorker (s : Loop α) : s.startWorker.1.time = s.time := by
  unfold startWorker
  split
  · rfl
  · exact time_worker s

theorem time_changePhase (h : s.changePhase = .ok (s', events)) : s'.time = s.time := by
  rcases changePhase_cases h with ⟨cursor, -, rfl, -⟩ | ⟨cursor, _, _, _, -, -, rfl, -⟩
  · rfl
  · exact time_startWorker { s with cursor }

theorem time_apply {c : Command α} (h : s.apply c = .ok (s', events)) : s'.time = s.time := by
  cases c with
  | register id phase =>
    unfold apply at h
    dsimp only at h
    split at h
    · exact (time_changePhase h :)
    · obtain ⟨rfl, -⟩ := Prod.mk.inj (Except.ok.inj h)
      rfl
  | after timer delay job =>
    unfold apply at h
    dsimp only at h
    split at h <;> obtain ⟨rfl, -⟩ := Prod.mk.inj (Except.ok.inj h)
    · rfl
    · exact time_startWorker _
    · rfl
  | now module job wake =>
    obtain ⟨rfl, -⟩ := Prod.mk.inj (Except.ok.inj h)
    cases wake with
    | false => rfl
    | true => exact time_startWorker _
  | post job =>
    obtain ⟨rfl, -⟩ := Prod.mk.inj (Except.ok.inj h)
    exact time_runJob s job none
  | work =>
    obtain ⟨rfl, -⟩ := Prod.mk.inj (Except.ok.inj h)
    exact time_worker s
  | _ =>
    obtain ⟨rfl, -⟩ := Prod.mk.inj (Except.ok.inj h)
    rfl

theorem time_onReport (s : Loop α) (r : Report) : (s.onReport r).1.time = s.time := by
  unfold onReport
  split
  · exact time_startWorker _
  · rfl

/-- Turns do not take time. -/
theorem time_turn (h : s.turn = .ok (some (s', events))) : s'.time = s.time := by
  obtain ⟨-, hturn⟩ := turn_cases h
  generalize s.marks = ms at hturn
  cases hturn with
  | phase _ hc => exact (time_changePhase hc :)
  | report => exact time_onReport ..
  | command _ _ _ hc => exact (time_apply hc :)
  | deserted | woken => rfl

theorem time_settleWithin {fuel : Nat} (h : s.settleWithin log fuel = .ok (s', log')) :
    s'.time = s.time := by
  induction fuel generalizing s log with
  | zero => cases h
  | succ fuel ih =>
    unfold settleWithin at h
    split at h
    · cases h
    · obtain ⟨rfl, -⟩ := Prod.mk.inj (Except.ok.inj h)
      rfl
    · rename_i ht
      exact (ih h).trans (time_turn ht)

end Time

end Loop

/-- The run from `s₀` with the record `tr` goes on to `s'`, and what is seen on the way is what the
log grows by. -/
def Continues (s₀ : Loop α) (tr : List (Mark α)) (log : Array (Event α)) (s' : Loop α)
    (log' : Array (Event α)) : Prop :=
  ∃ ms, Runs s₀ (tr ++ ms) s' ∧ log'.toList = log.toList ++ seen ms

namespace Continues

variable {s₀ s s' s'' : Loop α} {tr : List (Mark α)} {log log' log'' : Array (Event α)}

theorem refl (h : Runs s₀ tr s) (log : Array (Event α)) : Continues s₀ tr log s log :=
  ⟨[], by rwa [List.append_nil], (List.append_nil _).symm⟩

theorem trans (h : Continues s₀ tr log s' log')
    (h' : ∀ tr', Runs s₀ tr' s' → Continues s₀ tr' log' s'' log'') :
    Continues s₀ tr log s'' log'' := by
  obtain ⟨ms, hrun, hlog⟩ := h
  obtain ⟨ms', hrun', hlog'⟩ := h' _ hrun
  refine ⟨ms ++ ms', ?_, ?_⟩
  · rw [← List.append_assoc]
    exact hrun'
  · rw [hlog', hlog, seen_append, List.append_assoc]

theorem turn {events : List (Event α)} (h : Runs s₀ tr s) (ht : s.turn = .ok (some (s', events)))
    (log : Array (Event α)) : Continues s₀ tr log s' (log ++ events.toArray) := by
  refine ⟨_, h.turn ht, ?_⟩
  rw [seen_append, Loop.seen_marks, seen_events, Array.toList_append, List.nil_append]

theorem settleWithin (h : Runs s₀ tr s) {fuel : Nat}
    (hs : s.settleWithin log fuel = .ok (s', log')) : Continues s₀ tr log s' log' := by
  induction fuel generalizing s tr log with
  | zero => cases hs
  | succ fuel ih =>
    unfold Loop.settleWithin at hs
    split at hs
    · cases hs
    · obtain ⟨rfl, rfl⟩ := Prod.mk.inj (Except.ok.inj hs)
      exact refl h log
    · rename_i ht
      exact (turn h ht log).trans fun _ hrun => ih hrun hs

/-- From event to event: time moves on to the next one, and then there are turns. -/
theorem runFrom {now target : Nat} (h : Runs s₀ tr s) (hnow : s.time = now) (hle : now ≤ target)
    (hs : s.runFrom now target log = .ok (s', log')) : Continues s₀ tr log s' log' := by
  induction now, s, log using Loop.runFrom.induct target generalizing tr with
  | case1 now s log hnone =>
    rw [Loop.runFrom, hnone] at hs
    obtain ⟨rfl, rfl⟩ := Prod.mk.inj (Except.ok.inj hs)
    exact refl (h.wait target (hnow ▸ hle)) log
  | case2 now s log next hnext hlater fault hsettle =>
    rw [Loop.runFrom, hnext] at hs
    dsimp only at hs
    rw [dif_pos hlater, hsettle] at hs
    cases hs
  | case3 now s log next hnext hlater s₁ log₁ hsettle ih =>
    rw [Loop.runFrom, hnext] at hs
    dsimp only at hs
    rw [dif_pos hlater, hsettle] at hs
    have hwait : s.time ≤ next := hnow ▸ Nat.le_of_lt hlater.1
    have htime : s₁.time = next := Loop.time_settleWithin hsettle
    exact (settleWithin (h.wait next hwait) hsettle).trans fun _ hrun => ih hrun htime hlater.2 hs
  | case4 now s log next hnext hlater =>
    rw [Loop.runFrom, hnext] at hs
    dsimp only at hs
    rw [dif_neg hlater] at hs
    obtain ⟨rfl, rfl⟩ := Prod.mk.inj (Except.ok.inj hs)
    exact refl (h.wait target (hnow ▸ hle)) log

end Continues

/-- A scheduler that is driven on is still in a run, and its log says what was seen. -/
theorem Runs.advance {s₀ s s' : Loop α} {tr : List (Mark α)} {log log' : Array (Event α)} {ms : Nat}
    (h : Runs s₀ tr s) (hs : s.advance ms log = .ok (s', log')) :
    Continues s₀ tr log s' log' := by
  unfold Loop.advance at hs
  cases hsettle : s.settle log with
  | error fault =>
    rw [hsettle] at hs
    cases hs
  | ok settled =>
    rw [hsettle] at hs
    refine (Continues.settleWithin h hsettle).trans fun _ hrun => ?_
    exact Continues.runFrom hrun rfl (Nat.le_add_right _ ms) hs

end PhasedGrid.Schedule
