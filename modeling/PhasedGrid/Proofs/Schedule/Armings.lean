import PhasedGrid.Proofs.Schedule.Lines

/-!
What becomes of a job that is armed. It waits in the slot of its timer; the next arming of the timer
puts it in its owner's queue as cancelled, and otherwise the report of its own sleeper does so, not
before its delay has passed.
-/

namespace PhasedGrid.Schedule

set_option autoImplicit false

variable {α : Type}

/-- A timer report is of an arming that has happened. -/
def Timers.Stamped (t : Timers (Job α)) (r : Report) : Prop :=
  ∃ slot, Table.get? r.handle t.slots = some slot ∧ r.generation ≤ slot.generation

/-- All reports, and all that are still to come, are of armings that have happened. -/
def Loop.Stamped (s : Loop α) : Prop :=
  (∀ x ∈ s.timers.sleepers, s.timers.Stamped x.report) ∧ ∀ r ∈ s.reports, s.timers.Stamped r

/-- `j` is pending on the timer `h`, and the timer's current report does not come before `due`. -/
def Loop.Waits (s : Loop α) (h : Nat) (j : Job α) (due : Nat) : Prop :=
  ∃ slot p, Table.get? h s.timers.slots = some slot ∧ slot.pending = some p ∧ p.payload = j ∧
    (∀ x ∈ s.timers.sleepers, x.report = ⟨h, slot.generation⟩ → due ≤ x.due) ∧
    (⟨h, slot.generation⟩ ∈ s.reports → due ≤ s.time)

/-- No command of the record arms the timer `h`. -/
def Untouched (h : Nat) (tr : List (Mark α)) : Prop :=
  ∀ d j time, Mark.applied (.after h d j) time ∉ tr

/-- What the record says about `j` after it was armed on `h` to run at `due`: it is still pending,
with `P` to be known of it, or it was cancelled by the next arming, or it expired before that. -/
inductive Fate (P : Prop) (h : Nat) (j : Job α) (due : Nat) : List (Mark α) → Prop
  | pending {tr : List (Mark α)} : P → Untouched h tr → Fate P h j due tr
  | cancelled {mid fin : List (Mark α)} {d : Nat} {j' : Job α} {m : String} {time : Nat} :
      Untouched h mid →
        Fate P h j due
          (mid ++ .applied (.after h d j') time :: .queued m ⟨j, some .cancelled⟩ time :: fin)
  | expired {mid fin : List (Mark α)} {m : String} {time : Nat} :
      Untouched h mid → due ≤ time →
        Fate P h j due (mid ++ .queued m ⟨j, some .expired⟩ time :: fin)

theorem Untouched.append {h : Nat} {tr ms : List (Mark α)} (htr : Untouched h tr)
    (hms : Untouched h ms) : Untouched h (tr ++ ms) := by
  intro d j time hmem
  rcases List.mem_append.mp hmem with hmem | hmem
  · exact htr d j time hmem
  · exact hms d j time hmem

theorem Fate.mono {P Q : Prop} {h due : Nat} {j : Job α} {tr : List (Mark α)} (hPQ : P → Q)
    (hf : Fate P h j due tr) : Fate Q h j due tr := by
  cases hf with
  | pending hp hu => exact .pending (hPQ hp) hu
  | cancelled hu => exact .cancelled hu
  | expired hu hd => exact .expired hu hd

section Step

variable {s s' : Loop α} {h due : Nat} {j : Job α} {ms : List (Mark α)}

/-- A change that leaves a slot alone leaves its job waiting. -/
theorem Loop.Waits.keep (hw : s.Waits h j due)
    (hslot : Table.get? h s'.timers.slots = Table.get? h s.timers.slots)
    (hsleepers : ∀ x ∈ s'.timers.sleepers, x ∈ s.timers.sleepers ∨ x.report.handle ≠ h)
    (hreports : ∀ r ∈ s'.reports,
      r ∈ s.reports ∨ ∃ x ∈ s.timers.sleepers, x.report = r ∧ x.due ≤ s.time)
    (htime : s.time ≤ s'.time) : s'.Waits h j due := by
  obtain ⟨slot, p, hknown, hp, hj, hs, hr⟩ := hw
  refine ⟨slot, p, hslot.trans hknown, hp, hj, fun x hx hrep => ?_, fun hmem => ?_⟩
  · rcases hsleepers x hx with hold | hne
    · exact hs x hold hrep
    · exact absurd (congrArg Report.handle hrep) hne
  · rcases hreports _ hmem with hold | ⟨x, hx, hrep, hdue⟩
    · exact Nat.le_trans (hr hold) htime
    · exact Nat.le_trans (Nat.le_trans (hs x hx hrep) hdue) htime

theorem Loop.Waits.congr (hw : s.Waits h j due) (ht : s'.timers = s.timers)
    (hr : s'.reports = s.reports) (htime : s'.time = s.time) : s'.Waits h j due := by
  unfold Waits
  rw [ht, hr, htime]
  exact hw

theorem Loop.Waits.other (hw : s.Waits h j due) {k : Nat} {new : Slot (Job α)} (hk : k ≠ h)
    (ht : s'.timers.slots = Table.insert k new s.timers.slots)
    (hsleepers : ∀ x ∈ s'.timers.sleepers, x ∈ s.timers.sleepers ∨ x.report.handle = k)
    (hr : ∀ r ∈ s'.reports, r ∈ s.reports) (htime : s'.time = s.time) : s'.Waits h j due := by
  refine hw.keep ?_ (fun x hx => (hsleepers x hx).imp id ?_) (fun r hx => .inl (hr r hx)) ?_
  · rw [ht, Table.get?_insert, if_neg hk]
  · rintro rfl
    exact hk
  · exact Nat.le_of_eq htime.symm

/-- How a job stops waiting: the next arming cancels it, or its time has come. -/
inductive Release (h : Nat) (j : Job α) (due : Nat) : List (Mark α) → Prop
  | cancelled (d : Nat) (j' : Job α) (m : String) (time : Nat) :
      Release h j due [.applied (.after h d j') time, .queued m ⟨j, some .cancelled⟩ time]
  | expired (m : String) (time : Nat) :
      due ≤ time → Release h j due [.queued m ⟨j, some .expired⟩ time]

theorem Loop.Waits.change (hw : s.Waits h j due) (hnew : s.OpensNew) (hc : Change s ms s') :
    (s'.Waits h j due ∧ Untouched h ms) ∨ Release h j due ms := by
  obtain ⟨slot, p, hknown, hp, rfl, -, hdue⟩ := id hw
  cases hc with
  | waited time held hle =>
    exact .inl ⟨hw.keep rfl (fun _ => .inl) (fun _ => .inl) hle, by simp [Untouched]⟩
  | reported sleepers reports hsleepers hreports =>
    exact .inl ⟨hw.keep rfl (fun x hx => .inl (hsleepers x hx)) hreports (Nat.le_refl _),
      by simp [Untouched]⟩
  | taken c rest _ _ hcj =>
    refine .inl ⟨hw.congr rfl rfl rfl, fun d j' time hmem => ?_⟩
    obtain rfl := (Mark.applied.inj (List.mem_singleton.mp hmem)).1
    cases hcj
  | allocated k owner rest hi =>
    have hk : k ≠ h := by
      rintro rfl
      rw [hnew k owner rest hi] at hknown
      cases hknown
    exact .inl ⟨hw.other hk rfl (fun _ => .inl) (fun _ => id) rfl, by simp [Untouched]⟩
  | armed k d j' rest timers _ harm =>
    obtain ⟨old, hold, hnone⟩ := Timers.arm_fresh harm
    have hk : k ≠ h := by
      rintro rfl
      obtain rfl := Option.some.inj (hknown.symm.trans hold.known)
      rw [hp] at hnone
      cases hnone
    exact .inl ⟨hw.other hk hold.slots (fun _ => hold.handle) (fun _ => id) rfl,
      by simp [Untouched, Ne.symm hk]⟩
  | rearmed k d j' rest timers owner j₀ _ harm =>
    obtain ⟨old, p₀, hold, hp₀, rfl, rfl⟩ := Timers.arm_replaced harm
    by_cases hk : k = h
    · -- The slot that is written is the one that `j` waits in, so what is handed out is `j`.
      subst hk
      obtain rfl := Option.some.inj (hknown.symm.trans hold.known)
      obtain rfl := Option.some.inj (hp.symm.trans hp₀)
      exact .inr (.cancelled d j' _ _)
    exact .inl ⟨hw.other hk hold.slots (fun _ => hold.handle) (fun _ => id) rfl,
      by simp [Untouched, Ne.symm hk]⟩
  | expired r reports timers owner j' hr hfire =>
    obtain ⟨old, p₀, hold, hgen, hp₀, rfl, rfl, rfl⟩ := Timers.fire_eq_some hfire
    by_cases hk : r.handle = h
    · -- The report is of the current arming, and such a report does not come before `due`.
      subst hk
      obtain rfl := Option.some.inj (hknown.symm.trans hold)
      obtain rfl := Option.some.inj (hp.symm.trans hp₀)
      refine .inr (.expired _ _ (hdue ?_))
      rw [hr, hgen]
      exact List.mem_cons_self
    · refine .inl ⟨hw.other hk rfl (fun _ => .inl) (fun x hx => ?_) rfl, by simp [Untouched]⟩
      rw [hr]
      exact List.mem_cons_of_mem r hx
  | refused k d j' rest hi hnone =>
    have hk : k ≠ h := by
      rintro rfl
      rw [hnone] at hknown
      cases hknown
    exact .inl ⟨hw.congr rfl rfl rfl, by simp [Untouched, Ne.symm hk]⟩
  | _ => exact .inl ⟨hw.congr rfl rfl rfl, by simp [Untouched]⟩

theorem Loop.Stamped.congr (h : s.Stamped) (ht : s'.timers = s.timers)
    (hr : s'.reports = s.reports) : s'.Stamped := by
  unfold Stamped
  rw [ht, hr]
  exact h

theorem Loop.Stamped.change (h : s.Stamped) (hnew : s.OpensNew) (hc : Change s ms s') :
    s'.Stamped := by
  have hold : ∀ r, s.timers.Stamped r → s'.timers.Stamped r := by
    rintro r ⟨slot, hslot, hle⟩
    obtain ⟨slot', hslot', hle'⟩ := (hc.slots hnew).generation hslot
    exact ⟨slot', hslot', Nat.le_trans hle hle'⟩
  have harms : ∀ {k d : Nat} {x : Job α} {slot : Slot (Job α)},
      s.timers.Rearms s.time k d x slot s'.timers → s'.reports = s.reports → s'.Stamped := by
    intro k d x slot hr hreports
    refine ⟨fun y hy => ?_, fun r hmem => hold r (h.2 r (hreports ▸ hmem))⟩
    rcases hr.sleepers y hy with hy | rfl
    · exact hold _ (h.1 y hy)
    · exact ⟨_, hr.get?_self, Nat.le_refl _⟩
  cases hc with
  | reported sleepers reports hsleepers hreports =>
    refine ⟨fun x hx => h.1 x (hsleepers x hx), fun r hr => ?_⟩
    rcases hreports r hr with hr | ⟨x, hx, rfl, -⟩
    · exact h.2 r hr
    · exact h.1 x hx
  | allocated k owner rest hi =>
    exact ⟨fun x hx => hold _ (h.1 x hx), fun r hr => hold r (h.2 r hr)⟩
  | armed k d j rest timers _ harm =>
    obtain ⟨slot, hslot, -⟩ := Timers.arm_fresh harm
    exact harms hslot rfl
  | rearmed k d j rest timers owner _ _ harm =>
    obtain ⟨slot, -, hslot, -⟩ := Timers.arm_replaced harm
    exact harms hslot rfl
  | expired r reports timers owner j hr hfire =>
    obtain ⟨slot, p, -, -, -, -, -, rfl⟩ := Timers.fire_eq_some hfire
    refine ⟨fun x hx => hold _ (h.1 x hx), fun x hx => hold x (h.2 x ?_)⟩
    rw [hr]
    exact List.mem_cons_of_mem r hx
  | _ => exact h.congr rfl rfl

/-- A job that is armed waits, and no earlier report can release it. -/
theorem Timers.Rearms.waits {k d : Nat} {slot : Slot (Job α)}
    (hr : s.timers.Rearms s.time k d j slot s'.timers) (h : s.Stamped)
    (hreports : s'.reports = s.reports) : s'.Waits k j (s.time + d) := by
  have hlate : ∀ r, s.timers.Stamped r → r ≠ ⟨k, slot.generation + 1⟩ := by
    rintro r ⟨old, hold, hle⟩ rfl
    obtain rfl := Option.some.inj (hold.symm.trans hr.known)
    exact absurd hle (Nat.not_succ_le_self _)
  refine ⟨_, _, hr.get?_self, rfl, rfl, fun x hx hrep => ?_, fun hmem => ?_⟩
  · rcases hr.sleepers x hx with hx | rfl
    · exact absurd hrep (hlate _ (h.1 x hx))
    · exact Nat.le_refl _
  · exact absurd rfl (hlate _ (h.2 _ (hreports ▸ hmem)))

end Step

/-- Every arming of the record was refused at once, or has its fate. -/
def Fated (tr : List (Mark α)) (s : Loop α) : Prop :=
  ∀ pre post h d j time, tr = pre ++ .applied (.after h d j) time :: post →
    (∃ rest, post = .seen (.refused j) :: rest) ∨
      Fate (s.Waits h j (time + d)) h j (time + d) post

section Step

variable {s s' : Loop α} {h due : Nat} {j : Job α} {tr ms : List (Mark α)}

theorem Fate.change (hf : Fate (s.Waits h j due) h j due tr) (hnew : s.OpensNew)
    (hc : Change s ms s') : Fate (s'.Waits h j due) h j due (tr ++ ms) := by
  cases hf with
  | pending hw hu =>
    rcases hw.change hnew hc with ⟨hw', hms⟩ | hrelease
    · exact .pending hw' (hu.append hms)
    · cases hrelease with
      | cancelled d j' m time => exact .cancelled hu
      | expired m time hle => exact .expired hu hle
  | cancelled hu =>
    rw [List.append_assoc]
    exact .cancelled hu
  | expired hu hle =>
    rw [List.append_assoc]
    exact .expired hu hle

theorem Fated.change (hf : Fated tr s) (hst : s.Stamped) (hnew : s.OpensNew)
    (hc : Change s ms s') : Fated (tr ++ ms) s' := by
  intro pre post h d j time heq
  rcases split_append heq with ⟨post', rfl, rfl⟩ | ⟨pre', rfl, hms⟩
  · rcases hf pre post' h d j time rfl with ⟨rest, rfl⟩ | hfate
    · exact .inl ⟨rest ++ ms, rfl⟩
    · exact .inr (hfate.change hnew hc)
  have hmem : Mark.applied (.after h d j) time ∈ ms := by
    rw [hms]
    simp
  cases hc with
  | taken c rest _ _ hcj =>
    obtain rfl := (Mark.applied.inj (List.mem_singleton.mp hmem)).1
    cases hcj
  | armed k d' j' rest timers _ harm =>
    obtain ⟨slot, hslot, -⟩ := Timers.arm_fresh harm
    obtain ⟨-, hx, rfl⟩ := split_cons hms (by simp)
    obtain ⟨⟨rfl, rfl, rfl⟩, rfl⟩ := Mark.applied.inj hx |>.imp Command.after.inj id
    exact .inr (.pending (hslot.waits hst rfl) nofun)
  | rearmed k d' j' rest timers owner old _ harm =>
    obtain ⟨slot, -, hslot, -⟩ := Timers.arm_replaced harm
    obtain ⟨-, hx, rfl⟩ := split_cons hms (by simp)
    obtain ⟨⟨rfl, rfl, rfl⟩, rfl⟩ := Mark.applied.inj hx |>.imp Command.after.inj id
    exact .inr (.pending (hslot.waits hst rfl) (by simp [Untouched]))
  | refused k d' j' rest =>
    obtain ⟨-, hx, rfl⟩ := split_cons hms (by simp)
    obtain ⟨⟨rfl, rfl, rfl⟩, rfl⟩ := Mark.applied.inj hx |>.imp Command.after.inj id
    exact .inl ⟨[], rfl⟩
  | _ => simp at hmem

end Step

end PhasedGrid.Schedule
