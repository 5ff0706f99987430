import PhasedGrid.Config.Validation
import PhasedGrid.Proofs.Schedule.Natural
import PhasedGrid.Proofs.Time.Moments

/-!
How far back a cursor dates its last alignment at the start. Two intervals ago is meant, so that the
first step aligns. Where the calendar does not reach that far there is no cursor; where an offset
does not reach that far one day stands in for it, and a first step is no alignment then.
-/

namespace PhasedGrid

set_option autoImplicit false

namespace Moment

variable {m : Moment} {o : Int}

/-- Going back from a moment after 1970, only the first second of the calendar is in the way. -/
theorem inCalendar_shift_back_iff (hm : m.Proper) (hs : 0 ≤ m.seconds) (hcal : m.inCalendar)
    (ho : 0 ≤ o) :
    (m.shift (-o)).inCalendar ↔ firstSecond * Span.perSecond ≤ m.position - o := by
  obtain ⟨hpos, hle, hback⟩ := shift_back hm ho
  generalize m.shift (-o) = earlier at hpos hle hback
  rw [inCalendar, Bool.and_eq_true, decide_eq_true_eq, decide_eq_true_eq] at hcal ⊢
  rw [← hpos]
  simp only [Plain, position, firstSecond, Span.perSecond] at hback ⊢
  constructor
  · rintro ⟨hfirst, -⟩
    omega
  · intro hfirst
    refine ⟨?_, hle.trans hcal.2⟩
    omega

end Moment

namespace Schedule.Cursor

/-- The calendar reaches back two intervals. -/
def Datable (now : Moment) (interval : Span) : Prop :=
  Moment.firstSecond * Span.perSecond ≤ now.position - (2 * interval.nanos : Nat)

instance (now : Moment) (interval : Span) : Decidable (Datable now interval) :=
  inferInstanceAs (Decidable (_ ≤ _))

section Start

variable {now : Moment} {interval : Span} {ms : Nat} {back : Int}

theorem fits_twice (h : ms < 2 ^ 64) : (Span.mk (2 * (Span.ofMillis ms).nanos)).fits := by
  apply decide_eq_true
  simp only [Span.seconds, Span.ofMillis, Span.perMilli, Span.perSecond, Nat.pow_eq]
  omega

theorem backdating_of_le (hw : ms < 2 ^ 64) (h : 2 * ms ≤ longestOffset) :
    backdating (.ofMillis ms) = .ok (2 * (Span.ofMillis ms).nanos : Nat) := by
  have hshort : 2 * (Span.ofMillis ms).nanos ≤ longestOffset * Span.perMilli := by
    unfold Span.ofMillis
    rw [← Nat.mul_assoc]
    exact Nat.mul_le_mul_right Span.perMilli h
  unfold backdating offsetOf?
  dsimp only
  rw [if_pos (fits_twice hw), if_pos hshort, Option.getD_some]

theorem backdating_of_gt (hw : ms < 2 ^ 64) (h : longestOffset < 2 * ms) :
    backdating (.ofMillis ms) = .ok (Moment.perDay : Nat) := by
  have hlong : ¬ 2 * (Span.ofMillis ms).nanos ≤ longestOffset * Span.perMilli := by
    unfold Span.ofMillis
    rw [← Nat.mul_assoc]
    exact Nat.not_le.mpr (Nat.mul_lt_mul_of_pos_right h (by decide))
  unfold backdating offsetOf?
  dsimp only
  rw [if_pos (fits_twice hw), if_neg hlong, Option.getD_none]
  rfl

/-- A cursor starts from the moment that lies back as far as it is to be dated. -/
theorem start_eq_map (hb : backdating interval = .ok back) :
    start now interval = (now.add (-back)).map fun last => ⟨0, 0, last, interval⟩ := by
  unfold start
  rw [hb]
  rfl

theorem start_of_inCalendar (hb : backdating interval = .ok back) (h : (now.shift (-back)).inCalendar) :
    start now interval = .ok ⟨0, 0, now.shift (-back), interval⟩ := by
  have hadd : now.add (-back) = .ok (now.shift (-back)) := if_pos h
  rw [start_eq_map hb, hadd]
  rfl

theorem start_of_not_inCalendar (hb : backdating interval = .ok back)
    (h : ¬ (now.shift (-back)).inCalendar) : start now interval = .error .outsideCalendar := by
  have hadd : now.add (-back) = .error .outsideCalendar := if_neg h
  rw [start_eq_map hb, hadd]
  rfl

end Start

section First

variable {now : Moment} {phases : List Span} {p : Span} {ms : Nat}

/-- What the first step of a cursor comes to that is dated back by some time. -/
theorem advance_first (interval : Span) {back : Nat} (hback : 0 < back) (hm : now.Civil)
    (hp : p ∈ phases) (hlen : 1 ≤ p.millis) :
    ∃ step next, advance ⟨0, 0, now.shift (-back), interval⟩ phases now = (some step, next) ∧
      Advancing ⟨0, 0, now.shift (-back), interval⟩ phases now step next ∧
      (2 * interval.nanos ≤ back → step.aligned = true) ∧
      (back ≤ interval.nanos → step.aligned = false) := by
  obtain ⟨step, next, hstep, hadv⟩ :=
    advance_advancing ⟨0, 0, now.shift (-back), interval⟩ hp hlen now
  obtain ⟨hle, hlt⟩ := Moment.since_shift_back hm (o := back) (by omega)
  refine ⟨step, next, hstep, hadv, fun h => ?_, fun h => ?_⟩
  · rw [hadv.due]
    apply decide_eq_true
    dsimp only
    omega
  · rw [hadv.due]
    apply decide_eq_false
    dsimp only
    omega

variable (hm : now.Civil) (hepoch : 0 ≤ now.seconds) (hcal : now.inCalendar)
include hm hepoch hcal

theorem start_undated (hdate : ¬ Datable now (.ofMillis ms)) (hw : ms < 2 ^ 64)
    (hshort : 2 * ms ≤ longestOffset) :
    start now (.ofMillis ms) = .error .outsideCalendar := by
  apply start_of_not_inCalendar (backdating_of_le hw hshort)
  rwa [Moment.inCalendar_shift_back_iff hm.proper hepoch hcal (by omega)]

/-- A moment of the calendar is less than the longest offset away from its start. -/
theorem Datable.short (h : Datable now (.ofMillis ms)) : 2 * ms ≤ longestOffset := by
  rw [Moment.inCalendar, Bool.and_eq_true, decide_eq_true_eq, decide_eq_true_eq] at hcal
  have hproper := hm.proper
  unfold longestOffset
  simp only [Datable, Moment.Proper, Moment.position, Moment.firstSecond, Moment.lastSecond,
    Span.ofMillis, Span.perMilli, Span.perSecond, Nat.pow_eq] at h hcal hproper ⊢
  omega

/-- Two intervals back, the first step aligns. -/
theorem first_aligned (hdate : Datable now (.ofMillis ms)) (hw : ms < 2 ^ 64) (hms : 1 ≤ ms)
    (hp : p ∈ phases) (hlen : 1 ≤ p.millis) :
    ∃ c q, start now (.ofMillis ms) = .ok c ∧ naturalPhase phases now.timeOfDay = some q ∧
      (c.advance phases now).1 = some ⟨q.index, .ofMillis q.remaining, true⟩ := by
  have hshort := hdate.short hm hepoch hcal
  have hin : (now.shift (-(2 * (Span.ofMillis ms).nanos : Nat))).inCalendar := by
    rwa [Moment.inCalendar_shift_back_iff hm.proper hepoch hcal (by omega)]
  have hpos : 0 < 2 * (Span.ofMillis ms).nanos := by
    simp only [Span.ofMillis, Span.perMilli]
    omega
  obtain ⟨step, next, hstep, hadv, hdue, -⟩ :=
    advance_first (.ofMillis ms) hpos hm hp hlen
  have hal := hdue (Nat.le_refl _)
  obtain ⟨q, hq, hindex, hduration⟩ := hadv.natural hal
  refine ⟨_, q, start_of_inCalendar (backdating_of_le hw hshort) hin, hq, ?_⟩
  rw [hstep, ← hindex, ← hduration, ← hal]

/-- One day back, the first step goes on in the round: the interval is longer. -/
theorem first_relative (hlong : longestOffset < 2 * ms) (hw : ms < 2 ^ 64) (hp : p ∈ phases)
    (hlen : 1 ≤ p.millis) :
    ∃ c d, start now (.ofMillis ms) = .ok c ∧ phases[1 % phases.length]? = some d ∧
      (c.advance phases now).1 = some ⟨1 % phases.length, d, false⟩ := by
  have hin : (now.shift (-Moment.perDay)).inCalendar := by
    rw [Moment.inCalendar_shift_back_iff hm.proper hepoch hcal (by omega)]
    simp only [Moment.position, Moment.firstSecond, Moment.perDay, Moment.secondsPerDay,
      Span.perSecond]
    omega
  have hday : Moment.perDay ≤ (Span.ofMillis ms).nanos := by
    unfold longestOffset at hlong
    simp only [Moment.perDay, Moment.secondsPerDay, Span.perSecond, Span.ofMillis, Span.perMilli,
      Nat.pow_eq] at hlong ⊢
    omega
  obtain ⟨step, next, hstep, hadv, -, hlate⟩ :=
    advance_first (.ofMillis ms) (show 0 < Moment.perDay by decide) hm hp hlen
  have hrel := hlate hday
  obtain ⟨hindex, hduration⟩ := hadv.relative hrel
  rw [Nat.zero_add] at hindex
  refine ⟨_, step.duration, start_of_inCalendar (backdating_of_gt hw hlong) hin, hindex ▸ hduration, ?_⟩
  rw [hstep, ← hindex, ← hrel]

end First

theorem alignment_pos {s : Config.Settings} (hs : s.validate = .ok ()) :
    1 ≤ s.schedule.alignment := by
  refine Nat.one_le_iff_ne_zero.mpr fun hzero => ?_
  unfold Config.Settings.validate at hs
  rw [if_pos hzero] at hs
  cases hs

/-- The first step of a cursor aligns exactly if the calendar reaches back two intervals. If not,
there is no cursor, or one that goes on in the round, according to whether two intervals are an
offset. -/
theorem first_aligns_iff {s : Config.Settings} {now : Moment} {phases : List Span}
    (hs : s.validate = .ok ()) (hword : s.schedule.alignment < 2 ^ 64) (hm : now.Civil)
    (hepoch : 0 ≤ now.seconds) (hcal : now.inCalendar) (hne : phases ≠ [])
    (hlen : ∀ p ∈ phases, 1 ≤ p.millis) :
    ((∃ c p, start now s.alignmentSpan = .ok c ∧ naturalPhase phases now.timeOfDay = some p ∧
        (c.advance phases now).1 = some ⟨p.index, .ofMillis p.remaining, true⟩) ↔
      Datable now s.alignmentSpan) ∧
    (¬ Datable now s.alignmentSpan → 2 * s.schedule.alignment ≤ longestOffset →
      start now s.alignmentSpan = .error .outsideCalendar) ∧
    (longestOffset < 2 * s.schedule.alignment → ∃ c d, start now s.alignmentSpan = .ok c ∧
      phases[1 % phases.length]? = some d ∧
      (c.advance phases now).1 = some ⟨1 % phases.length, d, false⟩) := by
  obtain ⟨p, hp⟩ := List.exists_mem_of_ne_nil phases hne
  have hundated hdate := start_undated hm hepoch hcal hdate hword
  have hrelative hlong := first_relative hm hepoch hcal hlong hword hp (hlen p hp)
  refine ⟨⟨?_, fun hdate => ?_⟩, hundated, hrelative⟩
  · rintro ⟨c, q, hstart, -, hstep⟩
    by_contra hdate
    rcases Nat.lt_or_ge longestOffset (2 * s.schedule.alignment) with hlong | hshort
    · obtain ⟨c', d, hstart', -, hstep'⟩ := hrelative hlong
      obtain rfl := Except.ok.inj (hstart.symm.trans hstart')
      have haligned := congrArg PhaseStep.aligned (Option.some.inj (hstep.symm.trans hstep'))
      cases haligned
    · cases hstart.symm.trans (hundated hdate hshort)
  · exact first_aligned hm hepoch hcal hdate hword (alignment_pos hs) hp (hlen p hp)

/-- Settings with another alignment interval. -/
def aligning (ms : Nat) : Config.Settings := { schedule := { alignment := ms } }

/-- In 1970 the default interval can be dated back, but not one of 160 thousand years. -/
theorem first_aligns_in_1970 :
    (∃ c p, start ⟨0, 0⟩ (aligning 10000).alignmentSpan = .ok c ∧
      naturalPhase (aligning 10000).phaseSpans (Moment.timeOfDay ⟨0, 0⟩) = some p ∧
      (c.advance (aligning 10000).phaseSpans ⟨0, 0⟩).1 =
        some ⟨p.index, .ofMillis p.remaining, true⟩) ∧
    start ⟨0, 0⟩ (aligning 5000000000000000).alignmentSpan = .error .outsideCalendar := by
  have hlen : ∀ p ∈ (aligning 10000).phaseSpans, 1 ≤ p.millis := by decide +kernel
  have hm : (Moment.mk 0 0).Civil := by decide
  have hnear := first_aligns_iff (show (aligning 10000).validate = .ok () by decide +kernel)
    (by decide) hm (by decide) (by decide) (by decide) hlen
  have hfar := first_aligns_iff
    (show (aligning 5000000000000000).validate = .ok () by decide +kernel)
    (by decide) hm (by decide) (by decide) (by decide) hlen
  exact ⟨hnear.1.mpr (by decide), hfar.2.1 (by decide) (by decide)⟩

/-- With the longest intervals the first step goes on in the round, at the beginning of a day and of
the first phase; with shorter ones there is no cursor. -/
theorem first_not_aligned :
    (aligning 9000000000000000000).validate = .ok () ∧
      (start ⟨0, 0⟩ (aligning 9000000000000000000).alignmentSpan).map
          (fun c => (c.advance (aligning 9000000000000000000).phaseSpans ⟨0, 0⟩).1) =
        .ok (some ⟨1, .ofMillis 400, false⟩) ∧
      naturalPhase (aligning 9000000000000000000).phaseSpans (Moment.timeOfDay ⟨0, 0⟩) =
        some ⟨0, 400⟩ ∧
      (aligning 5000000000000000).validate = .ok () ∧
      start ⟨0, 0⟩ (aligning 5000000000000000).alignmentSpan = .error .outsideCalendar := by
  decide +kernel

end Schedule.Cursor

end PhasedGrid
