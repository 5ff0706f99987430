import Mathlib.Algebra.BigOperators.Intervals
import Mathlib.Algebra.Order.BigOperators.Group.Finset
import Mathlib.Data.Nat.Cast.Basic
import PhasedGrid.Proofs.Schedule.Natural
import PhasedGrid.Proofs.Time.Moments

/-!
The cursor on its way through a day. It steps at the end of each phase, more or less late. Between
two alignments it makes its round from one phase to the next and never looks at the time of day;
that it keeps to the natural phases all the same, up to the time it is late, is an invariant of the
walk: the time spent in phases since the last alignment leads from one end of a natural phase to
the next.
-/

namespace PhasedGrid.Schedule

set_option autoImplicit false

open Moment (millisOfDay)

/-- A step of the cursor: when it is made, what comes of it, and the cursor afterwards. -/
structure Leg where
  time : Moment
  step : Option PhaseStep
  cursor : Cursor

namespace Leg

def aligned (l : Leg) : Bool := l.step.any PhaseStep.aligned

def duration (l : Leg) : Span := (l.step.map PhaseStep.duration).getD .zero

variable {l : Leg} {s : PhaseStep}

theorem aligned_of_step (h : l.step = some s) : l.aligned = s.aligned := by
  rw [aligned, h, Option.any_some]

theorem duration_of_step (h : l.step = some s) : l.duration = s.duration := by
  rw [duration, h, Option.map_some, Option.getD_some]

end Leg

namespace Cursor

def leg (c : Cursor) (phases : List Span) (now : Moment) : Leg :=
  ⟨now, (c.advance phases now).1, (c.advance phases now).2⟩

/-- The steps from `now` on, each made as soon as the phase of the step before is over, or so many
milliseconds later. -/
def walk (c : Cursor) (phases : List Span) (now : Moment) (late : Nat → Nat) : Nat → Leg
  | 0 => c.leg phases now
  | k + 1 =>
    let l := c.walk phases now late k
    l.cursor.leg phases (l.time.shift (l.duration.nanos + (Span.ofMillis (late k)).nanos))

/-- The cursor that makes the `k`-th step. -/
def walker (c : Cursor) (phases : List Span) (now : Moment) (late : Nat → Nat) : Nat → Cursor
  | 0 => c
  | k + 1 => (c.walk phases now late k).cursor

end Cursor

/-- The last alignment of a walk before or at the `k`-th step is the `a`-th step. -/
structure LastAligned (w : Nat → Leg) (a k : Nat) : Prop where
  le : a ≤ k
  aligned : (w a).aligned
  since : ∀ i, a < i → i ≤ k → (w i).aligned = false

theorem exists_lastAligned {w : Nat → Leg} (h : (w 0).aligned) (k : Nat) :
    ∃ a, LastAligned w a k := by
  induction k with
  | zero => exact ⟨0, Nat.le_refl 0, h, fun i hi hi' => absurd hi (Nat.not_lt.mpr hi')⟩
  | succ k ih =>
    by_cases hk : (w (k + 1)).aligned
    · exact ⟨k + 1, Nat.le_refl _, hk, fun i hi hi' => absurd hi (Nat.not_lt.mpr hi')⟩
    · obtain ⟨a, ha⟩ := ih
      refine ⟨a, Nat.le_succ_of_le ha.le, ha.aligned, fun i hi hi' => ?_⟩
      rcases Nat.lt_or_eq_of_le hi' with hlt | rfl
      · exact ha.since i hi (Nat.le_of_lt_succ hlt)
      · exact Bool.eq_false_iff.mpr hk

theorem LastAligned.prev {w : Nat → Leg} {a k : Nat} (h : LastAligned w a (k + 1)) (hk : a ≤ k) :
    LastAligned w a k :=
  ⟨hk, h.aligned, fun i hi hi' => h.since i hi (Nat.le_succ_of_le hi')⟩

namespace Cursor

variable {phases : List Span} {p : Span} {c : Cursor} {now : Moment} {late : Nat → Nat} {a k : Nat}

section Steps

variable (hp : p ∈ phases) (hlen : 1 ≤ p.millis)
include hp hlen

theorem walk_advancing (c : Cursor) (now : Moment) (late : Nat → Nat) (k : Nat) :
    ∃ s, (c.walk phases now late k).step = some s ∧
      Advancing (c.walker phases now late k) phases (c.walk phases now late k).time s
        (c.walk phases now late k).cursor := by
  have hleg : ∀ (d : Cursor) (t : Moment), ∃ s, (d.leg phases t).step = some s ∧
      Advancing d phases t s (d.leg phases t).cursor := by
    intro d t
    obtain ⟨s, next, hadv, h⟩ := d.advance_advancing hp hlen t
    refine ⟨s, ?_, ?_⟩ <;> rw [leg, hadv]
    exact h
  cases k with
  | zero => exact hleg c now
  | succ k => exact hleg _ _

theorem walker_interval (c : Cursor) (now : Moment) (late : Nat → Nat) (k : Nat) :
    (c.walker phases now late k).interval = c.interval := by
  induction k with
  | zero => rfl
  | succ k ih =>
    obtain ⟨s, -, h⟩ := walk_advancing hp hlen c now late k
    exact h.interval.trans ih

theorem walk_lastAlignment (h : LastAligned (c.walk phases now late) a k) :
    (c.walk phases now late k).cursor.lastAlignment = (c.walk phases now late a).time := by
  have hle := h.le
  induction k, hle using Nat.le_induction with
  | base =>
    obtain ⟨s, hs, hadv⟩ := walk_advancing hp hlen c now late a
    have ha := (Leg.aligned_of_step hs).symm.trans h.aligned
    rw [hadv.lastAlignment, if_pos ha]
  | succ k hk ih =>
    obtain ⟨s, hs, hadv⟩ := walk_advancing hp hlen c now late (k + 1)
    have ha := h.since (k + 1) (Nat.lt_succ_of_le hk) (Nat.le_refl _)
    rw [Leg.aligned_of_step hs] at ha
    rw [hadv.lastAlignment, if_neg (Bool.eq_false_iff.mp ha)]
    exact ih (h.prev hk)

end Steps

theorem walk_succ_time (c : Cursor) (phases : List Span) (now : Moment) (late : Nat → Nat)
    (k : Nat) : (c.walk phases now late (k + 1)).time = (c.walk phases now late k).time.shift
      ((c.walk phases now late k).duration.nanos + (Span.ofMillis (late k)).nanos) := rfl

theorem walk_proper (c : Cursor) (phases : List Span) (late : Nat → Nat) (h : now.Proper)
    (k : Nat) : (c.walk phases now late k).time.Proper := by
  induction k with
  | zero => exact h
  | succ k ih => exact Moment.shift_proper ih (by omega)

theorem walk_plain (c : Cursor) (phases : List Span) (late : Nat → Nat) (h : now.Plain) (k : Nat) :
    (c.walk phases now late k).time.Plain := by
  induction k with
  | zero => exact h
  | succ k ih => exact (Moment.shift_plain ih _).1

end Cursor

namespace Cursor

variable {lengths : List Nat} {c : Cursor} {now : Moment} {late : Nat → Nat} {a k : Nat}

section Round

variable (hne : lengths ≠ []) (hpos : ∀ l ∈ lengths, 1 ≤ l)
include hne hpos

theorem exists_phase : ∃ p ∈ lengths.map Span.ofMillis, 1 ≤ p.millis := by
  obtain ⟨l, hl⟩ := List.exists_mem_of_ne_nil lengths hne
  refine ⟨.ofMillis l, List.mem_map_of_mem hl, ?_⟩
  rw [Span.millis_ofMillis]
  exact hpos l hl

/-- A phase that a walk is in for its full length is one of the round. -/
theorem walk_relative (h : (c.walk (lengths.map .ofMillis) now late k).aligned = false) :
    ∃ s l, (c.walk (lengths.map .ofMillis) now late k).step = some s ∧
      s.index = ((c.walker (lengths.map .ofMillis) now late k).index + 1) % lengths.length ∧
      lengths[s.index]? = some l ∧ s.duration = .ofMillis l := by
  obtain ⟨p, hp, hlen⟩ := exists_phase hne hpos
  obtain ⟨s, hs, hadv⟩ := walk_advancing hp hlen c now late k
  rw [Leg.aligned_of_step hs] at h
  obtain ⟨hi, hd⟩ := hadv.relative h
  rw [List.length_map] at hi
  rw [List.getElem?_map] at hd
  obtain ⟨l, hl, hd⟩ := Option.map_eq_some_iff.mp hd
  exact ⟨s, l, hs, hi, hl, hd.symm⟩

theorem walk_duration (c : Cursor) (now : Moment) (late : Nat → Nat) (k : Nat) :
    (c.walk (lengths.map .ofMillis) now late k).duration =
      .ofMillis (c.walk (lengths.map .ofMillis) now late k).duration.millis := by
  obtain ⟨p, hp, hlen⟩ := exists_phase hne hpos
  obtain ⟨s, hs, hadv⟩ := walk_advancing hp hlen c now late k
  have hwhole : ∃ n, s.duration = .ofMillis n := by
    cases ha : s.aligned with
    | true =>
      obtain ⟨p, -, -, hd⟩ := hadv.natural ha
      exact ⟨_, hd⟩
    | false =>
      obtain ⟨r, l, hr, -, -, hd⟩ := walk_relative hne hpos ((Leg.aligned_of_step hs).trans ha)
      rw [hs] at hr
      exact ⟨l, Option.some.inj hr ▸ hd⟩
  obtain ⟨n, hn⟩ := hwhole
  rw [Leg.duration_of_step hs, hn, Span.millis_ofMillis]

/-- From an earlier step to a later one the time in phases and the time late add up. -/
theorem walk_time (c : Cursor) (late : Nat → Nat) (h : now.Proper) (hak : a ≤ k) :
    (c.walk (lengths.map .ofMillis) now late k).time =
      (c.walk (lengths.map .ofMillis) now late a).time.shift (Span.ofMillis
        (∑ i ∈ Finset.Ico a k, (c.walk (lengths.map .ofMillis) now late i).duration.millis +
          ∑ i ∈ Finset.Ico a k, late i)).nanos := by
  have ha := walk_proper c (lengths.map .ofMillis) late h a
  induction k, hak using Nat.le_induction with
  | base =>
    rw [Finset.Ico_self, Finset.sum_empty, Finset.sum_empty]
    exact (Moment.shift_zero ha).symm
  | succ k hk ih =>
    have hadd : ∀ x y d e : Nat, ((Span.ofMillis (x + d + (y + e))).nanos : Int) =
        (Span.ofMillis (x + y)).nanos + ((Span.ofMillis d).nanos + (Span.ofMillis e).nanos) := by
      intro x y d e
      simp only [Span.ofMillis, Nat.add_mul]
      omega
    rw [Finset.sum_Ico_succ_top hk, Finset.sum_Ico_succ_top hk, walk_succ_time, ih,
      Moment.shift_shift ha (by omega) (by omega), hadd, ← walk_duration hne hpos c now late k]

/-- The span between two moments of a walk, measured within one day. -/
theorem walk_since (ht : now.Proper) (hak : a ≤ k)
    (hday : (c.walk (lengths.map .ofMillis) now late k).time.day =
      (c.walk (lengths.map .ofMillis) now late a).time.day) :
    (c.walk (lengths.map .ofMillis) now late k).time.since
        (c.walk (lengths.map .ofMillis) now late a).time = (Span.ofMillis
      (∑ i ∈ Finset.Ico a k, (c.walk (lengths.map .ofMillis) now late i).duration.millis +
        ∑ i ∈ Finset.Ico a k, late i)).nanos := by
  have ha := walk_proper c (lengths.map .ofMillis) late ht a
  have htime := walk_time hne hpos c late ht hak
  have hsince := Moment.since_shift ha (Int.le_refl 0) (p := (Span.ofMillis
    (∑ i ∈ Finset.Ico a k, (c.walk (lengths.map .ofMillis) now late i).duration.millis +
      ∑ i ∈ Finset.Ico a k, late i)).nanos) (by omega) ?_
  · rw [Moment.shift_zero ha, ← htime, Int.sub_zero] at hsince
    exact hsince
  · rw [Moment.shift_zero ha, ← htime]
    exact hday

/-- Every step after an alignment is as long as some phase. -/
theorem walk_low (h : LastAligned (c.walk (lengths.map .ofMillis) now late) a k) {q : Nat}
    (hq : ∀ l ∈ lengths, q ≤ l) : (k - a - 1) * q ≤
      ∑ i ∈ Finset.Ico a k, (c.walk (lengths.map .ofMillis) now late i).duration.millis := by
  have hcard := Finset.card_nsmul_le_sum (Finset.Ico (a + 1) k)
    (fun i => (c.walk (lengths.map .ofMillis) now late i).duration.millis) q ?_
  · rw [Nat.card_Ico, nsmul_eq_mul, Nat.cast_id] at hcard
    have hsub := Finset.sum_le_sum_of_subset
      (f := fun i => (c.walk (lengths.map .ofMillis) now late i).duration.millis)
      (Finset.Ico_subset_Ico_left (Nat.le_succ a) : Finset.Ico (a + 1) k ⊆ Finset.Ico a k)
    rw [Nat.sub_sub]
    exact Nat.le_trans hcard hsub
  · intro i hi
    obtain ⟨hai, hik⟩ := Finset.mem_Ico.mp hi
    obtain ⟨s, l, hs, -, hl, hd⟩ := walk_relative hne hpos (h.since i hai (Nat.le_of_lt hik))
    rw [Leg.duration_of_step hs, hd, Span.millis_ofMillis]
    exact hq l (List.mem_of_getElem? hl)

/-- Between two alignments there are no more steps than the shortest phase fits into the
interval. -/
theorem walk_bound (ht : now.Proper)
    (h : LastAligned (c.walk (lengths.map .ofMillis) now late) a k) (hak : a < k)
    (hday : (c.walk (lengths.map .ofMillis) now late k).time.day =
      (c.walk (lengths.map .ofMillis) now late a).time.day) {q : Nat} (hq : ∀ l ∈ lengths, q ≤ l) :
    (k - a - 1) * (Span.ofMillis q).nanos ≤ c.interval.nanos := by
  obtain ⟨p, hp, hlen⟩ := exists_phase hne hpos
  have hsince := walk_since hne hpos ht (Nat.le_of_lt hak) hday
  obtain ⟨j, rfl⟩ : ∃ j, k = j + 1 := ⟨k - 1, by omega⟩
  have hprev := h.prev (Nat.le_of_lt_succ hak)
  obtain ⟨s, hs, hadv⟩ := walk_advancing hp hlen c now late (j + 1)
  have hdue := hadv.due.symm.trans ((Leg.aligned_of_step hs).symm.trans
    (h.since (j + 1) hak (Nat.le_refl _)))
  have hlast : (c.walker (lengths.map .ofMillis) now late (j + 1)).lastAlignment =
      (c.walk (lengths.map .ofMillis) now late a).time := walk_lastAlignment hp hlen hprev
  rw [alignmentDue, decide_eq_false_iff_not, hlast, hsince, walker_interval hp hlen,
    Int.toNat_natCast] at hdue
  have hlow := walk_low hne hpos h hq
  calc (j + 1 - a - 1) * (Span.ofMillis q).nanos
      = (Span.ofMillis ((j + 1 - a - 1) * q)).nanos := (Nat.mul_assoc ..).symm
    _ ≤ (Span.ofMillis
        (∑ i ∈ Finset.Ico a (j + 1), (c.walk (lengths.map .ofMillis) now late i).duration.millis +
          ∑ i ∈ Finset.Ico a (j + 1), late i)).nanos :=
      Nat.mul_le_mul_right _ (Nat.le_add_right_of_le hlow)
    _ ≤ c.interval.nanos := Nat.not_lt.mp hdue

/-- The walk leads from one end of a natural phase to the next, when the time late is taken off. -/
theorem walk_locate (ht : now.Plain)
    (h : LastAligned (c.walk (lengths.map .ofMillis) now late) a k)
    (hday : ∀ i, a ≤ i → i ≤ k → (c.walk (lengths.map .ofMillis) now late i).time.day =
      (c.walk (lengths.map .ofMillis) now late a).time.day) :
    ∃ s r, (c.walk (lengths.map .ofMillis) now late k).step = some s ∧
      locate lengths (((c.walk (lengths.map .ofMillis) now late a).time.millisOfDay +
        ∑ i ∈ Finset.Ico a k, (c.walk (lengths.map .ofMillis) now late i).duration.millis) %
          lengths.sum) = some ⟨s.index, r⟩ ∧
      s.duration.millis = if a = k then min r longestRemaining else r := by
  obtain ⟨p, hp, hlen⟩ := exists_phase hne hpos
  have hsum : lengths.sum ≠ 0 := by
    obtain ⟨l, hl⟩ := List.exists_mem_of_ne_nil lengths hne
    exact sum_ne_zero hl (hpos l hl)
  have hplain := walk_plain c (lengths.map .ofMillis) late ht a
  have hle := h.le
  induction k, hle using Nat.le_induction with
  | base =>
    obtain ⟨s, hs, hadv⟩ := walk_advancing hp hlen c now late a
    obtain ⟨q, hq, hi, hd⟩ := hadv.natural ((Leg.aligned_of_step hs).symm.trans h.aligned)
    rw [Moment.timeOfDay_plain hplain, naturalPhase_eq hsum] at hq
    obtain ⟨⟨i, r⟩, hr, rfl⟩ := Option.map_eq_some_iff.mp hq
    refine ⟨s, r, hs, ?_, ?_⟩
    · rw [Finset.Ico_self, Finset.sum_empty, Nat.add_zero, hr, hi]
      rfl
    · rw [hd, Span.millis_ofMillis, if_pos rfl]
      rfl
  | succ k hk ih =>
    obtain ⟨s, r, hs, hloc, hd⟩ := ih (h.prev hk) fun i hi hi' => hday i hi (Nat.le_succ_of_le hi')
    obtain ⟨s', l, hs', hi', hl, hd'⟩ :=
      walk_relative hne hpos (h.since (k + 1) (Nat.lt_succ_of_le hk) (Nat.le_refl _))
    -- the day is not long enough for a remaining time that was cut off
    have hshort : s.duration.millis = r := by
      have hend := hday (k + 1) (Nat.le_succ_of_le hk) (Nat.le_refl _)
      have htime := walk_time hne hpos c late ht.proper (Nat.le_succ_of_le hk)
      rw [htime] at hend
      have hlate := Moment.millisOfDay_lt (c.walk (lengths.map .ofMillis) now late (k + 1)).time
      rw [htime, Moment.millisOfDay_shift hplain hend, Finset.sum_Ico_succ_top hk,
        Leg.duration_of_step hs] at hlate
      have hcap : 86400000 < longestRemaining := by decide
      split at hd <;> omega
    rw [← hshort] at hloc
    obtain ⟨hlt, hnext⟩ := locate_next hpos hloc
    have hindex : (c.walker (lengths.map .ofMillis) now late (k + 1)).index = s.index := by
      obtain ⟨u, hu, hadv⟩ := walk_advancing hp hlen c now late k
      rw [hs] at hu
      obtain rfl := Option.some.inj hu
      exact hadv.index
    rw [hindex] at hi'
    refine ⟨s', l, hs', ?_, ?_⟩
    · rw [Finset.sum_Ico_succ_top hk, Leg.duration_of_step hs, ← Nat.add_assoc, hnext]
      rw [hi', List.getElem?_eq_getElem hlt] at hl
      rw [Option.some.inj hl, hi']
    · rw [hd', Span.millis_ofMillis, if_neg (by omega)]

theorem walk_natural (ht : now.Plain)
    (h : LastAligned (c.walk (lengths.map .ofMillis) now late) a k)
    (hday : ∀ i, a ≤ i → i ≤ k → (c.walk (lengths.map .ofMillis) now late i).time.day =
      (c.walk (lengths.map .ofMillis) now late a).time.day) {s : PhaseStep}
    (hs : (c.walk (lengths.map .ofMillis) now late k).step = some s) :
    naturalPhase (lengths.map .ofMillis) ((c.walk (lengths.map .ofMillis) now late k).time.shift
        (-(Span.ofMillis (∑ i ∈ Finset.Ico a k, late i)).nanos)).timeOfDay =
      some ⟨s.index, min s.duration.millis longestRemaining⟩ := by
  obtain ⟨l, hl⟩ := List.exists_mem_of_ne_nil lengths hne
  have hsum : lengths.sum ≠ 0 := sum_ne_zero hl (hpos l hl)
  have ha := walk_plain c (lengths.map .ofMillis) late ht a
  have htime := walk_time hne hpos c late ht.proper h.le
  have hend := hday k h.le (Nat.le_refl k)
  obtain ⟨u, r, hu, hloc, hd⟩ := walk_locate hne hpos ht h hday
  rw [hs] at hu
  obtain rfl := Option.some.inj hu
  generalize hS : ∑ i ∈ Finset.Ico a k,
    (c.walk (lengths.map .ofMillis) now late i).duration.millis = S at htime hloc
  generalize ∑ i ∈ Finset.Ico a k, late i = L at htime ⊢
  generalize (c.walk (lengths.map .ofMillis) now late a).time = t at htime hend ha hloc
  rw [htime] at hend
  have hadd : ((Span.ofMillis (S + L)).nanos : Int) =
      (Span.ofMillis S).nanos + (Span.ofMillis L).nanos := by
    simp only [Span.ofMillis, Nat.add_mul]
    omega
  have hback : (t.shift (Span.ofMillis (S + L)).nanos).shift (-(Span.ofMillis L).nanos) =
      t.shift (Span.ofMillis S).nanos := by
    obtain ⟨h1, e1⟩ := Moment.shift_plain ha (Span.ofMillis (S + L)).nanos
    obtain ⟨h2, e2⟩ := Moment.shift_plain h1 (-(Span.ofMillis L).nanos)
    obtain ⟨h3, e3⟩ := Moment.shift_plain ha (Span.ofMillis S).nanos
    exact h2.eq_of_position h3 (by omega)
  have hdayS := Moment.day_shift_of_le ha (o := (Span.ofMillis S).nanos) (by omega) (by omega) hend
  have hcap : min s.duration.millis longestRemaining = min r longestRemaining := by
    split at hd <;> omega
  rw [htime, hback, Moment.timeOfDay_plain (Moment.shift_plain ha _).1,
    Moment.millisOfDay_shift ha hdayS, naturalPhase_eq hsum, hloc, Option.map_some, hcap]
  rfl

end Round

/-- On one day the cursor keeps to the natural phases. An aligned step is the natural phase of its
own time. Any other step is the natural phase of the time at which it would have been made had no
step since the last alignment been late, with the full length of that phase; a leap second has no
time of its own, so the walk must not begin in one. There are no more such steps than the shortest
phase fits into the alignment interval, and one. -/
theorem walk_keeps_natural {phases : List Span} (hphases : phases = lengths.map .ofMillis)
    (hne : lengths ≠ []) (hpos : ∀ l ∈ lengths, 1 ≤ l) (ht : now.Proper) {w : Nat → Leg}
    (hw : w = c.walk phases now late) (h0 : (w 0).aligned) {n : Nat}
    (hday : ∀ k ≤ n, (w k).time.day = now.day) (hk : k ≤ n) :
    ∃ s, (w k).step = some s ∧
      (s.aligned → ∃ p, naturalPhase phases (w k).time.timeOfDay = some p ∧
        s.index = p.index ∧ s.duration = .ofMillis p.remaining) ∧
      (s.aligned = false → ∃ a, a < k ∧ LastAligned w a k ∧
        phases[s.index]? = some s.duration ∧
        (now.Plain → naturalPhase phases ((w k).time.shift
            (-(Span.ofMillis (∑ i ∈ Finset.Ico a k, late i)).nanos)).timeOfDay =
          some ⟨s.index, min s.duration.millis longestRemaining⟩) ∧
        ∀ q ∈ phases, (∀ p ∈ phases, q.nanos ≤ p.nanos) →
          k - a ≤ 1 + c.interval.nanos / q.nanos) ∧
      ((∀ i, i < k → late i = 0) → now.Plain →
        naturalPhase phases (w k).time.timeOfDay =
          some ⟨s.index, min s.duration.millis longestRemaining⟩) := by
  subst hphases hw
  obtain ⟨p, hp, hlen⟩ := exists_phase hne hpos
  obtain ⟨s, hs, hadv⟩ := walk_advancing hp hlen c now late k
  obtain ⟨a, ha⟩ := exists_lastAligned h0 k
  have hsame : ∀ i, a ≤ i → i ≤ k → (c.walk (lengths.map .ofMillis) now late i).time.day =
      (c.walk (lengths.map .ofMillis) now late a).time.day := fun i _ hi' =>
    (hday i (Nat.le_trans hi' hk)).trans (hday a (Nat.le_trans ha.le hk)).symm
  refine ⟨s, hs, hadv.natural, fun hrel => ?_, fun hlate hplain => ?_⟩
  · have hak : a < k := by
      refine Nat.lt_of_le_of_ne ha.le ?_
      rintro rfl
      have halign := (Leg.aligned_of_step hs).symm.trans ha.aligned
      rw [hrel] at halign
      cases halign
    refine ⟨a, hak, ha, (hadv.relative hrel).2, fun hplain => ?_, fun q hq hmin => ?_⟩
    · exact walk_natural hne hpos hplain ha hsame hs
    · obtain ⟨l, hl, rfl⟩ := List.mem_map.mp hq
      have hl0 : 0 < (Span.ofMillis l).nanos := Nat.mul_pos (hpos l hl) (by decide)
      have hbound := walk_bound hne hpos ht ha hak (hsame k ha.le (Nat.le_refl k)) fun l' hl' =>
        Nat.le_of_mul_le_mul_right (hmin _ (List.mem_map_of_mem hl')) (by decide)
      have hfit := (Nat.le_div_iff_mul_le hl0).mpr hbound
      omega
  · have hnat := walk_natural hne hpos hplain ha hsame hs
    have hzero : ∑ i ∈ Finset.Ico a k, late i = 0 := Finset.sum_eq_zero fun i hi =>
      hlate i (Finset.mem_Ico.mp hi).2
    have hshift : (-((Span.ofMillis 0).nanos : Int)) = 0 := by decide
    rw [hzero, hshift, Moment.shift_zero (walk_proper _ _ _ ht k)] at hnat
    exact hnat

/-- From noon on, in a round of three phases: the second step is made 7 ms late, and the third one
begins the round 7 ms too late. -/
theorem walk_keeps_natural_at_noon :
    let w := (⟨0, 0, ⟨1717243199, 0⟩, .ofMillis 500⟩ : Cursor).walk ([100, 200, 50].map .ofMillis)
      ⟨1717243200, 30000000⟩ fun i => if i = 0 then 7 else 0
    (w 2).step = some ⟨0, .ofMillis 100, false⟩ ∧ ∃ a, LastAligned w a 2 ∧
      naturalPhase ([100, 200, 50].map .ofMillis) ((w 2).time.shift (-(Span.ofMillis
        (∑ i ∈ Finset.Ico a 2, if i = 0 then 7 else 0)).nanos)).timeOfDay = some ⟨0, 100⟩ := by
  intro w
  have hstep : (w 2).step = some ⟨0, .ofMillis 100, false⟩ := by decide +kernel
  have hplain : Moment.Plain ⟨1717243200, 30000000⟩ := by decide
  have haligned : (w 0).aligned := by decide +kernel
  have hday : ∀ k ≤ 2, (w k).time.day = Moment.day ⟨1717243200, 30000000⟩ := by decide +kernel
  obtain ⟨s, hs, -, hrel, -⟩ := walk_keeps_natural rfl (by decide) (by decide) hplain.proper
    (w := w) rfl haligned hday (Nat.le_refl 2)
  obtain rfl := Option.some.inj (hstep.symm.trans hs)
  obtain ⟨a, -, ha, -, hnat, -⟩ := hrel rfl
  exact ⟨hstep, a, ha, hnat hplain⟩

/-- The two ways off the natural phase: the time of day stands still in a leap second, while the
round goes on, and the remaining time of a natural phase ends at what 64 bits hold, while the step
takes the whole phase. -/
theorem walk_off_natural :
    (let w := (⟨0, 0, ⟨1483228780, 500000000⟩, .ofSeconds 10 0⟩ : Cursor).walk
      ([1, 1].map .ofMillis) ⟨1483228799, 1500000000⟩ fun _ => 0
    (w 0).aligned ∧ (w 1).time.day = (w 0).time.day ∧
      (w 1).step = some ⟨0, .ofMillis 1, false⟩ ∧
      naturalPhase ([1, 1].map .ofMillis) (w 1).time.timeOfDay = some ⟨1, 1⟩) ∧
    let w := (⟨0, 0, ⟨1717199980, 0⟩, .ofSeconds 10 0⟩ : Cursor).walk
      ([1, 18446744073709551616].map .ofMillis) ⟨1717200000, 0⟩ fun _ => 0
    (w 0).aligned ∧ (w 1).time.day = (w 0).time.day ∧
      (w 1).step = some ⟨1, .ofMillis 18446744073709551616, false⟩ ∧
      naturalPhase ([1, 18446744073709551616].map .ofMillis) (w 1).time.timeOfDay =
        some ⟨1, 18446744073709551615⟩ := by
  constructor
  · decide +kernel
  · decide +kernel

end Cursor

end PhasedGrid.Schedule
