import Mathlib.Data.Nat.Periodic
import PhasedGrid.Proofs.Schedule.Natural

/-!
The phases of a round divide the time among them. Every moment of a day belongs to exactly one phase
of a round that has a length, and over the time of one round, wherever it begins, each phase is the
natural one for as many milliseconds as it is long.
-/

namespace PhasedGrid.Schedule

set_option autoImplicit false

/-- Where a phase begins, counted from the start of the round. -/
def startOf (lengths : List Nat) (i : Nat) : Nat := (lengths.take i).sum

/-- The place `x` of the round lies in the phase with the index `i`. -/
def Spans (lengths : List Nat) (i x : Nat) : Prop :=
  i < lengths.length ∧ startOf lengths i ≤ x ∧ x < startOf lengths (i + 1)

instance (lengths : List Nat) (i x : Nat) : Decidable (Spans lengths i x) :=
  inferInstanceAs (Decidable (_ ∧ _ ∧ _))

section Places

variable {lengths : List Nat} {x i j : Nat}

theorem startOf_succ (hi : i < lengths.length) :
    startOf lengths (i + 1) = startOf lengths i + lengths[i] := by
  rw [startOf, List.take_succ_eq_append_getElem hi, List.sum_append, List.sum_singleton, startOf]

theorem startOf_le_sum (lengths : List Nat) (i : Nat) : startOf lengths i ≤ lengths.sum := by
  rw [← List.sum_take_add_sum_drop lengths i]
  exact Nat.le_add_right _ _

theorem spans_iff : Spans lengths i x ↔
    locate lengths x = some ⟨i, startOf lengths (i + 1) - x⟩ := by
  rw [locate_eq_some_iff]
  unfold Spans startOf
  omega

theorem Spans.unique (h : Spans lengths i x) (h' : Spans lengths j x) : i = j :=
  congrArg NaturalPhase.index
    (Option.some.inj ((spans_iff.mp h).symm.trans (spans_iff.mp h')))

theorem exists_spans (hx : x < lengths.sum) : ∃ i, Spans lengths i x := by
  obtain ⟨⟨i, r⟩, hp⟩ := locate_isSome hx
  obtain ⟨hi, hlow, hhigh, -⟩ := locate_eq_some_iff.mp hp
  exact ⟨i, hi, hlow, hhigh⟩

/-- In a round a phase has as many places as it is long. -/
theorem count_spans (hi : i < lengths.length) :
    Nat.count (Spans lengths i) lengths.sum = lengths[i] := by
  have hle := startOf_le_sum lengths (i + 1)
  have hplaces : (Finset.range lengths.sum).filter (Spans lengths i) =
      Finset.Ico (startOf lengths i) (startOf lengths (i + 1)) := by
    ext x
    rw [Finset.mem_filter, Finset.mem_range, Finset.mem_Ico, Spans]
    omega
  rw [Nat.count_eq_card_filter_range, hplaces, Nat.card_Ico, startOf_succ hi, Nat.add_sub_cancel_left]

end Places

section Shares

variable {lengths : List Nat} {i : Nat}

/-- A round of no length has no natural phase, and any other has one. -/
theorem naturalOfMillis_eq_none_iff (lengths : List Nat) (time : Nat) :
    naturalOfMillis lengths time = none ↔ lengths.sum = 0 := by
  constructor
  · intro hnone
    by_contra hne
    obtain ⟨p, hp⟩ := locate_isSome (Nat.mod_lt time (Nat.pos_of_ne_zero hne))
    rw [naturalOfMillis_eq hne, hp] at hnone
    cases hnone
  · intro hzero
    exact if_pos hzero

/-- After a round everything begins anew. -/
theorem naturalOfMillis_add_sum (lengths : List Nat) (time : Nat) :
    naturalOfMillis lengths (time + lengths.sum) = naturalOfMillis lengths time := by
  by_cases hne : lengths.sum = 0
  · rw [hne, Nat.add_zero]
  · rw [naturalOfMillis_eq hne, naturalOfMillis_eq hne, Nat.add_mod_right]

/-- The natural phase is the one that spans the time of day, with what is left of it. -/
theorem naturalOfMillis_of_spans {time : Nat} (h : Spans lengths i (time % lengths.sum)) :
    naturalOfMillis lengths time =
      some (.capped ⟨i, startOf lengths (i + 1) - time % lengths.sum⟩) := by
  have hne : lengths.sum ≠ 0 := by
    have hle := startOf_le_sum lengths (i + 1)
    have hlt := h.2.2
    omega
  rw [naturalOfMillis_eq hne, spans_iff.mp h, Option.map_some]

theorem index_naturalOfMillis_iff (hne : lengths.sum ≠ 0) (time : Nat) :
    (naturalOfMillis lengths time).map NaturalPhase.index = some i ↔
      Spans lengths i (time % lengths.sum) := by
  obtain ⟨j, hj⟩ := exists_spans (Nat.mod_lt time (Nat.pos_of_ne_zero hne))
  rw [naturalOfMillis_of_spans hj]
  constructor
  · intro h
    cases h
    exact hj
  · intro h
    rw [h.unique hj]
    rfl

/-- Over the time of a round, wherever it begins, a phase is the natural one for its own length. -/
theorem card_natural (first : Nat) (hi : i < lengths.length) :
    ((Finset.Ico first (first + lengths.sum)).filter fun t =>
      (naturalOfMillis lengths t).map NaturalPhase.index = some i).card = lengths[i] := by
  have hagain : Function.Periodic
      (fun t => (naturalOfMillis lengths t).map NaturalPhase.index = some i) lengths.sum := by
    intro t
    dsimp only
    rw [naturalOfMillis_add_sum]
  rw [Nat.filter_Ico_card_eq_of_periodic _ _ _ hagain, ← count_spans hi,
    Nat.count_eq_card_filter_range, Nat.count_eq_card_filter_range]
  -- It is enough to count in the first round, where the time of day is the place.
  congr 1
  apply Finset.filter_congr
  intro t ht
  have hlt : t < lengths.sum := Finset.mem_range.mp ht
  rw [index_naturalOfMillis_iff (by omega), Nat.mod_eq_of_lt hlt]

end Shares

/-- There is a natural phase unless the round has no length. It is the one phase that spans the
place of the time of day in the round, with what is left of it, which is at least a millisecond and
at most the phase. Over the time of a round, wherever it begins and whatever fractions of
milliseconds the clock shows, each phase is natural as many milliseconds as it is long. -/
theorem phases_partition_day (phases : List Span) :
    let lengths := phases.map Span.millis
    let place (time : Span) := time.millis % lengths.sum
    (∀ time, naturalPhase phases time = none ↔ lengths.sum = 0) ∧
      (∀ time, lengths.sum ≠ 0 → ∃! i, Spans lengths i (place time)) ∧
      (∀ time i, Spans lengths i (place time) → ∃ hi : i < lengths.length, ∃ left,
        naturalPhase phases time = some ⟨i, left⟩ ∧
        left = min (startOf lengths (i + 1) - place time) longestRemaining ∧
        1 ≤ left ∧ left ≤ lengths[i]) ∧
      ∀ clock : Nat → Span, (∀ t, (clock t).millis = t) →
        ∀ first i, (hi : i < lengths.length) →
          ((Finset.Ico first (first + lengths.sum)).filter fun t =>
            (naturalPhase phases (clock t)).map NaturalPhase.index = some i).card =
              lengths[i] := by
  intro lengths place
  refine ⟨fun time => naturalOfMillis_eq_none_iff lengths time.millis, fun time hne => ?_,
    fun time i hspans => ?_, fun clock hclock first i hi => ?_⟩
  · obtain ⟨i, hi⟩ := exists_spans (Nat.mod_lt time.millis (Nat.pos_of_ne_zero hne))
    exact ⟨i, hi, fun j hj => hj.unique hi⟩
  · obtain ⟨hi, hlow, hhigh⟩ := hspans
    refine ⟨hi, _, naturalOfMillis_of_spans ⟨hi, hlow, hhigh⟩, rfl, ?_, ?_⟩
    · have hword : 1 ≤ longestRemaining := by decide
      exact Nat.le_min.mpr ⟨Nat.sub_pos_of_lt hhigh, hword⟩
    · have hend := startOf_succ hi
      have hleft : startOf lengths (i + 1) - place time ≤ lengths[i] := by omega
      exact Nat.le_trans (Nat.min_le_left _ _) hleft
  · simp only [naturalPhase, hclock]
    exact card_natural first hi

/-- The second of three phases has no whole millisecond. -/
def lopsided : List Span := [.ofMillis 100, ⟨400000⟩, ⟨200700000⟩]

/-- Where the first phase ends the third one begins, and the second one is never natural. -/
theorem lopsided_partition :
    lopsided.map Span.millis = [100, 0, 200] ∧
      Spans [100, 0, 200] 2 (1000 % 300) ∧
      naturalPhase lopsided ⟨1000300000⟩ = some ⟨2, 200⟩ ∧
      (∀ t, (Span.ofMillis t).millis = t) ∧
      ((Finset.Ico 50 350).filter fun t =>
        (naturalPhase lopsided (.ofMillis t)).map NaturalPhase.index = some 1).card = 0 ∧
      ((Finset.Ico 50 350).filter fun t =>
        (naturalPhase lopsided (.ofMillis t)).map NaturalPhase.index = some 2).card = 200 := by
  obtain ⟨-, -, hnatural, hshare⟩ := phases_partition_day lopsided
  have hplace : Spans [100, 0, 200] 2 (1000 % 300) := by decide
  obtain ⟨-, left, hphase, hleft, -⟩ := hnatural ⟨1000300000⟩ 2 hplace
  have h200 : left = 200 := hleft.trans (by decide)
  have hshares := hshare Span.ofMillis Span.millis_ofMillis 50
  exact ⟨by decide, hplace, by rw [hphase, h200], Span.millis_ofMillis,
    hshares 1 (by decide), hshares 2 (by decide)⟩

end PhasedGrid.Schedule
