import Mathlib.Algebra.Order.BigOperators.Group.List
import Mathlib.Algebra.Order.Group.Nat
import Mathlib.Algebra.Ring.Nat
import PhasedGrid.Schedule.Cursor

/-!
The natural phase as a place in the round, and what a step of the cursor comes to. Where one
natural phase ends, the next one of the round begins with its full length.
-/

namespace PhasedGrid.Schedule

set_option autoImplicit false

section Locate

variable {lengths : List Nat} {x i r : Nat}

/-- The phase at a place of the round is the one that begins before it and ends after it. -/
theorem locate_eq_some_iff : locate lengths x = some ⟨i, r⟩ ↔
    i < lengths.length ∧ (lengths.take i).sum ≤ x ∧ x < (lengths.take (i + 1)).sum ∧
      x + r = (lengths.take (i + 1)).sum := by
  induction lengths generalizing x i with
  | nil => simp [locate]
  | cons len rest ih =>
    unfold locate
    by_cases hx : x < len
    · rw [if_pos hx]
      cases i with
      | zero =>
        simp only [Option.some.injEq, NaturalPhase.mk.injEq, true_and, List.take_zero,
          List.take_succ_cons, List.sum_cons, List.sum_nil, List.length_cons]
        omega
      | succ j =>
        simp only [Option.some.injEq, NaturalPhase.mk.injEq, List.take_succ_cons, List.sum_cons]
        omega
    · rw [if_neg hx]
      cases i with
      | zero =>
        simp only [List.take_succ_cons, List.take_zero, List.sum_cons, List.sum_nil]
        constructor
        · intro h
          obtain ⟨p, -, hp⟩ := Option.map_eq_some_iff.mp h
          cases hp
        · omega
      | succ j =>
        have hmap : (locate rest (x - len)).map (fun p => { p with index := p.index + 1 }) =
            some ⟨j + 1, r⟩ ↔ locate rest (x - len) = some ⟨j, r⟩ := by
          rw [Option.map_eq_some_iff]
          constructor
          · rintro ⟨⟨k, s⟩, hp, he⟩
            cases he
            exact hp
          · intro h
            exact ⟨⟨j, r⟩, h, rfl⟩
        rw [hmap, ih]
        simp only [List.take_succ_cons, List.sum_cons, List.length_cons]
        omega

theorem locate_isSome (hx : x < lengths.sum) : ∃ p, locate lengths x = some p := by
  induction lengths generalizing x with
  | nil => exact absurd hx (Nat.not_lt_zero x)
  | cons len rest ih =>
    unfold locate
    by_cases hlen : x < len
    · exact ⟨_, if_pos hlen⟩
    · rw [List.sum_cons] at hx
      obtain ⟨p, hp⟩ := ih (x := x - len) (by omega)
      exact ⟨_, by rw [if_neg hlen, hp, Option.map_some]⟩

/-- A phase begins at the sum of those before it. -/
theorem locate_start (hi : i < lengths.length) (hpos : ∀ l ∈ lengths, 1 ≤ l) :
    locate lengths (lengths.take i).sum = some ⟨i, lengths[i]⟩ := by
  have hlen := hpos lengths[i] (List.getElem_mem hi)
  have hsum : (lengths.take (i + 1)).sum = (lengths.take i).sum + lengths[i] := by
    rw [List.take_succ_eq_append_getElem hi, List.sum_append, List.sum_singleton]
  refine locate_eq_some_iff.mpr ⟨hi, Nat.le_refl _, ?_, ?_⟩
  · omega
  · exact hsum.symm

/-- At the end of a phase the next one of the round begins. -/
theorem locate_next (hpos : ∀ l ∈ lengths, 1 ≤ l)
    (h : locate lengths (x % lengths.sum) = some ⟨i, r⟩) :
    ∃ hi : (i + 1) % lengths.length < lengths.length,
      locate lengths ((x + r) % lengths.sum) =
        some ⟨(i + 1) % lengths.length, lengths[(i + 1) % lengths.length]⟩ := by
  obtain ⟨hi, -, hlt, hsum⟩ := locate_eq_some_iff.mp h
  have hnext : (x + r) % lengths.sum = (lengths.take (i + 1)).sum % lengths.sum := by
    rw [← hsum, Nat.mod_add_mod]
  rw [hnext]
  refine ⟨Nat.mod_lt _ (by omega), ?_⟩
  have hle : i + 1 ≤ lengths.length := hi
  rcases Nat.lt_or_eq_of_le hle with hi' | hi'
  · have hlater := locate_start hi' hpos
    have hin : (lengths.take (i + 1)).sum < lengths.sum := by
      have hle : (lengths.take (i + 1 + 1)).sum ≤ (lengths.take lengths.length).sum :=
        List.monotone_sum_take lengths hi'
      rw [List.take_length] at hle
      have hlast := (locate_eq_some_iff.mp hlater).2.2.1
      omega
    simp only [Nat.mod_eq_of_lt hi', Nat.mod_eq_of_lt hin]
    exact hlater
  · have hall : (lengths.take (i + 1)).sum = lengths.sum := by
      rw [hi', List.take_length]
    have hfirst := locate_start (i := 0) (by omega) hpos
    rw [List.take_zero, List.sum_nil] at hfirst
    have hmod : (i + 1) % lengths.length = 0 := by rw [hi', Nat.mod_self]
    simp only [hall, Nat.mod_self, hmod]
    exact hfirst

end Locate

section Natural

variable {lengths : List Nat}

/-- The remaining time of a phase, up to what 64 bits hold. -/
def NaturalPhase.capped (p : NaturalPhase) : NaturalPhase :=
  { p with remaining := min p.remaining longestRemaining }

theorem map_millis_ofMillis (lengths : List Nat) :
    (lengths.map Span.ofMillis).map Span.millis = lengths := by
  rw [List.map_map]
  exact List.map_id'' Span.millis_ofMillis lengths

theorem naturalOfMillis_eq (h : lengths.sum ≠ 0) (time : Nat) :
    naturalOfMillis lengths time = (locate lengths (time % lengths.sum)).map .capped := if_neg h

theorem naturalPhase_eq (h : lengths.sum ≠ 0) (time : Nat) :
    naturalPhase (lengths.map Span.ofMillis) (.ofMillis time) =
      (locate lengths (time % lengths.sum)).map .capped := by
  rw [naturalPhase, map_millis_ofMillis, Span.millis_ofMillis, naturalOfMillis_eq h]

theorem sum_ne_zero {l : Nat} (hl : l ∈ lengths) (h : 1 ≤ l) : lengths.sum ≠ 0 := by
  have hle := List.le_sum_of_mem hl
  omega

/-- Only a round without length has no natural phase. -/
theorem naturalPhase_isSome {phases : List Span} {p : Span} (hp : p ∈ phases) (h : 1 ≤ p.millis)
    (time : Span) : ∃ q, naturalPhase phases time = some q := by
  have hsum : (phases.map Span.millis).sum ≠ 0 := sum_ne_zero (List.mem_map_of_mem hp) h
  obtain ⟨q, hq⟩ := locate_isSome (Nat.mod_lt time.millis (Nat.pos_of_ne_zero hsum))
  exact ⟨_, by rw [naturalPhase, naturalOfMillis_eq hsum, hq, Option.map_some]⟩

end Natural

/-- What a step of the cursor comes to: the natural phase if an alignment is due, or else the next
phase of the round. -/
structure Cursor.Advancing (c : Cursor) (phases : List Span) (now : Moment) (step : PhaseStep)
    (next : Cursor) : Prop where
  index : next.index = step.index
  counter : next.counter = c.counter + 1
  interval : next.interval = c.interval
  lastAlignment : next.lastAlignment = if step.aligned then now else c.lastAlignment
  due : step.aligned = c.alignmentDue now
  natural : step.aligned → ∃ p, naturalPhase phases now.timeOfDay = some p ∧
    step.index = p.index ∧ step.duration = .ofMillis p.remaining
  relative : step.aligned = false → step.index = (c.index + 1) % phases.length ∧
    phases[step.index]? = some step.duration

/-- In a round of some length there is always a next step. -/
theorem Cursor.advance_advancing (c : Cursor) {phases : List Span} {p : Span} (hp : p ∈ phases)
    (h : 1 ≤ p.millis) (now : Moment) :
    ∃ step next, c.advance phases now = (some step, next) ∧ Advancing c phases now step next := by
  have hne : phases ≠ [] := List.ne_nil_of_mem hp
  have hnext : (c.index + 1) % phases.length < phases.length :=
    Nat.mod_lt _ (List.length_pos_iff.mpr hne)
  unfold advance
  rw [if_neg (by simpa using hne)]
  dsimp only
  by_cases hdue : c.alignmentDue now
  · obtain ⟨q, hq⟩ := naturalPhase_isSome hp h now.timeOfDay
    rw [if_pos hdue, hq]
    refine ⟨_, _, rfl, rfl, rfl, rfl, rfl, hdue.symm, fun _ => ⟨q, hq, rfl, rfl⟩, nofun⟩
  · have hd := List.getElem?_eq_getElem hnext
    rw [if_neg hdue, hd]
    refine ⟨_, _, rfl, rfl, rfl, rfl, rfl, (Bool.eq_false_iff.mpr hdue).symm, nofun,
      fun _ => ⟨rfl, hd⟩⟩

end PhasedGrid.Schedule
