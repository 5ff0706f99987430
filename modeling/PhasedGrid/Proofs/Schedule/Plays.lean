import PhasedGrid.Proofs.Schedule.Runs

/-!
Runs that are computed from a script of moves, for looking at what a single run does.
-/

namespace PhasedGrid.Schedule

set_option autoImplicit false

variable {α : Type}

/-- A move of a run that is written out. Sleepers are counted in the order of arming. -/
inductive Move (α : Type) where
  | order (o : Order α)
  | turn
  | wait (ms : Nat)
  | hold (held : Bool)
  | report (sleeper : Nat)

namespace Loop

/-- The record of a move and the state behind it, if it can be made. -/
def move (s : Loop α) : Move α → Option (List (Mark α) × Loop α)
  | .order o => some ([.gave o], s.issue o)
  | .turn =>
    match s.turn with
    | .ok (some (next, events)) => some (s.marks ++ events.map .seen, next)
    | _ => none
  | .wait ms => some ([], { s with time := s.time + ms })
  | .hold held => some ([], { s with held })
  | .report sleeper =>
    (s.timers.sleepers[sleeper]?).bind fun x =>
      if x.due ≤ s.time then some ([], s.hear x) else none

def play (s : Loop α) : List (Move α) → Option (List (Mark α) × Loop α)
  | [] => some ([], s)
  | m :: rest =>
    (s.move m).bind fun first => (first.2.play rest).map fun later => (first.1 ++ later.1, later.2)

theorem move_step {s s' : Loop α} {m : Move α} {tr : List (Mark α)}
    (hm : s.move m = some (tr, s')) : Step s tr s' := by
  cases m with
  | order o =>
    obtain ⟨rfl, rfl⟩ := Prod.mk.inj (Option.some.inj hm)
    exact .order s o
  | turn =>
    unfold Loop.move at hm
    dsimp only at hm
    split at hm
    · rename_i next events ht
      obtain ⟨rfl, rfl⟩ := Prod.mk.inj (Option.some.inj hm)
      exact .turn ht
    · cases hm
  | wait ms =>
    obtain ⟨rfl, rfl⟩ := Prod.mk.inj (Option.some.inj hm)
    exact .wait s _ (Nat.le_add_right s.time ms)
  | hold held =>
    obtain ⟨rfl, rfl⟩ := Prod.mk.inj (Option.some.inj hm)
    exact .hold s held
  | report sleeper =>
    obtain ⟨x, hx, hdue⟩ := Option.bind_eq_some_iff.mp hm
    split at hdue
    · rename_i hle
      obtain ⟨rfl, rfl⟩ := Prod.mk.inj (Option.some.inj hdue)
      exact .report s x (List.mem_of_getElem? hx) hle
    · cases hdue

end Loop

namespace Runs

variable {s₀ s s' : Loop α} {tr tr' : List (Mark α)}

theorem play (h : Runs s₀ tr s) {moves : List (Move α)} (hp : s.play moves = some (tr', s')) :
    Runs s₀ (tr ++ tr') s' := by
  induction moves generalizing s tr tr' with
  | nil =>
    obtain ⟨rfl, rfl⟩ := Prod.mk.inj (Option.some.inj hp)
    rw [List.append_nil]
    exact h
  | cons m rest ih =>
    obtain ⟨first, hfirst, hrest⟩ := Option.bind_eq_some_iff.mp hp
    obtain ⟨later, hlater, heq⟩ := Option.map_eq_some_iff.mp hrest
    obtain ⟨rfl, rfl⟩ := Prod.mk.inj heq
    rw [← List.append_assoc]
    exact ih (h.step (Loop.move_step hfirst)) hlater

end Runs

theorem Loop.turn_eq_none {s : Loop α} (h : s.turn.toOption.any Option.isNone) :
    s.turn = .ok none := by
  cases ht : s.turn with
  | error fault =>
    rw [ht] at h
    cases h
  | ok next =>
    rw [ht] at h
    exact congrArg Except.ok (Option.isNone_iff_eq_none.mp h)

def epoch : Clock := { origin := ⟨0, 0⟩, skew := 0 }

theorem exists_start {β : Type} (clock : Clock) (interval : Span) (time : Nat)
    (f : Loop α → Option β) (p : Loop α → β → Bool)
    (h : (Loop.start clock interval time).toOption.any fun s => (f s).any (p s)) :
    ∃ s₀ r, Loop.start clock interval time = .ok s₀ ∧ f s₀ = some r ∧ p s₀ r := by
  cases hstart : Loop.start (α := α) clock interval time with
  | error fault =>
    rw [hstart] at h
    cases h
  | ok s =>
    rw [hstart] at h
    change (f s).any (p s) at h
    obtain ⟨r, hr, hp⟩ := (Option.any_eq_true ..).mp h
    exact ⟨s, r, rfl, hr, hp⟩

theorem exists_play (clock : Clock) (interval : Span) (time : Nat) (moves : List (Move α))
    (p : Loop α → List (Mark α) × Loop α → Bool)
    (h : (Loop.start clock interval time).toOption.any fun s => (s.play moves).any (p s)) :
    ∃ s₀ r, Loop.start clock interval time = .ok s₀ ∧ s₀.play moves = some r ∧ p s₀ r :=
  exists_start clock interval time (fun s => s.play moves) p h

/-- A script that can be played from the start gives a run; `p` is what is to be known of it. -/
theorem exists_run (clock : Clock) (interval : Span) (time : Nat) (moves : List (Move α))
    (p : List (Mark α) → Loop α → Bool)
    (h : ((Loop.start clock interval time).toOption.bind fun s => s.play moves).any
      fun r => p r.1 r.2) :
    ∃ s₀ tr s, Loop.start clock interval time = .ok s₀ ∧ Runs s₀ tr s ∧ p tr s := by
  rw [Option.any_bind] at h
  obtain ⟨s₀, r, h₀, hplay, hp⟩ := exists_play clock interval time moves (fun _ r => p r.1 r.2) h
  exact ⟨s₀, _, _, h₀, Runs.start.play hplay, hp⟩

end PhasedGrid.Schedule
