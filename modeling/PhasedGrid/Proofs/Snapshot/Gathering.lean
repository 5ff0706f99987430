import PhasedGrid.Proofs.Snapshot.Footprint
import PhasedGrid.Proofs.Snapshot.Reading

/-!
Which readings a turn of a collector adds to the fragments of a version: the node's own when it takes
the version up, and one that arrives while the version is in progress. Fragments are counted by any
test that no message in transit passes.
-/

namespace PhasedGrid.Snapshot

set_option autoImplicit false

/-- Whether a fragment is a reading of a node that passes a test. -/
def Fragment.reads (node : String) (test : Float → Bool) : Fragment → Bool
  | .gateway source x => decide (source = node) && test x
  | .transit _ _ _ => false

/-- A test that looks at readings only. -/
def Fragment.OfReadings (p : Fragment → Bool) : Prop :=
  ∀ value source destination, p (.transit value source destination) = false

/-- A test that looks at messages in transit only. -/
def Fragment.OfTransits (p : Fragment → Bool) : Prop := ∀ source x, p (.gateway source x) = false

theorem Fragment.OfTransits.retold {p : Fragment → Bool} (h : Fragment.OfTransits p)
    (f : Fragment) : p f.retold = p f := by
  cases f with
  | gateway source x => exact (h source _).trans (h source x).symm
  | transit value source destination => rfl

theorem Fragment.ofReadings_reads (node : String) (test : Float → Bool) :
    Fragment.OfReadings (Fragment.reads node test) := fun _ _ _ => rfl

namespace Agent

variable {a b next : Agent} {x : Float} {v w : Version} {p : Fragment → Bool}

/-- The number of fragments of a version that pass a test. -/
def held (a : Agent) (v : Version) (p : Fragment → Bool) : Nat := (a.fragments v).countP p

theorem held_file (a : Agent) (w v : Version) (f : Fragment) (p : Fragment → Bool) :
    (a.file w f).held v p = a.held v p + if w = v ∧ p f then 1 else 0 := by
  unfold held
  rw [fragments_file]
  by_cases hw : w = v
  · subst hw
    rw [if_pos rfl, List.countP_append, List.countP_singleton]
    simp
  · rw [if_neg hw, if_neg fun h => hw h.1, Nat.add_zero]

theorem Drops.held_le {ws : List Version} (d : Drops a b ws) (v : Version) (p : Fragment → Bool) :
    b.held v p ≤ a.held v p := by
  unfold held
  by_cases hv : v ∈ ws
  · rw [d.fragments_of_mem hv]
    exact Nat.zero_le _
  · exact Nat.le_of_eq (congrArg (List.countP p) (d.fragments_eq hv))

theorem Adds.held_eq (d : Adds a b x w) (v : Version) (p : Fragment → Bool) :
    b.held v p = a.held v p + if w = v ∧ p (.gateway a.uuid x) then 1 else 0 := by
  unfold held
  rw [d.fragments_eq]
  by_cases hw : w = v
  · subst hw
    rw [if_pos rfl, List.countP_append, List.countP_singleton]
    simp
  · rw [if_neg hw, if_neg fun h => hw h.1, Nat.add_zero]

theorem Marking.held_le_of_ne {took : Option Version} {effects : List Effect}
    (m : Marking a x w took next effects) (hv : w ≠ v) (p : Fragment → Bool) :
    next.held v p ≤ a.held v p := by
  cases m with
  | own _ _ => exact Nat.le_of_eq (congrArg (List.countP p) (a.fragments_tally w v))
  | counted _ _ _ => exact Nat.le_refl _
  | finished _ _ _ => exact (a.abandon_drops w).held_le v p
  | stale _ _ => exact Nat.le_refl _
  | opened _ _ _ =>
    have hk := (a.takeUp_adds x w).held_eq v p
    rw [if_neg fun h => hv h.1, Nat.add_zero] at hk
    exact Nat.le_trans (Nat.le_of_eq hk) ((a.abandonSuperseded_drops w).held_le v p)
  | passed _ _ _ =>
    exact Nat.le_trans ((abandon_drops _ w).held_le v p) ((a.abandonSuperseded_drops w).held_le v p)

/-- A marker adds at most the node's own reading, and only when the node takes one. -/
theorem Marking.held_le {took : Option Version} {effects : List Effect}
    (m : Marking a x w took next effects) (v : Version) (p : Fragment → Bool) :
    next.held v p ≤ a.held v p + if took = some v ∧ p (.gateway a.uuid x) then 1 else 0 := by
  by_cases hv : w = v
  · subst hv
    cases m with
    | own _ _ =>
      exact Nat.le_add_right_of_le
        (Nat.le_of_eq (congrArg (List.countP p) (a.fragments_tally w w)))
    | counted _ _ _ => exact Nat.le_add_right _ _
    | finished _ _ _ => exact Nat.le_add_right_of_le ((a.abandon_drops w).held_le w p)
    | stale _ _ => exact Nat.le_add_right _ _
    | opened _ _ _ =>
      have hd := (a.abandonSuperseded_drops w).held_le w p
      have hk := (a.takeUp_adds x w).held_eq w p
      rw [(a.abandonSuperseded_drops w).uuid] at hk
      have hrec : ((a.takeUp x w).record w).held w p = (a.takeUp x w).held w p := rfl
      simp only [true_and, hrec, hk]
      omega
    | passed _ _ _ =>
      exact Nat.le_add_right_of_le (Nat.le_trans ((abandon_drops _ w).held_le w p)
        ((a.abandonSuperseded_drops w).held_le w p))
  · exact Nat.le_add_right_of_le (m.held_le_of_ne hv p)

theorem held_onState (a : Agent) (f : Fragment) (v : Version) (p : Fragment → Bool) :
    (a.onState f).held v p =
      a.held v p + if a.current ≠ .sentinel ∧ a.current = v ∧ p f then 1 else 0 := by
  unfold onState
  by_cases hc : a.current = .sentinel
  · rw [if_pos (by simp [Version.isSentinel, hc]), if_neg fun h => h.1 hc, Nat.add_zero]
  · rw [if_neg (by simp [Version.isSentinel, hc]), held_file]
    simp [hc]

theorem held_onPayload (a : Agent) (value sender : String) (tag : Option Version) (v : Version)
    (hp : Fragment.OfReadings p) : (a.onPayload value sender tag).held v p = a.held v p := by
  unfold held
  rw [onPayload_eq, fragments_foldl_file, List.countP_append, List.countP_replicate,
    if_neg (by simp [hp value sender a.uuid]), Nat.add_zero]

theorem Expiring.held_le {outcome : Option Outcome} {effects : List Effect}
    (m : Expiring a outcome next effects) (v : Version) (p : Fragment → Bool) :
    next.held v p ≤ a.held v p := by
  cases m with
  | idle => exact Nat.le_refl _
  | complete _ _ _ => exact (a.abandon_drops a.current).held_le v p
  | extended _ _ => exact Nat.le_refl _
  | incomplete _ _ => exact (a.abandon_drops a.current).held_le v p

theorem Starts.held_eq (d : Starts a b x) (v : Version) (p : Fragment → Bool) :
    b.held v p = if a.nextVersion = v ∧ p (.gateway a.uuid x) then 1 else 0 := by
  unfold held
  rw [d.fragments]
  by_cases hv : a.nextVersion = v
  · rw [if_pos hv, List.countP_singleton]
    simp [hv]
  · rw [if_neg hv, if_neg fun h => hv h.1]
    rfl

theorem Spares.held_le (sp : Spares a b v) (p : Fragment → Bool) : a.held v p ≤ b.held v p :=
  sp.fragments.sublist.countP_le

theorem Marking.held_eq_of_ne {took : Option Version} {effects : List Effect}
    (m : Marking a x w took next effects) (hv : w ≠ v) (hs : a.tracks v → ¬ w.supersedes v)
    (p : Fragment → Bool) : next.held v p = a.held v p :=
  Nat.le_antisymm (m.held_le_of_ne hv p) ((m.spares hv hs).held_le p)

/-- A payload is filed once under each version that it is recorded for. -/
theorem Sound.held_onPayload (h : a.Sound) (value sender : String) (tag : Option Version)
    (v : Version) (p : Fragment → Bool) :
    (a.onPayload value sender tag).held v p = a.held v p +
      if p (.transit value sender a.uuid) ∧ v ∈ a.recording ∧ (tag = none ∨ tag = some v) then 1
      else 0 := by
  have hcount := (h.payloadTargets_nodup tag).count (a := v)
  simp only [mem_payloadTargets_iff] at hcount
  unfold held
  rw [onPayload_eq, fragments_foldl_file, List.countP_append, List.countP_replicate, hcount,
    ← ite_and]

theorem Drops.held_of_mem {ws : List Version} (d : Drops a b ws) (hv : v ∈ ws)
    (p : Fragment → Bool) : b.held v p = 0 := by
  rw [held, d.fragments_of_mem hv]
  rfl

theorem Sound.held_of_not_tracks (h : a.Sound) (hv : a.tracks v = false) (p : Fragment → Bool) :
    a.held v p = 0 := by
  rw [held, h.fragments_of_not_tracks hv]
  rfl

end Agent

end PhasedGrid.Snapshot
