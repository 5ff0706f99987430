import PhasedGrid.Snapshot.Agent
import PhasedGrid.Proofs.Tables

/-!
What each operation of a collector leaves under a version: its marker count, its fragments and
whether it is being recorded. A version is dropped in one way only, whether it is finished,
superseded or answered.
-/

namespace PhasedGrid.Snapshot

set_option autoImplicit false

open PhasedGrid.Schedule (TimerStatus)

namespace Agent

def tracks (a : Agent) (v : Version) : Bool := Table.has v a.markers

theorem tracks_eq (a : Agent) (v : Version) : a.tracks v = (Table.get? v a.markers).isSome := rfl

theorem markerCount_of_not_tracks {a : Agent} {v : Version} (h : a.tracks v = false) :
    a.markerCount v = 0 := by
  simp [markerCount, (Table.get?_eq_none_iff v a.markers).mpr h]

@[simp] theorem fragments_file (a : Agent) (v w : Version) (f : Fragment) :
    (a.file v f).fragments w = if v = w then a.fragments v ++ [f] else a.fragments w := by
  by_cases h : v = w <;> simp [fragments, file, Table.get?_insert, h]

@[simp] theorem tracks_file (a : Agent) (v w : Version) (f : Fragment) :
    (a.file v f).tracks w = a.tracks w := rfl

@[simp] theorem tracks_bump (a : Agent) (v w : Version) :
    (a.bump v).tracks w = (decide (v = w) || a.tracks w) := Table.has_insert a.markers v w _

@[simp] theorem markerCount_bump (a : Agent) (v w : Version) :
    (a.bump v).markerCount w =
      if v = w then min (a.markerCount v + 1) a.peers.size else a.markerCount w := by
  by_cases h : v = w <;> simp [markerCount, bump, Table.get?_insert, h]

@[simp] theorem fragments_bump (a : Agent) (v w : Version) :
    (a.bump v).fragments w = a.fragments w := rfl

/-- What is left of a node's bookkeeping when the versions `ws` are dropped. -/
structure Drops (a b : Agent) (ws : List Version) : Prop where
  uuid : b.uuid = a.uuid
  policy : b.policy = a.policy
  peers : b.peers = a.peers
  started : b.started = a.started
  markers : ∀ w, Table.get? w b.markers = if w ∈ ws then none else Table.get? w a.markers
  collected : ∀ w, Table.get? w b.collected = if w ∈ ws then none else Table.get? w a.collected
  recording : b.recording = a.recording.filter (· ∉ ws)
  current : b.current = if a.current ∈ ws then .sentinel else a.current
  retired : ∀ w ∈ b.retired, w ∈ a.retired ∨ w ∈ ws

theorem abandon_drops (a : Agent) (v : Version) : Drops a (a.abandon v) [v] := by
  have hcur : (a.abandon v).current = if a.current ∈ [v] then .sentinel else a.current := by
    by_cases h : a.current = v <;> simp [abandon, retire, h]
  have hrest : a.abandon v = { a.retire v with current := (a.abandon v).current } := by
    by_cases h : a.current = v <;> simp [abandon, retire, h]
  have hret : ∀ w ∈ (a.retire v).retired, w ∈ a.retired ∨ w ∈ [v] := by
    intro w hw
    exact List.mem_append.mp (List.mem_of_mem_drop hw)
  rw [hrest]
  refine ⟨rfl, rfl, rfl, rfl, fun w => ?_, fun w => ?_, ?_, hcur, hret⟩
  · simp only [retire, Table.get?_erase, List.mem_singleton, eq_comm]
  · simp only [retire, Table.get?_erase, List.mem_singleton, eq_comm]
  · simp [retire]

theorem Drops.trans {a b c : Agent} {ws us : List Version} (h : Drops a b ws) (k : Drops b c us) :
    Drops a c (ws ++ us) := by
  refine ⟨k.uuid.trans h.uuid, k.policy.trans h.policy, k.peers.trans h.peers,
    k.started.trans h.started, fun w => ?_, fun w => ?_, ?_, ?_, fun w hw => ?_⟩
  · rw [k.markers, h.markers]
    by_cases hw : w ∈ ws <;> by_cases hu : w ∈ us <;> simp [hw, hu]
  · rw [k.collected, h.collected]
    by_cases hw : w ∈ ws <;> by_cases hu : w ∈ us <;> simp [hw, hu]
  · rw [k.recording, h.recording, List.filter_filter]
    congr 1
    funext w
    simp [Bool.and_comm]
  · rw [k.current, h.current]
    by_cases hw : a.current ∈ ws <;> by_cases hu : a.current ∈ us <;> simp [hw, hu]
  · rcases k.retired w hw with hb | hu
    · exact (h.retired w hb).imp id (List.mem_append_left us)
    · exact Or.inr (List.mem_append_right ws hu)

theorem foldl_abandon_drops (a : Agent) (ws : List Version) : Drops a (ws.foldl abandon a) ws := by
  induction ws generalizing a with
  | nil =>
    refine ⟨rfl, rfl, rfl, rfl, ?_, ?_, ?_, ?_, ?_⟩ <;> simp
  | cons w rest ih => exact (abandon_drops a w).trans (ih (a.abandon w))

/-- The tracked versions that `v` supersedes. -/
def superseded (a : Agent) (v : Version) : List Version :=
  (Table.keys a.markers).filter fun w => v.supersedes w

theorem abandonSuperseded_drops (a : Agent) (v : Version) :
    Drops a (a.abandonSuperseded v) (a.superseded v) :=
  foldl_abandon_drops a (a.superseded v)

theorem mem_superseded_iff (a : Agent) (v w : Version) :
    w ∈ a.superseded v ↔ a.tracks w ∧ v.supersedes w := by
  rw [superseded, List.mem_filter, Table.mem_keys_iff, tracks]

theorem supersedes_iff (v w : Version) :
    v.supersedes w ↔ v.initiator = w.initiator ∧ w.sequence < v.sequence := by
  simp [Version.supersedes]

/-- A node gives nothing up for a version if it tracks no other one of the same initiator. -/
theorem abandonSuperseded_eq_self {a : Agent} {v : Version}
    (h : ∀ w, a.tracks w → w.initiator = v.initiator → w = v) : a.abandonSuperseded v = a := by
  have hnone : a.superseded v = [] := by
    rw [List.eq_nil_iff_forall_not_mem]
    intro w hw
    obtain ⟨ht, hsup⟩ := (a.mem_superseded_iff v w).mp hw
    obtain ⟨hi, hlt⟩ := (supersedes_iff v w).mp hsup
    obtain rfl := h w ht hi.symm
    exact Nat.lt_irrefl _ hlt
  change (a.superseded v).foldl abandon a = a
  rw [hnone, List.foldl_nil]

namespace Drops

variable {a b : Agent} {ws : List Version}

theorem tracks_eq (h : Drops a b ws) (w : Version) : b.tracks w = (!decide (w ∈ ws) && a.tracks w) := by
  rw [Agent.tracks_eq, h.markers w]
  by_cases hw : w ∈ ws <;> simp [hw, Agent.tracks_eq]

theorem markerCount_eq (h : Drops a b ws) {w : Version} (hw : w ∉ ws) :
    b.markerCount w = a.markerCount w := by
  rw [markerCount, h.markers w, if_neg hw, markerCount]

theorem fragments_eq (h : Drops a b ws) {w : Version} (hw : w ∉ ws) :
    b.fragments w = a.fragments w := by
  rw [fragments, h.collected w, if_neg hw, fragments]

theorem fragments_of_mem (h : Drops a b ws) {w : Version} (hw : w ∈ ws) : b.fragments w = [] := by
  rw [fragments, h.collected w, if_pos hw, Option.getD_none]

theorem mem_recording (h : Drops a b ws) (w : Version) :
    w ∈ b.recording ↔ w ∈ a.recording ∧ w ∉ ws := by
  rw [h.recording, List.mem_filter, decide_eq_true_eq]

end Drops

/-- What a node's bookkeeping becomes when a version is added with the node's own reading: it is the
one in progress unless there is one. -/
structure Adds (a b : Agent) (x : Float) (v : Version) : Prop where
  uuid : b.uuid = a.uuid
  policy : b.policy = a.policy
  peers : b.peers = a.peers
  started : b.started = a.started
  markers : ∀ w, Table.get? w b.markers = if v = w then some 1 else Table.get? w a.markers
  collected : ∀ w, Table.get? w b.collected =
    if v = w then some (a.fragments v ++ [.gateway a.uuid x]) else Table.get? w a.collected
  recording : b.recording = a.recording
  current : b.current = if a.current = .sentinel then v else a.current
  retired : b.retired = a.retired

namespace Adds

variable {a b : Agent} {x : Float} {v : Version}

theorem tracks_eq (h : Adds a b x v) (w : Version) : b.tracks w = (decide (v = w) || a.tracks w) := by
  rw [Agent.tracks_eq, h.markers w]
  by_cases hw : v = w <;> simp [hw, Agent.tracks_eq]

theorem markerCount_eq (h : Adds a b x v) (w : Version) :
    b.markerCount w = if v = w then 1 else a.markerCount w := by
  rw [markerCount, h.markers w]
  by_cases hw : v = w <;> simp [hw, markerCount]

theorem fragments_eq (h : Adds a b x v) (w : Version) :
    b.fragments w = if v = w then a.fragments v ++ [.gateway a.uuid x] else a.fragments w := by
  rw [fragments, h.collected w]
  by_cases hw : v = w <;> simp [hw, fragments]

end Adds

/-- Adding a version that nobody superseded is what tracking it beside a current one does. -/
theorem track_adds (a : Agent) (x : Float) (v : Version) :
    Adds a ((if a.current.isSentinel then { a with current := v } else a).track v x) x v := by
  by_cases hc : a.current = .sentinel
  · rw [if_pos (by simp [Version.isSentinel, hc])]
    exact ⟨rfl, rfl, rfl, rfl, fun w => Table.get?_insert a.markers v w 1,
      fun w => Table.get?_insert a.collected v w _, rfl, (if_pos hc).symm, rfl⟩
  · rw [if_neg (by simp [Version.isSentinel, hc])]
    exact ⟨rfl, rfl, rfl, rfl, fun w => Table.get?_insert a.markers v w 1,
      fun w => Table.get?_insert a.collected v w _, rfl, (if_neg hc).symm, rfl⟩

/-- Takes up a version that is new to a node: it becomes the one in progress unless there is one,
and the node's own reading is filed. -/
def takeUp (a : Agent) (x : Float) (v : Version) : Agent :=
  let b := a.abandonSuperseded v
  (if b.current.isSentinel then { b with current := v } else b).track v x

theorem takeUp_adds (a : Agent) (x : Float) (v : Version) :
    Adds (a.abandonSuperseded v) (a.takeUp x v) x v := track_adds (a.abandonSuperseded v) x v

/-- One more marker of a node's own version; the last one ends the recording. -/
def tally (a : Agent) (v : Version) : Agent :=
  if a.peers.size ≤ (a.bump v).markerCount v then (a.bump v).stopRecording v else a.bump v

/-- A node that starts a version of its own, before it files anything. -/
def fresh (a : Agent) : Agent := { a.clear with started := a.started + 1, current := .sentinel }

theorem initiate_adds (a : Agent) (x : Float) :
    ∃ b, Adds a.fresh b x a.nextVersion ∧
      (a.initiate x).1 = { b.record a.nextVersion with extensionsLeft := a.policy.extensions } :=
  ⟨_, track_adds a.fresh x a.nextVersion, by simp [initiate, fresh, clear, Version.isSentinel]⟩

end Agent

end PhasedGrid.Snapshot
