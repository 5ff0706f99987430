import Mathlib.Data.Finset.Card
import PhasedGrid.Proofs.Snapshot.Knowledge

/-!
The versions of one initiator. A node has at most one of them under way: an older one is not taken
up beside it, and a newer one takes its place. Versions of other initiators are not touched by this.
-/

namespace PhasedGrid.Snapshot

set_option autoImplicit false

open PhasedGrid.Peer (Message)

namespace Version

instance : Trans (fun a b : Version => a < b) (fun a b : Version => a < b) fun a b : Version => a < b where
  trans := by
    rintro a b c (hab | ⟨hab, hlt⟩) (hbc | ⟨hbc, hlt'⟩)
    · exact Or.inl (Std.lt_trans hab hbc)
    · exact Or.inl (hbc ▸ hab)
    · exact Or.inl (hab ▸ hbc)
    · exact Or.inr ⟨hab.trans hbc, Nat.lt_trans hlt hlt'⟩

instance : Std.Irrefl fun a b : Version => a < b where
  irrefl := by
    rintro a (h | ⟨-, h⟩)
    · exact Std.lt_irrefl h
    · exact Nat.lt_irrefl _ h

instance : Std.Trichotomous fun a b : Version => a < b where
  trichotomous := by
    intro a b hab hba
    have hi : a.initiator = b.initiator := by
      rcases Std.lt_trichotomy a.initiator b.initiator with h | h | h
      · exact absurd (Or.inl h) hab
      · exact h
      · exact absurd (Or.inl h) hba
    have hs : a.sequence = b.sequence := by
      rcases Nat.lt_trichotomy a.sequence b.sequence with h | h | h
      · exact absurd (Or.inr ⟨hi, h⟩) hab
      · exact h
      · exact absurd (Or.inr ⟨hi.symm, h⟩) hba
    cases a
    cases b
    exact congr (congrArg mk hi) hs

/-- Versions of one initiator of which neither replaces the other are the same. -/
theorem eq_of_not_supersedes {v w : Version} (hi : v.initiator = w.initiator)
    (hv : ¬ v.supersedes w) (hw : ¬ w.supersedes v) : v = w := by
  have hs : v.sequence = w.sequence := by
    refine Nat.le_antisymm (Nat.le_of_not_lt fun h => hv ?_) (Nat.le_of_not_lt fun h => hw ?_)
    · exact (Agent.supersedes_iff v w).mpr ⟨hi, h⟩
    · exact (Agent.supersedes_iff w v).mpr ⟨hi.symm, h⟩
  cases v
  cases w
  exact congr (congrArg mk hi) hs

theorem not_supersedes_self (v : Version) : ¬ v.supersedes v := fun h =>
  Nat.lt_irrefl _ ((Agent.supersedes_iff v v).mp h).2

end Version

/-- The version that a call is a marker of. -/
def Call.marked? (c : Call) : Option Version :=
  match c.notice? with
  | some (.marker v) => some v
  | _ => none

namespace Agent

/-- Books in order, with one version of an initiator at most. -/
structure Single (a : Agent) : Prop extends Sound a where
  sorted : Table.Sorted a.markers
  single : ∀ v w, a.tracks v → a.tracks w → v.initiator = w.initiator → v = w

variable {a next : Agent} {x : Float} {v w : Version} {took : Option Version}
  {effects : List Effect}

section Sorted

theorem sorted_erase (h : Table.Sorted a.markers) (v : Version) :
    Table.Sorted (Table.erase v a.markers) :=
  h.sublist (List.filter_sublist.map Prod.fst)

theorem sorted_abandon (h : Table.Sorted a.markers) (v : Version) :
    Table.Sorted (a.abandon v).markers := by
  unfold abandon
  dsimp only
  split <;> exact sorted_erase h v

theorem sorted_abandonSuperseded (h : Table.Sorted a.markers) (v : Version) :
    Table.Sorted (a.abandonSuperseded v).markers := by
  have hfold : ∀ (ws : List Version) (a : Agent), Table.Sorted a.markers →
      Table.Sorted (ws.foldl abandon a).markers := by
    intro ws
    induction ws with
    | nil => exact fun _ h => h
    | cons w rest ih => exact fun a h => ih (a.abandon w) (sorted_abandon h w)
  exact hfold _ a h

theorem markers_takeUp (a : Agent) (x : Float) (v : Version) :
    (a.takeUp x v).markers = Table.insert v 1 (a.abandonSuperseded v).markers := by
  unfold takeUp
  dsimp only
  split <;> rfl

theorem Marking.sorted (m : Marking a x v took next effects) (h : Table.Sorted a.markers) :
    Table.Sorted next.markers := by
  cases m with
  | own _ _ =>
    unfold tally
    split <;> exact h.insert v _
  | counted _ _ _ => exact h.insert v _
  | finished _ _ _ => exact sorted_abandon h v
  | stale _ _ => exact h
  | opened _ _ _ =>
    change Table.Sorted (a.takeUp x v).markers
    rw [markers_takeUp]
    exact (sorted_abandonSuperseded h v).insert v 1
  | passed _ _ _ => exact sorted_abandon (sorted_abandonSuperseded h v) v

end Sorted

/-- A version that is taken up stands alone: what it supersedes is gone. -/
theorem Marking.not_supersedes (m : Marking a x v took next effects) (ht : took = some v)
    (hw : next.tracks w) : ¬ v.supersedes w := by
  have d := a.abandonSuperseded_drops v
  have hold : (a.abandonSuperseded v).tracks w → ¬ v.supersedes w := by
    intro hw hsup
    rw [d.tracks_eq, Bool.and_eq_true, Bool.not_eq_true', decide_eq_false_iff_not,
      mem_superseded_iff] at hw
    exact hw.1 ⟨hw.2, hsup⟩
  cases m with
  | opened _ _ _ =>
    have hw' := ((a.takeUp_adds x v).tracks_eq w).symm.trans hw
    rw [Bool.or_eq_true, decide_eq_true_eq] at hw'
    rcases hw' with rfl | hw'
    · exact v.not_supersedes_self
    · exact hold hw'
  | passed _ _ _ =>
    rw [(abandon_drops _ v).tracks_eq, Bool.and_eq_true] at hw
    exact hold hw.2
  | own | counted | finished | stale => cases ht

/-- A version that is taken up is no older than what the node tracks. -/
theorem Marking.not_superseded (m : Marking a x v took next effects) (ht : took = some v)
    (hw : a.tracks w) : ¬ w.supersedes v := by
  cases m with
  | opened _ hst _ => exact ((a.isStale_eq_false_iff v).mp hst).2.2 w hw
  | passed _ hst _ => exact ((a.isStale_eq_false_iff v).mp hst).2.2 w hw
  | own | counted | finished | stale => cases ht

namespace Single

theorem meet (h : a.Single) (source : String) : (a.meet source).Single := by
  have hs := h.toSound.meet source
  unfold Agent.meet at hs ⊢
  split
  · exact h
  · rename_i hne
    rw [if_neg hne] at hs
    exact { hs with sorted := h.sorted, single := h.single }

theorem marking (h : a.Single) (hs : v ≠ .sentinel) (m : Marking a x v took next effects) :
    next.Single := by
  have t := h.marking_turn hs m
  -- a version that was not there before is the one that the marker brings
  have hcases : ∀ w, next.tracks w → a.tracks w ∨ w = v ∧ took = some v := by
    intro w hw
    rcases t.tracks w hw with hw | hw
    · exact Or.inl hw
    · obtain ⟨rfl, -⟩ := m.took_tracks hw
      exact Or.inr ⟨rfl, hw⟩
  have hnew : ∀ w, took = some v → a.tracks w → next.tracks w → v.initiator = w.initiator →
      v = w := by
    intro w ht hw hn hi
    exact Version.eq_of_not_supersedes hi (m.not_supersedes ht hn) (m.not_superseded ht hw)
  refine { t.sound with sorted := m.sorted h.sorted, single := fun u w hu hw hi => ?_ }
  rcases hcases u hu with hu' | ⟨rfl, ht⟩ <;> rcases hcases w hw with hw' | ⟨rfl, ht'⟩
  · exact h.single u w hu' hw' hi
  · exact (hnew u ht' hu' hu hi.symm).symm
  · exact hnew w ht hw' hw hi
  · rfl

end Single

theorem onState_keeps (a : Agent) (f : Fragment) :
    (a.onState f).markers = a.markers ∧ (a.onState f).retired = a.retired := by
  unfold onState
  split <;> exact ⟨rfl, rfl⟩

theorem onPayload_keeps (a : Agent) (value sender : String) (tag : Option Version) :
    (a.onPayload value sender tag).markers = a.markers ∧
      (a.onPayload value sender tag).retired = a.retired := by
  rw [onPayload_eq, foldl_file_eq]
  exact ⟨rfl, rfl⟩

theorem single_of_empty (h : a.Sound) (hm : a.markers = []) : a.Single := by
  refine { h with sorted := ?_, single := fun v w hv => ?_ }
  · rw [hm]
    exact Table.sorted_nil
  · rw [tracks, hm] at hv
    cases hv

theorem initiate_single (hn : 1 ≤ a.peers.size) (x : Float) : (a.initiate x).1.Single := by
  have ht := (a.request_starts x "").tracks
  refine { initiate_sound hn x with sorted := ?_, single := fun v w hv hw _ => ?_ }
  · exact Table.sorted_nil.insert a.nextVersion 1
  · exact ((ht v).mp hv).trans ((ht w).mp hw).symm

theorem onPeerList_single (a : Agent) (x : Float) (leader : String) (peers : List String) :
    (a.onPeerList x leader peers).1.Single := by
  have hn := a.peers.size_announce_pos peers
  unfold onPeerList
  dsimp only
  split
  · exact initiate_single (by exact hn) x
  · exact single_of_empty (sound_of_empty hn rfl rfl rfl rfl) rfl

namespace Single

theorem of_markers (h : a.Single) (hs : next.Sound) (hm : next.markers = a.markers) :
    next.Single := by
  refine { hs with sorted := hm ▸ h.sorted, single := fun v w hv hw => h.single v w ?_ ?_ }
  · rwa [tracks, hm] at hv
  · rwa [tracks, hm] at hw

theorem onNotice (h : a.Single) (x : Float) {notice : Notice} (hs : notice ≠ .marker .sentinel) :
    (a.onNotice x notice).1.Single := by
  cases notice with
  | peerList leader peers => exact onPeerList_single a x leader peers
  | request module source => exact initiate_single (by exact h.own_member) x
  | marker v =>
    have hv : v ≠ .sentinel := by
      rintro rfl
      exact hs rfl
    exact h.marking hv (onMarker_marking h.toSound x hv)
  | state f => exact h.of_markers (h.onState f) (a.onState_keeps f).1
  | payload value sender tag =>
    exact h.of_markers (h.onPayload value sender tag) (a.onPayload_keeps value sender tag).1

theorem abandon (h : a.Single) (v : Version) : (a.abandon v).Single := by
  have d := a.abandon_drops v
  refine { h.drops d with sorted := sorted_abandon h.sorted v, single := fun u w hu hw => ?_ }
  rw [d.tracks_eq, Bool.and_eq_true] at hu hw
  exact h.single u w hu.2 hw.2

theorem expiring (h : a.Single) {outcome : Option Outcome} (m : Expiring a outcome next effects) :
    next.Single := by
  have hs := h.toSound.expiring m
  cases m with
  | idle => exact h
  | complete | incomplete => exact h.abandon a.current
  | extended _ _ => exact h.of_markers hs rfl

theorem serve (h : a.Single) {c : Call} (hs : c.notice? ≠ some (.marker .sentinel)) :
    (a.serve c).1.Single := by
  cases c with
  | request module x => exact initiate_single (by exact h.own_member) x
  | timer status => exact h.expiring (a.onTimer_expiring status)
  | message m x =>
    have hm := h.meet m.source
    rw [serve_message]
    cases hn : (Call.message m x).notice? with
    | none => exact hm
    | some notice =>
      refine hm.onNotice x ?_
      rintro rfl
      exact hs hn

end Single

theorem new_single (uuid : String) (policy : Policy) (peers : List String) :
    (Agent.new uuid policy peers).Single :=
  single_of_empty (new_sound uuid policy peers) rfl

/-- The versions under way at a node: those with a marker count, fragments or a recording. -/
def versions (a : Agent) : Finset Version :=
  (Table.keys a.markers ++ Table.keys a.collected ++ a.recording).toFinset

theorem Sound.mem_versions (h : a.Sound) (v : Version) : v ∈ a.versions ↔ a.tracks v := by
  rw [versions, List.mem_toFinset, List.mem_append, List.mem_append, Table.mem_keys_iff,
    Table.mem_keys_iff, h.same_keys]
  change (a.tracks v ∨ a.tracks v) ∨ _ ↔ _
  rw [or_self]
  exact or_iff_left_of_imp (h.recording_tracked v)

/-- All that a node keeps of a version is as before: its count, its fragments, whether it is being
recorded, and whether it is the one in progress. -/
structure Untouched (a b : Agent) (u : Version) : Prop where
  markers : Table.get? u b.markers = Table.get? u a.markers
  collected : Table.get? u b.collected = Table.get? u a.collected
  recording : u ∈ b.recording ↔ u ∈ a.recording
  current : u ≠ .sentinel → (b.current = u ↔ a.current = u)

section Untouched

variable {b : Agent} {u : Version}

theorem Untouched.trans {c : Agent} (h : Untouched a b u) (k : Untouched b c u) : Untouched a c u :=
  ⟨k.markers.trans h.markers, k.collected.trans h.collected, k.recording.trans h.recording,
    fun hu => (k.current hu).trans (h.current hu)⟩

theorem Drops.untouched {ws : List Version} (d : Drops a b ws) (hu : u ∉ ws) : Untouched a b u := by
  refine ⟨(d.markers u).trans (if_neg hu), (d.collected u).trans (if_neg hu), ?_, fun hs => ?_⟩
  · rw [d.mem_recording]
    exact and_iff_left hu
  · rw [d.current]
    split
    · rename_i hc
      exact iff_of_false (Ne.symm hs) fun he => hu (he ▸ hc)
    · exact Iff.rfl

theorem Adds.untouched (d : Adds a b x v) (hu : v ≠ u) : Untouched a (b.record v) u := by
  refine ⟨(d.markers u).trans (if_neg hu), (d.collected u).trans (if_neg hu), ?_, fun hs => ?_⟩
  · change u ∈ Ordered.insert v b.recording ↔ _
    rw [Ordered.mem_insert, d.recording]
    exact or_iff_right (Ne.symm hu)
  · change b.current = u ↔ _
    rw [d.current]
    split
    · rename_i hc
      rw [hc]
      exact iff_of_false hu (Ne.symm hs)
    · exact Iff.rfl

theorem meet_untouched (a : Agent) (source : String) (u : Version) :
    Untouched a (a.meet source) u := by
  unfold meet
  split <;> exact ⟨rfl, rfl, Iff.rfl, fun _ => Iff.rfl⟩

/-- Taking up a version of one initiator is nothing to the versions of others. -/
theorem Marking.untouched (m : Marking a x v took next effects) (ht : took = some v)
    (hu : u.initiator ≠ v.initiator) : Untouched a next u := by
  have hv : v ≠ u := fun he => hu (he ▸ rfl)
  have hdrop : u ∉ a.superseded v := fun hm =>
    hu ((supersedes_iff v u).mp ((a.mem_superseded_iff v u).mp hm).2).1.symm
  have d := (a.abandonSuperseded_drops v).untouched hdrop
  cases m with
  | opened _ _ _ => exact d.trans ((a.takeUp_adds x v).untouched hv)
  | passed _ _ _ =>
    refine d.trans ((abandon_drops _ v).untouched fun hm => hv ?_)
    exact (List.mem_singleton.mp hm).symm
  | own | counted | finished | stale => cases ht

/-- An older version goes when a newer one is taken up, also if it was in progress. -/
theorem Marking.current_ne (m : Marking a x v took next effects) (ht : took = some v)
    (hw : a.tracks w) (hs : w ≠ .sentinel) (hsup : v.supersedes w) : next.current ≠ w := by
  have hv : v ≠ w := fun he => w.not_supersedes_self (he ▸ hsup)
  have hb : (a.abandonSuperseded v).current ≠ w := by
    rw [(a.abandonSuperseded_drops v).current]
    split
    · exact Ne.symm hs
    · rename_i hc
      exact fun he => hc (he ▸ (a.mem_superseded_iff v w).mpr ⟨hw, hsup⟩)
  cases m with
  | opened _ _ _ =>
    change (a.takeUp x v).current ≠ w
    rw [(a.takeUp_adds x v).current]
    split
    · exact hv
    · exact hb
  | passed _ _ _ =>
    rw [(abandon_drops _ v).current]
    split
    · exact Ne.symm hs
    · exact hb
  | own | counted | finished | stale => cases ht

end Untouched

theorem tracks_meet (a : Agent) (source : String) (v : Version) :
    (a.meet source).tracks v = a.tracks v := by
  unfold meet
  split <;> rfl

theorem isStale_meet (a : Agent) (source : String) (v : Version) :
    (a.meet source).isStale v = a.isStale v := by
  unfold meet
  split <;> rfl

theorem takes?_meet (a : Agent) (source : String) (v : Version) :
    (a.meet source).takes? (.marker v) = a.takes? (.marker v) := by
  unfold meet
  split <;> rfl

theorem handle_marker (a : Agent) (x : Float) {m : Message}
    (hr : Wire.read m = .ok (some (.marker v))) :
    a.handle x m = (.ok (), (a.meet m.source).onMarker x v) := by
  unfold handle
  simp only [hr]
  rfl

/-- A marker that comes too late brings in its sender and nothing else. -/
theorem Sound.handle_stale (h : a.Sound) {m : Message} (hr : Wire.read m = .ok (some (.marker v)))
    (hs : v ≠ .sentinel) (hv : a.tracks v = false) (hst : a.isStale v) (x : Float) :
    a.handle x m = (.ok (), a.meet m.source, []) := by
  rw [handle_marker a x hr, onMarker_eq (h.meet m.source) x hs, tracks_meet, isStale_meet, hv,
    if_neg Bool.false_ne_true, if_pos hst]

namespace Single

theorem not_tracks (h : a.Single) (hw : a.tracks w) (hi : v.initiator = w.initiator) (hne : v ≠ w) :
    a.tracks v = false := Bool.eq_false_iff.mpr fun hv => hne (h.single v w hv hw hi)

/-- A marker that is older than a version under way comes too late. -/
theorem handle_older (h : a.Single) {m : Message} (hr : Wire.read m = .ok (some (.marker v)))
    (hs : v ≠ .sentinel) (hw : a.tracks w) (hsup : w.supersedes v) (x : Float) :
    a.handle x m = (.ok (), a.meet m.source, []) := by
  have hi := ((supersedes_iff w v).mp hsup).1.symm
  have hv : a.tracks v = false :=
    h.not_tracks hw hi fun he => v.not_supersedes_self (he ▸ hsup)
  have hst : a.isStale v := by
    by_contra hst
    exact ((a.isStale_eq_false_iff v).mp (Bool.eq_false_iff.mpr hst)).2.2 w hw hsup
  exact h.toSound.handle_stale hr hs hv hst x

/-- A marker that is newer than a version under way is taken up unless it is stale. -/
theorem handle_newer (h : a.Single) {m : Message} (hr : Wire.read m = .ok (some (.marker v)))
    (hw : a.tracks w) (hsup : v.supersedes w) (hst : a.isStale v = false) (x : Float) :
    v ≠ .sentinel ∧ Marking (a.meet m.source) x v (some v) (a.handle x m).2.1 (a.handle x m).2.2 := by
  obtain ⟨hi, hlt⟩ := (supersedes_iff v w).mp hsup
  have hs : v ≠ .sentinel := by
    rintro rfl
    exact Nat.not_lt_zero _ hlt
  have hm := (h.meet m.source).toSound
  have hv : (a.meet m.source).tracks v = false := by
    rw [tracks_meet]
    exact h.not_tracks hw hi fun he => v.not_supersedes_self (he ▸ hsup)
  have htakes : (a.meet m.source).takes? (.marker v) = some v := by
    refine if_neg (not_or.mpr ⟨hm.ne_current hv hs, ?_⟩)
    rw [hv, isStale_meet, hst]
    simp
  refine ⟨hs, ?_⟩
  rw [handle_marker a x hr, ← htakes]
  exact onMarker_marking hm x hs

end Single

/-- Whatever is under way at a node was started there or has come with a marker. -/
theorem versions_brought {uuid : String} {policy : Policy} {peers : List String}
    {calls : List Call} (hs : ∀ c ∈ calls, c.notice? ≠ some (.marker .sentinel))
    (hv : ((new uuid policy peers).after calls).Knows v) :
    v.initiator = uuid ∨ v ∈ calls.filterMap Call.marked? := by
  have hkept : ((new uuid policy peers).after calls).Sound ∧
      ((new uuid policy peers).after calls).uuid = uuid ∧
      ∀ v, ((new uuid policy peers).after calls).Knows v →
        v.initiator = uuid ∨ v ∈ calls.filterMap Call.marked? := by
    have hmem : ∀ c ∈ calls, c ∈ calls := fun c hc => hc
    refine after_invariant (fun a => a.Sound ∧ a.uuid = uuid ∧
      ∀ v, a.Knows v → v.initiator = uuid ∨ v ∈ calls.filterMap Call.marked?) ?_ hmem
      ⟨new_sound uuid policy peers, rfl, fun v hv => ?_⟩
    · rintro b c ⟨hb, hu, hk⟩ hc
      have t := hb.learns (hs c hc)
      refine ⟨hb.serve (hs c hc), t.uuid.trans hu, fun v hv => ?_⟩
      rcases t.knows v hv with hv | hv | ⟨hi, -⟩
      · exact hk v hv
      · refine Or.inr (List.mem_filterMap.mpr ⟨c, hc, ?_⟩)
        rw [Call.marked?, hv]
      · exact Or.inl (hi.trans hu)
    · rcases hv with hv | hv <;> cases hv
  exact hkept.2.2 v hv

/-- One version of an initiator at a time. -/
theorem one_version_each {uuid : String} {policy : Policy} {peers : List String} {calls : List Call}
    (hs : ∀ c ∈ calls, c.notice? ≠ some (.marker .sentinel))
    (ha : (new uuid policy peers).after calls = a) :
    (∀ v ∈ a.versions, ∀ w ∈ a.versions, v.initiator = w.initiator → v = w) ∧
    a.versions.card ≤ (a.versions.image Version.initiator).card ∧
    a.versions.image Version.initiator ⊆
      insert uuid ((calls.filterMap Call.marked?).map Version.initiator).toFinset ∧
    (∀ m x v, ∀ w ∈ a.versions, Wire.read m = .ok (some (.marker v)) → v ≠ .sentinel →
      w.supersedes v → a.handle x m = (.ok (), a.meet m.source, [])) ∧
    (∀ m x v, ∀ w ∈ a.versions, Wire.read m = .ok (some (.marker v)) → v.supersedes w →
      a.isStale v = false →
      (∃ rest, (a.handle x m).2.2 = (a.meet m.source).announce v ++ rest) ∧
      w ∉ (a.handle x m).2.1.versions ∧ (a.handle x m).2.1.current ≠ w ∧
      ∀ u, u.initiator ≠ v.initiator → Untouched a (a.handle x m).2.1 u) := by
  have h : a.Single := by
    rw [← ha]
    exact after_invariant Single (fun b c hb hc => hb.serve hc) hs (new_single uuid policy peers)
  simp only [h.mem_versions]
  refine ⟨fun v hv w hw => h.single v w hv hw, ?_, fun i hi => ?_,
    fun m x v w hw hr hs hsup => h.handle_older hr hs hw hsup x,
    fun m x v w hw hr hsup hst => ?_⟩
  · refine Nat.le_of_eq (Finset.card_image_of_injOn fun v hv w hw hi => ?_).symm
    exact h.single v w ((h.mem_versions v).mp hv) ((h.mem_versions w).mp hw) hi
  · obtain ⟨v, hv, rfl⟩ := Finset.mem_image.mp hi
    have hk : ((new uuid policy peers).after calls).Knows v := by
      rw [ha]
      exact Or.inl ((h.mem_versions v).mp hv)
    rw [Finset.mem_insert, List.mem_toFinset]
    exact (versions_brought hs hk).imp id (List.mem_map_of_mem (f := Version.initiator))
  · obtain ⟨hne, k⟩ := h.handle_newer hr hw hsup hst x
    have hm := (h.meet m.source)
    have t := hm.marking_turn hne k
    have hw' : (a.meet m.source).tracks w := (a.tracks_meet m.source w).trans hw
    have hws : w ≠ .sentinel := by
      rintro rfl
      rw [h.sentinel_untracked] at hw
      cases hw
    refine ⟨t.effects.imp fun rest he => he.1, ?_, k.current_ne rfl hw' hws hsup, fun u hu => ?_⟩
    · rw [t.sound.mem_versions]
      exact fun hn => k.not_supersedes rfl hn hsup
    · exact (a.meet_untouched m.source u).trans (k.untouched rfl hu)

/-- Versions of two initiators under way in a group of four, with a payload recorded for both. -/
def overtaken : List Call :=
  [.message (Wire.marker ⟨"a", 1⟩) 1, .message (Wire.marker ⟨"c", 5⟩) 1,
    .message (Wire.payload "d" "memo" none) 1]

set_option maxRecDepth 4000 in
/-- An older marker of `c` changes nothing; a newer one of `a` ends the version in progress and
leaves that of `c` as it is. -/
theorem overtaken_versions :
    let a := (new "b" {} ["a", "b", "c", "d"]).after overtaken
    a.versions.card ≤ (a.versions.image Version.initiator).card ∧
      a.handle 2 (Wire.marker ⟨"c", 4⟩) = (.ok (), a.meet "c", []) ∧
      a.current = ⟨"a", 1⟩ ∧ (a.handle 2 (Wire.marker ⟨"a", 3⟩)).2.1.current ≠ ⟨"a", 1⟩ ∧
      Untouched a (a.handle 2 (Wire.marker ⟨"a", 3⟩)).2.1 ⟨"c", 5⟩ := by
  have hs : ∀ c ∈ overtaken, c.notice? ≠ some (.marker .sentinel) := by decide +kernel
  have ha : (new "b" {} ["a", "b", "c", "d"]).after overtaken =
      (new "b" {} ["a", "b", "c", "d"]).after overtaken := rfl
  obtain ⟨-, hcard, -, holder, hnewer⟩ := one_version_each hs ha
  have hold := holder (Wire.marker ⟨"c", 4⟩) 2 ⟨"c", 4⟩ ⟨"c", 5⟩ (by decide +kernel)
    (by decide +kernel) (by decide) (by decide)
  obtain ⟨-, -, hne, hother⟩ := hnewer (Wire.marker ⟨"a", 3⟩) 2 ⟨"a", 3⟩ ⟨"a", 1⟩
    (by decide +kernel) (by decide +kernel) (by decide) (by decide +kernel)
  exact ⟨hcard, hold, by decide +kernel, hne, hother ⟨"c", 5⟩ (by decide)⟩

end Agent

end PhasedGrid.Snapshot
