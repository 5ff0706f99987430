import PhasedGrid.Proofs.Snapshot.Reading
import PhasedGrid.Proofs.Snapshot.Turns

/-!
What plays no part in how a collector handles the traffic of one snapshot: its policy, how many
versions it has started, who asked for the last one, and which other versions it has finished.
-/

namespace PhasedGrid.Snapshot

set_option autoImplicit false

open PhasedGrid.Peer (Group Message)

/-- Traffic of a snapshot `v`, as opposed to what starts or ends one. -/
def Notice.Within (v : Version) : Notice → Prop
  | .marker w => w = v
  | .state _ | .payload _ _ _ => True
  | .peerList _ _ | .request _ _ => False

namespace Agent

/-- Two collectors with the same tables, which have both finished `v` or neither. -/
structure Resembles (v : Version) (a b : Agent) : Prop where
  uuid : b.uuid = a.uuid
  peers : b.peers = a.peers
  current : b.current = a.current
  markers : b.markers = a.markers
  collected : b.collected = a.collected
  recording : b.recording = a.recording
  retired : v ∈ b.retired ↔ v ∈ a.retired

/-- The version that a node finishes last is among those that it remembers. -/
theorem mem_retire (a : Agent) (v : Version) : v ∈ (a.retire v).retired := by
  change v ∈ (a.retired ++ [v]).drop ((a.retired ++ [v]).length - retiredCapacity)
  rw [List.drop_append_of_le_length]
  · exact List.mem_append_right _ (List.mem_singleton.mpr rfl)
  · rw [List.length_append, List.length_singleton, retiredCapacity]
    omega

namespace Resembles

variable {v : Version} {a b : Agent}

theorem tracks (h : Resembles v a b) (w : Version) : b.tracks w = a.tracks w :=
  congrArg (Table.has w) h.markers

theorem markerCount (h : Resembles v a b) (w : Version) : b.markerCount w = a.markerCount w :=
  congrArg (fun t => (Table.get? w t).getD 0) h.markers

theorem fragments (h : Resembles v a b) (w : Version) : b.fragments w = a.fragments w :=
  congrArg (fun t => (Table.get? w t).getD []) h.collected

theorem toOthers (h : Resembles v a b) (m : Message) : b.toOthers m = a.toOthers m :=
  congrArg (fun g => g.others.map fun p => Effect.send p m) h.peers

theorem shipBack (h : Resembles v a b) (w : Version) : b.shipBack w = a.shipBack w := by
  rw [Agent.shipBack, Agent.shipBack, h.fragments, h.uuid]

theorem isStale (h : Resembles v a b) : b.isStale v = a.isStale v := by
  have hret : b.retired.contains v = a.retired.contains v := by
    rw [Bool.eq_iff_iff, List.contains_iff_mem, List.contains_iff_mem]
    exact h.retired
  rw [Agent.isStale, Agent.isStale, hret, h.uuid, h.markers]

section Steps

theorem meet (h : Resembles v a b) (source : String) :
    Resembles v (a.meet source) (b.meet source) := by
  unfold Agent.meet
  split
  · exact h
  · exact { h with peers := congrArg (fun g => g.insert source) h.peers }

theorem adopt (h : Resembles v a b) (w : Version) :
    Resembles v { a with current := w } { b with current := w } := { h with current := rfl }

theorem file (h : Resembles v a b) (w : Version) (f : Fragment) :
    Resembles v (a.file w f) (b.file w f) := by
  refine { h with collected := ?_ }
  change Table.insert w (b.fragments w ++ [f]) b.collected = _
  rw [h.fragments, h.collected]
  rfl

theorem bump (h : Resembles v a b) (w : Version) : Resembles v (a.bump w) (b.bump w) := by
  refine { h with markers := ?_ }
  change Table.insert w (min (b.markerCount w + 1) b.peers.size) b.markers = _
  rw [h.markerCount, h.peers, h.markers]
  rfl

theorem track (h : Resembles v a b) (w : Version) (x : Float) :
    Resembles v (a.track w x) (b.track w x) := by
  have hmarkers : Table.insert w 1 b.markers = Table.insert w 1 a.markers :=
    congrArg (Table.insert w 1) h.markers
  have k : Resembles v { a with markers := Table.insert w 1 a.markers }
      { b with markers := Table.insert w 1 b.markers } := { h with markers := hmarkers }
  have hreading : b.track w x =
      Agent.file { b with markers := Table.insert w 1 b.markers } w (.gateway a.uuid x) :=
    congrArg (fun u => Agent.file { b with markers := Table.insert w 1 b.markers } w (.gateway u x))
      h.uuid
  rw [hreading]
  exact k.file w (.gateway a.uuid x)

theorem record (h : Resembles v a b) (w : Version) : Resembles v (a.record w) (b.record w) :=
  { h with recording := congrArg (Ordered.insert w) h.recording }

theorem stopRecording (h : Resembles v a b) (w : Version) :
    Resembles v (a.stopRecording w) (b.stopRecording w) :=
  { h with recording := congrArg (List.filter (· ≠ w)) h.recording }

theorem retire (h : Resembles v a b) : Resembles v (a.retire v) (b.retire v) where
  uuid := h.uuid
  peers := h.peers
  current := h.current
  markers := congrArg (Table.erase v) h.markers
  collected := congrArg (Table.erase v) h.collected
  recording := congrArg (List.filter (· ≠ v)) h.recording
  retired := iff_of_true (b.mem_retire v) (a.mem_retire v)

theorem onState (h : Resembles v a b) (f : Fragment) : Resembles v (a.onState f) (b.onState f) := by
  unfold Agent.onState
  rw [h.current]
  split
  · exact h
  · exact h.file a.current f

theorem onPayload (h : Resembles v a b) (value sender : String) (tag : Option Version) :
    Resembles v (a.onPayload value sender tag) (b.onPayload value sender tag) := by
  have htargets : b.payloadTargets tag = a.payloadTargets tag := by
    cases tag with
    | none => exact h.recording
    | some w =>
      unfold Agent.payloadTargets Agent.isRecording
      rw [h.recording]
  rw [onPayload_eq, onPayload_eq, htargets, h.uuid]
  clear htargets
  generalize a.payloadTargets tag = ws
  generalize Fragment.transit value sender a.uuid = f
  induction ws generalizing a b with
  | nil => exact h
  | cons w rest ih => exact ih (h.file w f)

end Steps

/-- Two turns with the same effects, after which both are alike. -/
def Keeps (v : Version) (p q : Agent × List Effect) : Prop := q.2 = p.2 ∧ Resembles v p.1 q.1

theorem onCurrentMarker (h : Resembles v a b) :
    Keeps v (a.onCurrentMarker v) (b.onCurrentMarker v) := by
  have k := h.bump v
  unfold Agent.onCurrentMarker
  dsimp only
  rw [k.uuid, k.peers, k.markerCount, k.shipBack]
  by_cases hi : v.initiator = (a.bump v).uuid
  · rw [if_pos hi, if_pos hi]
    by_cases hn : (a.bump v).peers.size ≤ (a.bump v).markerCount v
    · rw [if_pos hn, if_pos hn]
      exact ⟨rfl, k.stopRecording v⟩
    · rw [if_neg hn, if_neg hn]
      exact ⟨rfl, k⟩
  · rw [if_neg hi, if_neg hi]
    by_cases hn : (a.bump v).peers.size ≤ (a.bump v).markerCount v + 1
    · rw [if_pos hn, if_pos hn]
      exact ⟨rfl, k.retire.adopt .sentinel⟩
    · rw [if_neg hn, if_neg hn]
      exact ⟨rfl, k⟩

theorem onTrackedMarker (h : Resembles v a b) :
    Keeps v (a.onTrackedMarker v) (b.onTrackedMarker v) := by
  have k := h.bump v
  unfold Agent.onTrackedMarker
  dsimp only
  rw [k.peers, k.markerCount, k.shipBack]
  by_cases hn : (a.bump v).peers.size ≤ (a.bump v).markerCount v + 1
  · rw [if_pos hn, if_pos hn]
    exact ⟨rfl, k.retire⟩
  · rw [if_neg hn, if_neg hn]
    exact ⟨rfl, k⟩

theorem onFirstMarker (h : Resembles v a b) (hv : ∀ w, a.tracks w → w = v) (x : Float) :
    Keeps v (a.onFirstMarker x v) (b.onFirstMarker x v) := by
  have hb : ∀ w, b.tracks w → w = v := fun w hw => hv w (h.tracks w ▸ hw)
  have hadopted : Resembles v
      ((if a.current.isSentinel then { a with current := v } else a).track v x)
      ((if b.current.isSentinel then { b with current := v } else b).track v x) := by
    rw [h.current]
    split
    · exact (h.adopt v).track v x
    · exact h.track v x
  unfold Agent.onFirstMarker
  rw [abandonSuperseded_eq_self fun w hw _ => hv w hw,
    abandonSuperseded_eq_self fun w hw _ => hb w hw]
  dsimp only
  rw [hadopted.toOthers, hadopted.peers, hadopted.shipBack, h.current]
  generalize (if a.current.isSentinel then { a with current := v } else a).track v x = c at *
  rw [h.current] at hadopted
  generalize (if a.current.isSentinel then { b with current := v } else b).track v x = d at *
  by_cases hn : c.peers.size ≤ 2
  · rw [if_pos hn, if_pos hn]
    refine ⟨rfl, ?_⟩
    dsimp only
    split
    · exact hadopted.retire.adopt .sentinel
    · exact hadopted.retire
  · rw [if_neg hn, if_neg hn]
    exact ⟨rfl, hadopted.record v⟩

theorem onMarker (h : Resembles v a b) (hv : ∀ w, a.tracks w → w = v) (x : Float) :
    Keeps v (a.onMarker x v) (b.onMarker x v) := by
  unfold Agent.onMarker
  rw [h.current, h.markers, h.isStale]
  split
  · exact h.onCurrentMarker
  split
  · exact h.onTrackedMarker
  split
  · exact ⟨rfl, h⟩
  · exact h.onFirstMarker hv x

/-- Collectors that are alike do the same with the traffic of `v`. -/
theorem handle (h : Resembles v a b) (hv : ∀ w, a.tracks w → w = v) (x : Float) {m : Message}
    (hm : ∀ n, Wire.read m = .ok (some n) → n.Within v) :
    Keeps v (a.handle x m).2 (b.handle x m).2 := by
  have k := h.meet m.source
  have hv' : ∀ w, (a.meet m.source).tracks w → w = v := by
    unfold Agent.meet
    split
    · exact hv
    · exact hv
  unfold Agent.handle
  dsimp only
  cases hread : Wire.read m with
  | error e => exact ⟨rfl, k⟩
  | ok notice =>
    cases notice with
    | none => exact ⟨rfl, k⟩
    | some n =>
      have hw := hm n hread
      cases n with
      | marker w =>
        obtain rfl : w = v := hw
        exact k.onMarker hv' x
      | state f => exact ⟨rfl, k.onState f⟩
      | payload value sender tag => exact ⟨rfl, k.onPayload value sender tag⟩
      | peerList leader peers => exact hw.elim
      | request module source => exact hw.elim

/-- Nodes that start the same version are alike from then on, whatever they kept before. -/
theorem initiate (hu : b.uuid = a.uuid) (hp : b.peers = a.peers) (hs : b.started = a.started)
    (hr : v ∈ b.retired ↔ v ∈ a.retired) (x : Float) :
    Resembles v (a.initiate x).1 (b.initiate x).1 := by
  have hnext : b.nextVersion = a.nextVersion := by
    rw [nextVersion, nextVersion, hu, hs]
  have h : Resembles v { a.clear with started := a.started + 1, current := a.nextVersion }
      { b.clear with started := b.started + 1, current := b.nextVersion } :=
    ⟨hu, hp, hnext, rfl, rfl, rfl, hr⟩
  have k := (h.track a.nextVersion x).record a.nextVersion
  unfold Agent.initiate
  rw [hnext] at k ⊢
  exact { k with }

end Resembles

/-- A node among other peers. -/
def regroup (a : Agent) (peers : List String) : Agent := { a with peers := .ofList a.uuid peers }

/-- A peer list makes the peers, whoever the node counted with before and whoever sends the list. -/
theorem handle_peerList {a : Agent} (ho : a.peers.own = a.uuid) (leader : String)
    {peers : List String} (hne : peers ≠ [])
    (h : ∀ p ∈ peers, p ≠ "" ∧ Text.trim p = p ∧ ',' ∉ p.toList) (x : Float) :
    (a.handle x (Wire.peerList leader peers)).2 =
      if leader = a.uuid then (a.regroup peers).initiate x
      else ({ (a.regroup peers).clear with current := .sentinel }, []) := by
  have hgroup : ∀ source, { a.meet source with peers := (a.meet source).peers.announce peers } =
      a.regroup peers := by
    intro source
    have hown : (a.meet source).peers.own = a.uuid := by
      unfold meet
      split <;> exact ho
    rw [Group.announce_eq, hown]
    unfold meet
    split <;> rfl
  have huuid : (a.meet (Wire.peerList leader peers).source).uuid = a.uuid := by
    unfold meet
    split <;> rfl
  unfold handle
  rw [Wire.read_peerList leader hne h]
  dsimp only [onNotice, onPeerList]
  by_cases hl : leader = a.uuid
  · rw [if_pos hl, if_pos (hl.trans huuid.symm)]
    exact congrArg (fun b => b.initiate x) (hgroup _)
  · rw [if_neg hl, if_neg fun he => hl (he.trans huuid)]
    exact congrArg (fun b => ({ b.clear with current := .sentinel }, [])) (hgroup _)

end Agent

end PhasedGrid.Snapshot
