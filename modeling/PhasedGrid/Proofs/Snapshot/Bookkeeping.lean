import PhasedGrid.Proofs.Snapshot.Tracking

/-!
The bookkeeping that every collector keeps in order, and the cases of a marker under it. A version
is tracked in all tables or in none; a version of another node is tracked only while it is being
recorded and short of its last marker; of a node's own versions only the one in progress is
tracked. Under this order the version in progress and one tracked beside it fare alike.
-/

namespace PhasedGrid.Snapshot

set_option autoImplicit false

namespace Agent

theorem nextVersion_ne_sentinel (a : Agent) : a.nextVersion ≠ .sentinel := fun h =>
  Nat.succ_ne_zero a.started (congrArg Version.sequence h)

structure Sound (a : Agent) : Prop where
  own_member : 1 ≤ a.peers.size
  same_keys : ∀ v, Table.has v a.collected = a.tracks v
  recording_tracked : ∀ v ∈ a.recording, a.tracks v
  recording_nodup : a.recording.Nodup
  current_tracked : a.current = .sentinel ∨ a.tracks a.current
  sentinel_untracked : a.tracks .sentinel = false
  own_first : ∀ v, a.tracks v → ∃ x rest, a.fragments v = .gateway a.uuid x :: rest
  count : ∀ v, a.tracks v → 1 ≤ a.markerCount v ∧ a.markerCount v ≤ a.peers.size
  foreign : ∀ v, a.tracks v → v.initiator ≠ a.uuid →
    v ∈ a.recording ∧ a.markerCount v + 1 < a.peers.size
  own : ∀ v, a.tracks v → v.initiator = a.uuid → v = a.current

/-- With nothing tracked there is nothing to keep in order. -/
theorem sound_of_empty {a : Agent} (hn : 1 ≤ a.peers.size) (hm : a.markers = [])
    (hc : a.collected = []) (hr : a.recording = []) (hs : a.current = .sentinel) : a.Sound := by
  have ht : ∀ v, a.tracks v = false := by
    intro v
    rw [tracks, hm]
    rfl
  refine ⟨hn, fun v => ?_, ?_, ?_, Or.inl hs, ht _, ?_, ?_, ?_, ?_⟩
  · rw [ht, hc]
    rfl
  · simp [hr]
  · simp [hr]
  all_goals
    intro v hv
    rw [ht] at hv
    cases hv

namespace Sound

variable {a : Agent}

theorem fragments_of_not_tracks (h : a.Sound) {v : Version} (hv : a.tracks v = false) :
    a.fragments v = [] := by
  have hc := (h.same_keys v).trans hv
  simp [fragments, (Table.get?_eq_none_iff v a.collected).mpr hc]

theorem ne_current (h : a.Sound) {v : Version} (hv : a.tracks v = false) (hs : v ≠ .sentinel) :
    v ≠ a.current := by
  rintro rfl
  rcases h.current_tracked with hc | hc
  · exact hs hc
  · exact absurd hc (by simp [hv])

theorem drops (h : a.Sound) {b : Agent} {ws : List Version} (d : Drops a b ws) : b.Sound := by
  have htracks : ∀ w, b.tracks w → w ∉ ws ∧ a.tracks w := by
    intro w hw
    rw [d.tracks_eq, Bool.and_eq_true, Bool.not_eq_true', decide_eq_false_iff_not] at hw
    exact hw
  refine ⟨?_, fun v => ?_, fun v hv => ?_, ?_, ?_, ?_, fun v hv => ?_, fun v hv => ?_,
    fun v hv hi => ?_, fun v hv hi => ?_⟩
  · rw [d.peers]
    exact h.own_member
  · rw [d.tracks_eq, ← h.same_keys v, Table.has_eq, Table.has_eq, d.collected v]
    by_cases hv : v ∈ ws <;> simp [hv]
  · obtain ⟨hr, hw⟩ := (d.mem_recording v).mp hv
    rw [d.tracks_eq, h.recording_tracked v hr]
    simp [hw]
  · rw [d.recording]
    exact h.recording_nodup.filter _
  · rw [d.current]
    by_cases hc : a.current ∈ ws
    · exact Or.inl (if_pos hc)
    · rw [if_neg hc, d.tracks_eq]
      exact h.current_tracked.imp id fun ht => by simp [hc, ht]
  · rw [d.tracks_eq, h.sentinel_untracked, Bool.and_false]
  · obtain ⟨hw, ht⟩ := htracks v hv
    rw [d.fragments_eq hw, d.uuid]
    exact h.own_first v ht
  · obtain ⟨hw, ht⟩ := htracks v hv
    rw [d.markerCount_eq hw, d.peers]
    exact h.count v ht
  · obtain ⟨hw, ht⟩ := htracks v hv
    rw [d.uuid] at hi
    rw [d.markerCount_eq hw, d.peers, d.mem_recording]
    obtain ⟨hr, hn⟩ := h.foreign v ht hi
    exact ⟨⟨hr, hw⟩, hn⟩
  · obtain ⟨hw, ht⟩ := htracks v hv
    rw [d.uuid] at hi
    have hc := h.own v ht hi
    rw [d.current, if_neg (hc ▸ hw), hc]

theorem file (h : a.Sound) {v : Version} (hv : a.tracks v) (f : Fragment) : (a.file v f).Sound := by
  refine ⟨h.own_member, fun w => ?_, h.recording_tracked, h.recording_nodup, h.current_tracked,
    h.sentinel_untracked, fun w hw => ?_, h.count, h.foreign, h.own⟩
  · rw [tracks_file, Agent.file, Table.has_insert, h.same_keys w]
    by_cases hvw : v = w
    · subst hvw
      simp [hv]
    · simp [hvw]
  · obtain ⟨x, rest, hx⟩ := h.own_first w hw
    rw [fragments_file]
    split
    · rename_i hvw
      subst hvw
      exact ⟨x, rest ++ [f], by rw [hx]; rfl⟩
    · exact ⟨x, rest, hx⟩

theorem bump (h : a.Sound) {v : Version} (hv : a.tracks v)
    (hf : v.initiator ≠ a.uuid → a.markerCount v + 2 < a.peers.size) : (a.bump v).Sound := by
  have htracks : ∀ w, (a.bump v).tracks w = a.tracks w := by
    intro w
    rw [tracks_bump]
    by_cases hvw : v = w
    · subst hvw
      simp [hv]
    · simp [hvw]
  refine ⟨h.own_member, fun w => ?_, fun w hw => ?_, h.recording_nodup, ?_, ?_, fun w hw => ?_,
    fun w hw => ?_, fun w hw hi => ?_, fun w hw hi => ?_⟩
  · rw [htracks]
    exact h.same_keys w
  · rw [htracks]
    exact h.recording_tracked w hw
  · rw [htracks]
    exact h.current_tracked
  · rw [htracks]
    exact h.sentinel_untracked
  · rw [htracks] at hw
    exact h.own_first w hw
  · rw [htracks] at hw
    have hc := h.count w hw
    have hm := h.own_member
    rw [markerCount_bump]
    split
    · rename_i hvw
      subst hvw
      change 1 ≤ min _ a.peers.size ∧ min _ a.peers.size ≤ a.peers.size
      omega
    · exact hc
  · rw [htracks] at hw
    have hc := h.foreign w hw hi
    rw [markerCount_bump]
    refine ⟨hc.1, ?_⟩
    change _ + 1 < a.peers.size
    split
    · rename_i hvw
      subst hvw
      have := hf hi
      omega
    · exact hc.2
  · rw [htracks] at hw
    exact h.own w hw hi

theorem stopRecording (h : a.Sound) {v : Version} (hv : v.initiator = a.uuid) :
    (a.stopRecording v).Sound := by
  refine ⟨h.own_member, h.same_keys, fun w hw => ?_, h.recording_nodup.filter _,
    h.current_tracked, h.sentinel_untracked, h.own_first, h.count, fun w hw hi => ?_, h.own⟩
  · exact h.recording_tracked w (List.mem_filter.mp hw).1
  · refine ⟨List.mem_filter.mpr ⟨(h.foreign w hw hi).1, ?_⟩, (h.foreign w hw hi).2⟩
    have : w ≠ v := fun e => hi (e ▸ hv)
    simpa using this

theorem tally (h : a.Sound) {v : Version} (hv : a.tracks v) (hi : v.initiator = a.uuid) :
    (a.tally v).Sound := by
  have hb := h.bump hv fun hne => absurd hi hne
  unfold Agent.tally
  split
  · exact hb.stopRecording hi
  · exact hb

theorem adds (h : a.Sound) {b : Agent} {x : Float} {v : Version} (d : Adds a b x v)
    (hv : a.tracks v = false) (hs : v ≠ .sentinel)
    (hn : v.initiator ≠ a.uuid → 2 < a.peers.size)
    (hi : v.initiator = a.uuid → a.current = .sentinel) : (b.record v).Sound := by
  have hrec : ∀ w, w ∈ (b.record v).recording ↔ w = v ∨ w ∈ a.recording := by
    intro w
    rw [← d.recording]
    exact Ordered.mem_insert v w b.recording
  have hnr : v ∉ b.recording := by
    rw [d.recording]
    intro hr
    rw [h.recording_tracked v hr] at hv
    cases hv
  have htracks : ∀ w, (b.record v).tracks w = (decide (v = w) || a.tracks w) := d.tracks_eq
  have hold : ∀ w, (b.record v).tracks w → v ≠ w → a.tracks w := by
    intro w hw hne
    simpa [htracks, hne] using hw
  refine ⟨?_, fun w => ?_, fun w hw => ?_, ?_, ?_, ?_, fun w hw => ?_, fun w hw => ?_,
    fun w hw hf => ?_, fun w hw hf => ?_⟩
  · change 1 ≤ b.peers.size
    rw [d.peers]
    exact h.own_member
  · have hk := h.same_keys w
    rw [htracks, ← hk, Table.has_eq, Table.has_eq]
    change (Table.get? w b.collected).isSome = _
    rw [d.collected w]
    by_cases hvw : v = w <;> simp [hvw]
  · rw [htracks]
    rcases (hrec w).mp hw with rfl | hw
    · simp
    · simp [h.recording_tracked w hw]
  · refine (Ordered.insert_perm hnr).nodup_iff.mpr (List.nodup_cons.mpr ⟨hnr, ?_⟩)
    rw [d.recording]
    exact h.recording_nodup
  · rw [htracks]
    change b.current = .sentinel ∨ (decide (v = b.current) || a.tracks b.current) = true
    rw [d.current]
    split
    · exact Or.inr (by simp)
    · exact h.current_tracked.imp id fun ht => by simp [ht]
  · simp [htracks, h.sentinel_untracked, hs]
  · change ∃ y rest, b.fragments w = .gateway b.uuid y :: rest
    rw [d.fragments_eq, d.uuid]
    split
    · exact ⟨x, [], by rw [h.fragments_of_not_tracks hv]; rfl⟩
    · rename_i hne
      exact h.own_first w (hold w hw hne)
  · change 1 ≤ b.markerCount w ∧ b.markerCount w ≤ b.peers.size
    have := h.own_member
    rw [d.markerCount_eq, d.peers]
    split
    · omega
    · rename_i hne
      exact h.count w (hold w hw hne)
  · change w.initiator ≠ b.uuid at hf
    rw [d.uuid] at hf
    change w ∈ (b.record v).recording ∧ b.markerCount w + 1 < b.peers.size
    rw [d.markerCount_eq, d.peers, hrec]
    split
    · rename_i hvw
      have := hn (hvw ▸ hf)
      exact ⟨Or.inl hvw.symm, by omega⟩
    · rename_i hne
      obtain ⟨hr, hc⟩ := h.foreign w (hold w hw hne) hf
      exact ⟨Or.inr hr, hc⟩
  · change w.initiator = b.uuid at hf
    rw [d.uuid] at hf
    change w = b.current
    rw [d.current]
    by_cases hvw : v = w
    · subst hvw
      rw [if_pos (hi hf)]
    · have hw' := hold w hw hvw
      have hcur := h.own w hw' hf
      rw [if_neg, hcur]
      intro hc
      rw [hcur, hc, h.sentinel_untracked] at hw'
      cases hw'

/-- A version of another node that is taken up, with the versions it supersedes gone. -/
theorem takeUp (h : a.Sound) {x : Float} {v : Version} (hv : a.tracks v = false) (hs : v ≠ .sentinel)
    (hi : v.initiator ≠ a.uuid) (hn : 2 < a.peers.size) : ((a.takeUp x v).record v).Sound := by
  have d := a.abandonSuperseded_drops v
  refine (h.drops d).adds (a.takeUp_adds x v) ?_ hs (fun _ => ?_) fun he => absurd ?_ hi
  · rw [d.tracks_eq, hv, Bool.and_false]
  · rw [d.peers]
    exact hn
  · rw [← d.uuid]
    exact he

end Sound

/-- A node that starts a version of its own keeps nothing of what it had. -/
theorem initiate_sound {a : Agent} (hn : 1 ≤ a.peers.size) (x : Float) : (a.initiate x).1.Sound := by
  have hf : a.fresh.Sound := sound_of_empty hn rfl rfl rfl rfl
  obtain ⟨b, d, hb⟩ := a.initiate_adds x
  have hb' := hf.adds d rfl a.nextVersion_ne_sentinel (fun hne => absurd rfl hne) fun _ => rfl
  rw [hb]
  exact { hb' with }

theorem Sound.initiate {a : Agent} (h : a.Sound) (x : Float) : (a.initiate x).1.Sound :=
  initiate_sound h.own_member x

end Agent

end PhasedGrid.Snapshot
