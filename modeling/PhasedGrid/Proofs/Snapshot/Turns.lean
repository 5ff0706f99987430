import PhasedGrid.Proofs.Snapshot.Bookkeeping

/-!
Everything that a collector can do in one turn, case by case. The version in progress and the
versions tracked beside it need no cases of their own.
-/

namespace PhasedGrid.Snapshot

set_option autoImplicit false

open PhasedGrid.Schedule (TimerStatus)

namespace Agent

theorem retire_bump (a : Agent) (v : Version) : (a.bump v).retire v = a.retire v := by
  simp [retire, bump, Table.erase_insert]

theorem abandon_of_current {a : Agent} {v : Version} (h : a.current = v) :
    a.abandon v = { a.retire v with current := .sentinel } := if_pos h

theorem abandon_of_ne {a : Agent} {v : Version} (h : a.current ≠ v) : a.abandon v = a.retire v :=
  if_neg h

/-- What a node tells its peers and itself when it takes up a version. -/
def announce (a : Agent) (v : Version) : List Effect := a.toOthers (Wire.marker v)

/-- What a node does with a marker of `v`, by how far it is with `v`: whether it takes a reading,
its next state, and what it sends. -/
inductive Marking (a : Agent) (x : Float) (v : Version) :
    Option Version → Agent → List Effect → Prop where
  | own : a.tracks v → v.initiator = a.uuid → Marking a x v none (a.tally v) []
  | counted : a.tracks v → v.initiator ≠ a.uuid → a.markerCount v + 2 < a.peers.size →
      Marking a x v none (a.bump v) []
  | finished : a.tracks v → v.initiator ≠ a.uuid → a.peers.size = a.markerCount v + 2 →
      Marking a x v none (a.abandon v) (a.shipBack v)
  | stale : a.tracks v = false → a.isStale v → Marking a x v none a []
  | opened : a.tracks v = false → a.isStale v = false → 2 < a.peers.size →
      Marking a x v (some v) ((a.takeUp x v).record v) (a.announce v)
  | passed : a.tracks v = false → a.isStale v = false → a.peers.size ≤ 2 →
      Marking a x v (some v) ((a.abandonSuperseded v).abandon v)
        (a.announce v ++ [.send v.initiator (Wire.fragment a.uuid (.gateway a.uuid x))])

/-- The version for which a node records its own reading when it handles a notice. -/
def takes? (a : Agent) : Notice → Option Version
  | .peerList leader _ => if leader = a.uuid then some a.nextVersion else none
  | .request _ _ => some a.nextVersion
  | .marker v => if v = a.current ∨ a.tracks v ∨ a.isStale v then none else some v
  | .state _ | .payload _ _ _ => none

/-- What becomes of a version of another node when one more marker of it arrives. -/
def advance (a : Agent) (v : Version) : Agent × List Effect :=
  if a.peers.size ≤ (a.bump v).markerCount v + 1 then (a.abandon v, a.shipBack v)
  else (a.bump v, [])

theorem onCurrentMarker_eq (a : Agent) {v : Version} (h : a.current = v) :
    a.onCurrentMarker v = if v.initiator = a.uuid then (a.tally v, []) else a.advance v := by
  unfold onCurrentMarker advance
  rw [abandon_of_current h, ← retire_bump]
  by_cases hi : v.initiator = a.uuid
  · rw [if_pos hi]
    exact if_pos hi
  · rw [if_neg hi]
    exact if_neg hi

theorem onTrackedMarker_eq (a : Agent) {v : Version} (h : a.current ≠ v) :
    a.onTrackedMarker v = a.advance v := by
  unfold onTrackedMarker advance
  rw [abandon_of_ne h, ← retire_bump]
  rfl

/-- Taking a version up and dropping it at once leaves no trace of it but its place among the
finished ones. -/
theorem retire_takeUp (a : Agent) (x : Float) (v : Version) :
    (a.takeUp x v).retire v =
      { (a.abandonSuperseded v).retire v with current := (a.takeUp x v).current } := by
  by_cases hc : (a.abandonSuperseded v).current.isSentinel <;>
    simp [takeUp, hc, track, file, retire, Table.erase_insert]

theorem onFirstMarker_eq {a : Agent} (h : a.Sound) (x : Float) {v : Version}
    (hv : a.tracks v = false) (hs : v ≠ .sentinel) :
    a.onFirstMarker x v =
      if a.peers.size ≤ 2 then
        ((a.abandonSuperseded v).abandon v,
          a.announce v ++ [.send v.initiator (Wire.fragment a.uuid (.gateway a.uuid x))])
      else ((a.takeUp x v).record v, a.announce v) := by
  have d := a.abandonSuperseded_drops v
  have k := a.takeUp_adds x v
  have hb := h.drops d
  have hbv : (a.abandonSuperseded v).tracks v = false := by rw [d.tracks_eq, hv, Bool.and_false]
  have hpeers : (a.takeUp x v).peers = a.peers := k.peers.trans d.peers
  have hto : (a.takeUp x v).toOthers (Wire.marker v) = a.announce v := by
    rw [toOthers, hpeers]
    rfl
  have hship : (a.takeUp x v).shipBack v =
      [.send v.initiator (Wire.fragment a.uuid (.gateway a.uuid x))] := by
    rw [shipBack, k.fragments_eq, if_pos rfl, hb.fragments_of_not_tracks hbv, k.uuid, d.uuid]
    rfl
  have hnext : (if (a.abandonSuperseded v).current.isSentinel then
      { (a.takeUp x v).retire v with current := .sentinel } else (a.takeUp x v).retire v) =
      (a.abandonSuperseded v).abandon v := by
    rw [abandon_of_ne (Ne.symm (hb.ne_current hbv hs)), retire_takeUp, k.current]
    by_cases hc : (a.abandonSuperseded v).current = .sentinel
    · rw [if_pos (by simp [Version.isSentinel, hc])]
      simp [retire, hc]
    · rw [if_neg (by simp [Version.isSentinel, hc]), if_neg hc]
      simp [retire]
  unfold onFirstMarker
  change (if (a.takeUp x v).peers.size ≤ 2 then
    (_, (a.takeUp x v).toOthers (Wire.marker v) ++ (a.takeUp x v).shipBack v)
    else ((a.takeUp x v).record v, (a.takeUp x v).toOthers (Wire.marker v))) = _
  rw [hpeers, hto, hship]
  split
  · exact congrArg (Prod.mk · _) hnext
  · rfl

theorem onMarker_eq {a : Agent} (h : a.Sound) (x : Float) {v : Version} (hs : v ≠ .sentinel) :
    a.onMarker x v =
      if a.tracks v then (if v.initiator = a.uuid then (a.tally v, []) else a.advance v)
      else if a.isStale v then (a, []) else a.onFirstMarker x v := by
  unfold onMarker
  by_cases hv : a.tracks v
  · rw [if_pos hv]
    by_cases hcur : v = a.current
    · rw [if_pos hcur, onCurrentMarker_eq a hcur.symm]
    · have hi : v.initiator ≠ a.uuid := fun hi => hcur (h.own v hv hi)
      rw [if_neg hcur, if_pos (show Table.has v a.markers from hv), if_neg hi,
        onTrackedMarker_eq a (Ne.symm hcur)]
  · have hcur : v ≠ a.current := h.ne_current (by simpa using hv) hs
    rw [if_neg hv, if_neg hcur, if_neg (show ¬ Table.has v a.markers from hv)]

theorem onMarker_marking {a : Agent} (h : a.Sound) (x : Float) {v : Version} (hs : v ≠ .sentinel) :
    Marking a x v (a.takes? (.marker v)) (a.onMarker x v).1 (a.onMarker x v).2 := by
  rw [onMarker_eq h x hs, takes?]
  by_cases hv : a.tracks v
  · rw [if_pos hv, if_pos (Or.inr (Or.inl hv))]
    by_cases hi : v.initiator = a.uuid
    · rw [if_pos hi]
      exact .own hv hi
    · have hc := (h.foreign v hv hi).2
      have hm : (a.bump v).markerCount v = a.markerCount v + 1 := by
        rw [markerCount_bump, if_pos rfl]
        omega
      rw [if_neg hi, advance, hm]
      by_cases hn : a.peers.size ≤ a.markerCount v + 1 + 1
      · rw [if_pos hn]
        exact .finished hv hi (by omega)
      · rw [if_neg hn]
        exact .counted hv hi (by omega)
  · have hv' : a.tracks v = false := by simpa using hv
    rw [if_neg hv]
    by_cases hst : a.isStale v
    · rw [if_pos hst, if_pos (Or.inr (Or.inr hst))]
      exact .stale hv' hst
    · have hst' : a.isStale v = false := by simpa using hst
      have hnone : ¬ (v = a.current ∨ a.tracks v ∨ a.isStale v) :=
        not_or.mpr ⟨h.ne_current hv' hs, not_or.mpr ⟨hv, hst⟩⟩
      rw [if_neg hst, if_neg hnone, onFirstMarker_eq h x hv' hs]
      by_cases hn : a.peers.size ≤ 2
      · rw [if_pos hn]
        exact .passed hv' hst' hn
      · rw [if_neg hn]
        exact .opened hv' hst' (by omega)

theorem Sound.marking {a b : Agent} (h : a.Sound) {x : Float} {v : Version} (hs : v ≠ .sentinel)
    {took : Option Version} {effects : List Effect} (m : Marking a x v took b effects) : b.Sound := by
  have hforeign : a.isStale v = false → v.initiator ≠ a.uuid := by
    intro hst
    simp only [isStale, Bool.or_eq_false_iff, decide_eq_false_iff_not] at hst
    exact hst.1.2
  cases m with
  | own hv hi => exact h.tally hv hi
  | counted hv hi hn => exact h.bump hv fun _ => hn
  | finished hv hi hn => exact h.drops (a.abandon_drops v)
  | stale hv hst => exact h
  | opened hv hst hn => exact h.takeUp hv hs (hforeign hst) hn
  | passed hv hst hn =>
    exact (h.drops (a.abandonSuperseded_drops v)).drops (abandon_drops _ v)

theorem foldl_file_eq (a : Agent) (ws : List Version) (f : Fragment) :
    ws.foldl (fun a v => a.file v f) a =
      { a with collected := (ws.foldl (fun a v => a.file v f) a).collected } := by
  induction ws generalizing a with
  | nil => rfl
  | cons w rest ih =>
    rw [List.foldl_cons, ih (a.file w f)]
    rfl

theorem fragments_foldl_file (a : Agent) (ws : List Version) (f : Fragment) (v : Version) :
    (ws.foldl (fun a v => a.file v f) a).fragments v =
      a.fragments v ++ List.replicate (ws.count v) f := by
  induction ws generalizing a with
  | nil => simp
  | cons w rest ih =>
    rw [List.foldl_cons, ih (a.file w f), fragments_file]
    by_cases h : w = v
    · subst h
      rw [if_pos rfl, List.count_cons_self, List.replicate_succ, List.append_assoc]
      rfl
    · rw [if_neg h, List.count_cons_of_ne h]

theorem Sound.foldl_file {a : Agent} (h : a.Sound) {ws : List Version} (f : Fragment)
    (hw : ∀ v ∈ ws, a.tracks v) : (ws.foldl (fun a v => a.file v f) a).Sound := by
  induction ws generalizing a with
  | nil => exact h
  | cons w rest ih =>
    exact ih (h.file (hw w List.mem_cons_self) f) fun v hv => hw v (List.mem_cons_of_mem w hv)

theorem mem_payloadTargets_iff (a : Agent) (tag : Option Version) (v : Version) :
    v ∈ a.payloadTargets tag ↔ v ∈ a.recording ∧ (tag = none ∨ tag = some v) := by
  cases tag with
  | none => simp [payloadTargets]
  | some w =>
    by_cases hw : w ∈ a.recording
    · simp only [payloadTargets, isRecording, List.contains_iff_mem, hw, if_true,
        List.mem_singleton, Option.some.injEq]
      constructor
      · rintro rfl
        exact ⟨hw, Or.inr rfl⟩
      · rintro ⟨_, h | h⟩
        · cases h
        · exact h.symm
    · simp only [payloadTargets, isRecording, List.contains_iff_mem, hw, if_false,
        List.not_mem_nil, Option.some.injEq, false_iff]
      rintro ⟨hv, h | h⟩
      · cases h
      · exact hw (h ▸ hv)

theorem Sound.payloadTargets_nodup {a : Agent} (h : a.Sound) (tag : Option Version) :
    (a.payloadTargets tag).Nodup := by
  cases tag with
  | none => exact h.recording_nodup
  | some w =>
    change (if a.isRecording w then [w] else []).Nodup
    split <;> simp

theorem onPayload_eq (a : Agent) (value sender : String) (tag : Option Version) :
    a.onPayload value sender tag =
      (a.payloadTargets tag).foldl (fun b v => b.file v (.transit value sender a.uuid)) a := by
  unfold onPayload
  generalize a.payloadTargets tag = ws
  induction ws generalizing a with
  | nil => rfl
  | cons w rest ih => exact ih (a.file w (.transit value sender a.uuid))

theorem Sound.onPayload {a : Agent} (h : a.Sound) (value sender : String) (tag : Option Version) :
    (a.onPayload value sender tag).Sound := by
  rw [onPayload_eq]
  exact h.foldl_file _ fun v hv => h.recording_tracked v ((mem_payloadTargets_iff a tag v).mp hv).1

theorem Sound.onState {a : Agent} (h : a.Sound) (f : Fragment) : (a.onState f).Sound := by
  unfold Agent.onState
  split
  · exact h
  · rename_i hc
    refine h.file (h.current_tracked.resolve_left fun he => hc ?_) f
    simp [Version.isSentinel, he]

/-- What a node does when its response timer ends. -/
inductive Expiring (a : Agent) : Option Outcome → Agent → List Effect → Prop where
  | idle : Expiring a none a []
  | complete {sent : List Effect} : a.awaiting → a.peers.size ≤ a.markerCount a.current →
      (∀ e ∈ sent, e = .send a.uuid (a.answer.toMessage a.uuid)) →
      Expiring a (some (.complete a.answer)) (a.abandon a.current) sent
  | extended {left : Nat} : a.awaiting → a.markerCount a.current < a.peers.size →
      Expiring a (some (.extended left)) { a with extensionsLeft := left }
        [.arm a.policy.responseTimeout]
  | incomplete : a.awaiting → a.markerCount a.current < a.peers.size →
      Expiring a (some (.incomplete a.current (a.markerCount a.current) a.peers.size))
        (a.abandon a.current) []

theorem onTimer_expiring (a : Agent) (status : TimerStatus) :
    Expiring a (a.onTimer status).1 (a.onTimer status).2.1 (a.onTimer status).2.2 := by
  have hf : a.finishCurrent = a.abandon a.current := (abandon_of_current rfl).symm
  unfold onTimer
  by_cases h : status = .expired ∧ a.awaiting
  · rw [if_pos h]
    unfold onExpiry
    by_cases hn : a.peers.size ≤ a.markerCount a.current
    · simp only [if_pos hn, hf]
      refine .complete h.2 hn fun e he => ?_
      cases hr : a.requester with
      | none => simp [hr] at he
      | some module => simpa [hr] using he
    · simp only [if_neg hn, hf]
      cases hl : a.extensionsLeft with
      | zero => exact .incomplete h.2 (by omega)
      | succ left => exact .extended h.2 (by omega)
  · rw [if_neg h]
    exact .idle

theorem onTimer_complete {a : Agent} (ha : a.awaiting) (hn : a.peers.size ≤ a.markerCount a.current) :
    (a.onTimer .expired).1 = some (.complete a.answer) ∧
      (a.onTimer .expired).2.1 = a.abandon a.current := by
  unfold onTimer onExpiry
  rw [if_pos ⟨rfl, ha⟩]
  simp only [if_pos hn]
  exact ⟨trivial, (abandon_of_current rfl).symm⟩

theorem Sound.expiring {a b : Agent} (h : a.Sound) {outcome : Option Outcome} {effects : List Effect}
    (m : Expiring a outcome b effects) : b.Sound := by
  cases m with
  | idle => exact h
  | complete _ _ _ => exact h.drops (a.abandon_drops a.current)
  | extended _ _ => exact { h with }
  | incomplete _ _ => exact h.drops (a.abandon_drops a.current)

end Agent

end PhasedGrid.Snapshot
