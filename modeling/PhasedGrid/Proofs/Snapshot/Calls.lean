import PhasedGrid.Proofs.Snapshot.Footprint
import PhasedGrid.Proofs.Snapshot.Reading

/-!
Everything that can reach a collector, in any order: requests, messages of any kind and the end of
its response timer. Peers join with any message and leave with a peer list; the books stay in order
all the same, as long as no marker names the version that stands for none.
-/

namespace PhasedGrid.Snapshot

set_option autoImplicit false

open PhasedGrid.Peer (Group Message)
open PhasedGrid.Schedule (TimerStatus)

/-- What reaches a collector, with the gateway reading of its node at that moment. -/
inductive Call where
  | request (module : String) (reading : Float)
  | message (message : Message) (reading : Float)
  | timer (status : TimerStatus)

/-- What a message says to a collector, if anything. -/
def Call.notice? : Call → Option Notice
  | .message m _ =>
    match Wire.read m with
    | .ok notice => notice
    | .error _ => none
  | _ => none

/-- The module on whose behalf a call asks for a snapshot. -/
def Call.module? (c : Call) : Option String :=
  match c, c.notice? with
  | .request module _, _ => some module
  | _, some (.request module _) => some module
  | _, _ => none

/-- Whether a call is a peer list that makes `node` the leader. -/
def Call.leads (node : String) (c : Call) : Bool :=
  match c.notice? with
  | some (.peerList leader _) => leader = node
  | _ => false

/-- Traffic between collectors, as opposed to armings and to states that a module could read. -/
def Effect.Plain : Effect → Prop
  | .send _ m => ∀ module, Collected.ofMessage? module m = none
  | .arm _ => False

namespace Agent

def serve (a : Agent) : Call → Agent × List Effect
  | .request module x => a.request x module
  | .message m x => (a.handle x m).2
  | .timer status => (a.onTimer status).2

/-- The state of a collector after a series of calls. -/
def after (a : Agent) (calls : List Call) : Agent := calls.foldl (fun a c => (a.serve c).1) a

variable {a : Agent}

theorem serve_message (a : Agent) (m : Message) (x : Float) :
    a.serve (.message m x) =
      match (Call.message m x).notice? with
      | some notice => (a.meet m.source).onNotice x notice
      | none => (a.meet m.source, []) := by
  unfold serve handle Call.notice?
  dsimp only
  cases Wire.read m with
  | error e => rfl
  | ok notice => cases notice <;> rfl

/-- What every call keeps holds after any number of them. -/
theorem after_invariant (Inv : Agent → Prop) {allowed : Call → Prop}
    (keeps : ∀ a c, Inv a → allowed c → Inv (a.serve c).1) {calls : List Call}
    (hc : ∀ c ∈ calls, allowed c) (h : Inv a) : Inv (a.after calls) := by
  induction calls generalizing a with
  | nil => exact h
  | cons c rest ih =>
    have hfirst := keeps a c h (hc c List.mem_cons_self)
    exact ih (fun d hd => hc d (List.mem_cons_of_mem c hd)) hfirst

/-- What a node never changes about itself, and the number of versions it has started. -/
structure Alike (a b : Agent) : Prop where
  uuid : b.uuid = a.uuid
  policy : b.policy = a.policy
  started : b.started = a.started

/-- A collector goes on without starting a version: one that it awaits is the one it awaited. -/
structure Tends (a b : Agent) : Prop extends Alike a b where
  requester : b.requester = a.requester
  extensionsLeft : b.extensionsLeft = a.extensionsLeft
  current : b.awaiting → b.current = a.current

namespace Tends

variable {b c : Agent}

theorem awaiting (h : Tends a b) (hb : b.awaiting) : a.awaiting := by
  have hc := h.current hb
  rw [awaiting_iff] at hb ⊢
  rw [← hc, ← h.uuid]
  exact hb

theorem refl (a : Agent) : Tends a a := ⟨⟨rfl, rfl, rfl⟩, rfl, rfl, fun _ => rfl⟩

theorem trans (h : Tends a b) (k : Tends b c) : Tends a c := by
  refine ⟨⟨?_, ?_, ?_⟩, ?_, ?_, ?_⟩
  · exact k.uuid.trans h.uuid
  · exact k.policy.trans h.policy
  · exact k.started.trans h.started
  · exact k.requester.trans h.requester
  · exact k.extensionsLeft.trans h.extensionsLeft
  · intro hc
    exact (k.current hc).trans (h.current (k.awaiting hc))

/-- Nothing is awaited of the version that stands for none. -/
theorem of_sentinel (h : Alike a b) (hr : b.requester = a.requester)
    (he : b.extensionsLeft = a.extensionsLeft) (hc : b.current = .sentinel) : Tends a b := by
  refine ⟨h, hr, he, ?_⟩
  intro hb
  exact absurd hc (b.awaiting_iff.mp hb).1

/-- Nothing is awaited of a version of another node. -/
theorem of_foreign (h : Alike a b) (hr : b.requester = a.requester)
    (he : b.extensionsLeft = a.extensionsLeft) (hc : b.current.initiator ≠ a.uuid) : Tends a b := by
  refine ⟨h, hr, he, ?_⟩
  intro hb
  exact absurd ((b.awaiting_iff.mp hb).2.trans h.uuid) hc

end Tends

section Tends

theorem meet_tends (a : Agent) (source : String) : Tends a (a.meet source) := by
  unfold meet
  split
  · exact .refl a
  · exact ⟨⟨rfl, rfl, rfl⟩, rfl, rfl, fun _ => rfl⟩

theorem abandon_tends (a : Agent) (v : Version) : Tends a (a.abandon v) := by
  unfold abandon
  dsimp only
  split
  · exact .of_sentinel ⟨rfl, rfl, rfl⟩ rfl rfl rfl
  · exact ⟨⟨rfl, rfl, rfl⟩, rfl, rfl, fun _ => rfl⟩

theorem abandonSuperseded_tends (a : Agent) (v : Version) : Tends a (a.abandonSuperseded v) := by
  have hfold : ∀ (ws : List Version) (a : Agent), Tends a (ws.foldl abandon a) := by
    intro ws
    induction ws with
    | nil => exact Tends.refl
    | cons w rest ih =>
      intro a
      exact (a.abandon_tends w).trans (ih (a.abandon w))
  exact hfold _ a

theorem onCurrentMarker_tends (a : Agent) (v : Version) : Tends a (a.onCurrentMarker v).1 := by
  unfold onCurrentMarker
  dsimp only
  split
  · split <;> exact ⟨⟨rfl, rfl, rfl⟩, rfl, rfl, fun _ => rfl⟩
  split
  · exact .of_sentinel ⟨rfl, rfl, rfl⟩ rfl rfl rfl
  · exact ⟨⟨rfl, rfl, rfl⟩, rfl, rfl, fun _ => rfl⟩

theorem onTrackedMarker_tends (a : Agent) (v : Version) : Tends a (a.onTrackedMarker v).1 := by
  unfold onTrackedMarker
  dsimp only
  split <;> exact ⟨⟨rfl, rfl, rfl⟩, rfl, rfl, fun _ => rfl⟩

/-- A version that a node takes up is not its own, or its marker is stale. -/
theorem onFirstMarker_tends (a : Agent) (x : Float) {v : Version} (hst : a.isStale v = false) :
    Tends a (a.onFirstMarker x v).1 := by
  have hi := ((a.isStale_eq_false_iff v).mp hst).2.1
  have hd := a.abandonSuperseded_tends v
  refine hd.trans ?_
  rw [← hd.uuid] at hi
  unfold onFirstMarker
  dsimp only
  by_cases hc : (a.abandonSuperseded v).current.isSentinel
  · simp only [hc, if_true]
    split
    · exact .of_sentinel ⟨rfl, rfl, rfl⟩ rfl rfl rfl
    · exact .of_foreign ⟨rfl, rfl, rfl⟩ rfl rfl hi
  · simp only [hc, Bool.false_eq_true, if_false]
    split <;> exact ⟨⟨rfl, rfl, rfl⟩, rfl, rfl, fun _ => rfl⟩

theorem onMarker_tends (a : Agent) (x : Float) (v : Version) : Tends a (a.onMarker x v).1 := by
  unfold onMarker
  split
  · exact a.onCurrentMarker_tends v
  split
  · exact a.onTrackedMarker_tends v
  split
  · exact .refl a
  · rename_i hst
    exact a.onFirstMarker_tends x (Bool.eq_false_iff.mpr hst)

theorem onState_tends (a : Agent) (f : Fragment) : Tends a (a.onState f) := by
  unfold onState
  split
  · exact .refl a
  · exact ⟨⟨rfl, rfl, rfl⟩, rfl, rfl, fun _ => rfl⟩

theorem onPayload_tends (a : Agent) (value sender : String) (tag : Option Version) :
    Tends a (a.onPayload value sender tag) := by
  rw [onPayload_eq, foldl_file_eq]
  exact ⟨⟨rfl, rfl, rfl⟩, rfl, rfl, fun _ => rfl⟩

end Tends

section Plain

theorem toOthers_plain (a : Agent) (v : Version) : ∀ e ∈ a.toOthers (Wire.marker v), e.Plain := by
  intro e he
  obtain ⟨p, -, rfl⟩ := List.mem_map.mp he
  exact fun module => Collected.ofMessage?_marker module v

theorem shipBack_plain (a : Agent) (v : Version) : ∀ e ∈ a.shipBack v, e.Plain := by
  intro e he
  obtain ⟨f, -, rfl⟩ := List.mem_map.mp he
  exact fun module => Collected.ofMessage?_fragment module a.uuid f

theorem onMarker_plain (a : Agent) (x : Float) (v : Version) :
    ∀ e ∈ (a.onMarker x v).2, e.Plain := by
  have hnone : ∀ e ∈ ([] : List Effect), e.Plain := fun _ he => absurd he List.not_mem_nil
  unfold onMarker
  split
  · unfold onCurrentMarker
    dsimp only
    split
    · exact hnone
    split
    · exact (a.bump v).shipBack_plain v
    · exact hnone
  split
  · unfold onTrackedMarker
    dsimp only
    split
    · exact (a.bump v).shipBack_plain v
    · exact hnone
  split
  · exact hnone
  · unfold onFirstMarker
    change ∀ e ∈ (if (a.takeUp x v).peers.size ≤ 2 then
      (_, (a.takeUp x v).toOthers (Wire.marker v) ++ (a.takeUp x v).shipBack v)
      else ((a.takeUp x v).record v, (a.takeUp x v).toOthers (Wire.marker v))).2, e.Plain
    split
    · intro e he
      rcases List.mem_append.mp he with hp | hs
      · exact toOthers_plain _ v e hp
      · exact shipBack_plain _ v e hs
    · exact toOthers_plain _ v

end Plain

/-- What a call comes to: a version started for a module or for a new group, a snapshot that is
extended or delivered, or else nothing that anybody waits for. -/
inductive Serving (a : Agent) (c : Call) : Agent → List Effect → Prop where
  | requested {b : Agent} {module : String} (x : Float) : c.module? = some module → Alike a b →
      b.requester = some module → Serving a c (b.initiate x).1 (b.initiate x).2
  | led {b : Agent} (x : Float) : c.leads a.uuid → Alike a b → b.requester = a.requester →
      Serving a c (b.initiate x).1 (b.initiate x).2
  | extended (left : Nat) : c = .timer .expired → a.awaiting →
      Serving a c { a with extensionsLeft := left } [.arm a.policy.responseTimeout]
  | delivered (module : String) : c = .timer .expired → a.awaiting → a.requester = some module →
      Serving a c a.finishCurrent [.send a.uuid (a.answer.toMessage a.uuid)]
  | tended {b : Agent} {effects : List Effect} : Tends a b → (∀ e ∈ effects, e.Plain) →
      Serving a c b effects

theorem finishCurrent_tends (a : Agent) : Tends a a.finishCurrent :=
  .of_sentinel ⟨rfl, rfl, rfl⟩ rfl rfl rfl

theorem onTimer_serving (a : Agent) (status : TimerStatus) :
    Serving a (.timer status) (a.onTimer status).2.1 (a.onTimer status).2.2 := by
  unfold onTimer
  by_cases h : status = .expired ∧ a.awaiting
  · obtain ⟨rfl, haw⟩ := h
    rw [if_pos ⟨rfl, haw⟩]
    unfold onExpiry
    dsimp only
    split
    · cases hr : a.requester with
      | none => exact .tended a.finishCurrent_tends nofun
      | some module => exact .delivered module rfl haw hr
    · cases a.extensionsLeft with
      | zero => exact .tended a.finishCurrent_tends nofun
      | succ left => exact .extended left rfl haw
  · rw [if_neg h]
    exact .tended (.refl a) nofun

theorem onPeerList_serving {a b : Agent} (hb : Tends a b) {c : Call} (x : Float) {leader : String}
    {peers : List String} (hc : c.notice? = some (.peerList leader peers)) :
    Serving a c (b.onPeerList x leader peers).1 (b.onPeerList x leader peers).2 := by
  unfold onPeerList
  dsimp only
  split
  · rename_i hl
    refine .led x ?_ ⟨hb.uuid, hb.policy, hb.started⟩ hb.requester
    rw [Call.leads, hc]
    exact decide_eq_true (hl.trans hb.uuid)
  · exact .tended (.of_sentinel ⟨hb.uuid, hb.policy, hb.started⟩ hb.requester hb.extensionsLeft rfl) nofun

theorem serve_serving (a : Agent) (c : Call) : Serving a c (a.serve c).1 (a.serve c).2 := by
  cases c with
  | request module x => exact .requested x rfl ⟨rfl, rfl, rfl⟩ rfl
  | timer status => exact a.onTimer_serving status
  | message m x =>
    have hm := a.meet_tends m.source
    rw [serve_message]
    cases hn : (Call.message m x).notice? with
    | none => exact .tended hm nofun
    | some notice =>
      cases notice with
      | peerList leader peers => exact onPeerList_serving hm x hn
      | request module source =>
        have hmod : (Call.message m x).module? = some module := by
          unfold Call.module?
          rw [hn]
        exact .requested x hmod ⟨hm.uuid, hm.policy, hm.started⟩ rfl
      | marker v => exact .tended (hm.trans (onMarker_tends _ x v)) (onMarker_plain _ x v)
      | state f => exact .tended (hm.trans (onState_tends _ f)) nofun
      | payload value sender tag => exact .tended (hm.trans (onPayload_tends _ value sender tag)) nofun

theorem Serving.uuid {a b : Agent} {c : Call} {effects : List Effect} (h : Serving a c b effects) :
    b.uuid = a.uuid := by
  cases h with
  | requested x hm hb hr => exact hb.uuid
  | led x hl hb hr => exact hb.uuid
  | extended left hc haw => rfl
  | delivered module hc haw hr => rfl
  | tended hb he => exact hb.uuid

namespace Sound

/-- A group that grows does no harm to the books. -/
theorem regroup (h : a.Sound) {peers : Group} (hn : a.peers.size ≤ peers.size) :
    Sound { a with peers } := by
  refine ⟨Nat.le_trans h.own_member hn, h.same_keys, h.recording_tracked, h.recording_nodup,
    h.current_tracked, h.sentinel_untracked, h.own_first, ?_, ?_, h.own⟩
  · intro v hv
    have hc := h.count v hv
    exact ⟨hc.1, Nat.le_trans hc.2 hn⟩
  · intro v hv hi
    have hf := h.foreign v hv hi
    exact ⟨hf.1, Nat.lt_of_lt_of_le hf.2 hn⟩

theorem meet (h : a.Sound) (source : String) : (a.meet source).Sound := by
  unfold Agent.meet
  split
  · exact h
  · exact h.regroup (a.peers.size_le_insert source)

/-- A group that may have shrunk comes with empty books. -/
theorem onPeerList (a : Agent) (x : Float) (leader : String) (peers : List String) :
    (a.onPeerList x leader peers).1.Sound := by
  have hn := a.peers.size_announce_pos peers
  unfold Agent.onPeerList
  dsimp only
  split
  · exact initiate_sound (by exact hn) x
  · exact sound_of_empty hn rfl rfl rfl rfl

theorem onNotice (h : a.Sound) (x : Float) {notice : Notice} (hs : notice ≠ .marker .sentinel) :
    (a.onNotice x notice).1.Sound := by
  cases notice with
  | peerList leader peers => exact onPeerList a x leader peers
  | request module source => exact initiate_sound (by exact h.own_member) x
  | marker v =>
    have hv : v ≠ .sentinel := by
      rintro rfl
      exact hs rfl
    exact h.marking hv (onMarker_marking h x hv)
  | state f => exact h.onState f
  | payload value sender tag => exact h.onPayload value sender tag

theorem serve (h : a.Sound) {c : Call} (hs : c.notice? ≠ some (.marker .sentinel)) :
    (a.serve c).1.Sound := by
  cases c with
  | request module x => exact initiate_sound (by exact h.own_member) x
  | timer status => exact h.expiring (a.onTimer_expiring status)
  | message m x =>
    have hm := h.meet m.source
    rw [serve_message]
    cases hn : (Call.message m x).notice? with
    | none => exact hm
    | some notice =>
      refine hm.onNotice x ?_
      rintro rfl
      exact hs hn

end Sound

theorem new_sound (uuid : String) (policy : Policy) (peers : List String) :
    (Agent.new uuid policy peers).Sound :=
  sound_of_empty (Group.size_ofList_pos uuid peers) rfl rfl rfl rfl

/-- The books of a collector that has served any calls: what is tracked, what is recorded, and how
far each version is. Only its own version can be complete and still be tracked. -/
theorem books_in_order {uuid : String} {policy : Policy} {peers : List String} {calls : List Call}
    (hs : ∀ c ∈ calls, c.notice? ≠ some (.marker .sentinel)) (ha : (new uuid policy peers).after calls = a) :
    (∀ v, Table.has v a.markers = Table.has v a.collected) ∧
    (∀ v ∈ a.recording, Table.has v a.markers) ∧
    (a.current = .sentinel ∨ Table.has a.current a.markers) ∧
    (∀ v fs, Table.get? v a.collected = some fs → ∃ x rest, fs = .gateway uuid x :: rest) ∧
    (∀ v n, Table.get? v a.markers = some n → 1 ≤ n ∧ n ≤ a.peers.size) ∧
    (∀ v n, Table.get? v a.markers = some n → v.initiator ≠ uuid →
      v ∈ a.recording ∧ n + 1 < a.peers.size) ∧
    (∀ v, Table.has v a.markers → v.initiator = uuid → v = a.current) := by
  have hkept : a.Sound ∧ a.uuid = uuid := by
    rw [← ha]
    refine after_invariant (fun a => a.Sound ∧ a.uuid = uuid) ?_ hs ⟨new_sound uuid policy peers, rfl⟩
    intro b c hb hc
    exact ⟨hb.1.serve hc, (b.serve_serving c).uuid.trans hb.2⟩
  obtain ⟨h, rfl⟩ := hkept
  have hcount : ∀ v n, Table.get? v a.markers = some n → a.tracks v ∧ a.markerCount v = n := by
    intro v n hn
    constructor
    · rw [tracks, Table.has_eq, hn]
      rfl
    · rw [markerCount, hn]
      rfl
  refine ⟨?_, h.recording_tracked, h.current_tracked, ?_, ?_, ?_, h.own⟩
  · intro v
    exact (h.same_keys v).symm
  · intro v fs hf
    have ht : a.tracks v := by
      rw [← h.same_keys v, Table.has_eq, hf]
      rfl
    obtain ⟨x, rest, hx⟩ := h.own_first v ht
    refine ⟨x, rest, ?_⟩
    rw [← hx, fragments, hf]
    rfl
  · intro v n hn
    obtain ⟨ht, rfl⟩ := hcount v n hn
    exact h.count v ht
  · intro v n hn hi
    obtain ⟨ht, rfl⟩ := hcount v n hn
    exact h.foreign v ht hi

/-- Markers of three initiators, a newer version that replaces an older one, a payload from a node
that joins, a new group without it, and a snapshot of the node's own in between. -/
def crowded : List Call :=
  [.message (Wire.marker ⟨"a", 1⟩) 1, .message (Wire.payload "d" "memo" none) 1,
    .message (Wire.peerList "a" ["a", "b", "c"]) 1, .message (Wire.marker ⟨"c", 1⟩) 2,
    .request "gm" 3, .message (Wire.marker ⟨"c", 2⟩) 4, .message (Wire.marker ⟨"c", 3⟩) 5,
    .message (Wire.marker ⟨"a", 2⟩) 6, .message (Wire.payload "d" "note" none) 6,
    .message { Wire.marker ⟨"b", 1⟩ with source := "a" } 6, .timer .cancelled]

set_option maxRecDepth 4000 in
/-- What is in the books by then, put to the general statement. -/
theorem crowded_books :
    let a := (new "b" {} ["a", "b", "c"]).after crowded
    Table.keys a.markers = [⟨"a", 2⟩, ⟨"b", 1⟩, ⟨"c", 3⟩] ∧ a.peers.size = 4 ∧
      (∀ v ∈ Table.keys a.markers, Table.has v a.collected) ∧
      ⟨"c", 3⟩ ∈ a.recording ∧ ⟨"b", 1⟩ = a.current := by
  have hs : ∀ c ∈ crowded, c.notice? ≠ some (.marker .sentinel) := by decide +kernel
  have ha : (new "b" {} ["a", "b", "c"]).after crowded = (new "b" {} ["a", "b", "c"]).after crowded :=
    rfl
  obtain ⟨hkeys, -, -, -, -, hforeign, hown⟩ := books_in_order hs ha
  refine ⟨by decide +kernel, by decide +kernel, ?_, ?_, ?_⟩
  · intro v hv
    rw [← hkeys v]
    exact (Table.mem_keys_iff v _).mp hv
  · exact (hforeign ⟨"c", 3⟩ 1 (by decide +kernel) (by decide)).1
  · exact hown ⟨"b", 1⟩ (by decide +kernel) rfl

end Agent

end PhasedGrid.Snapshot
