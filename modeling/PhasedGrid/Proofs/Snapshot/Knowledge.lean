import PhasedGrid.Proofs.Snapshot.Calls

/-!
Which versions a collector knows of. It comes to know one by starting it or from a marker, and it
sends markers of no others.
-/

namespace PhasedGrid.Snapshot

set_option autoImplicit false

open PhasedGrid.Peer (Message Network)

namespace Agent

/-- A version that is in progress or finished. -/
def Knows (a : Agent) (v : Version) : Prop := a.tracks v ∨ v ∈ a.retired

/-- A version that a call brings up: its marker has come, or the node has started it itself. -/
def Brings (a : Agent) (notice : Option Notice) (next : Agent) (v : Version) : Prop :=
  notice = some (.marker v) ∨ v.initiator = a.uuid ∧ v.sequence ≤ next.started

/-- What a call adds to what a node knows and passes on. -/
structure Learns (a : Agent) (notice : Option Notice) (next : Agent) (effects : List Effect) :
    Prop where
  uuid : next.uuid = a.uuid
  own : next.peers.own = a.peers.own
  started : a.started ≤ next.started
  knows : ∀ v, next.Knows v → a.Knows v ∨ a.Brings notice next v
  sends : ∀ receiver m v, .send receiver m ∈ effects →
    Wire.read (Network.stamp a.uuid m) = .ok (some (.marker v)) →
      v ≠ .sentinel ∧ a.Brings notice next v

variable {a b next : Agent} {notice : Option Notice} {effects : List Effect}

theorem marker_of_toOthers {sender receiver : String} {m : Message} {v w : Version}
    (h : .send receiver m ∈ a.toOthers (Wire.marker w))
    (hread : Wire.read (Network.stamp sender m) = .ok (some (.marker v))) : v = w := by
  obtain ⟨p, -, heq⟩ := List.mem_map.mp h
  obtain ⟨rfl, rfl⟩ := Effect.send.inj heq
  exact Wire.eq_of_read_marker hread

/-- Nothing but an announcement is a marker. -/
theorem Extra.not_marker {receiver : String} {m : Message} {v : Version}
    (h : Extra a (.send receiver m))
    (hread : Wire.read (Network.stamp a.uuid m) = .ok (some (.marker v))) : False := by
  cases h with
  | state w f hw =>
    rw [Wire.read_fragment] at hread
    cases hread
  | answer c =>
    obtain ⟨value, source, tag, heq⟩ := Wire.read_answer a.uuid c hread
    cases heq

theorem Turn.learns {took : Option Version} (t : Turn a took next effects)
    (htook : ∀ v ∈ took, v ≠ .sentinel ∧ a.Brings notice next v) :
    Learns a notice next effects := by
  refine ⟨t.uuid, congrArg _ t.peers, ?_, fun v hv => ?_, fun receiver m v hm hread => ?_⟩
  · rcases t.started with ⟨-, hs, -⟩ | ⟨hs, -⟩
    · omega
    · omega
  · rcases hv with hv | hv
    · rcases t.tracks v hv with hv | hv
      · exact Or.inl (Or.inl hv)
      · exact Or.inr (htook v hv).2
    · rcases t.retired v hv with hv | hv | hv
      · exact Or.inl (Or.inr hv)
      · exact Or.inl (Or.inl hv)
      · exact Or.inr (htook v hv).2
  · obtain ⟨rest, rfl, hrest⟩ := t.effects
    rcases List.mem_append.mp hm with hm | hm
    · cases took with
      | none => cases hm
      | some w =>
        obtain rfl := marker_of_toOthers hm hread
        exact htook v rfl
    · exact ((hrest _ hm).not_marker hread).elim

/-- A node that starts a version, perhaps with other peers or for another module than before. -/
theorem initiate_learns (hu : b.uuid = a.uuid) (ho : b.peers.own = a.peers.own)
    (hs : b.started = a.started) (hr : b.retired = a.retired) (x : Float) :
    Learns a notice (b.initiate x).1 (b.initiate x).2 := by
  have hstarted : (b.initiate x).1.started = a.started + 1 := congrArg (· + 1) hs
  have hown : a.Brings notice (b.initiate x).1 b.nextVersion := by
    refine Or.inr ⟨hu, ?_⟩
    rw [hstarted, ← hs]
    exact Nat.le_refl _
  refine ⟨hu, ho, Nat.le_of_lt (hstarted ▸ Nat.lt_succ_self _), fun v hv => ?_,
    fun receiver m v hm hread => ?_⟩
  · rcases hv with hv | hv
    · obtain rfl := ((b.request_starts x "").tracks v).mp hv
      exact Or.inr hown
    · exact Or.inl (Or.inr (hr ▸ hv))
  · rcases List.mem_append.mp hm with hm | hm
    · obtain rfl := marker_of_toOthers hm hread
      exact ⟨b.nextVersion_ne_sentinel, hown⟩
    · cases List.mem_singleton.mp hm

theorem onPeerList_learns (a : Agent) (x : Float) (leader : String) (peers : List String) :
    Learns a notice (a.onPeerList x leader peers).1 (a.onPeerList x leader peers).2 := by
  unfold onPeerList
  dsimp only
  split
  · exact initiate_learns (a := a) (b := { a with peers := a.peers.announce peers }) rfl rfl rfl
      rfl x
  · refine ⟨rfl, rfl, Nat.le_refl _, fun v hv => ?_, nofun⟩
    rcases hv with hv | hv
    · cases hv
    · exact Or.inl (Or.inr hv)

theorem Sound.onNotice_learns (h : a.Sound) (x : Float) {n : Notice} (hs : n ≠ .marker .sentinel) :
    Learns a (some n) (a.onNotice x n).1 (a.onNotice x n).2 := by
  cases n with
  | peerList leader peers => exact a.onPeerList_learns x leader peers
  | request module source =>
    exact initiate_learns (a := a) (b := { a with requester := some module }) rfl rfl rfl rfl x
  | state f => exact (h.onState_turn f).learns nofun
  | payload value sender tag => exact (h.onPayload_turn value sender tag).learns nofun
  | marker v =>
    have hv : v ≠ .sentinel := by
      rintro rfl
      exact hs rfl
    have m : Handling a x (some (.marker v)) _ _ _ := .marker hv (onMarker_marking h x hv)
    refine (h.handling_turn m).learns fun w hw => ?_
    have hn := m.notice_eq hw
    obtain rfl := Notice.marker.inj (Option.some.inj hn)
    exact ⟨hv, Or.inl rfl⟩

theorem meet_learns (source : String) (h : Learns (a.meet source) notice next effects) :
    Learns a notice next effects := by
  unfold meet at h
  split at h
  · exact h
  · exact ⟨h.uuid, h.own, h.started, h.knows, h.sends⟩

theorem Sound.learns (h : a.Sound) {c : Call} (hs : c.notice? ≠ some (.marker .sentinel)) :
    Learns a c.notice? (a.serve c).1 (a.serve c).2 := by
  cases c with
  | request module x =>
    exact initiate_learns (a := a) (b := { a with requester := some module }) rfl rfl rfl rfl x
  | timer status => exact (h.expiring_turn (a.onTimer_expiring status)).learns nofun
  | message m x =>
    rw [serve_message]
    refine meet_learns m.source ?_
    cases hn : (Call.message m x).notice? with
    | none => exact ⟨rfl, rfl, Nat.le_refl _, fun v => Or.inl, nofun⟩
    | some n =>
      refine (h.meet m.source).onNotice_learns x ?_
      rintro rfl
      exact hs hn

end Agent

end PhasedGrid.Snapshot
