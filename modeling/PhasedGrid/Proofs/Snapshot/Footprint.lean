import PhasedGrid.Proofs.Snapshot.Turns

/-!
What a turn of a collector leaves in place. Whatever the turn is about, only the version that it
takes up becomes tracked, and that version is announced to all peers before anything else is sent.
Versions that the turn is not about are spared.
-/

namespace PhasedGrid.Snapshot

set_option autoImplicit false

open PhasedGrid.Peer (Message)
open PhasedGrid.Schedule (TimerStatus)

namespace Agent

theorem awaiting_iff (a : Agent) :
    a.awaiting ↔ a.current ≠ .sentinel ∧ a.current.initiator = a.uuid := by
  simp [awaiting, Version.isSentinel]

theorem awaiting_of_nextVersion {a b : Agent} (hu : b.uuid = a.uuid)
    (hc : b.current = a.nextVersion) : b.awaiting := by
  rw [awaiting_iff, hc, hu]
  exact ⟨a.nextVersion_ne_sentinel, rfl⟩

theorem Sound.awaiting_tracks {a : Agent} (h : a.Sound) (ha : a.awaiting) : a.tracks a.current :=
  h.current_tracked.resolve_left (a.awaiting_iff.mp ha).1

theorem isStale_eq_false_iff (a : Agent) (v : Version) : a.isStale v = false ↔
    v ∉ a.retired ∧ v.initiator ≠ a.uuid ∧ ∀ w, a.tracks w → ¬ w.supersedes v := by
  simp only [isStale, Bool.or_eq_false_iff, List.contains_eq_mem, decide_eq_false_iff_not,
    List.any_eq_false, and_assoc, Table.mem_keys_iff, tracks]

/-- A node that has just started its next version has forgotten every other one. -/
structure Starts (a b : Agent) (x : Float) : Prop where
  uuid : b.uuid = a.uuid
  peers : b.peers = a.peers
  started : b.started = a.started + 1
  retired : b.retired = a.retired
  current : b.current = a.nextVersion
  recording : b.recording = [a.nextVersion]
  tracks : ∀ w, b.tracks w ↔ w = a.nextVersion
  markerCount : b.markerCount a.nextVersion = 1
  fragments : ∀ w, b.fragments w = if a.nextVersion = w then [.gateway a.uuid x] else []

theorem request_starts (a : Agent) (x : Float) (module : String) :
    Starts a (a.request x module).1 x := by
  have hm : (a.request x module).1.markers = [(a.nextVersion, 1)] := rfl
  have hc : (a.request x module).1.collected = [(a.nextVersion, [.gateway a.uuid x])] := rfl
  refine ⟨rfl, rfl, rfl, rfl, rfl, rfl, fun w => ?_, ?_, fun w => ?_⟩
  · rw [Agent.tracks, hm]
    rw [Table.has_eq, Table.get?, eq_comm (a := w)]
    by_cases hw : a.nextVersion = w <;> simp [hw]
  · rw [Agent.markerCount, hm]
    simp [Table.get?]
  · rw [Agent.fragments, hc]
    by_cases hw : a.nextVersion = w <;> simp [Table.get?, hw]

/-- What a node does to the outside besides announcing versions. -/
inductive Extra (a : Agent) : Effect → Prop where
  | arm (delay : Nat) : Extra a (.arm delay)
  | state (w : Version) (f : Fragment) : w.initiator ≠ a.uuid →
      Extra a (.send w.initiator (Wire.fragment a.uuid f))
  | answer (c : Collected) : Extra a (.send a.uuid (c.toMessage a.uuid))

theorem shipBack_extra (a : Agent) {w : Version} (hw : w.initiator ≠ a.uuid) :
    ∀ e ∈ a.shipBack w, Extra a e := by
  intro e he
  obtain ⟨f, -, rfl⟩ := List.mem_map.mp he
  exact .state w f hw

/-- What every turn keeps, given the version for which it took a reading, if any. -/
structure Turn (a : Agent) (took : Option Version) (next : Agent) (effects : List Effect) : Prop where
  uuid : next.uuid = a.uuid
  peers : next.peers = a.peers
  sound : next.Sound
  tracks : ∀ w, next.tracks w → a.tracks w ∨ took = some w
  retired : ∀ w ∈ next.retired, w ∈ a.retired ∨ a.tracks w ∨ took = some w
  started : took = some a.nextVersion ∧ next.started = a.started + 1 ∧ next.current = a.nextVersion ∨
    next.started = a.started ∧ (∀ w ∈ took, w.initiator ≠ a.uuid) ∧
      (next.awaiting → next.current = a.current)
  effects : ∃ rest, effects = (took.map a.announce).getD [] ++ rest ∧ ∀ e ∈ rest, Extra a e

theorem Sound.request_turn {a : Agent} (h : a.Sound) (x : Float) (module : String) :
    Turn a (some a.nextVersion) (a.request x module).1 (a.request x module).2 := by
  have hs : Sound { a with requester := some module } := { h with }
  have d := a.request_starts x module
  refine ⟨d.uuid, d.peers, hs.initiate x, fun w hw => Or.inr ?_, fun w hw => Or.inl ?_,
    Or.inl ⟨rfl, d.started, d.current⟩, [.arm a.policy.responseTimeout], rfl, fun e he => ?_⟩
  · rw [(d.tracks w).mp hw]
  · rw [← d.retired]
    exact hw
  · rw [List.mem_singleton.mp he]
    exact .arm _

/-- A turn that changes neither what is tracked nor what is in progress. -/
theorem turn_of_same (a : Agent) {b : Agent} (hs : b.Sound) (hu : b.uuid = a.uuid)
    (hp : b.peers = a.peers) (hm : ∀ w, b.tracks w → a.tracks w) (hr : b.retired = a.retired) (hst : b.started = a.started)
    (hc : b.current = a.current) {effects : List Effect} (he : ∀ e ∈ effects, Extra a e) :
    Turn a none b effects :=
  ⟨hu, hp, hs, fun w hw => Or.inl (hm w hw), fun _ hw => Or.inl (hr ▸ hw),
    Or.inr ⟨hst, by simp, fun _ => hc⟩, effects, rfl, he⟩

theorem Drops.current_of_awaiting {a b : Agent} {ws : List Version} (d : Drops a b ws)
    (ha : b.awaiting) : b.current = a.current := by
  have hcur := d.current
  split at hcur
  · exact absurd hcur (b.awaiting_iff.mp ha).1
  · exact hcur

theorem Drops.turn {a b : Agent} {ws : List Version} (d : Drops a b ws) (h : a.Sound)
    (hw : ∀ w ∈ ws, a.tracks w) {effects : List Effect} (he : ∀ e ∈ effects, Extra a e) :
    Turn a none b effects := by
  refine ⟨d.uuid, d.peers, h.drops d, fun w ht => ?_, fun w hr => ?_,
    Or.inr ⟨d.started, by simp, d.current_of_awaiting⟩, effects, rfl, he⟩
  · rw [d.tracks_eq, Bool.and_eq_true] at ht
    exact Or.inl ht.2
  · exact (d.retired w hr).imp id fun hm => Or.inl (hw w hm)

theorem takeUp_turn {a : Agent} {x : Float} {v : Version} (hst : a.isStale v = false)
    (hs : ((a.takeUp x v).record v).Sound) :
    Turn a (some v) ((a.takeUp x v).record v) (a.announce v) := by
  have d := a.abandonSuperseded_drops v
  have k := a.takeUp_adds x v
  obtain ⟨hnr, hi, hsup⟩ := (a.isStale_eq_false_iff v).mp hst
  refine ⟨k.uuid.trans d.uuid, k.peers.trans d.peers, hs, fun w hw => ?_, fun w hw => ?_,
    Or.inr ⟨k.started.trans d.started, fun w hw => ?_, fun ha => ?_⟩, [], by simp, nofun⟩
  · have hw' := (k.tracks_eq w).symm.trans hw
    rw [d.tracks_eq, Bool.or_eq_true, Bool.and_eq_true, decide_eq_true_eq] at hw'
    exact hw'.symm.imp (fun hw => hw.2) (fun hw => congrArg some hw)
  · change w ∈ (a.takeUp x v).retired at hw
    rw [k.retired] at hw
    exact (d.retired w hw).imp id fun hm => Or.inl ((a.mem_superseded_iff v w).mp hm).1
  · obtain rfl := Option.some.inj hw
    exact hi
  · have hc := k.current
    by_cases hsen : (a.abandonSuperseded v).current = .sentinel
    · rw [if_pos hsen] at hc
      have ha' := ((a.takeUp x v).awaiting_iff.mp ha).2
      rw [hc, k.uuid, d.uuid] at ha'
      exact absurd ha' hi
    · rw [if_neg hsen] at hc
      refine hc.trans (d.current_of_awaiting ?_)
      rw [awaiting_iff, ← hc, ← k.uuid]
      exact ((a.takeUp x v).awaiting_iff.mp ha)

theorem Sound.marking_turn {a next : Agent} (h : a.Sound) {x : Float} {v : Version}
    (hs : v ≠ .sentinel) {took : Option Version} {effects : List Effect}
    (m : Marking a x v took next effects) : Turn a took next effects := by
  have hsound := h.marking hs m
  have hnone : ∀ e ∈ ([] : List Effect), Extra a e := fun e he => absurd he List.not_mem_nil
  have hbump : ∀ {w : Version}, a.tracks v → (a.bump v).tracks w → a.tracks w := by
    intro w hv hw
    rw [tracks_bump, Bool.or_eq_true, decide_eq_true_eq] at hw
    rcases hw with rfl | hw
    · exact hv
    · exact hw
  cases m with
  | own hv hi =>
    have ht : ∀ w, (a.tally v).tracks w → a.tracks w := by
      intro w hw
      refine hbump hv (Eq.trans ?_ hw)
      unfold Agent.tally
      split <;> rfl
    refine turn_of_same a hsound ?_ ?_ ht ?_ ?_ ?_ hnone <;> unfold Agent.tally <;> split <;> rfl
  | counted hv hi hn => exact turn_of_same a hsound rfl rfl (fun w => hbump hv) rfl rfl rfl hnone
  | finished hv hi hn =>
    refine (a.abandon_drops v).turn h (fun w hw => ?_) (a.shipBack_extra hi)
    rw [List.mem_singleton.mp hw]
    exact hv
  | stale hv hst => exact turn_of_same a h rfl rfl (fun _ => id) rfl rfl rfl hnone
  | opened hv hst hn => exact takeUp_turn hst hsound
  | passed hv hst hn =>
    have d := (a.abandonSuperseded_drops v).trans (abandon_drops (a.abandonSuperseded v) v)
    obtain ⟨hnr, hi, hsup⟩ := (a.isStale_eq_false_iff v).mp hst
    refine ⟨d.uuid, d.peers, hsound, fun w hw => ?_, fun w hw => ?_,
      Or.inr ⟨d.started, fun w hw => ?_, d.current_of_awaiting⟩, _, rfl, fun e he => ?_⟩
    · rw [d.tracks_eq, Bool.and_eq_true] at hw
      exact Or.inl hw.2
    · rcases d.retired w hw with hw | hw
      · exact Or.inl hw
      · rcases List.mem_append.mp hw with hw | hw
        · exact Or.inr (Or.inl ((a.mem_superseded_iff v w).mp hw).1)
        · exact Or.inr (Or.inr (congrArg some (List.mem_singleton.mp hw).symm))
    · obtain rfl := Option.some.inj hw
      exact hi
    · rw [List.mem_singleton.mp he]
      exact .state v _ hi

theorem Sound.expiring_turn {a next : Agent} (h : a.Sound) {outcome : Option Outcome}
    {effects : List Effect} (m : Expiring a outcome next effects) : Turn a none next effects := by
  have hsound := h.expiring m
  have hdrop : a.awaiting → ∀ w ∈ [a.current], a.tracks w := by
    intro ha w hw
    rw [List.mem_singleton.mp hw]
    exact h.awaiting_tracks ha
  cases m with
  | idle => exact turn_of_same a h rfl rfl (fun _ => id) rfl rfl rfl fun e he => absurd he List.not_mem_nil
  | complete ha hn hsent =>
    refine (a.abandon_drops a.current).turn h (hdrop ha) fun e he => ?_
    rw [hsent e he]
    exact .answer _
  | extended ha hn =>
    refine turn_of_same a hsound rfl rfl (fun _ => id) rfl rfl rfl fun e he => ?_
    rw [List.mem_singleton.mp he]
    exact .arm _
  | incomplete ha hn =>
    exact (a.abandon_drops a.current).turn h (hdrop ha) fun e he => absurd he List.not_mem_nil

theorem Sound.onState_turn {a : Agent} (h : a.Sound) (f : Fragment) : Turn a none (a.onState f) [] := by
  have hs := h.onState f
  have hnone : ∀ e ∈ ([] : List Effect), Extra a e := fun e he => absurd he List.not_mem_nil
  unfold Agent.onState at hs ⊢
  split
  · exact turn_of_same a h rfl rfl (fun _ => id) rfl rfl rfl hnone
  · rename_i hc
    rw [if_neg hc] at hs
    exact turn_of_same a hs rfl rfl (fun _ => id) rfl rfl rfl hnone

theorem Sound.onPayload_turn {a : Agent} (h : a.Sound) (value sender : String)
    (tag : Option Version) : Turn a none (a.onPayload value sender tag) [] := by
  have hs := h.onPayload value sender tag
  rw [onPayload_eq, foldl_file_eq] at hs ⊢
  exact turn_of_same a hs rfl rfl (fun _ => id) rfl rfl rfl fun e he => absurd he List.not_mem_nil

/-- What a node does with what a letter says to it, if anything. -/
inductive Handling (a : Agent) (x : Float) :
    Option Notice → Option Version → Agent → List Effect → Prop where
  | ignored : Handling a x none none a []
  | marker {v : Version} {took : Option Version} {next : Agent} {effects : List Effect} :
      v ≠ .sentinel → Marking a x v took next effects →
      Handling a x (some (.marker v)) took next effects
  | state (f : Fragment) : Handling a x (some (.state f)) none (a.onState f) []
  | payload (value sender : String) (tag : Option Version) :
      Handling a x (some (.payload value sender tag)) none (a.onPayload value sender tag) []

theorem Handling.notice_eq {a next : Agent} {x : Float} {notice : Option Notice}
    {took : Option Version} {effects : List Effect} (m : Handling a x notice took next effects)
    {w : Version} (hw : w ∈ took) : notice = some (.marker w) := by
  cases m with
  | marker hs m =>
    cases m with
    | opened hv hst hn => rw [Option.some.inj hw]
    | passed hv hst hn => rw [Option.some.inj hw]
    | own | counted | finished | stale => cases hw
  | ignored | state | payload => cases hw

/-- A node that handles a letter writes to its peers and to the initiator of a marker. -/
theorem Handling.receiver {a next : Agent} {x : Float} {notice : Option Notice}
    {took : Option Version} {effects : List Effect} (m : Handling a x notice took next effects)
    {r : String} {content : Message} (hs : .send r content ∈ effects) :
    r ∈ a.peers.others ∨ ∃ w, notice = some (.marker w) ∧ r = w.initiator := by
  cases m with
  | ignored | state | payload => cases hs
  | @marker v _ _ _ hv m =>
    have hothers : .send r content ∈ a.announce v → r ∈ a.peers.others := by
      intro hs
      obtain ⟨p, hp, heq⟩ := List.mem_map.mp hs
      obtain ⟨rfl, -⟩ := Effect.send.inj heq
      exact hp
    cases m with
    | own | counted | stale => cases hs
    | finished =>
      obtain ⟨f, -, heq⟩ := List.mem_map.mp hs
      exact Or.inr ⟨v, rfl, (Effect.send.inj heq).1.symm⟩
    | opened => exact Or.inl (hothers hs)
    | passed =>
      rcases List.mem_append.mp hs with hs | hs
      · exact Or.inl (hothers hs)
      · exact Or.inr ⟨v, rfl, (Effect.send.inj (List.mem_singleton.mp hs)).1⟩

theorem Handling.current_eq {a next : Agent} {x : Float} {notice : Option Notice}
    {took : Option Version} {effects : List Effect} (m : Handling a x notice took next effects)
    (ha : a.awaiting) : next.current = a.current := by
  obtain ⟨hsen, hown⟩ := a.awaiting_iff.mp ha
  cases m with
  | ignored => rfl
  | state f =>
    unfold onState
    split <;> rfl
  | payload value sender tag =>
    rw [onPayload_eq, foldl_file_eq]
  | @marker v _ _ _ hs m =>
    have hkeep : v.initiator ≠ a.uuid → (a.abandonSuperseded v).current = a.current := by
      intro hi
      rw [(a.abandonSuperseded_drops v).current, if_neg]
      intro hm
      have hsup := (supersedes_iff v a.current).mp ((a.mem_superseded_iff v _).mp hm).2
      exact hi (hsup.1.trans hown)
    cases m with
    | own _ _ =>
      unfold tally
      split <;> rfl
    | counted _ _ _ => rfl
    | finished _ hi _ =>
      rw [(a.abandon_drops v).current, if_neg]
      intro hm
      exact hi (List.mem_singleton.mp hm ▸ hown)
    | stale _ _ => rfl
    | opened _ hst _ =>
      have hi := ((a.isStale_eq_false_iff v).mp hst).2.1
      have hk := (a.takeUp_adds x v).current
      rw [hkeep hi, if_neg hsen] at hk
      exact hk
    | passed _ hst _ =>
      have hi := ((a.isStale_eq_false_iff v).mp hst).2.1
      rw [(abandon_drops _ v).current, hkeep hi, if_neg]
      intro hm
      exact hi (List.mem_singleton.mp hm ▸ hown)

theorem Sound.handling_turn {a next : Agent} (h : a.Sound) {x : Float} {notice : Option Notice}
    {took : Option Version} {effects : List Effect} (m : Handling a x notice took next effects) :
    Turn a took next effects := by
  cases m with
  | ignored =>
    exact turn_of_same a h rfl rfl (fun _ => id) rfl rfl rfl fun e he => absurd he List.not_mem_nil
  | marker hs m => exact h.marking_turn hs m
  | state f => exact h.onState_turn f
  | payload value sender tag => exact h.onPayload_turn value sender tag

/-- What a node does in one turn: it starts a version, its timer ends, or it handles a letter, of
which the notice tells what it says. -/
inductive Acting (a : Agent) (x : Float) :
    Option Notice → Option Version → Agent → List Effect → Prop where
  | request (module : String) :
      Acting a x none (some a.nextVersion) (a.request x module).1 (a.request x module).2
  | timer (status : TimerStatus) :
      Acting a x none none (a.onTimer status).2.1 (a.onTimer status).2.2
  | letter {notice : Option Notice} {took : Option Version} {next : Agent}
      {effects : List Effect} : Handling a x notice took next effects →
      Acting a x notice took next effects

theorem Sound.acting_turn {a next : Agent} (h : a.Sound) {x : Float} {notice : Option Notice}
    {took : Option Version} {effects : List Effect} (m : Acting a x notice took next effects) :
    Turn a took next effects := by
  cases m with
  | request module => exact h.request_turn x module
  | timer status => exact h.expiring_turn (a.onTimer_expiring status)
  | letter m => exact h.handling_turn m

/-- A reading is taken for the node's next version or for one whose marker has come. -/
theorem Acting.took_eq {a next : Agent} {x : Float} {notice : Option Notice}
    {took : Option Version} {effects : List Effect} (m : Acting a x notice took next effects)
    {w : Version} (hw : w ∈ took) :
    w = a.nextVersion ∧ next.current = w ∨ notice = some (.marker w) := by
  cases m with
  | request module => exact Or.inl ⟨(Option.some.inj hw).symm, Option.some.inj hw⟩
  | timer status => cases hw
  | letter m => exact Or.inr (m.notice_eq hw)

/-- A version that a turn is not about: nothing of it is lost, and at most fragments are added. -/
structure Spares (a b : Agent) (v : Version) : Prop where
  tracks : b.tracks v = a.tracks v
  markerCount : b.markerCount v = a.markerCount v
  recording : v ∈ b.recording ↔ v ∈ a.recording
  fragments : a.fragments v <+: b.fragments v

theorem Spares.refl (a : Agent) (v : Version) : Spares a a v :=
  ⟨rfl, rfl, Iff.rfl, List.prefix_refl _⟩

theorem Spares.trans {a b c : Agent} {v : Version} (h : Spares a b v) (k : Spares b c v) :
    Spares a c v :=
  ⟨k.tracks.trans h.tracks, k.markerCount.trans h.markerCount, k.recording.trans h.recording,
    h.fragments.trans k.fragments⟩

theorem Drops.spares {a b : Agent} {ws : List Version} (d : Drops a b ws) {v : Version}
    (hv : v ∉ ws) : Spares a b v := by
  refine ⟨?_, d.markerCount_eq hv, ?_, ?_⟩
  · rw [d.tracks_eq, decide_eq_false hv]
    rfl
  · rw [d.mem_recording]
    exact ⟨fun h => h.1, fun h => ⟨h, hv⟩⟩
  · exact (d.fragments_eq hv).symm ▸ List.prefix_refl _

theorem Adds.spares {a b : Agent} {x : Float} {w : Version} (d : Adds a b x w) {v : Version}
    (hv : w ≠ v) : Spares a (b.record w) v := by
  refine ⟨(d.tracks_eq v).trans (by simp [hv]), (d.markerCount_eq v).trans (if_neg hv), ?_, ?_⟩
  · change v ∈ Ordered.insert w b.recording ↔ _
    rw [Ordered.mem_insert, d.recording]
    exact ⟨fun h => h.resolve_left (Ne.symm hv), Or.inr⟩
  · exact ((d.fragments_eq v).trans (if_neg hv)).symm ▸ List.prefix_refl _

theorem file_spares (a : Agent) (w v : Version) (f : Fragment) : Spares a (a.file w f) v := by
  refine ⟨rfl, rfl, Iff.rfl, ?_⟩
  rw [fragments_file]
  split
  · rename_i hw
    exact hw ▸ List.prefix_append _ _
  · exact List.prefix_refl _

theorem bump_spares (a : Agent) {w v : Version} (hv : w ≠ v) : Spares a (a.bump w) v := by
  refine ⟨?_, ?_, Iff.rfl, List.prefix_refl _⟩
  · rw [tracks_bump, decide_eq_false hv, Bool.false_or]
  · rw [markerCount_bump, if_neg hv]

theorem fragments_tally (a : Agent) (w v : Version) : (a.tally w).fragments v = a.fragments v := by
  unfold tally
  split <;> rfl

theorem markerCount_tally (a : Agent) (v : Version) :
    (a.tally v).markerCount v = min (a.markerCount v + 1) a.peers.size := by
  have hb : (a.bump v).markerCount v = min (a.markerCount v + 1) a.peers.size := by
    rw [markerCount_bump, if_pos rfl]
  unfold tally
  split <;> exact hb

theorem mem_recording_tally (a : Agent) (v : Version) :
    v ∈ (a.tally v).recording ↔ v ∈ a.recording ∧ a.markerCount v + 1 < a.peers.size := by
  unfold tally
  rw [markerCount_bump, if_pos rfl]
  split
  · rename_i hn
    refine ⟨fun h => ?_, fun h => ?_⟩
    · simp [stopRecording] at h
    · omega
  · rename_i hn
    exact ⟨fun h => ⟨h, by omega⟩, fun h => h.1⟩

theorem tally_spares (a : Agent) {w v : Version} (hv : w ≠ v) : Spares a (a.tally w) v := by
  have hb := a.bump_spares hv
  unfold tally
  split
  · refine ⟨hb.tracks, hb.markerCount, ?_, hb.fragments⟩
    rw [← hb.recording, stopRecording, List.mem_filter, decide_eq_true_eq]
    exact ⟨fun h => h.1, fun h => ⟨h, Ne.symm hv⟩⟩
  · exact hb

theorem Marking.spares {a next : Agent} {x : Float} {w v : Version} {took : Option Version}
    {effects : List Effect} (m : Marking a x w took next effects) (hv : w ≠ v)
    (hs : a.tracks v → ¬ w.supersedes v) : Spares a next v := by
  have hdrop : v ∉ a.superseded w := fun h =>
    hs ((a.mem_superseded_iff w v).mp h).1 ((a.mem_superseded_iff w v).mp h).2
  have hw : v ∉ [w] := fun h => hv (List.mem_singleton.mp h).symm
  cases m with
  | own _ _ => exact a.tally_spares hv
  | counted _ _ _ => exact a.bump_spares hv
  | finished _ _ _ => exact (a.abandon_drops w).spares hw
  | stale _ _ => exact .refl a v
  | opened _ _ _ =>
    exact ((a.abandonSuperseded_drops w).spares hdrop).trans ((a.takeUp_adds x w).spares hv)
  | passed _ _ _ =>
    exact ((a.abandonSuperseded_drops w).spares hdrop).trans ((abandon_drops _ w).spares hw)

theorem onState_spares (a : Agent) (f : Fragment) (v : Version) : Spares a (a.onState f) v := by
  unfold onState
  split
  · exact .refl a v
  · exact a.file_spares a.current v f

theorem onPayload_spares (a : Agent) (value sender : String) (tag : Option Version) (v : Version) :
    Spares a (a.onPayload value sender tag) v := by
  rw [onPayload_eq]
  generalize a.payloadTargets tag = ws
  induction ws generalizing a with
  | nil => exact .refl a v
  | cons w rest ih =>
    exact (a.file_spares w v (.transit value sender a.uuid)).trans (ih (a.file w _))

theorem Expiring.spares {a next : Agent} {outcome : Option Outcome} {effects : List Effect}
    (m : Expiring a outcome next effects) {v : Version} (hs : v ≠ .sentinel)
    (hv : a.awaiting → a.current = v → next.current = v) : Spares a next v := by
  have hend : a.awaiting → next = a.abandon a.current → v ∉ [a.current] := by
    rintro ha rfl hm
    have hcur := hv ha (List.mem_singleton.mp hm).symm
    rw [(a.abandon_drops a.current).current, if_pos (List.mem_singleton.mpr rfl)] at hcur
    exact hs hcur.symm
  cases m with
  | idle => exact .refl a v
  | complete ha _ _ => exact (a.abandon_drops a.current).spares (hend ha rfl)
  | extended _ _ => exact ⟨rfl, rfl, Iff.rfl, List.prefix_refl _⟩
  | incomplete ha _ => exact (a.abandon_drops a.current).spares (hend ha rfl)

/-- A request forgets every version in progress, so it spares those that are not. -/
theorem Starts.spares {a b : Agent} {x : Float} (d : Starts a b x) (h : a.Sound) {v : Version}
    (hv : a.tracks v = false) (hn : v ≠ a.nextVersion) : Spares a b v := by
  have hb : b.tracks v = false := by
    rw [← Bool.not_eq_true, d.tracks]
    exact hn
  refine ⟨hb.trans hv.symm, ?_, ?_, ?_⟩
  · rw [markerCount_of_not_tracks hb, markerCount_of_not_tracks hv]
  · rw [d.recording, List.mem_singleton]
    refine ⟨fun he => absurd he hn, fun hr => ?_⟩
    rw [h.recording_tracked v hr] at hv
    cases hv
  · rw [h.fragments_of_not_tracks hv]
    exact List.nil_prefix

theorem Drops.markerCount_le {a b : Agent} {ws : List Version} (d : Drops a b ws) (w : Version) :
    b.markerCount w ≤ a.markerCount w := by
  by_cases hw : w ∈ ws
  · have hb : b.tracks w = false := by
      rw [d.tracks_eq, decide_eq_true hw]
      rfl
    rw [markerCount_of_not_tracks hb]
    exact Nat.zero_le _
  · exact Nat.le_of_eq (d.markerCount_eq hw)

theorem Marking.markerCount_le {a next : Agent} {x : Float} {v : Version} {took : Option Version}
    {effects : List Effect} (m : Marking a x v took next effects) (w : Version) :
    next.markerCount w ≤ a.markerCount w + if v = w then 1 else 0 := by
  cases m with
  | own hv hi =>
    by_cases hw : v = w
    · subst hw
      rw [markerCount_tally, if_pos rfl]
      omega
    · rw [(a.tally_spares hw).markerCount]
      exact Nat.le_add_right _ _
  | counted hv hi hn =>
    rw [markerCount_bump]
    split
    · rename_i hw
      subst hw
      omega
    · omega
  | finished hv hi hn => exact Nat.le_add_right_of_le ((a.abandon_drops v).markerCount_le w)
  | stale hv hst => exact Nat.le_add_right _ _
  | opened hv hst hn =>
    have hk := (a.takeUp_adds x v).markerCount_eq w
    have hd := (a.abandonSuperseded_drops v).markerCount_le w
    change (a.takeUp x v).markerCount w ≤ _
    rw [hk]
    split <;> omega
  | passed hv hst hn =>
    have hd := (a.abandonSuperseded_drops v).markerCount_le w
    have hk := (abandon_drops (a.abandonSuperseded v) v).markerCount_le w
    omega

theorem Expiring.markerCount_le {a next : Agent} {outcome : Option Outcome} {effects : List Effect}
    (m : Expiring a outcome next effects) (w : Version) :
    next.markerCount w ≤ a.markerCount w := by
  cases m with
  | idle => exact Nat.le_refl _
  | complete _ _ _ => exact (a.abandon_drops a.current).markerCount_le w
  | extended _ _ => exact Nat.le_refl _
  | incomplete _ _ => exact (a.abandon_drops a.current).markerCount_le w

/-- A marker counts once for its version; a version of a node's own starts at one. -/
theorem Acting.markerCount_le {a next : Agent} {x : Float} {notice : Option Notice}
    {took : Option Version} {effects : List Effect} (m : Acting a x notice took next effects)
    (w : Version) :
    next.markerCount w ≤ a.markerCount w + (if notice = some (.marker w) then 1 else 0) ∨
      w.initiator = a.uuid ∧ next.markerCount w = 1 := by
  cases m with
  | request module =>
    have d := a.request_starts x module
    by_cases hw : w = a.nextVersion
    · subst hw
      exact Or.inr ⟨rfl, d.markerCount⟩
    · have hb : (a.request x module).1.tracks w = false := by
        rw [← Bool.not_eq_true, d.tracks]
        exact hw
      rw [markerCount_of_not_tracks hb]
      exact Or.inl (Nat.zero_le _)
  | timer status => exact Or.inl ((a.onTimer_expiring status).markerCount_le w)
  | letter m =>
    left
    cases m with
    | ignored => exact Nat.le_add_right _ _
    | marker hs m => simpa using m.markerCount_le w
    | state f =>
      rw [(a.onState_spares f w).markerCount]
      exact Nat.le_add_right _ _
    | payload value sender tag =>
      rw [(a.onPayload_spares value sender tag w).markerCount]
      exact Nat.le_add_right _ _

/-- A marker ends the tracking of a version if it is the last one the node waits for, or if it takes
up a later version of the same initiator. -/
theorem Marking.tracks_or {a next : Agent} {x : Float} {v w : Version} {took : Option Version}
    {effects : List Effect} (m : Marking a x v took next effects) (hw : a.tracks w) :
    next.tracks w ∨ (v = w ∧ w.initiator ≠ a.uuid ∧ a.peers.size = a.markerCount w + 2) ∨
      (took = some v ∧ v.supersedes w) := by
  by_cases he : v = w
  · subst he
    cases m with
    | own _ _ =>
      left
      unfold tally
      split <;> exact (a.tracks_bump v v).trans (by simp)
    | counted _ _ _ => exact Or.inl ((a.tracks_bump v v).trans (by simp))
    | finished _ hi hn => exact Or.inr (Or.inl ⟨rfl, hi, hn⟩)
    | stale hv _ => simp [hw] at hv
    | opened hv _ _ => simp [hw] at hv
    | passed hv _ _ => simp [hw] at hv
  · by_cases hs : v.supersedes w
    · cases m with
      | own _ _ => exact Or.inl ((a.tally_spares he).tracks.trans hw)
      | counted _ _ _ => exact Or.inl ((a.bump_spares he).tracks.trans hw)
      | finished _ _ _ =>
        have hmem : w ∉ [v] := fun hm => he (List.mem_singleton.mp hm).symm
        exact Or.inl (((a.abandon_drops v).spares hmem).tracks.trans hw)
      | stale _ _ => exact Or.inl hw
      | opened _ _ _ => exact Or.inr (Or.inr ⟨rfl, hs⟩)
      | passed _ _ _ => exact Or.inr (Or.inr ⟨rfl, hs⟩)
    · exact Or.inl ((m.spares he fun _ => hs).tracks.trans hw)

/-- A version that is taken up is tracked, unless there are only two nodes. -/
theorem Marking.took_tracks {a next : Agent} {x : Float} {v w : Version} {took : Option Version}
    {effects : List Effect} (m : Marking a x v took next effects) (hw : took = some w) :
    v = w ∧ (next.tracks w ∨ a.peers.size ≤ 2) := by
  cases m with
  | opened _ _ _ =>
    obtain rfl := Option.some.inj hw
    exact ⟨rfl, Or.inl (((a.takeUp_adds x v).tracks_eq v).trans (by simp))⟩
  | passed _ _ hn => exact ⟨Option.some.inj hw, Or.inr hn⟩
  | own _ _ => cases hw
  | counted _ _ _ => cases hw
  | finished _ _ _ => cases hw
  | stale _ _ => cases hw

end Agent

end PhasedGrid.Snapshot
