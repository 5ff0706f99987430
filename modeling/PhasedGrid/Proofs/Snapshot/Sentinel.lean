import PhasedGrid.Proofs.Snapshot.Lineages

/-!
The version that stands for none. On the wire it is a version like any other, and a marker of it is
not refused: a node with nothing in progress counts it, a busy one may take it up. Nothing else
brings it into the books of a node.
-/

namespace PhasedGrid.Snapshot

set_option autoImplicit false

open PhasedGrid.Peer (Message)
open PhasedGrid.Schedule (TimerStatus)

namespace Agent

variable {a b c : Agent} {x : Float} {v : Version} {ws : List Version}

/-- The states in which the markers of a version find a node, along a series of calls. -/
def foundBy (a : Agent) (v : Version) : List Call → List Agent
  | [] => []
  | c :: rest => (if c.marked? = some v then [a] else []) ++ (a.serve c).1.foundBy v rest

/-- What every call keeps if a marker of `v` finds the node in the right state. -/
theorem after_of_foundBy (Inv : Agent → Prop) {right : Agent → Prop}
    (keeps : ∀ a c, Inv a → (c.marked? = some v → right a) → Inv (a.serve c).1) {calls : List Call}
    (hf : ∀ b ∈ a.foundBy v calls, right b) (h : Inv a) : Inv (a.after calls) := by
  induction calls generalizing a with
  | nil => exact h
  | cons c rest ih =>
    rw [foundBy, List.forall_mem_append] at hf
    refine ih hf.2 (keeps a c h fun hv => hf.1 a ?_)
    rw [if_pos hv]
    exact List.mem_singleton_self a

/-- Whether a node has filed anything under the version that stands for none, or records for it. -/
def FilesSentinel (a : Agent) : Prop := Table.has .sentinel a.collected ∨ .sentinel ∈ a.recording

/-- Of the version that stands for none, `b` keeps nothing that `a` does not. -/
structure NoMore (a b : Agent) : Prop where
  tracks : b.tracks .sentinel → a.tracks .sentinel
  files : b.FilesSentinel → a.FilesSentinel

namespace NoMore

theorem refl (a : Agent) : NoMore a a := ⟨id, id⟩

theorem trans (h : NoMore a b) (k : NoMore b c) : NoMore a c :=
  ⟨h.tracks ∘ k.tracks, h.files ∘ k.files⟩

end NoMore

theorem Drops.noMore (d : Drops a b ws) : NoMore a b := by
  refine ⟨fun ht => ?_, Or.imp (fun hc => ?_) fun hr => ((d.mem_recording _).mp hr).1⟩
  · rw [d.tracks_eq, Bool.and_eq_true] at ht
    exact ht.2
  · rw [Table.has_eq, d.collected] at hc
    split at hc
    · cases hc
    · exact hc

theorem Adds.noMore (d : Adds a b x v) (hv : v ≠ .sentinel) : NoMore a b := by
  refine ⟨fun ht => ?_, Or.imp (fun hc => ?_) fun hr => d.recording ▸ hr⟩
  · rw [d.tracks_eq, decide_eq_false hv, Bool.false_or] at ht
    exact ht
  · rw [Table.has_eq, d.collected, if_neg hv] at hc
    exact hc

section Operations

theorem record_noMore (a : Agent) (hv : v ≠ .sentinel) : NoMore a (a.record v) := by
  refine ⟨id, Or.imp id fun hr => ?_⟩
  exact ((Ordered.mem_insert v _ a.recording).mp hr).resolve_left (Ne.symm hv)

theorem stopRecording_noMore (a : Agent) (v : Version) : NoMore a (a.stopRecording v) :=
  ⟨id, Or.imp id fun hr => (List.mem_filter.mp hr).1⟩

theorem bump_noMore (a : Agent) (hv : v ≠ .sentinel) : NoMore a (a.bump v) := by
  refine ⟨fun ht => ?_, id⟩
  rw [tracks_bump, decide_eq_false hv, Bool.false_or] at ht
  exact ht

theorem file_noMore (a : Agent) (hv : v = .sentinel → a.FilesSentinel) (f : Fragment) :
    NoMore a (a.file v f) := by
  refine ⟨id, fun hf => ?_⟩
  by_cases he : v = .sentinel
  · exact hv he
  · refine hf.imp (fun hc => ?_) id
    rw [file, Table.has_insert, decide_eq_false he, Bool.false_or] at hc
    exact hc

theorem foldl_file_noMore (a : Agent) (hw : .sentinel ∈ ws → .sentinel ∈ a.recording)
    (f : Fragment) : NoMore a (ws.foldl (fun a v => a.file v f) a) := by
  induction ws generalizing a with
  | nil => exact .refl a
  | cons w rest ih =>
    refine (a.file_noMore (fun he => Or.inr (hw ?_)) f).trans (ih (a.file w f) fun hr => hw ?_)
    · exact he ▸ List.mem_cons_self
    · exact List.mem_cons_of_mem w hr

theorem retire_noMore (a : Agent) (v : Version) : NoMore a (a.retire v) := by
  have h := (a.abandon_drops v).noMore
  by_cases hc : a.current = v
  · rw [abandon_of_current hc] at h
    exact ⟨h.tracks, h.files⟩
  · rw [abandon_of_ne hc] at h
    exact h

theorem tally_files (a : Agent) (v : Version) : (a.tally v).FilesSentinel → a.FilesSentinel := by
  unfold tally
  split
  · exact ((a.bump v).stopRecording_noMore v).files
  · exact id

theorem advance_files (a : Agent) (v : Version) :
    (a.advance v).1.FilesSentinel → a.FilesSentinel := by
  unfold advance
  split
  · exact (a.abandon_drops v).noMore.files
  · exact id

theorem advance_tracks (a : Agent) (hv : v ≠ .sentinel) :
    (a.advance v).1.tracks .sentinel → a.tracks .sentinel := by
  unfold advance
  split
  · exact (a.abandon_drops v).noMore.tracks
  · exact (a.bump_noMore hv).tracks

theorem takeUp_noMore (a : Agent) (x : Float) (hv : v ≠ .sentinel) : NoMore a (a.takeUp x v) :=
  (a.abandonSuperseded_drops v).noMore.trans ((a.takeUp_adds x v).noMore hv)

theorem onFirstMarker_noMore (a : Agent) (x : Float) (hv : v ≠ .sentinel) :
    NoMore a (a.onFirstMarker x v).1 := by
  have h := a.takeUp_noMore x hv
  have hretire := h.trans ((a.takeUp x v).retire_noMore v)
  unfold onFirstMarker
  change NoMore a (if (a.takeUp x v).peers.size ≤ 2 then
    (if _ then { (a.takeUp x v).retire v with current := .sentinel } else (a.takeUp x v).retire v, _)
    else ((a.takeUp x v).record v, _)).1
  split
  · dsimp only
    split
    · exact ⟨hretire.tracks, hretire.files⟩
    · exact hretire
  · exact h.trans ((a.takeUp x v).record_noMore hv)

theorem onMarker_noMore (a : Agent) (x : Float) (hv : v ≠ .sentinel) :
    NoMore a (a.onMarker x v).1 := by
  have hadvance : NoMore a (a.advance v).1 := ⟨a.advance_tracks hv, a.advance_files v⟩
  unfold onMarker
  split
  · rename_i hc
    rw [onCurrentMarker_eq a hc.symm]
    split
    · refine ⟨fun ht => (a.bump_noMore hv).tracks ?_, a.tally_files v⟩
      dsimp only at ht
      unfold tally at ht
      split at ht <;> exact ht
    · exact hadvance
  split
  · rename_i hc _
    rw [onTrackedMarker_eq a (Ne.symm hc)]
    exact hadvance
  split
  · exact .refl a
  · exact a.onFirstMarker_noMore x hv

theorem initiate_noMore (a : Agent) (x : Float) : NoMore a (a.initiate x).1 := by
  obtain ⟨b, d, hb⟩ := a.initiate_adds x
  have hv := a.nextVersion_ne_sentinel
  have hfresh : NoMore a a.fresh := ⟨nofun, fun hf => hf.elim nofun nofun⟩
  have h := (hfresh.trans (d.noMore hv)).trans (b.record_noMore hv)
  rw [hb]
  exact ⟨h.tracks, h.files⟩

theorem meet_noMore (a : Agent) (source : String) : NoMore a (a.meet source) := by
  unfold meet
  split <;> exact ⟨id, id⟩

theorem onPeerList_noMore (a : Agent) (x : Float) (leader : String) (peers : List String) :
    NoMore a (a.onPeerList x leader peers).1 := by
  unfold onPeerList
  dsimp only
  split
  · have h := initiate_noMore { a with peers := a.peers.announce peers } x
    exact ⟨h.tracks, h.files⟩
  · exact ⟨nofun, fun hf => hf.elim nofun nofun⟩

theorem onState_noMore (a : Agent) (f : Fragment) : NoMore a (a.onState f) := by
  unfold onState
  split
  · exact .refl a
  · rename_i hc
    exact a.file_noMore (fun he => absurd (by simp [Version.isSentinel, he]) hc) f

theorem onPayload_noMore (a : Agent) (value sender : String) (tag : Option Version) :
    NoMore a (a.onPayload value sender tag) := by
  rw [onPayload_eq]
  exact a.foldl_file_noMore (fun hw => ((a.mem_payloadTargets_iff tag _).mp hw).1) _

theorem Expiring.noMore {outcome : Option Outcome} {effects : List Effect}
    (m : Expiring a outcome b effects) : NoMore a b := by
  cases m with
  | idle => exact .refl a
  | complete | incomplete => exact (a.abandon_drops a.current).noMore
  | extended => exact ⟨id, id⟩

end Operations

/-- Only a marker of it brings the version that stands for none into the books. -/
theorem serve_noMore (a : Agent) {c : Call} (hc : c.marked? ≠ some .sentinel) :
    NoMore a (a.serve c).1 := by
  cases c with
  | request module x =>
    have h := initiate_noMore { a with requester := some module } x
    exact ⟨h.tracks, h.files⟩
  | timer status => exact (a.onTimer_expiring status).noMore
  | message m x =>
    refine (a.meet_noMore m.source).trans ?_
    rw [serve_message]
    cases hn : (Call.message m x).notice? with
    | none => exact .refl _
    | some notice =>
      cases notice with
      | peerList leader peers => exact onPeerList_noMore _ x leader peers
      | request module source =>
        have h := initiate_noMore { a.meet m.source with requester := some module } x
        exact ⟨h.tracks, h.files⟩
      | marker v =>
        refine onMarker_noMore _ x fun hv => hc ?_
        rw [Call.marked?, hn, hv]
      | state f => exact onState_noMore _ f
      | payload value sender tag => exact onPayload_noMore _ value sender tag

theorem shipBack_sentinel (h : ¬ a.FilesSentinel) : a.shipBack .sentinel = [] := by
  have hc := (Table.get?_eq_none_iff _ a.collected).mpr (Bool.eq_false_iff.mpr (not_or.mp h).1)
  rw [shipBack, fragments, hc]
  rfl

/-- A marker of the version that stands for none, if it is not taken up: a node with nothing in
progress may count it, and nothing is filed under it or sent. -/
theorem onMarker_sentinel (a : Agent) (x : Float) (ht : a.takes? (.marker .sentinel) = none) :
    ((a.onMarker x .sentinel).1.FilesSentinel → a.FilesSentinel) ∧
    ((a.onMarker x .sentinel).1.tracks .sentinel → a.tracks .sentinel ∨ a.current = .sentinel) ∧
    (¬ a.FilesSentinel → (a.onMarker x .sentinel).2 = []) := by
  have hadvance : ¬ a.FilesSentinel → (a.advance .sentinel).2 = [] := by
    intro hf
    unfold advance
    split
    · exact shipBack_sentinel hf
    · rfl
  unfold onMarker
  split
  · rename_i hc
    rw [onCurrentMarker_eq a hc.symm]
    split
    · exact ⟨a.tally_files _, fun _ => Or.inr hc.symm, fun _ => rfl⟩
    · exact ⟨a.advance_files _, fun _ => Or.inr hc.symm, hadvance⟩
  split
  · rename_i hc htracks
    rw [onTrackedMarker_eq a (Ne.symm hc)]
    exact ⟨a.advance_files _, fun _ => Or.inl htracks, hadvance⟩
  split
  · exact ⟨id, Or.inl, fun _ => rfl⟩
  · -- neither in progress nor counted nor stale: this is the case in which it is taken up
    rename_i hc htracks hst
    exact absurd ht (by simp [takes?, tracks, hc, htracks, hst])

theorem serve_sentinel {c : Call} (hc : c.marked? = some .sentinel) :
    ∃ source x, a.serve c = (a.meet source).onMarker x .sentinel := by
  unfold Call.marked? at hc
  split at hc
  · rename_i v hn
    obtain rfl := Option.some.inj hc
    cases c with
    | request | timer => cases hn
    | message m x =>
      refine ⟨m.source, x, ?_⟩
      rw [serve_message, hn]
      rfl
  · cases hc

/-- What a call does to the books if it is no marker of the version that stands for none, or one
that is not taken up. -/
theorem serve_keeps_out (a : Agent) {c : Call}
    (hc : c.marked? = some .sentinel → a.takes? (.marker .sentinel) = none) :
    ((a.serve c).1.FilesSentinel → a.FilesSentinel) ∧
    ((a.serve c).1.tracks .sentinel →
      a.tracks .sentinel ∨ c.marked? = some .sentinel ∧ a.current = .sentinel) := by
  by_cases hm : c.marked? = some .sentinel
  · obtain ⟨source, x, hserve⟩ := serve_sentinel (a := a) hm
    have ht := (a.takes?_meet source .sentinel).trans (hc hm)
    have hmeet := a.meet_noMore source
    obtain ⟨hfiles, htracks, -⟩ := (a.meet source).onMarker_sentinel x ht
    rw [hserve]
    refine ⟨hmeet.files ∘ hfiles, fun h => (htracks h).imp hmeet.tracks fun hcur => ⟨hm, ?_⟩⟩
    unfold meet at hcur
    split at hcur <;> exact hcur
  · have h := a.serve_noMore hm
    exact ⟨h.files, Or.inl ∘ h.tracks⟩

/-- The version that stands for none is nowhere in the books of a node that never takes it up. A
node with nothing in progress does count its markers, but sends nothing. -/
theorem sentinel_kept_out {uuid : String} {policy : Policy} {peers : List String}
    {calls : List Call}
    (hs : ∀ b ∈ (new uuid policy peers).foundBy .sentinel calls, b.takes? (.marker .sentinel) = none)
    (ha : (new uuid policy peers).after calls = a) :
    Table.get? .sentinel a.collected = none ∧ .sentinel ∉ a.recording ∧
    ((∀ b ∈ (new uuid policy peers).foundBy .sentinel calls, b.current ≠ .sentinel) →
      Table.get? .sentinel a.markers = none) ∧
    ∀ m x, Wire.read m = .ok (some (.marker .sentinel)) → a.takes? (.marker .sentinel) = none →
      (a.handle x m).2.2 = [] := by
  subst ha
  have hfiles : ¬ ((new uuid policy peers).after calls).FilesSentinel := by
    refine after_of_foundBy (fun a => ¬ a.FilesSentinel) (fun b c hb hc => ?_) hs (nofun)
    exact hb ∘ (b.serve_keeps_out hc).1
  refine ⟨?_, (not_or.mp hfiles).2, fun hbusy => ?_, fun m x hread ht => ?_⟩
  · exact (Table.get?_eq_none_iff _ _).mpr (Bool.eq_false_iff.mpr (not_or.mp hfiles).1)
  · refine (Table.get?_eq_none_iff _ _).mpr (Bool.eq_false_iff.mpr ?_)
    refine after_of_foundBy (fun a => ¬ a.tracks .sentinel) (fun b c hb hc ht => ?_)
      (fun b hb => And.intro (hs b hb) (hbusy b hb)) nofun
    rcases (b.serve_keeps_out fun hm => (hc hm).1).2 ht with ht | ⟨hm, hcur⟩
    · exact hb ht
    · exact (hc hm).2 hcur
  · have hmeet := ((new uuid policy peers).after calls).meet_noMore m.source
    rw [handle_marker _ x hread]
    exact (onMarker_sentinel _ x ((takes?_meet _ m.source _).trans ht)).2.2 (hfiles ∘ hmeet.files)

/-- A marker of the version that stands for none. -/
def hollow : Message := { Wire.marker .sentinel with source := "a" }

/-- A marker of it before there is anything in progress, and three more beside a version in
progress: it is counted up to the last and then put with the finished ones. -/
def hollowBeside : List Call :=
  [.message hollow 1, .message (Wire.marker ⟨"a", 1⟩) 1, .message hollow 1,
    .message (Wire.payload "c" "memo" none) 1, .message hollow 1, .message hollow 1]

/-- A marker of it beside a version that takes it for an older one of the same initiator. -/
def hollowBehind : List Call := [.message (Wire.marker ⟨"default", 5⟩) 1, .message hollow 1]

set_option maxRecDepth 4000 in
/-- Two runs in which it is not taken up. -/
theorem hollow_kept_out :
    let a := (new "b" {} ["a", "c", "d"]).after hollowBeside
    let b := (new "b" {} ["a", "c", "d"]).after hollowBehind
    a.current = ⟨"a", 1⟩ ∧ Table.get? .sentinel a.collected = none ∧ .sentinel ∉ a.recording ∧
      (a.handle 2 hollow).2.2 = [] ∧ Table.get? .sentinel b.markers = none := by
  have hs : ∀ b ∈ (new "b" {} ["a", "c", "d"]).foundBy .sentinel hollowBeside,
      b.takes? (.marker .sentinel) = none := by decide +kernel
  have hs' : ∀ b ∈ (new "b" {} ["a", "c", "d"]).foundBy .sentinel hollowBehind,
      b.takes? (.marker .sentinel) = none := by decide +kernel
  obtain ⟨hcollected, hrecording, -, hsends⟩ := sentinel_kept_out hs rfl
  obtain ⟨-, -, hcount, -⟩ := sentinel_kept_out hs' rfl
  exact ⟨by decide +kernel, hcollected, hrecording,
    hsends hollow 2 (by decide +kernel) (by decide +kernel), hcount (by decide +kernel)⟩

set_option maxRecDepth 4000 in
/-- An idle node counts a marker of the version that stands for none; a busy one takes that version
up and passes the marker on. -/
theorem hollow_taken_up :
    let start := new "b" {} ["a", "c"]
    let idle := start.after [.message hollow 1]
    let busy := start.after [.message (Wire.marker ⟨"a", 1⟩) 1]
    Table.get? .sentinel idle.markers = some 1 ∧
      (busy.handle 2 hollow).2.2 =
        [.send "a" (Wire.marker .sentinel), .send "c" (Wire.marker .sentinel)] ∧
      Table.get? .sentinel (busy.handle 2 hollow).2.1.markers = some 1 ∧
      (busy.handle 2 hollow).2.1.fragments .sentinel = [.gateway "b" 2] ∧
      .sentinel ∈ (busy.handle 2 hollow).2.1.recording := by
  decide +kernel

end Agent

end PhasedGrid.Snapshot
