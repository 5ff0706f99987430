import Mathlib.Data.List.Dedup
import PhasedGrid.Proofs.Snapshot.Calls

/-!
Several versions under way at a node that starts none of its own. What the node sends for a marker
depends only on how far it is with the version of that marker, and it gets further with a version
by its own markers and by payloads alone. It makes no difference to anybody which of the versions
is the one in progress.
-/

namespace PhasedGrid.Snapshot

set_option autoImplicit false

open PhasedGrid.Peer (Group Message)

namespace Wire

/-- The version of which a message is a marker. -/
def marked? (m : Message) : Option Version :=
  match read m with
  | .ok (some (.marker v)) => some v
  | _ => none

/-- Whether a message is a marker or a payload. -/
def passes (m : Message) : Bool :=
  match read m with
  | .ok (some (.marker _)) | .ok (some (.payload _ _ _)) => true
  | _ => false

/-- Whether a message is no marker of another version than `v`. -/
def concerns (v : Version) (m : Message) : Bool := (marked? m).all (· = v)

theorem passes_cases {m : Message} (h : passes m) :
    (∃ v, read m = .ok (some (.marker v)) ∧ marked? m = some v) ∨
      ∃ value sender tag, read m = .ok (some (.payload value sender tag)) ∧ marked? m = none := by
  unfold passes at h
  split at h
  · rename_i v hr
    exact Or.inl ⟨v, hr, by simp [marked?, hr]⟩
  · rename_i value sender tag hr
    exact Or.inr ⟨value, sender, tag, hr, by simp [marked?, hr]⟩
  · cases h

end Wire

namespace Agent

/-- What a collector sends while it handles the markers of a version, marker by marker. -/
def sendings (a : Agent) (x : Float) (v : Version) : List Message → List (List Effect)
  | [] => []
  | m :: rest =>
    let next := (a.handle x m).2
    if Wire.marked? m = some v then next.2 :: next.1.sendings x v rest
    else next.1.sendings x v rest

/-- Versions of other nodes, at most one of each, and no more of them than a node remembers. -/
structure Family (own : String) (vs : List Version) : Prop where
  foreign : ∀ v ∈ vs, v.initiator ≠ own
  real : ∀ v ∈ vs, v ≠ .sentinel
  single : ∀ v ∈ vs, ∀ w ∈ vs, v.initiator = w.initiator → v = w
  few : vs.length ≤ retiredCapacity

/-- A collector of the group `g` that has met markers of `vs` only: it remembers every version that
it finished, and takes none up again. -/
structure Apart (g : Group) (vs : List Version) (a : Agent) : Prop where
  sound : a.Sound
  uuid : a.uuid = g.own
  peers : a.peers = g
  tracked : ∀ w, a.tracks w → w ∈ vs
  retired : ∀ w ∈ a.retired, w ∈ vs ∧ a.tracks w = false
  once : a.retired.Nodup

/-- Two collectors that are equally far with a version. -/
structure Agree (v : Version) (a b : Agent) : Prop where
  tracks : b.tracks v = a.tracks v
  markerCount : b.markerCount v = a.markerCount v
  fragments : b.fragments v = a.fragments v
  recording : v ∈ b.recording ↔ v ∈ a.recording
  retired : v ∈ b.retired ↔ v ∈ a.retired

variable {g : Group} {vs : List Version} {a b : Agent} {v : Version}

namespace Agree

theorem refl (v : Version) (a : Agent) : Agree v a a := ⟨rfl, rfl, rfl, Iff.rfl, Iff.rfl⟩

theorem symm (h : Agree v a b) : Agree v b a :=
  ⟨h.tracks.symm, h.markerCount.symm, h.fragments.symm, h.recording.symm, h.retired.symm⟩

theorem trans {c : Agent} (h : Agree v a b) (k : Agree v b c) : Agree v a c :=
  ⟨k.tracks.trans h.tracks, k.markerCount.trans h.markerCount, k.fragments.trans h.fragments,
    k.recording.trans h.recording, k.retired.trans h.retired⟩

end Agree

namespace Apart

theorem abandonSuperseded_eq (h : Apart g vs a) (hf : Family g.own vs) (hv : v ∈ vs) :
    a.abandonSuperseded v = a :=
  abandonSuperseded_eq_self fun w ht hi => hf.single w (h.tracked w ht) v hv hi

theorem takeUp_adds (h : Apart g vs a) (hf : Family g.own vs) (hv : v ∈ vs) (x : Float) :
    Adds a (a.takeUp x v) x v := by
  have hadds := a.takeUp_adds x v
  rw [h.abandonSuperseded_eq hf hv] at hadds
  exact hadds

theorem isStale_iff (h : Apart g vs a) (hf : Family g.own vs) (hv : v ∈ vs) :
    a.isStale v ↔ v ∈ a.retired := by
  rw [← Bool.not_eq_false, isStale_eq_false_iff, not_iff_comm]
  refine ⟨fun hr => ⟨hr, ?_, fun w hw hsup => ?_⟩, fun hs => hs.1⟩
  · rw [h.uuid]
    exact hf.foreign v hv
  · obtain ⟨hi, hlt⟩ := (supersedes_iff w v).mp hsup
    obtain rfl := hf.single w (h.tracked w hw) v hv hi
    exact Nat.lt_irrefl _ hlt

theorem not_retired (h : Apart g vs a) (hv : a.tracks v) : v ∉ a.retired := by
  intro hr
  rw [(h.retired v hr).2] at hv
  cases hv

/-- What is finished stays remembered: there is room for all of `vs`. -/
theorem retired_abandon (h : Apart g vs a) (hf : Family g.own vs) (hv : v ∈ vs)
    (hr : v ∉ a.retired) : (a.abandon v).retired = a.retired ++ [v] := by
  have hnodup : (a.retired ++ [v]).Nodup :=
    h.once.append (List.nodup_singleton v) (List.disjoint_singleton.mpr hr)
  have hsub : a.retired ++ [v] ⊆ vs := by
    intro w hw
    rcases List.mem_append.mp hw with hw | hw
    · exact (h.retired w hw).1
    · exact List.mem_singleton.mp hw ▸ hv
  have hlen := (List.subperm_of_subset hnodup hsub).length_le
  have hfew := hf.few
  have heq : (a.abandon v).retired = (a.retire v).retired := by
    unfold abandon
    dsimp only
    split <;> rfl
  rw [heq]
  change (a.retired ++ [v]).drop ((a.retired ++ [v]).length - retiredCapacity) = _
  rw [Nat.sub_eq_zero_of_le (by omega), List.drop_zero]

/-- The cases of a marker: the version in progress needs none of its own. -/
theorem onMarker_eq (h : Apart g vs a) (hf : Family g.own vs) (hv : v ∈ vs) (x : Float) :
    a.onMarker x v =
      if a.tracks v then
        if g.size ≤ a.markerCount v + 2 then (a.abandon v, a.shipBack v) else (a.bump v, [])
      else if v ∈ a.retired then (a, [])
      else if g.size ≤ 2 then
        (a.abandon v,
          a.announce v ++ [.send v.initiator (Wire.fragment a.uuid (.gateway a.uuid x))])
      else ((a.takeUp x v).record v, a.announce v) := by
  have hi : v.initiator ≠ a.uuid := h.uuid ▸ hf.foreign v hv
  rw [Agent.onMarker_eq h.sound x (hf.real v hv)]
  by_cases ht : a.tracks v
  · have hc := (h.sound.foreign v ht hi).2
    have hm : (a.bump v).markerCount v = a.markerCount v + 1 := by
      rw [markerCount_bump, if_pos rfl]
      omega
    rw [if_pos ht, if_pos ht, if_neg hi, advance, hm, h.peers]
  · rw [if_neg ht, if_neg ht]
    by_cases hr : v ∈ a.retired
    · rw [if_pos hr, if_pos ((h.isStale_iff hf hv).mpr hr)]
    · rw [if_neg hr, if_neg (mt (h.isStale_iff hf hv).mp hr),
        onFirstMarker_eq h.sound x (Bool.eq_false_iff.mpr ht) (hf.real v hv),
        h.abandonSuperseded_eq hf hv, h.peers]

section Steps

theorem abandon (h : Apart g vs a) (hf : Family g.own vs) (hv : v ∈ vs) (hr : v ∉ a.retired) :
    Apart g vs (a.abandon v) := by
  have d := a.abandon_drops v
  have hret := h.retired_abandon hf hv hr
  refine ⟨h.sound.drops d, d.uuid.trans h.uuid, d.peers.trans h.peers, fun w hw => ?_,
    fun w hw => ?_, ?_⟩
  · rw [d.tracks_eq, Bool.and_eq_true] at hw
    exact h.tracked w hw.2
  · rw [d.tracks_eq]
    rw [hret, List.mem_append, List.mem_singleton] at hw
    rcases hw with hw | rfl
    · exact ⟨(h.retired w hw).1, by rw [(h.retired w hw).2, Bool.and_false]⟩
    · exact ⟨hv, by simp⟩
  · rw [hret]
    exact h.once.append (List.nodup_singleton v) (List.disjoint_singleton.mpr hr)

theorem bump (h : Apart g vs a) (hv : a.tracks v) (hn : a.markerCount v + 2 < g.size) :
    Apart g vs (a.bump v) := by
  have htracks : ∀ w, (a.bump v).tracks w = a.tracks w := by
    intro w
    rw [tracks_bump]
    by_cases hw : v = w
    · subst hw
      rw [hv, Bool.or_true]
    · rw [decide_eq_false hw, Bool.false_or]
  refine ⟨h.sound.bump hv fun _ => h.peers ▸ hn, h.uuid, h.peers, fun w hw => ?_,
    fun w hw => ?_, h.once⟩
  · rw [htracks] at hw
    exact h.tracked w hw
  · rw [htracks]
    exact h.retired w hw

theorem takeUp (h : Apart g vs a) (hf : Family g.own vs) (hv : v ∈ vs) (ht : a.tracks v = false)
    (hr : v ∉ a.retired) (hn : 2 < g.size) (x : Float) :
    Apart g vs ((a.takeUp x v).record v) := by
  have k := h.takeUp_adds hf hv x
  have hi : v.initiator ≠ a.uuid := h.uuid ▸ hf.foreign v hv
  have htracks : ∀ w, ((a.takeUp x v).record v).tracks w = (decide (v = w) || a.tracks w) :=
    k.tracks_eq
  have hret : ((a.takeUp x v).record v).retired = a.retired := k.retired
  refine ⟨h.sound.takeUp ht (hf.real v hv) hi (h.peers ▸ hn), k.uuid.trans h.uuid,
    k.peers.trans h.peers, fun w hw => ?_, fun w hw => ?_, hret ▸ h.once⟩
  · rw [htracks, Bool.or_eq_true, decide_eq_true_eq] at hw
    rcases hw with rfl | hw
    · exact hv
    · exact h.tracked w hw
  · rw [hret] at hw
    have hne : v ≠ w := fun he => hr (he ▸ hw)
    rw [htracks, decide_eq_false hne, Bool.false_or]
    exact h.retired w hw

theorem onPayload (h : Apart g vs a) (value sender : String) (tag : Option Version) :
    Apart g vs (a.onPayload value sender tag) := by
  have hs := h.sound.onPayload value sender tag
  rw [onPayload_eq, foldl_file_eq] at hs ⊢
  exact { h with sound := hs }

end Steps

end Apart

namespace Agree

section Steps

variable {w : Version}

/-- Dropping a version tells on no other. -/
theorem abandon_other (h : Apart g vs a) (hf : Family g.own vs) (hw : w ∈ vs)
    (hr : w ∉ a.retired) (hv : v ≠ w) : Agree v a (a.abandon w) := by
  have hmem : v ∉ [w] := fun hm => hv (List.mem_singleton.mp hm)
  have d := a.abandon_drops w
  have k := d.spares hmem
  refine ⟨k.tracks, k.markerCount, d.fragments_eq hmem, k.recording, ?_⟩
  rw [h.retired_abandon hf hw hr, List.mem_append]
  exact or_iff_left hmem

theorem bump_other (a : Agent) (hv : v ≠ w) : Agree v a (a.bump w) := by
  have k := a.bump_spares (Ne.symm hv)
  exact ⟨k.tracks, k.markerCount, rfl, k.recording, Iff.rfl⟩

theorem takeUp_other (h : Apart g vs a) (hf : Family g.own vs) (hw : w ∈ vs) (hv : v ≠ w)
    (x : Float) : Agree v a ((a.takeUp x w).record w) := by
  have d := h.takeUp_adds hf hw x
  have k := d.spares (Ne.symm hv)
  have hret : ((a.takeUp x w).record w).retired = a.retired := d.retired
  refine ⟨k.tracks, k.markerCount, ?_, k.recording, hret ▸ Iff.rfl⟩
  exact (d.fragments_eq v).trans (if_neg (Ne.symm hv))

theorem abandon (k : Agree v a b) (ha : Apart g vs a) (hb : Apart g vs b) (hf : Family g.own vs)
    (hv : v ∈ vs) (hr : v ∉ a.retired) : Agree v (a.abandon v) (b.abandon v) := by
  have hmem : v ∈ [v] := List.mem_singleton.mpr rfl
  have da := a.abandon_drops v
  have db := b.abandon_drops v
  have hta : (a.abandon v).tracks v = false := by simp [da.tracks_eq]
  have htb : (b.abandon v).tracks v = false := by simp [db.tracks_eq]
  refine ⟨htb.trans hta.symm, ?_, ?_, ?_, ?_⟩
  · rw [markerCount_of_not_tracks hta, markerCount_of_not_tracks htb]
  · rw [da.fragments_of_mem hmem, db.fragments_of_mem hmem]
  · rw [da.mem_recording, db.mem_recording]
    exact iff_of_false (fun h => h.2 hmem) fun h => h.2 hmem
  · rw [ha.retired_abandon hf hv hr, hb.retired_abandon hf hv (mt k.retired.mp hr)]
    exact iff_of_true (List.mem_append_right _ hmem) (List.mem_append_right _ hmem)

theorem bump (k : Agree v a b) (hp : b.peers = a.peers) : Agree v (a.bump v) (b.bump v) := by
  refine ⟨?_, ?_, k.fragments, k.recording, k.retired⟩
  · rw [tracks_bump, tracks_bump, k.tracks]
  · rw [markerCount_bump, markerCount_bump, if_pos rfl, if_pos rfl, k.markerCount, hp]

theorem takeUp (k : Agree v a b) (ha : Apart g vs a) (hb : Apart g vs b) (hf : Family g.own vs)
    (hv : v ∈ vs) (x : Float) :
    Agree v ((a.takeUp x v).record v) ((b.takeUp x v).record v) := by
  have da := ha.takeUp_adds hf hv x
  have db := hb.takeUp_adds hf hv x
  refine ⟨?_, ?_, ?_, ?_, ?_⟩
  · change (b.takeUp x v).tracks v = (a.takeUp x v).tracks v
    rw [da.tracks_eq, db.tracks_eq, k.tracks]
  · change (b.takeUp x v).markerCount v = (a.takeUp x v).markerCount v
    rw [da.markerCount_eq, db.markerCount_eq, if_pos rfl, if_pos rfl]
  · change (b.takeUp x v).fragments v = (a.takeUp x v).fragments v
    rw [da.fragments_eq, db.fragments_eq, k.fragments, ha.uuid, hb.uuid]
  · change v ∈ Ordered.insert v _ ↔ v ∈ Ordered.insert v _
    rw [Ordered.mem_insert, Ordered.mem_insert]
    exact iff_of_true (Or.inl rfl) (Or.inl rfl)
  · change v ∈ (b.takeUp x v).retired ↔ v ∈ (a.takeUp x v).retired
    rw [da.retired, db.retired]
    exact k.retired

/-- A payload is filed under a version or not, whatever else is recorded. -/
theorem onPayload (k : Agree v a b) (ha : Apart g vs a) (hb : Apart g vs b)
    (value sender : String) (tag : Option Version) :
    Agree v (a.onPayload value sender tag) (b.onPayload value sender tag) := by
  have hcount : (b.payloadTargets tag).count v = (a.payloadTargets tag).count v := by
    rw [(ha.sound.payloadTargets_nodup tag).count, (hb.sound.payloadTargets_nodup tag).count]
    simp only [mem_payloadTargets_iff, k.recording]
  have hfiled : (b.onPayload value sender tag).fragments v =
      (a.onPayload value sender tag).fragments v := by
    rw [onPayload_eq, onPayload_eq, fragments_foldl_file, fragments_foldl_file, hcount,
      k.fragments, ha.uuid, hb.uuid]
  refine ⟨?_, ?_, hfiled, ?_, ?_⟩ <;>
    rw [onPayload_eq, onPayload_eq, foldl_file_eq a, foldl_file_eq b]
  · exact k.tracks
  · exact k.markerCount
  · exact k.recording
  · exact k.retired

end Steps

end Agree

namespace Apart

/-- A marker leaves the order of the collector and the other versions alone. -/
theorem onMarker (h : Apart g vs a) (hf : Family g.own vs) (hv : v ∈ vs) (x : Float) :
    Apart g vs (a.onMarker x v).1 ∧ ∀ w, w ≠ v → Agree w a (a.onMarker x v).1 := by
  rw [h.onMarker_eq hf hv x]
  by_cases ht : a.tracks v
  · have hr := h.not_retired ht
    rw [if_pos ht]
    by_cases hn : g.size ≤ a.markerCount v + 2
    · rw [if_pos hn]
      exact ⟨h.abandon hf hv hr, fun w hw => .abandon_other h hf hv hr hw⟩
    · rw [if_neg hn]
      exact ⟨h.bump ht (by omega), fun w hw => .bump_other a hw⟩
  rw [if_neg ht]
  by_cases hr : v ∈ a.retired
  · rw [if_pos hr]
    exact ⟨h, fun w _ => .refl w a⟩
  rw [if_neg hr]
  by_cases hn : g.size ≤ 2
  · rw [if_pos hn]
    exact ⟨h.abandon hf hv hr, fun w hw => .abandon_other h hf hv hr hw⟩
  · rw [if_neg hn]
    exact ⟨h.takeUp hf hv (Bool.eq_false_iff.mpr ht) hr (by omega) x,
      fun w hw => .takeUp_other h hf hv hw x⟩

end Apart

/-- Collectors that are equally far with a version do the same with a marker of it, and are equally
far afterwards. -/
theorem Agree.onMarker (k : Agree v a b) (ha : Apart g vs a) (hb : Apart g vs b)
    (hf : Family g.own vs) (hv : v ∈ vs) (x : Float) :
    (b.onMarker x v).2 = (a.onMarker x v).2 ∧
      Agree v (a.onMarker x v).1 (b.onMarker x v).1 := by
  have hpeers : b.peers = a.peers := hb.peers.trans ha.peers.symm
  have huuid : b.uuid = a.uuid := hb.uuid.trans ha.uuid.symm
  have hann : b.announce v = a.announce v := by
    rw [announce, announce, toOthers, toOthers, hpeers]
  have hship : b.shipBack v = a.shipBack v := by
    rw [shipBack, shipBack, k.fragments, huuid]
  rw [ha.onMarker_eq hf hv x, hb.onMarker_eq hf hv x, k.tracks, k.markerCount, hann, hship, huuid]
  by_cases ht : a.tracks v
  · rw [if_pos ht, if_pos ht]
    by_cases hn : g.size ≤ a.markerCount v + 2
    · rw [if_pos hn, if_pos hn]
      exact ⟨rfl, k.abandon ha hb hf hv (ha.not_retired ht)⟩
    · rw [if_neg hn, if_neg hn]
      exact ⟨rfl, k.bump hpeers⟩
  rw [if_neg ht, if_neg ht]
  by_cases hr : v ∈ a.retired
  · rw [if_pos hr, if_pos (k.retired.mpr hr)]
    exact ⟨rfl, k⟩
  rw [if_neg hr, if_neg (mt k.retired.mp hr)]
  by_cases hn : g.size ≤ 2
  · rw [if_pos hn, if_pos hn]
    exact ⟨rfl, k.abandon ha hb hf hv hr⟩
  · rw [if_neg hn, if_neg hn]
    exact ⟨rfl, k.takeUp ha hb hf hv x⟩

theorem sendings_marker (a : Agent) (x : Float) {m : Message} (h : Wire.marked? m = some v)
    (rest : List Message) : a.sendings x v (m :: rest) =
      (a.handle x m).2.2 :: (a.handle x m).2.1.sendings x v rest := if_pos h

theorem sendings_other (a : Agent) (x : Float) {m : Message} (h : Wire.marked? m ≠ some v)
    (rest : List Message) : a.sendings x v (m :: rest) =
      (a.handle x m).2.1.sendings x v rest := if_neg h

/-- Nobody is new in the group who is in it already. -/
theorem meet_of_mem (hs : a.peers.Sorted) {source : String} (hk : source ∈ a.peers.members) :
    a.meet source = a := by
  unfold meet
  split
  · rfl
  · rw [Group.insert_of_mem hs hk]

/-- Messages whose markers are omitted from one of two runs, as far as they concern one version. -/
theorem Apart.sendings_filter (hs : g.Sorted) (hf : Family g.own vs) (x : Float) {ms : List Message}
    (hms : ∀ m ∈ ms, m.source ∈ g.members ∧ Wire.passes m ∧ ∀ w ∈ Wire.marked? m, w ∈ vs)
    (ha : Apart g vs a) (hb : Apart g vs b) (k : Agree v a b) :
    b.sendings x v (ms.filter (Wire.concerns v)) = a.sendings x v ms := by
  induction ms generalizing a b with
  | nil => rfl
  | cons m rest ih =>
    obtain ⟨hk, hp, hin⟩ := hms m List.mem_cons_self
    have ih' := fun {c d : Agent} => @ih c d fun n hn => hms n (List.mem_cons_of_mem m hn)
    have hmeet : ∀ {c : Agent}, Apart g vs c → c.meet m.source = c := fun hc =>
      meet_of_mem (hc.peers ▸ hs) (hc.peers ▸ hk)
    rcases Wire.passes_cases hp with ⟨w, hread, hmark⟩ | ⟨value, sender, tag, hread, hmark⟩
    · have hw := hin w hmark
      have hhandle : ∀ {c : Agent}, Apart g vs c → (c.handle x m).2 = c.onMarker x w := by
        intro c hc
        simp only [handle, hread, hmeet hc, Agent.onNotice]
      obtain ⟨hnext, hothers⟩ := ha.onMarker hf hw x
      by_cases hv : w = v
      · subst hv
        obtain ⟨hsent, hagree⟩ := k.onMarker ha hb hf hw x
        have hkeep : Wire.concerns w m = true := by simp [Wire.concerns, hmark]
        rw [List.filter_cons_of_pos hkeep, sendings_marker b x hmark, sendings_marker a x hmark,
          hhandle ha, hhandle hb, hsent, ih' hnext (hb.onMarker hf hw x).1 hagree]
      · have hdrop : ¬ Wire.concerns v m = true := by simp [Wire.concerns, hmark, hv]
        have hne : Wire.marked? m ≠ some v := by simp [hmark, hv]
        rw [List.filter_cons_of_neg hdrop, sendings_other a x hne, hhandle ha,
          ih' hnext hb ((hothers v (Ne.symm hv)).symm.trans k)]
    · have hhandle : ∀ {c : Agent}, Apart g vs c →
          (c.handle x m).2 = (c.onPayload value sender tag, []) := by
        intro c hc
        simp only [handle, hread, hmeet hc, Agent.onNotice]
      have hkeep : Wire.concerns v m = true := by simp [Wire.concerns, hmark]
      have hne : Wire.marked? m ≠ some v := by simp [hmark]
      rw [List.filter_cons_of_pos hkeep, sendings_other b x hne, sendings_other a x hne,
        hhandle ha, hhandle hb, ih' (ha.onPayload value sender tag) (hb.onPayload value sender tag)
          (k.onPayload ha hb value sender tag)]

theorem apart_new (uuid : String) (policy : Policy) (peers : List String) (vs : List Version) :
    Apart (Group.ofList uuid peers) vs (new uuid policy peers) :=
  ⟨new_sound uuid policy peers, (Group.own_ofList uuid peers).symm, rfl,
    fun _ hw => Bool.noConfusion hw, fun _ hw => absurd hw List.not_mem_nil, List.nodup_nil⟩

/-- Versions do not mix: what a node that starts none of its own sends for the markers of `v` is
what it would send had there been no markers of other versions, at the same markers and in the same
order. -/
theorem sendings_of_others_omitted {uuid : String} {policy : Policy} {peers : List String}
    {ms : List Message} (hknown : ∀ m ∈ ms, m.source ∈ (Group.ofList uuid peers).members)
    (hpass : ∀ m ∈ ms, Wire.passes m)
    (hforeign : ∀ v ∈ ms.filterMap Wire.marked?, v.initiator ≠ uuid ∧ v ≠ .sentinel)
    (hsingle : ∀ v ∈ ms.filterMap Wire.marked?, ∀ w ∈ ms.filterMap Wire.marked?,
      v.initiator = w.initiator → v = w)
    (hfew : (ms.filterMap Wire.marked?).dedup.length ≤ 32) (x : Float) (v : Version) :
    (new uuid policy peers).sendings x v ms =
      (new uuid policy peers).sendings x v (ms.filter (Wire.concerns v)) := by
  have hfam : Family (Group.ofList uuid peers).own (ms.filterMap Wire.marked?).dedup := by
    refine ⟨fun w hw => ?_, fun w hw => ?_, fun w hw u hu => ?_, hfew⟩
    · rw [Group.own_ofList]
      exact (hforeign w (List.mem_dedup.mp hw)).1
    · exact (hforeign w (List.mem_dedup.mp hw)).2
    · exact hsingle w (List.mem_dedup.mp hw) u (List.mem_dedup.mp hu)
  have hstart := apart_new uuid policy peers (ms.filterMap Wire.marked?).dedup
  refine (hstart.sendings_filter (Group.sorted_ofList uuid peers) hfam x (fun m hm => ?_) hstart
    (.refl v _)).symm
  refine ⟨hknown m hm, hpass m hm, fun w hw => List.mem_dedup.mpr ?_⟩
  exact List.mem_filterMap.mpr ⟨m, hm, hw⟩

/-- Markers of two versions and payloads on their way through a group of four, in any order: the
version of `d` is the one in progress, then that of `a`. -/
def mixed : List Message :=
  [Wire.marker ⟨"d", 1⟩, Wire.marker ⟨"a", 7⟩, Wire.payload "c" "note" none,
    { Wire.marker ⟨"d", 1⟩ with source := "c" }, { Wire.marker ⟨"a", 7⟩ with source := "d" },
    { Wire.marker ⟨"d", 1⟩ with source := "a" }, Wire.payload "c" "memo" (some ⟨"a", 7⟩),
    { Wire.marker ⟨"a", 7⟩ with source := "c" }, { Wire.marker ⟨"d", 1⟩ with source := "b" }]

set_option maxRecDepth 4000 in
/-- The node announces the version of `a` to three peers, and ships its reading and both payloads
once it has three markers. -/
theorem sendings_mixed :
    ((new "b" {} ["a", "b", "c", "d"]).sendings 1 ⟨"a", 7⟩ mixed).map List.length = [3, 0, 3] ∧
      (new "b" {} ["a", "b", "c", "d"]).sendings 1 ⟨"a", 7⟩ mixed =
        (new "b" {} ["a", "b", "c", "d"]).sendings 1 ⟨"a", 7⟩
          (mixed.filter (Wire.concerns ⟨"a", 7⟩)) := by
  refine ⟨by decide +kernel, sendings_of_others_omitted ?_ ?_ ?_ ?_ ?_ 1 ⟨"a", 7⟩⟩
  · decide +kernel
  · decide +kernel
  · decide +kernel
  · decide +kernel
  · decide +kernel

end Agent

end PhasedGrid.Snapshot
