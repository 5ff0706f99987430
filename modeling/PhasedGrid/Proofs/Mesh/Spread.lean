import Mathlib.Data.List.Nodup
import PhasedGrid.Proofs.Mesh.Conservation
import PhasedGrid.Proofs.Mesh.Leading

/-!
How a version spreads while its initiator waits for it and no other node starts a version of its
own on top of it. Every other node passes it on once, counts the markers of all the others and then
sends its reading back; so the markers that are counted tell who has recorded the version.
-/

namespace PhasedGrid.Snapshot

set_option autoImplicit false

open PhasedGrid.Peer (Network)
open PhasedGrid.Schedule (TimerStatus)
open Agent (Turn Handling Spares Marking)

namespace Mesh

/-- Only the initiator of `v` starts a snapshot while it tracks `v`. -/
def Loyal (v : Version) (σ : Mesh) : Event → Prop
  | .request b _ _ => b ≠ v.initiator → (σ.agent b).tracks v = false
  | _ => True

/-- The reading of `c` is at the initiator of `v`, or on its way there. -/
def Delivered (σ : Mesh) (v : Version) (c : String) : Prop :=
  (∃ x, .gateway c x ∈ (σ.agent v.initiator).fragments v) ∨
    ∃ l ∈ σ.channel c v.initiator, ∃ x, l.notice? = some (.state (.gateway c x))

/-- How far a node that did not start `v` is with it. -/
structure Share (σ : Mesh) (v : Version) (c : String) : Prop where
  unheard : v ∉ σ.past c → σ.heard c v = []
  counting : (σ.agent c).tracks v → (σ.agent c).markerCount v = (σ.heard c v).length
  finished : v ∈ σ.past c → (σ.agent c).tracks v = false →
    (σ.heard c v).length + 1 = σ.nodes.length ∧ σ.Delivered v c

structure Wave (σ : Mesh) (v : Version) : Prop where
  once : ∀ b, (σ.past b).count v ≤ 1
  share : ∀ c ∈ σ.nodes, c ≠ v.initiator → σ.Share v c
  counting : (σ.agent v.initiator).markerCount v = (σ.heard v.initiator v).length + 1
  recording : 2 ≤ σ.nodes.length → (v ∈ (σ.agent v.initiator).recording ↔
    (σ.agent v.initiator).markerCount v < σ.nodes.length)

instance (v : Version) (σ : Mesh) : DecidablePred (Loyal v σ)
  | .request b _ _ =>
    inferInstanceAs (Decidable (b ≠ v.initiator → (σ.agent b).tracks v = false))
  | .timer _ _ => isTrue trivial
  | .payload _ _ _ _ => isTrue trivial
  | .receive _ _ _ _ => isTrue trivial

variable {σ τ : Mesh} {v : Version}

/-- Nobody is heard of twice if nobody records `v` twice. -/
theorem heard_nodup (h : Ledger σ) (hc : σ.Conserved) (honce : ∀ b, (σ.past b).count v ≤ 1)
    {r : String} (hr : r ∈ σ.nodes) : (σ.heard r v).Nodup := by
  refine List.nodup_iff_count_le_one.mpr fun s => ?_
  by_cases hm : s ∈ σ.heard r v
  · obtain ⟨hs, -, hne⟩ := h.heard r v s hm
    have hsum := hc v s hs r hr hne
    have := honce s
    omega
  · rw [List.count_eq_zero_of_not_mem hm]
    exact Nat.zero_le 1

/-- If a node has not heard of another, it has not heard of all others. -/
theorem room_of_unheard (h : Ledger σ) (hc : σ.Conserved) (honce : ∀ b, (σ.past b).count v ≤ 1)
    {s r : String} (hs : s ∈ σ.nodes) (hr : r ∈ σ.nodes) (hne : s ≠ r) (hnot : s ∉ σ.heard r v) :
    (σ.heard r v).length + 2 ≤ σ.nodes.length := by
  have hself : r ∉ σ.heard r v := fun hm => (h.heard r v r hm).2.2 rfl
  have hcons : (r :: s :: σ.heard r v).Nodup := by
    refine List.nodup_cons.mpr ⟨fun hm => ?_, List.nodup_cons.mpr ⟨hnot, heard_nodup h hc honce hr⟩⟩
    rcases List.mem_cons.mp hm with he | hm
    · exact hne he.symm
    · exact hself hm
  refine List.Nodup.length_le_of_subset hcons fun b hb => ?_
  rcases List.mem_cons.mp hb with rfl | hb
  · exact hr
  rcases List.mem_cons.mp hb with rfl | hb
  · exact hs
  · exact (h.heard r v b hb).1

/-- While a marker of `v` is under way to a node, that node has not heard of all others. -/
theorem room (h : Ledger σ) (hc : σ.Conserved) (honce : ∀ b, (σ.past b).count v ≤ 1)
    {s r : String} (hs : s ∈ σ.nodes) (hr : r ∈ σ.nodes) (hne : s ≠ r)
    (hu : 0 < σ.underway v s r) : (σ.heard r v).length + 2 ≤ σ.nodes.length := by
  refine room_of_unheard h hc honce hs hr hne fun hm => ?_
  have hpos := List.count_pos_iff.mpr hm
  have hsum := hc v s hs r hr hne
  have := honce s
  omega

theorem Share.transfer {c : String} (w : σ.Share v c) (hn : τ.nodes = σ.nodes)
    (hh : τ.heard c v = σ.heard c v) (hp : v ∈ τ.past c ↔ v ∈ σ.past c)
    (ha : Spares (σ.agent c) (τ.agent c) v) (hd : σ.Delivered v c → τ.Delivered v c) :
    τ.Share v c := by
  refine ⟨fun hv => ?_, fun ht => ?_, fun hv ht => ?_⟩
  · rw [hh]
    exact w.unheard (fun hv' => hv (hp.mpr hv'))
  · rw [ha.tracks] at ht
    rw [ha.markerCount, hh]
    exact w.counting ht
  · rw [ha.tracks] at ht
    obtain ⟨hlen, hdel⟩ := w.finished (hp.mp hv) ht
    rw [hh, hn]
    exact ⟨hlen, hd hdel⟩

/-- What an event that is not about `v` leaves of its spreading. -/
theorem Wave.transfer (w : σ.Wave v) (hn : τ.nodes = σ.nodes)
    (hh : ∀ c, τ.heard c v = σ.heard c v) (hp : ∀ c, (τ.past c).count v = (σ.past c).count v)
    (ha : ∀ c, Spares (σ.agent c) (τ.agent c) v)
    (hd : ∀ c, σ.Delivered v c → τ.Delivered v c) : τ.Wave v := by
  have hmem : ∀ c, v ∈ τ.past c ↔ v ∈ σ.past c := fun c => by
    rw [← List.count_pos_iff, ← List.count_pos_iff, hp c]
  refine ⟨fun b => ?_, fun c hc hne => ?_, ?_, ?_⟩
  · rw [hp b]
    exact w.once b
  · rw [hn] at hc
    exact (w.share c hc hne).transfer hn (hh c) (hmem c) (ha c) (hd c)
  · rw [(ha _).markerCount, hh]
    exact w.counting
  · rw [hn]
    intro hN
    rw [(ha _).recording, (ha _).markerCount]
    exact w.recording hN

theorem Delivered.mono {c : String} (hd : σ.Delivered v c)
    (hf : (σ.agent v.initiator).fragments v <+: (τ.agent v.initiator).fragments v)
    (hc : ∀ l ∈ σ.channel c v.initiator, l ∈ τ.channel c v.initiator) : τ.Delivered v c := by
  rcases hd with ⟨x, hx⟩ | ⟨l, hl, x, hx⟩
  · exact Or.inl ⟨x, hf.subset hx⟩
  · exact Or.inr ⟨l, hc l hl, x, hx⟩

theorem spares_act {b : String} {took : Option (Version × Float)} {next : Agent}
    {effects : List Effect} (sp : Spares (σ.agent b) next v) (c : String) :
    Spares (σ.agent c) ((σ.act b took next effects).agent c) v := by
  by_cases hc : c = b
  · subst hc
    rw [agent_act_self]
    exact sp
  · rw [agent_act_ne σ hc]
    exact .refl _ v

theorem Wave.act (w : σ.Wave v) {b : String} {took : Option Version} (ht : took ≠ some v)
    {next : Agent} (sp : Spares (σ.agent b) next v) (effects : List Effect) (x : Float) :
    (σ.act b (took.map (·, x)) next effects).Wave v := by
  refine w.transfer ?_ (fun c => ?_) (fun c => ?_) (spares_act sp) fun c hd =>
    hd.mono (spares_act sp _).fragments fun l hl => ?_
  · rfl
  · rfl
  · rw [count_past_act, if_neg fun hc => ht hc.2, Nat.add_zero]
  · rw [channel_act]
    exact List.mem_append_left _ hl

theorem Wave.payload (w : σ.Wave v) (s r value : String) (tag : Option Version) :
    (σ.step (.payload s r value tag)).Wave v := by
  refine w.transfer rfl (fun _ => rfl) (fun _ => rfl) (fun c => .refl _ v) fun c hd =>
    hd.mono (List.prefix_refl _) fun l hl => ?_
  unfold step
  dsimp only
  split
  · exact List.mem_append_left _ hl
  · exact hl

theorem Wave.receive_other (w : σ.Wave v) (h : Ledger σ) (hl : σ.Leads v) {s r : String} {i : Nat}
    {l : Letter} (hmail : (σ.channel s r)[i]? = some l) (hn : l.notice? ≠ some (.marker v))
    {x : Float} {took : Option Version} {next : Agent} {effects : List Effect}
    (m : Handling (σ.agent r) x l.notice? took next effects) :
    ((σ.consume s r i l).act r (took.map (·, x)) next effects).Wave v := by
  have hp := h.posted s r l (List.mem_of_getElem? hmail)
  have ht : took ≠ some v := fun hv => hn (m.notice_eq hv)
  have sp : Spares (σ.agent r) next v := by
    generalize hnotice : l.notice? = notice at m
    cases m with
    | ignored => exact .refl _ v
    | @marker u took next effects hu m =>
      refine m.spares (fun he => hn (he ▸ hnotice)) fun _ => ?_
      exact hl.not_superseded h (hp.allowed _ hnotice).1
    | state f => exact Agent.onState_spares _ f v
    | payload value sender tag => exact Agent.onPayload_spares _ value sender tag v
  have spall : ∀ c, Spares (σ.agent c)
      (((σ.consume s r i l).act r (took.map (·, x)) next effects).agent c) v :=
    spares_act (σ := σ.consume s r i l) sp
  refine w.transfer ?_ (fun c => ?_) (fun c => ?_) spall fun c hd => ?_
  · rfl
  · change (if c = r ∧ _ then _ else _) = _
    rw [if_neg fun hc => hn hc.2]
  · rw [count_past_act, if_neg fun hc => ht hc.2, Nat.add_zero]
    rfl
  · rcases hd with ⟨y, hy⟩ | ⟨l', hl', y, hy⟩
    · exact Or.inl ⟨y, (spall v.initiator).fragments.subset hy⟩
    · by_cases he : c = s ∧ v.initiator = r ∧ l' = l
      · -- the reading has arrived: the initiator files it under the version it waits for
        obtain ⟨rfl, rfl, rfl⟩ := he
        rw [hy] at m
        cases m
        refine Or.inl ⟨y, ?_⟩
        rw [agent_act_self, Agent.onState, if_neg (by simp [Version.isSentinel, hl.2, hl.1]), hl.2,
          Agent.fragments_file, if_pos rfl]
        exact List.mem_append_right _ (List.mem_singleton.mpr rfl)
      · refine Or.inr ⟨l', ?_, y, hy⟩
        rw [channel_act]
        exact List.mem_append_left _ (mem_channel_consume_of_not hmail hl' he)

theorem heard_consume_marker {s r : String} (i : Nat) {l : Letter}
    (hn : l.notice? = some (.marker v)) (c : String) :
    (σ.consume s r i l).heard c v = if c = r then s :: σ.heard c v else σ.heard c v := by
  unfold consume
  simp [hn]

theorem Delivered.receive_marker {c : String} (hd : σ.Delivered v c) {s r : String} {i : Nat}
    {l : Letter} (hmail : (σ.channel s r)[i]? = some l) (hn : l.notice? = some (.marker v))
    {took : Option (Version × Float)} {next : Agent} {effects : List Effect}
    (hf : r = v.initiator → next.fragments v = (σ.agent v.initiator).fragments v) :
    ((σ.consume s r i l).act r took next effects).Delivered v c := by
  rcases hd with ⟨x, hx⟩ | ⟨l', hl', x, hx⟩
  · refine Or.inl ⟨x, ?_⟩
    by_cases hr : r = v.initiator
    · rw [← hr, agent_act_self, hf hr]
      exact hx
    · rw [agent_act_ne _ (Ne.symm hr)]
      exact hx
  · refine Or.inr ⟨l', ?_, x, hx⟩
    rw [channel_act]
    refine List.mem_append_left _ (mem_channel_consume_of_not hmail hl' ?_)
    rintro ⟨-, -, rfl⟩
    rw [hn] at hx
    cases hx

theorem Wave.receive_own (w : σ.Wave v) (h : Ledger σ) (hc : σ.Conserved) (hl : σ.Leads v)
    {s : String} {i : Nat} {l : Letter} (hmail : (σ.channel s v.initiator)[i]? = some l)
    (hn : l.notice? = some (.marker v)) {x : Float} {took : Option Version} {next : Agent}
    {effects : List Effect} (m : Marking (σ.agent v.initiator) x v took next effects) :
    ((σ.consume s v.initiator i l).act v.initiator (took.map (·, x)) next effects).Wave v := by
  have hp := h.posted s _ l (List.mem_of_getElem? hmail)
  have hA := hl.mem_nodes h
  have hroom := room h hc w.once hp.sender hA (hp.allowed _ hn).2
    (underway_pos_iff.mpr ⟨l, List.mem_of_getElem? hmail, hn⟩)
  have hsize := h.own_peer hA
  have hcount := w.counting
  have ht := hl.tracks h
  cases m with
  | own hv hi =>
    refine ⟨fun b => ?_, fun c hcn hne => ?_, ?_, ?_⟩
    · rw [count_past_act, if_neg fun hx => nomatch hx.2]
      exact w.once b
    · refine (w.share c hcn hne).transfer rfl ?_ ?_ ?_ fun hd =>
        hd.receive_marker hmail hn fun _ => Agent.fragments_tally _ v v
      · exact (heard_consume_marker i hn c).trans (if_neg hne)
      · exact mem_past_act.trans (or_iff_right fun hx => nomatch hx.2)
      · rw [agent_act_ne _ hne]
        exact .refl _ v
    · rw [agent_act_self, Agent.markerCount_tally]
      have hheard := heard_consume_marker (σ := σ) (s := s) (r := v.initiator) i hn v.initiator
      rw [if_pos rfl] at hheard
      have : ((σ.consume s v.initiator i l).heard v.initiator v).length =
        (σ.heard v.initiator v).length + 1 := by rw [hheard]; rfl
      change _ = ((σ.consume s v.initiator i l).heard v.initiator v).length + 1
      omega
    · intro hN
      rw [agent_act_self, Agent.markerCount_tally, Agent.mem_recording_tally, w.recording hN]
      change _ ↔ _ < σ.nodes.length
      omega
  | counted hv hi hn => exact absurd (h.uuid v.initiator).symm hi
  | finished hv hi hn => exact absurd (h.uuid v.initiator).symm hi
  | stale hv hst => simp [ht] at hv
  | opened hv hst hn => simp [ht] at hv
  | passed hv hst hn => simp [ht] at hv

theorem Delivered.of_send (b by' : String) (y : Float) {took : Option (Version × Float)}
    {next : Agent} {effects : List Effect}
    (h : .send v.initiator (Wire.fragment by' (.gateway b y)) ∈ effects) :
    (σ.act b took next effects).Delivered v b := by
  refine Or.inr ⟨⟨Network.stamp b (Wire.fragment by' (.gateway b y)), σ.past b⟩, ?_,
    Decimal.retold y, Letter.notice?_fragment b by' (.gateway b y) (σ.past b)⟩
  rw [channel_act, if_pos rfl]
  exact List.mem_append_right _
    (mem_letters.mpr ⟨_, h, served_of_mem (Wire.fragment_handlerKeys by' _), rfl⟩)

theorem Wave.not_stale (w : σ.Wave v) (h : Ledger σ) (hl : σ.Leads v) {r : String}
    (hr : r ∈ σ.nodes) (hne : r ≠ v.initiator) (hv : (σ.agent r).tracks v = false)
    (hroom : (σ.heard r v).length + 2 ≤ σ.nodes.length) :
    v ∉ σ.past r ∧ (σ.agent r).isStale v = false := by
  have hpast : v ∉ σ.past r := by
    intro hp
    have := ((w.share r hr hne).finished hp hv).1
    omega
  refine ⟨hpast, ((σ.agent r).isStale_eq_false_iff v).mpr ⟨fun hm => ?_, fun hi => ?_, fun u hu => ?_⟩⟩
  · exact hpast (h.retired r v hm)
  · exact hne ((h.uuid r).symm.trans hi.symm)
  · exact hl.not_superseded h (h.tracked r u hu)

theorem Wave.share_marker (w : σ.Wave v) (h : Ledger σ) (hl : σ.Leads v) {s r : String}
    {i : Nat} {l : Letter} (hr : r ∈ σ.nodes) (hne : r ≠ v.initiator)
    (hn : l.notice? = some (.marker v)) (hroom : (σ.heard r v).length + 2 ≤ σ.nodes.length)
    {x : Float} {took : Option Version} {next : Agent} {effects : List Effect}
    (m : Marking (σ.agent r) x v took next effects) :
    ((σ.consume s r i l).act r (took.map (·, x)) next effects).Share v r := by
  have hshare := w.share r hr hne
  have hsize := h.own_peer hr
  have hagent : ((σ.consume s r i l).act r (took.map (·, x)) next effects).agent r = next :=
    agent_act_self _ r _ _ _
  have hheard : ((σ.consume s r i l).act r (took.map (·, x)) next effects).heard r v =
      s :: σ.heard r v := (heard_consume_marker i hn r).trans (if_pos rfl)
  have hnew : (σ.agent r).tracks v = false →
      (σ.agent r).isStale v = false ∧ σ.heard r v = [] := fun hv =>
    have hst := w.not_stale h hl hr hne hv hroom
    ⟨hst.2, hshare.unheard hst.1⟩
  cases m with
  | own hv hi => exact absurd (hi.trans (h.uuid r)).symm hne
  | stale hv hst => simp [(hnew hv).1] at hst
  | counted hv hi hlt =>
    have hcount := hshare.counting hv
    refine ⟨fun hp => (hp (mem_past_act.mpr (Or.inr (h.tracked r v hv)))).elim, fun _ => ?_,
      fun _ ht => ?_⟩
    · rw [hagent, hheard, Agent.markerCount_bump, if_pos rfl, List.length_cons]
      omega
    · rw [hagent, Agent.tracks_bump] at ht
      simp at ht
  | finished hv hi hall =>
    have hcount := hshare.counting hv
    obtain ⟨y, rest, hy⟩ := (h.sound r).own_first v hv
    rw [h.uuid r] at hy
    refine ⟨fun hp => (hp (mem_past_act.mpr (Or.inr (h.tracked r v hv)))).elim, fun ht => ?_,
      fun _ _ => ⟨?_, .of_send r (σ.agent r).uuid y (List.mem_map.mpr ⟨_, ?_, rfl⟩)⟩⟩
    · rw [hagent, (Agent.abandon_drops _ v).tracks_eq] at ht
      simp at ht
    · rw [hheard, List.length_cons]
      change _ = σ.nodes.length
      omega
    · rw [hy]
      exact List.mem_cons_self
  | opened hv hst hlt =>
    have hk := Agent.takeUp_adds (σ.agent r) x v
    refine ⟨fun hp => (hp (mem_past_act.mpr (Or.inl ⟨rfl, rfl⟩))).elim, fun _ => ?_, fun _ ht => ?_⟩
    · rw [hagent, hheard, (hnew hv).2]
      exact (hk.markerCount_eq v).trans (if_pos rfl)
    · rw [hagent] at ht
      have ht' := (hk.tracks_eq v).symm.trans ht
      simp at ht'
  | passed hv hst hle =>
    refine ⟨fun hp => (hp (mem_past_act.mpr (Or.inl ⟨rfl, rfl⟩))).elim, fun ht => ?_,
      fun _ _ => ⟨?_, .of_send r (σ.agent r).uuid x (List.mem_append_right _ ?_)⟩⟩
    · rw [hagent, (Agent.abandon_drops _ v).tracks_eq] at ht
      simp at ht
    · rw [hheard, (hnew hv).2]
      rw [(hnew hv).2] at hroom
      change 0 + 1 + 1 = σ.nodes.length
      change 0 + 2 ≤ σ.nodes.length at hroom
      omega
    · rw [h.uuid r]
      exact List.mem_singleton.mpr rfl

theorem Wave.receive_marker (w : σ.Wave v) (h : Ledger σ) (hc : σ.Conserved) (hl : σ.Leads v)
    {s r : String} {i : Nat} {l : Letter} (hmail : (σ.channel s r)[i]? = some l)
    (hr : r ∈ σ.nodes) (hne : r ≠ v.initiator) (hn : l.notice? = some (.marker v)) {x : Float}
    {took : Option Version} {next : Agent} {effects : List Effect}
    (m : Marking (σ.agent r) x v took next effects) :
    ((σ.consume s r i l).act r (took.map (·, x)) next effects).Wave v := by
  have hp := h.posted s r l (List.mem_of_getElem? hmail)
  have hroom := room h hc w.once hp.sender hr (hp.allowed _ hn).2
    (underway_pos_iff.mpr ⟨l, List.mem_of_getElem? hmail, hn⟩)
  have htook : took = some v → v ∉ σ.past r := by
    rintro rfl
    cases m with
    | opened hv _ _ => exact (w.not_stale h hl hr hne hv hroom).1
    | passed hv _ _ => exact (w.not_stale h hl hr hne hv hroom).1
  refine ⟨fun b => ?_, fun c hcn hcA => ?_, ?_, ?_⟩
  · rw [count_past_act]
    change (σ.past b).count v + _ ≤ 1
    split
    · rename_i hb
      have hzero := List.count_eq_zero_of_not_mem (htook hb.2)
      rw [← hb.1] at hzero
      omega
    · exact w.once b
  · by_cases hcr : c = r
    · rw [hcr]
      exact w.share_marker h hl hr hne hn hroom m
    · refine (w.share c hcn hcA).transfer rfl ?_ ?_ ?_ fun hd =>
        hd.receive_marker hmail hn fun he => absurd he hne
      · exact (heard_consume_marker i hn c).trans (if_neg hcr)
      · exact mem_past_act.trans (or_iff_right fun hx => hcr hx.1)
      · rw [agent_act_ne _ hcr]
        exact .refl _ v
  · rw [agent_act_ne _ (Ne.symm hne)]
    refine w.counting.trans (congrArg (fun bs : List String => bs.length + 1) ?_)
    exact ((heard_consume_marker i hn v.initiator).trans (if_neg (Ne.symm hne))).symm
  · rw [agent_act_ne _ (Ne.symm hne)]
    exact w.recording

/-- A version that has just been started is known to its initiator only. -/
theorem Wave.start (h : Ledger σ) {module : String} {x : Float}
    (hv : v = (σ.agent v.initiator).nextVersion) :
    (σ.step (.request v.initiator module x)).Wave v := by
  have hfresh : ∀ c, v ∉ σ.past c := fun c => hv ▸ h.nextVersion_fresh v.initiator c
  have hquiet : ∀ c, σ.heard c v = [] := fun c =>
    List.eq_nil_iff_forall_not_mem.mpr fun s hs => hfresh s (h.heard c v s hs).2.1
  have d := (σ.agent v.initiator).request_starts x module
  have hstep : σ.step (.request v.initiator module x) = σ.act v.initiator
      ((some (σ.agent v.initiator).nextVersion).map (·, x)) ((σ.agent v.initiator).request x module).1
      ((σ.agent v.initiator).request x module).2 := rfl
  have hcount := d.markerCount
  have hrec := d.recording
  rw [← hv] at hcount hrec
  rw [hstep, ← hv]
  refine ⟨fun b => ?_, fun c hc hne => ?_, ?_, fun hN => ?_⟩
  · rw [count_past_act, List.count_eq_zero_of_not_mem (hfresh b)]
    split <;> omega
  · have hp : v ∉ (σ.act v.initiator ((some v).map (·, x))
        ((σ.agent v.initiator).request x module).1
        ((σ.agent v.initiator).request x module).2).past c := fun hp =>
      (mem_past_act.mp hp).elim (fun hx => hne hx.1) (hfresh c)
    refine ⟨fun _ => hquiet c, fun ht => ?_, fun hp' => absurd hp' hp⟩
    rw [agent_act_ne _ hne] at ht
    exact absurd (h.tracked c v ht) (hfresh c)
  · rw [agent_act_self, hcount]
    exact congrArg (fun bs : List String => bs.length + 1) (hquiet v.initiator).symm
  · rw [agent_act_self, hcount, hrec]
    exact iff_of_true (List.mem_singleton.mpr rfl) hN

theorem Wave.step (w : σ.Leads v → σ.Wave v) (h : Ledger σ) (hc : σ.Conserved) {e : Event}
    (he : σ.Enabled e) (hrule : Loyal v σ e) (hl : (σ.step e).Leads v) : (σ.step e).Wave v := by
  cases e with
  | request b module x =>
    have d := (σ.agent b).request_starts x module
    have t := (h.sound b).request_turn x module
    by_cases hb : b = v.initiator
    · subst hb
      refine Wave.start h (hl.2.symm.trans ?_)
      exact (congrArg Agent.current (agent_act_self σ _ _ _ _)).trans d.current
    · have hl' : σ.Leads v := (Leads.of_act (x := x) h t hl).resolve_right fun hx => hb hx.1
      have hne : v ≠ (σ.agent b).nextVersion := by
        rintro rfl
        exact hb (h.uuid b).symm
      have sp := d.spares (h.sound b) (hrule hb) hne
      exact (w hl').act (fun hx => hne (Option.some.inj hx).symm) sp _ x
  | timer b status =>
    have m := (σ.agent b).onTimer_expiring status
    have t := (h.sound b).expiring_turn m
    have hl' : σ.Leads v := (Leads.of_act (x := 0) h t hl).resolve_right fun hx => nomatch hx.2.1
    have sp : Spares (σ.agent b) ((σ.agent b).onTimer status).2.1 v := by
      refine m.spares hl.1 fun ha hcur => ?_
      have hb : b = v.initiator := by
        rw [← hcur, ((σ.agent b).awaiting_iff.mp ha).2, h.uuid]
      subst hb
      exact (congrArg Agent.current (agent_act_self σ _ _ _ _)).symm.trans hl.2
    have hnone : (none : Option Version) ≠ some v := nofun
    exact (w hl').act hnone sp _ 0
  | payload s r value tag => exact (w hl).payload s r value tag
  | receive s r i x =>
    obtain ⟨hs, hr, hi⟩ := he
    have hmail := List.getElem?_eq_getElem hi
    obtain ⟨took, next, effects, m, hstep⟩ := h.receive hr hmail x
    rw [hstep] at hl ⊢
    have hmem := List.mem_of_getElem? hmail
    have t := (h.sound r).handling_turn m
    have hl' : σ.Leads v := by
      refine (Leads.of_act (h.consume hmem) t hl).resolve_right fun hx => ?_
      exact h.nextVersion_fresh r s (hx.2.2 ▸ (h.took_issued hmem m hx.2.1).2)
    by_cases hn : (σ.channel s r)[i].notice? = some (.marker v)
    · rw [hn] at m
      cases m with
      | marker hv m =>
        by_cases hrA : r = v.initiator
        · subst hrA
          exact (w hl').receive_own h hc hl' hmail hn m
        · exact (w hl').receive_marker h hc hl' hmail hr hrA hn m
    · exact (w hl').receive_other h hl' hmail hn m

theorem Wave.after (h : σ.Reachable) (w : σ.Leads v → σ.Wave v) {es : List Event}
    (hf : σ.Follows (Loyal v) es) (hl : (σ.after es).Leads v) : (σ.after es).Wave v := by
  have hinv := hf.invariant (fun τ => Ledger τ ∧ τ.Conserved ∧ (τ.Leads v → τ.Wave v))
    (fun τ e hi he hr => ⟨hi.1.step he, hi.2.1.step hi.1 he, Wave.step hi.2.2 hi.1 hi.2.1 he hr⟩)
    ⟨h.ledger, h.conserved, w⟩
  exact hinv.2.2 hl

end Mesh

end PhasedGrid.Snapshot
