import PhasedGrid.Proofs.Mesh.Completeness
import PhasedGrid.Proofs.Mesh.Provenance

/-!
Rounds of snapshots. From a state with nothing in progress, any nodes start a snapshot each, and
everything is delivered in any order among any other traffic; then every initiator has all markers
and one reading of each node, and when the timers have ended nothing is in progress again.
-/

namespace PhasedGrid.Snapshot

set_option autoImplicit false

open PhasedGrid.Schedule (TimerStatus)
open Agent (Turn Handling)

namespace Mesh

/-- A node with no snapshot in progress. -/
def Quiet (a : Agent) : Prop := a.current = .sentinel ∧ a.markers = []

instance : DecidablePred Quiet := fun a =>
  inferInstanceAs (Decidable (a.current = .sentinel ∧ a.markers = []))

def Idle (σ : Mesh) : Prop := (∀ b ∈ σ.nodes, Quiet (σ.agent b)) ∧ σ.Drained

instance : DecidablePred Idle := fun σ =>
  inferInstanceAs (Decidable ((∀ b ∈ σ.nodes, Quiet (σ.agent b)) ∧ σ.Drained))

/-- The first half of a round: a node starts a snapshot only while it tracks nothing, and no timer
ends. -/
def Asking (σ : Mesh) : Event → Prop
  | .request b _ _ => (σ.agent b).markers = []
  | .timer _ _ => False
  | _ => True

instance (σ : Mesh) : DecidablePred (Asking σ)
  | .request b _ _ => inferInstanceAs (Decidable ((σ.agent b).markers = []))
  | .timer _ _ => isFalse id
  | .payload _ _ _ _ => isTrue trivial
  | .receive _ _ _ _ => isTrue trivial

/-- The second half of a round: no snapshot is started. -/
def Closing (_ : Mesh) : Event → Prop
  | .request _ _ _ => False
  | _ => True

instance (σ : Mesh) : DecidablePred (Closing σ)
  | .request _ _ _ => isFalse id
  | .timer _ _ => isTrue trivial
  | .payload _ _ _ _ => isTrue trivial
  | .receive _ _ _ _ => isTrue trivial

def Asks (es : List Event) (b : String) : Prop := ∃ module x, .request b module x ∈ es

variable {σ τ : Mesh} {v : Version}

theorem not_tracks_of_markers {a : Agent} (h : a.markers = []) (v : Version) :
    a.tracks v = false := by
  rw [Agent.tracks, h]
  rfl

theorem markers_of_not_tracks {a : Agent} (h : ∀ v, a.tracks v = false) : a.markers = [] :=
  (Table.eq_nil_iff _).mpr h

/-- While a node asks only with nothing tracked, it never leaves a version of its own. -/
theorem Asking.current_eq (h : Ledger σ) {e : Event} (he : σ.Enabled e) (ha : σ.Asking e)
    {b : String} (hb : (σ.agent b).awaiting) : ((σ.step e).agent b).current = (σ.agent b).current := by
  cases e with
  | request c module x =>
    by_cases hcb : b = c
    · have ht := (h.sound b).awaiting_tracks hb
      rw [hcb, not_tracks_of_markers ha] at ht
      cases ht
    · exact congrArg Agent.current (agent_act_ne σ hcb _ _ _)
  | timer c status => exact ha.elim
  | payload s r value tag => rfl
  | receive s r i x =>
    obtain ⟨took, next, effects, m, hstep⟩ := h.receive he.2.1 (List.getElem?_eq_getElem he.2.2) x
    rw [hstep]
    by_cases hbr : b = r
    · subst hbr
      rw [agent_act_self]
      exact m.current_eq hb
    · rw [agent_act_ne _ hbr]
      rfl

theorem Asking.orderly (h : Ledger σ) {e : Event} (he : σ.Enabled e) (ha : σ.Asking e) :
    σ.Orderly e := fun _ _ hb hne => absurd (ha.current_eq h he hb) hne

theorem Asking.loyal {e : Event} (ha : σ.Asking e) (v : Version) : Loyal v σ e := by
  cases e with
  | request b module x => exact fun _ => not_tracks_of_markers ha v
  | timer b status => trivial
  | payload s r value tag => trivial
  | receive s r i x => trivial

/-- What holds while a round is under way. -/
structure Course (σ : Mesh) : Prop where
  ledger : Ledger σ
  conserved : σ.Conserved
  live : Live σ
  waves : ∀ v, σ.Leads v → σ.Wave v

theorem Course.step (h : Course σ) {e : Event} (he : σ.Enabled e) (ha : σ.Asking e) :
    Course (σ.step e) where
  ledger := h.ledger.step he
  conserved := h.conserved.step h.ledger he
  live := h.live.step h.ledger he (ha.orderly h.ledger he)
  waves v hl := Wave.step (h.waves v) h.ledger h.conserved he (ha.loyal v) hl

theorem Course.after (h : Course σ) {es : List Event} (hf : σ.Follows Asking es) :
    Course (σ.after es) := hf.invariant Course (fun _ _ hi he ha => hi.step he ha) h

theorem Course.of_idle (hr : σ.Reachable) (hi : σ.Idle) : Course σ := by
  have ht : ∀ v, ∀ c ∈ σ.nodes, (σ.agent c).tracks v = false := fun v c hc =>
    not_tracks_of_markers (hi.1 c hc).2 v
  refine ⟨hr.ledger, hr.conserved, .of_idle hr.ledger ht hi.2, fun v hl => ?_⟩
  have hv := hl.tracks hr.ledger
  rw [ht v _ (hl.mem_nodes hr.ledger)] at hv
  cases hv

/-- Without a request of its own, a node starts no version. -/
theorem Asking.not_started (h : Ledger σ) {e : Event} (he : σ.Enabled e) (ha : σ.Asking e)
    {b : String} (hne : ∀ module x, e ≠ .request b module x) :
    ((σ.step e).agent b).nextVersion = (σ.agent b).nextVersion ∧
      (((σ.step e).agent b).awaiting → (σ.agent b).awaiting) := by
  cases e with
  | request c module x =>
    have hcb : b ≠ c := fun hbc => hne module x (hbc ▸ rfl)
    have hagent : (σ.step (.request c module x)).agent b = σ.agent b := agent_act_ne σ hcb _ _ _
    rw [hagent]
    exact ⟨rfl, id⟩
  | timer c status => exact ha.elim
  | payload s r value tag => exact ⟨rfl, id⟩
  | receive s r i x =>
    have hl := List.getElem?_eq_getElem he.2.2
    obtain ⟨took, next, effects, m, hstep⟩ := h.receive he.2.1 hl x
    rw [hstep]
    by_cases hbr : b = r
    · subst hbr
      have t := (h.sound b).handling_turn m
      rw [agent_act_self]
      rcases t.started with ⟨ht, -, -⟩ | ⟨hs, -, hcur⟩
      · exact absurd (h.took_issued (List.mem_of_getElem? hl) m ht).2 (h.nextVersion_fresh b s)
      · refine ⟨?_, fun hn => ?_⟩
        · rw [Agent.nextVersion, t.uuid, hs, Agent.nextVersion]
        · rw [Agent.awaiting_iff, ← hcur hn, ← t.uuid]
          exact next.awaiting_iff.mp hn
    · rw [agent_act_ne _ hbr]
      exact ⟨rfl, id⟩

theorem Asking.current_after (h : Ledger σ) {es : List Event} (hf : σ.Follows Asking es)
    {b : String} (hb : (σ.agent b).awaiting) :
    ((σ.after es).agent b).current = (σ.agent b).current := by
  induction es generalizing σ with
  | nil => rfl
  | cons e es ih =>
    have hcur := hf.2.1.current_eq h hf.1 hb
    have hl := h.step hf.1
    refine (ih hl hf.2.2 ?_).trans hcur
    rw [Agent.awaiting_iff, hcur, hl.uuid]
    have ha := (σ.agent b).awaiting_iff.mp hb
    rwa [h.uuid] at ha

/-- A node that asks waits for the version that it started, a node that does not ask for none. -/
theorem Asking.started (h : Ledger σ) {es : List Event} (hf : σ.Follows Asking es) (b : String) :
    (Asks es b → ((σ.after es).agent b).current = (σ.agent b).nextVersion) ∧
      (¬ Asks es b → ¬ (σ.agent b).awaiting → ¬ ((σ.after es).agent b).awaiting) := by
  induction es generalizing σ with
  | nil =>
    refine ⟨?_, fun _ => id⟩
    rintro ⟨_, _, hm⟩
    cases hm
  | cons e es ih =>
    have hl := h.step hf.1
    by_cases hreq : ∃ module x, e = .request b module x
    · obtain ⟨module, x, rfl⟩ := hreq
      refine ⟨fun _ => ?_, fun hno => absurd ⟨module, x, List.mem_cons_self⟩ hno⟩
      have hagent : (σ.step (.request b module x)).agent b = ((σ.agent b).request x module).1 :=
        agent_act_self σ b _ _ _
      have hcur : ((σ.step (.request b module x)).agent b).current = (σ.agent b).nextVersion := by
        rw [hagent]
        exact ((σ.agent b).request_starts x module).current
      have hb := Agent.awaiting_of_nextVersion ((hl.uuid b).trans (h.uuid b).symm) hcur
      exact (Asking.current_after hl hf.2.2 hb).trans hcur
    · have hne : ∀ module x, e ≠ .request b module x := fun module x he => hreq ⟨module, x, he⟩
      obtain ⟨hnext, hwait⟩ := hf.2.1.not_started h hf.1 hne
      obtain ⟨hasks, hnot⟩ := ih hl hf.2.2
      refine ⟨?_, fun hno hb => hnot ?_ fun hb' => hb (hwait hb')⟩
      · rintro ⟨module, x, hm⟩
        rcases List.mem_cons.mp hm with he | hm
        · exact absurd he.symm (hne module x)
        · exact (hasks ⟨module, x, hm⟩).trans hnext
      · rintro ⟨module, x, hm⟩
        exact hno ⟨module, x, List.mem_cons_of_mem e hm⟩

section Drained

variable (h : Course σ) (hd : σ.Drained)
include h hd

/-- With nothing under way, whoever recorded `v` was heard of by all others. -/
theorem Course.heard_of_drained {s r : String} (hs : s ∈ σ.nodes) (hr : r ∈ σ.nodes) (hne : s ≠ r)
    (hv : v ∈ σ.past s) : s ∈ σ.heard r v := by
  have hsum := h.conserved v s hs r hr hne
  rw [hd.underway_eq_zero hs hr, Nat.zero_add] at hsum
  rw [← List.count_pos_iff, hsum]
  exact List.count_pos_iff.mpr hv

theorem Course.recorded_by_all (hl : σ.Leads v) : ∀ p ∈ σ.nodes, v ∈ σ.past p := by
  intro p hp
  by_cases hpA : p = v.initiator
  · rw [hpA]
    exact hl.recorded h.ledger
  · by_contra hv
    have hheard := h.heard_of_drained hd (hl.mem_nodes h.ledger) hp (Ne.symm hpA)
      (hl.recorded h.ledger)
    rw [((h.waves v hl).share p hp hpA).unheard hv] at hheard
    cases hheard

theorem Course.markerCount_eq (hl : σ.Leads v) :
    (σ.agent v.initiator).markerCount v = σ.nodes.length := by
  have hsub : σ.nodes ⊆ v.initiator :: σ.heard v.initiator v := by
    intro p hp
    by_cases hpA : p = v.initiator
    · exact hpA ▸ List.mem_cons_self
    · exact List.mem_cons_of_mem _ (h.heard_of_drained hd hp (hl.mem_nodes h.ledger) hpA
        (h.recorded_by_all hd hl p hp))
  have hlen := List.Nodup.length_le_of_subset h.ledger.nodup hsub
  have hle := ((h.ledger.sound v.initiator).count v (hl.tracks h.ledger)).2
  rw [h.ledger.own_peer (hl.mem_nodes h.ledger)] at hle
  rw [List.length_cons, ← (h.waves v hl).counting] at hlen
  omega

theorem Course.not_tracks (hl : σ.Leads v) {p : String} (hp : p ∈ σ.nodes)
    (hne : p ≠ v.initiator) : (σ.agent p).tracks v = false := by
  rw [← Bool.not_eq_true]
  intro ht
  obtain ⟨s, hs, hu⟩ := (h.waves v hl).marker_to_come h.ledger h.conserved
    (h.recorded_by_all hd hl) hp hne ht
  rw [hd.underway_eq_zero hs hp] at hu
  cases hu

theorem Course.one_reading (hl : σ.Leads v) {p : String} (hp : p ∈ σ.nodes) :
    ((σ.agent v.initiator).fragments v).countP (Fragment.reads p fun _ => true) = 1 := by
  have hle := Nat.le_trans (h.live.held_le_count h.ledger v p) ((h.waves v hl).once p)
  have hmarkers := Nat.le_of_eq (h.markerCount_eq hd hl).symm
  obtain ⟨x, hx⟩ : ∃ x, .gateway p x ∈ (σ.agent v.initiator).fragments v := by
    rcases (h.waves v hl).readings h.ledger h.conserved hl hmarkers p hp with hdel | ⟨-, s, hs, hu⟩
    · exact hdel.of_drained hd hp (hl.mem_nodes h.ledger)
    · rw [hd.underway_eq_zero hs hp] at hu
      cases hu
  have hpos : 0 < ((σ.agent v.initiator).fragments v).countP (Fragment.reads p fun _ => true) :=
    List.countP_pos_iff.mpr ⟨_, hx, by simp [Fragment.reads]⟩
  unfold Agent.held at hle
  omega

theorem Course.tracks_iff {b : String} (hb : b ∈ σ.nodes) (v : Version) :
    (σ.agent b).tracks v ↔ (σ.agent b).awaiting ∧ v = (σ.agent b).current := by
  constructor
  · intro ht
    have hl := h.live.tracked v b hb ht
    by_cases hvb : v.initiator = b
    · refine ⟨?_, (h.ledger.sound b).own v ht (hvb.trans (h.ledger.uuid b).symm)⟩
      rw [← hvb]
      exact hl.awaiting h.ledger
    · rw [h.not_tracks hd hl hb (Ne.symm hvb)] at ht
      cases ht
  · rintro ⟨ha, rfl⟩
    exact (h.ledger.sound b).awaiting_tracks ha

theorem Course.quiet {b : String} (hb : b ∈ σ.nodes) (hn : ¬ (σ.agent b).awaiting) :
    Quiet (σ.agent b) := by
  have hnone : ∀ v, (σ.agent b).tracks v = false := fun v => by
    rw [← Bool.not_eq_true, h.tracks_iff hd hb]
    exact fun ha => hn ha.1
  refine ⟨?_, markers_of_not_tracks hnone⟩
  refine (h.ledger.sound b).current_tracked.resolve_right fun ht => ?_
  rw [hnone] at ht
  cases ht

end Drained

/-- What the initiator of `v` has at the end of a round. -/
structure Gathered (σ : Mesh) (b : String) (v : Version) : Prop where
  current : (σ.agent b).current = v
  markerCount : (σ.agent b).markerCount v = σ.nodes.length
  recording : (σ.agent b).isRecording v = false
  readings : ∀ p, ((σ.agent b).fragments v).countP (Fragment.reads p fun _ => true) =
    if p ∈ σ.nodes then 1 else 0
  tracks : ∀ w, (σ.agent b).tracks w ↔ w = v
  report : ((σ.agent b).onTimer .expired).1 = some (.complete (σ.agent b).answer)

/-- A node that is about to report its snapshot as complete and has nothing else in progress. -/
def Ready (a : Agent) : Prop :=
  a.awaiting ∧ a.peers.size ≤ a.markerCount a.current ∧ ∀ w, a.tracks w → w = a.current

theorem Course.ready (h : Course σ) (hd : σ.Drained) {b : String} (hb : b ∈ σ.nodes)
    (ha : (σ.agent b).awaiting) : Ready (σ.agent b) := by
  have hown := ((σ.agent b).awaiting_iff.mp ha).2
  rw [h.ledger.uuid] at hown
  have hl : σ.Leads (σ.agent b).current := ⟨((σ.agent b).awaiting_iff.mp ha).1, by rw [hown]⟩
  have hcount := h.markerCount_eq hd hl
  rw [hown, ← h.ledger.own_peer hb] at hcount
  exact ⟨ha, Nat.le_of_eq hcount.symm, fun w hw => ((h.tracks_iff hd hb w).mp hw).2⟩

theorem Course.gathered (h : Course σ) (hd : σ.Drained) (hN : 2 ≤ σ.nodes.length) {b : String}
    (hb : b ∈ σ.nodes) (ha : (σ.agent b).awaiting) : Gathered σ b (σ.agent b).current := by
  have hown := ((σ.agent b).awaiting_iff.mp ha).2
  rw [h.ledger.uuid] at hown
  have hl : σ.Leads (σ.agent b).current := ⟨((σ.agent b).awaiting_iff.mp ha).1, by rw [hown]⟩
  have hcount := h.markerCount_eq hd hl
  have hrec := (h.waves _ hl).recording hN
  rw [hown] at hcount hrec
  refine ⟨rfl, hcount, ?_, fun p => ?_, fun w => ?_, (Agent.onTimer_complete ha ?_).1⟩
  · rw [Agent.isRecording, List.contains_eq_mem, decide_eq_false_iff_not, hrec, hcount]
    exact Nat.lt_irrefl _
  · by_cases hp : p ∈ σ.nodes
    · have hone := h.one_reading hd hl hp
      rw [hown] at hone
      rw [if_pos hp, hone]
    · have hle := h.live.held_le_count h.ledger (σ.agent b).current p
      have hnone : (σ.agent b).current ∉ σ.past p := fun hv => hp (h.ledger.recorder p _ hv)
      rw [hown, List.count_eq_zero_of_not_mem hnone] at hle
      rw [if_neg hp]
      exact Nat.le_zero.mp hle
  · rw [h.tracks_iff hd hb]
    exact ⟨fun hw => hw.2, fun hw => ⟨ha, hw⟩⟩
  · exact Nat.le_of_eq ((h.ledger.own_peer hb).trans hcount.symm)

/-- What holds once a round's snapshots are full: only payloads and answers are under way. -/
structure Settled (σ : Mesh) : Prop where
  ledger : Ledger σ
  settled : ∀ b ∈ σ.nodes, Quiet (σ.agent b) ∨ Ready (σ.agent b)
  mail : ∀ s, ∀ r ∈ σ.nodes, ∀ l ∈ σ.channel s r, ∀ n, l.notice? = some n →
    ∃ value sender tag, n = .payload value sender tag

theorem quiet_of_expiring {a next : Agent} {outcome : Option Outcome} {effects : List Effect}
    (m : Agent.Expiring a outcome next effects) (hq : Quiet a) : Quiet next := by
  have hno : ¬ a.awaiting := fun ha => (a.awaiting_iff.mp ha).1 hq.1
  cases m with
  | idle => exact hq
  | complete ha _ _ => exact absurd ha hno
  | extended ha _ => exact absurd ha hno
  | incomplete ha _ => exact absurd ha hno

theorem quiet_of_ready {a : Agent} (h : Ready a) : Quiet (a.abandon a.current) := by
  have d := a.abandon_drops a.current
  refine ⟨d.current.trans (if_pos (List.mem_singleton.mpr rfl)), markers_of_not_tracks fun w => ?_⟩
  rw [d.tracks_eq]
  by_cases hw : w = a.current
  · simp [hw]
  · have ht : a.tracks w = false := by
      rw [← Bool.not_eq_true]
      exact fun ht => hw (h.2.2 w ht)
    rw [ht, Bool.and_false]

/-- A timer leaves a node that is about to report as it is, or with nothing in progress. -/
theorem ready_of_expiring {a next : Agent} {outcome : Option Outcome} {effects : List Effect}
    (m : Agent.Expiring a outcome next effects) (h : Ready a) : Quiet next ∨ Ready next := by
  cases m with
  | idle => exact Or.inr h
  | complete _ _ _ => exact Or.inl (quiet_of_ready h)
  | extended _ hn => exact absurd h.2.1 (Nat.not_le.mpr hn)
  | incomplete _ hn => exact absurd h.2.1 (Nat.not_le.mpr hn)

theorem quiet_of_handling {a next : Agent} {x : Float} {notice : Option Notice}
    {took : Option Version} {effects : List Effect} (m : Handling a x notice took next effects)
    (hn : ∀ n, notice = some n → ∃ value sender tag, n = .payload value sender tag) :
    effects = [] ∧ (Quiet a → Quiet next) ∧ (Ready a → Ready next) := by
  cases m with
  | ignored => exact ⟨rfl, id, id⟩
  | payload value sender tag =>
    rw [Agent.onPayload_eq, Agent.foldl_file_eq]
    exact ⟨rfl, id, id⟩
  | state f =>
    obtain ⟨_, _, _, hf⟩ := hn _ rfl
    cases hf
  | marker hs m =>
    obtain ⟨_, _, _, hf⟩ := hn _ rfl
    cases hf

theorem Settled.timer (h : Settled σ) {c : String} (hc : c ∈ σ.nodes) (status : TimerStatus) :
    Settled (σ.step (.timer c status)) ∧ ∀ b ∈ σ.nodes,
      Quiet (σ.agent b) ∨ Event.timer c status = .timer b .expired →
        Quiet ((σ.step (.timer c status)).agent b) := by
  have m := (σ.agent c).onTimer_expiring status
  have hself : (σ.step (.timer c status)).agent c = ((σ.agent c).onTimer status).2.1 :=
    agent_act_self σ c _ _ _
  have hother : ∀ b, b ≠ c → (σ.step (.timer c status)).agent b = σ.agent b := fun b hb =>
    agent_act_ne σ hb _ _ _
  have he : σ.Enabled (.timer c status) := hc
  refine ⟨⟨h.ledger.step he, fun b hb => ?_, fun s r hr l hl n hn => ?_⟩, fun b hb hq => ?_⟩
  · by_cases hbc : b = c
    · rw [hbc, hself]
      rcases h.settled c hc with hq | hready
      · exact Or.inl (quiet_of_expiring m hq)
      · exact ready_of_expiring m hready
    · rw [hother b hbc]
      exact h.settled b hb
  · change l ∈ (σ.act c none _ _).channel s r at hl
    rw [channel_act, List.mem_append] at hl
    rcases hl with hl | hl
    · exact h.mail s r hr l hl n hn
    · split at hl
      · refine notice_expiring m (σ.past c) r ?_ hn
        rw [h.ledger.uuid c]
        exact hl
      · cases hl
  · by_cases hbc : b = c
    · subst hbc
      rw [hself]
      rcases h.settled b hb with hq' | hready
      · exact quiet_of_expiring m hq'
      · rcases hq with hq | hexp
        · exact quiet_of_expiring m hq
        · rw [(Event.timer.inj hexp).2, (Agent.onTimer_complete hready.1 hready.2.1).2]
          exact quiet_of_ready hready
    · rw [hother b hbc]
      exact hq.resolve_right fun hexp => hbc (Event.timer.inj hexp).1.symm

theorem Settled.receive (h : Settled σ) {s r : String} {i : Nat} {x : Float}
    (he : σ.Enabled (.receive s r i x)) :
    Settled (σ.step (.receive s r i x)) ∧ ∀ b ∈ σ.nodes, Quiet (σ.agent b) →
      Quiet ((σ.step (.receive s r i x)).agent b) := by
  have hr := he.2.1
  have hl := List.getElem?_eq_getElem he.2.2
  obtain ⟨took, next, effects, m, hstep⟩ := h.ledger.receive hr hl x
  obtain ⟨rfl, hquiet, hready⟩ :=
    quiet_of_handling m (h.mail s r hr _ (List.mem_of_getElem? hl))
  have hself : (σ.step (.receive s r i x)).agent r = next := by rw [hstep, agent_act_self]
  have hother : ∀ b, b ≠ r → (σ.step (.receive s r i x)).agent b = σ.agent b := fun b hb => by
    rw [hstep, agent_act_ne _ hb]
    rfl
  refine ⟨⟨h.ledger.step he, fun b hb => ?_, fun s' r' hr' l' hl' n hn => ?_⟩, fun b hb hq => ?_⟩
  · by_cases hbr : b = r
    · rw [hbr, hself]
      exact (h.settled r hr).imp hquiet hready
    · rw [hother b hbr]
      exact h.settled b (nodes_step σ _ ▸ hb)
  · rw [hstep, channel_act, List.mem_append] at hl'
    rcases hl' with hl' | hl'
    · exact h.mail s' r' (nodes_step σ _ ▸ hr') l' (mem_channel_consume hl') n hn
    · split at hl' <;> cases hl'
  · by_cases hbr : b = r
    · rw [hbr, hself]
      exact hquiet (hbr ▸ hq)
    · rw [hother b hbr]
      exact hq

theorem Settled.step (h : Settled σ) {e : Event} (he : σ.Enabled e) (hc : σ.Closing e) :
    Settled (σ.step e) ∧ ∀ b ∈ σ.nodes, Quiet (σ.agent b) ∨ e = .timer b .expired →
      Quiet ((σ.step e).agent b) := by
  cases e with
  | request b module x => exact hc.elim
  | timer c status => exact h.timer he status
  | payload s r value tag =>
    refine ⟨⟨h.ledger.step he, h.settled, fun s' r' hr l hl n hn => ?_⟩, fun b _ hq =>
      hq.resolve_right nofun⟩
    rcases mem_channel_payload hl with hl | ⟨-, -, rfl⟩
    · exact h.mail s' r' hr l hl n hn
    · rw [Letter.notice?_payload s he.2.2.1 he.2.2.2] at hn
      exact ⟨value, s, tag, (Option.some.inj hn).symm⟩
  | receive s r i x =>
    obtain ⟨hnext, hquiet⟩ := h.receive he
    exact ⟨hnext, fun b hb hq => hquiet b hb (hq.resolve_right nofun)⟩

/-- After the second half of a round, a node is quiet whose timer has ended, or that was before. -/
theorem Settled.after (h : Settled σ) {es : List Event} (hf : σ.Follows Closing es) :
    Settled (σ.after es) ∧ ∀ b ∈ σ.nodes, Quiet (σ.agent b) ∨ .timer b .expired ∈ es →
      Quiet ((σ.after es).agent b) := by
  induction es generalizing σ with
  | nil => exact ⟨h, fun b _ hq => hq.resolve_right List.not_mem_nil⟩
  | cons e es ih =>
    obtain ⟨hnext, hquiet⟩ := h.step hf.1 hf.2.1
    obtain ⟨hlast, hrest⟩ := ih hnext hf.2.2
    refine ⟨hlast, fun b hb hq => hrest b (nodes_step σ e ▸ hb) ?_⟩
    rcases hq with hq | hm
    · exact Or.inl (hquiet b hb (Or.inl hq))
    · rcases List.mem_cons.mp hm with he | hm
      · exact Or.inl (hquiet b hb (Or.inr he.symm))
      · exact Or.inr hm

theorem Course.settled (h : Course σ) (hd : σ.Drained) : Settled σ := by
  refine ⟨h.ledger, fun b hb => ?_, fun s r hr l hl => ?_⟩
  · by_cases ha : (σ.agent b).awaiting
    · exact Or.inr (h.ready hd hb ha)
    · exact Or.inl (h.quiet hd hb ha)
  · rw [hd s (h.ledger.posted s r l hl).sender r hr] at hl
    cases hl

/-- Any number of rounds, one after the other: some nodes ask and everything is delivered, then the
timers of those nodes end and everything is delivered. -/
inductive Rounds (σ : Mesh) : Mesh → Prop where
  | refl : Rounds σ σ
  | round {τ : Mesh} {es fs : List Event} : Rounds σ τ → τ.Follows Asking es →
      (τ.after es).Drained → (τ.after es).Follows Closing fs →
      (∀ b, Asks es b → .timer b .expired ∈ fs) → ((τ.after es).after fs).Drained →
      Rounds σ ((τ.after es).after fs)

theorem Rounds.nodes_eq (h : Rounds σ τ) : τ.nodes = σ.nodes := by
  induction h with
  | refl => rfl
  | round _ _ _ _ _ _ ih => rw [nodes_after, nodes_after, ih]

theorem Rounds.idle (h : Rounds σ τ) (hr : σ.Reachable) (hi : σ.Idle) : τ.Reachable ∧ τ.Idle := by
  induction h with
  | refl => exact ⟨hr, hi⟩
  | @round τ es fs _ hask hdrained hclose htimers hend ih =>
    obtain ⟨hrτ, hiτ⟩ := ih
    have hcourse := (Course.of_idle hrτ hiτ).after hask
    refine ⟨(hrτ.step hask).step hclose, fun b hb => ?_, hend⟩
    rw [nodes_after] at hb
    refine ((hcourse.settled hdrained).after hclose).2 b hb ?_
    by_cases hb' : Asks es b
    · exact Or.inr (htimers b hb')
    · refine Or.inl (hcourse.quiet hdrained hb ?_)
      have hno : ¬ (τ.agent b).awaiting := fun ha =>
        ((τ.agent b).awaiting_iff.mp ha).1 (hiτ.1 b (nodes_after τ es ▸ hb)).1
      exact (Asking.started hrτ.ledger hask b).2 hb' hno

/-- From any idle state that a mesh reaches, after any number of rounds, the mesh is idle again; and
whichever nodes ask next, in whatever order letters are delivered, every node that asked has all
markers and one reading of each node, and every other one has nothing in progress. -/
theorem rounds_gathered (hr : σ.Reachable) (hi : σ.Idle) (hN : 2 ≤ σ.nodes.length)
    (h : Rounds σ τ) : τ.Idle ∧ ∀ es, τ.Follows Asking es → (τ.after es).Drained →
      ∀ b ∈ τ.nodes, (Asks es b → Gathered (τ.after es) b (τ.agent b).nextVersion) ∧
        (¬ Asks es b → Quiet ((τ.after es).agent b)) := by
  obtain ⟨hrτ, hiτ⟩ := h.idle hr hi
  refine ⟨hiτ, fun es hask hdrained b hb => ?_⟩
  have hcourse := (Course.of_idle hrτ hiτ).after hask
  have hb' : b ∈ (τ.after es).nodes := nodes_after τ es ▸ hb
  have hlen : 2 ≤ (τ.after es).nodes.length := by
    rw [nodes_after, h.nodes_eq]
    exact hN
  obtain ⟨hasks, hnot⟩ := Asking.started hrτ.ledger hask b
  refine ⟨fun ha => ?_, fun hno => ?_⟩
  · have hcur := hasks ha
    have hu := (hcourse.ledger.uuid b).trans (hrτ.ledger.uuid b).symm
    rw [← hcur]
    exact hcourse.gathered hdrained hlen hb' (Agent.awaiting_of_nextVersion hu hcur)
  · refine hcourse.quiet hdrained hb' (hnot hno fun ha => ?_)
    exact ((τ.agent b).awaiting_iff.mp ha).1 (hiτ.1 b hb).1

/-- Two of three nodes ask at once, with a payload under way. -/
def duet : List Event :=
  [.request "a" "gm" 1, .payload "b" "c" "note" none, .request "c" "lb" 3, .receive "c" "a" 0 1,
    .receive "a" "b" 0 2, .receive "b" "a" 0 1, .receive "a" "b" 0 2, .receive "b" "a" 0 1,
    .receive "c" "b" 0 2, .receive "a" "c" 0 3, .receive "c" "a" 0 1, .receive "c" "b" 0 2,
    .receive "b" "a" 0 1, .receive "a" "c" 0 3, .receive "a" "c" 0 3, .receive "b" "c" 0 3,
    .receive "b" "c" 0 3, .receive "c" "a" 0 1, .receive "c" "a" 0 1, .receive "b" "c" 0 3,
    .receive "b" "c" 0 3]

def solo : List Event :=
  [.request "b" "gm" 2, .receive "b" "a" 0 1, .receive "a" "b" 0 2, .receive "a" "c" 0 3,
    .receive "c" "a" 0 1, .receive "a" "b" 0 2, .receive "c" "b" 0 2, .receive "b" "c" 0 3,
    .receive "c" "b" 0 2]

def rested : Mesh := (three.after duet).after [.timer "a" .expired, .timer "c" .expired]

set_option maxRecDepth 4000 in
/-- A second round, put to the general statement. -/
theorem solo_gathered : Gathered (rested.after solo) "b" (rested.agent "b").nextVersion ∧
    Quiet ((rested.after solo).agent "a") := by
  have hn : ["a", "b", "c"].Nodup := by decide
  have hr : three.Reachable := .initial hn _
  have hi : three.Idle := by decide
  have hround : Rounds three rested := by
    refine .round .refl (by decide +kernel) (by decide +kernel) (by decide +kernel) ?_
      (by decide +kernel)
    rintro b ⟨module, x, hm⟩
    simp only [duet, List.mem_cons, Event.request.injEq, reduceCtorEq, List.not_mem_nil,
      false_or, or_false] at hm
    rcases hm with ⟨rfl, -⟩ | ⟨rfl, -⟩
    · exact List.mem_cons_self
    · exact List.mem_cons_of_mem _ List.mem_cons_self
  have hall := (rounds_gathered hr hi (by decide) hround).2 solo (by decide +kernel)
    (by decide +kernel)
  refine ⟨(hall "b" (by decide +kernel)).1 ⟨"gm", 2, List.mem_cons_self⟩,
    (hall "a" (by decide +kernel)).2 ?_⟩
  rintro ⟨module, x, hm⟩
  simp [solo] at hm

end Mesh

end PhasedGrid.Snapshot
