import PhasedGrid.Proofs.Mesh.Completeness

/-!
Payloads and the cut of a version. On a first-in-first-out channel a marker tells its receiver which
payloads its sender sent before recording the version. A collector keeps one flag for all channels,
so while it waits for other markers it also records payloads that it can tell are past the cut.
-/

namespace PhasedGrid.Snapshot

set_option autoImplicit false

open PhasedGrid.Peer (Network)
open Agent (Turn Handling Marking)

def Letter.isPayload (l : Letter) : Bool :=
  match l.notice? with
  | some (.payload _ _ _) => true
  | _ => false

/-- Whether an event sends no payload that is meant for one version. -/
def Event.untagged : Event → Bool
  | .payload _ _ _ tag => tag.isNone
  | _ => true

theorem Letter.isPayload_eq {l : Letter} {value sender : String} {tag : Option Version}
    (h : l.notice? = some (.payload value sender tag)) : l.isPayload = true := by
  rw [Letter.isPayload, h]

theorem Letter.notice?_of_isPayload {l : Letter} (h : l.isPayload) :
    ∃ value sender tag, l.notice? = some (.payload value sender tag) := by
  unfold Letter.isPayload at h
  split at h
  · rename_i value sender tag hn
    exact ⟨value, sender, tag, hn⟩
  · cases h

/-- Whether each payload in a channel was sent after its sender recorded a version just if the
version is known, or a marker of it stands before the payload. -/
def Cutting (known : Version → Prop) : List Letter → Prop
  | [] => True
  | l :: ls => (l.isPayload → ∀ v, v ∈ l.past ↔ known v) ∧
      Cutting (fun v => known v ∨ l.notice? = some (.marker v)) ls

theorem Cutting.congr {known known' : Version → Prop} (h : ∀ v, known v ↔ known' v)
    (ls : List Letter) : Cutting known ls ↔ Cutting known' ls := by
  have he : known = known' := funext fun v => propext (h v)
  rw [he]

theorem cutting_append (known : Version → Prop) (ls ms : List Letter) :
    Cutting known (ls ++ ms) ↔ Cutting known ls ∧
      Cutting (fun v => known v ∨ ∃ l ∈ ls, l.notice? = some (.marker v)) ms := by
  induction ls generalizing known with
  | nil => simp [Cutting]
  | cons l ls ih =>
    rw [List.cons_append, Cutting, ih, Cutting, and_assoc]
    refine and_congr_right fun _ => and_congr_right fun _ => Cutting.congr (fun v => ?_) ms
    simp [or_assoc]

theorem cutting_of_no_payload (known : Version → Prop) {ls : List Letter}
    (h : ∀ l ∈ ls, l.isPayload = false) : Cutting known ls := by
  induction ls generalizing known with
  | nil => trivial
  | cons l ls ih =>
    refine ⟨fun hp => ?_, ih _ fun m hm => h m (List.mem_cons_of_mem l hm)⟩
    rw [h l List.mem_cons_self] at hp
    cases hp

namespace Mesh

variable {σ : Mesh} {v : Version}

/-- On every channel the markers tell which payloads were sent before the cut. -/
def Sliced (σ : Mesh) : Prop :=
  ∀ q ∈ σ.nodes, ∀ r ∈ σ.nodes, q ≠ r → Cutting (fun v => q ∈ σ.heard r v) (σ.channel q r)

/-- A node that has recorded a version has sent every other node a marker of it. -/
theorem Conserved.mem_past_iff (hc : σ.Conserved) {q r : String} (hq : q ∈ σ.nodes)
    (hr : r ∈ σ.nodes) (hne : q ≠ r) (v : Version) : v ∈ σ.past q ↔
      q ∈ σ.heard r v ∨ ∃ l ∈ σ.channel q r, l.notice? = some (.marker v) := by
  have hsum := hc v q hq r hr hne
  rw [← underway_pos_iff, ← List.count_pos_iff, ← List.count_pos_iff]
  omega

/-- A turn sends no payload to another node. -/
theorem letters_no_payload (h : Ledger σ) {b : String} (hb : b ∈ σ.nodes) {took : Option Version}
    {next : Agent} {effects : List Effect} (t : Turn (σ.agent b) took next effects) {x : Float}
    (h' : Ledger (σ.act b (took.map (·, x)) next effects)) {r : String} (hne : b ≠ r) :
    ∀ l ∈ letters b (σ.past b) effects r, l.isPayload = false := by
  intro l hl
  obtain ⟨plain, hplain, hletters⟩ := letters_turn t (h.uuid b) (h.peers b) hb (σ.past b) r
  rw [hletters, List.mem_append] at hl
  rcases hl with hl | hl
  · cases took with
    | none => cases hl
    | some w =>
      have hw := h'.sequence_le (h'.issued b w (mem_past_act.mpr (Or.inl ⟨rfl, rfl⟩)))
      dsimp only at hl
      split at hl
      · rw [List.mem_singleton.mp hl, Letter.isPayload, Letter.notice?_marker b hw]
      · cases hl
  · rw [← Bool.not_eq_true]
    intro hp
    obtain ⟨value, sender, tag, hn⟩ := Letter.notice?_of_isPayload hp
    rcases (hplain l hl).2 _ hn with ⟨f, hf, -⟩ | ⟨_, _, _, -, he⟩
    · cases hf
    · exact hne he

theorem Sliced.act (hs : σ.Sliced) (h : Ledger σ) {b : String} (hb : b ∈ σ.nodes)
    {took : Option Version} {next : Agent} {effects : List Effect}
    (t : Turn (σ.agent b) took next effects) {x : Float}
    (h' : Ledger (σ.act b (took.map (·, x)) next effects)) :
    (σ.act b (took.map (·, x)) next effects).Sliced := by
  intro q hq r hr hne
  rw [channel_act, cutting_append]
  refine ⟨hs q hq r hr hne, ?_⟩
  by_cases hqb : q = b
  · subst hqb
    rw [if_pos rfl]
    exact cutting_of_no_payload _ (letters_no_payload h hb t h' hne)
  · rw [if_neg hqb]
    trivial

theorem Sliced.consume (hs : σ.Sliced) {s r : String} {l : Letter}
    (hl : (σ.channel s r)[0]? = some l) : (σ.consume s r 0 l).Sliced := by
  intro q hq r' hr' hne
  have hcut := hs q hq r' hr' hne
  have hchan : (σ.consume s r 0 l).channel q r' =
      if q = s ∧ r' = r then (σ.channel q r').eraseIdx 0 else σ.channel q r' := rfl
  rw [hchan]
  by_cases hqr : q = s ∧ r' = r
  · obtain ⟨rfl, rfl⟩ := hqr
    rw [if_pos ⟨rfl, rfl⟩]
    cases hls : σ.channel q r' with
    | nil => simp [hls] at hl
    | cons m ls =>
      obtain rfl : m = l := by simpa [hls] using hl
      rw [hls] at hcut
      refine (Cutting.congr (fun v => ?_) ls).mp hcut.2
      rw [mem_heard_consume, or_comm]
      simp
  · rw [if_neg hqr]
    refine (Cutting.congr (fun v => ?_) _).mp hcut
    rw [mem_heard_consume]
    exact ⟨Or.inr, fun hm => hm.resolve_left fun hx => hqr ⟨hx.1, hx.2.1⟩⟩

theorem Sliced.payload (hs : σ.Sliced) (hc : σ.Conserved) (s r value : String)
    (tag : Option Version) : (σ.step (.payload s r value tag)).Sliced := by
  intro q hq r' hr' hne
  have hcut := hs q hq r' hr' hne
  unfold step
  dsimp only
  split
  · rename_i hqr
    rw [cutting_append]
    refine ⟨hcut, fun _ v => ?_, trivial⟩
    rw [← hqr.1]
    exact hc.mem_past_iff hq hr' hne v
  · exact hcut

theorem Sliced.step (hs : σ.Sliced) (h : Ledger σ) (hc : σ.Conserved) {e : Event}
    (he : σ.Enabled e) (ho : σ.InOrder e) : (σ.step e).Sliced := by
  have h' := h.step he
  cases e with
  | request b module x => exact hs.act h he.1 ((h.sound b).request_turn x module) h'
  | timer b status =>
    exact hs.act (x := 0) h he ((h.sound b).expiring_turn ((σ.agent b).onTimer_expiring status)) h'
  | payload s r value tag => exact hs.payload hc s r value tag
  | receive s r i x =>
    obtain rfl : i = 0 := ho
    have hl := List.getElem?_eq_getElem he.2.2
    obtain ⟨took, next, effects, m, hstep⟩ := h.receive he.2.1 hl x
    rw [hstep] at h' ⊢
    exact (hs.consume hl).act (h.consume (List.mem_of_getElem? hl)) he.2.1
      ((h.sound r).handling_turn m) h'

/-- With one peer at most, the first marker of a version ends its recording. -/
theorem recording_of_two {a next : Agent} (h : a.Sound) (hN : a.peers.size ≤ 2) {x : Float}
    {w : Version} {took : Option Version} {effects : List Effect}
    (m : Marking a x w took next effects) (hv : v ∈ next.recording) :
    v ∈ a.recording ∧ v ≠ w := by
  cases m with
  | own ht hi =>
    by_cases hvw : v = w
    · subst hvw
      have hlt := ((a.mem_recording_tally v).mp hv).2
      have hpos := (h.count v ht).1
      omega
    · exact ⟨(a.tally_spares (Ne.symm hvw)).recording.mp hv, hvw⟩
  | counted _ _ hlt => omega
  | finished _ _ _ =>
    obtain ⟨hr, hw⟩ := ((a.abandon_drops w).mem_recording v).mp hv
    exact ⟨hr, fun hvw => hw (List.mem_singleton.mpr hvw)⟩
  | stale ht _ =>
    refine ⟨hv, ?_⟩
    rintro rfl
    rw [h.recording_tracked v hv] at ht
    cases ht
  | opened _ _ hlt => omega
  | passed _ _ _ =>
    obtain ⟨hr, hw⟩ := ((Agent.abandon_drops _ w).mem_recording v).mp hv
    exact ⟨(((a.abandonSuperseded_drops w).mem_recording v).mp hr).1,
      fun hvw => hw (List.mem_singleton.mpr hvw)⟩

/-- No node records a version after it handled a marker of it. -/
def Alert (σ : Mesh) : Prop := ∀ r ∈ σ.nodes, ∀ v ∈ (σ.agent r).recording, σ.heard r v = []

theorem Alert.act (ha : σ.Alert) {b : String} {took : Option (Version × Float)} {next : Agent}
    {effects : List Effect} (hb : ∀ v ∈ next.recording, σ.heard b v = []) :
    (σ.act b took next effects).Alert := by
  intro r hr v hv
  by_cases hrb : r = b
  · rw [hrb, agent_act_self] at hv
    exact hrb ▸ hb v hv
  · rw [agent_act_ne _ hrb] at hv
    exact ha r hr v hv

theorem recording_expiring {a next : Agent} {outcome : Option Outcome} {effects : List Effect}
    (m : Agent.Expiring a outcome next effects) (hv : v ∈ next.recording) : v ∈ a.recording := by
  cases m with
  | idle => exact hv
  | complete _ _ _ => exact (((a.abandon_drops _).mem_recording v).mp hv).1
  | extended _ _ => exact hv
  | incomplete _ _ => exact (((a.abandon_drops _).mem_recording v).mp hv).1

theorem Alert.step (ha : σ.Alert) (h : Ledger σ) (hN : σ.nodes.length ≤ 2) {e : Event}
    (he : σ.Enabled e) : (σ.step e).Alert := by
  cases e with
  | request b module x =>
    refine ha.act fun v hv => ?_
    rw [((σ.agent b).request_starts x module).recording, List.mem_singleton] at hv
    subst hv
    exact List.eq_nil_iff_forall_not_mem.mpr fun s hs =>
      h.nextVersion_fresh b s (h.heard b _ s hs).2.1
  | timer b status =>
    exact ha.act fun v hv => ha b he v (recording_expiring ((σ.agent b).onTimer_expiring status) hv)
  | payload s r value tag => exact ha
  | receive s r i x =>
    obtain ⟨l, hl⟩ : ∃ l, (σ.channel s r)[i]? = some l := ⟨_, List.getElem?_eq_getElem he.2.2⟩
    obtain ⟨took, next, effects, m, hstep⟩ := h.receive he.2.1 hl x
    have hsize := h.own_peer he.2.1
    have hkeep : ∀ b v, (b = r → l.notice? ≠ some (.marker v)) →
        (σ.consume s r i l).heard b v = σ.heard b v := fun b v hne => if_neg fun hx => hne hx.1 hx.2
    have hrec : ∀ v ∈ next.recording, v ∈ (σ.agent r).recording ∧ l.notice? ≠ some (.marker v) := by
      intro v hv
      generalize l.notice? = notice at m
      cases m with
      | ignored => exact ⟨hv, nofun⟩
      | state f => exact ⟨((Agent.onState_spares _ f v).recording).mp hv, nofun⟩
      | payload value sender tag =>
        exact ⟨((Agent.onPayload_spares _ value sender tag v).recording).mp hv, nofun⟩
      | marker hs m =>
        obtain ⟨hr, hne⟩ := recording_of_two (h.sound r) (by omega) m hv
        exact ⟨hr, fun hx => hne (Notice.marker.inj (Option.some.inj hx)).symm⟩
    rw [hstep]
    intro b hb v hv
    by_cases hbr : b = r
    · subst hbr
      rw [agent_act_self] at hv
      obtain ⟨hr, hne⟩ := hrec v hv
      exact (hkeep b v fun _ => hne).trans (ha b hb v hr)
    · rw [agent_act_ne _ hbr] at hv
      exact (hkeep b v fun hx => absurd hx hbr).trans (ha b hb v hv)

theorem sliced_start (nodes : List String) (policy : String → Policy) :
    (start nodes policy).Sliced := fun _ _ _ _ _ => trivial

theorem Sliced.after {nodes : List String} (hn : nodes.Nodup) {policy : String → Policy}
    {es : List Event} (hf : (start nodes policy).Follows InOrder es) :
    ((start nodes policy).after es).Sliced := by
  have hinv := hf.invariant (fun τ => τ.Reachable ∧ τ.Sliced) (fun τ e hi he ho => ?_)
    ⟨.initial hn policy, sliced_start nodes policy⟩
  · exact hinv.2
  · have hone : τ.Follows InOrder [e] := ⟨he, ho, trivial⟩
    exact ⟨hi.1.step hone, hi.2.step hi.1.ledger hi.1.conserved he ho⟩

theorem alert_start (nodes : List String) (policy : String → Policy) :
    (start nodes policy).Alert := fun _ _ _ _ => rfl

theorem Alert.after {nodes : List String} (hn : nodes.Nodup) (hN : nodes.length ≤ 2)
    {policy : String → Policy} {rule : Mesh → Event → Prop} {es : List Event}
    (hf : (start nodes policy).Follows rule es) : ((start nodes policy).after es).Alert := by
  have hinv := hf.invariant (fun τ => Ledger τ ∧ τ.nodes = nodes ∧ τ.Alert)
    (fun τ e hi he _ => ⟨hi.1.step he, (nodes_step τ e).trans hi.2.1,
      hi.2.2.step hi.1 (hi.2.1 ▸ hN) he⟩)
    ⟨.start hn policy, rfl, alert_start nodes policy⟩
  exact hinv.2.2

/-- A node files a payload under the versions that it records, as from the node that sent it. -/
theorem Ledger.fragments_payload (h : Ledger σ) {q r : String} (hr : r ∈ σ.nodes) (hne : q ≠ r)
    {i : Nat} {l : Letter} (hl : (σ.channel q r)[i]? = some l) {value sender : String}
    {tag : Option Version} (hp : l.notice? = some (.payload value sender tag)) (x : Float)
    (v : Version) : ((σ.step (.receive q r i x)).agent r).fragments v = (σ.agent r).fragments v ++
      if v ∈ (σ.agent r).recording ∧ (tag = none ∨ tag = some v) then [.transit value q r]
      else [] := by
  obtain ⟨took, next, effects, m, hstep⟩ := h.receive hr hl x
  have hsender : sender = q := (h.posted q r l (List.mem_of_getElem? hl)).allowed _ hp hne
  rw [hstep, agent_act_self]
  rw [hp] at m
  cases m
  rw [Agent.onPayload_eq, Agent.fragments_foldl_file, hsender, h.uuid r]
  congr 1
  by_cases hv : v ∈ (σ.agent r).payloadTargets tag
  · have hcount := List.count_eq_one_of_mem ((h.sound r).payloadTargets_nodup tag) hv
    rw [if_pos ((Agent.mem_payloadTargets_iff _ tag v).mp hv), hcount]
    rfl
  · rw [if_neg (mt (Agent.mem_payloadTargets_iff _ tag v).mpr hv), List.count_eq_zero.mpr hv]
    rfl

/-- With first-in-first-out channels, a payload is filed under the versions that its receiver
records, and was sent before the cut of a version just if the receiver has not handled the sender's
marker of it. When there is but one other node, each payload filed was sent before the cut. -/
theorem transit_cut {nodes : List String} (hn : nodes.Nodup) {policy : String → Policy}
    {es : List Event} (hf : (start nodes policy).Follows InOrder es)
    (hσ : σ = (start nodes policy).after es) {q r : String} (hr : r ∈ nodes) (hne : q ≠ r)
    {l : Letter} (hl : (σ.channel q r)[0]? = some l) {value sender : String} {tag : Option Version}
    (hp : l.notice? = some (.payload value sender tag)) (x : Float) (v : Version) :
    ((σ.step (.receive q r 0 x)).agent r).fragments v = (σ.agent r).fragments v ++
        (if v ∈ (σ.agent r).recording ∧ (tag = none ∨ tag = some v) then [.transit value q r]
          else []) ∧
      (v ∉ l.past ↔ q ∉ σ.heard r v) ∧
      (nodes.length ≤ 2 → v ∈ (σ.agent r).recording → v ∉ l.past) := by
  have hreach : σ.Reachable := hσ ▸ Reachable.of_start hn hf
  have h := hreach.ledger
  have hc := hreach.conserved
  have hnodes : σ.nodes = nodes := hσ ▸ nodes_after _ es
  have hsliced : σ.Sliced := hσ ▸ Sliced.after hn hf
  have hq : q ∈ σ.nodes := (h.posted q r l (List.mem_of_getElem? hl)).sender
  have hcut := hsliced q hq r (hnodes ▸ hr) hne
  have hpast : ∀ w, w ∈ l.past ↔ q ∈ σ.heard r w := by
    cases hls : σ.channel q r with
    | nil => simp [hls] at hl
    | cons m ls =>
      obtain rfl : m = l := by simpa [hls] using hl
      rw [hls] at hcut
      exact hcut.1 (Letter.isPayload_eq hp)
  refine ⟨h.fragments_payload (hnodes ▸ hr) hne hl hp x v, not_congr (hpast v), fun hN hv hv' => ?_⟩
  have halert : σ.Alert := hσ ▸ Alert.after hn hN hf
  have hnil := halert r (hnodes ▸ hr) v hv
  have hmem := (hpast v).mp hv'
  rw [hnil] at hmem
  cases hmem

/-- The initiator still waits for the third node's marker when a payload comes that the second node
sent after its own. -/
def trailing : List Event :=
  [.request "a" "gm" 1, .receive "a" "b" 0 2, .payload "b" "a" "late" none, .receive "b" "a" 0 1]

def trailingLetter : Letter := ⟨Network.stamp "b" (Wire.payload "b" "late" none), [⟨"a", 1⟩]⟩

set_option maxRecDepth 4000 in
/-- With one version, and payloads that name none, a node files what was sent after the cut. -/
theorem trailing_transit :
    ¬ ∀ nodes policy es v q r l value x, nodes.Nodup →
      (Mesh.start nodes policy).Follows InOrder es → es.all Event.untagged →
      (∀ b ∈ nodes, ∀ w ∈ ((Mesh.start nodes policy).after es).past b, w = v) →
      r ∈ nodes → q ≠ r → (((Mesh.start nodes policy).after es).channel q r)[0]? = some l →
      l.notice? = some (.payload value q none) →
      .transit value q r ∉ (((Mesh.start nodes policy).after es).agent r).fragments v →
      .transit value q r ∈
        ((((Mesh.start nodes policy).after es).step (.receive q r 0 x)).agent r).fragments v →
      v ∉ l.past := by
  intro h
  exact absurd (h ["a", "b", "c"] (fun _ => {}) trailing ⟨"a", 1⟩ "b" "a" trailingLetter "late" 1
    (by decide) (by decide +kernel) (by decide) (by decide +kernel) (by decide) (by decide)
    (by decide +kernel) (by decide +kernel) (by decide +kernel) (by decide +kernel))
    (by decide +kernel)

set_option maxRecDepth 4000 in
/-- The payload that comes too late, put to the general statement. -/
theorem trailing_cut :
    (Mesh.start ["a", "b", "c"] fun _ => {}).Follows InOrder trailing ∧
      ∀ v, v ∉ trailingLetter.past ↔
        "b" ∉ ((Mesh.start ["a", "b", "c"] fun _ => {}).after trailing).heard "a" v := by
  have hn : ["a", "b", "c"].Nodup := by decide
  have hf : (Mesh.start ["a", "b", "c"] fun _ => {}).Follows InOrder trailing := by decide +kernel
  have hl : (((Mesh.start ["a", "b", "c"] fun _ => {}).after trailing).channel "b" "a")[0]? =
      some trailingLetter := by decide +kernel
  have hp : trailingLetter.notice? = some (.payload "late" "b" none) := by decide +kernel
  exact ⟨hf, fun v => (transit_cut hn hf rfl (by decide) (by decide) hl hp 1 v).2.1⟩

end Mesh

end PhasedGrid.Snapshot
