import PhasedGrid.Proofs.Mesh.Letters

/-!
What holds in every state that a mesh can reach. A version belongs to the node that started it and
is recorded there; it is tracked, finished, announced and heard of only by nodes that recorded it.
-/

namespace PhasedGrid.Snapshot

set_option autoImplicit false

open PhasedGrid.Peer (Group Message Network)
open PhasedGrid.Schedule (TimerStatus)
open Agent (Turn Handling Acting)

namespace Mesh

def Issued (σ : Mesh) (v : Version) : Prop :=
  v.initiator ∈ σ.nodes ∧ 1 ≤ v.sequence ∧ v.sequence ≤ (σ.agent v.initiator).started

/-- What a letter on the channel from `s` to `r` may say. -/
def Allowed (σ : Mesh) (s r : String) : Notice → Prop
  | .marker v => v ∈ σ.past s ∧ s ≠ r
  | .state _ => s ≠ r
  | .payload _ sender _ => s ≠ r → sender = s
  | .peerList _ _ => False
  | .request _ _ => False

structure Posted (σ : Mesh) (s r : String) (l : Letter) : Prop where
  sender : s ∈ σ.nodes
  source : l.message.source = s
  allowed : ∀ n, l.notice? = some n → σ.Allowed s r n

structure Ledger (σ : Mesh) : Prop where
  nodup : σ.nodes.Nodup
  uuid : ∀ b, (σ.agent b).uuid = b
  peers : ∀ b, (σ.agent b).peers = .ofList b σ.nodes
  sound : ∀ b, (σ.agent b).Sound
  bounded : ∀ b, (σ.agent b).started ≤ Decimal.maxU64
  latest : ∀ b, (σ.agent b).awaiting → (σ.agent b).current.sequence = (σ.agent b).started
  tracked : ∀ b v, (σ.agent b).tracks v → v ∈ σ.past b
  retired : ∀ b, ∀ v ∈ (σ.agent b).retired, v ∈ σ.past b
  recorder : ∀ b, ∀ v ∈ σ.past b, b ∈ σ.nodes
  issued : ∀ b, ∀ v ∈ σ.past b, σ.Issued v
  posted : ∀ s r, ∀ l ∈ σ.channel s r, σ.Posted s r l
  heard : ∀ r v, ∀ s ∈ σ.heard r v, s ∈ σ.nodes ∧ v ∈ σ.past s ∧ s ≠ r

variable {σ : Mesh}

theorem Issued.ne_sentinel {v : Version} (h : σ.Issued v) : v ≠ .sentinel := by
  rintro rfl
  exact absurd h.2.1 (by decide)

theorem past_act (σ : Mesh) (b : String) (took : Option Version) (x : Float) (next : Agent)
    (effects : List Effect) (c : String) :
    (σ.act b (took.map (·, x)) next effects).past c =
      if c = b then took.toList ++ σ.past c else σ.past c := by
  unfold past act
  by_cases hc : c = b
  · subst hc
    cases took <;> simp
  · simp [hc]

theorem mem_past_act {b c : String} {took : Option Version} {x : Float} {next : Agent}
    {effects : List Effect} {v : Version} :
    v ∈ (σ.act b (took.map (·, x)) next effects).past c ↔
      c = b ∧ took = some v ∨ v ∈ σ.past c := by
  rw [past_act]
  by_cases hc : c = b <;> simp [hc, Option.mem_toList]

theorem agent_act_self (σ : Mesh) (b : String) (took : Option (Version × Float)) (next : Agent)
    (effects : List Effect) : (σ.act b took next effects).agent b = next := if_pos rfl

theorem agent_act_ne (σ : Mesh) {b c : String} (hc : c ≠ b) (took : Option (Version × Float))
    (next : Agent) (effects : List Effect) : (σ.act b took next effects).agent c = σ.agent c :=
  if_neg hc

/-- What holds of every node still does if it holds of the one that acted. -/
theorem agent_act_each {P : String → Agent → Prop} (h : ∀ c, P c (σ.agent c)) {b : String}
    {next : Agent} (hb : P b next) (took : Option (Version × Float)) (effects : List Effect)
    (c : String) : P c ((σ.act b took next effects).agent c) := by
  by_cases hc : c = b
  · rw [hc, agent_act_self]
    exact hb
  · rw [agent_act_ne σ hc]
    exact h c

theorem Issued.act {w : Version} (hw : σ.Issued w) {b : String} {next : Agent}
    (hs : (σ.agent b).started ≤ next.started) (took : Option (Version × Float))
    (effects : List Effect) : (σ.act b took next effects).Issued w := by
  refine ⟨hw.1, hw.2.1, ?_⟩
  by_cases hc : w.initiator = b
  · rw [hc, agent_act_self]
    exact Nat.le_trans (hc ▸ hw.2.2) hs
  · rw [agent_act_ne σ hc]
    exact hw.2.2

theorem channel_act (σ : Mesh) (b : String) (took : Option (Version × Float)) (next : Agent)
    (effects : List Effect) (s r : String) : (σ.act b took next effects).channel s r =
      σ.channel s r ++ if s = b then letters b (σ.past b) effects r else [] := by
  by_cases hs : s = b <;> simp [act, hs]

theorem Posted.mono {τ : Mesh} (hn : τ.nodes = σ.nodes) (hp : ∀ c, ∀ v ∈ σ.past c, v ∈ τ.past c)
    {s r : String} {l : Letter} (h : σ.Posted s r l) : τ.Posted s r l := by
  refine ⟨hn ▸ h.sender, h.source, fun n hl => ?_⟩
  have ha := h.allowed n hl
  cases n with
  | marker v => exact ⟨hp s v ha.1, ha.2⟩
  | state f => exact ha
  | payload value sender tag => exact ha
  | peerList leader peers => exact ha
  | request module source => exact ha

theorem mem_channel_consume {s r s' r' : String} {i : Nat} {l l' : Letter}
    (h : l' ∈ (σ.consume s r i l).channel s' r') : l' ∈ σ.channel s' r' := by
  unfold consume at h
  dsimp only at h
  split at h
  · exact List.mem_of_mem_eraseIdx h
  · exact h

theorem mem_channel_consume_of_not {s r : String} {i : Nat} {l : Letter}
    (hl : (σ.channel s r)[i]? = some l) {s' r' : String} {l' : Letter}
    (h : l' ∈ σ.channel s' r') (hne : ¬ (s' = s ∧ r' = r ∧ l' = l)) :
    l' ∈ (σ.consume s r i l).channel s' r' := by
  unfold consume
  dsimp only
  split
  · rename_i hc
    obtain ⟨rfl, rfl⟩ := hc
    obtain ⟨hi, rfl⟩ := List.getElem?_eq_some_iff.mp hl
    have hm := (List.getElem_cons_eraseIdx_perm hi).mem_iff.mpr h
    exact (List.mem_cons.mp hm).resolve_left fun he => hne ⟨rfl, rfl, he⟩
  · exact h

theorem mem_heard_consume {s r s' r' : String} {i : Nat} {l : Letter} {v : Version} :
    s' ∈ (σ.consume s r i l).heard r' v ↔
      s' = s ∧ r' = r ∧ l.notice? = some (.marker v) ∨ s' ∈ σ.heard r' v := by
  unfold consume
  dsimp only
  split
  · rename_i h
    simp [h]
  · rename_i h
    exact ⟨Or.inr, fun hs => hs.resolve_left fun hc => h hc.2⟩

theorem mem_channel_payload {s r s' r' value : String} {tag : Option Version} {l : Letter}
    (h : l ∈ (σ.step (.payload s r value tag)).channel s' r') : l ∈ σ.channel s' r' ∨
      s' = s ∧ r' = r ∧ l = ⟨Network.stamp s (Wire.payload s value tag), σ.past s⟩ := by
  unfold step at h
  dsimp only at h
  split at h
  · rename_i hs
    exact (List.mem_append.mp h).imp id fun hl => ⟨hs.1, hs.2, List.mem_singleton.mp hl⟩
  · exact Or.inl h

/-- A payload carries no recorded fragment. -/
theorem shipped_payload {s r value : String} {tag : Option Version}
    (he : σ.Enabled (.payload s r value tag)) (s' r' : String) (p : Fragment → Bool) :
    shipped ((σ.step (.payload s r value tag)).channel s' r') p =
      shipped (σ.channel s' r') p := by
  unfold step
  dsimp only
  split
  · have hplain := Letter.fragment?_payload s he.2.2.1 he.2.2.2 (σ.past s)
    rw [shipped_append, Nat.add_eq_left, shipped, List.countP_singleton, hplain]
    rfl
  · rfl

/-- One node's turn, after it took a letter off a channel to it if the turn answers one. -/
structure Deed (σ τ : Mesh) (b : String) (x : Float) (notice : Option Notice)
    (took : Option Version) (next : Agent) (effects : List Effect) : Prop where
  node : b ∈ σ.nodes
  acting : Acting (σ.agent b) x notice took next effects
  letter : τ = σ ∧ notice = none ∨ ∃ s i l, (σ.channel s b)[i]? = some l ∧ notice = l.notice? ∧
    τ = σ.consume s b i l
  ledger : Ledger (τ.act b (took.map (·, x)) next effects)

namespace Deed

variable {τ : Mesh} {b : String} {x : Float} {notice : Option Notice} {took : Option Version}
  {next : Agent} {effects : List Effect}

theorem same (d : Deed σ τ b x notice took next effects) :
    τ.nodes = σ.nodes ∧ τ.agent = σ.agent ∧ τ.taken = σ.taken := by
  rcases d.letter with ⟨rfl, -⟩ | ⟨s, i, l, -, -, rfl⟩
  · exact ⟨rfl, rfl, rfl⟩
  · exact ⟨rfl, rfl, rfl⟩

theorem mem_channel (d : Deed σ τ b x notice took next effects) {s r : String} {l : Letter}
    (hl : l ∈ τ.channel s r) : l ∈ σ.channel s r := by
  rcases d.letter with ⟨rfl, -⟩ | ⟨s, i, l, -, -, rfl⟩
  · exact hl
  · exact mem_channel_consume hl

theorem notice_mem (d : Deed σ τ b x notice took next effects) {n : Notice}
    (hn : notice = some n) : ∃ s, ∃ l ∈ σ.channel s b, l.notice? = some n := by
  rcases d.letter with ⟨-, hnone⟩ | ⟨s, i, l, hl, hnotice, -⟩
  · rw [hn] at hnone
    cases hnone
  · exact ⟨s, l, List.mem_of_getElem? hl, hnotice ▸ hn⟩

end Deed

namespace Ledger

theorem own_peer (h : Ledger σ) {b : String} (hb : b ∈ σ.nodes) :
    (σ.agent b).peers.size = σ.nodes.length := by
  rw [h.peers b]
  exact Group.size_ofList hb h.nodup

theorem sequence_le (h : Ledger σ) {v : Version} (hv : σ.Issued v) : v.sequence ≤ Decimal.maxU64 :=
  Nat.le_trans hv.2.2 (h.bounded v.initiator)

/-- The version that a node starts next is known to nobody. -/
theorem nextVersion_fresh (h : Ledger σ) (b c : String) : (σ.agent b).nextVersion ∉ σ.past c := by
  intro hv
  have hs := (h.issued c _ hv).2.2
  simp only [Agent.nextVersion, h.uuid b] at hs
  omega

theorem not_tracks (h : Ledger σ) {b : String} {v : Version} (hv : v ∉ σ.past b) :
    (σ.agent b).tracks v = false := by
  rw [← Bool.not_eq_true]
  exact fun ht => hv (h.tracked b v ht)

theorem start {nodes : List String} (hn : nodes.Nodup) (policy : String → Policy) :
    Ledger (Mesh.start nodes policy) where
  nodup := hn
  uuid _ := rfl
  peers _ := rfl
  sound b := by
    refine ⟨Group.size_ofList_pos b nodes, fun _ => rfl, ?_, List.nodup_nil, Or.inl rfl, rfl,
      ?_, ?_, ?_, ?_⟩
    all_goals intro v hv; cases hv
  bounded _ := Nat.zero_le _
  latest b hb := absurd rfl ((Agent.awaiting_iff _).mp hb).1
  tracked _ _ hv := by cases hv
  retired _ _ hv := by cases hv
  recorder _ _ hv := by cases hv
  issued _ _ hv := by cases hv
  posted _ _ _ hl := by cases hl
  heard _ _ _ hs := by cases hs

theorem posted_turn (h : Ledger σ) {b : String} (hb : b ∈ σ.nodes) {took : Option Version}
    {next : Agent} {effects : List Effect} (t : Turn (σ.agent b) took next effects)
    (hseq : ∀ w ∈ took, w.sequence ≤ Decimal.maxU64) (x : Float) {r : String} {l : Letter}
    (hl : l ∈ letters b (σ.past b) effects r) :
    (σ.act b (took.map (·, x)) next effects).Posted b r l := by
  obtain ⟨plain, hplain, hletters⟩ := letters_turn t (h.uuid b) (h.peers b) hb (σ.past b) r
  rw [hletters, List.mem_append] at hl
  rcases hl with hl | hl
  · cases took with
    | none => cases hl
    | some v =>
      dsimp only at hl
      split at hl
      · rename_i hr
        obtain rfl := List.mem_singleton.mp hl
        refine ⟨hb, rfl, fun n hn => ?_⟩
        rw [Letter.notice?_marker b (hseq v rfl)] at hn
        obtain rfl := Option.some.inj hn
        exact ⟨mem_past_act.mpr (Or.inl ⟨rfl, rfl⟩), Ne.symm hr.2⟩
      · cases hl
  · obtain ⟨hs, hn⟩ := hplain l hl
    refine ⟨hb, hs, fun n hn' => ?_⟩
    rcases hn n hn' with ⟨f, rfl, hne⟩ | ⟨value, source, tag, rfl, he⟩
    · exact hne
    · exact fun hne => absurd he hne

/-- The version for which a turn takes a reading exists: it is new, or another node started it. -/
theorem issued_turn (h : Ledger σ) {b : String} (hb : b ∈ σ.nodes) {took : Option Version}
    {next : Agent} {effects : List Effect} (t : Turn (σ.agent b) took next effects)
    (htook : ∀ w ∈ took, w.initiator ≠ b → σ.Issued w) (x : Float) :
    ∀ w ∈ took, (σ.act b (took.map (·, x)) next effects).Issued w := by
  intro w hw
  have hu := h.uuid b
  rcases t.started with ⟨ht, hs, -⟩ | ⟨hs, hf, -⟩
  · obtain rfl := Option.some.inj (ht.symm.trans hw)
    have hi : (σ.agent b).nextVersion.initiator = b := hu
    refine ⟨hi.symm ▸ hb, Nat.le_add_left 1 _, ?_⟩
    rw [hi, agent_act_self]
    exact Nat.le_of_eq hs.symm
  · exact (htook w hw (hu ▸ hf w hw)).act (Nat.le_of_eq hs.symm) _ _

theorem started_turn (h : Ledger σ) {b : String} {took : Option Version} {next : Agent}
    {effects : List Effect} (t : Turn (σ.agent b) took next effects)
    (hnext : took = some (σ.agent b).nextVersion → (σ.agent b).started < Decimal.maxU64) :
    (σ.agent b).started ≤ next.started ∧ next.started ≤ Decimal.maxU64 := by
  have hmax := h.bounded b
  rcases t.started with ⟨ht, hs, -⟩ | ⟨hs, -⟩
  · have hlt := hnext ht
    omega
  · omega

theorem latest_turn (h : Ledger σ) {b : String} {took : Option Version} {next : Agent}
    {effects : List Effect} (t : Turn (σ.agent b) took next effects) (ha : next.awaiting) :
    next.current.sequence = next.started := by
  rcases t.started with ⟨-, hs, hcur⟩ | ⟨hs, -, hcur⟩
  · rw [hcur, hs]
    rfl
  · rw [hcur ha, hs]
    refine h.latest b ?_
    rw [Agent.awaiting_iff, ← hcur ha, ← t.uuid]
    exact next.awaiting_iff.mp ha

/-- One node acts: it takes up a version of its own, or one of another node that exists already. -/
theorem act (h : Ledger σ) {b : String} (hb : b ∈ σ.nodes) {took : Option Version} {next : Agent}
    {effects : List Effect} (t : Turn (σ.agent b) took next effects)
    (hnext : took = some (σ.agent b).nextVersion → (σ.agent b).started < Decimal.maxU64)
    (htook : ∀ w ∈ took, w.initiator ≠ b → σ.Issued w) (x : Float) :
    Ledger (σ.act b (took.map (·, x)) next effects) := by
  obtain ⟨hle, hmax⟩ := h.started_turn t hnext
  have hnew := h.issued_turn hb t htook x
  have hbounded := agent_act_each (b := b) (P := fun _ a => a.started ≤ Decimal.maxU64) h.bounded
    hmax (took.map (·, x)) effects
  refine ⟨h.nodup, ?_, ?_, ?_, hbounded, ?_, fun c v hv => ?_, fun c v hv => ?_, fun c v hv => ?_,
    fun c v hv => ?_, fun s r l hl => ?_, fun r v s hs => ?_⟩
  · exact agent_act_each (P := fun c a => a.uuid = c) h.uuid (t.uuid.trans (h.uuid b)) _ _
  · exact agent_act_each (P := fun c a => a.peers = .ofList c σ.nodes) h.peers
      (t.peers.trans (h.peers b)) _ _
  · exact agent_act_each (P := fun _ a => a.Sound) h.sound t.sound _ _
  · exact agent_act_each (P := fun _ a => a.awaiting → a.current.sequence = a.started) h.latest
      (h.latest_turn t) _ _
  · rw [mem_past_act]
    by_cases hc : c = b
    · rw [hc, agent_act_self] at hv
      exact (t.tracks v hv).symm.imp (fun ht => ⟨hc, ht⟩) fun ht => hc ▸ h.tracked b v ht
    · rw [agent_act_ne σ hc] at hv
      exact Or.inr (h.tracked c v hv)
  · rw [mem_past_act]
    by_cases hc : c = b
    · rw [hc, agent_act_self] at hv
      rcases t.retired v hv with hr | hr | hr
      · exact Or.inr (hc ▸ h.retired b v hr)
      · exact Or.inr (hc ▸ h.tracked b v hr)
      · exact Or.inl ⟨hc, hr⟩
    · rw [agent_act_ne σ hc] at hv
      exact Or.inr (h.retired c v hv)
  · rcases mem_past_act.mp hv with ⟨rfl, -⟩ | hv
    · exact hb
    · exact h.recorder c v hv
  · rcases mem_past_act.mp hv with ⟨-, ht⟩ | hv
    · exact hnew v ht
    · exact (h.issued c v hv).act hle _ _
  · rw [channel_act, List.mem_append] at hl
    rcases hl with hl | hl
    · refine (h.posted s r l hl).mono ?_ fun c v hv => mem_past_act.mpr (Or.inr hv)
      rfl
    · split at hl
      · rename_i hs
        subst hs
        exact h.posted_turn hb t (fun w hw => Nat.le_trans (hnew w hw).2.2 (hbounded w.initiator)) x hl
      · cases hl
  · obtain ⟨hn, hp, hne⟩ := h.heard r v s hs
    exact ⟨hn, mem_past_act.mpr (Or.inr hp), hne⟩

theorem consume (h : Ledger σ) {s r : String} {i : Nat} {l : Letter} (hl : l ∈ σ.channel s r) :
    Ledger (σ.consume s r i l) := by
  refine ⟨h.nodup, h.uuid, h.peers, h.sound, h.bounded, h.latest, h.tracked, h.retired,
    h.recorder, h.issued, fun s' r' l' hl' => ?_, fun r' v s' hs' => ?_⟩
  · refine (h.posted s' r' l' (mem_channel_consume hl')).mono ?_ ?_
    · rfl
    · exact fun _ _ hv => hv
  · rcases mem_heard_consume.mp hs' with ⟨rfl, rfl, hn⟩ | hs'
    · obtain ⟨hv, hne⟩ := (h.posted s' r' l hl).allowed _ hn
      exact ⟨(h.posted s' r' l hl).sender, hv, hne⟩
    · exact h.heard r' v s' hs'

theorem payload (h : Ledger σ) {s r value : String} {tag : Option Version}
    (he : σ.Enabled (.payload s r value tag)) : Ledger (σ.step (.payload s r value tag)) := by
  obtain ⟨hs, hr, hv, ht⟩ := he
  refine ⟨h.nodup, h.uuid, h.peers, h.sound, h.bounded, h.latest, h.tracked, h.retired,
    h.recorder, h.issued, fun s' r' l hl => ?_, h.heard⟩
  rcases mem_channel_payload hl with hl | ⟨rfl, rfl, rfl⟩
  · refine (h.posted s' r' l hl).mono ?_ ?_
    · rfl
    · exact fun _ _ hv => hv
  · refine ⟨hs, rfl, fun n hn => ?_⟩
    rw [Letter.notice?_payload _ hv ht] at hn
    obtain rfl := Option.some.inj hn
    exact fun _ => rfl

/-- The letters of its peers bring a node no new acquaintances. -/
theorem meet_eq (h : Ledger σ) {s r : String} (hr : r ∈ σ.nodes) {l : Letter}
    (hl : l ∈ σ.channel s r) : (σ.agent r).meet l.message.source = σ.agent r := by
  have hp := h.posted s r l hl
  unfold Agent.meet
  split
  · rfl
  · rw [hp.source, h.peers r, Group.insert_ofList hr hp.sender, ← h.peers r]

theorem handling (h : Ledger σ) {s r : String} (hr : r ∈ σ.nodes) {l : Letter}
    (hl : l ∈ σ.channel s r) (x : Float) :
    Handling (σ.agent r) x l.notice? (l.notice?.bind (σ.agent r).takes?)
      ((σ.agent r).handle x l.message).2.1 ((σ.agent r).handle x l.message).2.2 := by
  have hp := h.posted s r l hl
  have hmeet := h.meet_eq hr hl
  cases hn : l.notice? with
  | none =>
    have hsame : ((σ.agent r).handle x l.message).2 = (σ.agent r, []) := by
      unfold Agent.handle
      rw [hmeet]
      cases hread : Wire.read l.message with
      | error e => rfl
      | ok m =>
        cases m with
        | none => rfl
        | some n => simp [Letter.notice?, hread] at hn
    rw [hsame]
    exact .ignored
  | some n =>
    have hnotice : ((σ.agent r).handle x l.message).2 = (σ.agent r).onNotice x n := by
      unfold Agent.handle
      rw [hmeet, Letter.notice?_eq_some.mp hn]
    rw [hnotice]
    have ha := hp.allowed n hn
    cases n with
    | marker v =>
      have hv := (h.issued s v ha.1).ne_sentinel
      exact .marker hv (Agent.onMarker_marking (h.sound r) x hv)
    | state f => exact .state f
    | payload value sender tag => exact .payload value sender tag
    | peerList leader peers => exact ha.elim
    | request module source => exact ha.elim

theorem receive (h : Ledger σ) {s r : String} (hr : r ∈ σ.nodes) {i : Nat} {l : Letter}
    (hl : (σ.channel s r)[i]? = some l) (x : Float) :
    ∃ took next effects, Handling (σ.agent r) x l.notice? took next effects ∧
      σ.step (.receive s r i x) =
        (σ.consume s r i l).act r (took.map (·, x)) next effects := by
  have hmem := List.mem_of_getElem? hl
  have hstep : σ.step (.receive s r i x) = (σ.consume s r i l).act r
      ((l.notice?.bind (σ.agent r).takes?).map (·, x)) ((σ.agent r).handle x l.message).2.1
      ((σ.agent r).handle x l.message).2.2 := by
    simp only [step, hl, h.meet_eq hr hmem]
  exact ⟨_, _, _, h.handling hr hmem x, hstep⟩

theorem took_issued (h : Ledger σ) {s r : String} {l : Letter} (hl : l ∈ σ.channel s r) {x : Float}
    {took : Option Version} {next : Agent} {effects : List Effect}
    (m : Handling (σ.agent r) x l.notice? took next effects) {w : Version} (hw : w ∈ took) :
    l.notice? = some (.marker w) ∧ w ∈ σ.past s := by
  have hn := m.notice_eq hw
  exact ⟨hn, ((h.posted s r l hl).allowed _ hn).1⟩

/-- Every event but a payload is a turn of one node. -/
theorem turns (h : Ledger σ) {e : Event} (he : σ.Enabled e) :
    (∃ s r value tag, e = .payload s r value tag) ∨
      ∃ τ b x notice took next effects, Deed σ τ b x notice took next effects ∧
        σ.step e = τ.act b (took.map (·, x)) next effects := by
  cases e with
  | request b module x =>
    refine Or.inr ⟨σ, b, x, none, _, _, _, ⟨he.1, .request module, Or.inl ⟨rfl, rfl⟩,
      h.act he.1 ((h.sound b).request_turn x module) (fun _ => he.2) (fun w hw hi => ?_) x⟩, rfl⟩
    rw [← Option.some.inj hw] at hi
    exact absurd (h.uuid b) hi
  | timer b status =>
    have t := (h.sound b).expiring_turn ((σ.agent b).onTimer_expiring status)
    exact Or.inr ⟨σ, b, 0, none, _, _, _, ⟨he, .timer status, Or.inl ⟨rfl, rfl⟩,
      h.act he t (fun hn => by cases hn) (fun w hw => by cases hw) 0⟩, rfl⟩
  | payload s r value tag => exact Or.inl ⟨s, r, value, tag, rfl⟩
  | receive s r i x =>
    obtain ⟨hs, hr, hi⟩ := he
    have hl := List.getElem?_eq_getElem hi
    have hmem := List.mem_of_getElem? hl
    obtain ⟨took, next, effects, m, hstep⟩ := h.receive hr hl x
    refine Or.inr ⟨_, r, x, _, took, next, effects, ⟨hr, .letter m, Or.inr ⟨s, i, _, hl, rfl, rfl⟩,
      (h.consume hmem).act hr ((h.sound r).handling_turn m) (fun hn => ?_) (fun w hw _ => ?_) x⟩,
      hstep⟩
    · exact absurd (h.took_issued hmem m hn).2 (h.nextVersion_fresh r s)
    · exact h.issued s w (h.took_issued hmem m hw).2

theorem before (h : Ledger σ) {τ : Mesh} {b : String} {x : Float} {notice : Option Notice}
    {took : Option Version} {next : Agent} {effects : List Effect}
    (d : Deed σ τ b x notice took next effects) :
    Ledger τ ∧ Turn (τ.agent b) took next effects := by
  rw [d.same.2.1]
  refine ⟨?_, (h.sound b).acting_turn d.acting⟩
  rcases d.letter with ⟨rfl, -⟩ | ⟨s, i, l, hl, -, rfl⟩
  · exact h
  · exact h.consume (List.mem_of_getElem? hl)

protected theorem step (h : Ledger σ) {e : Event} (he : σ.Enabled e) : Ledger (σ.step e) := by
  rcases h.turns he with ⟨s, r, value, tag, rfl⟩ | ⟨τ, b, x, notice, took, next, effects, d, hstep⟩
  · exact h.payload he
  · exact hstep ▸ d.ledger

theorem after (h : Ledger σ) {rule : Mesh → Event → Prop} {es : List Event}
    (hf : σ.Follows rule es) : Ledger (σ.after es) :=
  hf.invariant Ledger (fun _ _ hi he _ => hi.step he) h

end Ledger

theorem Reachable.ledger (h : σ.Reachable) : Ledger σ := by
  obtain ⟨nodes, policy, es, hn, hf, rfl⟩ := h
  exact (Ledger.start hn policy).after hf

theorem Reachable.step (h : σ.Reachable) {rule : Mesh → Event → Prop} {es : List Event}
    (hf : σ.Follows rule es) : (σ.after es).Reachable := by
  obtain ⟨nodes, policy, fs, hn, hfs, rfl⟩ := h
  exact ⟨nodes, policy, fs ++ es, hn, hfs.append (hf.mono fun _ _ _ => trivial),
    (after_append _ fs es).symm⟩

end Mesh

end PhasedGrid.Snapshot
