import PhasedGrid.Proofs.Mesh.Novelty
import PhasedGrid.Proofs.Mesh.Rounds
import PhasedGrid.Proofs.Snapshot.Likeness

/-!
A new group. Nodes with peers of any kind are sent the same peer list, the leader last of all; each
of them has it in its inbox before anything that another node sends on account of it. So as far as
the snapshot of the leader is concerned, the nodes of the list are a mesh of new collectors.
-/

namespace PhasedGrid.Snapshot

set_option autoImplicit false

open PhasedGrid.Device (Inventory)
open PhasedGrid.Peer (Group Message Network)
open Agent (Resembles)

namespace Mesh

/-- New collectors of which one is about to start the version `v`. -/
def poised (nodes : List String) (v : Version) : Mesh where
  nodes
  agent b := { Agent.new b {} nodes with started := if b = v.initiator then v.sequence - 1 else 0 }
  channel _ _ := []
  taken _ := []
  heard _ _ := []

/-- A snapshot `v` under way and no other. -/
structure Sole (v : Version) (σ : Mesh) : Prop where
  course : Course σ
  past : ∀ b, ∀ w ∈ σ.past b, w = v

variable {σ : Mesh} {v : Version}

theorem poised_ledger {nodes : List String} (hn : nodes.Nodup) (hv : v.sequence ≤ Decimal.maxU64) :
    Ledger (poised nodes v) where
  nodup := hn
  uuid _ := rfl
  peers _ := rfl
  sound b := Agent.sound_of_empty (Group.size_ofList_pos b nodes) rfl rfl rfl rfl
  bounded b := by
    change (if b = v.initiator then v.sequence - 1 else 0) ≤ Decimal.maxU64
    split <;> omega
  latest b hb := absurd rfl ((Agent.awaiting_iff _).mp hb).1
  tracked _ _ hv := by cases hv
  retired _ _ hv := by cases hv
  recorder _ _ hv := by cases hv
  issued _ _ hv := by cases hv
  posted _ _ _ hl := by cases hl
  heard _ _ _ hs := by cases hs

theorem poised_sole {nodes : List String} (hn : nodes.Nodup) (hv : v.sequence ≤ Decimal.maxU64) :
    Sole v (poised nodes v) := by
  have h := poised_ledger hn hv
  refine ⟨⟨h, fun _ _ _ _ _ _ => rfl, .of_idle h (fun _ _ _ => rfl) fun _ _ _ _ => rfl, ?_⟩, ?_⟩
  · intro w hl
    exact absurd hl.2.symm hl.1
  · intro b w hw
    exact absurd hw List.not_mem_nil

theorem poised_nextVersion (nodes : List String) (hv : 1 ≤ v.sequence) :
    ((poised nodes v).agent v.initiator).nextVersion = v := by
  change Version.mk v.initiator ((if v.initiator = v.initiator then v.sequence - 1 else 0) + 1) = v
  rw [if_pos rfl, Nat.sub_add_cancel hv]

namespace Sole

/-- The only version that a node may start is `v`. -/
theorem step (h : Sole v σ) {e : Event} (he : σ.Enabled e) (ha : σ.Asking e)
    (hreq : ∀ b module x, e = .request b module x → (σ.agent b).nextVersion = v) :
    Sole v (σ.step e) := by
  refine ⟨h.course.step he ha, fun b w hw => ?_⟩
  cases e with
  | request c module x =>
    have hstep : σ.step (.request c module x) =
        σ.act c ((some (σ.agent c).nextVersion).map (·, x)) ((σ.agent c).request x module).1
          ((σ.agent c).request x module).2 := rfl
    rw [hstep] at hw
    rcases mem_past_act.mp hw with ⟨-, hw⟩ | hw
    · rw [← Option.some.inj hw]
      exact hreq c module x rfl
    · exact h.past b w hw
  | timer c status => exact ha.elim
  | payload s r value tag => exact h.past b w hw
  | receive s r i x =>
    have hl := List.getElem?_eq_getElem he.2.2
    obtain ⟨took, next, effects, m, hstep⟩ := h.course.ledger.receive he.2.1 hl x
    rw [hstep] at hw
    rcases mem_past_act.mp hw with ⟨-, hw⟩ | hw
    · have hs := (h.course.ledger.took_issued (List.mem_of_getElem? hl) m hw).2
      exact h.past s w hs
    · exact h.past b w hw

theorem tracks (h : Sole v σ) (b : String) {w : Version} (hw : (σ.agent b).tracks w) : w = v :=
  h.past b w (h.course.ledger.tracked b w hw)

/-- Nobody else awaits anything. -/
theorem not_awaiting (h : Sole v σ) {b : String} (hb : b ≠ v.initiator) :
    ¬ (σ.agent b).awaiting := by
  intro ha
  have hv := h.tracks b ((h.course.ledger.sound b).awaiting_tracks ha)
  have hown := ((σ.agent b).awaiting_iff.mp ha).2
  rw [hv, h.course.ledger.uuid] at hown
  exact hb hown.symm

theorem within (h : Sole v σ) {s r : String} {l : Letter} (hl : l ∈ σ.channel s r) (n : Notice)
    (hn : Wire.read l.message = .ok (some n)) : n.Within v := by
  have ha := (h.course.ledger.posted s r l hl).allowed n (Letter.notice?_eq_some.mpr hn)
  cases n with
  | marker w => exact h.past s w ha.1
  | state f => trivial
  | payload value sender tag => trivial
  | peerList leader peers => exact ha.elim
  | request module source => exact ha.elim

/-- Nobody outside is written to. -/
theorem receiver (h : Sole v σ) (hv : v.initiator ∈ σ.nodes) {s r : String} (hr : r ∈ σ.nodes)
    {l : Letter} (hl : l ∈ σ.channel s r) (x : Float) {receiver : String} {content : Message}
    (hsent : .send receiver content ∈ ((σ.agent r).handle x l.message).2.2) :
    receiver ∈ σ.nodes := by
  rcases (h.course.ledger.handling hr hl x).receiver hsent with hp | ⟨w, hn, rfl⟩
  · rw [h.course.ledger.peers r] at hp
    exact ((Group.mem_others_ofList hr receiver).mp hp).1
  · obtain rfl := h.within hl _ (Letter.notice?_eq_some.mp hn)
    exact hv

end Sole

end Mesh

namespace Cluster

open Mesh (poised Sole Quiet channel_act agent_act_self agent_act_ne)

/-- Sends a peer list to all of the list, the leader last of all. -/
def announce (c : Cluster) (leader : String) (peers : List String) : Cluster :=
  let receivers := peers.filter (· ≠ leader) ++ [leader]
  let list := Wire.peerList leader peers
  { c with network := receivers.foldl (fun n p => n.deliver p list) c.network }

/-- What happens while a group of `peers` takes shape: any member handles a message of its inbox,
and the peers exchange payloads. -/
inductive Proceeds (peers : List String) : Cluster → Cluster → Prop where
  | receive {c next : Cluster} {i : Nat} {result : String × Except WireError Unit} :
      c.receive? i = some (result, next) → Proceeds peers c next
  | payload {c : Cluster} {s r value : String} {tag : Option Version} : s ∈ peers → r ∈ peers →
      value ∉ Wire.reserved → (∀ v ∈ tag, v.sequence ≤ Decimal.maxU64) →
      Proceeds peers c (c.payload s r value tag)
  | refit {c : Cluster} (i : Nat) (f : Inventory → Inventory) : Proceeds peers c (c.refit i f)

/-- How far a member is with the new group, of which `σ` shows what happens among those who are in
it already: it has nothing to do with it, it has the peer list before it, or it is a node of `σ`. -/
inductive Standing (σ : Mesh) (v : Version) (a : Agent) : List Message → Prop where
  | outside : a.uuid ∉ σ.nodes → Standing σ v a []
  | waiting {rest : List Message} : a.uuid ∈ σ.nodes →
      σ.agent a.uuid = (poised σ.nodes v).agent a.uuid → v ∉ a.retired → a.peers.own = a.uuid →
      (a.uuid = v.initiator → a.nextVersion = v) → Sorts σ a.uuid rest →
      Standing σ v a (Wire.peerList v.initiator σ.nodes :: rest)
  | joined {inbox : List Message} : a.uuid ∈ σ.nodes → Resembles v (σ.agent a.uuid) a →
      (a.uuid = v.initiator → (σ.agent a.uuid).awaiting) → Sorts σ a.uuid inbox →
      Standing σ v a inbox

structure Regrouping (v : Version) (c : Cluster) (σ : Mesh) : Prop where
  sole : Sole v σ
  each : c.Each (Standing σ v)

variable {c next : Cluster} {σ : Mesh} {v : Version}

/-- A member to which others write, and nobody from outside. -/
theorem Standing.grow {a : Agent} {inbox : List Message} (h : Standing σ v a inbox) {τ : Mesh}
    (hn : τ.nodes = σ.nodes) (ha : τ.agent a.uuid = σ.agent a.uuid) {s : String} (hs : s ∈ σ.nodes)
    {ls : List Letter} (hls : ∀ l ∈ ls, l.message.source = s)
    (hc : ∀ b, τ.channel b a.uuid = σ.channel b a.uuid ++ if b = s then ls else [])
    (hout : a.uuid ∉ σ.nodes → ls = []) : Standing τ v a (inbox ++ ls.map Letter.message) := by
  cases h with
  | outside hu =>
    rw [hout hu]
    exact .outside (hn ▸ hu)
  | waiting hu hp hr ho hv hsorts =>
    have k := hsorts.append hn hs hls hc
    rw [List.cons_append, ← hn]
    rw [← hn] at hu hp
    exact .waiting hu (ha.trans hp) hr ho hv k
  | joined hu hlike hwait hsorts =>
    have k := hsorts.append hn hs hls hc
    rw [← ha] at hlike hwait
    exact .joined (hn ▸ hu) hlike hwait k

theorem letters_source {s r : String} {past : List Version} {effects : List Effect} :
    ∀ l ∈ letters s past effects r, l.message.source = s := by
  intro l hl
  obtain ⟨m, -, -, rfl⟩ := mem_letters.mp hl
  rfl

theorem letters_outside {s r : String} {past : List Version} {effects : List Effect}
    {nodes : List String} (h : ∀ p m, .send p m ∈ effects → p ∈ nodes) (hr : r ∉ nodes) :
    letters s past effects r = [] := by
  rw [List.eq_nil_iff_forall_not_mem]
  intro l hl
  obtain ⟨m, hm, -, -⟩ := mem_letters.mp hl
  exact hr (h r m hm)

/-- A node of the mesh acts, and the member that it stands for does the same. -/
theorem Regrouping.of_act {network : Network} (hd : c.Distinct) {i : Nat} {m : Member}
    (hm : c.members[i]? = some m) (hu : m.agent.uuid ∈ σ.nodes)
    (heach : Each { c with network } fun a inbox => a.uuid ≠ m.agent.uuid → Standing σ v a inbox)
    {e : Event} (hsole : Sole v (σ.step e)) {τ : Mesh} {took : Option (Version × Float)}
    {image : Agent} {sent : List Effect} (hstep : σ.step e = τ.act m.agent.uuid took image sent)
    (hnodes : τ.nodes = σ.nodes) (hagent : τ.agent = σ.agent)
    (hchannel : ∀ b r, r ≠ m.agent.uuid → τ.channel b r = σ.channel b r)
    (hsorts : Sorts τ m.agent.uuid (network.waiting m.inbox))
    (hrec : ∀ p content, .send p content ∈ sent → p ∈ σ.nodes)
    {next : Agent} {effects : List Effect} (hlike : Resembles v image next)
    (hwait : m.agent.uuid = v.initiator → image.awaiting)
    (hsame : ∀ past r, letters m.agent.uuid past effects r = letters m.agent.uuid past sent r) :
    Regrouping v ⟨c.members.set i (m.afterEffects next effects),
      deliverAll m.agent.uuid effects network⟩ (σ.step e) := by
  refine ⟨hsole, ?_⟩
  rw [hstep] at hsole ⊢
  have huuid : next.uuid = m.agent.uuid := by
    have himage := hsole.course.ledger.uuid m.agent.uuid
    rw [agent_act_self] at himage
    exact hlike.uuid.trans himage
  -- the member and the node may arm different timers, but they post the same letters
  have hgrown : ∀ b r, (τ.act m.agent.uuid took image sent).channel b r = τ.channel b r ++
      if b = m.agent.uuid then letters m.agent.uuid (τ.past m.agent.uuid) effects r else [] := by
    intro b r
    rw [channel_act, hsame]
  refine heach.act hd hm huuid (τ.past m.agent.uuid) ?_ fun k _ hne inbox hk => ?_
  · have k := hsorts.append (τ := τ.act m.agent.uuid took image sent) rfl (hnodes ▸ hu)
      letters_source fun b => hgrown b m.agent.uuid
    refine .joined ?_ ?_ ?_ ?_
    · rw [huuid]
      exact hnodes ▸ hu
    · rw [huuid, agent_act_self]
      exact hlike
    · rw [huuid, agent_act_self]
      exact hwait
    · rw [huuid]
      exact k
  · refine (hk hne).grow (τ := τ.act m.agent.uuid took image sent) hnodes ?_ hu letters_source
      (fun b => ?_) fun hout => ?_
    · rw [agent_act_ne τ hne, hagent]
    · rw [hgrown, hchannel b _ hne]
    · rw [hsame]
      exact letters_outside hrec hout

/-- The traffic of the new group. -/
theorem Regrouping.handle {network : Network} (h : Regrouping v c σ) (hd : c.Distinct) {i : Nat}
    {m : Member} (hm : c.members[i]? = some m) (hv : v.initiator ∈ σ.nodes) {message : Message}
    (heach : Each { c with network } fun a inbox => a.uuid ≠ m.agent.uuid → Standing σ v a inbox)
    (hu : m.agent.uuid ∈ σ.nodes) (hlike : Resembles v (σ.agent m.agent.uuid) m.agent)
    (hwait : m.agent.uuid = v.initiator → (σ.agent m.agent.uuid).awaiting)
    (hsorts : Sorts σ m.agent.uuid (message :: network.waiting m.inbox)) (x : Float) :
    ∃ τ, τ.nodes = σ.nodes ∧ Regrouping v
      ⟨c.members.set i
        (m.afterEffects (m.agent.handle x message).2.1 (m.agent.handle x message).2.2),
        deliverAll m.agent.uuid (m.agent.handle x message).2.2 network⟩ τ := by
  obtain ⟨l, hl, rfl, hrest⟩ := hsorts.first
  have hs : l.message.source ∈ σ.nodes := hsorts.known _ List.mem_cons_self
  have hmem := List.mem_of_getElem? hl
  have he : σ.Enabled (.receive l.message.source m.agent.uuid 0 x) :=
    ⟨hs, hu, (List.getElem?_eq_some_iff.mp hl).1⟩
  obtain ⟨hsame, hnext⟩ := hlike.handle (fun w => h.sole.tracks _) x (h.sole.within hmem)
  have hstep : σ.step (.receive l.message.source m.agent.uuid 0 x) =
      (σ.consume l.message.source m.agent.uuid 0 l).act m.agent.uuid
        ((l.notice?.bind ((σ.agent m.agent.uuid).meet l.message.source).takes?).map (·, x))
        ((σ.agent m.agent.uuid).handle x l.message).2.1
        ((σ.agent m.agent.uuid).handle x l.message).2.2 := by
    simp only [Mesh.step, hl]
  have hsole := h.sole.step he trivial fun b module y heq => by cases heq
  refine ⟨_, Mesh.nodes_step σ _, Regrouping.of_act hd hm hu heach hsole hstep rfl rfl
    (fun b r hne => ?_) hrest (fun p content => h.sole.receiver hv hu hmem x) hnext
    (fun hA => ?_) fun past r => ?_⟩
  · exact if_neg fun hx => hne hx.2
  · have haw := (Agent.awaiting_iff _).mp (hwait hA)
    have hcur := Mesh.Asking.current_eq h.sole.course.ledger he trivial (hwait hA)
    have huuid := hsole.course.ledger.uuid m.agent.uuid
    rw [hstep, agent_act_self] at hcur huuid
    rw [h.sole.course.ledger.uuid] at haw
    rw [Agent.awaiting_iff, hcur, huuid]
    exact haw
  · rw [hsame]

theorem letters_initiate {a b : Agent} (hu : b.uuid = a.uuid) (hp : b.peers = a.peers)
    (hs : b.started = a.started) (x : Float) (s : String) (past : List Version) (r : String) :
    letters s past (b.initiate x).2 r = letters s past (a.initiate x).2 r := by
  have hnext : b.nextVersion = a.nextVersion := by
    rw [Agent.nextVersion, Agent.nextVersion, hu, hs]
  have hothers : b.toOthers (Wire.marker b.nextVersion) =
      a.toOthers (Wire.marker a.nextVersion) := by
    rw [hnext, Agent.toOthers, Agent.toOthers, hp]
  unfold Agent.initiate
  rw [letters_append, letters_append, hothers]
  rfl

/-- The leader starts its snapshot when it has the list itself. -/
theorem Regrouping.lead {network : Network} (h : Regrouping v c σ) (hd : c.Distinct)
    (hbound : v.sequence ≤ Decimal.maxU64) {i : Nat} {m : Member} (hm : c.members[i]? = some m)
    (heach : Each { c with network } fun a inbox => a.uuid ≠ m.agent.uuid → Standing σ v a inbox)
    (hu : m.agent.uuid ∈ σ.nodes)
    (hp : σ.agent m.agent.uuid = (poised σ.nodes v).agent m.agent.uuid)
    (hr : v ∉ m.agent.retired) (hA : m.agent.uuid = v.initiator) (hnext : m.agent.nextVersion = v)
    (hsorts : Sorts σ m.agent.uuid (network.waiting m.inbox)) (x : Float) :
    ∃ τ, τ.nodes = σ.nodes ∧ Regrouping v
      ⟨c.members.set i (m.afterEffects ((m.agent.regroup σ.nodes).initiate x).1
        ((m.agent.regroup σ.nodes).initiate x).2),
        deliverAll m.agent.uuid ((m.agent.regroup σ.nodes).initiate x).2 network⟩ τ := by
  have hseq : m.agent.started + 1 = v.sequence := congrArg Version.sequence hnext
  have himage : (σ.agent m.agent.uuid).nextVersion = v := by
    rw [hp, hA]
    exact Mesh.poised_nextVersion σ.nodes (by omega)
  have hstarted : (σ.agent m.agent.uuid).started = m.agent.started := by
    have himageseq : (σ.agent m.agent.uuid).started + 1 = v.sequence :=
      congrArg Version.sequence himage
    omega
  have he : σ.Enabled (.request m.agent.uuid "" x) := ⟨hu, by omega⟩
  have hidle : σ.Asking (.request m.agent.uuid "" x) := by
    change (σ.agent m.agent.uuid).markers = []
    rw [hp]
    rfl
  have hsole : Sole v (σ.step (.request m.agent.uuid "" x)) :=
    h.sole.step he hidle fun b module y heq => by
      obtain ⟨rfl, -, -⟩ := Event.request.inj heq
      exact himage
  have huuid : (m.agent.regroup σ.nodes).uuid = (σ.agent m.agent.uuid).uuid :=
    (h.sole.course.ledger.uuid m.agent.uuid).symm
  have hpeers : (m.agent.regroup σ.nodes).peers = (σ.agent m.agent.uuid).peers :=
    (h.sole.course.ledger.peers m.agent.uuid).symm
  have hstep : σ.step (.request m.agent.uuid "" x) =
      σ.act m.agent.uuid (some ((σ.agent m.agent.uuid).nextVersion, x))
        ((σ.agent m.agent.uuid).request x "").1 ((σ.agent m.agent.uuid).request x "").2 := rfl
  refine ⟨_, Mesh.nodes_step σ _, Regrouping.of_act hd hm hu heach hsole hstep rfl rfl
    (fun b r hne => rfl) hsorts (fun p content hsent => ?_) ?_ (fun _ => ?_) fun past r => ?_⟩
  · rcases List.mem_append.mp hsent with hsent | hsent
    · obtain ⟨q, hq, heq⟩ := List.mem_map.mp hsent
      obtain ⟨rfl, -⟩ := Effect.send.inj heq
      change q ∈ (σ.agent m.agent.uuid).peers.others at hq
      rw [h.sole.course.ledger.peers] at hq
      exact ((Group.mem_others_ofList hu q).mp hq).1
    · cases List.mem_singleton.mp hsent
  · refine Resembles.initiate (a := { σ.agent m.agent.uuid with requester := some "" }) huuid
      hpeers hstarted.symm ?_ x
    change v ∈ m.agent.retired ↔ v ∈ (σ.agent m.agent.uuid).retired
    rw [hp]
    exact iff_of_false hr List.not_mem_nil
  · exact Agent.awaiting_of_nextVersion (a := σ.agent m.agent.uuid) rfl
      ((σ.agent m.agent.uuid).request_starts x "").current
  · exact letters_initiate huuid hpeers hstarted.symm x _ past r

/-- Any other node of the list drops what it had, and sends nothing. -/
theorem Regrouping.join {network : Network} (h : Regrouping v c σ) (hd : c.Distinct) {i : Nat}
    {m : Member} (hm : c.members[i]? = some m)
    (heach : Each { c with network } fun a inbox => a.uuid ≠ m.agent.uuid → Standing σ v a inbox)
    (hu : m.agent.uuid ∈ σ.nodes)
    (hp : σ.agent m.agent.uuid = (poised σ.nodes v).agent m.agent.uuid)
    (hr : v ∉ m.agent.retired) (hA : m.agent.uuid ≠ v.initiator)
    (hsorts : Sorts σ m.agent.uuid (network.waiting m.inbox)) :
    Regrouping v ⟨c.members.set i
      (m.afterEffects { (m.agent.regroup σ.nodes).clear with current := .sentinel } []),
      deliverAll m.agent.uuid [] network⟩ σ := by
  have huuid : ({ (m.agent.regroup σ.nodes).clear with current := .sentinel } : Agent).uuid =
      m.agent.uuid := rfl
  refine ⟨h.sole, heach.act hd hm huuid [] ?_ fun k _ hne inbox hk => ?_⟩
  · have hlike : Resembles v (σ.agent m.agent.uuid)
        { (m.agent.regroup σ.nodes).clear with current := .sentinel } := by
      rw [hp]
      exact ⟨rfl, rfl, rfl, rfl, rfl, rfl, iff_of_false hr List.not_mem_nil⟩
    rw [show letters m.agent.uuid [] [] m.agent.uuid = [] from rfl, List.map_nil, List.append_nil]
    exact .joined hu hlike (fun heq => absurd heq hA) hsorts
  · rw [show letters m.agent.uuid [] [] k.agent.uuid = [] from rfl, List.map_nil, List.append_nil]
    exact hk hne

theorem receive_uuids {i : Nat} {result : String × Except WireError Unit}
    (hr : c.receive? i = some (result, next)) :
    next.members.map (fun m => m.agent.uuid) = c.members.map fun m => m.agent.uuid := by
  obtain ⟨m, message, network, hm, -, rfl⟩ := receive?_eq hr
  exact uuids_set hm (Agent.serve_serving m.agent (.message message m.reading)).uuid

theorem Proceeds.uuids {peers : List String} (h : Proceeds peers c next) :
    next.members.map (fun m => m.agent.uuid) = c.members.map fun m => m.agent.uuid := by
  cases h with
  | receive hr => exact receive_uuids hr
  | payload hs hr hval htag => rfl
  | refit i f => exact refit_uuids c i f

theorem Regrouping.receive (h : Regrouping v c σ) (hd : c.Distinct)
    (hbound : v.sequence ≤ Decimal.maxU64) (hv : v.initiator ∈ σ.nodes)
    (hnames : ∀ p ∈ σ.nodes, p ≠ "" ∧ Text.trim p = p ∧ ',' ∉ p.toList) {i : Nat}
    {result : String × Except WireError Unit} (hr : c.receive? i = some (result, next)) :
    ∃ τ, τ.nodes = σ.nodes ∧ Regrouping v next τ := by
  obtain ⟨m, message, network, hm, hnext, rfl⟩ := receive?_eq hr
  obtain ⟨hp, heach⟩ := h.each.next hm hnext
  generalize hrest : network.waiting m.inbox = rest at hp
  -- whoever has not joined yet has the list before everything else
  cases hp with
  | waiting hu hpoised hret hown hfirst hsorts =>
    subst hrest
    have hlist := Agent.handle_peerList hown v.initiator (List.ne_nil_of_mem hv) hnames m.reading
    rw [hlist]
    by_cases hA : v.initiator = m.agent.uuid
    · rw [if_pos hA]
      exact h.lead hd hbound hm heach hu hpoised hret hA.symm (hfirst hA.symm) hsorts m.reading
    · rw [if_neg hA]
      exact ⟨σ, rfl, h.join hd hm heach hu hpoised hret (Ne.symm hA) hsorts⟩
  | joined hu hlike hwait hsorts =>
    subst hrest
    exact h.handle hd hm hv heach hu hlike hwait hsorts m.reading

theorem Regrouping.payload (h : Regrouping v c σ) {s r value : String} {tag : Option Version}
    (he : σ.Enabled (.payload s r value tag)) :
    Regrouping v (c.payload s r value tag) (σ.step (.payload s r value tag)) := by
  refine ⟨h.sole.step he trivial (fun b module y heq => by cases heq),
    h.each.deliver r _ fun m _ inbox hk => ?_⟩
  let l : Letter := ⟨Network.stamp s (Wire.payload s value tag), σ.past s⟩
  have hserved : served l.message := served_of_mem (Wire.payload_handlerKeys s value tag)
  have hpost : (if r = m.agent.uuid ∧ served l.message then [l.message] else []) =
      (if r = m.agent.uuid then [l] else []).map Letter.message := by
    by_cases hr : r = m.agent.uuid <;> simp [hr, hserved]
  change Standing _ v m.agent
    (inbox ++ if r = m.agent.uuid ∧ served l.message then [l.message] else [])
  rw [hpost]
  refine hk.grow (τ := σ.step (.payload s r value tag)) rfl rfl he.1 (fun l' hl' => ?_)
    (fun b => ?_) fun hout => ?_
  · split at hl'
    · rw [List.mem_singleton.mp hl']
      rfl
    · cases hl'
  · change (if b = s ∧ m.agent.uuid = r then _ ++ [l] else _) = _
    by_cases hb : b = s <;> by_cases hr : m.agent.uuid = r <;> simp [hb, hr, eq_comm (a := r)]
  · exact if_neg fun hr : r = m.agent.uuid => hout (hr ▸ he.2.1)

theorem Regrouping.step (h : Regrouping v c σ) (hd : c.Distinct)
    (hbound : v.sequence ≤ Decimal.maxU64) (hv : v.initiator ∈ σ.nodes)
    (hnames : ∀ p ∈ σ.nodes, p ≠ "" ∧ Text.trim p = p ∧ ',' ∉ p.toList)
    (hp : Proceeds σ.nodes c next) : ∃ τ, τ.nodes = σ.nodes ∧ Regrouping v next τ := by
  cases hp with
  | receive hr => exact h.receive hd hbound hv hnames hr
  | payload hs hr hval htag => exact ⟨_, Mesh.nodes_step σ _, h.payload ⟨hs, hr, hval, htag⟩⟩
  | refit i f => exact ⟨σ, rfl, h.sole, h.each.refit i f⟩

/-- Every node of a list without repetitions is sent one copy. -/
theorem Each.deliverEach {P Q : Agent → List Message → Prop} (h : c.Each P) {ps : List String}
    (hn : ps.Nodup) {message : Message} (hs : served message)
    (hPQ : ∀ m ∈ c.members, ∀ inbox, P m.agent inbox →
      Q m.agent (inbox ++ if m.agent.uuid ∈ ps then [message] else [])) :
    Cluster.Each { c with network := ps.foldl (fun n p => n.deliver p message) c.network } Q := by
  induction ps generalizing c P with
  | nil =>
    refine h.mono fun m hm inbox hp => ?_
    have hq := hPQ m hm inbox hp
    rwa [if_neg List.not_mem_nil, List.append_nil] at hq
  | cons p rest ih =>
    obtain ⟨hp, hn⟩ := List.nodup_cons.mp hn
    have hfirst := h.deliver (Q := fun a inbox =>
      Q a (inbox ++ if a.uuid ∈ rest then [message] else [])) p message fun m hm inbox hk => by
        have hq := hPQ m hm inbox hk
        by_cases hpm : p = m.agent.uuid
        · subst hpm
          simpa [hs, hp] using hq
        · simpa [hpm, Ne.symm hpm] using hq
    exact ih hfirst hn fun m _ inbox hk => hk

theorem announce_regrouping (hf : Fresh c) (hidle : c.Drained) {leader : Member}
    (hl : leader ∈ c.members) {peers : List String} (hn : peers.Nodup)
    (hlead : leader.agent.uuid ∈ peers) (hstarted : leader.agent.started < Decimal.maxU64) :
    Regrouping leader.agent.nextVersion (c.announce leader.agent.uuid peers)
      (poised peers leader.agent.nextVersion) := by
  have hmem : ∀ p, p ∈ peers.filter (· ≠ leader.agent.uuid) ++ [leader.agent.uuid] ↔ p ∈ peers := by
    intro p
    rw [List.mem_append, List.mem_filter, decide_eq_true_eq, List.mem_singleton]
    refine ⟨fun h => h.elim And.left fun he => he ▸ hlead, fun hp => ?_⟩
    by_cases he : p = leader.agent.uuid
    · exact Or.inr he
    · exact Or.inl ⟨hp, he⟩
  have hnodup : (peers.filter (· ≠ leader.agent.uuid) ++ [leader.agent.uuid]).Nodup := by
    refine (hn.filter _).append (List.nodup_singleton _) (List.disjoint_singleton.mpr fun h => ?_)
    exact of_decide_eq_true (List.mem_filter.mp h).2 rfl
  have hserved : served (Wire.peerList leader.agent.uuid peers) := by
    have hkey := Wire.peerList_handlerKeys leader.agent.uuid peers
    simp [served, handlerKeys, hkey]
  refine ⟨Mesh.poised_sole hn hstarted, ?_⟩
  refine Each.deliverEach (P := fun a inbox => Informed c.members a inbox ∧ inbox = []) ?_ hnodup
    hserved fun m hm inbox hk => ?_
  · intro i m hm
    obtain ⟨hinbox, hsub, hp⟩ := hf.each.subscribed hm
    exact ⟨hinbox, _, hsub, hp, hidle m (List.mem_of_getElem? hm)⟩
  · obtain ⟨hinformed, rfl⟩ := hk
    rw [List.nil_append]
    by_cases hu : m.agent.uuid ∈ peers
    · rw [if_pos ((hmem _).mpr hu)]
      refine .waiting hu rfl (fun hr => ?_) hinformed.own (fun hA => ?_)
        ⟨fun n hn => absurd hn List.not_mem_nil, fun s hs => rfl⟩
      · exact hf.nextVersion_unknown hl hm (Or.inr hr)
      · obtain ⟨i, hi⟩ := List.mem_iff_getElem?.mp hm
        obtain ⟨j, hj⟩ := List.mem_iff_getElem?.mp hl
        obtain rfl := hf.distinct.index hi hj hA
        obtain rfl := Option.some.inj (hi.symm.trans hj)
        rfl
    · rw [if_neg fun hr => hu ((hmem _).mp hr)]
      exact .outside hu

/-- When nothing is under way, every node of the list is in the new group. -/
theorem Regrouping.settled (h : Regrouping v c σ) (hdone : c.Drained)
    (hmembers : ∀ p ∈ σ.nodes, ∃ m ∈ c.members, m.agent.uuid = p) :
    σ.Drained ∧ ∀ m ∈ c.members, m.agent.uuid ∈ σ.nodes →
      Resembles v (σ.agent m.agent.uuid) m.agent ∧
        (m.agent.uuid = v.initiator → (σ.agent m.agent.uuid).awaiting) := by
  have key : ∀ m ∈ c.members, m.agent.uuid ∈ σ.nodes →
      (Resembles v (σ.agent m.agent.uuid) m.agent ∧
        (m.agent.uuid = v.initiator → (σ.agent m.agent.uuid).awaiting)) ∧
        Sorts σ m.agent.uuid [] := by
    intro m hm hu
    have hstanding := h.each.waiting hm
    rw [hdone m hm] at hstanding
    cases hstanding with
    | outside hout => exact absurd hu hout
    | joined _ hlike hwait hsorts => exact ⟨⟨hlike, hwait⟩, hsorts⟩
  refine ⟨fun s hs r hr => ?_, fun m hm hu => (key m hm hu).1⟩
  obtain ⟨m, hm, rfl⟩ := hmembers r hr
  exact List.map_eq_nil_iff.mp ((key m hm hr).2.channel s hs).symm

/-- The members of the list count with each other, and only the leader has anything in progress. -/
theorem Regrouping.agrees (h : Regrouping v c σ) (hdone : c.Drained)
    (hmembers : ∀ p ∈ σ.nodes, ∃ m ∈ c.members, m.agent.uuid = p) {m : Member}
    (hm : m ∈ c.members) (hu : m.agent.uuid ∈ σ.nodes) :
    (∀ p, p ∈ m.agent.peers.members ↔ p ∈ σ.nodes) ∧ m.agent.peers.size = σ.nodes.length ∧
      (m.agent.uuid ≠ v.initiator → Quiet m.agent) := by
  obtain ⟨hdrained, hjoined⟩ := h.settled hdone hmembers
  obtain ⟨hlike, -⟩ := hjoined m hm hu
  have hcourse := h.sole.course
  rw [hlike.peers, hcourse.ledger.peers]
  refine ⟨Group.mem_ofList hu, Group.size_ofList hu hcourse.ledger.nodup, fun hne => ?_⟩
  have hquiet := hcourse.quiet hdrained hu (h.sole.not_awaiting hne)
  exact ⟨hlike.current.trans hquiet.1, hlike.markers.trans hquiet.2⟩

/-- The leader has a marker and one reading of everybody, and its snapshot is complete. -/
theorem Regrouping.gathers (h : Regrouping v c σ) (hdone : c.Drained)
    (hmembers : ∀ p ∈ σ.nodes, ∃ m ∈ c.members, m.agent.uuid = p) (htwo : 2 ≤ σ.nodes.length)
    {i : Nat} {m : Member} (hm : c.members[i]? = some m) (hu : m.agent.uuid ∈ σ.nodes)
    (hA : m.agent.uuid = v.initiator) :
    m.agent.awaiting ∧ m.agent.current = v ∧ m.agent.markerCount v = σ.nodes.length ∧
      (∀ p, (m.agent.fragments v).countP (Fragment.reads p fun _ => true) =
        if p ∈ σ.nodes then 1 else 0) ∧
      (c.timer i .expired).1 = some (.complete m.agent.answer) := by
  obtain ⟨hdrained, hjoined⟩ := h.settled hdone hmembers
  obtain ⟨hlike, hwait⟩ := hjoined m (List.mem_of_getElem? hm) hu
  have hcourse := h.sole.course
  have haw := hwait hA
  have hcur := h.sole.tracks _ ((hcourse.ledger.sound _).awaiting_tracks haw)
  have hg := hcourse.gathered hdrained htwo hu haw
  rw [hcur] at hg
  have hown := (Agent.awaiting_iff _).mp haw
  rw [hcourse.ledger.uuid, ← hlike.current] at hown
  have hcount := (hlike.markerCount v).trans hg.markerCount
  have hsize : m.agent.peers.size ≤ m.agent.markerCount m.agent.current := by
    rw [hlike.current, hcur, hcount, hlike.peers]
    exact Nat.le_of_eq (hcourse.ledger.own_peer hu)
  have hmwait := m.agent.awaiting_iff.mpr hown
  refine ⟨hmwait, hlike.current.trans hcur, hcount, fun p => ?_, ?_⟩
  · rw [hlike.fragments]
    exact hg.readings p
  · rw [Cluster.timer, Cluster.act, hm]
    exact (Agent.onTimer_complete hmwait hsize).1

/-- However the members take turns, the new group stays a mesh of its own. -/
theorem Fresh.regrouping (hf : Fresh c) (hidle : c.Drained) {leader : Member}
    (hl : leader ∈ c.members) {peers : List String} (hn : peers.Nodup)
    (hlead : leader.agent.uuid ∈ peers)
    (hnames : ∀ p ∈ peers, p ≠ "" ∧ Text.trim p = p ∧ ',' ∉ p.toList)
    (hstarted : leader.agent.started < Decimal.maxU64)
    (hrun : Relation.ReflTransGen (Proceeds peers) (c.announce leader.agent.uuid peers) next) :
    next.members.map (fun m => m.agent.uuid) = c.members.map (fun m => m.agent.uuid) ∧
      ∃ σ, σ.nodes = peers ∧ Regrouping leader.agent.nextVersion next σ := by
  induction hrun with
  | refl => exact ⟨rfl, _, rfl, announce_regrouping hf hidle hl hn hlead hstarted⟩
  | @tail d _ _ hlast ih =>
    obtain ⟨huuids, σ, rfl, h⟩ := ih
    have hd : d.Distinct := by
      unfold Distinct
      rw [huuids]
      exact hf.distinct
    obtain ⟨τ, hnodes, k⟩ := h.step hd hstarted hlead hnames hlast
    exact ⟨hlast.uuids.trans huuids, τ, hnodes, k⟩

/-- Whatever peers the nodes of a cluster count with, a peer list that is sent to all of the list,
the leader last of all, makes them the peers of each other, and the leader gathers a snapshot of
them that nobody knew of before. -/
theorem peer_list_agreement (hr : c.Reachable) (hidle : c.Drained) {i : Nat} {leader : Member}
    (hi : c.members[i]? = some leader) {peers : List String} (hn : peers.Nodup)
    (htwo : 2 ≤ peers.length) (hlead : leader.agent.uuid ∈ peers)
    (hmembers : ∀ p ∈ peers, ∃ m ∈ c.members, m.agent.uuid = p)
    (hnames : ∀ p ∈ peers, p ≠ "" ∧ Text.trim p = p ∧ ',' ∉ p.toList)
    (hstarted : leader.agent.started < Decimal.maxU64)
    (hrun : Relation.ReflTransGen (Proceeds peers) (c.announce leader.agent.uuid peers) next)
    (hdone : next.Drained) :
    (∀ m ∈ c.members, ¬ m.agent.Knows leader.agent.nextVersion) ∧
      (∀ m ∈ next.members, m.agent.uuid ∈ peers →
        (∀ p, p ∈ m.agent.peers.members ↔ p ∈ peers) ∧ m.agent.peers.size = peers.length ∧
          (m.agent.uuid ≠ leader.agent.uuid → Quiet m.agent)) ∧
      ∃ m, next.members[i]? = some m ∧ m.agent.uuid = leader.agent.uuid ∧ m.agent.awaiting ∧
        m.agent.current = leader.agent.nextVersion ∧
        m.agent.markerCount leader.agent.nextVersion = peers.length ∧
        (∀ p, (m.agent.fragments leader.agent.nextVersion).countP
          (Fragment.reads p fun _ => true) = if p ∈ peers then 1 else 0) ∧
        (next.timer i .expired).1 = some (.complete m.agent.answer) := by
  have hf := hr.fresh
  have hl := List.mem_of_getElem? hi
  obtain ⟨huuids, σ, rfl, h⟩ := hf.regrouping hidle hl hn hlead hnames hstarted hrun
  have hstill : ∀ p ∈ σ.nodes, ∃ m ∈ next.members, m.agent.uuid = p := by
    intro p hp
    obtain ⟨m, hm, rfl⟩ := hmembers p hp
    exact List.mem_map.mp (huuids ▸ List.mem_map_of_mem hm)
  refine ⟨fun m hm => hf.nextVersion_unknown hl hm, fun m hm hu => h.agrees hdone hstill hm hu, ?_⟩
  have hname := congrArg (fun us => us[i]?) huuids
  rw [List.getElem?_map, List.getElem?_map, hi] at hname
  obtain ⟨m, hm, hu : m.agent.uuid = leader.agent.uuid⟩ := Option.map_eq_some_iff.mp hname
  exact ⟨m, hm, hu, h.gathers hdone hstill htwo hm (hu ▸ hlead) hu⟩

/-- Lets members handle one message each, in the order given. -/
def driven (c : Cluster) (turns : List Nat) : Cluster :=
  turns.foldl (fun c i => ((c.receive? i).map Prod.snd).getD c) c

theorem driven_proceeds (peers : List String) (c : Cluster) (turns : List Nat) :
    Relation.ReflTransGen (Proceeds peers) c (c.driven turns) := by
  induction turns generalizing c with
  | nil => exact .refl
  | cons i rest ih =>
    refine Relation.ReflTransGen.trans ?_ (ih _)
    dsimp only
    cases hr : c.receive? i with
    | none => exact .refl
    | some r => exact .single (.receive hr)

/-- Four nodes that do not agree on their peers. -/
def motley : Cluster :=
  found (fun u => if u = "a" then ["d"] else if u = "c" then ["a", "b"] else []) (fun _ => {})
    (fun _ => {}) ["a", "b", "c", "d"]

/-- The second of the four makes a group of the first three. -/
def trio : Cluster :=
  (motley.announce "b" ["c", "a", "b"]).driven [0, 1, 2, 0, 2, 1, 1, 0, 2, 0, 1, 2, 1, 1]

/-- The three nodes, put to the general statement. -/
theorem trio_agreement :
    (motley.members.map fun m => m.agent.peers.members) =
        [["a", "d"], ["b"], ["a", "b", "c"], ["d"]] ∧
      (∀ m ∈ trio.members, m.agent.uuid ∈ ["c", "a", "b"] → m.agent.peers.size = 3 ∧
        (m.agent.uuid ≠ "b" → Quiet m.agent)) ∧
      ∃ m, trio.members[1]? = some m ∧ m.agent.current = ⟨"b", 1⟩ ∧
        m.agent.markerCount ⟨"b", 1⟩ = 3 ∧
        (trio.timer 1 .expired).1 = some (.complete m.agent.answer) := by
  have hreach : motley.Reachable := ⟨_, _, _, _, by decide, .refl⟩
  have hidle : motley.Drained := by decide +kernel
  have hdone : trio.Drained := by decide +kernel
  have hleader : motley.members[1]? =
      some { agent := Agent.new "b" {} [], inventory := {}, inbox := 1 } := rfl
  have hmembers : ∀ p ∈ ["c", "a", "b"], ∃ m ∈ motley.members, m.agent.uuid = p := by decide +kernel
  have hnames : ∀ p ∈ ["c", "a", "b"], p ≠ "" ∧ Text.trim p = p ∧ ',' ∉ p.toList := by
    decide +kernel
  obtain ⟨-, hall, m, hm, -, -, hcur, hcount, -, hreport⟩ :=
    peer_list_agreement hreach hidle hleader (by decide) (by decide) (by decide) hmembers hnames
      (by decide) (driven_proceeds _ _ _) hdone
  refine ⟨by decide +kernel, fun m hm hu => (hall m hm hu).2, m, hm, hcur, hcount, hreport⟩

end Cluster

end PhasedGrid.Snapshot
