import Mathlib.Data.List.Induction
import Mathlib.Logic.Relation
import PhasedGrid.Proofs.Mesh.Ledger
import PhasedGrid.Snapshot.Cluster

/-!
A cluster on one network behaves as a mesh with first-in-first-out channels: of what waits in an
inbox, the messages of one sender are the channel from that sender.
-/

namespace PhasedGrid.Snapshot

set_option autoImplicit false

open PhasedGrid.Device (Inventory)
open PhasedGrid.Peer (Message Network Subscription)
open PhasedGrid.Schedule (TimerStatus)
open Mesh (Ledger InOrder channel_act agent_act_self agent_act_ne)

theorem Wire.payload_handlerKeys (source value : String) (tag : Option Version) :
    "sc" ∈ (payload source value tag).handlerKeys := by
  refine mem_handlerKeys "sc" value ?_
  cases tag <;> simp [payload, get?_put]

def subscription (uuid : String) (inbox : List Message) : Subscription :=
  ⟨uuid, handlerKeys, true, true, inbox⟩

theorem offer_subscription (uuid r : String) (inbox : List Message) (m : Message) :
    (subscription uuid inbox).offer r m =
      subscription uuid (inbox ++ if r = uuid ∧ served m then [m] else []) := by
  have htakes : (subscription uuid inbox).takes r m = decide (r = uuid ∧ served m) := by
    change (true && decide (uuid = r) && served m && true) = _
    by_cases hr : r = uuid
    · subst hr
      simp
    · simp [hr, Ne.symm hr]
  unfold Subscription.offer
  rw [htakes]
  by_cases h : r = uuid ∧ served m
  · simp [h, subscription]
  · simp [h]

namespace Cluster

/-- What a member sends reaches an inbox as the letters to its owner. -/
theorem deliverAll_subscription {n : Network} {i : Nat} {uuid : String} {inbox : List Message}
    (h : n.subscriptions[i]? = some (subscription uuid inbox)) (s : String) (past : List Version)
    (effects : List Effect) : (deliverAll s effects n).subscriptions[i]? =
      some (subscription uuid (inbox ++ (letters s past effects uuid).map Letter.message)) := by
  induction effects generalizing n inbox with
  | nil => simpa [deliverAll, letters] using h
  | cons e rest ih =>
    cases e with
    | arm delay => exact ih h
    | send r m =>
      have hnext : (n.deliver r (Network.stamp s m)).subscriptions[i]? =
          some (subscription uuid (inbox ++ if r = uuid ∧ served m then [Network.stamp s m]
            else [])) := by
        rw [Network.deliver, List.getElem?_map, h, Option.map_some, offer_subscription]
        rfl
      have hrest := ih hnext
      rw [List.append_assoc] at hrest
      have hletters : (letters s past (.send r m :: rest) uuid).map Letter.message =
          (if r = uuid ∧ served m then [Network.stamp s m] else []) ++
            (letters s past rest uuid).map Letter.message := by
        by_cases hr : r = uuid ∧ served m <;> simp [letters, hr]
      rw [hletters]
      exact hrest

/-- What waits for a node comes from nodes, and from each in the order of its channel. -/
structure Sorts (σ : Mesh) (uuid : String) (inbox : List Message) : Prop where
  known : ∀ m ∈ inbox, m.source ∈ σ.nodes
  channel : ∀ s ∈ σ.nodes,
    inbox.filter (fun m => m.source = s) = (σ.channel s uuid).map Letter.message

/-- The members of a cluster are the nodes of a mesh. -/
structure Shows (c : Cluster) (σ : Mesh) : Prop where
  nodes : c.members.map (fun m => m.agent.uuid) = σ.nodes
  member : ∀ i (m : Member), c.members[i]? = some m → m.agent = σ.agent m.agent.uuid ∧ m.inbox = i ∧
    ∃ inbox, c.network.subscriptions[i]? = some (subscription m.agent.uuid inbox) ∧
      Sorts σ m.agent.uuid inbox

variable {c : Cluster} {σ : Mesh}

theorem Shows.mem_nodes (h : Shows c σ) {i : Nat} {m : Member} (hm : c.members[i]? = some m) :
    m.agent.uuid ∈ σ.nodes := by
  rw [← h.nodes]
  exact List.mem_map_of_mem (List.mem_of_getElem? hm)

theorem Shows.uuid_inj (h : Shows c σ) (hn : σ.nodes.Nodup) {i j : Nat} {m k : Member}
    (hm : c.members[i]? = some m) (hk : c.members[j]? = some k)
    (heq : m.agent.uuid = k.agent.uuid) : i = j := by
  rw [← h.nodes] at hn
  have hi := (List.getElem?_eq_some_iff.mp hm).1
  refine (List.getElem?_inj (by rwa [List.length_map]) hn).mp ?_
  rw [List.getElem?_map, List.getElem?_map, hm, hk]
  exact congrArg some heq

theorem Sorts.append {uuid : String} {inbox : List Message} (h : Sorts σ uuid inbox)
    {τ : Mesh} (hn : τ.nodes = σ.nodes) {s : String} (hs : s ∈ σ.nodes) {ls : List Letter}
    (hls : ∀ l ∈ ls, l.message.source = s)
    (hc : ∀ b, τ.channel b uuid = σ.channel b uuid ++ if b = s then ls else []) :
    Sorts τ uuid (inbox ++ ls.map Letter.message) := by
  constructor
  · intro m hm
    rw [hn]
    rcases List.mem_append.mp hm with hm | hm
    · exact h.known m hm
    · obtain ⟨l, hl, rfl⟩ := List.mem_map.mp hm
      exact (hls l hl) ▸ hs
  · intro b hb
    rw [List.filter_append, h.channel b (hn ▸ hb), hc b, List.map_append]
    congr 1
    by_cases hbs : b = s
    · subst hbs
      rw [if_pos rfl, List.filter_eq_self]
      intro m hm
      obtain ⟨l, hl, rfl⟩ := List.mem_map.mp hm
      exact decide_eq_true (hls l hl)
    · rw [if_neg hbs, List.map_nil, List.filter_eq_nil_iff]
      intro m hm
      obtain ⟨l, hl, rfl⟩ := List.mem_map.mp hm
      rw [hls l hl]
      exact fun he => hbs (of_decide_eq_true he).symm

theorem Shows.act (h : Shows c σ) (hn : σ.nodes.Nodup) {i : Nat} {m : Member}
    (hm : c.members[i]? = some m) {next : Agent} (hu : next.uuid = m.agent.uuid)
    (took : Option (Version × Float)) (effects : List Effect) :
    Shows ⟨c.members.set i (m.afterEffects next effects),
      deliverAll m.agent.uuid effects c.network⟩ (σ.act m.agent.uuid took next effects) := by
  have hi := (List.getElem?_eq_some_iff.mp hm).1
  have hletters : ∀ u, ∀ l ∈ letters m.agent.uuid (σ.past m.agent.uuid) effects u,
      l.message.source = m.agent.uuid := by
    intro u l hl
    obtain ⟨e, -, -, rfl⟩ := mem_letters.mp hl
    rfl
  have hgrown : ∀ u inbox, Sorts σ u inbox → Sorts (σ.act m.agent.uuid took next effects) u
      (inbox ++ (letters m.agent.uuid (σ.past m.agent.uuid) effects u).map Letter.message) :=
    fun u inbox hs => hs.append (τ := σ.act m.agent.uuid took next effects) rfl (h.mem_nodes hm)
      (hletters u) fun b => channel_act _ _ _ _ _ _ _
  constructor
  · refine (List.ext_getElem? fun j => ?_).trans h.nodes
    rw [List.map_set, List.getElem?_set]
    by_cases hij : i = j
    · subst hij
      rw [if_pos rfl, if_pos (by rwa [List.length_map]), List.getElem?_map, hm]
      exact congrArg some hu
    · rw [if_neg hij]
  · intro j k hk
    rw [List.getElem?_set] at hk
    by_cases hij : i = j
    · subst hij
      rw [if_pos rfl, if_pos hi] at hk
      obtain rfl := Option.some.inj hk
      obtain ⟨-, hinbox, inbox, hsub, hsorts⟩ := h.member i m hm
      have huid : (m.afterEffects next effects).agent.uuid = m.agent.uuid := hu
      rw [huid]
      exact ⟨(agent_act_self σ _ _ next effects).symm, hinbox, _,
        deliverAll_subscription hsub m.agent.uuid (σ.past m.agent.uuid) effects, hgrown _ _ hsorts⟩
    · rw [if_neg hij] at hk
      obtain ⟨hagent, hinbox, inbox, hsub, hsorts⟩ := h.member j k hk
      refine ⟨?_, hinbox, _, deliverAll_subscription hsub m.agent.uuid (σ.past m.agent.uuid) effects,
        hgrown _ _ hsorts⟩
      rw [agent_act_ne]
      · exact hagent
      · exact fun he => hij (h.uuid_inj hn hm hk he.symm)

/-- The first message of an inbox is the first letter of its sender's channel. -/
theorem Sorts.first {uuid : String} {message : Message} {rest : List Message}
    (h : Sorts σ uuid (message :: rest)) : ∃ l, (σ.channel message.source uuid)[0]? = some l ∧
      l.message = message ∧ Sorts (σ.consume message.source uuid 0 l) uuid rest := by
  have hs := h.known message List.mem_cons_self
  have hfirst := h.channel message.source hs
  rw [List.filter_cons_of_pos (by simp)] at hfirst
  obtain ⟨l, ls, hls, hl, hrest⟩ := List.map_eq_cons_iff.mp hfirst.symm
  refine ⟨l, by rw [hls]; rfl, hl, fun m hm => h.known m (List.mem_cons_of_mem _ hm), fun s hs' => ?_⟩
  change _ = (if s = message.source ∧ uuid = uuid then _ else _ : List Letter).map _
  by_cases hsm : s = message.source
  · subst hsm
    rw [if_pos ⟨rfl, rfl⟩, hls]
    exact hrest.symm
  · rw [if_neg fun hx => hsm hx.1, ← h.channel s hs', List.filter_cons_of_neg]
    exact fun hx => hsm (of_decide_eq_true hx).symm

/-- A member takes the first message out of its inbox. -/
theorem Shows.next (h : Shows c σ) (hn : σ.nodes.Nodup) {i : Nat} {m : Member}
    (hm : c.members[i]? = some m) {message : Message} {network : Network}
    (hnext : c.network.next? m.inbox = some (message, network)) :
    message.source ∈ σ.nodes ∧ ∃ l, (σ.channel message.source m.agent.uuid)[0]? = some l ∧
      l.message = message ∧
      Shows { c with network } (σ.consume message.source m.agent.uuid 0 l) := by
  obtain ⟨hagent, hinbox, inbox, hsub, hsorts⟩ := h.member i m hm
  have hwaiting : c.network.waiting m.inbox = inbox := by
    rw [Network.waiting, hinbox, hsub]
    rfl
  rw [Network.next?, hwaiting] at hnext
  cases inbox with
  | nil => cases hnext
  | cons first rest =>
    obtain ⟨rfl, rfl⟩ := Prod.mk.inj (Option.some.inj hnext)
    obtain ⟨l, hl, hmessage, hsorts'⟩ := hsorts.first
    refine ⟨hsorts.known first List.mem_cons_self, l, hl, hmessage, h.nodes, fun j k hk => ?_⟩
    obtain ⟨hagentk, hinboxk, inboxk, hsubk, hsortsk⟩ := h.member j k hk
    refine ⟨hagentk, hinboxk, ?_⟩
    dsimp only [Network.setInbox]
    rw [hinbox, List.getElem?_modify]
    by_cases hij : i = j
    · subst hij
      obtain rfl := Option.some.inj (hm.symm.trans hk)
      refine ⟨rest, ?_, hsorts'⟩
      rw [hsub]
      simp [subscription]
    · refine ⟨inboxk, by simpa [hij] using hsubk, hsortsk.known, fun s hs => ?_⟩
      have hne : ¬ (s = first.source ∧ k.agent.uuid = m.agent.uuid) := fun hx =>
        hij (h.uuid_inj hn hm hk hx.2.symm)
      rw [hsortsk.channel s hs]
      exact congrArg _ (if_neg hne).symm

def payload (c : Cluster) (sender receiver value : String) (tag : Option Version) : Cluster :=
  let m := Network.stamp sender (Wire.payload sender value tag)
  { c with network := c.network.deliver receiver m }

def refit (c : Cluster) (i : Nat) (f : Inventory → Inventory) : Cluster :=
  { c with members := c.members.modify i fun m => { m with inventory := f m.inventory } }

/-- What can happen to a cluster: a member asks for a snapshot, its timer ends, it handles a message
of its inbox or sends a payload, or its devices change. -/
inductive Moves : Cluster → Cluster → Prop where
  | request {c : Cluster} {i : Nat} {m : Member} (module : String) : c.members[i]? = some m →
      m.agent.started < Decimal.maxU64 → Moves c (c.request i module).2
  | timer {c : Cluster} {i : Nat} {m : Member} (status : TimerStatus) : c.members[i]? = some m →
      Moves c (c.timer i status).2
  | receive {c next : Cluster} {i : Nat} {result : String × Except WireError Unit} :
      c.receive? i = some (result, next) → Moves c next
  | payload {c : Cluster} {i j : Nat} {m k : Member} {value : String} {tag : Option Version} :
      c.members[i]? = some m → c.members[j]? = some k → value ∉ Wire.reserved →
      (∀ v ∈ tag, v.sequence ≤ Decimal.maxU64) →
      Moves c (c.payload m.agent.uuid k.agent.uuid value tag)
  | refit {c : Cluster} (i : Nat) (f : Inventory → Inventory) : Moves c (c.refit i f)

theorem Shows.payload (h : Shows c σ) {s r value : String} (hs : s ∈ σ.nodes)
    (tag : Option Version) : Shows (c.payload s r value tag) (σ.step (.payload s r value tag)) := by
  refine ⟨h.nodes, fun j k hk => ?_⟩
  obtain ⟨hagent, hinbox, inbox, hsub, hsorts⟩ := h.member j k hk
  have hserved := served_of_mem (Wire.payload_handlerKeys s value tag)
  let l : Letter := ⟨Network.stamp s (Wire.payload s value tag), σ.past s⟩
  refine ⟨hagent, hinbox, inbox ++ (if r = k.agent.uuid then [l] else []).map Letter.message, ?_, ?_⟩
  · change (c.network.subscriptions.map fun t => t.offer r l.message)[j]? = _
    rw [List.getElem?_map, hsub, Option.map_some, offer_subscription]
    have hserved' : served l.message := hserved
    by_cases hr : r = k.agent.uuid <;> simp [hr, hserved']
  · refine hsorts.append (τ := σ.step (.payload s r value tag)) rfl hs (fun l' hl' => ?_) fun b => ?_
    · split at hl'
      · rw [List.mem_singleton.mp hl']
        rfl
      · cases hl'
    · change (if b = s ∧ k.agent.uuid = r then _ ++ [l] else _) = _
      by_cases hb : b = s <;> by_cases hr : k.agent.uuid = r <;> simp [hb, hr, eq_comm (a := r)]

theorem Shows.refit (h : Shows c σ) (i : Nat) (f : Inventory → Inventory) :
    Shows (c.refit i f) σ := by
  have hmember : ∀ j, (c.refit i f).members[j]? = c.members[j]?.map fun m =>
      if i = j then { m with inventory := f m.inventory } else m := fun j =>
    List.getElem?_modify _ i c.members j
  constructor
  · rw [← h.nodes]
    refine List.ext_getElem? fun j => ?_
    rw [List.getElem?_map, List.getElem?_map, hmember, Option.map_map]
    congr 1
    funext m
    by_cases hij : i = j <;> simp [hij]
  · intro j k hk
    rw [hmember] at hk
    obtain ⟨m, hm, rfl⟩ := Option.map_eq_some_iff.mp hk
    have hagent := h.member j m hm
    by_cases hij : i = j
    · rw [if_pos hij]
      exact hagent
    · rw [if_neg hij]
      exact hagent

theorem act_eq {ρ : Type} {i : Nat} {m : Member} (hm : c.members[i]? = some m) (idle : ρ)
    (f : Member → ρ × Agent × List Effect) : (c.act i idle f).2 =
      ⟨c.members.set i (m.afterEffects (f m).2.1 (f m).2.2),
        deliverAll m.agent.uuid (f m).2.2 c.network⟩ := by
  rw [Cluster.act, hm]

theorem receive?_eq {next : Cluster} {i : Nat} {result : String × Except WireError Unit}
    (hr : c.receive? i = some (result, next)) : ∃ m message network, c.members[i]? = some m ∧
      c.network.next? m.inbox = some (message, network) ∧
      next = ⟨c.members.set i (m.afterEffects (m.agent.handle m.reading message).2.1
        (m.agent.handle m.reading message).2.2),
        deliverAll m.agent.uuid (m.agent.handle m.reading message).2.2 network⟩ := by
  obtain ⟨m, hm, hr⟩ := Option.bind_eq_some_iff.mp hr
  obtain ⟨⟨message, network⟩, hnext, hr⟩ := Option.bind_eq_some_iff.mp hr
  have hact := act_eq (c := { c with network }) hm (.ok ()) fun m => m.agent.handle m.reading message
  exact ⟨m, message, network, hm, hnext,
    (congrArg Prod.snd (Option.some.inj hr)).symm.trans hact⟩

theorem Shows.turn {τ : Mesh} {network : Network} (h : Shows { c with network } τ) (hl : Ledger σ)
    {i : Nat} {m : Member} (hm : c.members[i]? = some m) {e : Event} (he : σ.Enabled e)
    (ho : InOrder σ e) (took : Option (Version × Float)) {next : Agent} {effects : List Effect}
    (hstep : σ.step e = τ.act m.agent.uuid took next effects) :
    ∃ es, σ.Follows InOrder es ∧ Shows ⟨c.members.set i (m.afterEffects next effects),
      deliverAll m.agent.uuid effects network⟩ (σ.after es) := by
  have hl' := hl.step he
  refine ⟨[e], ⟨he, ho, trivial⟩, ?_⟩
  change Shows _ (σ.step e)
  rw [hstep] at hl' ⊢
  have huuid := hl'.uuid m.agent.uuid
  rw [agent_act_self] at huuid
  exact h.act hl'.nodup hm huuid took effects

/-- Everything that can happen to a cluster is an event of the mesh that it shows, or none. -/
theorem Shows.step (h : Shows c σ) (hl : Ledger σ) {next : Cluster} (hm : Moves c next) :
    ∃ es, σ.Follows InOrder es ∧ Shows next (σ.after es) := by
  cases hm with
  | @request i m module hm hstarted =>
    obtain ⟨hagent, -⟩ := h.member i m hm
    rw [Cluster.request, act_eq hm]
    refine h.turn hl hm (e := .request m.agent.uuid module m.reading)
      ⟨h.mem_nodes hm, hagent ▸ hstarted⟩ trivial (some (m.agent.nextVersion, m.reading)) ?_
    rw [Mesh.step, ← hagent]
  | @timer i m status hm =>
    obtain ⟨hagent, -⟩ := h.member i m hm
    rw [Cluster.timer, act_eq hm]
    refine h.turn hl hm (e := .timer m.agent.uuid status) (h.mem_nodes hm) trivial none ?_
    rw [Mesh.step, ← hagent]
  | @receive _ i result hr =>
    obtain ⟨m, message, network, hm, hnext, rfl⟩ := receive?_eq hr
    obtain ⟨hs, l, hl', rfl, hshows⟩ := h.next hl.nodup hm hnext
    obtain ⟨hagent, -⟩ := h.member i m hm
    refine hshows.turn hl hm (e := .receive l.message.source m.agent.uuid 0 m.reading)
      ⟨hs, h.mem_nodes hm, (List.getElem?_eq_some_iff.mp hl').1⟩ rfl
      ((l.notice?.bind (m.agent.meet l.message.source).takes?).map (·, m.reading)) ?_
    simp only [Mesh.step, hl', ← hagent]
  | @payload i j m k value tag hm hk hv ht =>
    have hs := h.mem_nodes hm
    exact ⟨[.payload m.agent.uuid k.agent.uuid value tag],
      ⟨⟨hs, h.mem_nodes hk, hv, ht⟩, trivial, trivial⟩, h.payload hs tag⟩
  | refit i f => exact ⟨[], trivial, h.refit i f⟩

theorem Shows.run (h : Shows c σ) (hl : Ledger σ) {next : Cluster}
    (hm : Relation.ReflTransGen Moves c next) :
    ∃ es, σ.Follows InOrder es ∧ Shows next (σ.after es) := by
  induction hm with
  | refl => exact ⟨[], trivial, h⟩
  | tail _ hlast ih =>
    obtain ⟨es, hf, hs⟩ := ih
    obtain ⟨fs, hf', hs'⟩ := hs.step (hl.after hf) hlast
    exact ⟨es ++ fs, hf.append hf', (Mesh.after_append σ es fs).symm ▸ hs'⟩

/-- A cluster of new collectors that all have the same peers. -/
def assemble (peers : List String) (policy : String → Policy) (inventory : String → Inventory)
    (uuids : List String) : Cluster :=
  uuids.foldl (fun c u => c.join (Agent.new u (policy u) peers) (inventory u)) ⟨[], {}⟩

section Assembled

variable (peers : List String) (policy : String → Policy) (inventory : String → Inventory)
  (uuids : List String)

theorem assemble_subscriptions : (assemble peers policy inventory uuids).network.subscriptions =
    uuids.map fun u => subscription u [] := by
  induction uuids using List.reverseRecOn with
  | nil => rfl
  | append_singleton us u ih =>
    rw [assemble, List.foldl_append, List.map_append, ← ih]
    rfl

theorem assemble_members : (assemble peers policy inventory uuids).members =
    uuids.zipIdx.map fun p =>
      { agent := Agent.new p.1 (policy p.1) peers, inventory := inventory p.1, inbox := p.2 } := by
  induction uuids using List.reverseRecOn with
  | nil => rfl
  | append_singleton us u ih =>
    have hsize : (assemble peers policy inventory us).network.size = us.length := by
      rw [Network.size, assemble_subscriptions, List.length_map]
    rw [List.zipIdx_append, List.map_append, ← ih, Nat.zero_add, ← hsize, assemble,
      List.foldl_append]
    rfl

theorem assemble_shows : Shows (assemble peers policy inventory peers) (Mesh.start peers policy) := by
  constructor
  · rw [assemble_members, List.map_map]
    exact List.zipIdx_map_fst 0 peers
  · intro i m hm
    rw [assemble_members, List.getElem?_map, List.getElem?_zipIdx, Option.map_map] at hm
    obtain ⟨u, hu, rfl⟩ := Option.map_eq_some_iff.mp hm
    refine ⟨rfl, Nat.zero_add i, [], ?_, fun m hm => absurd hm List.not_mem_nil, fun s hs => rfl⟩
    rw [assemble_subscriptions, List.getElem?_map, hu]
    rfl

end Assembled

/-- Whatever happens to a cluster, it shows what some first-in-first-out events do to a mesh. -/
theorem shows_mesh {nodes : List String} (hn : nodes.Nodup) {policy : String → Policy}
    {inventory : String → Inventory} {next : Cluster}
    (hm : Relation.ReflTransGen Moves (assemble nodes policy inventory nodes) next) :
    ∃ es, (Mesh.start nodes policy).Follows InOrder es ∧
      Shows next ((Mesh.start nodes policy).after es) :=
  (assemble_shows nodes policy inventory).run (Ledger.start hn policy) hm

end Cluster

end PhasedGrid.Snapshot
