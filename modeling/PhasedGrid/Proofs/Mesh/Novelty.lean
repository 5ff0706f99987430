import PhasedGrid.Proofs.Mesh.Inboxes
import PhasedGrid.Proofs.Snapshot.Knowledge

/-!
Versions are numbered by the node that starts them, and only that node makes the first markers of
them. So whatever has happened to a cluster, the version that a member starts next is unknown to
all, and no marker of it is under way.
-/

namespace PhasedGrid.Snapshot.Cluster

set_option autoImplicit false

open PhasedGrid.Device (Inventory)
open PhasedGrid.Peer (Message Network)
open PhasedGrid.Schedule (TimerStatus)

/-- A cluster of new collectors, each with peers of its own. -/
def found (peers : String → List String) (policy : String → Policy)
    (inventory : String → Inventory) (uuids : List String) : Cluster :=
  uuids.foldl (fun c u => c.join (Agent.new u (policy u) (peers u)) (inventory u)) ⟨[], {}⟩

/-- Whatever can happen to a cluster: besides what its members and their devices do, any message but
a marker may come from outside. -/
inductive Happens : Cluster → Cluster → Prop where
  | request {c : Cluster} (i : Nat) (module : String) : Happens c (c.request i module).2
  | timer {c : Cluster} (i : Nat) (status : TimerStatus) : Happens c (c.timer i status).2
  | receive {c next : Cluster} {i : Nat} {result : String × Except WireError Unit} :
      c.receive? i = some (result, next) → Happens c next
  | post {c : Cluster} (receiver : String) {message : Message} :
      (∀ v, Wire.read message ≠ .ok (some (.marker v))) →
      Happens c { c with network := c.network.deliver receiver message }
  | refit {c : Cluster} (i : Nat) (f : Inventory → Inventory) : Happens c (c.refit i f)

/-- A state that nodes with distinct names come to, whatever peers each of them has at first. -/
def Reachable (c : Cluster) : Prop :=
  ∃ peers policy inventory uuids, uuids.Nodup ∧
    Relation.ReflTransGen Happens (found peers policy inventory uuids) c

/-- Nothing waits for any member. -/
def Drained (c : Cluster) : Prop := ∀ m ∈ c.members, c.network.waiting m.inbox = []

instance : DecidablePred Drained := fun c =>
  inferInstanceAs (Decidable (∀ m ∈ c.members, c.network.waiting m.inbox = []))

/-- If the initiator of a version is a member, it has started the version. -/
def Started (members : List Member) (v : Version) : Prop :=
  ∀ m ∈ members, m.agent.uuid = v.initiator → v.sequence ≤ m.agent.started

/-- A member that knows of started versions only, as do those who write to it. -/
structure Informed (members : List Member) (a : Agent) (inbox : List Message) : Prop where
  sound : a.Sound
  own : a.peers.own = a.uuid
  known : ∀ v, a.Knows v → Started members v
  markers : ∀ m ∈ inbox, ∀ v, Wire.read m = .ok (some (.marker v)) →
    v ≠ .sentinel ∧ Started members v

structure Fresh (c : Cluster) : Prop where
  distinct : c.Distinct
  each : c.Each (Informed c.members)

variable {c next : Cluster}

/-- Nobody forgets how many versions it has started. -/
theorem Started.set {members : List Member} {v : Version} (h : Started members v) {i : Nat}
    {m n : Member} (hm : members[i]? = some m) (hu : n.agent.uuid = m.agent.uuid)
    (hs : m.agent.started ≤ n.agent.started) : Started (members.set i n) v := by
  intro k hk heq
  rcases List.mem_or_eq_of_mem_set hk with hk | rfl
  · exact h k hk heq
  · exact Nat.le_trans (h m (List.mem_of_getElem? hm) (hu.symm.trans heq)) hs

theorem Informed.mono {members others : List Member} {a : Agent} {inbox more : List Message}
    (h : Informed members a inbox) (hs : ∀ v, Started members v → Started others v)
    (hmore : ∀ m ∈ more, m ∈ inbox ∨ ∀ v, Wire.read m = .ok (some (.marker v)) →
      v ≠ .sentinel ∧ Started others v) : Informed others a more := by
  refine ⟨h.sound, h.own, fun v hv => hs v (h.known v hv), fun m hm v hv => ?_⟩
  rcases hmore m hm with hold | hnew
  · exact (h.markers m hold v hv).imp_right (hs v)
  · exact hnew v hv

/-- What a call brings up has been started, by whoever has started it. -/
theorem Distinct.started_set (hd : c.Distinct) {i : Nat} {m n : Member}
    (hm : c.members[i]? = some m) {notice : Option Notice} {effects : List Effect}
    (l : m.agent.Learns notice n.agent effects)
    (hb : ∀ v, notice = some (.marker v) → Started c.members v) {v : Version}
    (hv : m.agent.Brings notice n.agent v) : Started (c.members.set i n) v := by
  rcases hv with hv | ⟨hi, hseq⟩
  · exact (hb v hv).set hm l.uuid l.started
  · intro k hk heq
    obtain ⟨j, hj⟩ := List.mem_iff_getElem?.mp hk
    rw [List.getElem?_set] at hj
    split at hj
    · split at hj
      · obtain rfl := Option.some.inj hj
        exact hseq
      · cases hj
    · rename_i hij
      exact absurd (hd.index hm hj (hi.symm.trans heq.symm)) hij

/-- One member's turn, after it took the message that it answers, if any. -/
theorem Fresh.turn {network : Network} (hd : c.Distinct) {i : Nat} {m : Member}
    (hm : c.members[i]? = some m) (hp : Informed c.members m.agent (network.waiting m.inbox))
    (h : Each { c with network } fun a inbox =>
      a.uuid ≠ m.agent.uuid → Informed c.members a inbox) (call : Call)
    (hcall : ∀ v, call.notice? = some (.marker v) → v ≠ .sentinel ∧ Started c.members v) :
    Fresh ⟨c.members.set i (m.afterEffects (m.agent.serve call).1 (m.agent.serve call).2),
      deliverAll m.agent.uuid (m.agent.serve call).2 network⟩ := by
  have hsen : call.notice? ≠ some (.marker .sentinel) := fun hs => (hcall _ hs).1 rfl
  have l := hp.sound.learns hsen
  have hsound := hp.sound.serve hsen
  generalize (m.agent.serve call).1 = after at l hsound
  generalize (m.agent.serve call).2 = effects at l ⊢
  have hstarted : ∀ v, Started c.members v →
      Started (c.members.set i (m.afterEffects after effects)) v := fun v hv =>
    hv.set hm l.uuid l.started
  have hbrings : ∀ v, m.agent.Brings call.notice? after v →
      Started (c.members.set i (m.afterEffects after effects)) v := fun v hv =>
    hd.started_set (n := m.afterEffects after effects) hm l (fun w hw => (hcall w hw).2) hv
  have hgrown : ∀ a inbox, Informed c.members a inbox →
      Informed (c.members.set i (m.afterEffects after effects)) a
        (inbox ++ (letters m.agent.uuid [] effects a.uuid).map Letter.message) := by
    refine fun a inbox ha => ha.mono hstarted fun message hmessage => ?_
    refine (List.mem_append.mp hmessage).imp_right fun hmessage v hread => ?_
    obtain ⟨letter, hletter, rfl⟩ := List.mem_map.mp hmessage
    obtain ⟨content, hsend, -, rfl⟩ := mem_letters.mp hletter
    exact (l.sends a.uuid content v hsend hread).imp_right (hbrings v)
  refine ⟨hd.set hm l.uuid _, h.act hd hm l.uuid [] ⟨hsound, ?_, fun v hv => ?_, ?_⟩
    fun k _ hne inbox hk => hgrown k.agent inbox (hk hne)⟩
  · exact l.own.trans (hp.own.trans l.uuid.symm)
  · exact (l.knows v hv).elim (fun hv => hstarted v (hp.known v hv)) (hbrings v)
  · exact (hgrown m.agent _ hp).markers

theorem Fresh.step (h : Fresh c) (hc : Happens c next) : Fresh next := by
  cases hc with
  | request i module =>
    rw [Cluster.request]
    cases hm : c.members[i]? with
    | none =>
      rw [Cluster.act, hm]
      exact h
    | some m =>
      rw [act_eq hm]
      exact Fresh.turn h.distinct hm (h.each.subscribed hm).2.2
        (h.each.mono fun _ _ _ hk _ => hk) (.request module m.reading) fun v hv => by cases hv
  | timer i status =>
    rw [Cluster.timer]
    cases hm : c.members[i]? with
    | none =>
      rw [Cluster.act, hm]
      exact h
    | some m =>
      rw [act_eq hm]
      exact Fresh.turn h.distinct hm (h.each.subscribed hm).2.2
        (h.each.mono fun _ _ _ hk _ => hk) (.timer status) fun v hv => by cases hv
  | receive hr =>
    obtain ⟨m, message, network, hm, hnext, rfl⟩ := receive?_eq hr
    obtain ⟨hp, heach⟩ := h.each.next hm hnext
    have hrest := hp.mono (fun _ => id) fun n hn => Or.inl (List.mem_cons_of_mem message hn)
    refine Fresh.turn h.distinct hm hrest heach (.message message m.reading) fun v hv => ?_
    refine hp.markers message List.mem_cons_self v ?_
    unfold Call.notice? at hv
    dsimp only at hv
    split at hv
    · rename_i hread
      rw [hread, hv]
    · cases hv
  | post receiver hmessage =>
    refine ⟨h.distinct, h.each.deliver receiver _ fun k _ inbox hk => ?_⟩
    refine hk.mono (fun _ => id) fun m hm => (List.mem_append.mp hm).imp_right fun hm v hv => ?_
    split at hm
    · obtain rfl := List.mem_singleton.mp hm
      exact absurd hv (hmessage v)
    · cases hm
  | refit i f =>
    have hagents := refit_agents c i f
    have hstarted : ∀ v, Started c.members v → Started (c.refit i f).members v := by
      intro v hv k hk heq
      have hk' : k.agent ∈ c.members.map fun m => m.agent := hagents ▸ List.mem_map_of_mem hk
      obtain ⟨m, hm, hma⟩ := List.mem_map.mp hk'
      rw [← hma] at heq ⊢
      exact hv m hm heq
    refine ⟨?_, (h.each.refit i f).mono fun k _ inbox hk => hk.mono hstarted fun _ => Or.inl⟩
    unfold Distinct
    rw [refit_uuids]
    exact h.distinct

theorem found_concat (peers : String → List String) (policy : String → Policy)
    (inventory : String → Inventory) (uuids : List String) (u : String) :
    found peers policy inventory (uuids ++ [u]) = (found peers policy inventory uuids).join
      (Agent.new u (policy u) (peers u)) (inventory u) := by
  rw [found, List.foldl_append]
  rfl

/-- At first nobody knows anything. -/
theorem found_fresh (peers : String → List String) (policy : String → Policy)
    (inventory : String → Inventory) {uuids : List String} (hn : uuids.Nodup) :
    Fresh (found peers policy inventory uuids) := by
  have hboth : (found peers policy inventory uuids).members.map (fun m => m.agent.uuid) = uuids ∧
      (found peers policy inventory uuids).network.size =
        (found peers policy inventory uuids).members.length ∧
      (found peers policy inventory uuids).Each fun a inbox => inbox = [] ∧ a.Sound ∧
        a.peers.own = a.uuid ∧ ∀ v, ¬ a.Knows v := by
    clear hn
    induction uuids using List.reverseRecOn with
    | nil => exact ⟨rfl, rfl, fun i m hm => by cases hm⟩
    | append_singleton us u ih =>
      obtain ⟨huuids, hsize, heach⟩ := ih
      rw [found_concat]
      refine ⟨?_, ?_, heach.join hsize _ ⟨rfl, Agent.new_sound u (policy u) (peers u),
        Peer.Group.own_ofList u (peers u), fun v hv => ?_⟩⟩
      · rw [join, List.map_append, huuids]
        rfl
      · change (_ ++ [_] : List _).length = (_ ++ [_] : List _).length
        rw [List.length_append, List.length_append]
        exact congrArg (· + 1) hsize
      · rcases hv with hv | hv
        · cases hv
        · cases hv
  refine ⟨?_, hboth.2.2.mono fun k _ inbox hk => ?_⟩
  · unfold Distinct
    rw [hboth.1]
    exact hn
  · obtain ⟨rfl, hsound, hown, hknows⟩ := hk
    exact ⟨hsound, hown, fun v hv => absurd hv (hknows v), fun m hm => absurd hm List.not_mem_nil⟩

theorem Reachable.fresh (h : c.Reachable) : Fresh c := by
  obtain ⟨peers, policy, inventory, uuids, hn, hrun⟩ := h
  induction hrun with
  | refl => exact found_fresh peers policy inventory hn
  | tail _ hlast ih => exact ih.step hlast

/-- The version that a member starts next is unknown to all. -/
theorem Fresh.nextVersion_unknown (h : Fresh c) {m k : Member} (hm : m ∈ c.members)
    (hk : k ∈ c.members) :
    ¬ k.agent.Knows m.agent.nextVersion := by
  intro hv
  have hs := (h.each.waiting hk).known _ hv m hm rfl
  exact Nat.not_succ_le_self _ hs

end PhasedGrid.Snapshot.Cluster
