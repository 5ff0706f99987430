import PhasedGrid.Proofs.Mesh.Clusters

/-!
The members of a cluster one by one, each with the messages that wait for it. Whatever a member
does, it changes itself and adds to the inboxes of those it writes to; all others stay as they are.
-/

namespace PhasedGrid.Snapshot.Cluster

set_option autoImplicit false

open PhasedGrid.Device (Inventory)
open PhasedGrid.Peer (Message Network)

/-- Each member, with what waits for it, is as `P` says. -/
def Each (c : Cluster) (P : Agent → List Message → Prop) : Prop :=
  ∀ i (m : Member), c.members[i]? = some m → m.inbox = i ∧
    ∃ inbox, c.network.subscriptions[i]? = some (subscription m.agent.uuid inbox) ∧ P m.agent inbox

/-- No two members have the same name. -/
def Distinct (c : Cluster) : Prop := (c.members.map fun m => m.agent.uuid).Nodup

variable {c : Cluster} {P Q : Agent → List Message → Prop}

theorem Distinct.index (h : c.Distinct) {i j : Nat} {m k : Member} (hm : c.members[i]? = some m)
    (hk : c.members[j]? = some k) (heq : m.agent.uuid = k.agent.uuid) : i = j := by
  have hi := (List.getElem?_eq_some_iff.mp hm).1
  refine (List.getElem?_inj (by rwa [List.length_map]) h).mp ?_
  rw [List.getElem?_map, List.getElem?_map, hm, hk]
  exact congrArg some heq

theorem uuids_set {i : Nat} {m n : Member} (hm : c.members[i]? = some m)
    (hu : n.agent.uuid = m.agent.uuid) :
    (c.members.set i n).map (fun m => m.agent.uuid) = c.members.map fun m => m.agent.uuid := by
  have hi := (List.getElem?_eq_some_iff.mp hm).1
  refine List.ext_getElem? fun j => ?_
  rw [List.map_set, List.getElem?_set]
  by_cases hij : i = j
  · subst hij
    rw [if_pos rfl, if_pos (by rwa [List.length_map]), List.getElem?_map, hm]
    exact congrArg some hu
  · rw [if_neg hij]

/-- A member that acts keeps its name. -/
theorem Distinct.set (h : c.Distinct) {i : Nat} {m n : Member} (hm : c.members[i]? = some m)
    (hu : n.agent.uuid = m.agent.uuid) (network : Network) :
    Cluster.Distinct ⟨c.members.set i n, network⟩ := by
  unfold Distinct
  rw [uuids_set hm hu]
  exact h

namespace Each

theorem mono (h : c.Each P) (hPQ : ∀ m ∈ c.members, ∀ inbox, P m.agent inbox → Q m.agent inbox) :
    c.Each Q := by
  intro i m hm
  obtain ⟨hi, inbox, hsub, hp⟩ := h i m hm
  exact ⟨hi, inbox, hsub, hPQ m (List.mem_of_getElem? hm) inbox hp⟩

/-- What waits for a member is in the subscription that it reads from. -/
theorem subscribed (h : c.Each P) {i : Nat} {m : Member} (hm : c.members[i]? = some m) :
    m.inbox = i ∧ c.network.subscriptions[i]? =
      some (subscription m.agent.uuid (c.network.waiting m.inbox)) ∧
      P m.agent (c.network.waiting m.inbox) := by
  obtain ⟨hi, inbox, hsub, hp⟩ := h i m hm
  have hwaiting : c.network.waiting m.inbox = inbox := by
    rw [Network.waiting, hi, hsub]
    rfl
  rw [hwaiting]
  exact ⟨hi, hsub, hp⟩

theorem waiting (h : c.Each P) {m : Member} (hm : m ∈ c.members) :
    P m.agent (c.network.waiting m.inbox) := by
  obtain ⟨i, hi⟩ := List.mem_iff_getElem?.mp hm
  exact (h.subscribed hi).2.2

/-- One member has acted, and what it sent is delivered. -/
theorem act (h : c.Each P) (hd : c.Distinct) {i : Nat} {m : Member}
    (hm : c.members[i]? = some m) {next : Agent} (hu : next.uuid = m.agent.uuid)
    (past : List Version) {effects : List Effect}
    (hself : Q next (c.network.waiting m.inbox ++
      (letters m.agent.uuid past effects m.agent.uuid).map Letter.message))
    (hothers : ∀ k ∈ c.members, k.agent.uuid ≠ m.agent.uuid → ∀ inbox, P k.agent inbox →
      Q k.agent (inbox ++ (letters m.agent.uuid past effects k.agent.uuid).map Letter.message)) :
    Cluster.Each ⟨c.members.set i (m.afterEffects next effects),
      deliverAll m.agent.uuid effects c.network⟩ Q := by
  have hi := (List.getElem?_eq_some_iff.mp hm).1
  intro j k hk
  rw [List.getElem?_set] at hk
  by_cases hij : i = j
  · subst hij
    rw [if_pos rfl, if_pos hi] at hk
    obtain rfl := Option.some.inj hk
    obtain ⟨hinbox, hsub, -⟩ := h.subscribed hm
    have huid : (m.afterEffects next effects).agent.uuid = m.agent.uuid := hu
    rw [huid]
    exact ⟨hinbox, _, deliverAll_subscription hsub m.agent.uuid past effects, hself⟩
  · rw [if_neg hij] at hk
    obtain ⟨hinbox, inbox, hsub, hp⟩ := h j k hk
    refine ⟨hinbox, _, deliverAll_subscription hsub m.agent.uuid past effects, ?_⟩
    exact hothers k (List.mem_of_getElem? hk) (fun heq => hij (hd.index hm hk heq.symm)) inbox hp

/-- One member has taken the first message out of its inbox. -/
theorem next (h : c.Each P) {i : Nat} {m : Member} (hm : c.members[i]? = some m)
    {message : Message} {network : Network}
    (hnext : c.network.next? m.inbox = some (message, network)) :
    P m.agent (message :: network.waiting m.inbox) ∧
      Cluster.Each { c with network } fun a inbox => a.uuid ≠ m.agent.uuid → P a inbox := by
  obtain ⟨hinbox, hsub, hp⟩ := h.subscribed hm
  rw [Network.next?] at hnext
  cases hw : c.network.waiting m.inbox with
  | nil =>
    rw [hw] at hnext
    cases hnext
  | cons first rest =>
    rw [hw] at hnext hsub hp
    obtain ⟨rfl, rfl⟩ := Prod.mk.inj (Option.some.inj hnext)
    have hset : ∀ j, (c.network.setInbox m.inbox rest).subscriptions[j]? =
        (c.network.subscriptions[j]?).map fun s =>
          if i = j then { s with inbox := rest } else s := by
      intro j
      rw [Network.setInbox, hinbox, List.getElem?_modify]
      by_cases hij : i = j <;> simp [hij]
    refine ⟨?_, fun j k hk => ?_⟩
    · have hrest : (c.network.setInbox m.inbox rest).waiting m.inbox = rest := by
        rw [Network.waiting, hset, hinbox, hsub]
        simp
      rw [hrest]
      exact hp
    · obtain ⟨hinboxk, inboxk, hsubk, hpk⟩ := h j k hk
      refine ⟨hinboxk, ?_⟩
      rw [hset]
      by_cases hij : i = j
      · subst hij
        obtain rfl := Option.some.inj (hm.symm.trans hk)
        refine ⟨rest, ?_, fun hne => absurd rfl hne⟩
        rw [hsub]
        simp [subscription]
      · exact ⟨inboxk, by simp [hsubk, hij], fun _ => hpk⟩

/-- A message has been delivered from outside. -/
theorem deliver (h : c.Each P) (receiver : String) (message : Message)
    (hPQ : ∀ m ∈ c.members, ∀ inbox, P m.agent inbox → Q m.agent
      (inbox ++ if receiver = m.agent.uuid ∧ served message then [message] else [])) :
    Cluster.Each { c with network := c.network.deliver receiver message } Q := by
  intro i m hm
  obtain ⟨hinbox, inbox, hsub, hp⟩ := h i m hm
  refine ⟨hinbox, _, ?_, hPQ m (List.mem_of_getElem? hm) inbox hp⟩
  rw [Network.deliver, List.getElem?_map, hsub, Option.map_some, offer_subscription]

theorem refit (h : c.Each P) (i : Nat) (f : Inventory → Inventory) : (c.refit i f).Each P := by
  intro j k hk
  have hmember : (c.refit i f).members[j]? = c.members[j]?.map fun m =>
      if i = j then { m with inventory := f m.inventory } else m :=
    List.getElem?_modify _ i c.members j
  rw [hmember] at hk
  obtain ⟨m, hm, rfl⟩ := Option.map_eq_some_iff.mp hk
  have hp := h j m hm
  by_cases hij : i = j
  · rw [if_pos hij]
    exact hp
  · rw [if_neg hij]
    exact hp

theorem join (h : c.Each P) (hsize : c.network.size = c.members.length) {a : Agent}
    (inventory : Inventory) (ha : P a []) : (c.join a inventory).Each P := by
  intro i m hm
  have hsubs : (c.join a inventory).network.subscriptions =
      c.network.subscriptions ++ [subscription a.uuid []] := rfl
  change (c.members ++ [_])[i]? = some m at hm
  rw [hsubs]
  rcases Nat.lt_or_ge i c.members.length with hi | hi
  · rw [List.getElem?_append_left hi] at hm
    obtain ⟨hinbox, inbox, hsub, hp⟩ := h i m hm
    refine ⟨hinbox, inbox, ?_, hp⟩
    rw [List.getElem?_append_left (List.getElem?_eq_some_iff.mp hsub).1, hsub]
  · rw [List.getElem?_append_right hi] at hm
    obtain ⟨hi', rfl⟩ := List.getElem?_eq_some_iff.mp hm
    have heq : i = c.network.size := by
      rw [List.length_singleton] at hi'
      omega
    subst heq
    refine ⟨?_, [], ?_, ?_⟩
    · simp
    · change (c.network.subscriptions ++ [_])[c.network.subscriptions.length]? = _
      rw [List.getElem?_concat_length]
      simp
    · simpa using ha

end Each

theorem refit_agents (c : Cluster) (i : Nat) (f : Inventory → Inventory) :
    (c.refit i f).members.map (fun m => m.agent) = c.members.map fun m => m.agent := by
  refine List.ext_getElem? fun j => ?_
  have hmember : (c.refit i f).members[j]? = c.members[j]?.map fun m =>
      if i = j then { m with inventory := f m.inventory } else m :=
    List.getElem?_modify _ i c.members j
  rw [List.getElem?_map, List.getElem?_map, hmember, Option.map_map]
  congr 1
  funext m
  by_cases hij : i = j <;> simp [hij]

theorem refit_uuids (c : Cluster) (i : Nat) (f : Inventory → Inventory) :
    (c.refit i f).members.map (fun m => m.agent.uuid) = c.members.map fun m => m.agent.uuid := by
  have huuids := congrArg (List.map Agent.uuid) (refit_agents c i f)
  rwa [List.map_map, List.map_map] at huuids

end PhasedGrid.Snapshot.Cluster
