import Mathlib.Algebra.Ring.Nat
import PhasedGrid.Proofs.Mesh.Rounds
import PhasedGrid.Proofs.Mesh.Cut

/-!
Payloads that cross the cut of a version: sent before their sender recorded it, and handled after
their receiver did. Such a receiver still waits for the marker of the sender, so it records the
payload; and what the nodes record for a version is with its initiator, on the way there, or still
with the node that recorded it.
-/

namespace PhasedGrid.Snapshot

set_option autoImplicit false

open PhasedGrid.Peer (Network)
open Agent (Turn Handling Marking)

def Fragment.isTransit : Fragment → Bool
  | .gateway _ _ => false
  | .transit _ _ _ => true

/-- A payload that a node handles: the channel that it came on, what it says, the versions that its
sender had recorded when it was sent, and those that its receiver has recorded and records. -/
structure Delivery where
  source : String
  receiver : String
  value : String
  sender : String
  tag : Option Version
  sent : List Version
  known : List Version
  recording : List Version
  deriving DecidableEq

namespace Delivery

def fragment (d : Delivery) : Fragment := .transit d.value d.sender d.receiver

/-- The payload is meant for `v`, among other versions or alone. -/
def Concerns (d : Delivery) (v : Version) : Prop := d.tag = none ∨ d.tag = some v

instance (d : Delivery) (v : Version) : Decidable (d.Concerns v) :=
  inferInstanceAs (Decidable (d.tag = none ∨ d.tag = some v))

/-- The payload goes from one node's past of `v` to another one's future. -/
def Crosses (d : Delivery) (v : Version) : Prop :=
  d.source ≠ d.receiver ∧ d.Concerns v ∧ v ∉ d.sent ∧ v ∈ d.known

instance (d : Delivery) (v : Version) : Decidable (d.Crosses v) :=
  inferInstanceAs (Decidable (d.source ≠ d.receiver ∧ d.Concerns v ∧ v ∉ d.sent ∧ v ∈ d.known))

/-- The receiver records the payload for `v`. -/
def taped (v : Version) (d : Delivery) : Bool := decide (v ∈ d.recording ∧ d.Concerns v)

end Delivery

namespace Mesh

/-- What is delivered when a node handles a letter, if it is a payload. -/
def arrival (σ : Mesh) (s r : String) (l : Letter) : Option Delivery :=
  match l.notice? with
  | some (.payload value sender tag) =>
    some ⟨s, r, value, sender, tag, l.past, σ.past r, (σ.agent r).recording⟩
  | _ => none

def delivery? (σ : Mesh) : Event → Option Delivery
  | .receive s r i _ => (σ.channel s r)[i]?.bind (σ.arrival s r)
  | _ => none

/-- The payloads that are handled in the course of some events. -/
def deliveries : Mesh → List Event → List Delivery
  | _, [] => []
  | σ, e :: es => (σ.delivery? e).toList ++ deliveries (σ.step e) es

/-- The number of deliveries that are recorded for `v` as fragments that pass a test. -/
def tapings (v : Version) (p : Fragment → Bool) (ds : List Delivery) : Nat :=
  ds.countP fun d => d.taped v && p d.fragment

/-- What a node has for the initiator of `v`, on the way there or still with it. -/
def owed (σ : Mesh) (v : Version) (p : Fragment → Bool) (c : String) : Nat :=
  shipped (σ.channel c v.initiator) p + (σ.agent c).held v p

/-- All that the nodes have recorded for `v`. -/
def holdings (σ : Mesh) (v : Version) (p : Fragment → Bool) : Nat :=
  (σ.agent v.initiator).held v p +
    ((σ.nodes.filter (· ≠ v.initiator)).map (σ.owed v p)).sum

variable {σ τ : Mesh} {v : Version} {p : Fragment → Bool}

/-- Two sums over distinct nodes that differ at one node. -/
theorem sum_map_of_ne {cs : List String} (hn : cs.Nodup) {f g : String → Nat} {b : String}
    (hb : b ∈ cs) (h : ∀ c ∈ cs, c ≠ b → f c = g c) :
    (cs.map f).sum + g b = (cs.map g).sum + f b := by
  induction cs with
  | nil => cases hb
  | cons c cs ih =>
    obtain ⟨hc, hn⟩ := List.nodup_cons.mp hn
    simp only [List.map_cons, List.sum_cons]
    by_cases hcb : c = b
    · subst hcb
      have hsame : cs.map f = cs.map g := List.map_congr_left fun d hd =>
        h d (List.mem_cons_of_mem c hd) fun he => hc (he ▸ hd)
      rw [hsame]
      omega
    · have hrest := ih hn ((List.mem_cons.mp hb).resolve_left fun he => hcb he.symm)
        fun d hd => h d (List.mem_cons_of_mem c hd)
      rw [h c List.mem_cons_self hcb]
      omega

theorem holdings_congr (hn : τ.nodes = σ.nodes)
    (hA : (τ.agent v.initiator).held v p = (σ.agent v.initiator).held v p)
    (ho : ∀ c ∈ σ.nodes, c ≠ v.initiator → τ.owed v p c = σ.owed v p c) :
    τ.holdings v p = σ.holdings v p := by
  unfold holdings
  rw [hn, hA]
  congr 2
  refine List.map_congr_left fun c hc => ?_
  obtain ⟨hc, hne⟩ := List.mem_filter.mp hc
  exact ho c hc (of_decide_eq_true hne)

theorem holdings_of_nothing_owed (h : ∀ c ∈ σ.nodes, c ≠ v.initiator → σ.owed v p c = 0) :
    σ.holdings v p = (σ.agent v.initiator).held v p := by
  have hsum : ((σ.nodes.filter (· ≠ v.initiator)).map (σ.owed v p)).sum = 0 := by
    refine List.sum_eq_zero_iff_forall_eq_nat.mpr fun n hn => ?_
    obtain ⟨c, hc, rfl⟩ := List.mem_map.mp hn
    obtain ⟨hc, hne⟩ := List.mem_filter.mp hc
    exact h c hc (of_decide_eq_true hne)
  rw [holdings, hsum, Nat.add_zero]

/-- One node other than the initiator has more or less. -/
theorem holdings_change (hnd : σ.nodes.Nodup) (hn : τ.nodes = σ.nodes) {b : String}
    (hb : b ∈ σ.nodes) (hbA : b ≠ v.initiator)
    (ho : ∀ c ∈ σ.nodes, c ≠ v.initiator → c ≠ b → τ.owed v p c = σ.owed v p c) :
    τ.holdings v p + ((σ.agent v.initiator).held v p + σ.owed v p b) =
      σ.holdings v p + ((τ.agent v.initiator).held v p + τ.owed v p b) := by
  have hsum := sum_map_of_ne (f := τ.owed v p) (g := σ.owed v p)
    (hnd.filter (· ≠ v.initiator)) (List.mem_filter.mpr ⟨hb, decide_eq_true hbA⟩) fun c hc hcb => by
      obtain ⟨hc, hne⟩ := List.mem_filter.mp hc
      exact ho c hc (of_decide_eq_true hne) hcb
  unfold holdings
  rw [hn]
  omega

theorem tapings_arrival (s r : String) {l : Letter} {value sender : String} {tag : Option Version}
    (hn : l.notice? = some (.payload value sender tag)) (v : Version) (p : Fragment → Bool) :
    tapings v p (σ.arrival s r l).toList =
      if p (.transit value sender r) ∧ v ∈ (σ.agent r).recording ∧ (tag = none ∨ tag = some v)
      then 1 else 0 := by
  unfold arrival
  rw [hn, Option.toList_some, tapings, List.countP_singleton]
  simp [Delivery.taped, Delivery.Concerns, Delivery.fragment, and_comm]

theorem arrival_of_not_payload (s r : String) {l : Letter}
    (hn : ∀ value sender tag, l.notice? ≠ some (.payload value sender tag)) :
    σ.arrival s r l = none := by
  unfold arrival
  split
  · rename_i hm
    exact absurd hm (hn _ _ _)
  · rfl

section Handling

variable {s r : String} {i : Nat} {l : Letter} {x : Float} {took : Option Version} {next : Agent}
  {effects : List Effect}

/-- What a marker does to the messages in transit that a node has recorded for `v`. -/
theorem Course.transits_marking (h : Course σ) (hl : σ.Leads v) (hr : r ∈ σ.nodes)
    (hmail : l ∈ σ.channel s r) {w : Version} (hn : l.notice? = some (.marker w))
    (m : Marking (σ.agent r) x w took next effects) (hp : Fragment.OfTransits p) :
    next.held v p +
        (if r = v.initiator then 0 else shipped (letters r (σ.past r) effects v.initiator) p) =
      (σ.agent r).held v p := by
  have hposted := h.ledger.posted s r l hmail
  have hw := (hposted.allowed _ hn).1
  have hu := h.ledger.uuid r
  have hpeers : (σ.agent r).peers = .ofList (σ.agent r).uuid σ.nodes := by
    rw [hu]
    exact h.ledger.peers r
  have hseq := h.ledger.sequence_le (h.ledger.issued s w hw)
  have hself : (σ.agent r).uuid ∈ σ.nodes := hu.symm ▸ hr
  by_cases hwv : w = v
  · subst hwv
    by_cases hrA : r = w.initiator
    · rw [if_pos hrA]
      have ht := hl.tracks h.ledger
      rw [← hrA] at ht
      cases m with
      | own _ _ => exact congrArg (List.countP p) (Agent.fragments_tally _ w w)
      | counted _ _ _ => rfl
      | finished _ hi _ => exact absurd (hrA.symm.trans hu.symm) hi
      | stale hv _ => simp [ht] at hv
      | opened hv _ _ => simp [ht] at hv
      | passed hv _ _ => simp [ht] at hv
    · rw [if_neg hrA]
      have hsum := shipped_marking_transits (h.ledger.sound r) m hpeers hself hseq (σ.past r) hp
      rw [hu] at hsum
      exact hsum
  · rw [m.held_eq_of_ne hwv fun _ => hl.not_superseded h.ledger hw]
    by_cases hrA : r = v.initiator
    · rw [if_pos hrA, Nat.add_zero]
    · have hi : v.initiator ≠ w.initiator := by
        intro he
        have hlw := h.live.marked w s r hr (underway_pos_iff.mpr ⟨l, hmail, hn⟩)
        exact hwv (by rw [← hlw.2, ← he, hl.2])
      have hnone := shipped_marking_of_ne m hpeers hself hseq (σ.past r) hi p
      rw [hu] at hnone
      rw [if_neg hrA, hnone, Nat.add_zero]

/-- What a letter does to the messages in transit that its receiver has recorded for `v`. -/
theorem Course.transits_handling (h : Course σ) (hl : σ.Leads v) (hr : r ∈ σ.nodes)
    (hmail : l ∈ σ.channel s r) (m : Handling (σ.agent r) x l.notice? took next effects)
    (hp : Fragment.OfTransits p) :
    next.held v p +
        (if r = v.initiator then 0 else shipped (letters r (σ.past r) effects v.initiator) p) =
      (σ.agent r).held v p + tapings v p (σ.arrival s r l).toList +
        (if r = v.initiator ∧ l.fragment?.any p then 1 else 0) := by
  have hnone : shipped (letters r (σ.past r) [] v.initiator) p = 0 := rfl
  have hplain : l.fragment? = none →
      (if r = v.initiator ∧ l.fragment?.any p then 1 else 0) = 0 := by
    intro hf
    rw [hf]
    exact if_neg fun hx => nomatch hx.2
  generalize hn : l.notice? = notice at m
  cases m with
  | ignored =>
    rw [arrival_of_not_payload s r (by simp [hn]), hplain (by rw [Letter.fragment?, hn]), hnone,
      ite_self]
    rfl
  | state f =>
    have hf := Letter.fragment?_eq_some.mpr hn
    have ha := (h.live.mailed s r hr l hmail f hf).1
    obtain ⟨hsen, hown⟩ := (σ.agent r).awaiting_iff.mp ha
    rw [h.ledger.uuid] at hown
    have hiff : (σ.agent r).current = v ↔ r = v.initiator := by
      constructor
      · rintro rfl
        exact hown.symm
      · rintro rfl
        exact hl.2
    rw [arrival_of_not_payload s r (by simp [hn]), hf, hnone, ite_self, Agent.held_onState]
    simp only [hsen, hiff, ne_eq, not_false_eq_true, true_and, Option.any_some]
    rfl
  | payload value sender tag =>
    rw [tapings_arrival s r hn, hplain (by rw [Letter.fragment?, hn]), hnone, ite_self,
      (h.ledger.sound r).held_onPayload, h.ledger.uuid]
  | marker hs m =>
    rw [h.transits_marking hl hr hmail hn m hp, arrival_of_not_payload s r (by simp [hn]),
      hplain (by rw [Letter.fragment?, hn])]
    rfl

/-- A letter to another node than the initiator of `v`. -/
theorem Course.holdings_receive_other (h : Course σ) (hl : σ.Leads v) (hr : r ∈ σ.nodes)
    (hmail : (σ.channel s r)[i]? = some l)
    (m : Handling (σ.agent r) x l.notice? took next effects) (hp : Fragment.OfTransits p)
    (hrA : r ≠ v.initiator) :
    ((σ.consume s r i l).act r (took.map (·, x)) next effects).holdings v p =
      σ.holdings v p + tapings v p (σ.arrival s r l).toList := by
  have hheld := h.transits_handling hl hr (List.mem_of_getElem? hmail) m hp
  rw [if_neg hrA, if_neg fun hx => hrA hx.1] at hheld
  have hchan : ∀ c, shipped ((σ.consume s r i l).channel c v.initiator) p =
      shipped (σ.channel c v.initiator) p := fun c => by
    have hc := shipped_consume hmail p c v.initiator
    rwa [if_neg fun hx => hrA hx.2.1.symm, Nat.add_zero] at hc
  have hsum := holdings_change (σ := σ) (v := v) (p := p)
    (τ := (σ.consume s r i l).act r (took.map (·, x)) next effects) h.ledger.nodup rfl hr hrA
    fun c _ _ hcr => by
      unfold owed
      rw [channel_act, if_neg hcr, List.append_nil, agent_act_ne _ hcr, hchan c]
      rfl
  have hself : ((σ.consume s r i l).act r (took.map (·, x)) next effects).owed v p r =
      shipped (σ.channel r v.initiator) p +
        shipped (letters r (σ.past r) effects v.initiator) p + next.held v p := by
    unfold owed
    rw [channel_act, if_pos rfl, agent_act_self, shipped_append, hchan r]
    rfl
  have hA : ((σ.consume s r i l).act r (took.map (·, x)) next effects).agent v.initiator =
      σ.agent v.initiator := agent_act_ne _ (Ne.symm hrA) _ _ _
  rw [hA, hself, owed] at hsum
  omega

/-- A letter to the initiator of `v`: recorded state leaves its channel as it arrives. -/
theorem Course.holdings_receive_own (h : Course σ) (hl : σ.Leads v) (hs : s ∈ σ.nodes)
    (hr : r ∈ σ.nodes) (hmail : (σ.channel s r)[i]? = some l)
    (m : Handling (σ.agent r) x l.notice? took next effects) (hp : Fragment.OfTransits p)
    (hrA : r = v.initiator) :
    ((σ.consume s r i l).act r (took.map (·, x)) next effects).holdings v p =
      σ.holdings v p + tapings v p (σ.arrival s r l).toList := by
  have hmem := List.mem_of_getElem? hmail
  have hheld := h.transits_handling hl hr hmem m hp
  rw [if_pos hrA, Nat.add_zero] at hheld
  subst hrA
  have hself : ((σ.consume s v.initiator i l).act v.initiator (took.map (·, x)) next effects).agent
      v.initiator = next := agent_act_self _ _ _ _ _
  have howed : ∀ c, c ≠ v.initiator →
      ((σ.consume s v.initiator i l).act v.initiator (took.map (·, x)) next effects).owed v p c +
        (if c = s ∧ l.fragment?.any p then 1 else 0) = σ.owed v p c := by
    intro c hc
    have hchan := shipped_consume hmail p c v.initiator
    simp only [true_and] at hchan
    unfold owed
    rw [channel_act, if_neg hc, List.append_nil, agent_act_ne _ hc, ← hchan]
    change _ + (σ.agent c).held v p + _ = _
    omega
  by_cases hf : l.fragment?.any p
  · have hne : s ≠ v.initiator := by
      cases hsome : l.fragment? with
      | none => simp [hsome] at hf
      | some f => exact (h.ledger.posted s _ l hmem).allowed _ (Letter.fragment?_eq_some.mp hsome)
    have hsum := holdings_change (σ := σ) (v := v) (p := p)
      (τ := (σ.consume s v.initiator i l).act v.initiator (took.map (·, x)) next effects)
      h.ledger.nodup rfl hs hne fun c _ hc hcs => by
        have hcc := howed c hc
        rwa [if_neg fun hx => hcs hx.1, Nat.add_zero] at hcc
    have hss := howed s hne
    rw [if_pos ⟨rfl, hf⟩] at hss hheld
    rw [hself] at hsum
    omega
  · rw [if_neg fun hx => hf hx.2] at hheld
    have hall : ∀ c ∈ σ.nodes.filter (· ≠ v.initiator),
        ((σ.consume s v.initiator i l).act v.initiator (took.map (·, x)) next effects).owed v p c =
          σ.owed v p c := fun c hc => by
      have hcc := howed c (of_decide_eq_true (List.mem_filter.mp hc).2)
      rwa [if_neg fun hx => hf hx.2, Nat.add_zero] at hcc
    unfold holdings
    rw [hself, ← List.map_congr_left hall]
    change next.held v p + (List.map _ (σ.nodes.filter _)).sum = _
    omega

end Handling

/-- What the nodes have recorded for `v` grows by the payloads that are recorded for it, and is
never lost. -/
theorem Course.holdings_step (h : Course σ) (hl : σ.Leads v) {e : Event} (he : σ.Enabled e)
    (ha : σ.Asking e) (hp : Fragment.OfTransits p) :
    (σ.step e).holdings v p = σ.holdings v p + tapings v p (σ.delivery? e).toList := by
  cases e with
  | request b module x =>
    have d := (σ.agent b).request_starts x module
    have hnone := not_tracks_of_markers ha
    have hbA : b ≠ v.initiator := by
      rintro rfl
      have ht := hl.tracks h.ledger
      rw [hnone] at ht
      cases ht
    refine holdings_congr rfl ?_ fun c _ hcA => ?_
    · exact congrArg (Agent.held · v p) (agent_act_ne σ (Ne.symm hbA) _ _ _)
    · have hsent : shipped (letters b (σ.past b) ((σ.agent b).request x module).2 v.initiator) p =
          0 := by
        change shipped (letters b (σ.past b) ((σ.agent b).announce (σ.agent b).nextVersion ++
          [.arm (σ.agent b).policy.responseTimeout]) v.initiator) p = 0
        rw [letters_append, shipped_append, shipped_announce (h.ledger.peers b) he.1]
        · rfl
        · exact he.2
      change shipped ((σ.act b _ _ _).channel c v.initiator) p +
        ((σ.act b _ _ _).agent c).held v p = _
      rw [channel_act, shipped_append]
      by_cases hcb : c = b
      · subst hcb
        have hzero := (h.ledger.sound c).held_of_not_tracks (hnone v) p
        rw [if_pos rfl, hsent, agent_act_self, d.held_eq, hp, if_neg fun hx => nomatch hx.2]
        unfold owed
        rw [hzero]
      · rw [if_neg hcb, agent_act_ne _ hcb]
        rfl
  | timer b status => exact ha.elim
  | payload s r value tag =>
    refine holdings_congr rfl rfl fun c _ _ => ?_
    unfold owed
    rw [shipped_payload he]
    rfl
  | receive s r i x =>
    obtain ⟨hs, hr, hi⟩ := he
    obtain ⟨l, hmail⟩ : ∃ l, (σ.channel s r)[i]? = some l := ⟨_, List.getElem?_eq_getElem hi⟩
    obtain ⟨took, next, effects, m, hstep⟩ := h.ledger.receive hr hmail x
    have hdelivery : σ.delivery? (.receive s r i x) = σ.arrival s r l :=
      congrArg (Option.bind · (σ.arrival s r)) hmail
    rw [hdelivery, hstep]
    by_cases hrA : r = v.initiator
    · exact h.holdings_receive_own hl hs hr hmail m hp hrA
    · exact h.holdings_receive_other hl hr hmail m hp hrA

theorem Leads.asking (hl : σ.Leads v) (h : Ledger σ) {e : Event} (he : σ.Enabled e)
    (ha : σ.Asking e) : (σ.step e).Leads v :=
  ⟨hl.1, (ha.current_eq h he (hl.awaiting h)).trans hl.2⟩

theorem Course.holdings_after (h : Course σ) (hl : σ.Leads v) {es : List Event}
    (hf : σ.Follows Asking es) (hp : Fragment.OfTransits p) :
    (σ.after es).holdings v p = σ.holdings v p + tapings v p (σ.deliveries es) := by
  induction es generalizing σ with
  | nil => rfl
  | cons e es ih =>
    have hstep := h.holdings_step hl hf.1 hf.2.1 hp
    have hrest := ih (h.step hf.1 hf.2.1) (hl.asking h.ledger hf.1 hf.2.1) hf.2.2
    change ((σ.step e).after es).holdings v p = _
    rw [hrest, hstep, deliveries, tapings, tapings, tapings, List.countP_append, Nat.add_assoc]

theorem delivery?_eq_some {e : Event} {d : Delivery} (hd : σ.delivery? e = some d) :
    ∃ s r i x l, e = .receive s r i x ∧ (σ.channel s r)[i]? = some l ∧
      l.notice? = some (.payload d.value d.sender d.tag) ∧ d = ⟨s, r, d.value, d.sender, d.tag,
        l.past, σ.past r, (σ.agent r).recording⟩ := by
  cases e with
  | request => cases hd
  | timer => cases hd
  | payload => cases hd
  | receive s r i x =>
    obtain ⟨l, hl, hd⟩ := Option.bind_eq_some_iff.mp hd
    refine ⟨s, r, i, x, l, rfl, hl, ?_⟩
    unfold arrival at hd
    split at hd
    · rename_i value sender tag hn
      obtain rfl := Option.some.inj hd
      exact ⟨hn, rfl⟩
    · cases hd

/-- Nothing is recorded for a version that nobody knows. -/
theorem tapings_of_unknown (h : Ledger σ) (hv : ∀ c, v ∉ σ.past c) (e : Event) :
    tapings v p (σ.delivery? e).toList = 0 := by
  refine List.countP_eq_zero.mpr fun d hd ht => ?_
  obtain ⟨s, r, i, x, l, -, -, -, hd⟩ := delivery?_eq_some (Option.mem_toList.mp hd)
  rw [Bool.and_eq_true, Delivery.taped, decide_eq_true_eq, hd] at ht
  exact hv r (h.tracked r v ((h.sound r).recording_tracked v ht.1.1))

/-- When a version is started, nothing is recorded for it. -/
theorem Course.holdings_start (h : Course σ) {b : String} (hv : v = (σ.agent b).nextVersion)
    {module : String} {x : Float} (he : σ.Enabled (.request b module x))
    (ha : σ.Asking (.request b module x)) (hp : Fragment.OfTransits p) :
    (σ.step (.request b module x)).holdings v p = 0 := by
  have hb : v.initiator = b := hv ▸ h.ledger.uuid b
  have hfresh : ∀ c, v ∉ σ.past c := fun c => hv ▸ h.ledger.nextVersion_fresh b c
  have hself : (σ.step (.request b module x)).agent b = ((σ.agent b).request x module).1 :=
    agent_act_self σ b _ _ _
  have howed : ∀ c ∈ (σ.step (.request b module x)).nodes, c ≠ v.initiator →
      (σ.step (.request b module x)).owed v p c = 0 := by
    intro c _ hcA
    have hcb : c ≠ b := hb ▸ hcA
    have hagent : (σ.step (.request b module x)).agent c = σ.agent c := agent_act_ne σ hcb _ _ _
    have hchan : (σ.step (.request b module x)).channel c v.initiator = σ.channel c v.initiator :=
      if_neg hcb
    have hempty : shipped (σ.channel c v.initiator) p = 0 := by
      refine shipped_eq_zero (fun l hl f hf => ?_) p
      rw [hb] at hl
      have hwait := (h.live.mailed c b he.1 l hl f (Letter.fragment?_eq_some.mpr hf)).1
      have ht := (h.ledger.sound b).awaiting_tracks hwait
      rw [not_tracks_of_markers ha] at ht
      cases ht
    rw [owed, hchan, hempty, hagent,
      (h.ledger.sound c).held_of_not_tracks (h.ledger.not_tracks (hfresh c))]
  rw [holdings_of_nothing_owed howed, hb, hself,
    ((σ.agent b).request_starts x module).held_eq, hp, if_neg fun hx => nomatch hx.2]

/-- Over a whole round, the nodes record for a version just the payloads that they record for it. -/
theorem Course.holdings_of_asks (h : Course σ) {es : List Event} (hf : σ.Follows Asking es)
    {b : String} (hb : Asks es b) (hv : v = (σ.agent b).nextVersion)
    (hp : Fragment.OfTransits p) :
    (σ.after es).holdings v p = tapings v p (σ.deliveries es) := by
  induction es generalizing σ with
  | nil =>
    obtain ⟨_, _, hm⟩ := hb
    cases hm
  | cons e es ih =>
    have hnext := h.step hf.1 hf.2.1
    have happend : tapings v p (σ.deliveries (e :: es)) =
        tapings v p (σ.delivery? e).toList + tapings v p ((σ.step e).deliveries es) :=
      List.countP_append
    have hnone := tapings_of_unknown (p := p) h.ledger
      (fun c => hv ▸ h.ledger.nextVersion_fresh b c) e
    rw [happend, hnone, Nat.zero_add]
    by_cases hreq : ∃ module x, e = .request b module x
    · obtain ⟨module, x, rfl⟩ := hreq
      have hi : v.initiator = b := hv ▸ h.ledger.uuid b
      have hl : (σ.step (.request b module x)).Leads v := by
        refine ⟨hv ▸ (σ.agent b).nextVersion_ne_sentinel, ?_⟩
        rw [hi, hv]
        exact (congrArg Agent.current (agent_act_self σ b _ _ _)).trans
          ((σ.agent b).request_starts x module).current
      exact (hnext.holdings_after hl hf.2.2 hp).trans
        (by rw [h.holdings_start hv hf.1 hf.2.1 hp, Nat.zero_add])
    · have hne : ∀ module x, e ≠ .request b module x := fun module x he => hreq ⟨module, x, he⟩
      obtain ⟨module, x, hm⟩ := hb
      refine ih hnext hf.2.2 ⟨module, x, ?_⟩ ?_
      · exact (List.mem_cons.mp hm).resolve_left fun he => hne module x he.symm
      · rw [(hf.2.1.not_started h.ledger hf.1 hne).1]
        exact hv

/-- A version that anybody knows is one that its initiator waits for. -/
theorem Course.leads_step (h : Course σ) (hs : ∀ b, v ∈ σ.past b → σ.Leads v) {e : Event}
    (he : σ.Enabled e) (ha : σ.Asking e) :
    ∀ b, v ∈ (σ.step e).past b → (σ.step e).Leads v := by
  intro b hv
  rcases h.ledger.turns he with
    ⟨s, r, value, tag, rfl⟩ | ⟨τ, c, x, notice, took, next, effects, d, hstep⟩
  · exact hs b hv
  · rw [hstep] at hv
    rcases mem_past_act.mp hv with ⟨-, ht⟩ | hv
    · exact d.leads_of_took h.ledger h.live (ha.orderly h.ledger he) hstep ht
    · rw [past, d.same.2.2] at hv
      exact (hs b hv).asking h.ledger he ha

/-- The receiver of a payload that crosses the cut of `v` waits for the marker of the sender. -/
theorem Course.taped_of_crosses (h : Course σ) (hslice : σ.Sliced)
    (hs : ∀ b, v ∈ σ.past b → σ.Leads v) {e : Event} (he : σ.Enabled e) (ho : σ.InOrder e)
    {d : Delivery} (hd : σ.delivery? e = some d) (hx : d.Crosses v) :
    d.taped v ∧ d.sender = d.source := by
  obtain ⟨q, r, i, x, l, rfl, hl, hn, heq⟩ := delivery?_eq_some hd
  obtain ⟨hq, hr, -⟩ := he
  obtain rfl : i = 0 := ho
  obtain ⟨hne, hconcerns, hsent, hknown⟩ := hx
  rw [Delivery.taped, decide_eq_true_eq]
  rw [heq] at hne hsent hknown ⊢
  dsimp only at hne hsent hknown ⊢
  refine ⟨⟨?_, hconcerns⟩, (h.ledger.posted q r l (List.mem_of_getElem? hl)).allowed _ hn hne⟩
  have hlead := hs r hknown
  have w := h.waves v hlead
  -- The payload was sent before the sender's marker, and channels keep the order.
  have hunheard : q ∉ σ.heard r v := by
    have hcut := hslice q hq r hr hne
    cases hls : σ.channel q r with
    | nil => simp [hls] at hl
    | cons m ls =>
      obtain rfl : m = l := by simpa [hls] using hl
      rw [hls] at hcut
      exact fun hm => hsent ((hcut.1 (Letter.isPayload_eq hn) v).mpr hm)
  have hroom := room_of_unheard h.ledger h.conserved w.once hq hr hne hunheard
  -- A marker is missing, so the receiver has not counted as many as end its recording.
  by_cases hrA : r = v.initiator
  · subst hrA
    rw [w.recording (by omega), w.counting]
    omega
  · by_cases ht : (σ.agent r).tracks v
    · refine ((h.ledger.sound r).foreign v ht ?_).1
      rw [h.ledger.uuid]
      exact Ne.symm hrA
    · have hfin := ((w.share r hr hrA).finished hknown (by simpa using ht)).1
      omega

theorem Course.crossings (h : Course σ) (hslice : σ.Sliced) (hs : ∀ b, v ∈ σ.past b → σ.Leads v)
    {es : List Event} (hf : σ.Follows (fun τ e => InOrder τ e ∧ Asking τ e) es) :
    ∀ d ∈ σ.deliveries es, d.Crosses v → d.taped v ∧ d.sender = d.source := by
  induction es generalizing σ with
  | nil => nofun
  | cons e es ih =>
    obtain ⟨he, ⟨ho, ha⟩, hrest⟩ := hf
    intro d hd hx
    rcases List.mem_append.mp hd with hd | hd
    · exact h.taped_of_crosses hslice hs he ho (Option.mem_toList.mp hd) hx
    · exact ih (h.step he ha) (hslice.step h.ledger h.conserved he ho) (h.leads_step hs he ha)
        hrest d hd hx

/-- With nothing under way, all that was recorded for `v` is with its initiator. -/
theorem Course.holdings_of_drained (h : Course σ) (hl : σ.Leads v) (hd : σ.Drained)
    (p : Fragment → Bool) : σ.holdings v p = (σ.agent v.initiator).held v p := by
  refine holdings_of_nothing_owed fun c hc hne => ?_
  rw [owed, hd c hc _ (hl.mem_nodes h.ledger),
    (h.ledger.sound c).held_of_not_tracks (h.not_tracks hd hl hc hne)]
  rfl

/-- From any idle state that a mesh reaches, with first-in-first-out channels: when everything is
delivered, a node that asked holds, for its version, just one fragment for each delivery that was
recorded for it; and every delivery that crosses its cut was. -/
theorem crossing_recorded (hr : σ.Reachable) (hi : σ.Idle) {es : List Event}
    (hf : σ.Follows (fun τ e => InOrder τ e ∧ Asking τ e) es) (hd : (σ.after es).Drained)
    {b : String} (hb : Asks es b) (hv : v = (σ.agent b).nextVersion) :
    ((((σ.after es).agent b).fragments v).filter Fragment.isTransit).Perm
        (((σ.deliveries es).filter (Delivery.taped v)).map Delivery.fragment) ∧
      ∀ d ∈ σ.deliveries es, d.Crosses v → d.taped v ∧ d.sender = d.source := by
  have h := Course.of_idle hr hi
  have hask : σ.Follows Asking es := hf.mono fun _ _ hr => hr.2
  have hslice : σ.Sliced := by
    intro q hq r hr _
    rw [hi.2 q hq r hr]
    trivial
  have hfresh : ∀ c, v ∉ σ.past c := fun c => hv ▸ h.ledger.nextVersion_fresh b c
  have hend := h.after hask
  have hA : v.initiator = b := hv ▸ h.ledger.uuid b
  have hl : (σ.after es).Leads v := by
    refine ⟨hv ▸ (σ.agent b).nextVersion_ne_sentinel, ?_⟩
    rw [hA, (Asking.started h.ledger hask b).1 hb, hv]
  refine ⟨List.perm_iff_count.mpr fun f => ?_,
    h.crossings hslice (fun c hc => absurd hc (hfresh c)) hf⟩
  have hp : Fragment.OfTransits fun g => g == f && g.isTransit := fun _ _ => Bool.and_false _
  have hsum := h.holdings_of_asks hask hb hv hp
  rw [hend.holdings_of_drained hl hd, hA] at hsum
  rw [List.count_eq_countP, List.count_eq_countP, List.countP_filter, List.countP_map,
    List.countP_filter]
  refine hsum.trans (List.countP_congr fun d _ => ?_)
  simp [Delivery.fragment, Fragment.isTransit, and_comm]

/-- One payload on its way to the initiator and one between the two others when the first node asks;
each arrives after its receiver has recorded the version. -/
def parcels : List Event :=
  [.payload "c" "b" "memo" none, .payload "b" "a" "note" (some ⟨"a", 1⟩), .request "a" "gm" 1,
    .receive "b" "a" 0 1, .receive "a" "b" 0 2, .receive "c" "b" 0 2, .receive "a" "c" 0 3,
    .receive "b" "a" 0 1, .receive "c" "a" 0 1, .receive "c" "b" 0 2, .receive "b" "c" 0 3,
    .receive "b" "a" 0 1, .receive "b" "a" 0 1, .receive "c" "a" 0 1]

set_option maxRecDepth 4000 in
/-- The two payloads, put to the general statement. -/
theorem parcels_recorded :
    three.Follows (fun τ e => InOrder τ e ∧ Asking τ e) parcels ∧ (three.after parcels).Drained ∧
      ((((three.after parcels).agent "a").fragments ⟨"a", 1⟩).filter Fragment.isTransit).Perm
        [.transit "note" "b" "a", .transit "memo" "c" "b"] ∧
      (three.deliveries parcels).length = 2 ∧
      ∀ d ∈ three.deliveries parcels, d.Crosses ⟨"a", 1⟩ ∧ d.taped ⟨"a", 1⟩ := by
  have hr : three.Reachable := .initial (by decide) _
  have hf : three.Follows (fun τ e => InOrder τ e ∧ Asking τ e) parcels := by decide +kernel
  have hd : (three.after parcels).Drained := by decide +kernel
  have hb : Asks parcels "a" := ⟨"gm", 1, by simp [parcels]⟩
  have hx : ∀ d ∈ three.deliveries parcels, d.Crosses ⟨"a", 1⟩ := by decide +kernel
  obtain ⟨hperm, htaped⟩ := crossing_recorded hr (by decide) hf hd hb
    (v := ⟨"a", 1⟩) (by decide)
  have hfragments : ((three.deliveries parcels).filter (Delivery.taped ⟨"a", 1⟩)).map
      Delivery.fragment = [.transit "note" "b" "a", .transit "memo" "c" "b"] := by decide +kernel
  rw [hfragments] at hperm
  exact ⟨hf, hd, hperm, by decide +kernel, fun d hd => ⟨hx d hd, (htaped d hd (hx d hd)).1⟩⟩

end Mesh

end PhasedGrid.Snapshot
