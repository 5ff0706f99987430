import PhasedGrid.Proofs.Mesh.Spread

/-!
First-in-first-out channels and the versions of one initiator, each of which replaces the one before
it. A node that starts no snapshot of its own on top of them takes them up in the order in which
they were started, so it announces each of them once; then the number of markers that it has handled
tells whose markers these were.
-/

namespace PhasedGrid.Snapshot

set_option autoImplicit false

open PhasedGrid.Peer (Network)
open Agent (Turn Handling Marking Acting)

/-- `w` is `v` or a later version of the same initiator. -/
def Version.Onward (v w : Version) : Prop := w.initiator = v.initiator ∧ v.sequence ≤ w.sequence

instance (v w : Version) : Decidable (v.Onward w) :=
  inferInstanceAs (Decidable (w.initiator = v.initiator ∧ v.sequence ≤ w.sequence))

/-- Of two versions from `v` on, the second one is the later one. -/
def Version.Orders (v u w : Version) : Prop := v.Onward u → v.Onward w → u.sequence < w.sequence

namespace Mesh

/-- Only the initiator of `v` starts a snapshot while it tracks `v` or a later version of that
initiator. -/
def Devoted (v : Version) (σ : Mesh) : Event → Prop
  | .request b _ _ => b ≠ v.initiator → ∀ w ∈ Table.keys (σ.agent b).markers, ¬ v.Onward w
  | _ => True

instance (v : Version) (σ : Mesh) : DecidablePred (Devoted v σ)
  | .request b _ _ => inferInstanceAs
      (Decidable (b ≠ v.initiator → ∀ w ∈ Table.keys (σ.agent b).markers, ¬ v.Onward w))
  | .timer _ _ => isTrue trivial
  | .payload _ _ _ _ => isTrue trivial
  | .receive _ _ _ _ => isTrue trivial

/-- A node has handled a marker of `v` from every other node. -/
def HeardAll (σ : Mesh) (b : String) (v : Version) : Prop :=
  ∀ s ∈ σ.nodes, s ≠ b → s ∈ σ.heard b v

instance (σ : Mesh) (b : String) (v : Version) : Decidable (σ.HeardAll b v) :=
  inferInstanceAs (Decidable (∀ s ∈ σ.nodes, s ≠ b → s ∈ σ.heard b v))

/-- No node counts more markers of a version than it has handled, but for the one with which its
initiator starts. -/
def Tallied (σ : Mesh) : Prop :=
  ∀ b v, (σ.agent b).markerCount v ≤ (σ.heard b v).length + if v.initiator = b then 1 else 0

structure Succession (σ : Mesh) (v : Version) : Prop where
  rising : ∀ b, (σ.past b).Pairwise fun late early => v.Orders early late
  settled : ∀ b ∈ σ.nodes, b ≠ v.initiator → ∀ u ∈ σ.past b, v.Onward u →
    ∃ m, v.Onward m ∧ u.sequence ≤ m.sequence ∧ ((σ.agent b).tracks m ∨ σ.HeardAll b m)
  queued : ∀ s r, (σ.channel s r).Pairwise fun l l' => ∀ u w,
    l.notice? = some (.marker u) → l'.notice? = some (.marker w) → v.Orders u w
  passed : ∀ r u, ∀ s ∈ σ.heard r u, ∀ l ∈ σ.channel s r, ∀ w,
    l.notice? = some (.marker w) → v.Orders u w

variable {σ τ : Mesh} {v : Version}

theorem tallied_start (nodes : List String) (policy : String → Policy) :
    (start nodes policy).Tallied := fun _ _ => Nat.zero_le _

theorem Tallied.step (ht : σ.Tallied) (h : Ledger σ) {e : Event} (he : σ.Enabled e) :
    (σ.step e).Tallied := by
  rcases h.turns he with ⟨s, r, value, tag, rfl⟩ | ⟨τ, b, x, notice, took, next, effects, d, hstep⟩
  · exact ht
  rw [hstep]
  intro c w
  have hheard : (σ.heard c w).length + (if c = b ∧ notice = some (.marker w) then 1 else 0) =
      (τ.heard c w).length := by
    rcases d.letter with ⟨rfl, rfl⟩ | ⟨s, i, l, -, rfl, rfl⟩
    · rw [if_neg fun hx => nomatch hx.2]
      rfl
    · unfold consume
      dsimp only
      split <;> rfl
  have hc := ht c w
  change _ ≤ (τ.heard c w).length + _
  by_cases hcb : c = b
  · subst hcb
    rw [agent_act_self]
    rcases d.acting.markerCount_le w with hm | ⟨hi, hm⟩
    · rw [← hheard]
      simp only [true_and]
      omega
    · rw [hm, if_pos (hi.trans (h.uuid c))]
      exact Nat.le_add_left 1 _
  · rw [agent_act_ne _ hcb, d.same.2.1]
    omega

theorem Succession.start (nodes : List String) (policy : String → Policy) (v : Version) :
    (Mesh.start nodes policy).Succession v where
  rising _ := List.Pairwise.nil
  settled _ _ _ _ hu := by cases hu
  queued _ _ := List.Pairwise.nil
  passed _ _ _ hs := by cases hs

/-- Versions from `v` on are recorded once each. -/
theorem Succession.once (w : σ.Succession v) (b : String) {u : Version} (hu : v.Onward u) :
    (σ.past b).count u ≤ 1 := by
  have hne : ((σ.past b).filter fun u => decide (v.Onward u)).Nodup := by
    refine ((w.rising b).filter _).imp_of_mem fun {late early} hl he hlt => ?_
    rintro rfl
    have ho := of_decide_eq_true (List.mem_filter.mp hl).2
    exact Nat.lt_irrefl _ (hlt ho ho)
  rw [← List.count_filter (p := fun u => decide (v.Onward u)) (decide_eq_true hu)]
  exact List.nodup_iff_count_le_one.mp hne u

theorem HeardAll.of_length (h : Ledger σ) (hc : σ.Conserved)
    (honce : ∀ b, (σ.past b).count v ≤ 1) {r : String} (hr : r ∈ σ.nodes)
    (hlen : σ.nodes.length ≤ (σ.heard r v).length + 1) : σ.HeardAll r v := by
  intro s hs hne
  by_contra hnot
  have := room_of_unheard h hc honce hs hr hne hnot
  omega

theorem HeardAll.consume {b : String} {u : Version} (ha : σ.HeardAll b u) (s r : String) (i : Nat)
    (l : Letter) : (σ.consume s r i l).HeardAll b u :=
  fun q hq hne => mem_heard_consume.mpr (Or.inr (ha q hq hne))

theorem Succession.payload (w : σ.Succession v) {s r value : String} {tag : Option Version}
    (he : σ.Enabled (.payload s r value tag)) :
    (σ.step (.payload s r value tag)).Succession v := by
  have hnew : ∀ u, Letter.notice? ⟨Network.stamp s (Wire.payload s value tag), σ.past s⟩ ≠
      some (.marker u) := by
    intro u
    rw [Letter.notice?_payload s he.2.2.1 he.2.2.2]
    simp
  refine ⟨w.rising, w.settled, fun s' r' => ?_, fun r' u s' hs l hl m hm => ?_⟩
  · unfold step
    dsimp only
    split
    · refine List.pairwise_append.mpr ⟨w.queued s' r', List.pairwise_singleton _ _, ?_⟩
      intro l hl l' hl' u m hu hm
      rw [List.mem_singleton.mp hl'] at hm
      exact absurd hm (hnew m)
    · exact w.queued s' r'
  · rcases mem_channel_payload hl with hl | ⟨-, -, rfl⟩
    · exact w.passed r' u s' hs l hl m hm
    · exact absurd hm (hnew m)

/-- The oldest letter of a channel is handled. -/
theorem Succession.consume (w : σ.Succession v) {s r : String} {l : Letter}
    (hl : (σ.channel s r)[0]? = some l) : (σ.consume s r 0 l).Succession v := by
  have hcons : σ.channel s r = l :: (σ.channel s r).eraseIdx 0 := by
    cases hch : σ.channel s r with
    | nil => simp [hch] at hl
    | cons l' rest =>
      rw [hch] at hl
      rw [Option.some.inj hl]
      rfl
  refine ⟨w.rising, fun b hb hne u hu ho => ?_, fun s' r' => ?_, fun r' u s' hs l' hl' m hm => ?_⟩
  · obtain ⟨m, hm, hle, hor⟩ := w.settled b hb hne u hu ho
    exact ⟨m, hm, hle, hor.imp id fun ha => ha.consume s r 0 l⟩
  · unfold Mesh.consume
    dsimp only
    split
    · exact (w.queued s' r').sublist (List.eraseIdx_sublist _ _)
    · exact w.queued s' r'
  · rcases mem_heard_consume.mp hs with ⟨rfl, rfl, hu⟩ | hs
    · have htail : l' ∈ (σ.channel s' r').eraseIdx 0 := by
        unfold Mesh.consume at hl'
        simpa using hl'
      have hq := w.queued s' r'
      rw [hcons] at hq
      exact (List.pairwise_cons.mp hq).1 l' htail u m hu hm
    · exact w.passed r' u s' hs l' (mem_channel_consume hl') m hm

/-- The only marker among the letters of a turn is that of the version taken up. -/
theorem marker_of_turn (h : Ledger σ) {b : String} (hb : b ∈ σ.nodes) {took : Option Version}
    {next : Agent} {effects : List Effect} (t : Turn (σ.agent b) took next effects)
    (hseq : ∀ w ∈ took, w.sequence ≤ Decimal.maxU64) (r : String) :
    (∀ l ∈ letters b (σ.past b) effects r, ∀ w, l.notice? = some (.marker w) → took = some w) ∧
      (letters b (σ.past b) effects r).Pairwise fun l l' => ∀ u w,
        l.notice? = some (.marker u) → l'.notice? = some (.marker w) → v.Orders u w := by
  obtain ⟨plain, hplain, hletters⟩ := letters_turn t (h.uuid b) (h.peers b) hb (σ.past b) r
  have hno : ∀ l ∈ plain, ∀ w, l.notice? ≠ some (.marker w) := by
    intro l hl w hw
    rcases (hplain l hl).2 _ hw with ⟨f, hf, -⟩ | ⟨value, source, tag, hf, -⟩
    · cases hf
    · cases hf
  have hpair : plain.Pairwise fun l l' => ∀ u w,
      l.notice? = some (.marker u) → l'.notice? = some (.marker w) → v.Orders u w :=
    List.pairwise_of_forall_mem_list fun l hl _ _ u _ hu => absurd hu (hno l hl u)
  rw [hletters]
  cases took with
  | none => exact ⟨fun l hl w hw => absurd hw (hno l hl w), hpair⟩
  | some m =>
    dsimp only
    split
    · refine ⟨fun l hl w hw => ?_, List.pairwise_cons.mpr ⟨fun l hl u w _ hw => ?_, hpair⟩⟩
      · rcases List.mem_cons.mp hl with rfl | hl
        · rw [Letter.notice?_marker b (hseq m rfl)] at hw
          cases hw
          rfl
        · exact absurd hw (hno l hl w)
      · exact absurd hw (hno l hl w)
    · exact ⟨fun l hl w hw => absurd hw (hno l hl w), hpair⟩

/-- A node acts: what it takes up is later than what it recorded before, and what it gives up of the
versions from `v` on is over or has a later one in its place. -/
theorem Succession.act (w : σ.Succession v) (h : Ledger σ) {b : String} (hb : b ∈ σ.nodes)
    {took : Option Version} {next : Agent} {effects : List Effect}
    (t : Turn (σ.agent b) took next effects) (hseq : ∀ m ∈ took, m.sequence ≤ Decimal.maxU64)
    (hnew : ∀ m ∈ took, ∀ u ∈ σ.past b, v.Orders u m)
    (hkept : b ≠ v.initiator → ∀ u, v.Onward u → (σ.agent b).tracks u ∨ took = some u →
      ∃ m, v.Onward m ∧ u.sequence ≤ m.sequence ∧ (next.tracks m ∨ σ.HeardAll b m)) (x : Float) :
    (σ.act b (took.map (·, x)) next effects).Succession v := by
  refine ⟨fun c => ?_, fun c hc hne u hu ho => ?_, fun s r => ?_, fun r u s hs l hl m hm => ?_⟩
  · rw [past_act]
    by_cases hcb : c = b
    · subst hcb
      rw [if_pos rfl]
      cases took with
      | none => exact w.rising c
      | some m => exact List.pairwise_cons.mpr ⟨hnew m rfl, w.rising c⟩
    · rw [if_neg hcb]
      exact w.rising c
  · by_cases hcb : c = b
    · subst hcb
      rw [agent_act_self]
      rcases mem_past_act.mp hu with ⟨-, hu⟩ | hu
      · exact hkept hne u ho (Or.inr hu)
      · obtain ⟨m, hm, hle, htr | hall⟩ := w.settled c hc hne u hu ho
        · obtain ⟨m', hm', hle', hor⟩ := hkept hne m hm (Or.inl htr)
          exact ⟨m', hm', Nat.le_trans hle hle', hor⟩
        · exact ⟨m, hm, hle, Or.inr hall⟩
    · rw [agent_act_ne _ hcb]
      exact w.settled c hc hne u ((mem_past_act.mp hu).resolve_left fun hx => hcb hx.1) ho
  · rw [channel_act]
    by_cases hs : s = b
    · subst hs
      obtain ⟨hmark, hpair⟩ := marker_of_turn (v := v) h hb t hseq r
      rw [if_pos rfl]
      refine List.pairwise_append.mpr ⟨w.queued s r, hpair, fun l hl l' hl' u m hu hm => ?_⟩
      exact hnew m (hmark l' hl' m hm) u ((h.posted s r l hl).allowed _ hu).1
    · rw [if_neg hs, List.append_nil]
      exact w.queued s r
  · rw [channel_act, List.mem_append] at hl
    rcases hl with hl | hl
    · exact w.passed r u s hs l hl m hm
    · split at hl
      · rename_i hsb
        subst hsb
        have hmark := (marker_of_turn (v := v) h hb t hseq r).1
        exact hnew m (hmark l hl m hm) u (h.heard r u s hs).2.1
      · cases hl

/-- With a marker at the head of a channel to it, a node takes up no version that it has recorded
already or left behind. -/
theorem Succession.took_later (w : σ.Succession v) (h : Ledger σ) {s r : String} {l : Letter}
    (hr : r ∈ σ.nodes) (hl : (σ.channel s r)[0]? = some l) {x : Float} {took : Option Version}
    {next : Agent} {effects : List Effect}
    (m : Handling (σ.agent r) x l.notice? took next effects) :
    ∀ u ∈ took, ∀ old ∈ σ.past r, v.Orders old u := by
  intro u hu old hold ho hou
  have hmem := List.mem_of_getElem? hl
  obtain ⟨hn, -⟩ := h.took_issued hmem m hu
  have hp := h.posted s r l hmem
  rw [hn] at m
  obtain ⟨htr, hst⟩ : (σ.agent r).tracks u = false ∧ (σ.agent r).isStale u = false := by
    cases m with
    | marker hs m =>
      cases m with
      | opened hv hst _ => exact ⟨hv, hst⟩
      | passed hv hst _ => exact ⟨hv, hst⟩
      | own _ _ => cases hu
      | counted _ _ _ => cases hu
      | finished _ _ _ => cases hu
      | stale _ _ => cases hu
  obtain ⟨-, hi, hsup⟩ := ((σ.agent r).isStale_eq_false_iff u).mp hst
  rw [h.uuid] at hi
  have hrA : r ≠ v.initiator := fun he => hi (hou.1.trans he.symm)
  by_contra hle
  -- A version from `old` on is tracked or over. If tracked, it makes `u` stale or is `u` itself; if
  -- over, its marker came from `s` before the one at hand.
  obtain ⟨k, hk, hkle, htk | hall⟩ := w.settled r hr hrA old hold ho
  · rcases Nat.lt_or_ge u.sequence k.sequence with hlt | hge
    · exact hsup k htk ((Agent.supersedes_iff k u).mpr ⟨hk.1.trans hou.1.symm, hlt⟩)
    · have hseq : k.sequence = u.sequence := by omega
      have hku : k = u := by
        cases k
        cases u
        exact congrArg₂ Version.mk (hk.1.trans hou.1.symm) hseq
      rw [hku, htr] at htk
      cases htk
  · have hlt := w.passed r k s (hall s hp.sender (hp.allowed _ hn).2) l hmem u hn hk hou
    omega

/-- What a node does with a marker of `u` to the versions from `v` on. -/
theorem Succession.kept (w : σ.Succession v) (h : Ledger σ) (hc : σ.Conserved) (ht : σ.Tallied)
    {s r : String} {l : Letter} (hr : r ∈ σ.nodes) (hl : (σ.channel s r)[0]? = some l) {x : Float}
    {took : Option Version} {next : Agent} {effects : List Effect}
    (m : Handling (σ.agent r) x l.notice? took next effects) :
    ∀ u, v.Onward u → (σ.agent r).tracks u ∨ took = some u →
      ∃ k, v.Onward k ∧ u.sequence ≤ k.sequence ∧
        (next.tracks k ∨ (σ.consume s r 0 l).HeardAll r k) := by
  intro u ho hu
  have hmem := List.mem_of_getElem? hl
  have hsize := h.own_peer hr
  have hall : ∀ k, v.Onward k → l.notice? = some (.marker k) →
      σ.nodes.length ≤ (σ.heard r k).length + 2 → (σ.consume s r 0 l).HeardAll r k := by
    intro k hk hn hlen
    refine .of_length (h.consume hmem) (hc.consume hl) (fun b => w.once b hk) hr ?_
    rw [heard_consume_marker 0 hn r, if_pos rfl]
    exact hlen
  generalize hn : l.notice? = notice at m
  cases m with
  | ignored => exact ⟨u, ho, Nat.le_refl _, Or.inl (hu.resolve_right nofun)⟩
  | state f =>
    refine ⟨u, ho, Nat.le_refl _, Or.inl ?_⟩
    rw [(Agent.onState_spares _ f u).tracks]
    exact hu.resolve_right nofun
  | payload value sender tag =>
    refine ⟨u, ho, Nat.le_refl _, Or.inl ?_⟩
    rw [(Agent.onPayload_spares _ value sender tag u).tracks]
    exact hu.resolve_right nofun
  | @marker k _ _ _ hs m =>
    have htaken : ∀ k', v.Onward k' → took = some k' →
        next.tracks k' ∨ (σ.consume s r 0 l).HeardAll r k' := by
      intro k' hk' hk
      obtain ⟨rfl, htr | hle⟩ := m.took_tracks hk
      · exact Or.inl htr
      · exact Or.inr (hall k hk' hn (by omega))
    rcases hu with hu | hu
    · -- What was tracked stays, is completed by this very marker, or gives way to its version.
      rcases m.tracks_or hu with htr | ⟨rfl, hi, hlast⟩ | ⟨hk, hsup⟩
      · exact ⟨u, ho, Nat.le_refl _, Or.inl htr⟩
      · have hcount := ht r k
        rw [h.uuid] at hi
        rw [if_neg hi] at hcount
        exact ⟨k, ho, Nat.le_refl _, Or.inr (hall k ho hn (by omega))⟩
      · obtain ⟨hi, hlt⟩ := (Agent.supersedes_iff k u).mp hsup
        have hk' : v.Onward k := ⟨hi.trans ho.1, Nat.le_trans ho.2 (Nat.le_of_lt hlt)⟩
        exact ⟨k, hk', Nat.le_of_lt hlt, htaken k hk' hk⟩
    · exact ⟨u, ho, Nat.le_refl _, htaken u ho hu⟩

theorem Succession.step (w : σ.Succession v) (h : Ledger σ) (hc : σ.Conserved) (ht : σ.Tallied)
    {e : Event} (he : σ.Enabled e) (hfifo : InOrder σ e) (hrule : Devoted v σ e) :
    (σ.step e).Succession v := by
  cases e with
  | request b module x =>
    have t := (h.sound b).request_turn x module
    refine w.act h he.1 t (fun m hm => ?_) (fun m hm u hu ho hom => ?_) (fun hbA u ho hu => ?_) x
    · rw [← Option.some.inj hm]
      exact he.2
    · obtain rfl := Option.some.inj hm
      have hlast := (h.issued b u hu).2.2
      have hi : u.initiator = b := ho.1.trans (hom.1.symm.trans (h.uuid b))
      rw [hi] at hlast
      exact Nat.lt_succ_of_le hlast
    · exfalso
      rcases hu with hu | hu
      · exact hrule hbA u ((Table.mem_keys_iff u _).mpr hu) ho
      · rw [← Option.some.inj hu] at ho
        exact hbA ((h.uuid b).symm.trans ho.1)
  | timer b status =>
    have m := (σ.agent b).onTimer_expiring status
    have t := (h.sound b).expiring_turn m
    refine w.act h he t nofun nofun (fun hbA u ho hu => ?_) 0
    have hu := hu.resolve_right nofun
    have hsen := (h.issued b u (h.tracked b u hu)).ne_sentinel
    refine ⟨u, ho, Nat.le_refl _, Or.inl ?_⟩
    rw [(m.spares hsen fun ha hcur => ?_).tracks]
    · exact hu
    · have hown := ((σ.agent b).awaiting_iff.mp ha).2
      rw [hcur, h.uuid] at hown
      exact absurd (hown.symm.trans ho.1) hbA
  | payload s r value tag => exact w.payload he
  | receive s r i x =>
    obtain ⟨hs, hr, hi⟩ := he
    obtain rfl : i = 0 := hfifo
    have hl := List.getElem?_eq_getElem hi
    have hmem := List.mem_of_getElem? hl
    obtain ⟨took, next, effects, m, hstep⟩ := h.receive hr hl x
    have t := (h.sound r).handling_turn m
    rw [hstep]
    exact (w.consume hl).act (h.consume hmem) hr t
      (fun u hu => h.sequence_le (h.issued s u (h.took_issued hmem m hu).2))
      (w.took_later h hr hl m) (fun _ => w.kept h hc ht hr hl m) x

theorem Succession.after {nodes : List String} (hn : nodes.Nodup) {policy : String → Policy}
    {es : List Event}
    (hf : (Mesh.start nodes policy).Follows (fun σ e => InOrder σ e ∧ Devoted v σ e) es) :
    ((Mesh.start nodes policy).after es).Succession v ∧
      ((Mesh.start nodes policy).after es).Tallied := by
  have hinv := hf.invariant
    (fun τ => Ledger τ ∧ τ.Conserved ∧ τ.Succession v ∧ τ.Tallied)
    (fun τ e hi he hr => ⟨hi.1.step he, hi.2.1.step hi.1 he,
      hi.2.2.1.step hi.1 hi.2.1 hi.2.2.2 he hr.1 hr.2, hi.2.2.2.step hi.1 he⟩)
    ⟨Ledger.start hn policy, conserved_start nodes policy, .start nodes policy v,
      tallied_start nodes policy⟩
  exact hinv.2.2

/-- The event puts recorded fragments on the way from `r` to `p`. -/
def Ships (σ : Mesh) (e : Event) (r p : String) : Prop :=
  shipped (σ.channel r p) (fun _ => true) < shipped ((σ.step e).channel r p) fun _ => true

instance (σ : Mesh) (e : Event) (r p : String) : Decidable (σ.Ships e r p) :=
  inferInstanceAs (Decidable (shipped (σ.channel r p) (fun _ => true) <
    shipped ((σ.step e).channel r p) fun _ => true))

/-- In the event `r` handles a marker of `v`. -/
def Hears (σ : Mesh) (r : String) (v : Version) : Event → Prop
  | .receive s r' i _ =>
    r' = r ∧ ((σ.channel s r)[i]?.bind Letter.notice?) = some (.marker v)
  | _ => False

/-- Who sends recorded fragments has handled a marker of a version of the receiver, and knows of as
many nodes as it needs. -/
theorem Ships.hears (h : Ledger σ) (ht : σ.Tallied) {e : Event} (he : σ.Enabled e) {r p : String}
    (hs : σ.Ships e r p) :
    ∃ w, σ.Hears r w e ∧ w.initiator = p ∧
      r ∈ σ.nodes ∧ σ.nodes.length ≤ ((σ.step e).heard r w).length + 1 := by
  have hacts : ∀ {τ : Mesh} {b : String} {took : Option (Version × Float)} {next : Agent}
      {effects : List Effect}, τ.past b = σ.past b →
      shipped (τ.channel r p) (fun _ => true) ≤ shipped (σ.channel r p) (fun _ => true) →
      shipped (σ.channel r p) (fun _ => true) <
        shipped ((τ.act b took next effects).channel r p) (fun _ => true) →
      r = b ∧ shipped (letters b (σ.past b) effects p) (fun _ => true) ≠ 0 := by
    intro τ b took next effects hp hle hlt
    rw [channel_act, shipped_append] at hlt
    split at hlt
    · rename_i hrb
      rw [hp] at hlt
      exact ⟨hrb, by omega⟩
    · change _ < _ + 0 at hlt
      omega
  cases e with
  | request b module x =>
    obtain ⟨-, hsent⟩ := hacts (τ := σ) rfl (Nat.le_refl _) hs
    refine absurd ?_ hsent
    have hu : (σ.agent b).uuid = b := h.uuid b
    change shipped (letters b (σ.past b) ((σ.agent b).announce (σ.agent b).nextVersion ++
      [.arm (σ.agent b).policy.responseTimeout]) p) _ = 0
    rw [letters_append, shipped_append, shipped_announce (h.peers b) he.1]
    · rfl
    · exact he.2
  | timer b status =>
    obtain ⟨-, hsent⟩ := hacts (τ := σ) rfl (Nat.le_refl _) hs
    have hu : (σ.agent b).uuid = b := h.uuid b
    have hnone := shipped_expiring ((σ.agent b).onTimer_expiring status) (σ.past b) p fun _ => true
    rw [hu] at hnone
    exact absurd hnone hsent
  | payload s r' value tag =>
    unfold Ships at hs
    rw [shipped_payload he] at hs
    exact absurd hs (Nat.lt_irrefl _)
  | receive s r' i x =>
    obtain ⟨hsn, hr', hi⟩ := he
    have hl := List.getElem?_eq_getElem hi
    have hmem := List.mem_of_getElem? hl
    obtain ⟨took, next, effects, m, hstep⟩ := h.receive hr' hl x
    unfold Ships at hs
    rw [hstep] at hs
    obtain ⟨rfl, hsent⟩ := hacts (τ := σ.consume s r' i _) rfl
      (Nat.le_of_add_right_le (Nat.le_of_eq (shipped_consume hl (fun _ => true) r p))) hs
    have hu := h.uuid r
    have hpeers := h.peers r
    rw [← hu] at hsent hr'
    rw [← congrArg (Peer.Group.ofList · σ.nodes) hu] at hpeers
    obtain ⟨w, hn, hw, hi', hsize⟩ := shipped_handling m hpeers hr' (fun w hn =>
      h.sequence_le (h.issued s w ((h.posted s r _ hmem).allowed _ hn).1)) _ hsent
    rw [hu] at hi' hr'
    refine ⟨w, ⟨rfl, ?_⟩, hw, hr', ?_⟩
    · rw [hl]
      exact hn
    · rw [hstep]
      change _ ≤ ((σ.consume s r i _).heard r w).length + 1
      rw [heard_consume_marker i hn r, if_pos rfl, List.length_cons]
      have hcount := ht r w
      rw [if_neg hi'] at hcount
      rw [h.own_peer hr'] at hsize
      omega

/-- Every node sends its marker of `v` to every other node at most once; an initiator that counts as
many markers as there are nodes has one from each of the others, and so has a node that sends back
what it recorded for `v`. -/
theorem markers_from_all {nodes : List String} (hn : nodes.Nodup) {policy : String → Policy}
    {es : List Event}
    (hf : (start nodes policy).Follows (fun σ e => InOrder σ e ∧ Devoted v σ e) es)
    (hσ : σ = (start nodes policy).after es) :
    (∀ s ∈ nodes, ∀ r ∈ nodes, s ≠ r → σ.underway v s r + (σ.heard r v).count s ≤ 1) ∧
      (nodes.length ≤ (σ.agent v.initiator).markerCount v → σ.HeardAll v.initiator v) ∧
      ∀ e, σ.Enabled e → InOrder σ e → ∀ r p, σ.Ships e r p →
        ∃ w, σ.Hears r w e ∧ w.initiator = p ∧ (w = v → (σ.step e).HeardAll r v) := by
  have hreach : σ.Reachable := hσ ▸ Reachable.of_start hn hf
  have h := hreach.ledger
  have hc := hreach.conserved
  have hnodes : σ.nodes = nodes := hσ ▸ nodes_after _ es
  obtain ⟨w, ht⟩ : σ.Succession v ∧ σ.Tallied := hσ ▸ Succession.after hn hf
  have hv : v.Onward v := ⟨rfl, Nat.le_refl _⟩
  subst hnodes
  refine ⟨fun s hs r hr hne => ?_, fun hcount => ?_, fun e he hfifo r p hsent => ?_⟩
  · rw [hc v s hs r hr hne]
    exact w.once s hv
  · have htally := ht v.initiator v
    rw [if_pos rfl] at htally
    by_cases hA : v.initiator ∈ σ.nodes
    · exact .of_length h hc (fun b => w.once b hv) hA (by omega)
    · have hnone := h.not_tracks fun hp => hA (h.recorder _ v hp)
      rw [Agent.markerCount_of_not_tracks hnone] at hcount
      intro s hs
      exact absurd (List.length_pos_of_mem hs) (by omega)
  · obtain ⟨u, hu, hup, hr, hlen⟩ := hsent.hears h ht he
    refine ⟨u, hu, hup, ?_⟩
    rintro rfl
    have hrule : Devoted u σ e := by
      cases e with
      | receive => trivial
      | request => exact hu.elim
      | timer => trivial
      | payload => trivial
    have w' := w.step h hc ht he hfifo hrule
    rw [← nodes_step σ e] at hr hlen
    exact .of_length (h.step he) (hc.step h he) (fun b => w'.once b hv) hr hlen

/-- The second of four nodes starts a snapshot of its own while it records that of the first, then
records the first one again; the first node counts two markers from it and none from the fourth. -/
def twice : List Event :=
  [.request "a" "gm" 1, .receive "a" "b" 0 2, .request "b" "lb" 2, .receive "a" "c" 0 3,
    .receive "c" "b" 0 2, .receive "b" "a" 0 1, .receive "b" "a" 0 1, .receive "c" "a" 0 1,
    .receive "b" "a" 0 1]

/-- The first node starts so many more snapshots that the third one, which gives up each of them for
the next, no longer remembers the first of them when it starts one of its own. -/
def forgotten : List Event :=
  [.request "a" "gm" 1, .receive "a" "b" 0 2, .receive "a" "c" 0 3] ++
    (List.replicate 33
      [.timer "a" .expired, .request "a" "gm" 1, .receive "a" "c" 0 3]).flatten ++
    [.request "c" "lb" 3, .receive "b" "c" 0 3]

set_option maxRecDepth 10000 in
/-- First-in-first-out channels alone do not make the count tell who was heard, and it is not enough
that a node leaves just the version in question alone. -/
theorem markers_repeated :
    (¬ ∀ nodes policy es v, nodes.Nodup → (start nodes policy).Follows InOrder es →
      nodes.length ≤ (((start nodes policy).after es).agent v.initiator).markerCount v →
      ((start nodes policy).after es).HeardAll v.initiator v) ∧
    ¬ ∀ nodes policy es v, nodes.Nodup →
      (start nodes policy).Follows (fun σ e => InOrder σ e ∧ Loyal v σ e) es →
      ∀ s ∈ nodes, ∀ r ∈ nodes, s ≠ r →
        ((start nodes policy).after es).underway v s r +
          (((start nodes policy).after es).heard r v).count s ≤ 1 := by
  constructor
  · intro h
    have hall := h ["a", "b", "c", "d"] (fun _ => {}) twice ⟨"a", 1⟩ (by decide)
      (by decide +kernel) (by decide +kernel)
    exact absurd hall (by decide +kernel)
  · intro h
    have honce := h ["a", "b", "c"] (fun _ => {}) forgotten ⟨"a", 1⟩ (by decide)
      (by decide +kernel) "c" (by decide) "a" (by decide) (by decide)
    exact absurd honce (by decide +kernel)

/-- Two nodes start snapshots; the first one has all its markers, the second node waits for one. -/
def overlapping : List Event :=
  [.request "c" "lb" 3, .request "a" "gm" 1, .receive "a" "b" 0 2, .receive "a" "c" 0 3,
    .receive "c" "a" 0 1, .receive "b" "a" 0 1, .receive "c" "a" 0 1, .receive "c" "b" 0 2]

set_option maxRecDepth 4000 in
/-- The two snapshots, put to the general statement. -/
theorem overlapping_markers :
    three.Follows (fun σ e => InOrder σ e ∧ Devoted ⟨"a", 1⟩ σ e) overlapping ∧
      3 ≤ ((three.after overlapping).agent "a").markerCount ⟨"a", 1⟩ ∧
      (three.after overlapping).HeardAll "a" ⟨"a", 1⟩ ∧
      (three.after overlapping).Ships (.receive "c" "b" 0 2) "b" "a" ∧
      ∃ w, (three.after overlapping).Hears "b" w (.receive "c" "b" 0 2) ∧ w.initiator = "a" ∧
        (w = ⟨"a", 1⟩ →
          ((three.after overlapping).step (.receive "c" "b" 0 2)).HeardAll "b" ⟨"a", 1⟩) := by
  have hn : ["a", "b", "c"].Nodup := by decide
  have hf : three.Follows (fun σ e => InOrder σ e ∧ Devoted ⟨"a", 1⟩ σ e) overlapping := by
    decide +kernel
  have hcount : 3 ≤ ((three.after overlapping).agent "a").markerCount ⟨"a", 1⟩ := by decide +kernel
  have he : (three.after overlapping).Enabled (.receive "c" "b" 0 2) := by decide +kernel
  have hs : (three.after overlapping).Ships (.receive "c" "b" 0 2) "b" "a" := by decide +kernel
  obtain ⟨-, hall, hsent⟩ := markers_from_all hn hf rfl
  exact ⟨hf, hcount, hall hcount, hs, hsent _ he rfl "b" "a" hs⟩

end Mesh

end PhasedGrid.Snapshot
