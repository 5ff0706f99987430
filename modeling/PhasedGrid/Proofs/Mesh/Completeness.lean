import PhasedGrid.Proofs.Mesh.Spread

/-!
What a report of completeness says. An initiator counts markers, and a reading travels apart from
them; so every node has recorded the version by then, but readings may still be on their way.
-/

namespace PhasedGrid.Snapshot

set_option autoImplicit false

open PhasedGrid.Schedule (TimerStatus)

namespace Mesh

variable {σ : Mesh} {v : Version}

/-- With a marker from every other node, the initiator knows that all of them have recorded `v`. -/
theorem Wave.recorded (w : σ.Wave v) (h : Ledger σ) (hc : σ.Conserved) (hl : σ.Leads v)
    (hn : σ.nodes.length ≤ (σ.agent v.initiator).markerCount v) :
    ∀ p ∈ σ.nodes, v ∈ σ.past p := by
  intro p hp
  by_cases hpA : p = v.initiator
  · rw [hpA]
    exact hl.recorded h
  · by_contra hv
    have hnot : p ∉ σ.heard v.initiator v := fun hm => hv (h.heard _ v p hm).2.1
    have hroom := room_of_unheard h hc w.once hp (hl.mem_nodes h) hpA hnot
    have hcount := w.counting
    omega

/-- A node that still tracks a version recorded by all has a marker of it to come. -/
theorem Wave.marker_to_come (w : σ.Wave v) (h : Ledger σ) (hc : σ.Conserved)
    (hall : ∀ p ∈ σ.nodes, v ∈ σ.past p) {p : String} (hp : p ∈ σ.nodes) (hne : p ≠ v.initiator)
    (ht : (σ.agent p).tracks v) : ∃ s ∈ σ.nodes, 0 < σ.underway v s p := by
  have hcount := (w.share p hp hne).counting ht
  have hlt := ((h.sound p).foreign v ht fun hi => hne ((h.uuid p).symm.trans hi.symm)).2
  rw [h.own_peer hp] at hlt
  obtain ⟨s, hs, hsp, hnot⟩ : ∃ s ∈ σ.nodes, s ≠ p ∧ s ∉ σ.heard p v := by
    by_contra hno
    have hsub : σ.nodes ⊆ p :: σ.heard p v := by
      intro s hs
      by_cases hsp : s = p
      · exact hsp ▸ List.mem_cons_self
      · refine List.mem_cons_of_mem p ?_
        by_contra hm
        exact hno ⟨s, hs, hsp, hm⟩
    have hlen := List.Nodup.length_le_of_subset h.nodup hsub
    rw [List.length_cons] at hlen
    omega
  refine ⟨s, hs, ?_⟩
  have hsum := hc v s hs p hp hsp
  have hpos := List.count_pos_iff.mpr (hall s hs)
  have hzero := List.count_eq_zero_of_not_mem hnot
  omega

theorem Delivered.of_drained {p : String} (hd : σ.Delivered v p) (hdrained : σ.Drained)
    (hp : p ∈ σ.nodes) (hA : v.initiator ∈ σ.nodes) :
    ∃ x, .gateway p x ∈ (σ.agent v.initiator).fragments v := by
  rcases hd with hx | ⟨l, hl, -⟩
  · exact hx
  · rw [hdrained p hp _ hA] at hl
    cases hl

theorem Drained.underway_eq_zero (hd : σ.Drained) {s r : String} (hs : s ∈ σ.nodes)
    (hr : r ∈ σ.nodes) (v : Version) : σ.underway v s r = 0 := by
  rw [underway, hd s hs r hr]
  rfl

/-- Where the readings are that an initiator with all markers may lack. -/
theorem Wave.readings (w : σ.Wave v) (h : Ledger σ) (hc : σ.Conserved) (hl : σ.Leads v)
    (hn : σ.nodes.length ≤ (σ.agent v.initiator).markerCount v) :
    ∀ p ∈ σ.nodes, σ.Delivered v p ∨
      (σ.agent p).tracks v ∧ ∃ s ∈ σ.nodes, 0 < σ.underway v s p := by
  intro p hp
  have hall := w.recorded h hc hl hn
  by_cases hpA : p = v.initiator
  · subst hpA
    obtain ⟨x, rest, hx⟩ := (h.sound _).own_first v (hl.tracks h)
    rw [h.uuid] at hx
    exact Or.inl (Or.inl ⟨x, hx ▸ List.mem_cons_self⟩)
  · by_cases ht : (σ.agent p).tracks v
    · exact Or.inr ⟨ht, w.marker_to_come h hc hall hp hpA ht⟩
    · exact Or.inl ((w.share p hp hpA).finished (hall p hp) (by simpa using ht)).2

theorem complete_inv {a : Agent} {status : TimerStatus} {state : Collected}
    (ho : (a.onTimer status).1 = some (.complete state)) : a.awaiting ∧ state = a.answer ∧
      a.peers.size ≤ a.markerCount a.current := by
  have m := a.onTimer_expiring status
  rw [ho] at m
  generalize (a.onTimer status).2.1 = next, (a.onTimer status).2.2 = effects at m
  cases m with
  | complete ha hn _ => exact ⟨ha, rfl, hn⟩

/-- In any run, a complete report of a version that no other node dropped for one of its own tells
that every node has recorded it. A reading that the report lacks is in a letter to the initiator or
at a node that waits for a marker under way to it; so none is lacking when nothing is under way. -/
theorem complete_report {nodes : List String} (hn : nodes.Nodup) {policy : String → Policy}
    {es : List Event} {a : String} {status : TimerStatus} {state : Collected}
    (hf : (start nodes policy).Follows (Loyal state.version) es)
    (hσ : σ = (start nodes policy).after es)
    (ho : ((σ.agent a).onTimer status).1 = some (.complete state)) :
    state.gateway = consolidate ((σ.agent a).fragments state.version) ∧
      (∀ p ∈ nodes, state.version ∈ σ.past p ∧
        (σ.Delivered state.version p ∨
          (σ.agent p).tracks state.version ∧ ∃ s ∈ nodes, 0 < σ.underway state.version s p)) ∧
      (σ.Drained → ∀ p ∈ nodes, ∃ x, .gateway p x ∈ (σ.agent a).fragments state.version) := by
  obtain ⟨ha, hstate, hmarkers⟩ := complete_inv ho
  have hreach : σ.Reachable := hσ ▸ Reachable.of_start hn hf
  have h := hreach.ledger
  have hc := hreach.conserved
  have hnodes : σ.nodes = nodes := hσ ▸ nodes_after _ es
  have hv : state.version = (σ.agent a).current := congrArg Collected.version hstate
  obtain ⟨hsen, hown⟩ := (σ.agent a).awaiting_iff.mp ha
  have hva : state.version.initiator = a := by rw [hv, hown, h.uuid]
  have hl : σ.Leads state.version := ⟨hv ▸ hsen, by rw [hva, hv]⟩
  have w : σ.Wave state.version := by
    subst hσ
    exact Wave.after (.initial hn policy) (fun hl => absurd hl.2.symm hl.1) hf hl
  rw [h.own_peer (hva ▸ hl.mem_nodes h), ← hv] at hmarkers
  have hcount : σ.nodes.length ≤ (σ.agent state.version.initiator).markerCount state.version := by
    rw [hva]
    exact hmarkers
  have hall := w.recorded h hc hl hcount
  have hread := w.readings h hc hl hcount
  rw [← hnodes]
  refine ⟨?_, fun p hp => ⟨hall p hp, hread p hp⟩, fun hd p hp => ?_⟩
  · rw [hv, hstate]
    rfl
  · rcases hread p hp with hdel | ⟨-, s, hsn, hs⟩
    · rw [← hva]
      exact hdel.of_drained hd hp (hl.mem_nodes h)
    · rw [hd.underway_eq_zero hsn hp] at hs
      cases hs

/-- The initiator has a marker from both others before it has a reading of theirs. -/
def hasty : List Event :=
  [.request "a" "gm" 1, .receive "a" "b" 0 2, .receive "a" "c" 0 3, .receive "b" "a" 0 1,
    .receive "c" "a" 0 1]

/-- The second node starts a snapshot of its own while it records that of the first, and so records
the first one again; then everything is delivered. -/
def crossed : List Event :=
  [.request "a" "gm" 1, .receive "a" "b" 0 2, .request "b" "lb" 2, .receive "a" "c" 0 3,
    .receive "b" "a" 0 1, .receive "b" "a" 0 1, .receive "b" "c" 0 3, .receive "b" "c" 0 3,
    .receive "c" "a" 0 1, .receive "c" "b" 0 2, .receive "a" "b" 0 2, .receive "a" "c" 0 3,
    .receive "b" "a" 0 1, .receive "b" "c" 0 3, .receive "c" "a" 0 1, .receive "c" "a" 0 1,
    .receive "c" "b" 0 2, .receive "c" "b" 0 2, .receive "a" "b" 0 2]

set_option maxRecDepth 4000 in
/-- Neither the rule alone nor an end of all traffic alone makes a complete report full. -/
theorem report_lacks_readings :
    (¬ ∀ nodes policy es a status state, nodes.Nodup →
      (start nodes policy).Follows (fun σ e => InOrder σ e ∧ Loyal state.version σ e) es →
      ((((start nodes policy).after es).agent a).onTimer status).1 = some (.complete state) →
      ∀ p ∈ nodes, ∃ x,
        .gateway p x ∈ (((start nodes policy).after es).agent a).fragments state.version) ∧
    ¬ ∀ nodes policy es a status state, nodes.Nodup →
      (start nodes policy).Follows InOrder es → ((start nodes policy).after es).Drained →
      ((((start nodes policy).after es).agent a).onTimer status).1 = some (.complete state) →
      ∀ p ∈ nodes, ∃ x,
        .gateway p x ∈ (((start nodes policy).after es).agent a).fragments state.version := by
  constructor
  · intro h
    obtain ⟨x, hx⟩ := h ["a", "b", "c"] (fun _ => {}) hasty "a" .expired ⟨"gm", ⟨"a", 1⟩, "1"⟩
      (by decide) (by decide +kernel) (by decide +kernel) "b" (by decide)
    have hf : ((three.after hasty).agent "a").fragments ⟨"a", 1⟩ = [.gateway "a" 1] := by
      decide +kernel
    rw [show start ["a", "b", "c"] (fun _ => {}) = three from rfl, hf] at hx
    simp at hx
  · intro h
    obtain ⟨x, hx⟩ := h ["a", "b", "c"] (fun _ => {}) crossed "a" .expired
      ⟨"gm", ⟨"a", 1⟩, "1,3"⟩ (by decide) (by decide +kernel) (by decide +kernel)
      (by decide +kernel) "b" (by decide)
    have hf : ((three.after crossed).agent "a").fragments ⟨"a", 1⟩ =
        [.gateway "a" 1, .gateway "c" 3] := by
      decide +kernel
    rw [show start ["a", "b", "c"] (fun _ => {}) = three from rfl, hf] at hx
    simp at hx

set_option maxRecDepth 4000 in
/-- The report that comes too early, put to the general statement. -/
theorem hasty_report :
    three.Follows (Loyal ⟨"a", 1⟩) hasty ∧
      (((three.after hasty).agent "a").onTimer .expired).1 =
        some (.complete ⟨"gm", ⟨"a", 1⟩, "1"⟩) ∧
      ∀ p ∈ ["a", "b", "c"], ⟨"a", 1⟩ ∈ (three.after hasty).past p ∧
        ((three.after hasty).Delivered ⟨"a", 1⟩ p ∨
          ((three.after hasty).agent p).tracks ⟨"a", 1⟩ ∧
            ∃ s ∈ ["a", "b", "c"], 0 < (three.after hasty).underway ⟨"a", 1⟩ s p) := by
  have hf : three.Follows (Loyal ⟨"a", 1⟩) hasty := by decide +kernel
  have ho : (((three.after hasty).agent "a").onTimer .expired).1 =
      some (.complete ⟨"gm", ⟨"a", 1⟩, "1"⟩) := by decide +kernel
  have hn : ["a", "b", "c"].Nodup := by decide
  exact ⟨hf, ho, (complete_report hn hf rfl ho).2.1⟩

end Mesh

end PhasedGrid.Snapshot
