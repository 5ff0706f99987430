import PhasedGrid.Proofs.Mesh.Ledger

/-!
The version that its initiator is waiting for. It is the last one that the initiator started, so
nothing supersedes it, and only the start of another one or the timer takes its place.
-/

namespace PhasedGrid.Snapshot

set_option autoImplicit false

open Agent (Turn)

namespace Mesh

/-- The initiator of `v` is waiting for it. -/
def Leads (σ : Mesh) (v : Version) : Prop :=
  v ≠ .sentinel ∧ (σ.agent v.initiator).current = v

variable {σ : Mesh} {v : Version}

theorem Leads.awaiting (hl : σ.Leads v) (h : Ledger σ) : (σ.agent v.initiator).awaiting := by
  rw [Agent.awaiting_iff, hl.2, h.uuid]
  exact ⟨hl.1, rfl⟩

theorem Leads.tracks (hl : σ.Leads v) (h : Ledger σ) : (σ.agent v.initiator).tracks v := by
  have ht := (h.sound v.initiator).awaiting_tracks (hl.awaiting h)
  rwa [hl.2] at ht

theorem Leads.recorded (hl : σ.Leads v) (h : Ledger σ) : v ∈ σ.past v.initiator :=
  h.tracked _ v (hl.tracks h)

theorem Leads.mem_nodes (hl : σ.Leads v) (h : Ledger σ) : v.initiator ∈ σ.nodes :=
  (h.issued _ v (hl.recorded h)).1

/-- No version supersedes the one that its initiator waits for. -/
theorem Leads.not_superseded (hl : σ.Leads v) (h : Ledger σ) {w : Version} {b : String}
    (hw : w ∈ σ.past b) : ¬ w.supersedes v := by
  rw [Agent.supersedes_iff]
  rintro ⟨hi, hs⟩
  have hlast := h.latest _ (hl.awaiting h)
  have hle := (h.issued b w hw).2.2
  rw [hl.2] at hlast
  rw [hi] at hle
  omega

/-- Which version an initiator waits for changes only when it starts one. -/
theorem Leads.of_act (h : Ledger σ) {b : String} {took : Option Version} {next : Agent}
    {effects : List Effect} (t : Turn (σ.agent b) took next effects) {x : Float}
    (hl : (σ.act b (took.map (·, x)) next effects).Leads v) :
    σ.Leads v ∨ b = v.initiator ∧ took = some v ∧ v = (σ.agent b).nextVersion := by
  obtain ⟨hs, hcur⟩ := hl
  by_cases hb : b = v.initiator
  · subst hb
    rw [agent_act_self] at hcur
    rcases t.started with ⟨ht, -, hc⟩ | ⟨-, -, hc⟩
    · exact Or.inr ⟨rfl, ht.trans (congrArg some (hc.symm.trans hcur)), hcur.symm.trans hc⟩
    · refine Or.inl ⟨hs, (hc ?_).symm.trans hcur⟩
      rw [Agent.awaiting_iff, hcur, t.uuid, h.uuid]
      exact ⟨hs, rfl⟩
  · rw [agent_act_ne _ (Ne.symm hb)] at hcur
    exact Or.inl ⟨hs, hcur⟩

end Mesh

end PhasedGrid.Snapshot
