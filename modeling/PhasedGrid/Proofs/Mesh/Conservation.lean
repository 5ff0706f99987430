import PhasedGrid.Proofs.Mesh.Ledger

/-!
Markers are neither lost nor made up: each time a node records a version it sends one marker of it
to every other node, and each of them is under way or has been handled.
-/

namespace PhasedGrid.Snapshot

set_option autoImplicit false

open PhasedGrid.Peer (Network)
open Agent (Turn)

namespace Mesh

variable {σ : Mesh}

/-- The number of markers of `v` on their way from `s` to `r`. -/
def underway (σ : Mesh) (v : Version) (s r : String) : Nat :=
  (σ.channel s r).countP fun l => l.notice? = some (.marker v)

theorem underway_pos_iff {v : Version} {s r : String} :
    0 < σ.underway v s r ↔ ∃ l ∈ σ.channel s r, l.notice? = some (.marker v) := by
  simp [underway, List.countP_pos_iff]

theorem underway_payload {s r value : String} {tag : Option Version}
    (he : σ.Enabled (.payload s r value tag)) (v : Version) (s' r' : String) :
    (σ.step (.payload s r value tag)).underway v s' r' = σ.underway v s' r' := by
  have hn : Letter.notice? ⟨Network.stamp s (Wire.payload s value tag), σ.past s⟩ ≠
      some (.marker v) := by
    rw [Letter.notice?_payload s he.2.2.1 he.2.2.2]
    simp
  unfold underway step
  dsimp only
  split
  · rw [List.countP_append, List.countP_singleton, if_neg (by simpa using hn)]
    rfl
  · rfl

theorem underway_consume {s r : String} {i : Nat} {l : Letter}
    (hl : (σ.channel s r)[i]? = some l) (v : Version) (s' r' : String) :
    (σ.consume s r i l).underway v s' r' +
        (if s' = s ∧ r' = r ∧ l.notice? = some (.marker v) then 1 else 0) =
      σ.underway v s' r' := by
  unfold underway consume
  dsimp only
  by_cases hc : s' = s ∧ r' = r
  · obtain ⟨rfl, rfl⟩ := hc
    obtain ⟨hi, rfl⟩ := List.getElem?_eq_some_iff.mp hl
    have hp := (List.getElem_cons_eraseIdx_perm hi).countP_eq
      (fun l : Letter => decide (l.notice? = some (.marker v)))
    rw [List.countP_cons] at hp
    simpa using hp
  · have hc' : ¬ (s' = s ∧ r' = r ∧ l.notice? = some (.marker v)) := fun h => hc ⟨h.1, h.2.1⟩
    rw [if_neg hc, if_neg hc', Nat.add_zero]

theorem count_heard_consume {s r : String} {i : Nat} {l : Letter} (v : Version) (s' r' : String) :
    ((σ.consume s r i l).heard r' v).count s' =
      (σ.heard r' v).count s' +
        (if s' = s ∧ r' = r ∧ l.notice? = some (.marker v) then 1 else 0) := by
  unfold consume
  dsimp only
  by_cases hc : r' = r ∧ l.notice? = some (.marker v)
  · rw [if_pos hc, List.count_cons]
    by_cases hs : s' = s
    · simp [hs, hc]
    · simp [hs, Ne.symm hs]
  · rw [if_neg hc, if_neg fun h => hc h.2, Nat.add_zero]

theorem shipped_consume {s r : String} {i : Nat} {l : Letter} (hl : (σ.channel s r)[i]? = some l)
    (p : Fragment → Bool) (s' r' : String) :
    shipped ((σ.consume s r i l).channel s' r') p +
        (if s' = s ∧ r' = r ∧ l.fragment?.any p then 1 else 0) =
      shipped (σ.channel s' r') p := by
  unfold consume shipped
  dsimp only
  by_cases hc : s' = s ∧ r' = r
  · obtain ⟨rfl, rfl⟩ := hc
    obtain ⟨hi, rfl⟩ := List.getElem?_eq_some_iff.mp hl
    have hp := (List.getElem_cons_eraseIdx_perm hi).countP_eq fun l : Letter => l.fragment?.any p
    rw [List.countP_cons] at hp
    simpa using hp
  · rw [if_neg hc, if_neg fun h => hc ⟨h.1, h.2.1⟩, Nat.add_zero]

theorem underway_act (h : Ledger σ) {b : String} (hb : b ∈ σ.nodes) {took : Option Version}
    {next : Agent} {effects : List Effect} (t : Turn (σ.agent b) took next effects)
    (x : Float) (h' : Ledger (σ.act b (took.map (·, x)) next effects)) (v : Version)
    (s r : String) :
    (σ.act b (took.map (·, x)) next effects).underway v s r =
      σ.underway v s r + (if s = b ∧ took = some v ∧ r ∈ σ.nodes ∧ r ≠ b then 1 else 0) := by
  unfold underway
  rw [channel_act, List.countP_append]
  by_cases hs : s = b
  · obtain ⟨plain, hplain, hletters⟩ := letters_turn t (h.uuid b) (h.peers b) hb (σ.past b) r
    have hzero : plain.countP (fun l => l.notice? = some (.marker v)) = 0 := by
      refine List.countP_eq_zero.mpr fun l hl hv => ?_
      rcases (hplain l hl).2 _ (of_decide_eq_true hv) with ⟨f, hf, -⟩ | ⟨value, source, tag, hf, -⟩
      · cases hf
      · cases hf
    rw [if_pos hs, hletters, List.countP_append, hzero, Nat.add_zero]
    congr 1
    cases took with
    | none => simp
    | some w =>
      have hw := h'.sequence_le (h'.issued b w (mem_past_act.mpr (Or.inl ⟨rfl, rfl⟩)))
      by_cases hr : r ∈ σ.nodes ∧ r ≠ b
      · simp [hs, hr, Letter.notice?_marker b hw]
      · simp [hr]
  · rw [if_neg hs, if_neg fun hc => hs hc.1]
    rfl

theorem count_past_act {b : String} {took : Option Version} {x : Float} {next : Agent}
    {effects : List Effect} (v : Version) (s : String) :
    ((σ.act b (took.map (·, x)) next effects).past s).count v =
      (σ.past s).count v + (if s = b ∧ took = some v then 1 else 0) := by
  rw [past_act]
  by_cases hs : s = b
  · rw [if_pos hs, List.count_append, Nat.add_comm]
    congr 1
    cases took with
    | none => simp
    | some w => simp [hs, List.count_singleton]
  · rw [if_neg hs, if_neg fun hc => hs hc.1, Nat.add_zero]

/-- Every marker of `v` that a node has sent to another is under way or was handled. -/
def Conserved (σ : Mesh) : Prop :=
  ∀ v, ∀ s ∈ σ.nodes, ∀ r ∈ σ.nodes, s ≠ r →
    σ.underway v s r + (σ.heard r v).count s = (σ.past s).count v

theorem Conserved.consume (hc : σ.Conserved) {s r : String} {i : Nat} {l : Letter}
    (hl : (σ.channel s r)[i]? = some l) : (σ.consume s r i l).Conserved := by
  intro v s' hs' r' hr' hne
  have hu := underway_consume hl v s' r'
  have hh := count_heard_consume (σ := σ) (i := i) (l := l) (s := s) (r := r) v s' r'
  have hall : σ.underway v s' r' + _ = (σ.past s').count v := hc v s' hs' r' hr' hne
  change _ = (σ.past s').count v
  omega

theorem Conserved.step (h : Ledger σ) (hc : σ.Conserved) {e : Event} (he : σ.Enabled e) :
    (σ.step e).Conserved := by
  rcases h.turns he with ⟨s, r, value, tag, rfl⟩ | ⟨τ, b, x, notice, took, next, effects, d, hstep⟩
  · intro v s' hs' r' hr' hne
    rw [underway_payload he]
    exact hc v s' hs' r' hr' hne
  · obtain ⟨hτ, t⟩ := h.before d
    have hmid : τ.Conserved := by
      rcases d.letter with ⟨rfl, -⟩ | ⟨s, i, l, hl, -, rfl⟩
      · exact hc
      · exact hc.consume hl
    have hb : b ∈ τ.nodes := d.same.1 ▸ d.node
    rw [hstep]
    intro v s hs r hr hne
    replace hs : s ∈ τ.nodes := hs
    replace hr : r ∈ τ.nodes := hr
    have hall := hmid v s hs r hr hne
    rw [underway_act hτ hb t x d.ledger, count_past_act]
    change _ + (τ.heard r v).count s = _
    by_cases hsb : s = b ∧ took = some v
    · rw [if_pos ⟨hsb.1, hsb.2, hr, fun he => hne (hsb.1.trans he.symm)⟩, if_pos hsb]
      omega
    · rw [if_neg fun hx => hsb ⟨hx.1, hx.2.1⟩, if_neg hsb]
      omega

theorem conserved_start (nodes : List String) (policy : String → Policy) :
    (start nodes policy).Conserved := fun _ _ _ _ _ _ => rfl

/-- In every state that a mesh reaches, whatever the order of delivery. -/
theorem Reachable.conserved (h : σ.Reachable) : σ.Conserved := by
  obtain ⟨nodes, policy, es, hn, hf, rfl⟩ := h
  have hinv := hf.invariant (fun τ => Ledger τ ∧ τ.Conserved)
    (fun τ e hi he _ => ⟨hi.1.step he, hi.2.step hi.1 he⟩)
    ⟨Ledger.start hn policy, conserved_start nodes policy⟩
  exact hinv.2

end Mesh

end PhasedGrid.Snapshot
