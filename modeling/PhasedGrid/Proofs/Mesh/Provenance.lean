import PhasedGrid.Proofs.Mesh.Spread

/-!
Where the readings come from that an initiator holds. A message with recorded state names no
version, so it is filed under whatever version its receiver waits for; this is the right one as long
as a version is over, with nothing of it at other nodes or under way, before its initiator leaves it.
-/

namespace PhasedGrid.Snapshot

set_option autoImplicit false

open PhasedGrid.Peer (Network)
open PhasedGrid.Schedule (TimerStatus)
open Agent (Turn Handling Acting Marking)

/-- Whether a fragment is a reading of any node but one. -/
def Fragment.foreign (node : String) : Fragment → Bool
  | .gateway source _ => decide (source ≠ node)
  | .transit _ _ _ => false

theorem Fragment.ofReadings_foreign (node : String) : Fragment.OfReadings (Fragment.foreign node) :=
  fun _ _ _ => rfl

theorem Fragment.foreign_retold (node : String) (f : Fragment) :
    f.retold.foreign node = f.foreign node := by
  cases f <;> rfl

/-- What arrives for a version with a letter: a fragment is filed under the version in progress. -/
def arriving (a : Agent) (notice : Option Notice) (v : Version) (p : Fragment → Bool) : Nat :=
  match notice with
  | some (.state f) => if a.current ≠ .sentinel ∧ a.current = v ∧ p f then 1 else 0
  | _ => 0

theorem arriving_eq (a : Agent) (notice : Option Notice) (v : Version) (p : Fragment → Bool) :
    arriving a notice v p = 0 ∨ arriving a notice v p = 1 ∧
      ∃ f, notice = some (.state f) ∧ a.current = v ∧ p f := by
  unfold arriving
  split
  · rename_i f
    by_cases hc : a.current ≠ .sentinel ∧ a.current = v ∧ p f
    · exact Or.inr ⟨if_pos hc, f, rfl, hc.2⟩
    · exact Or.inl (if_neg hc)
  · exact Or.inl rfl

/-- What a turn adds to the readings that a node holds, and what it sends off. -/
structure Gathers (a : Agent) (x : Float) (notice : Option Notice) (took : Option Version)
    (next : Agent) (effects : List Effect) : Prop where
  held : ∀ v p, Fragment.OfReadings p → next.held v p ≤ a.held v p +
    (if took = some v ∧ p (.gateway a.uuid x) then 1 else 0) + arriving a notice v p
  shipped : ∀ past r p, shipped (letters a.uuid past effects r) p = 0 ∨
    ∃ w, notice = some (.marker w) ∧ r = w.initiator ∧ r ≠ a.uuid ∧
      next.held w (fun f => p f.retold) + shipped (letters a.uuid past effects r) p ≤
        a.held w (fun f => p f.retold) +
          if took = some w ∧ p (Fragment.retold (.gateway a.uuid x)) then 1 else 0

theorem Agent.Acting.gathers {a next : Agent} {x : Float} {notice : Option Notice}
    {took : Option Version} {effects : List Effect} (m : Acting a x notice took next effects)
    {nodes : List String} (hp : a.peers = .ofList a.uuid nodes) (hs : a.uuid ∈ nodes)
    (hseq : ∀ w ∈ took, w.sequence ≤ Decimal.maxU64)
    (hmark : ∀ w, notice = some (.marker w) → w.sequence ≤ Decimal.maxU64) :
    Gathers a x notice took next effects := by
  cases m with
  | request module =>
    refine ⟨fun v p _ => ?_, fun past r p => Or.inl ?_⟩
    · rw [(a.request_starts x module).held_eq]
      simp only [Option.some.injEq]
      omega
    · change shipped (letters a.uuid past (a.announce a.nextVersion ++ [.arm _]) r) p = 0
      rw [letters_append, shipped_append, shipped_announce hp hs (hseq _ rfl)]
      rfl
  | timer status =>
    have m := a.onTimer_expiring status
    exact ⟨fun v p _ => Nat.le_add_right_of_le (Nat.le_add_right_of_le (m.held_le v p)),
      fun past r p => Or.inl (shipped_expiring m past r p)⟩
  | letter m =>
    cases m with
    | ignored => exact ⟨fun v p _ => Nat.le_add_right _ _, fun _ _ _ => Or.inl rfl⟩
    | state f =>
      refine ⟨fun v p _ => ?_, fun _ _ _ => Or.inl rfl⟩
      rw [a.held_onState f v p]
      simp [arriving]
    | payload value sender tag =>
      refine ⟨fun v p hp => ?_, fun _ _ _ => Or.inl rfl⟩
      rw [a.held_onPayload value sender tag v hp]
      exact Nat.le_add_right _ _
    | @marker w _ _ _ hw m =>
      have hmax := hmark w rfl
      refine ⟨fun v p _ => m.held_le v p, fun past r p => ?_⟩
      by_cases hr : r = w.initiator
      · by_cases hru : r = a.uuid
        · refine Or.inl ?_
          cases m with
          | own _ _ => rfl
          | counted _ _ _ => rfl
          | finished _ hi _ => exact absurd (hr.symm.trans hru) hi
          | stale _ _ => rfl
          | opened _ _ _ => exact shipped_announce hp hs hmax past r p
          | passed _ hst _ =>
            exact absurd (hr.symm.trans hru) ((a.isStale_eq_false_iff w).mp hst).2.1
        · subst hr
          exact Or.inr ⟨w, rfl, rfl, hru, shipped_marking m hp hs hmax past p⟩
      · exact Or.inl (shipped_marking_of_ne m hp hs hmax past hr p)

namespace Mesh

/-- Nothing of `v` is left outside its initiator: no other node tracks it, no marker of it is under
way, and no recorded state is under way to the initiator. -/
def Over (σ : Mesh) (v : Version) : Prop :=
  ∀ c ∈ σ.nodes, (c ≠ v.initiator → (σ.agent c).tracks v = false) ∧
    (∀ r ∈ σ.nodes, σ.underway v c r = 0) ∧ ∀ l ∈ σ.channel c v.initiator, l.fragment? = none

instance (σ : Mesh) : DecidablePred σ.Over := fun v =>
  inferInstanceAs (Decidable (∀ c ∈ σ.nodes, (c ≠ v.initiator → (σ.agent c).tracks v = false) ∧
    (∀ r ∈ σ.nodes, σ.underway v c r = 0) ∧ ∀ l ∈ σ.channel c v.initiator, l.fragment? = none))

/-- No node leaves a version of its own before it is over. -/
def Orderly (σ : Mesh) (e : Event) : Prop :=
  ∀ c ∈ σ.nodes, (σ.agent c).awaiting →
    ((σ.step e).agent c).current ≠ (σ.agent c).current → σ.Over (σ.agent c).current

instance (σ : Mesh) : DecidablePred σ.Orderly := fun e =>
  inferInstanceAs (Decidable (∀ c ∈ σ.nodes, (σ.agent c).awaiting →
    ((σ.step e).agent c).current ≠ (σ.agent c).current → σ.Over (σ.agent c).current))

/-- How often a node took a reading for `v` that passes a test at its receiver. -/
def recorded (σ : Mesh) (c : String) (v : Version) (test : Float → Bool) : Nat :=
  (σ.taken c).countP fun t => decide (t.1 = v) && test (Decimal.retold t.2)

structure Live (σ : Mesh) : Prop where
  marked : ∀ v s, ∀ r ∈ σ.nodes, 0 < σ.underway v s r → σ.Leads v
  tracked : ∀ v, ∀ c ∈ σ.nodes, (σ.agent c).tracks v → σ.Leads v
  mailed : ∀ s, ∀ r ∈ σ.nodes, ∀ l ∈ σ.channel s r, ∀ f, l.fragment? = some f →
    (σ.agent r).awaiting ∧ f.foreign s = false
  foreign : ∀ v, ∀ c ∈ σ.nodes, (σ.agent c).tracks v → v.initiator ≠ c →
    (σ.agent c).held v (Fragment.foreign c) = 0
  single : ∀ v, ∀ c ∈ σ.nodes, (σ.agent c).held v (Fragment.reads c fun _ => true) ≤ 1
  accounted : ∀ v, σ.Leads v → ∀ c, c ≠ v.initiator → ∀ test,
    (σ.agent v.initiator).held v (Fragment.reads c test) +
      shipped (σ.channel c v.initiator) (Fragment.reads c test) +
      (σ.agent c).held v (fun f => f.retold.reads c test) ≤ σ.recorded c v test

variable {σ : Mesh} {v : Version}

/-- Something of `v` is outside its initiator. -/
def Abroad (σ : Mesh) (v : Version) : Prop :=
  ∃ c ∈ σ.nodes, c ≠ v.initiator ∧ (σ.agent c).tracks v ∨ ∃ r ∈ σ.nodes, 0 < σ.underway v c r

theorem Over.not_abroad (ho : σ.Over v) : ¬ σ.Abroad v := by
  rintro ⟨c, hc, ⟨hne, ht⟩ | ⟨r, hr, hu⟩⟩
  · rw [(ho c hc).1 hne] at ht
    cases ht
  · rw [(ho c hc).2.1 r hr] at hu
    cases hu

theorem Abroad.of_marker (h : Ledger σ) {s r : String} (hr : r ∈ σ.nodes) {l : Letter}
    (hl : l ∈ σ.channel s r) (hn : l.notice? = some (.marker v)) : σ.Abroad v :=
  ⟨s, (h.posted s r l hl).sender, Or.inr ⟨r, hr, underway_pos_iff.mpr ⟨l, hl, hn⟩⟩⟩

theorem Leads.of_abroad (hl : σ.Leads v) (h : Ledger σ) {e : Event} (ho : σ.Orderly e)
    (ha : σ.Abroad v) : (σ.step e).Leads v := by
  by_contra hno
  have hcur : ((σ.step e).agent v.initiator).current ≠ (σ.agent v.initiator).current := fun he =>
    hno ⟨hl.1, he.trans hl.2⟩
  have hover := ho v.initiator (hl.mem_nodes h) (hl.awaiting h) hcur
  rw [hl.2] at hover
  exact hover.not_abroad ha

section Turns

variable {τ : Mesh} {b : String} {x : Float} {notice : Option Notice} {took : Option Version}
  {next : Agent} {effects : List Effect} {e : Event}

theorem Deed.underway_le (d : Deed σ τ b x notice took next effects) (v : Version)
    (s r : String) : τ.underway v s r ≤ σ.underway v s r := by
  rcases d.letter with ⟨rfl, -⟩ | ⟨s', i, l, hl, -, rfl⟩
  · exact Nat.le_refl _
  · have := underway_consume hl v s r
    omega

/-- A version that a turn takes up is the node's next one or abroad. -/
theorem Deed.leads_of_took (d : Deed σ τ b x notice took next effects) (h : Ledger σ)
    (hlive : Live σ) (ho : σ.Orderly e) (hstep : σ.step e = τ.act b (took.map (·, x)) next effects)
    (ht : took = some v) : (σ.step e).Leads v := by
  have hissued := d.ledger.issued b v (mem_past_act.mpr (Or.inl ⟨rfl, ht⟩))
  rcases d.acting.took_eq ht with ⟨hv, hcur⟩ | hn
  · have hb : v.initiator = b := hv ▸ h.uuid b
    rw [hstep]
    refine ⟨hissued.ne_sentinel, ?_⟩
    rw [hb, agent_act_self]
    exact hcur
  · obtain ⟨s, l, hl, hm⟩ := d.notice_mem hn
    exact (hlive.marked v s b d.node (underway_pos_iff.mpr ⟨l, hl, hm⟩)).of_abroad h ho
      (.of_marker h d.node hl hm)

theorem Live.marked_turn (hlive : Live σ) (h : Ledger σ) (ho : σ.Orderly e)
    (d : Deed σ τ b x notice took next effects)
    (hstep : σ.step e = τ.act b (took.map (·, x)) next effects) (v : Version) (s : String)
    {r : String} (hr : r ∈ σ.nodes) (hu : 0 < (σ.step e).underway v s r) : (σ.step e).Leads v := by
  obtain ⟨hτ, t⟩ := h.before d
  rw [hstep, underway_act hτ (d.same.1 ▸ d.node) t x d.ledger] at hu
  by_cases hnew : s = b ∧ took = some v ∧ r ∈ τ.nodes ∧ r ≠ b
  · exact d.leads_of_took h hlive ho hstep hnew.2.1
  · rw [if_neg hnew, Nat.add_zero] at hu
    obtain ⟨l, hl, hm⟩ := underway_pos_iff.mp (Nat.lt_of_lt_of_le hu (d.underway_le v s r))
    exact (hlive.marked v s r hr (underway_pos_iff.mpr ⟨l, hl, hm⟩)).of_abroad h ho
      (.of_marker h hr hl hm)

theorem Live.tracked_turn (hlive : Live σ) (h : Ledger σ) (ho : σ.Orderly e)
    (d : Deed σ τ b x notice took next effects)
    (hstep : σ.step e = τ.act b (took.map (·, x)) next effects) (v : Version)
    {c : String} (hc : c ∈ σ.nodes) (ht : ((σ.step e).agent c).tracks v) : (σ.step e).Leads v := by
  have hl' : Ledger (σ.step e) := hstep ▸ d.ledger
  by_cases hA : v.initiator = c
  · -- of a node's own versions only the one in progress is tracked
    have hcur := (hl'.sound c).own v ht (hA.trans (hl'.uuid c).symm)
    refine ⟨(hl'.issued c v (hl'.tracked c v ht)).ne_sentinel, ?_⟩
    rw [hA]
    exact hcur.symm
  · by_cases hpre : (σ.agent c).tracks v
    · exact (hlive.tracked v c hc hpre).of_abroad h ho ⟨c, hc, Or.inl ⟨Ne.symm hA, hpre⟩⟩
    · refine d.leads_of_took h hlive ho hstep ?_
      rw [hstep] at ht
      by_cases hcb : c = b
      · rw [hcb, agent_act_self] at ht
        exact (((h.sound b).acting_turn d.acting).tracks v ht).resolve_left (hcb ▸ hpre)
      · rw [agent_act_ne _ hcb, d.same.2.1] at ht
        exact absurd ht hpre

theorem Deed.shipped_le (d : Deed σ τ b x notice took next effects) (p : Fragment → Bool)
    (s r : String) : shipped (τ.channel s r) p ≤ shipped (σ.channel s r) p := by
  rcases d.letter with ⟨rfl, -⟩ | ⟨s', i, l, hl, -, rfl⟩
  · exact Nat.le_refl _
  · have := shipped_consume hl p s r
    omega

theorem Deed.gathers (d : Deed σ τ b x notice took next effects) (h : Ledger σ) :
    Gathers (σ.agent b) x notice took next effects := by
  have hp : (σ.agent b).peers = .ofList (σ.agent b).uuid σ.nodes := by
    rw [h.uuid]
    exact h.peers b
  refine d.acting.gathers hp (by rw [h.uuid]; exact d.node) (fun w hw => ?_) fun w hw => ?_
  · exact d.ledger.sequence_le (d.ledger.issued b w (mem_past_act.mpr (Or.inl ⟨rfl, hw⟩)))
  · obtain ⟨s, l, hl, hm⟩ := d.notice_mem hw
    exact h.sequence_le (h.issued s w ((h.posted s b l hl).allowed _ hm).1)

theorem Live.foreign_held (hlive : Live σ) (h : Ledger σ) (hb : b ∈ σ.nodes) {w : Version}
    (hw : w.initiator ≠ b) : (σ.agent b).held w (Fragment.foreign b) = 0 := by
  by_cases ht : (σ.agent b).tracks w
  · exact hlive.foreign w b hb ht hw
  · rw [Agent.held, (h.sound b).fragments_of_not_tracks (by simpa using ht)]
    rfl

theorem Live.mailed_turn (hlive : Live σ) (h : Ledger σ) (ho : σ.Orderly e)
    (d : Deed σ τ b x notice took next effects)
    (hstep : σ.step e = τ.act b (took.map (·, x)) next effects) {s r : String} (hr : r ∈ σ.nodes)
    {l : Letter} (hl : l ∈ (σ.step e).channel s r) {f : Fragment} (hf : l.fragment? = some f) :
    ((σ.step e).agent r).awaiting ∧ f.foreign s = false := by
  have hother : r ≠ b → ((σ.step e).agent r) = σ.agent r := fun hrb => by
    rw [hstep, agent_act_ne _ hrb, d.same.2.1]
  rw [hstep, channel_act, List.mem_append] at hl
  rcases hl with hl | hl
  · replace hl := d.mem_channel hl
    obtain ⟨ha, hfs⟩ := hlive.mailed s r hr l hl f hf
    refine ⟨?_, hfs⟩
    by_contra hno
    obtain ⟨hsen, hown⟩ := (σ.agent r).awaiting_iff.mp ha
    rw [h.uuid] at hown
    have hcur : ((σ.step e).agent r).current ≠ (σ.agent r).current := by
      intro he
      refine hno ((Agent.awaiting_iff _).mpr ?_)
      rw [he, hstep, d.ledger.uuid]
      exact ⟨hsen, hown⟩
    have hnone := (ho r hr ha hcur s (h.posted s r l hl).sender).2.2 l
    rw [hown, hf] at hnone
    exact nomatch hnone hl
  · split at hl
    · rename_i hsb
      subst hsb
      have hg := d.gathers h
      have hpos : ∀ p : Fragment → Bool, p f →
          0 < shipped (letters (σ.agent s).uuid (τ.past s) effects r) p := by
        intro p hp
        rw [h.uuid]
        exact List.countP_pos_iff.mpr ⟨l, hl, by rw [hf]; exact hp⟩
      constructor
      · rcases hg.shipped (τ.past s) r fun _ => true with hzero | ⟨w, hn, hrw, hrs, -⟩
        · have := hpos (fun _ => true) rfl
          omega
        · rw [h.uuid] at hrs
          obtain ⟨s', l', hl', hm⟩ := d.notice_mem hn
          have hw := hlive.marked w s' s d.node (underway_pos_iff.mpr ⟨l', hl', hm⟩)
          rw [hother hrs, hrw]
          exact hw.awaiting h
      · by_contra hfor
        rw [Bool.not_eq_false] at hfor
        have hp := hpos _ hfor
        rcases hg.shipped (τ.past s) r (Fragment.foreign s) with hzero | ⟨w, hn, hrw, hrs, hle⟩
        · omega
        · have hheld := hlive.foreign_held h d.node (w := w) (hrw ▸ h.uuid s ▸ hrs)
          simp only [Fragment.foreign_retold] at hle
          rw [if_neg (by simp [Fragment.foreign, h.uuid])] at hle
          change _ ≤ (σ.agent s).held w (Fragment.foreign s) + 0 at hle
          omega
    · cases hl

/-- Recorded state comes from another node, which read it itself, and to one that waits for it. -/
theorem Live.state_from (hlive : Live σ) (h : Ledger σ)
    (d : Deed σ τ b x notice took next effects) {f : Fragment} (hn : notice = some (.state f)) :
    (σ.agent b).current.initiator = b ∧ ∃ s i l, s ≠ b ∧ (σ.channel s b)[i]? = some l ∧
      l.fragment? = some f ∧ τ = σ.consume s b i l ∧ f.foreign s = false := by
  rcases d.letter with ⟨-, hnone⟩ | ⟨s, i, l, hl, hnotice, hτ⟩
  · rw [hn] at hnone
    cases hnone
  · have hstate : l.notice? = some (.state f) := hnotice ▸ hn
    have hf := Letter.fragment?_eq_some.mpr hstate
    have hmem := List.mem_of_getElem? hl
    obtain ⟨ha, hfor⟩ := hlive.mailed s b d.node l hmem f hf
    refine ⟨?_, s, i, l, (h.posted s b l hmem).allowed _ hstate, hl, hf, hτ, hfor⟩
    rw [((σ.agent b).awaiting_iff.mp ha).2, h.uuid]

theorem Fragment.reads_of_not_foreign {f : Fragment} {s c : String} {test : Float → Bool}
    (hf : f.foreign s = false) (hr : f.reads c test) : c = s := by
  cases f with
  | gateway source y =>
    simp only [Fragment.foreign, ne_eq, decide_not, Bool.not_eq_false', decide_eq_true_eq] at hf
    simp only [Fragment.reads, Bool.and_eq_true, decide_eq_true_eq] at hr
    exact hr.1.symm.trans hf
  | transit value source destination => cases hr

theorem Deed.not_tracks_of_took (d : Deed σ τ b x notice took next effects) (h : Ledger σ)
    (ht : took = some v) : (σ.agent b).tracks v = false := by
  subst ht
  cases d.acting with
  | request module => exact h.not_tracks (h.nextVersion_fresh b b)
  | letter m =>
    cases m with
    | marker hs m =>
      cases m with
      | opened hv _ _ => exact hv
      | passed hv _ _ => exact hv

theorem Live.arriving_of_ne (hlive : Live σ) (h : Ledger σ)
    (d : Deed σ τ b x notice took next effects) (hv : v.initiator ≠ b) (p : Fragment → Bool) :
    arriving (σ.agent b) notice v p = 0 := by
  refine (arriving_eq _ notice v p).resolve_right ?_
  rintro ⟨-, f, hn, hcur, -⟩
  exact hv (hcur ▸ (hlive.state_from h d hn).1)

theorem Live.arriving_le (hlive : Live σ) (h : Ledger σ)
    (d : Deed σ τ b x notice took next effects) (v : Version) (c : String) (test : Float → Bool) :
    arriving (σ.agent b) notice v (Fragment.reads c test) +
      shipped (τ.channel c b) (Fragment.reads c test) ≤
      shipped (σ.channel c b) (Fragment.reads c test) := by
  rcases arriving_eq (σ.agent b) notice v (Fragment.reads c test) with hz | ⟨hone, f, hn, -, hp⟩
  · rw [hz, Nat.zero_add]
    exact d.shipped_le _ c b
  · obtain ⟨-, s, i, l, -, hl, hf, rfl, hfor⟩ := hlive.state_from h d hn
    obtain rfl := Fragment.reads_of_not_foreign hfor hp
    have hsum := shipped_consume hl (Fragment.reads c test) c b
    rw [if_pos ⟨rfl, rfl, by rw [hf]; exact hp⟩] at hsum
    omega

theorem Live.arriving_own (hlive : Live σ) (h : Ledger σ)
    (d : Deed σ τ b x notice took next effects) (v : Version) (test : Float → Bool) :
    arriving (σ.agent b) notice v (Fragment.reads b test) = 0 := by
  refine (arriving_eq _ notice v _).resolve_right ?_
  rintro ⟨-, f, hn, -, hp⟩
  obtain ⟨-, s, i, l, hs, -, -, -, hfor⟩ := hlive.state_from h d hn
  exact hs (Fragment.reads_of_not_foreign hfor hp).symm

theorem Live.foreign_turn (hlive : Live σ) (h : Ledger σ)
    (d : Deed σ τ b x notice took next effects) (hv : v.initiator ≠ b) :
    next.held v (Fragment.foreign b) = 0 := by
  have hle := (d.gathers h).held v _ (Fragment.ofReadings_foreign b)
  rw [hlive.foreign_held h d.node hv, hlive.arriving_of_ne h d hv,
    if_neg (by simp [Fragment.foreign, h.uuid])] at hle
  omega

theorem Live.single_turn (hlive : Live σ) (h : Ledger σ)
    (d : Deed σ τ b x notice took next effects) (v : Version) :
    next.held v (Fragment.reads b fun _ => true) ≤ 1 := by
  have hle := (d.gathers h).held v _ (Fragment.ofReadings_reads b fun _ => true)
  rw [hlive.arriving_own h d] at hle
  by_cases ht : took = some v
  · have hzero : (σ.agent b).held v (Fragment.reads b fun _ => true) = 0 := by
      rw [Agent.held, (h.sound b).fragments_of_not_tracks (d.not_tracks_of_took h ht)]
      rfl
    split at hle <;> omega
  · rw [if_neg fun hx => ht hx.1] at hle
    have := hlive.single v b d.node
    omega

theorem Live.accounted_own (hlive : Live σ) (h : Ledger σ)
    (d : Deed σ τ b x notice took next effects) (hl : σ.Leads v) (hb : b = v.initiator) {c : String}
    (hc : c ≠ b) (test : Float → Bool) :
    next.held v (Fragment.reads c test) + shipped (τ.channel c b) (Fragment.reads c test) +
      (σ.agent c).held v (fun f => f.retold.reads c test) ≤ σ.recorded c v test := by
  have hsum := hlive.accounted v hl c (hb ▸ hc) test
  have hle := (d.gathers h).held v _ (Fragment.ofReadings_reads c test)
  have harr := hlive.arriving_le h d v c test
  have ht : took ≠ some v := fun ht => by
    have := d.not_tracks_of_took h ht
    rw [hb, hl.tracks h] at this
    cases this
  rw [if_neg fun hx => ht hx.1] at hle
  rw [← hb] at hsum
  omega

theorem Live.accounted_peer (hlive : Live σ) (h : Ledger σ)
    (d : Deed σ τ b x notice took next effects) (hl : σ.Leads v) (hb : b ≠ v.initiator)
    (test : Float → Bool) :
    (σ.agent v.initiator).held v (Fragment.reads b test) +
      (shipped (τ.channel b v.initiator) (Fragment.reads b test) +
        shipped (letters b (τ.past b) effects v.initiator) (Fragment.reads b test)) +
      next.held v (fun f => f.retold.reads b test) ≤
        σ.recorded b v test + if took = some v ∧ test (Decimal.retold x) then 1 else 0 := by
  have hsum := hlive.accounted v hl b hb test
  have hg := d.gathers h
  have hof : Fragment.OfReadings fun f => f.retold.reads b test := fun _ _ _ => rfl
  have hle := hg.held v _ hof
  rw [hlive.arriving_of_ne h d (Ne.symm hb), h.uuid] at hle
  have hown : Fragment.reads b test (Fragment.retold (.gateway b x)) = test (Decimal.retold x) := by
    simp [Fragment.retold, Fragment.reads]
  simp only [hown] at hle
  have hchan := d.shipped_le (Fragment.reads b test) b v.initiator
  have hship := hg.shipped (τ.past b) v.initiator (Fragment.reads b test)
  rw [h.uuid] at hship
  rcases hship with hzero | ⟨w, hn, hi, -, hship⟩
  · omega
  · -- only one version of an initiator is abroad
    obtain ⟨s, l, hm, hnotice⟩ := d.notice_mem hn
    have hw := hlive.marked w s b d.node (underway_pos_iff.mpr ⟨l, hm, hnotice⟩)
    have hvw : w = v := by rw [← hw.2, ← hi, hl.2]
    subst hvw
    simp only [hown] at hship
    omega

theorem recorded_act (σ : Mesh) (b : String) (took : Option Version) (x : Float) (next : Agent)
    (effects : List Effect) (c : String) (v : Version) (test : Float → Bool) :
    (σ.act b (took.map (·, x)) next effects).recorded c v test = σ.recorded c v test +
      if c = b ∧ took = some v ∧ test (Decimal.retold x) then 1 else 0 := by
  unfold recorded act
  dsimp only
  by_cases hc : c = b
  · rw [if_pos hc, List.countP_append, Nat.add_comm]
    congr 1
    cases took with
    | none => simp
    | some w => simp [hc, List.countP_cons]
  · rw [if_neg hc, if_neg fun hx => hc hx.1, Nat.add_zero]

/-- Nothing of a version that its initiator has just started comes from elsewhere. -/
theorem Live.accounted_fresh (hlive : Live σ) (h : Ledger σ) (ho : σ.Orderly e)
    (d : Deed σ τ b x notice took next effects)
    (hstep : σ.step e = τ.act b (took.map (·, x)) next effects) (ht : took = some v)
    (hv : v = (σ.agent b).nextVersion) (hb : b = v.initiator) {c : String} (hc : c ≠ v.initiator)
    (test : Float → Bool) :
    next.held v (Fragment.reads c test) + shipped (τ.channel c b) (Fragment.reads c test) +
      (σ.agent c).held v (fun f => f.retold.reads c test) = 0 := by
  have hnew := d.not_tracks_of_took h ht
  have hl := d.leads_of_took h hlive ho hstep ht
  have hcur : ((σ.step e).agent b).current ≠ (σ.agent b).current := by
    rw [hb, hl.2]
    intro hv
    rcases (h.sound b).current_tracked with hs | hs
    · exact hl.1 (hv.trans (hb ▸ hs))
    · rw [hb, ← hv, ← hb, hnew] at hs
      cases hs
  have hchan : shipped (σ.channel c b) (Fragment.reads c test) = 0 := by
    refine shipped_eq_zero (fun l hm f hf => ?_) _
    have hf := Letter.fragment?_eq_some.mpr hf
    have ha := (hlive.mailed c b d.node l hm f hf).1
    have hown := ((σ.agent b).awaiting_iff.mp ha).2
    rw [h.uuid] at hown
    have hnone := (ho b d.node ha hcur c (h.posted c b l hm).sender).2.2 l
    rw [hown, hf] at hnone
    exact nomatch hnone hm
  have hheld : (σ.agent b).held v (Fragment.reads c test) = 0 := by
    rw [Agent.held, (h.sound b).fragments_of_not_tracks hnew]
    rfl
  have hpeer : (σ.agent c).held v (fun f => f.retold.reads c test) = 0 := by
    have hcv : (σ.agent c).tracks v = false := h.not_tracks (hv ▸ h.nextVersion_fresh b c)
    rw [Agent.held, (h.sound c).fragments_of_not_tracks hcv]
    rfl
  have hle := (d.gathers h).held v _ (Fragment.ofReadings_reads c test)
  have harr := hlive.arriving_le h d v c test
  have hgate : Fragment.reads c test (.gateway (σ.agent b).uuid x) = false := by
    simp [Fragment.reads, h.uuid, hb, Ne.symm hc]
  rw [if_neg fun hx => by simp [hgate] at hx, hheld] at hle
  omega

theorem Live.accounted_turn (hlive : Live σ) (h : Ledger σ) (ho : σ.Orderly e)
    (d : Deed σ τ b x notice took next effects)
    (hstep : σ.step e = τ.act b (took.map (·, x)) next effects) (hl : (σ.step e).Leads v)
    {c : String} (hc : c ≠ v.initiator) (test : Float → Bool) :
    ((σ.step e).agent v.initiator).held v (Fragment.reads c test) +
      shipped ((σ.step e).channel c v.initiator) (Fragment.reads c test) +
      ((σ.step e).agent c).held v (fun f => f.retold.reads c test) ≤
        (σ.step e).recorded c v test := by
  obtain ⟨hτ, t⟩ := h.before d
  obtain ⟨hnodes, hagent, htaken⟩ := d.same
  have hrec : τ.recorded c v test = σ.recorded c v test := by rw [recorded, htaken, recorded]
  rw [hstep] at hl ⊢
  rw [recorded_act, channel_act, shipped_append, hrec]
  rcases Leads.of_act hτ t hl with hpre | ⟨hb, ht, hv⟩
  · have hpre : σ.Leads v := ⟨hpre.1, hagent ▸ hpre.2⟩
    by_cases hb : b = v.initiator
    · have hcb : c ≠ b := hb ▸ hc
      have hown := hlive.accounted_own h d hpre hb hcb test
      rw [if_neg hcb, agent_act_ne _ hcb, hagent, ← hb, agent_act_self]
      exact Nat.le_add_right_of_le hown
    · rw [agent_act_ne _ (Ne.symm hb), hagent]
      by_cases hcb : c = b
      · have hpeer := hlive.accounted_peer h d hpre hb test
        rw [hcb, if_pos rfl, agent_act_self]
        simpa using hpeer
      · rw [if_neg hcb, agent_act_ne _ hcb, hagent, if_neg fun hx => hcb hx.1]
        have hsum := hlive.accounted v hpre c hc test
        have hchan := d.shipped_le (Fragment.reads c test) c v.initiator
        change _ + (_ + 0) + _ ≤ _
        omega
  · have hcb : c ≠ b := fun he => hc (he.trans hb)
    have hfresh := hlive.accounted_fresh h ho d hstep ht (hagent ▸ hv) hb hc test
    rw [← hb, agent_act_self, agent_act_ne _ hcb, hagent, if_neg hcb]
    change _ + (_ + 0) + _ ≤ _
    omega

theorem Live.turn (hlive : Live σ) (h : Ledger σ) (ho : σ.Orderly e)
    (d : Deed σ τ b x notice took next effects)
    (hstep : σ.step e = τ.act b (took.map (·, x)) next effects) : Live (σ.step e) := by
  have hnodes : (σ.step e).nodes = σ.nodes := nodes_step σ e
  have hself : (σ.step e).agent b = next := by rw [hstep, agent_act_self]
  have hother : ∀ c, c ≠ b → (σ.step e).agent c = σ.agent c := fun c hc => by
    rw [hstep, agent_act_ne _ hc, d.same.2.1]
  refine ⟨fun v s r hr hu => ?_, fun v c hc ht => ?_, fun s r hr l hl f hf => ?_,
    fun v c hc ht hne => ?_, fun v c hc => ?_, fun v hl c hc test => ?_⟩
  · exact hlive.marked_turn h ho d hstep v s (hnodes ▸ hr) hu
  · exact hlive.tracked_turn h ho d hstep v (hnodes ▸ hc) ht
  · exact hlive.mailed_turn h ho d hstep (hnodes ▸ hr) hl hf
  · by_cases hcb : c = b
    · rw [hcb, hself]
      exact hlive.foreign_turn h d (hcb ▸ hne)
    · rw [hother c hcb] at ht ⊢
      exact hlive.foreign v c (hnodes ▸ hc) ht hne
  · by_cases hcb : c = b
    · rw [hcb, hself]
      exact hlive.single_turn h d v
    · rw [hother c hcb]
      exact hlive.single v c (hnodes ▸ hc)
  · exact hlive.accounted_turn h ho d hstep hl hc test

end Turns

theorem Live.payload (hlive : Live σ) {s r value : String} {tag : Option Version}
    (he : σ.Enabled (.payload s r value tag)) : Live (σ.step (.payload s r value tag)) := by
  refine ⟨fun v s' r' hr hu => ?_, hlive.tracked, fun s' r' hr l hl f hf => ?_, hlive.foreign,
    hlive.single, fun v hl c hc test => ?_⟩
  · rw [underway_payload he] at hu
    exact hlive.marked v s' r' hr hu
  · rcases mem_channel_payload hl with hl | ⟨-, -, rfl⟩
    · exact hlive.mailed s' r' hr l hl f hf
    · rw [Letter.fragment?_payload s he.2.2.1 he.2.2.2] at hf
      cases hf
  · have hsum := hlive.accounted v hl c hc test
    rw [shipped_payload he]
    exact hsum

theorem Live.step (hlive : Live σ) (h : Ledger σ) {e : Event} (he : σ.Enabled e)
    (ho : σ.Orderly e) : Live (σ.step e) := by
  rcases h.turns he with ⟨s, r, value, tag, rfl⟩ | ⟨τ, b, x, notice, took, next, effects, d, hstep⟩
  · exact hlive.payload he
  · exact hlive.turn h ho d hstep

theorem Live.after (hlive : Live σ) (h : Ledger σ) {es : List Event}
    (hf : σ.Follows Orderly es) : Live (σ.after es) := by
  have hinv := hf.invariant (fun τ => Ledger τ ∧ Live τ)
    (fun τ e hi he hr => ⟨hi.1.step he, hi.2.step hi.1 he hr⟩) ⟨h, hlive⟩
  exact hinv.2

/-- Where nothing is tracked and nothing is under way, nothing is out of place. -/
theorem Live.of_idle (h : Ledger σ) (ht : ∀ v, ∀ c ∈ σ.nodes, (σ.agent c).tracks v = false)
    (hd : σ.Drained) : Live σ := by
  have hheld : ∀ c ∈ σ.nodes, ∀ v p, (σ.agent c).held v p = 0 := by
    intro c hc v p
    rw [Agent.held, (h.sound c).fragments_of_not_tracks (ht v c hc)]
    rfl
  refine ⟨fun v s r hr hu => ?_, fun v c hc hv => ?_, fun s r hr l hl => ?_,
    fun v c hc hv => ?_, fun v c hc => ?_, fun v hl => ?_⟩
  · obtain ⟨l, hl, -⟩ := underway_pos_iff.mp hu
    rw [hd s (h.posted s r l hl).sender r hr] at hl
    cases hl
  · rw [ht v c hc] at hv
    cases hv
  · rw [hd s (h.posted s r l hl).sender r hr] at hl
    cases hl
  · rw [ht v c hc] at hv
    cases hv
  · rw [hheld c hc]
    exact Nat.zero_le 1
  · have hv := hl.tracks h
    rw [ht v _ (hl.mem_nodes h)] at hv
    cases hv

theorem Live.start {nodes : List String} (hn : nodes.Nodup) {policy : String → Policy}
    {es : List Event} (hf : (start nodes policy).Follows Orderly es) :
    Live ((start nodes policy).after es) :=
  (Live.of_idle (.start hn policy) (fun _ _ _ => rfl) fun _ _ _ _ => rfl).after (.start hn policy) hf

theorem recorded_true (σ : Mesh) (c : String) (v : Version) :
    σ.recorded c v (fun _ => true) = (σ.past c).count v := by
  rw [recorded, past, List.count, List.countP_map]
  refine List.countP_congr fun t _ => ?_
  simp

/-- An initiator holds a reading of another node no more often than that node took it for the
version. -/
theorem Live.held_le (hlive : Live σ) (h : Ledger σ) {c : String} (hc : c ≠ v.initiator)
    (test : Float → Bool) :
    (σ.agent v.initiator).held v (Fragment.reads c test) ≤ σ.recorded c v test := by
  by_cases ht : (σ.agent v.initiator).tracks v
  · have hl := hlive.tracked v _ (h.issued _ v (h.tracked _ v ht)).1 ht
    have hsum := hlive.accounted v hl c hc test
    omega
  · rw [Agent.held, (h.sound _).fragments_of_not_tracks (by simpa using ht)]
    exact Nat.zero_le _

theorem Live.held_le_count (hlive : Live σ) (h : Ledger σ) (v : Version) (b : String) :
    (σ.agent v.initiator).held v (Fragment.reads b fun _ => true) ≤ (σ.past b).count v := by
  by_cases hb : b = v.initiator
  · subst hb
    by_cases ht : (σ.agent v.initiator).tracks v
    · have hp := h.tracked _ v ht
      have hpos := List.count_pos_iff.mpr hp
      have hone := hlive.single v _ (h.issued _ v hp).1
      omega
    · rw [Agent.held, (h.sound _).fragments_of_not_tracks (by simpa using ht)]
      exact Nat.zero_le _
  · rw [← recorded_true]
    exact hlive.held_le h hb _

/-- If no node leaves a version of its own before it is over, then every reading of another node that
an initiator holds under its version was taken by that node for this version, and there are at most
as many readings of a node as it took. That is one, if no other node dropped the version for one of
its own. -/
theorem held_readings {nodes : List String} (hn : nodes.Nodup) {policy : String → Policy}
    {es : List Event} (hf : (Mesh.start nodes policy).Follows Orderly es)
    (hσ : σ = (Mesh.start nodes policy).after es) (v : Version) :
    (∀ b, b ≠ v.initiator → ∀ y,
      ((σ.agent v.initiator).fragments v).count (.gateway b y) ≤
        (σ.taken b).countP fun t => t.1 = v ∧ Decimal.retold t.2 = y) ∧
    (∀ b, ((σ.agent v.initiator).fragments v).countP (Fragment.reads b fun _ => true) ≤
      (σ.past b).count v) ∧
    ((Mesh.start nodes policy).Follows (Loyal v) es →
      ∀ b, ((σ.agent v.initiator).fragments v).countP (Fragment.reads b fun _ => true) ≤ 1) := by
  have h : Ledger σ := hσ ▸ (Reachable.of_start hn hf).ledger
  have hlive : Live σ := hσ ▸ Live.start hn hf
  refine ⟨fun b hb y => ?_, hlive.held_le_count h v, fun hloyal b => ?_⟩
  · have hle := hlive.held_le h hb fun z => decide (z = y)
    have hcount : ((σ.agent v.initiator).fragments v).count (.gateway b y) =
        (σ.agent v.initiator).held v (Fragment.reads b fun z => decide (z = y)) := by
      refine List.countP_congr fun f _ => ?_
      cases f <;> simp [Fragment.reads]
    have hrec : σ.recorded b v (fun z => decide (z = y)) =
        (σ.taken b).countP fun t => t.1 = v ∧ Decimal.retold t.2 = y := by
      refine List.countP_congr fun t _ => ?_
      simp
    rw [hcount, ← hrec]
    exact hle
  · have hle := hlive.held_le_count h v b
    by_cases ht : (σ.agent v.initiator).tracks v
    · have hl := hlive.tracked v _ (h.issued _ v (h.tracked _ v ht)).1 ht
      subst hσ
      have w := Wave.after (.initial hn policy) (fun hs => absurd hs.2.symm hs.1) hloyal hl
      exact Nat.le_trans hle (w.once b)
    · rw [(h.sound _).fragments_of_not_tracks (by simpa using ht)]
      exact Nat.zero_le _

/-- The first snapshot ends without the reading of the second node, which arrives in the next one. -/
def late : List Event :=
  [.request "a" "gm" 1, .receive "a" "b" 0 2, .receive "a" "c" 0 3, .receive "c" "b" 0 2,
    .timer "a" .expired, .request "a" "gm" 1, .receive "b" "a" 0 1, .receive "b" "a" 0 1,
    .receive "c" "a" 0 1, .receive "a" "b" 0 5, .receive "b" "a" 0 1, .receive "a" "c" 0 3,
    .receive "c" "a" 0 1, .receive "c" "b" 0 5, .receive "b" "a" 0 1, .receive "b" "c" 0 3,
    .receive "b" "c" 0 3, .receive "c" "a" 0 1]

set_option maxRecDepth 4000 in
/-- Without the rule a reading of an earlier snapshot is held as one of the next, beside that node's
reading for it. -/
theorem late_reading :
    (¬ ∀ nodes policy es v b y, nodes.Nodup → (Mesh.start nodes policy).Follows InOrder es →
      b ≠ v.initiator →
      .gateway b y ∈ (((Mesh.start nodes policy).after es).agent v.initiator).fragments v →
      ∃ t ∈ ((Mesh.start nodes policy).after es).taken b, t.1 = v ∧ Decimal.retold t.2 = y) ∧
    ¬ ∀ nodes policy es a status state b, nodes.Nodup →
      (Mesh.start nodes policy).Follows InOrder es →
      ((((Mesh.start nodes policy).after es).agent a).onTimer status).1 = some (.complete state) →
      ((((Mesh.start nodes policy).after es).agent a).fragments state.version).countP
        (Fragment.reads b fun _ => true) ≤ 1 := by
  constructor
  · intro h
    exact absurd (h ["a", "b", "c"] (fun _ => {}) late ⟨"a", 2⟩ "b" 2 (by decide) (by decide +kernel)
      (by decide) (by decide +kernel)) (by decide +kernel)
  · intro h
    exact absurd (h ["a", "b", "c"] (fun _ => {}) late "a" .expired ⟨"gm", ⟨"a", 2⟩, "1,2,5,3"⟩ "b"
      (by decide) (by decide +kernel) (by decide +kernel)) (by decide +kernel)

/-- Two snapshots, each at its end when its initiator leaves it. -/
def timely : List Event :=
  [.request "a" "gm" 1, .receive "a" "b" 0 2, .receive "a" "c" 0 3, .receive "c" "b" 0 2,
    .receive "b" "c" 0 3, .receive "b" "a" 0 1, .receive "b" "a" 0 1, .receive "c" "a" 0 1,
    .receive "c" "a" 0 1, .timer "a" .expired, .request "a" "gm" 1,
    .receive "a" "b" 0 5, .receive "a" "c" 0 3, .receive "c" "b" 0 5, .receive "b" "c" 0 3,
    .receive "b" "a" 0 1, .receive "b" "a" 0 1]

set_option maxRecDepth 4000 in
/-- The second of two snapshots that follow each other in order, put to the general statement. -/
theorem timely_readings :
    (Mesh.start ["a", "b", "c"] fun _ => {}).Follows Orderly timely ∧
    (Mesh.start ["a", "b", "c"] fun _ => {}).Follows (Loyal ⟨"a", 2⟩) timely ∧
    ∀ b, ((((Mesh.start ["a", "b", "c"] fun _ => {}).after timely).agent
      (Version.mk "a" 2).initiator).fragments ⟨"a", 2⟩).countP
        (Fragment.reads b fun _ => true) ≤ 1 := by
  have hn : ["a", "b", "c"].Nodup := by decide
  have hf : (Mesh.start ["a", "b", "c"] fun _ => {}).Follows Orderly timely := by decide +kernel
  have hl : (Mesh.start ["a", "b", "c"] fun _ => {}).Follows (Loyal ⟨"a", 2⟩) timely := by
    decide +kernel
  exact ⟨hf, hl, (held_readings hn hf rfl ⟨"a", 2⟩).2.2 hl⟩

end Mesh

end PhasedGrid.Snapshot
