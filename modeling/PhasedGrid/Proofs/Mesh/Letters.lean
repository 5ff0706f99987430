import Mathlib.Data.List.Count
import PhasedGrid.Proofs.Mesh.Basic
import PhasedGrid.Proofs.Snapshot.Gathering

/-!
What the letters of one turn say. A version that is taken up goes to every other node as one marker;
everything else that a turn puts on the way to another node is recorded state.
-/

namespace PhasedGrid.Snapshot

set_option autoImplicit false

open PhasedGrid.Peer (Group Message Network)
open Agent (Extra Turn Marking Expiring Handling)

theorem Letter.notice?_eq_some {l : Letter} {notice : Notice} :
    l.notice? = some notice ↔ Wire.read l.message = .ok (some notice) := by
  unfold Letter.notice?
  cases Wire.read l.message with
  | ok n => simp
  | error e => simp

theorem Letter.notice?_marker (s : String) {v : Version} (h : v.sequence ≤ Decimal.maxU64)
    (past : List Version) :
    Letter.notice? ⟨Network.stamp s (Wire.marker v), past⟩ = some (.marker v) :=
  Letter.notice?_eq_some.mpr (Wire.read_marker s h)

theorem Letter.notice?_fragment (s by' : String) (f : Fragment) (past : List Version) :
    Letter.notice? ⟨Network.stamp s (Wire.fragment by' f), past⟩ = some (.state f.retold) :=
  Letter.notice?_eq_some.mpr (Wire.read_fragment s by' f)

theorem Letter.notice?_payload (s : String) {value : String} (h : value ∉ Wire.reserved)
    {tag : Option Version} (ht : ∀ v ∈ tag, v.sequence ≤ Decimal.maxU64) (past : List Version) :
    Letter.notice? ⟨Network.stamp s (Wire.payload s value tag), past⟩ =
      some (.payload value s tag) :=
  Letter.notice?_eq_some.mpr (Wire.read_payload s h ht)

theorem served_of_mem {m : Message} (h : "sc" ∈ m.handlerKeys) : served m := by
  simp [served, handlerKeys, h]

theorem mem_letters {s r : String} {past : List Version} {effects : List Effect} {l : Letter} :
    l ∈ letters s past effects r ↔
      ∃ m, .send r m ∈ effects ∧ served m ∧ l = ⟨Network.stamp s m, past⟩ := by
  unfold letters
  rw [List.mem_filterMap]
  constructor
  · rintro ⟨e, he, hl⟩
    cases e with
    | arm d => cases hl
    | send p m =>
      dsimp only at hl
      split at hl
      · rename_i hp
        exact ⟨m, hp.1 ▸ he, hp.2, (Option.some.inj hl).symm⟩
      · cases hl
  · rintro ⟨m, hm, hs, rfl⟩
    exact ⟨.send r m, hm, if_pos ⟨rfl, hs⟩⟩

theorem letters_append (s r : String) (past : List Version) (es fs : List Effect) :
    letters s past (es ++ fs) r = letters s past es r ++ letters s past fs r :=
  List.filterMap_append

/-- A message to each of some distinct receivers is one letter to each. -/
theorem letters_each (s r : String) (past : List Version) {ps : List String} (hn : ps.Nodup)
    {m : Message} (hm : served m) :
    letters s past (ps.map fun p => .send p m) r =
      if r ∈ ps then [⟨Network.stamp s m, past⟩] else [] := by
  induction ps with
  | nil => rfl
  | cons p rest ih =>
    obtain ⟨hp, hn⟩ := List.nodup_cons.mp hn
    rw [List.map_cons, ← List.singleton_append, letters_append, ih hn]
    by_cases hr : p = r
    · subst hr
      simp [letters, hm, hp]
    · simp [letters, hr, Ne.symm hr]

theorem letters_announce {a : Agent} {s : String} {nodes : List String}
    (hp : a.peers = .ofList s nodes) (hs : s ∈ nodes) (v : Version) (past : List Version)
    (r : String) :
    letters s past (a.announce v) r =
      if r ∈ nodes ∧ r ≠ s then [⟨Network.stamp s (Wire.marker v), past⟩] else [] := by
  have hm := served_of_mem (Wire.marker_handlerKeys v)
  have h := letters_each s r past (Group.nodup_others_ofList s nodes) hm
  simp only [Group.mem_others_ofList hs] at h
  rw [← h, ← hp]
  rfl

/-- What a letter can say that is no marker: recorded state to another node, or an answer to a
module of the sender's own. -/
def Letter.Plain (l : Letter) (s r : String) : Prop :=
  l.message.source = s ∧ ∀ n, l.notice? = some n →
    (∃ f, n = .state f ∧ s ≠ r) ∨ ∃ value source tag, n = .payload value source tag ∧ s = r

theorem letters_extra {a : Agent} {rest : List Effect} (he : ∀ e ∈ rest, Extra a e)
    {past : List Version} {r : String} {l : Letter} (hl : l ∈ letters a.uuid past rest r) :
    l.Plain a.uuid r := by
  obtain ⟨m, hm, -, rfl⟩ := mem_letters.mp hl
  refine ⟨rfl, fun n hn => ?_⟩
  cases he _ hm with
  | state w f hw =>
    rw [Letter.notice?_fragment] at hn
    exact Or.inl ⟨f.retold, (Option.some.inj hn).symm, Ne.symm hw⟩
  | answer c =>
    obtain ⟨value, source, tag, rfl⟩ := Wire.read_answer a.uuid c (Letter.notice?_eq_some.mp hn)
    exact Or.inr ⟨value, source, tag, rfl, rfl⟩

/-- A turn's letters to a node: a marker of the version taken up, if any and unless the node is the
sender, and then plain ones. -/
theorem letters_turn {a next : Agent} {took : Option Version} {effects : List Effect}
    (t : Turn a took next effects) {s : String} {nodes : List String} (hu : a.uuid = s)
    (hp : a.peers = .ofList s nodes) (hs : s ∈ nodes) (past : List Version) (r : String) :
    ∃ plain, (∀ l ∈ plain, l.Plain s r) ∧
      letters s past effects r =
        (match took with
          | some v => if r ∈ nodes ∧ r ≠ s then [⟨Network.stamp s (Wire.marker v), past⟩] else []
          | none => []) ++ plain := by
  obtain ⟨rest, rfl, he⟩ := t.effects
  refine ⟨letters s past rest r, fun l hl => ?_, ?_⟩
  · subst hu
    exact letters_extra he hl
  · rw [letters_append]
    cases took with
    | none => rfl
    | some v => exact congrArg (· ++ _) (letters_announce hp hs v past r)

def Letter.fragment? (l : Letter) : Option Fragment :=
  match l.notice? with
  | some (.state f) => some f
  | _ => none

theorem Letter.fragment?_eq_some {l : Letter} {f : Fragment} :
    l.fragment? = some f ↔ l.notice? = some (.state f) := by
  unfold Letter.fragment?
  split
  · rename_i g hg
    simp [hg]
  · rename_i hno
    exact ⟨nofun, fun h => absurd h (hno f)⟩

theorem Letter.fragment?_payload (s : String) {value : String} (h : value ∉ Wire.reserved)
    {tag : Option Version} (ht : ∀ v ∈ tag, v.sequence ≤ Decimal.maxU64) (past : List Version) :
    Letter.fragment? ⟨Network.stamp s (Wire.payload s value tag), past⟩ = none := by
  rw [Letter.fragment?, Letter.notice?_payload s h ht]

/-- The number of recorded fragments in some letters that pass a test. -/
def shipped (ls : List Letter) (p : Fragment → Bool) : Nat := ls.countP fun l => l.fragment?.any p

theorem shipped_append (ls ms : List Letter) (p : Fragment → Bool) :
    shipped (ls ++ ms) p = shipped ls p + shipped ms p := List.countP_append

theorem shipped_eq_zero {ls : List Letter} (h : ∀ l ∈ ls, ∀ f, l.notice? ≠ some (.state f))
    (p : Fragment → Bool) : shipped ls p = 0 := by
  refine List.countP_eq_zero.mpr fun l hl hp => ?_
  cases hf : l.fragment? with
  | none => simp [hf] at hp
  | some f => exact h l hl f (Letter.fragment?_eq_some.mp hf)

theorem shipped_announce {a : Agent} {s : String} {nodes : List String}
    (hp : a.peers = .ofList s nodes) (hs : s ∈ nodes) {v : Version}
    (hv : v.sequence ≤ Decimal.maxU64) (past : List Version) (r : String) (p : Fragment → Bool) :
    shipped (letters s past (a.announce v) r) p = 0 := by
  refine shipped_eq_zero (fun l hl f hf => ?_) p
  rw [letters_announce hp hs] at hl
  split at hl
  · rw [List.mem_singleton.mp hl, Letter.notice?_marker s hv] at hf
    cases hf
  · cases hl

theorem shipped_fragments (s by' to' r : String) (past : List Version) (fs : List Fragment)
    (p : Fragment → Bool) :
    shipped (letters s past (fs.map fun f => .send to' (Wire.fragment by' f)) r) p =
      if r = to' then fs.countP fun f => p f.retold else 0 := by
  induction fs with
  | nil => simp [letters, shipped]
  | cons f rest ih =>
    rw [List.map_cons, ← List.singleton_append, letters_append, shipped_append, ih]
    have hm := served_of_mem (Wire.fragment_handlerKeys by' f)
    have hf : Letter.fragment? ⟨Network.stamp s (Wire.fragment by' f), past⟩ = some f.retold :=
      Letter.fragment?_eq_some.mpr (Letter.notice?_fragment s by' f past)
    by_cases hr : r = to'
    · subst hr
      rw [if_pos rfl, if_pos rfl, List.countP_cons, Nat.add_comm]
      congr 1
      simp [letters, shipped, hm, hf, List.countP_cons]
    · rw [if_neg hr, if_neg hr]
      simp [letters, shipped, Ne.symm hr]

/-- A timer ends with an answer to a module at most. -/
theorem notice_expiring {a next : Agent} {outcome : Option Outcome} {effects : List Effect}
    (m : Expiring a outcome next effects) (past : List Version) (r : String) {l : Letter}
    (hl : l ∈ letters a.uuid past effects r) {n : Notice} (hn : l.notice? = some n) :
    ∃ value sender tag, n = .payload value sender tag := by
  obtain ⟨msg, hm, -, rfl⟩ := mem_letters.mp hl
  cases m with
  | idle => cases hm
  | complete _ _ hsent =>
    obtain ⟨-, rfl⟩ := Effect.send.inj (hsent _ hm)
    exact Wire.read_answer a.uuid _ (Letter.notice?_eq_some.mp hn)
  | extended _ _ => simp at hm
  | incomplete _ _ => cases hm

theorem shipped_expiring {a next : Agent} {outcome : Option Outcome} {effects : List Effect}
    (m : Expiring a outcome next effects) (past : List Version) (r : String)
    (p : Fragment → Bool) : shipped (letters a.uuid past effects r) p = 0 := by
  refine shipped_eq_zero (fun l hl f hf => ?_) p
  obtain ⟨value, sender, tag, hn⟩ := notice_expiring m past r hl hf
  cases hn

/-- A marker of `w` makes a node send fragments to the initiator of `w` only. -/
theorem shipped_marking_of_ne {a next : Agent} {x : Float} {w : Version} {took : Option Version}
    {effects : List Effect} (m : Marking a x w took next effects) {nodes : List String}
    (hp : a.peers = .ofList a.uuid nodes) (hs : a.uuid ∈ nodes)
    (hw : w.sequence ≤ Decimal.maxU64) (past : List Version) {r : String} (hr : r ≠ w.initiator)
    (p : Fragment → Bool) : shipped (letters a.uuid past effects r) p = 0 := by
  cases m with
  | own _ _ => rfl
  | counted _ _ _ => rfl
  | finished _ _ _ => exact (shipped_fragments _ _ _ r past _ p).trans (if_neg hr)
  | stale _ _ => rfl
  | opened _ _ _ => exact shipped_announce hp hs hw past r p
  | passed _ _ _ =>
    rw [letters_append, shipped_append, shipped_announce hp hs hw, Nat.zero_add]
    exact (shipped_fragments _ _ _ r past [_] p).trans (if_neg hr)

/-- What a node still holds of `w` and what it sends off is what it held and what it recorded. -/
theorem shipped_marking {a next : Agent} {x : Float} {w : Version}
    {took : Option Version} {effects : List Effect} (m : Marking a x w took next effects)
    {nodes : List String} (hp : a.peers = .ofList a.uuid nodes) (hs : a.uuid ∈ nodes)
    (hw : w.sequence ≤ Decimal.maxU64) (past : List Version) (p : Fragment → Bool) :
    next.held w (fun f => p f.retold) + shipped (letters a.uuid past effects w.initiator) p ≤
      a.held w (fun f => p f.retold) +
        if took = some w ∧ p (Fragment.retold (.gateway a.uuid x)) then 1 else 0 := by
  have hle := m.held_le w fun f => p f.retold
  cases m with
  | own _ _ => exact hle
  | counted _ _ _ => exact hle
  | finished hv hi hn =>
    have hnone : (a.abandon w).held w (fun f => p f.retold) = 0 := by
      rw [Agent.held, (a.abandon_drops w).fragments_of_mem (List.mem_singleton.mpr rfl)]
      rfl
    have hsent : shipped (letters a.uuid past (a.shipBack w) w.initiator) p =
        a.held w fun f => p f.retold :=
      (shipped_fragments _ _ _ w.initiator past _ p).trans (if_pos rfl)
    omega
  | stale _ _ => exact hle
  | opened _ _ _ =>
    rw [shipped_announce hp hs hw]
    exact hle
  | passed hv hst hn =>
    have hnone : ((a.abandonSuperseded w).abandon w).held w (fun f => p f.retold) = 0 := by
      rw [Agent.held, (Agent.abandon_drops _ w).fragments_of_mem (List.mem_singleton.mpr rfl)]
      rfl
    have hsent : shipped (letters a.uuid past
        [.send w.initiator (Wire.fragment a.uuid (.gateway a.uuid x))] w.initiator) p =
        if p (Fragment.retold (.gateway a.uuid x)) then 1 else 0 := by
      refine ((shipped_fragments a.uuid a.uuid w.initiator w.initiator past [.gateway a.uuid x] p).trans
        (if_pos rfl)).trans ?_
      rw [List.countP_singleton]
    rw [letters_append, shipped_append, shipped_announce hp hs hw, hnone, hsent]
    simp

/-- What a node has recorded of the messages in transit for `w` it still holds or has sent off. -/
theorem shipped_marking_transits {a next : Agent} (h : a.Sound) {x : Float} {w : Version}
    {took : Option Version} {effects : List Effect} (m : Marking a x w took next effects)
    {nodes : List String} (hp : a.peers = .ofList a.uuid nodes) (hs : a.uuid ∈ nodes)
    (hw : w.sequence ≤ Decimal.maxU64) (past : List Version) {p : Fragment → Bool}
    (ht : Fragment.OfTransits p) :
    next.held w p + shipped (letters a.uuid past effects w.initiator) p = a.held w p := by
  cases m with
  | own hv hi => exact congrArg (List.countP p) (a.fragments_tally w w)
  | counted _ _ _ => rfl
  | finished hv hi hn =>
    rw [(a.abandon_drops w).held_of_mem (List.mem_singleton.mpr rfl), Nat.zero_add]
    refine (shipped_fragments _ _ _ w.initiator past _ p).trans ((if_pos rfl).trans ?_)
    exact List.countP_congr fun f _ => by rw [ht.retold]
  | stale _ _ => rfl
  | opened hv _ _ =>
    have hk : ((a.takeUp x w).record w).held w p = _ := (a.takeUp_adds x w).held_eq w p
    rw [ht, if_neg fun hx => nomatch hx.2] at hk
    have hle := (a.abandonSuperseded_drops w).held_le w p
    rw [h.held_of_not_tracks hv] at hle ⊢
    rw [shipped_announce hp hs hw, hk]
    omega
  | passed hv _ _ =>
    have hsent := shipped_fragments a.uuid a.uuid w.initiator w.initiator past [.gateway a.uuid x] p
    rw [if_pos rfl, List.countP_singleton, ht.retold, ht] at hsent
    rw [(Agent.abandon_drops _ w).held_of_mem (List.mem_singleton.mpr rfl), letters_append,
      shipped_append, shipped_announce hp hs hw, h.held_of_not_tracks hv]
    exact (Nat.zero_add _).trans ((Nat.zero_add _).trans hsent)

/-- A node sends recorded fragments when it has the last marker that it waits for, and only to the
initiator of that marker's version. -/
theorem shipped_handling {a next : Agent} {x : Float} {notice : Option Notice}
    {took : Option Version} {effects : List Effect} (m : Handling a x notice took next effects)
    {nodes : List String} (hp : a.peers = .ofList a.uuid nodes) (hs : a.uuid ∈ nodes)
    (hseq : ∀ w, notice = some (.marker w) → w.sequence ≤ Decimal.maxU64) (past : List Version)
    {r : String} {p : Fragment → Bool} (hsent : shipped (letters a.uuid past effects r) p ≠ 0) :
    ∃ w, notice = some (.marker w) ∧ w.initiator = r ∧ w.initiator ≠ a.uuid ∧
      a.peers.size ≤ a.markerCount w + 2 := by
  cases m with
  | ignored => exact absurd rfl hsent
  | state f => exact absurd rfl hsent
  | payload value sender tag => exact absurd rfl hsent
  | @marker w _ _ _ hsen m =>
    have hr : w.initiator = r := by
      by_contra hne
      exact hsent (shipped_marking_of_ne m hp hs (hseq w rfl) past (Ne.symm hne) p)
    refine ⟨w, rfl, hr, ?_⟩
    cases m with
    | own _ _ => exact absurd rfl hsent
    | counted _ _ _ => exact absurd rfl hsent
    | finished _ hi hn => exact ⟨hi, Nat.le_of_eq hn⟩
    | stale _ _ => exact absurd rfl hsent
    | opened _ _ _ => exact absurd (shipped_announce hp hs (hseq w rfl) past r p) hsent
    | passed _ hst hn =>
      exact ⟨((a.isStale_eq_false_iff w).mp hst).2.1, Nat.le_add_left_of_le hn⟩

end PhasedGrid.Snapshot
