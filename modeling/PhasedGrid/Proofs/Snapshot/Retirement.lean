import Mathlib.Data.List.DropRight
import PhasedGrid.Proofs.Snapshot.Lineages
import PhasedGrid.Proofs.Snapshot.Responses

/-!
The versions that a node is done with. It remembers the last of them, each once, and ignores their
markers; a version of its own it never takes up again, whether it still remembers it or not.
-/

namespace PhasedGrid.Snapshot

set_option autoImplicit false

open PhasedGrid.Peer (Message)

/-- Versions of which none is among the `n` before it. -/
inductive Spaced (n : Nat) : List Version → Prop where
  | nil : Spaced n []
  | snoc {log : List Version} {v : Version} : Spaced n log → v ∉ log.rtake n → Spaced n (log ++ [v])

section Spaced

variable {n : Nat} {log ws : List Version} {v : Version}

theorem mem_rtake_of_suffix (h : ws <:+ log) (hn : ws.length ≤ n) (hv : v ∈ ws) :
    v ∈ log.rtake n := by
  have hle := h.length_le
  have hsuffix : ws <:+ log.rtake n := by
    refine List.suffix_of_suffix_length_le h (List.drop_suffix _ log) ?_
    rw [List.rtake, List.length_drop]
    omega
  exact hsuffix.subset hv

/-- Adding to the last entries of a list is enough to know the last entries of the longer list. -/
theorem rtake_rtake_append (log : List Version) (v : Version) (n : Nat) :
    (log.rtake n ++ [v]).rtake n = (log ++ [v]).rtake n := by
  simp only [List.rtake_eq_reverse_take_reverse, List.reverse_append, List.reverse_reverse,
    List.reverse_singleton, List.singleton_append]
  cases n with
  | zero => rfl
  | succ n => rw [List.take_succ_cons, List.take_succ_cons, List.take_take, Nat.min_eq_left n.le_succ]

namespace Spaced

theorem nodup (h : Spaced n log) (hw : ws <:+: log) (hn : ws.length ≤ n + 1) : ws.Nodup := by
  induction h generalizing ws with
  | nil =>
    rw [List.infix_nil.mp hw]
    exact List.nodup_nil
  | @snoc log v h hv ih =>
    -- a piece that ends with the newest entry has at most `n` before that, and they are its window
    rcases List.infix_concat_iff.mp hw with hsuffix | hw
    · rcases List.suffix_concat_iff.mp hsuffix with rfl | ⟨us, rfl, hus⟩
      · exact List.nodup_nil
      · rw [List.length_append, List.length_singleton] at hn
        refine (ih hus.isInfix (by omega)).append (List.nodup_singleton v) fun w hw hwv => hv ?_
        rw [List.mem_singleton] at hwv
        exact mem_rtake_of_suffix hus (by omega) (hwv ▸ hw)
    · exact ih hw hn

theorem length_lt (h : Spaced n log) (hw : ws <:+ log) (hc : ws.toFinset.card < n) :
    ws.length < n := by
  by_contra hle
  have hnodup : (ws.take n).Nodup := by
    refine h.nodup ((List.take_prefix n ws).isInfix.trans hw.isInfix) ?_
    rw [List.length_take]
    omega
  have hcard : (ws.take n).toFinset.card ≤ ws.toFinset.card := by
    refine Finset.card_le_card fun v hv => ?_
    rw [List.mem_toFinset] at hv ⊢
    exact List.mem_of_mem_take hv
  rw [List.toFinset_card_of_nodup hnodup, List.length_take] at hcard
  omega

end Spaced

end Spaced

namespace Agent

variable {a b next : Agent} {x : Float} {v w : Version} {took : Option Version}
  {effects : List Effect} {log : List Version}

/-- The versions that a node had under way, or took up, and has no more. -/
def gone (a : Agent) (took : Option Version) (next : Agent) : List Version :=
  (Table.keys a.markers ++ took.toList).filter fun w => !next.tracks w

/-- The versions that a call puts an end to: they are finished, answered or abandoned. What a new
version or a new group clears away comes to no end. -/
def retires (a : Agent) (c : Call) : List Version :=
  match c, c.notice? with
  | .request _ _, _ | _, some (.request _ _) | _, some (.peerList _ _) => []
  | _, some (.marker v) => a.gone (a.takes? (.marker v)) (a.serve c).1
  | _, _ => a.gone none (a.serve c).1

/-- The versions put an end to in a series of calls, in order. -/
def retirements (a : Agent) : List Call → List Version
  | [] => []
  | c :: rest => a.retires c ++ (a.serve c).1.retirements rest

/-- What a node remembers of the versions put an end to: the last of them, none of which it takes
up again as long as it does. -/
structure Remembers (a : Agent) (log : List Version) : Prop extends Single a where
  retired_eq : a.retired = log.rtake retiredCapacity
  spaced : Spaced retiredCapacity log
  proper : ∀ v ∈ log, v ≠ .sentinel
  untracked : ∀ v ∈ a.retired, a.tracks v = false

theorem abandon_retired (a : Agent) (v : Version) :
    (a.abandon v).retired = (a.retired ++ [v]).rtake retiredCapacity := by
  unfold abandon
  dsimp only
  split <;> rfl

theorem Single.keys_nodup (h : a.Single) : (Table.keys a.markers).Nodup :=
  List.Pairwise.imp (fun hlt he => by
    subst he
    exact Std.lt_irrefl hlt) h.sorted

namespace Remembers

theorem of_retired (h : a.Remembers log) (hb : b.Single) (hr : b.retired = a.retired)
    (ht : ∀ v ∈ a.retired, b.tracks v = false) : b.Remembers log :=
  { hb with
    retired_eq := hr.trans h.retired_eq
    spaced := h.spaced
    proper := h.proper
    untracked := fun v hv => ht v (hr ▸ hv) }

theorem abandon (h : a.Remembers log) (hs : v ≠ .sentinel) (hv : v ∉ a.retired) :
    (a.abandon v).Remembers (log ++ [v]) := by
  have d := a.abandon_drops v
  refine { h.toSingle.abandon v with
    retired_eq := ?_, spaced := .snoc h.spaced (h.retired_eq ▸ hv), proper := ?_, untracked := ?_ }
  · rw [abandon_retired, h.retired_eq, rtake_rtake_append]
  · intro w hw
    rcases List.mem_append.mp hw with hw | hw
    · exact h.proper w hw
    · exact List.mem_singleton.mp hw ▸ hs
  · intro w hw
    rw [d.tracks_eq]
    rcases d.retired w hw with hw | hw
    · rw [h.untracked w hw, Bool.and_false]
    · rw [decide_eq_true hw]
      rfl

theorem not_mem_of_tracks (h : a.Remembers log) (hv : a.tracks v) :
    v ≠ .sentinel ∧ v ∉ a.retired := by
  refine ⟨?_, fun hr => ?_⟩
  · rintro rfl
    rw [h.sentinel_untracked] at hv
    cases hv
  · rw [h.untracked v hr] at hv
    cases hv

theorem abandonSuperseded (h : a.Remembers log) (v : Version) :
    (a.abandonSuperseded v).Remembers (log ++ a.superseded v) := by
  have hfold : ∀ (ws : List Version) {a : Agent} {log : List Version}, a.Remembers log → ws.Nodup →
      (∀ w ∈ ws, a.tracks w) → (ws.foldl Agent.abandon a).Remembers (log ++ ws) := by
    intro ws
    induction ws with
    | nil =>
      intro a log h _ _
      rw [List.append_nil]
      exact h
    | cons w rest ih =>
      intro a log h hn hw
      obtain ⟨hwr, hn⟩ := List.nodup_cons.mp hn
      obtain ⟨hs, hr⟩ := h.not_mem_of_tracks (hw w List.mem_cons_self)
      rw [List.append_cons]
      refine ih (h.abandon hs hr) hn fun u hu => ?_
      have hne : u ∉ [w] := fun hm => hwr (List.mem_singleton.mp hm ▸ hu)
      rw [(a.abandon_drops w).tracks_eq, decide_eq_false hne, hw u (List.mem_cons_of_mem w hu)]
      rfl
  refine hfold (a.superseded v) h (h.keys_nodup.filter _) fun w hw => ?_
  exact ((a.mem_superseded_iff v w).mp hw).1

end Remembers

section Gone

theorem gone_eq_nil (ht : ∀ w, a.tracks w → next.tracks w) : a.gone none next = [] := by
  rw [gone, Option.toList_none, List.append_nil, List.filter_eq_nil_iff]
  intro w hw
  rw [ht w ((Table.mem_keys_iff w a.markers).mp hw)]
  exact Bool.false_ne_true

theorem Drops.keys_filter {ws : List Version} (d : Drops a b ws) :
    ((Table.keys a.markers).filter fun w => !b.tracks w) =
      (Table.keys a.markers).filter fun w => w ∈ ws := by
  refine List.filter_congr fun w hw => ?_
  rw [d.tracks_eq, show a.tracks w = true from (Table.mem_keys_iff w a.markers).mp hw,
    Bool.and_true, Bool.not_not]

theorem Single.gone_abandon (h : a.Single) (hv : a.tracks v) : a.gone none (a.abandon v) = [v] := by
  have hmem : v ∈ Table.keys a.markers := (Table.mem_keys_iff v a.markers).mpr hv
  rw [gone, Option.toList_none, List.append_nil, (a.abandon_drops v).keys_filter]
  simp only [List.mem_singleton]
  rw [List.filter_eq, List.count_eq_one_of_mem h.keys_nodup hmem]
  rfl

/-- When a version is taken up, those that it supersedes go, and it goes itself unless it stays. -/
theorem gone_some (ht : ∀ w, a.tracks w → next.tracks w = !v.supersedes w) :
    a.gone (some v) next = a.superseded v ++ if next.tracks v then [] else [v] := by
  have hkeys : (Table.keys a.markers).filter (fun w => !next.tracks w) = a.superseded v := by
    refine List.filter_congr fun w hw => ?_
    rw [ht w ((Table.mem_keys_iff w a.markers).mp hw), Bool.not_not]
  rw [gone, List.filter_append, hkeys]
  cases hv : next.tracks v <;> simp [hv]

theorem tracks_abandonSuperseded (a : Agent) (v w : Version) (hw : a.tracks w) :
    (a.abandonSuperseded v).tracks w = !v.supersedes w := by
  have hmem := a.mem_superseded_iff v w
  rw [(a.abandonSuperseded_drops v).tracks_eq, hw, Bool.and_true]
  cases hsup : v.supersedes w <;> simp [hmem, hw, hsup]

theorem ne_of_tracks (hv : a.tracks v = false) (hw : a.tracks w) : v ≠ w := by
  rintro rfl
  rw [hv] at hw
  cases hw

theorem tracks_takeUp (a : Agent) (x : Float) (v w : Version) :
    ((a.takeUp x v).record v).tracks w =
      (decide (v = w) || (a.abandonSuperseded v).tracks w) := (a.takeUp_adds x v).tracks_eq w

theorem gone_opened (hv : a.tracks v = false) :
    a.gone (some v) ((a.takeUp x v).record v) = a.superseded v := by
  rw [gone_some, tracks_takeUp, decide_eq_true rfl, Bool.true_or, if_pos rfl, List.append_nil]
  intro w hw
  rw [tracks_takeUp, decide_eq_false (ne_of_tracks hv hw), Bool.false_or,
    a.tracks_abandonSuperseded v w hw]

theorem gone_passed (hv : a.tracks v = false) :
    a.gone (some v) ((a.abandonSuperseded v).abandon v) = a.superseded v ++ [v] := by
  have d := abandon_drops (a.abandonSuperseded v) v
  rw [gone_some, d.tracks_eq, decide_eq_true (List.mem_singleton_self v), Bool.not_true,
    Bool.false_and, if_neg Bool.false_ne_true]
  intro w hw
  have hwv : w ∉ [v] := fun hm => ne_of_tracks hv hw (List.mem_singleton.mp hm).symm
  rw [d.tracks_eq, decide_eq_false hwv, Bool.not_false, Bool.true_and,
    a.tracks_abandonSuperseded v w hw]

end Gone

namespace Remembers

/-- A version that is taken up is not among those remembered, nor does it join them by the way. -/
theorem not_mem_abandonSuperseded (hv : a.tracks v = false) (hst : a.isStale v = false) :
    v ∉ (a.abandonSuperseded v).retired := by
  intro hr
  rcases (a.abandonSuperseded_drops v).retired v hr with hr | hr
  · exact ((a.isStale_eq_false_iff v).mp hst).1 hr
  · rw [((a.mem_superseded_iff v v).mp hr).1] at hv
    cases hv

theorem of_turn (h : a.Remembers log) (hb : next.Single) (t : Turn a none next effects)
    (hr : next.retired = a.retired) : next.Remembers log := by
  refine h.of_retired hb hr fun v hv => Bool.eq_false_iff.mpr fun hn => ?_
  rcases t.tracks v hn with ht | ht
  · exact (h.not_mem_of_tracks ht).2 hv
  · cases ht

theorem of_markers (h : a.Remembers log) (hb : b.Sound) (hm : b.markers = a.markers)
    (hr : b.retired = a.retired) : b.Remembers (log ++ a.gone none b) := by
  have ht : ∀ w, b.tracks w = a.tracks w := by
    intro w
    rw [tracks, tracks, hm]
  rw [gone_eq_nil fun w hw => (ht w).trans hw, List.append_nil]
  refine h.of_retired (h.toSingle.of_markers hb hm) hr fun v hv => ?_
  rw [ht, h.untracked v hv]

theorem marking (h : a.Remembers log) (hs : v ≠ .sentinel) (m : Marking a x v took next effects) :
    next.Remembers (log ++ a.gone took next) := by
  have hb := h.toSingle.marking hs m
  have t := h.marking_turn hs m
  cases m with
  | own hv _ =>
    have htracks : ∀ w, (a.tally v).tracks w = (a.bump v).tracks w := by
      intro w
      unfold tally
      split <;> rfl
    rw [gone_eq_nil fun w hw => by rw [htracks, tracks_bump, hw, Bool.or_true], List.append_nil]
    refine h.of_turn hb t ?_
    unfold tally
    split <;> rfl
  | counted hv _ _ =>
    rw [gone_eq_nil fun w hw => by rw [tracks_bump, hw, Bool.or_true], List.append_nil]
    exact h.of_turn hb t rfl
  | finished hv _ _ =>
    rw [h.gone_abandon hv]
    exact h.abandon hs (h.not_mem_of_tracks hv).2
  | stale _ _ => exact h.of_markers h.toSound rfl rfl
  | opened hv hst _ =>
    have hb' := h.abandonSuperseded v
    rw [gone_opened hv]
    refine hb'.of_retired hb (a.takeUp_adds x v).retired fun w hw => ?_
    have hne : v ≠ w := by
      rintro rfl
      exact not_mem_abandonSuperseded hv hst hw
    rw [tracks_takeUp, decide_eq_false hne, Bool.false_or, hb'.untracked w hw]
  | passed hv hst _ =>
    rw [gone_passed hv, ← List.append_assoc]
    exact (h.abandonSuperseded v).abandon hs (not_mem_abandonSuperseded hv hst)

theorem expiring (h : a.Remembers log) {outcome : Option Outcome}
    (m : Expiring a outcome next effects) : next.Remembers (log ++ a.gone none next) := by
  have hs := h.toSound.expiring m
  have hend : a.awaiting → (a.abandon a.current).Remembers
      (log ++ a.gone none (a.abandon a.current)) := by
    intro ha
    have hv := h.awaiting_tracks ha
    rw [h.gone_abandon hv]
    exact h.abandon (h.not_mem_of_tracks hv).1 (h.not_mem_of_tracks hv).2
  cases m with
  | idle => exact h.of_markers hs rfl rfl
  | complete ha _ _ => exact hend ha
  | extended _ _ => exact h.of_markers hs rfl rfl
  | incomplete ha _ => exact hend ha

theorem meet (h : a.Remembers log) (source : String) : (a.meet source).Remembers log := by
  refine h.of_retired (h.toSingle.meet source) ?_ fun v hv => ?_
  · unfold Agent.meet
    split <;> rfl
  · rw [tracks_meet]
    exact h.untracked v hv

/-- The version that a node starts next is none that it remembers. -/
theorem initiate (h : a.Remembers log) (hb : Alike a b) (hr : b.retired = a.retired)
    (hn : 1 ≤ b.peers.size) (hown : ∀ v ∈ log, v.initiator = a.uuid → v.sequence ≤ a.started) :
    (b.initiate x).1.Remembers log := by
  refine h.of_retired (initiate_single hn x) hr fun v hv => Bool.eq_false_iff.mpr fun ht => ?_
  obtain rfl := ((b.request_starts x "").tracks v).mp ht
  rw [hb.nextVersion] at hv
  have hlog : a.nextVersion ∈ log := List.mem_of_mem_drop (h.retired_eq ▸ hv)
  exact Nat.not_succ_le_self _ (hown _ hlog rfl)

theorem onPeerList (h : a.Remembers log) (leader : String) (peers : List String)
    (hown : ∀ v ∈ log, v.initiator = a.uuid → v.sequence ≤ a.started) :
    (a.onPeerList x leader peers).1.Remembers log := by
  have hn := a.peers.size_announce_pos peers
  have hb := onPeerList_single a x leader peers
  unfold Agent.onPeerList at hb ⊢
  dsimp only at hb ⊢
  split
  · exact h.initiate ⟨rfl, rfl, rfl⟩ rfl hn hown
  · rename_i hl
    rw [if_neg hl] at hb
    exact h.of_retired hb rfl fun _ _ => rfl

theorem serve (h : a.Remembers log) {c : Call} (hs : c.notice? ≠ some (.marker .sentinel))
    (hown : ∀ v ∈ log, v.initiator = a.uuid → v.sequence ≤ a.started) :
    (a.serve c).1.Remembers (log ++ a.retires c) := by
  cases c with
  | request module x =>
    rw [show a.retires (.request module x) = [] from rfl, List.append_nil]
    exact h.initiate ⟨rfl, rfl, rfl⟩ rfl h.own_member hown
  | timer status => exact h.expiring (a.onTimer_expiring status)
  | message m x =>
    have hm := h.meet m.source
    have ht := a.meet_tends m.source
    rw [← ht.uuid, ← ht.started] at hown
    have hgone : ∀ took next, a.gone took next = (a.meet m.source).gone took next := by
      intro took next
      unfold gone Agent.meet
      split <;> rfl
    unfold retires
    rw [serve_message]
    cases hn : (Call.message m x).notice? with
    | none =>
      dsimp only
      rw [hgone]
      exact hm.of_markers hm.toSound rfl rfl
    | some notice =>
      cases notice with
      | peerList leader peers =>
        dsimp only
        rw [List.append_nil]
        exact hm.onPeerList leader peers hown
      | request module source =>
        dsimp only
        rw [List.append_nil]
        exact hm.initiate ⟨rfl, rfl, rfl⟩ rfl hm.own_member hown
      | marker v =>
        have hv : v ≠ .sentinel := by
          rintro rfl
          exact hs hn
        dsimp only
        rw [hgone, ← takes?_meet]
        exact hm.marking hv (onMarker_marking hm.toSound x hv)
      | state f =>
        dsimp only
        rw [hgone]
        obtain ⟨hmarkers, hretired⟩ := (a.meet m.source).onState_keeps f
        exact hm.of_markers (hm.toSound.onState f) hmarkers hretired
      | payload value sender tag =>
        dsimp only
        rw [hgone]
        obtain ⟨hmarkers, hretired⟩ := (a.meet m.source).onPayload_keeps value sender tag
        exact hm.of_markers (hm.toSound.onPayload value sender tag) hmarkers hretired

end Remembers

theorem mem_gone_iff : v ∈ a.gone took next ↔
    (a.tracks v ∨ took = some v) ∧ next.tracks v = false := by
  rw [gone, List.mem_filter, List.mem_append, Table.mem_keys_iff, Option.mem_toList,
    Bool.not_eq_true']
  rfl

theorem initiator_ne_of_takes? (h : a.takes? (.marker w) = some v) : v.initiator ≠ a.uuid := by
  change (if w = a.current ∨ a.tracks w ∨ a.isStale w then none else some w) = some v at h
  split at h
  · cases h
  · rename_i hst
    obtain rfl := Option.some.inj h
    have hfresh := Bool.eq_false_iff.mpr (not_or.mp (not_or.mp hst).2).2
    exact ((a.isStale_eq_false_iff w).mp hfresh).2.1

/-- What a call puts an end to was under way before it or is a version of another node. -/
theorem of_mem_retires {c : Call} (hv : v ∈ a.retires c) :
    (a.tracks v ∨ v.initiator ≠ a.uuid) ∧ (a.serve c).1.tracks v = false := by
  have hnone : v ∈ a.gone none (a.serve c).1 →
      (a.tracks v ∨ v.initiator ≠ a.uuid) ∧ (a.serve c).1.tracks v = false := by
    intro hv
    have hgone := mem_gone_iff.mp hv
    exact ⟨Or.inl (hgone.1.resolve_right nofun), hgone.2⟩
  unfold retires at hv
  split at hv
  · cases hv
  · cases hv
  · cases hv
  · rename_i w _
    have hgone := mem_gone_iff.mp hv
    exact ⟨hgone.1.imp id initiator_ne_of_takes?, hgone.2⟩
  · exact hnone hv

/-- A node that is done with its own versions for good. -/
structure Settles (a : Agent) (log : List Version) : Prop extends Remembers a log where
  spent : ∀ v ∈ log, v.initiator = a.uuid → a.Spent v
  newest : a.awaiting → a.current = ⟨a.uuid, a.started⟩

namespace Settles

theorem serve (h : a.Settles log) {c : Call} (hs : c.notice? ≠ some (.marker .sentinel)) :
    (a.serve c).1.Settles (log ++ a.retires c) := by
  have r := a.serve_responding c
  have hnext := h.toRemembers.serve hs fun v hv hi => (h.spent v hv hi).1 hi
  refine { hnext with spent := fun v hv hi => ?_, newest := r.current h.newest }
  rw [r.uuid] at hi
  rcases List.mem_append.mp hv with hv | hv
  · exact r.spent (h.spent v hv hi)
  · -- of its own versions a node tracks only the one in progress, the last that it has started
    obtain ⟨ht, hn⟩ := of_mem_retires hv
    have ht := ht.resolve_right fun hne => hne hi
    have hcur := h.own v ht hi
    have haw : a.awaiting :=
      a.awaiting_iff.mpr ⟨hcur ▸ (h.not_mem_of_tracks ht).1, hcur ▸ hi⟩
    refine ⟨fun _ => ?_, fun hb hc => ?_⟩
    · rw [hcur, h.newest haw, r.started_eq]
      exact Nat.le_add_right _ _
    · rw [← hc, hnext.awaiting_tracks hb] at hn
      cases hn

theorem after (h : a.Settles log) {calls : List Call}
    (hs : ∀ c ∈ calls, c.notice? ≠ some (.marker .sentinel)) :
    (a.after calls).Settles (log ++ a.retirements calls) := by
  induction calls generalizing a log with
  | nil =>
    rw [retirements, List.append_nil]
    exact h
  | cons c rest ih =>
    rw [retirements, ← List.append_assoc]
    exact ih (h.serve (hs c List.mem_cons_self)) fun d hd => hs d (List.mem_cons_of_mem c hd)

end Settles

theorem new_settles (uuid : String) (policy : Policy) (peers : List String) :
    (Agent.new uuid policy peers).Settles [] :=
  { new_single uuid policy peers with
    retired_eq := rfl
    spaced := .nil
    proper := nofun
    untracked := nofun
    spent := nofun
    newest := nofun }

section Markers

variable {m : Message}

theorem Remembers.retired_nodup (h : a.Remembers log) : a.retired.Nodup := by
  refine h.spaced.nodup (h.retired_eq ▸ (List.drop_suffix _ _).isInfix) ?_
  rw [h.retired_eq, List.rtake, List.length_drop]
  omega

/-- A version that fewer than the memory holds have followed is still remembered. -/
theorem Remembers.mem_retired (h : a.Remembers log) {old later : List Version}
    (hlog : log = old ++ v :: later) (hfew : later.toFinset.card < retiredCapacity) :
    v ∈ a.retired := by
  have hsuffix : v :: later <:+ log := ⟨old, hlog.symm⟩
  have hlen := h.spaced.length_lt ((List.suffix_cons v later).trans hsuffix) hfew
  rw [h.retired_eq]
  exact mem_rtake_of_suffix hsuffix hlen List.mem_cons_self

theorem Remembers.handle_remembered (h : a.Remembers log) (hr : v ∈ a.retired)
    (hread : Wire.read m = .ok (some (.marker v))) (x : Float) :
    a.handle x m = (.ok (), a.meet m.source, []) := by
  have hv := h.proper v (List.mem_of_mem_drop (h.retired_eq ▸ hr))
  refine h.handle_stale hread hv (h.untracked v hr) ?_ x
  simp [isStale, hr]

/-- Remembered or not, a version of the node's own could only be tracked as the one in progress. -/
theorem Settles.handle_own (h : a.Settles log) (hmem : v ∈ log) (hi : v.initiator = a.uuid)
    (hread : Wire.read m = .ok (some (.marker v))) (x : Float) :
    a.handle x m = (.ok (), a.meet m.source, []) := by
  have hv := h.proper v hmem
  have ht : a.tracks v = false := by
    by_contra ht
    have hcur := h.own v (Bool.not_eq_false _ ▸ ht) hi
    have haw : a.awaiting := a.awaiting_iff.mpr ⟨hcur ▸ hv, hcur ▸ hi⟩
    exact (h.spent v hmem hi).2 haw hcur.symm
  refine h.handle_stale hread hv ht ?_ x
  simp [isStale, hi]

end Markers

/-- Markers of versions that a node is done with change nothing, as long as fewer than its memory
holds have followed them, and for ever if they are its own. -/
theorem finished_stay_dead {uuid : String} {policy : Policy} {peers : List String}
    {calls : List Call} (hs : ∀ c ∈ calls, c.notice? ≠ some (.marker .sentinel))
    (ha : (new uuid policy peers).after calls = a) :
    a.retired = ((new uuid policy peers).retirements calls).rtake retiredCapacity ∧
    a.retired.Nodup ∧
    ∀ old v later, (new uuid policy peers).retirements calls = old ++ v :: later →
      later.toFinset.card < retiredCapacity ∨ v.initiator = uuid →
      ∀ m x, Wire.read m = .ok (some (.marker v)) → a.handle x m = (.ok (), a.meet m.source, []) := by
  have h : a.Settles ((new uuid policy peers).retirements calls) := by
    rw [← ha]
    exact (new_settles uuid policy peers).after hs
  have hu : a.uuid = uuid := ha ▸ (after_keeps (new uuid policy peers) calls).1
  refine ⟨h.retired_eq, h.retired_nodup, fun old v later hlog hlate m x hread => ?_⟩
  rcases hlate with hfew | hown
  · exact h.handle_remembered (h.mem_retired hlog hfew) hread x
  · have hmem : v ∈ (new uuid policy peers).retirements calls := by
      rw [hlog]
      exact List.mem_append_right old List.mem_cons_self
    exact h.handle_own hmem (hown.trans hu.symm) hread x

/-- A snapshot of the node's own that runs out of time, and one version more of the only other node
than fit into memory. -/
def crowdedOut : List Call :=
  [.request "gm" 1, .timer .expired] ++
    (List.range 33).map fun i => .message (Wire.marker ⟨"a", i + 1⟩) 1

set_option maxRecDepth 8000 in
/-- The oldest version still remembered and the node's own one are dead; the version in between is
forgotten and would be passed on again. -/
theorem crowdedOut_dead :
    let a := (new "b" {} ["a"]).after crowdedOut
    a.retired.length = retiredCapacity ∧ a.retired.Nodup ∧
      ⟨"b", 1⟩ ∉ a.retired ∧ a.handle 2 (Wire.marker ⟨"b", 1⟩) = (.ok (), a.meet "b", []) ∧
      ⟨"a", 2⟩ ∈ a.retired ∧ a.handle 2 (Wire.marker ⟨"a", 2⟩) = (.ok (), a.meet "a", []) ∧
      (a.handle 2 (Wire.marker ⟨"a", 1⟩)).2.2 ≠ [] := by
  have hs : ∀ c ∈ crowdedOut, c.notice? ≠ some (.marker .sentinel) := by decide +kernel
  have ha : (new "b" {} ["a"]).after crowdedOut = (new "b" {} ["a"]).after crowdedOut := rfl
  have hlog : (new "b" {} ["a"]).retirements crowdedOut =
      [] ++ ⟨"b", 1⟩ :: ([⟨"a", 1⟩] ++ ⟨"a", 2⟩ :: (List.range 31).map fun i => ⟨"a", i + 3⟩) := by
    decide +kernel
  have hend : ((new "b" {} ["a"]).after crowdedOut).retired.length = retiredCapacity ∧
      ⟨"b", 1⟩ ∉ ((new "b" {} ["a"]).after crowdedOut).retired ∧
      ⟨"a", 2⟩ ∈ ((new "b" {} ["a"]).after crowdedOut).retired ∧
      (((new "b" {} ["a"]).after crowdedOut).handle 2 (Wire.marker ⟨"a", 1⟩)).2.2 ≠ [] := by
    decide +kernel
  obtain ⟨hlength, hforgotten, hremembered, hagain⟩ := hend
  obtain ⟨-, hnodup, hdead⟩ := finished_stay_dead hs ha
  have hown := hdead _ _ _ hlog (Or.inr rfl) (Wire.marker ⟨"b", 1⟩) 2 (by decide +kernel)
  have hkept := hdead [⟨"b", 1⟩, ⟨"a", 1⟩] ⟨"a", 2⟩ _ hlog (Or.inl (by decide +kernel))
    (Wire.marker ⟨"a", 2⟩) 2 (by decide +kernel)
  exact ⟨hlength, hnodup, hforgotten, hown, hremembered, hkept, hagain⟩

end Agent

end PhasedGrid.Snapshot
