import PhasedGrid.Proofs.Snapshot.Answers

/-!
The response timer along a run. A version that a node starts has its timer extended a number of
times, each time with one extension less to go, and then comes to an end at most once. The timer is
armed when a version is started and when it is extended, once each.
-/

namespace PhasedGrid.Snapshot

set_option autoImplicit false

open PhasedGrid.Schedule (TimerStatus)

/-- The delay for which an effect arms the response timer. -/
def Effect.delay? : Effect → Option Nat
  | .arm delay => some delay
  | .send _ _ => none

def Outcome.isExtended : Outcome → Bool
  | .extended _ => true
  | .complete _ | .incomplete _ _ _ => false

/-- Whether a call starts a version at `node`: it asks for one, or it makes the node the leader. -/
def Call.starts (node : String) (c : Call) : Bool := c.module?.isSome || c.leads node

/-- The outcomes that a version in progress can still have, by the extensions that it has left. -/
inductive Countdown (v : Version) : Nat → List Outcome → Prop where
  | pending (left : Nat) : Countdown v left []
  | extended {left : Nat} {rest : List Outcome} : Countdown v left rest →
      Countdown v (left + 1) (.extended left :: rest)
  | complete (left : Nat) {state : Collected} : state.version = v →
      Countdown v left [.complete state]
  | incomplete (markers expected : Nat) : Countdown v 0 [.incomplete v markers expected]

theorem Countdown.exists_extensions {v : Version} {left : Nat} {os : List Outcome}
    (h : Countdown v left os) :
    ∃ k ≤ left, ∃ last, os = (List.range k).map (fun i => .extended (left - 1 - i)) ++ last ∧
      (last = [] ∨ (∃ state, last = [.complete state] ∧ state.version = v) ∨
        ∃ markers expected, last = [.incomplete v markers expected] ∧ k = left) := by
  induction h with
  | pending left => exact ⟨0, Nat.zero_le _, [], rfl, Or.inl rfl⟩
  | complete left hv => exact ⟨0, Nat.zero_le _, _, rfl, Or.inr (Or.inl ⟨_, rfl, hv⟩)⟩
  | incomplete n m => exact ⟨0, Nat.le_refl _, _, rfl, Or.inr (Or.inr ⟨n, m, rfl, rfl⟩)⟩
  | @extended left rest _ ih =>
    obtain ⟨k, hk, last, hrest, hlast⟩ := ih
    refine ⟨k + 1, Nat.succ_le_succ hk, last, ?_, ?_⟩
    · have hshift : ∀ i, left + 1 - 1 - (i + 1) = left - 1 - i := by omega
      rw [List.range_succ_eq_map, List.map_cons, List.map_map, hrest]
      simp only [Function.comp_def, Nat.succ_eq_add_one, hshift]
      rfl
    · exact hlast.imp id (Or.imp id fun ⟨n, m, he, hkl⟩ => ⟨n, m, he, congrArg (· + 1) hkl⟩)

namespace Agent

/-- What came of the response timer if a call is its end. -/
def outcome? (a : Agent) : Call → Option Outcome
  | .timer status => (a.onTimer status).1
  | .request _ _ | .message _ _ => none

/-- The outcomes of a version along a series of calls. -/
def outcomesOf (a : Agent) (v : Version) : List Call → List Outcome
  | [] => []
  | c :: rest =>
    (if a.current = v then (a.outcome? c).toList else []) ++ (a.serve c).1.outcomesOf v rest

/-- The versions that a node starts in a series of calls, in order. -/
def begun (a : Agent) : List Call → List Version
  | [] => []
  | c :: rest => (if c.starts a.uuid then [a.nextVersion] else []) ++ (a.serve c).1.begun rest

variable {a b next : Agent} {c : Call} {v : Version} {outcome : Option Outcome}
  {effects : List Effect}

/-- What a call comes to for the version that a node awaits. -/
inductive Responding (a : Agent) (c : Call) : Option Outcome → Agent → List Effect → Prop where
  | started {b : Agent} (x : Float) : c.starts a.uuid → Alike a b →
      Responding a c none (b.initiate x).1 (b.initiate x).2
  | passed {b : Agent} {effects : List Effect} : c.starts a.uuid = false → Tends a b →
      (∀ e ∈ effects, e.Plain) → Responding a c none b effects
  | extended {left : Nat} : c.starts a.uuid = false → a.awaiting → a.extensionsLeft = left + 1 →
      Responding a c (some (.extended left)) { a with extensionsLeft := left }
        [.arm a.policy.responseTimeout]
  | complete {sent : List Effect} : c.starts a.uuid = false → a.awaiting →
      a.peers.size ≤ a.markerCount a.current →
      (∀ e ∈ sent, e = .send a.uuid (a.answer.toMessage a.uuid)) →
      Responding a c (some (.complete a.answer)) a.finishCurrent sent
  | incomplete : c.starts a.uuid = false → a.awaiting → a.extensionsLeft = 0 →
      Responding a c (some (.incomplete a.current (a.markerCount a.current) a.peers.size))
        a.finishCurrent []

theorem onTimer_responding (a : Agent) (status : TimerStatus) :
    Responding a (.timer status) (a.onTimer status).1 (a.onTimer status).2.1
      (a.onTimer status).2.2 := by
  unfold onTimer
  by_cases h : status = .expired ∧ a.awaiting
  · rw [if_pos h]
    unfold onExpiry
    by_cases hn : a.peers.size ≤ a.markerCount a.current
    · simp only [if_pos hn]
      refine .complete rfl h.2 hn fun e he => ?_
      cases hr : a.requester with
      | none => simp [hr] at he
      | some module => simpa [hr] using he
    · simp only [if_neg hn]
      cases hl : a.extensionsLeft with
      | zero => exact .incomplete rfl h.2 hl
      | succ left => exact .extended rfl h.2 hl
  · rw [if_neg h]
    exact .passed rfl (.refl a) nofun

theorem onTimer_idle (a : Agent) {status : TimerStatus}
    (h : status = .cancelled ∨ a.awaiting = false) : a.onTimer status = (none, a, []) := by
  unfold onTimer
  rw [if_neg]
  rintro ⟨rfl, ha⟩
  rcases h with h | h
  · cases h
  · exact absurd ha (by simp [h])

theorem serve_of_starts (h : c.starts a.uuid) : ∃ b x, Alike a b ∧ a.serve c = b.initiate x := by
  cases c with
  | request module x => exact ⟨{ a with requester := some module }, x, ⟨rfl, rfl, rfl⟩, rfl⟩
  | timer status => cases h
  | message m x =>
    have hm := a.meet_tends m.source
    unfold Call.starts Call.module? Call.leads at h
    rw [serve_message]
    cases hn : (Call.message m x).notice? with
    | none => simp [hn] at h
    | some notice =>
      rw [hn] at h
      cases notice with
      | peerList leader peers =>
        have hl : leader = (a.meet m.source).uuid := by
          rw [hm.uuid]
          simpa using h
        refine ⟨{ a.meet m.source with peers := (a.meet m.source).peers.announce peers }, x,
          ⟨hm.uuid, hm.policy, hm.started⟩, ?_⟩
        exact if_pos hl
      | request module source =>
        exact ⟨{ a.meet m.source with requester := some module }, x,
          ⟨hm.uuid, hm.policy, hm.started⟩, rfl⟩
      | marker | state | payload => simp at h

theorem serve_responding (a : Agent) (c : Call) :
    Responding a c (a.outcome? c) (a.serve c).1 (a.serve c).2 := by
  cases h : c.starts a.uuid with
  | true =>
    obtain ⟨b, x, hb, hs⟩ := serve_of_starts h
    have ho : a.outcome? c = none := by
      cases c with
      | request | message => rfl
      | timer => cases h
    rw [ho, hs]
    exact .started x h hb
  | false =>
    have hmod : ∀ module, c.module? ≠ some module := by
      intro module hm
      simp [Call.starts, hm] at h
    have hled : ¬ c.leads a.uuid := by
      intro hl
      simp [Call.starts, hl] at h
    have hs := a.serve_serving c
    cases c with
    | request module x => exact absurd rfl (hmod module)
    | timer status => exact a.onTimer_responding status
    | message m x =>
      generalize hnext : a.serve (.message m x) = next at hs
      obtain ⟨b, es⟩ := next
      cases hs with
      | requested _ hm _ _ => exact absurd hm (hmod _)
      | led _ hl _ _ => exact absurd hl hled
      | extended _ hc _ => cases hc
      | delivered _ hc _ _ => cases hc
      | tended ht hp => exact .passed h ht hp

theorem Alike.nextVersion (h : Alike a b) : b.nextVersion = a.nextVersion := by
  rw [Agent.nextVersion, h.uuid, h.started]
  rfl

theorem delays_eq_nil {es : List Effect} (h : ∀ e ∈ es, e.delay? = none) :
    es.filterMap Effect.delay? = [] := List.filterMap_eq_nil_iff.mpr h

theorem delays_initiate (a : Agent) (x : Float) :
    (a.initiate x).2.filterMap Effect.delay? = [a.policy.responseTimeout] := by
  have hothers : (a.toOthers (Wire.marker a.nextVersion)).filterMap Effect.delay? = [] := by
    refine delays_eq_nil fun e he => ?_
    obtain ⟨p, -, rfl⟩ := List.mem_map.mp he
    rfl
  change (a.toOthers (Wire.marker a.nextVersion) ++
    [Effect.arm a.policy.responseTimeout]).filterMap _ = _
  rw [List.filterMap_append, hothers]
  rfl

namespace Responding

theorem uuid (h : Responding a c outcome next effects) : next.uuid = a.uuid := by
  cases h with
  | started x hc hb => exact hb.uuid
  | passed hc ht hp => exact ht.uuid
  | extended | complete | incomplete => rfl

theorem policy (h : Responding a c outcome next effects) : next.policy = a.policy := by
  cases h with
  | started x hc hb => exact hb.policy
  | passed hc ht hp => exact ht.policy
  | extended | complete | incomplete => rfl

theorem started_eq (h : Responding a c outcome next effects) :
    next.started = a.started + (c.starts a.uuid).toNat := by
  cases h with
  | started x hc hb =>
    rw [hc]
    exact congrArg (· + 1) hb.started
  | passed hc ht hp =>
    rw [hc]
    exact ht.started
  | extended hc | complete hc | incomplete hc =>
    rw [hc]
    rfl

theorem delays (h : Responding a c outcome next effects) :
    effects.filterMap Effect.delay? =
      if c.starts a.uuid || outcome.any Outcome.isExtended then [a.policy.responseTimeout]
      else [] := by
  cases h with
  | started x hc hb =>
    rw [delays_initiate, hb.policy, hc]
    rfl
  | passed hc ht hp =>
    rw [hc]
    refine delays_eq_nil fun e he => ?_
    cases e with
    | send receiver m => rfl
    | arm delay => exact (hp _ he).elim
  | extended hc ha hl =>
    rw [hc]
    rfl
  | complete hc ha hn hsent =>
    rw [hc]
    refine delays_eq_nil fun e he => ?_
    rw [hsent e he]
    rfl
  | incomplete hc ha hl =>
    rw [hc]
    rfl

theorem awaiting (h : Responding a c outcome next effects) (ho : outcome ≠ none) : a.awaiting := by
  cases h with
  | started | passed => exact absurd rfl ho
  | extended hs ha hl => exact ha
  | complete hs ha hn hsent => exact ha
  | incomplete hs ha hl => exact ha

/-- A version that a node awaits has just been started or was awaited before. -/
theorem awaited (h : Responding a c outcome next effects) (hn : next.awaiting) :
    c.starts a.uuid ∧ next.current = a.nextVersion ∨
      c.starts a.uuid = false ∧ a.awaiting ∧ next.current = a.current := by
  cases h with
  | started x hs hb => exact Or.inl ⟨hs, hb.nextVersion⟩
  | passed hs ht hp => exact Or.inr ⟨hs, ht.awaiting hn, ht.current hn⟩
  | extended hs ha hl => exact Or.inr ⟨hs, ha, rfl⟩
  | complete | incomplete => cases hn

/-- A version that a node awaits is the one that it started last. -/
theorem current (h : Responding a c outcome next effects)
    (hc : a.awaiting → a.current = ⟨a.uuid, a.started⟩) :
    next.awaiting → next.current = ⟨next.uuid, next.started⟩ := by
  intro hn
  rw [h.uuid, h.started_eq]
  rcases h.awaited hn with ⟨hs, hv⟩ | ⟨hs, ha, hv⟩
  · rw [hv, hs]
    rfl
  · rw [hv, hs, hc ha]
    rfl

theorem of_complete (h : Responding a c outcome next effects) {state : Collected}
    (ho : outcome = some (.complete state)) :
    a.current = state.version ∧ a.peers.size ≤ a.markerCount state.version := by
  cases h with
  | started | passed => cases ho
  | extended | incomplete => simp at ho
  | complete hs ha hn hsent =>
    obtain rfl := Outcome.complete.inj (Option.some.inj ho)
    exact ⟨rfl, hn⟩

/-- A collected state goes out together with the outcome that it is of. -/
theorem delivers (h : Responding a c outcome next effects) {e : Effect} (he : e ∈ effects)
    {receiver module : String} {m : Peer.Message} (hm : e = .send receiver m)
    (hread : Collected.ofMessage? module m ≠ none) :
    ∃ state, outcome = some (.complete state) ∧ e = .send a.uuid (state.toMessage a.uuid) := by
  subst hm
  cases h with
  | started x hs hb =>
    rcases List.mem_append.mp he with he | he
    · exact absurd (toOthers_plain _ _ _ he module) hread
    · cases List.mem_singleton.mp he
  | passed hs ht hp => exact absurd (hp _ he module) hread
  | extended hs ha hl => cases List.mem_singleton.mp he
  | complete hs ha hn hsent => exact ⟨a.answer, rfl, hsent _ he⟩
  | incomplete hs ha hl => cases he

end Responding

/-- A version of which no outcome can come any more: the node has started later ones or it is none
of its own, and the node does not await it. -/
def Spent (a : Agent) (v : Version) : Prop :=
  (v.initiator = a.uuid → v.sequence ≤ a.started) ∧ (a.awaiting → a.current ≠ v)

theorem Tends.spent (h : Tends a b) (hs : a.Spent v) : b.Spent v := by
  refine ⟨fun hi => ?_, fun hb => ?_⟩
  · rw [h.started]
    exact hs.1 (hi.trans h.uuid)
  · rw [h.current hb]
    exact hs.2 (h.awaiting hb)

namespace Responding

theorem spent_initiate (hb : Alike a b) (hv : v.initiator = a.uuid → v.sequence ≤ a.started)
    (x : Float) : (b.initiate x).1.Spent v := by
  refine ⟨fun hi => ?_, fun _ hc => ?_⟩
  · exact Nat.le_succ_of_le (hb.started ▸ hv (hi.trans hb.uuid))
  · have hle := hv (hc ▸ hb.uuid)
    rw [← hc, ← hb.started] at hle
    exact Nat.not_succ_le_self _ hle

theorem spent_finish (hv : v.initiator = a.uuid → v.sequence ≤ a.started) :
    a.finishCurrent.Spent v := ⟨hv, fun ha => nomatch ha⟩

theorem spent (h : Responding a c outcome next effects) (hs : a.Spent v) : next.Spent v := by
  cases h with
  | started x hc hb => exact spent_initiate hb hs.1 x
  | passed hc ht hp => exact ht.spent hs
  | extended hc ha hl => exact hs
  | complete | incomplete => exact spent_finish hs.1

/-- One step of the countdown of a version in progress: it goes on, or the version is spent. -/
theorem countdown (h : Responding a c outcome next effects) (ha : a.awaiting) (hv : a.current = v)
    (hn : v.sequence ≤ a.started) {rest : List Outcome}
    (hnext : next.awaiting → next.current = v → Countdown v next.extensionsLeft rest)
    (hspent : next.Spent v → rest = []) : Countdown v a.extensionsLeft (outcome.toList ++ rest) := by
  cases h with
  | started x hc hb =>
    rw [hspent (spent_initiate hb (fun _ => hn) x)]
    exact .pending _
  | passed hc ht hp =>
    by_cases hb : next.awaiting
    · rw [← ht.extensionsLeft]
      exact hnext hb ((ht.current hb).trans hv)
    · rw [hspent ⟨fun _ => ht.started.symm ▸ hn, fun hb' => absurd hb' hb⟩]
      exact .pending _
  | extended hc _ hl =>
    rw [hl]
    exact .extended (hnext ha hv)
  | complete hc _ hm hsent =>
    rw [hspent (spent_finish fun _ => hn)]
    exact .complete _ hv
  | incomplete hc _ hl =>
    rw [hspent (spent_finish fun _ => hn), hl, hv]
    exact .incomplete _ _

/-- A version that is still to be started is started by this call, with all its extensions, or
remains to be started. -/
theorem later (h : Responding a c outcome next effects) (hi : v.initiator = a.uuid)
    (hn : a.started < v.sequence) :
    (next.awaiting ∧ next.current = v ∧ v.sequence ≤ next.started ∧
      next.extensionsLeft = a.policy.extensions) ∨ next.started < v.sequence := by
  by_cases hv : c.starts a.uuid ∧ v = a.nextVersion
  · obtain ⟨hs, rfl⟩ := hv
    left
    cases h with
    | started x hc hb =>
      exact ⟨awaiting_of_nextVersion hb.uuid hb.nextVersion, hb.nextVersion,
        Nat.le_of_eq (congrArg (· + 1) hb.started.symm), congrArg Policy.extensions hb.policy⟩
    | passed hc | extended hc | complete hc | incomplete hc => simp [hs] at hc
  · right
    rw [h.started_eq]
    cases hs : c.starts a.uuid with
    | false => exact hn
    | true =>
      refine Nat.lt_of_le_of_ne hn fun he => hv ⟨hs, ?_⟩
      rw [nextVersion, ← hi]
      exact congrArg (Version.mk v.initiator) he.symm

end Responding

theorem after_keeps (a : Agent) (calls : List Call) :
    (a.after calls).uuid = a.uuid ∧ (a.after calls).policy = a.policy := by
  induction calls generalizing a with
  | nil => exact ⟨rfl, rfl⟩
  | cons c rest ih =>
    have h := a.serve_responding c
    obtain ⟨hu, hp⟩ := ih (a.serve c).1
    exact ⟨hu.trans h.uuid, hp.trans h.policy⟩

theorem outcomesOf_cons (h : a.awaiting → a.current ≠ v) (c : Call) (rest : List Call) :
    a.outcomesOf v (c :: rest) = (a.serve c).1.outcomesOf v rest := by
  have hnone : a.current = v → a.outcome? c = none := by
    intro hv
    by_contra ho
    exact h ((a.serve_responding c).awaiting ho) hv
  rw [outcomesOf]
  split
  · rename_i hv
    rw [hnone hv]
    rfl
  · rfl

theorem outcomesOf_of_spent (h : a.Spent v) (calls : List Call) : a.outcomesOf v calls = [] := by
  induction calls generalizing a with
  | nil => rfl
  | cons c rest ih =>
    rw [outcomesOf_cons h.2]
    exact ih ((a.serve_responding c).spent h)

theorem outcomesOf_of_awaiting (ha : a.awaiting) (hv : a.current = v) (hn : v.sequence ≤ a.started)
    (calls : List Call) : Countdown v a.extensionsLeft (a.outcomesOf v calls) := by
  induction calls generalizing a with
  | nil => exact .pending _
  | cons c rest ih =>
    have h := a.serve_responding c
    rw [outcomesOf, if_pos hv]
    refine h.countdown ha hv hn (fun hna hnv => ih hna hnv ?_) fun hs => outcomesOf_of_spent hs rest
    rw [h.started_eq]
    exact Nat.le_add_right_of_le hn

theorem outcomesOf_of_later (hc : a.awaiting → a.current = ⟨a.uuid, a.started⟩)
    (hi : v.initiator = a.uuid) (hn : a.started < v.sequence) (calls : List Call) :
    Countdown v a.policy.extensions (a.outcomesOf v calls) := by
  induction calls generalizing a with
  | nil => exact .pending _
  | cons c rest ih =>
    have h := a.serve_responding c
    have hne : a.awaiting → a.current ≠ v := by
      rintro ha rfl
      rw [hc ha] at hn
      exact Nat.lt_irrefl _ hn
    rw [outcomesOf_cons hne]
    rcases h.later hi hn with ⟨hna, hnv, hns, hext⟩ | hnext
    · rw [← hext]
      exact outcomesOf_of_awaiting hna hnv hns rest
    · rw [← h.policy]
      exact ih (h.current hc) (hi.trans h.uuid.symm) hnext

theorem begun_cons (a : Agent) (c : Call) (rest : List Call) :
    v ∈ a.begun (c :: rest) ↔
      (c.starts a.uuid ∧ v = a.nextVersion) ∨ v ∈ (a.serve c).1.begun rest := by
  rw [begun, List.mem_append]
  cases c.starts a.uuid <;> simp

/-- Only a version that a node has started is awaited. -/
theorem mem_begun_of_awaiting (calls : List Call) (h : (a.after calls).awaiting) :
    (a.after calls).current ∈ a.begun calls ∨
      a.awaiting ∧ (a.after calls).current = a.current := by
  induction calls generalizing a with
  | nil => exact Or.inr ⟨h, rfl⟩
  | cons c rest ih =>
    rw [begun_cons]
    rcases ih h with hb | ⟨hn, hcur⟩
    · exact Or.inl (Or.inr hb)
    rcases (a.serve_responding c).awaited hn with ⟨hs, hv⟩ | ⟨-, ha, hv⟩
    · exact Or.inl (Or.inl ⟨hs, hcur.trans hv⟩)
    · exact Or.inr ⟨ha, hcur.trans hv⟩

theorem mem_begun_of_outcomesOf (calls : List Call) (h : a.outcomesOf v calls ≠ []) :
    v ∈ a.begun calls ∨ a.awaiting ∧ a.current = v := by
  induction calls generalizing a with
  | nil => exact absurd rfl h
  | cons c rest ih =>
    by_cases hv : a.awaiting ∧ a.current = v
    · exact Or.inr hv
    left
    rw [outcomesOf_cons (not_and.mp hv)] at h
    rw [begun_cons]
    rcases ih h with hb | ⟨hn, hcur⟩
    · exact Or.inr hb
    rcases (a.serve_responding c).awaited hn with ⟨hs, hw⟩ | ⟨-, ha, hw⟩
    · exact Or.inl ⟨hs, hcur.symm.trans hw⟩
    · exact absurd ⟨ha, hw.symm.trans hcur⟩ hv

/-- The account of the response timer: what can come of a version, when the timer is armed, and
what its end comes to. -/
theorem responses_accounted {uuid : String} {policy : Policy} {peers : List String}
    {calls : List Call} (ha : (new uuid policy peers).after calls = a) :
    (∀ v, ∃ k ≤ policy.extensions, ∃ last,
      (new uuid policy peers).outcomesOf v calls =
        (List.range k).map (fun i => .extended (policy.extensions - 1 - i)) ++ last ∧
      (last = [] ∨ (∃ state, last = [.complete state] ∧ state.version = v) ∨
        ∃ markers expected, last = [.incomplete v markers expected] ∧ k = policy.extensions)) ∧
    (∀ v, (new uuid policy peers).outcomesOf v calls ≠ [] → v ∈ (new uuid policy peers).begun calls) ∧
    (∀ c, (a.serve c).1.started = a.started + (c.starts uuid).toNat ∧
      (a.serve c).2.filterMap Effect.delay? =
        if c.starts uuid || (a.outcome? c).any Outcome.isExtended then [policy.responseTimeout]
        else []) ∧
    (∀ status, status = .cancelled ∨ a.current ∉ (new uuid policy peers).begun calls →
      a.onTimer status = (none, a, [])) ∧
    (∀ c state, a.outcome? c = some (.complete state) →
      a.current = state.version ∧ a.peers.size ≤ a.markerCount state.version) ∧
    (∀ c receiver m module, .send receiver m ∈ (a.serve c).2 →
      Collected.ofMessage? module m ≠ none → ∃ state, a.outcome? c = some (.complete state) ∧
        receiver = uuid ∧ m = state.toMessage uuid) := by
  have hkept : a.uuid = uuid ∧ a.policy = policy := ha ▸ after_keeps (new uuid policy peers) calls
  obtain ⟨rfl, rfl⟩ := hkept
  refine ⟨fun v => ?_, fun v hv => ?_, fun c => ?_, fun status hs => ?_, fun c state ho => ?_,
    fun c receiver m module hm hread => ?_⟩
  · by_cases hv : v.initiator = a.uuid ∧ 0 < v.sequence
    · exact (outcomesOf_of_later (a := new a.uuid a.policy peers) nofun hv.1 hv.2
        calls).exists_extensions
    · have hs : (new a.uuid a.policy peers).Spent v :=
        ⟨fun hi => Nat.le_of_not_lt fun hn => hv ⟨hi, hn⟩, nofun⟩
      rw [outcomesOf_of_spent hs]
      exact (Countdown.pending _).exists_extensions
  · exact (mem_begun_of_outcomesOf calls hv).resolve_right fun h => nomatch h.1
  · exact ⟨(a.serve_responding c).started_eq, (a.serve_responding c).delays⟩
  · refine a.onTimer_idle (hs.imp id fun hcur => Bool.eq_false_iff.mpr fun haw => hcur ?_)
    have hbegun := mem_begun_of_awaiting (a := new a.uuid a.policy peers) calls (by rwa [ha])
    rw [ha] at hbegun
    exact hbegun.resolve_right fun h => nomatch h.1
  · exact (a.serve_responding c).of_complete ho
  · obtain ⟨state, ho, he⟩ := (a.serve_responding c).delivers hm rfl hread
    obtain ⟨hr, hm⟩ := Effect.send.inj he
    exact ⟨state, ho, hr, hm⟩

/-- A version that a module asks for gets its one extension and runs out of time; the next one,
started for a new group, has all its markers when the timer ends. In between the timer is cancelled,
and ends with nothing awaited. -/
def extendedOnce : List Call :=
  [.request "gm" 1, .message { Wire.marker ⟨"a", 1⟩ with source := "b" } 1, .timer .expired,
    .timer .cancelled, .timer .expired, .timer .expired, .message (Wire.peerList "a" ["a", "b"]) 2,
    .message { Wire.marker ⟨"a", 2⟩ with source := "b" } 2]

set_option maxRecDepth 4000 in
/-- The two versions of that run, and what the end of the timer comes to after it. -/
theorem extendedOnce_accounted :
    let start := new "a" { extensions := 1 } ["b", "c"]
    let a := start.after extendedOnce
    start.outcomesOf ⟨"a", 1⟩ extendedOnce = [.extended 0, .incomplete ⟨"a", 1⟩ 2 3] ∧
      start.begun extendedOnce = [⟨"a", 1⟩, ⟨"a", 2⟩] ∧
      a.outcome? (.timer .expired) = some (.complete ⟨"gm", ⟨"a", 2⟩, "2"⟩) ∧
      ⟨"a", 1⟩ ∈ start.begun extendedOnce ∧ (a.serve (.timer .expired)).2.filterMap Effect.delay? = [] ∧
      a.onTimer .cancelled = (none, a, []) ∧ a.peers.size ≤ a.markerCount ⟨"a", 2⟩ := by
  have ha : (new "a" { extensions := 1 } ["b", "c"]).after extendedOnce =
      (new "a" { extensions := 1 } ["b", "c"]).after extendedOnce := rfl
  have hgiven : (new "a" { extensions := 1 } ["b", "c"]).outcomesOf ⟨"a", 1⟩ extendedOnce =
      [.extended 0, .incomplete ⟨"a", 1⟩ 2 3] := by decide +kernel
  have hcomplete : ((new "a" { extensions := 1 } ["b", "c"]).after extendedOnce).outcome?
      (.timer .expired) = some (.complete ⟨"gm", ⟨"a", 2⟩, "2"⟩) := by decide +kernel
  obtain ⟨-, hbegun, hdelays, hidle, hcount, -⟩ := responses_accounted ha
  refine ⟨hgiven, by decide +kernel, hcomplete, hbegun ⟨"a", 1⟩ ?_, ?_, hidle .cancelled (Or.inl rfl),
    (hcount _ _ hcomplete).2⟩
  · rw [hgiven]
    exact List.cons_ne_nil _ _
  · rw [(hdelays _).2, hcomplete]
    rfl

end Agent

end PhasedGrid.Snapshot
