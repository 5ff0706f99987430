import Mathlib.Data.List.TakeWhile
import PhasedGrid.Proofs.Node.Scenes
import PhasedGrid.Proofs.Peer.Deliveries
import PhasedGrid.Proofs.Snapshot.Exchange

/-!
What the streams of collected states yield. Among nodes that take their turns in any order, while
others start, leave and send what they like, a stream gets the answers that its node's collector
completes for its module, one after the other. A module whose name has a dot in it gets none of
them: the network takes what stands in front of the dot for the handler.
-/

namespace PhasedGrid

set_option autoImplicit false

open PhasedGrid.Peer (Message Network Subscription)
open PhasedGrid.Peer.Network (Event gone due)
open PhasedGrid.Peer.Subscription (Follows)
open PhasedGrid.Schedule (TimerStatus)
open PhasedGrid.Snapshot (Agent Call Collected Effect)

namespace Snapshot

/-- Armings, and messages that no module can read. -/
def Effect.Quiet : Effect → Prop
  | .send _ m => ∀ module, Collected.ofMessage? module m = none
  | .arm _ => True

theorem Effect.Plain.quiet {e : Effect} (h : e.Plain) : e.Quiet := by
  cases e with
  | send => exact h
  | arm => trivial

namespace Agent

theorem requester_handle_request (a : Agent) (x : Float) (uuid module : String) :
    (a.handle x (Network.stamp uuid (Wire.request uuid module))).2.1.requester = some module := by
  unfold handle
  rw [Wire.read_request]
  rfl

theorem initiate_quiet (a : Agent) (x : Float) : ∀ e ∈ (a.initiate x).2, e.Quiet := by
  have hmarkers := a.toOthers_plain a.nextVersion
  unfold initiate
  intro e he
  rcases List.mem_append.mp he with he | he
  · exact (hmarkers e he).quiet
  · rw [List.mem_singleton.mp he]
    trivial

theorem handle_quiet (a : Agent) (x : Float) (m : Message) :
    ∀ e ∈ (a.handle x m).2.2, e.Quiet := by
  have hserving := a.serve_serving (.message m x)
  change Serving a (.message m x) (a.handle x m).2.1 (a.handle x m).2.2 at hserving
  generalize (a.handle x m).2.2 = effects at hserving ⊢
  generalize (a.handle x m).2.1 = b at hserving
  cases hserving with
  | requested y => exact initiate_quiet _ y
  | led y => exact initiate_quiet _ y
  | extended left hc => cases hc
  | delivered module hc => cases hc
  | tended hb hplain => exact fun e he => (hplain e he).quiet

/-- The end of the response timer sends an answer and nothing else, or nothing that anybody reads. -/
theorem onTimer_delivers (a : Agent) (status : TimerStatus) :
    (a.delivers? status = none ∧ ∀ e ∈ (a.onTimer status).2.2, e.Quiet) ∨
      ∃ c, a.delivers? status = some (c.module, c) ∧
        (a.onTimer status).2.2 = [.send a.uuid (c.toMessage a.uuid)] := by
  unfold delivers? onTimer
  by_cases h : status = .expired ∧ a.awaiting
  · rw [if_pos h]
    unfold onExpiry
    by_cases hn : a.peers.size ≤ a.markerCount a.current
    · simp only [if_pos hn]
      cases hr : a.requester with
      | none =>
        left
        exact ⟨rfl, nofun⟩
      | some module =>
        right
        refine ⟨a.answer, ?_, rfl⟩
        simp [answer, hr]
    · simp only [if_neg hn]
      left
      cases a.extensionsLeft with
      | zero => exact ⟨rfl, nofun⟩
      | succ left =>
        refine ⟨rfl, ?_⟩
        intro e he
        obtain rfl : e = .arm a.policy.responseTimeout := List.mem_singleton.mp he
        trivial
  · rw [if_neg h]
    left
    exact ⟨rfl, nofun⟩

end Agent

end Snapshot

namespace Peer.Message

theorem toList_upTo (sep : Char) (s : String) :
    (Text.upTo sep s).toList = s.toList.takeWhile (· ≠ sep) := by
  rw [Text.upTo, String.toList_ofList]

/-- No handler has a dot in its name. -/
theorem isFor_of_dot {module : String} (h : '.' ∈ module.toList) (m : Message) :
    m.isFor [module] = false := by
  unfold isFor
  rw [List.any_eq_false]
  intro e _ he
  rw [List.contains_iff_mem, List.mem_singleton] at he
  rw [← he, toList_upTo] at h
  have hdot := List.mem_takeWhile_imp h
  simp at hdot

theorem upTo_of_not_mem {sep : Char} {s : String} (h : sep ∉ s.toList) : Text.upTo sep s = s := by
  rw [Text.upTo, List.takeWhile_eq_self_iff.mpr, String.ofList_toList]
  intro c hc
  simp only [ne_eq, decide_eq_true_eq]
  rintro rfl
  exact h hc

/-- Who can read a message as a collected state is a handler of it. -/
theorem isFor_of_ofMessage? {module : String} (h : '.' ∉ module.toList) {m : Message}
    {c : Collected} (hc : Collected.ofMessage? module m = some c) : m.isFor [module] := by
  unfold Collected.ofMessage? at hc
  split at hc
  · rename_i hmark
    unfold isFor
    rw [List.any_eq_true]
    refine ⟨_, Table.mem_of_get? hmark, ?_⟩
    rw [upTo_of_not_mem h]
    simp
  · cases hc

end Peer.Message

namespace Node

namespace Happening

def leaves (uuid : String) : Happening → Bool
  | .left u => u = uuid
  | _ => false

/-- What a happening brings to a module: an answer to its request, or what somebody else sends. -/
def brings? (uuid module : String) : Happening → Option Snapshot.Collected
  | .completed u requester c => if u = uuid ∧ requester = module then some c else none
  | .sent receiver m => if receiver = uuid then Snapshot.Collected.ofMessage? module m else none
  | _ => none

def yields? (r : Results) : Happening → Option Snapshot.Collected
  | .yielded r' c => if r' = r then some c else none
  | _ => none

end Happening

/-- What is brought to a module of a node until the node leaves. -/
def heard (uuid module : String) (hs : List Happening) : List Snapshot.Collected :=
  (hs.takeWhile fun h => !h.leaves uuid).filterMap (Happening.brings? uuid module)

def yielded (r : Results) (hs : List Happening) : List Snapshot.Collected :=
  hs.filterMap (Happening.yields? r)

/-- The numbers of the answers fit a word. -/
def Numbered (hs : List Happening) : Prop :=
  ∀ uuid requester c, .completed uuid requester c ∈ hs → c.version.sequence ≤ Decimal.maxU64

section Told

variable {uuid : String} {r : Results} {es fs : List Event} {hs gs : List Happening}

theorem heard_append (uuid module : String) (hs gs : List Happening) :
    heard uuid module (hs ++ gs) = heard uuid module hs ++
      if hs.any (Happening.leaves uuid) then [] else heard uuid module gs := by
  unfold heard
  induction hs with
  | nil => simp
  | cons h rest ih =>
    by_cases hl : h.leaves uuid
    · simp [hl]
    · simp only [List.cons_append, List.takeWhile_cons, hl, List.any_cons, Bool.not_false, if_true,
        Bool.false_or]
      rw [List.filterMap_cons, List.filterMap_cons]
      cases h.brings? uuid module <;> simp [ih]

theorem yielded_map (q r : Results) (cs : List Snapshot.Collected) :
    yielded r (cs.map (.yielded q)) = if q = r then cs else [] := by
  unfold yielded
  rw [List.filterMap_map]
  split
  · rename_i hq
    have hsome : Happening.yields? r ∘ Happening.yielded q = some := by
      funext c
      exact if_pos hq
    rw [hsome, List.filterMap_some]
  · rename_i hq
    rw [List.filterMap_eq_nil_iff]
    intro c _
    exact if_neg hq

/-- What happens on the network tells a stream of what happens among the nodes. -/
structure Told (uuid : String) (r : Results) (es : List Event) (hs : List Happening) : Prop where
  ends : es.any (Event.ends uuid r.subscription) = hs.any (Happening.leaves uuid)
  read : (gone r.subscription es).filterMap (Snapshot.Collected.ofMessage? r.module) = yielded r hs
  brought : '.' ∉ r.module.toList → Numbered hs →
    (due uuid [r.module] r.subscription es).filterMap (Snapshot.Collected.ofMessage? r.module) =
      heard uuid r.module hs

theorem Told.append (h : Told uuid r es hs) (k : Told uuid r fs gs) :
    Told uuid r (es ++ fs) (hs ++ gs) := by
  constructor
  · rw [List.any_append, List.any_append, h.ends, k.ends]
  · rw [Network.gone_append, List.filterMap_append, h.read, k.read, yielded, yielded, yielded,
      List.filterMap_append]
  · intro hdot hnum
    have hfirst : Numbered hs := fun u q c hc => hnum u q c (List.mem_append_left gs hc)
    have hrest : Numbered gs := fun u q c hc => hnum u q c (List.mem_append_right hs hc)
    rw [Network.due_append, heard_append, List.filterMap_append, h.brought hdot hfirst, h.ends]
    split
    · rfl
    · rw [k.brought hdot hrest]

/-- Events that a stream has nothing to do with. -/
theorem Told.of_spared (he : ∀ e ∈ es, e.ends uuid r.subscription = false ∧
    e.brings? uuid [r.module] = none ∧ e.removed r.subscription = []) : Told uuid r es [] := by
  constructor
  · rw [List.any_nil, List.any_eq_false]
    intro e hm
    simp [(he e hm).1]
  · have hgone : gone r.subscription es = [] := by
      unfold gone
      rw [List.flatMap_eq_nil_iff]
      intro e hm
      exact (he e hm).2.2
    rw [hgone]
    rfl
  · intro _ _
    rw [Network.due_of_not_brings fun e hm => (he e hm).2.1]
    rfl

/-- A delivery, by what the stream's module can read of the message. -/
theorem told_delivered {receiver : String} {m : Message} {taken : Bool} {hs : List Happening}
    (hl : hs.any (Happening.leaves uuid) = false) (hy : yielded r hs = [])
    (hh : Numbered hs → heard uuid r.module hs =
      if receiver = uuid then (Snapshot.Collected.ofMessage? r.module m).toList else []) :
    Told uuid r [.delivered receiver m taken] hs := by
  constructor
  · rw [hl]
    rfl
  · rw [hy]
    rfl
  · intro hdot hnum
    rw [hh hnum]
    by_cases hr : receiver = uuid
    · cases hc : Snapshot.Collected.ofMessage? r.module m with
      | none => by_cases hf : m.isFor [r.module] <;> simp [due, Event.ends, Event.brings?, hr, hf, hc]
      | some c =>
        have hf := Message.isFor_of_ofMessage? hdot hc
        simp [due, Event.ends, Event.brings?, hr, hf, hc]
    · simp [due, Event.ends, Event.brings?, hr]

/-- A reader that takes messages yields what its module can read of them. -/
theorem told_received {q : Results} (front : List Message)
    (hq : q.subscription = r.subscription → q = r) :
    Told uuid r (front.map (.received q.subscription))
      ((front.filterMap (Snapshot.Collected.ofMessage? q.module)).map (.yielded q)) := by
  constructor
  · rw [List.any_eq_false.mpr, List.any_eq_false.mpr]
    · intro e he
      obtain ⟨c, -, rfl⟩ := List.mem_map.mp he
      simp [Happening.leaves]
    · intro e he
      obtain ⟨m, -, rfl⟩ := List.mem_map.mp he
      simp [Event.ends]
  · rw [Network.gone_received, yielded_map]
    by_cases hk : q.subscription = r.subscription
    · obtain rfl := hq hk
      rw [if_pos rfl, if_pos rfl]
    · rw [if_neg hk, if_neg fun heq => hk (congrArg Results.subscription heq)]
      rfl
  · intro _ _
    have hheard : heard uuid r.module ((front.filterMap
        (Snapshot.Collected.ofMessage? q.module)).map (.yielded q)) = [] := by
      unfold heard
      rw [List.filterMap_eq_nil_iff]
      intro e he
      obtain ⟨c, -, rfl⟩ := List.mem_map.mp ((List.takeWhile_sublist _).subset he)
      rfl
    rw [Network.due_of_not_brings, hheard]
    · rfl
    · simp [Event.brings?]

end Told

section Traced

variable {uuid : String} {r : Results} {n n' n'' : Network} {hs gs : List Happening}

/-- What becomes of the network is no more for a stream than what happens. -/
def Traced (uuid : String) (r : Results) (n : Network) (hs : List Happening) (n' : Network) : Prop :=
  ∀ s, n.subscriptions[r.subscription]? = some s → ∃ t es,
    n'.subscriptions[r.subscription]? = some t ∧ Follows s r.subscription es t ∧ Told uuid r es hs

theorem Traced.refl (uuid : String) (r : Results) (n : Network) : Traced uuid r n [] n := by
  intro s hs
  exact ⟨s, [], hs, Follows.refl s _, Told.of_spared nofun⟩

theorem Traced.trans (h : Traced uuid r n hs n') (k : Traced uuid r n' gs n'') :
    Traced uuid r n (hs ++ gs) n'' := by
  intro s hs
  obtain ⟨t, es, ht, hfollows, htold⟩ := h s hs
  obtain ⟨u, fs, hu, kfollows, ktold⟩ := k t ht
  exact ⟨u, es ++ fs, hu, hfollows.trans kfollows, htold.append ktold⟩

/-- Whatever is done with the network, if its events tell of no more than what happens. -/
theorem traced_use (u : Network.Use) (h : Told uuid r (n.use u).2 hs) :
    Traced uuid r n hs (n.use u).1 := by
  intro s hs
  obtain ⟨t, ht, hfollows⟩ := Network.use_follows hs u
  exact ⟨t, _, ht, hfollows, h⟩

theorem traced_deliver_quiet (n : Network) (receiver : String) {m : Message}
    (h : ∀ module, Snapshot.Collected.ofMessage? module m = none) :
    Traced uuid r n [] (n.deliver receiver m) := by
  apply traced_use (.deliver receiver m)
  apply told_delivered
  · rfl
  · rfl
  · intro _
    rw [h r.module]
    simp [heard]

theorem deliverAll_traced (sender : String) {effects : List Effect} (h : ∀ e ∈ effects, e.Quiet)
    (n : Network) : Traced uuid r n [] (Snapshot.Cluster.deliverAll sender effects n) := by
  induction effects generalizing n with
  | nil => exact Traced.refl uuid r n
  | cons e rest ih =>
    have he := h e List.mem_cons_self
    have hrest := fun n => ih (fun f hf => h f (List.mem_cons_of_mem e hf)) n
    cases e with
    | arm => exact hrest n
    | send receiver m =>
      have hfirst : Traced uuid r n [] (n.deliver receiver (Network.stamp sender m)) :=
        traced_deliver_quiet n receiver he
      exact hfirst.trans (hrest _)

/-- An answer is delivered. -/
theorem traced_answer (n : Network) (sender : String) (c : Snapshot.Collected) :
    Traced uuid r n [.completed sender c.module c]
      (Snapshot.Cluster.deliverAll sender [.send sender (c.toMessage sender)] n) := by
  apply traced_use (.deliver sender (Network.stamp sender (c.toMessage sender)))
  apply told_delivered
  · rfl
  · rfl
  · intro hnum
    have hseq := hnum sender c.module c List.mem_cons_self
    have hread := c.ofMessage?_toMessage sender hseq
    change heard uuid r.module [.completed sender c.module c] = if sender = uuid then
      (Snapshot.Collected.ofMessage? r.module (c.toMessage sender)).toList else []
    by_cases hm : c.module = r.module
    · rw [hm] at hread
      rw [hread]
      by_cases hu : sender = uuid <;>
        simp [heard, Happening.leaves, Happening.brings?, hu, hm]
    · have hnone : Snapshot.Collected.ofMessage? r.module (c.toMessage sender) = none := by
        rw [← Option.not_isSome_iff_eq_none]
        intro hsome
        exact hm (Snapshot.Collected.module_of_toMessage hsome)
      simp [heard, Happening.leaves, Happening.brings?, hm, hnone]

theorem next?_traced {number : Nat} {m : Message} (h : n.next? number = some (m, n'))
    (hne : number ≠ r.subscription) : Traced uuid r n [] n' := by
  have huse : n.use (.read number) = (n', [.received number m]) := by simp [Network.use, h]
  have htold : Told uuid r (n.use (.read number)).2 [] := by
    rw [huse]
    apply Told.of_spared
    simp [Event.ends, Event.brings?, Event.removed, hne]
  have htraced := traced_use (.read number) htold
  rw [huse] at htraced
  exact htraced

theorem hangUp_traced (n : Network) {number : Nat} (hne : number ≠ r.subscription) :
    Traced uuid r n [] (n.hangUp number) := by
  apply traced_use (.hangUp number)
  apply Told.of_spared
  simp [Network.use, Event.ends, Event.brings?, Event.removed, hne]

theorem join_traced (n : Network) (name : String) (keys : List String) :
    Traced uuid r n [] (n.join name keys) := by
  apply traced_use (.join name keys)
  apply Told.of_spared
  simp [Network.use, Event.ends, Event.brings?, Event.removed]

theorem leave_traced (n : Network) (name : String) :
    Traced uuid r n [.left name] (n.leave name) := by
  apply traced_use (.leave name)
  constructor
  · simp [Network.use, Event.ends, Happening.leaves]
  · simp [Network.use, gone, Event.removed, yielded, Happening.yields?]
  · intro _ _
    by_cases hu : name = uuid <;>
      simp [Network.use, due, heard, Event.ends, Event.brings?, Happening.leaves,
        Happening.brings?, List.filterMap_cons, hu]

theorem send_traced (n : Network) (receiver : String) (m : Message) :
    Traced uuid r n [.sent receiver m] (n.deliver receiver m) := by
  apply traced_use (.deliver receiver m)
  apply told_delivered
  · rfl
  · rfl
  · intro _
    by_cases hr : receiver = uuid
    · cases hc : Snapshot.Collected.ofMessage? r.module m <;>
        simp [heard, Happening.leaves, Happening.brings?, hr, hc]
    · simp [heard, Happening.leaves, Happening.brings?, hr]

end Traced

section Turn

variable {n next : Node} {net net' : Network} {uuid : String} {r : Results}

theorem collectorTurn_traced (h : n.collectorTurn? net = some (next, net'))
    (hne : n.member.inbox ≠ r.subscription) : Traced uuid r net n.answers net' := by
  unfold collectorTurn? at h
  split at h
  · cases h
  split at h
  · rename_i status rest hst
    have hnet : Snapshot.Cluster.deliverAll n.uuid (n.member.agent.onTimer status).2.2 net = net' :=
      (Prod.mk.inj (Option.some.inj h)).2
    unfold answers
    rw [hst, ← hnet]
    dsimp only
    rcases n.member.agent.onTimer_delivers status with ⟨hnone, hquiet⟩ | ⟨c, hsome, hsent⟩
    · rw [hnone]
      exact deliverAll_traced n.uuid hquiet net
    · rw [hsome, hsent]
      exact traced_answer net n.uuid c
  · rename_i hst
    have hnone : n.answers = [] := by rw [answers, hst]
    rw [hnone]
    split at h
    · rename_i message net₁ hnext
      have hread : Traced uuid r net [] net₁ := next?_traced hnext hne
      have hquiet := n.member.agent.handle_quiet n.member.reading message
      split at h
      · rename_i agent effects hhandle
        rw [hhandle] at hquiet
        obtain ⟨-, rfl⟩ := Prod.mk.inj (Option.some.inj h)
        exact hread.trans (deliverAll_traced n.uuid hquiet net₁)
      · obtain ⟨-, rfl⟩ := Prod.mk.inj (Option.some.inj h)
        exact hread.trans (hangUp_traced net₁ hne)
    · split at h
      · obtain ⟨-, rfl⟩ := Prod.mk.inj (Option.some.inj h)
        exact hangUp_traced net hne
      · cases h

theorem turn?_traced (h : n.turn? net = some (next, net')) (hne : n.member.inbox ≠ r.subscription) :
    Traced uuid r net n.completions net' := by
  unfold turn? at h
  unfold completions
  cases hs : n.schedulerTurn? with
  | some m =>
    rw [hs] at h
    obtain ⟨-, rfl⟩ := Prod.mk.inj (Option.some.inj h)
    exact Traced.refl uuid r net
  | none =>
    rw [hs] at h
    exact collectorTurn_traced h hne

end Turn

namespace System

/-- Reading takes messages from the front, the last of them the one that is yielded. -/
theorem firstState?_front (module : String) (ms : List Message) :
    ∃ front, ms = front ++ (firstState? module ms).2 ∧
      front.filterMap (Snapshot.Collected.ofMessage? module) =
        (firstState? module ms).1.toList := by
  induction ms with
  | nil => exact ⟨[], rfl, rfl⟩
  | cons m rest ih =>
    unfold firstState?
    cases hc : Snapshot.Collected.ofMessage? module m with
    | some c => exact ⟨[m], rfl, by simp [hc]⟩
    | none =>
      obtain ⟨front, hrest, hread⟩ := ih
      refine ⟨m :: front, ?_, ?_⟩
      · rw [List.cons_append, ← hrest]
      · rw [List.filterMap_cons_none hc]
        exact hread

theorem read?_state (s : System) (r : Results) :
    (s.read? r).1.bind Reply.state? =
      (firstState? r.module (s.network.waiting r.subscription)).1 := by
  unfold read?
  dsimp only
  cases (firstState? r.module (s.network.waiting r.subscription)).1 with
  | some c => rfl
  | none =>
    dsimp only
    split <;> rfl

end System

namespace Scene

variable {sc : Scene} {uuid : String} {r : Results}

/-- A reader takes what waits in front for itself only. -/
theorem read_traced (h : sc.Sound) (hr : r ∈ sc.streams) (stream : Nat) :
    Traced uuid r sc.system.network (sc.perform (.read stream)).2
      (sc.perform (.read stream)).1.system.network := by
  unfold Scene.perform
  dsimp only
  cases hq : sc.streams[stream]? with
  | none => exact Traced.refl uuid r _
  | some q =>
    have hmem := List.mem_of_getElem? hq
    obtain ⟨front, hwaiting, hread⟩ :=
      System.firstState?_front q.module (sc.system.network.waiting q.subscription)
    intro s hs
    obtain ⟨t, ht, hfollows⟩ := Network.setInbox_follows hs hwaiting
    refine ⟨t, front.map (.received q.subscription), ?_, hfollows, ?_⟩
    · rw [← ht]
      unfold System.read?
      dsimp only
      split <;> rfl
    dsimp only
    rw [System.read?_state, ← hread]
    exact told_received front (List.inj_on_of_nodup_map h.apart hmem hr)

theorem perform_traced (h : sc.Sound) (hr : r ∈ sc.streams) (d : Deed) :
    Traced uuid r sc.system.network (sc.perform d).2 (sc.perform d).1.system.network := by
  cases d with
  | start settings name =>
    unfold Scene.perform
    dsimp only
    split
    · rename_i n network hstart
      obtain ⟨-, rfl⟩ := start_joins hstart
      exact join_traced _ _ _
    · exact Traced.refl uuid r _
  | turn place =>
    unfold Scene.perform
    dsimp only
    split
    · exact Traced.refl uuid r _
    split
    · exact Traced.refl uuid r _
    · rename_i n hn _ next network hturn
      exact turn?_traced hturn (h.inbox_ne n (List.mem_of_getElem? hn) r hr)
  | send sender receiver m => exact send_traced _ _ _
  | subscribe name module => exact join_traced _ _ _
  | leave name => exact leave_traced _ _
  | shutdown name => exact leave_traced _ _
  | read stream => exact read_traced h hr stream
  | _ => exact Traced.refl uuid r _

theorem after_traced (uuid : String) (h : sc.Sound) (hr : r ∈ sc.streams) (deeds : List Deed) :
    Traced uuid r sc.system.network (sc.log deeds) (sc.after deeds).system.network := by
  induction deeds generalizing sc with
  | nil => exact Traced.refl uuid r _
  | cons d rest ih =>
    exact (perform_traced h hr d).trans (ih (h.perform d) (mem_streams_perform hr d))

/-- A reader that finds something is given the first of it. -/
theorem read?_pending (sc : Scene) (r : Results) {c : Snapshot.Collected}
    {rest : List Snapshot.Collected} (h : sc.pending r = c :: rest) :
    (sc.system.read? r).1 = some (.state c) := by
  have hfirst : ∀ ms : List Message,
      (System.firstState? r.module ms).1 =
        (ms.filterMap (Snapshot.Collected.ofMessage? r.module)).head? := by
    intro ms
    induction ms with
    | nil => rfl
    | cons m rest ih =>
      unfold System.firstState?
      cases hm : Snapshot.Collected.ofMessage? r.module m with
      | some d => rw [List.filterMap_cons_some hm, List.head?_cons]
      | none =>
        rw [List.filterMap_cons_none hm]
        exact ih
  have hfound := hfirst (sc.system.network.waiting r.subscription)
  unfold pending at h
  rw [h] at hfound
  unfold System.read?
  dsimp only
  rw [hfound]
  rfl

theorem yielded_turns (sc : Scene) (r : Results) (places : List Nat) :
    yielded r (sc.log (places.map .turn)) = [] := by
  induction places generalizing sc with
  | nil => rfl
  | cons place rest ih =>
    have hfirst : yielded r (sc.perform (.turn place)).2 = [] := by
      unfold Scene.perform
      dsimp only
      split
      · rfl
      split
      · rfl
      · unfold completions answers yielded
        rw [List.filterMap_eq_nil_iff]
        intro e he
        split at he
        · cases he
        split at he
        · obtain ⟨d, -, rfl⟩ := Option.map_eq_some_iff.mp (Option.mem_toList.mp he)
          rfl
        · cases he
    have hrest := ih (sc.perform (.turn place)).1
    unfold yielded at hfirst hrest ⊢
    rw [List.map_cons, log, List.filterMap_append, hfirst, hrest]
    rfl

/-- What waits for a stream is still in front when all nodes have taken their turns. -/
theorem pending_settle (h : sc.Sound) (hr : r ∈ sc.streams) :
    sc.pending r <+: pending { sc with system := sc.system.settle } r := by
  obtain ⟨places, hplaces⟩ := sc.turns_settle
  have hk := h.stream_lt r hr
  have hs : sc.system.network.subscriptions[r.subscription]? = some _ := List.getElem?_eq_getElem hk
  obtain ⟨t, es, ht, hfollows, htold⟩ := after_traced "" h hr (places.map .turn) _ hs
  have hread := htold.read
  rw [yielded_turns] at hread
  rw [hplaces] at ht
  have hinbox := congrArg (List.filterMap (Snapshot.Collected.ofMessage? r.module)) hfollows.inbox
  rw [List.filterMap_append, hread, List.nil_append, List.filterMap_append] at hinbox
  unfold pending
  rw [Network.waiting_eq ht, Network.waiting_eq hs, hinbox]
  exact List.prefix_append ..

/-- Whoever waits for the stream is given what is pending first. -/
theorem await_pending (h : sc.Sound) (hr : r ∈ sc.streams) {c : Snapshot.Collected}
    {rest : List Snapshot.Collected} (hc : sc.pending r = c :: rest) (ms : Nat) :
    (sc.system.await r ms).1 = .state c := by
  obtain ⟨more, hmore⟩ := pending_settle h hr
  rw [hc] at hmore
  have hread := read?_pending { sc with system := sc.system.settle } r hmore.symm
  unfold System.await
  dsimp only
  rw [System.awaitFrom]
  split
  · rename_i reply s hs
    rw [hs] at hread
    exact Option.some.inj hread
  · rename_i s hs
    rw [hs] at hread
    cases hread

/-- A collector notes the module that it is asked for, and a stream yields what is brought to its
module while its node is on the network: the answers that the collector completes for requests of
the module, with what others may send in their stead, one after the other and each of them once.
What it has not yielded yet is what somebody who waits for it is given next. A module with a dot in
its name gets nothing at all. -/
theorem streams_yield (clock : Clock) (earlier : List Deed) (uuid module : String)
    (later : List Deed) :
    let before := after { system := { clock } } earlier
    let r : Results := ⟨module, before.system.network.size⟩
    let opened := (before.perform (.subscribe uuid module)).1
    let happened := opened.log later
    (∀ (a : Agent) (x : Float), (a.handle x
      (Network.stamp uuid (Snapshot.Wire.request uuid module))).2.1.requester = some module) ∧
    ('.' ∉ module.toList → Numbered happened →
      yielded r happened ++ (opened.after later).pending r = heard uuid module happened ∧
      ∀ c rest, heard uuid module happened = yielded r happened ++ c :: rest →
        ∀ ms, ((opened.after later).system.await r ms).1 = .state c) ∧
    ('.' ∈ module.toList →
      yielded r happened = [] ∧ (opened.after later).pending r = []) := by
  intro before r opened happened
  have hsound : opened.Sound := ((sound_empty clock).after earlier).perform _
  have hr : r ∈ opened.streams := List.mem_append_right _ List.mem_cons_self
  have hsub : opened.system.network.subscriptions[r.subscription]? =
      some ⟨uuid, [module], true, true, []⟩ := List.getElem?_concat_length
  obtain ⟨t, es, ht, hfollows, htold⟩ := after_traced uuid hsound hr later _ hsub
  have hinbox : gone r.subscription es ++ t.inbox = due uuid [module] r.subscription es :=
    hfollows.inbox
  have hpending : (opened.after later).pending r =
      t.inbox.filterMap (Snapshot.Collected.ofMessage? module) := by
    unfold pending
    rw [Network.waiting_eq ht]
  refine ⟨fun a x => a.requester_handle_request x uuid module, ?_, ?_⟩
  · intro hdot hnum
    have hall : yielded r happened ++ (opened.after later).pending r =
        heard uuid module happened := by
      rw [← htold.brought hdot hnum, ← hinbox, List.filterMap_append, hpending, ← htold.read]
    refine ⟨hall, ?_⟩
    intro c rest hnext
    rw [← hall] at hnext
    exact await_pending (hsound.after later) (mem_streams_after hr later)
      (List.append_cancel_left hnext)
  · intro hdot
    have hdue : due uuid [module] r.subscription es = [] := by
      apply Network.due_of_not_brings
      intro e _
      cases e with
      | delivered receiver m taken => simp [Event.brings?, Message.isFor_of_dot hdot m]
      | _ => rfl
    rw [hdue] at hinbox
    obtain ⟨hgone, hrest⟩ := List.append_eq_nil_iff.mp hinbox
    rw [hpending, hrest, ← htold.read, hgone]
    exact ⟨rfl, rfl⟩

/-- A node whose scheduler plays a module besides its own. -/
def playing (module : String) : List Deed :=
  [.start { schedule := { modules := [⟨module, 400⟩] } } "a", .turn 0, .turn 0]

/-- A request on the module's behalf, and the end of the collector's timeout. -/
def asking (module : String) : List Deed :=
  [.send "a" "a" (Snapshot.Wire.request "a" module), .turn 0, .turn 0, .turn 0, .wait 5000, .turn 0,
    .turn 0, .wait 5200, .turn 0, .turn 0, .turn 0]

/-- What becomes of the stream of a module that is opened before the request. -/
def attended (module : String) : Scene :=
  let before := after { system := { clock := { origin := ⟨0, 0⟩, skew := 0 } } } (playing module)
  (before.perform (.subscribe "a" module)).1

/-- The one answer is what somebody who waits for the stream is given. -/
theorem streams_yield_answer :
    let hs := (attended "gm").log (asking "gm")
    let r : Results := ⟨"gm", 1⟩
    hs = [.sent "a" (Snapshot.Wire.request "a" "gm"),
        .completed "a" "gm" ⟨"gm", ⟨"a", 1⟩, "-0"⟩] ∧
      Numbered hs ∧ heard "a" "gm" hs = yielded r hs ++ [⟨"gm", ⟨"a", 1⟩, "-0"⟩] ∧
      (((attended "gm").after (asking "gm")).system.await r 100).1 =
        .state ⟨"gm", ⟨"a", 1⟩, "-0"⟩ := by
  intro hs r
  have hlog : hs = [.sent "a" (Snapshot.Wire.request "a" "gm"),
      .completed "a" "gm" ⟨"gm", ⟨"a", 1⟩, "-0"⟩] := by decide +kernel
  have hnum : Numbered hs := by
    rw [hlog]
    intro uuid requester c hc
    rcases List.mem_cons.mp hc with hc | hc
    · cases hc
    · obtain ⟨-, -, rfl⟩ := Happening.completed.inj (List.mem_singleton.mp hc)
      decide
  have hheard : heard "a" "gm" hs = yielded r hs ++ [⟨"gm", ⟨"a", 1⟩, "-0"⟩] := by
    rw [hlog]
    decide +kernel
  have hyield := (streams_yield { origin := ⟨0, 0⟩, skew := 0 } (playing "gm") "a" "gm"
    (asking "gm")).2.1 (by decide) hnum
  exact ⟨hlog, hnum, hheard, hyield.2 _ [] hheard 100⟩

/-- The configuration admits a module with a dot in its name; an answer to its request is completed
while its stream is open, and nobody who reads the stream will see it. -/
theorem dotted_stream_silent :
    ¬ ∀ (s : Config.Settings) (module : String), s.validate = .ok () →
      module ∈ s.schedule.modules.map Config.ModuleSetting.id →
      ∀ (clock : Clock) (earlier later : List Deed) (uuid : String),
        let before := after { system := { clock } } (.start s uuid :: earlier)
        let r : Results := ⟨module, before.system.network.size⟩
        let opened := (before.perform (.subscribe uuid module)).1
        ∀ c, .completed uuid module c ∈ opened.log later →
          c ∈ yielded r (opened.log later) ++ (opened.after later).pending r := by
  intro hclaim
  have hyields := hclaim { schedule := { modules := [⟨"grid.lb", 400⟩] } } "grid.lb"
    (by decide +kernel) (by decide) { origin := ⟨0, 0⟩, skew := 0 } [.turn 0, .turn 0]
    (asking "grid.lb") "a" ⟨"grid.lb", ⟨"a", 1⟩, "-0"⟩ (by decide +kernel)
  revert hyields
  decide +kernel

end Scene

end Node

end PhasedGrid
