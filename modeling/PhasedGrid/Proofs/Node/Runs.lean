import PhasedGrid.Node.Basic
import PhasedGrid.Proofs.Schedule.Driving
import PhasedGrid.Proofs.Schedule.Releases
import PhasedGrid.Proofs.Snapshot.Calls

/-!
Runs of a node: turns of its scheduler and of its collector in any order, with any network around.
The record of a run is that of its scheduler, and besides every arming of the response timer is
written down with the version it was issued for.
-/

namespace PhasedGrid.Node

set_option autoImplicit false

open PhasedGrid.Config (Settings)
open PhasedGrid.Peer (Message Network)
open PhasedGrid.Schedule
open PhasedGrid.Snapshot (Agent Call Effect Version)

/-- An arming of the response timer: the number of its job, the version that was in progress, and
the time. -/
structure Arming where
  number : Nat
  version : Version
  time : Nat
  deriving DecidableEq, Repr

def call? (n : Node) (net : Network) : Option Call :=
  match n.statuses with
  | status :: _ => some (.timer status)
  | [] => (net.next? n.member.inbox).map fun next => .message next.1 n.member.reading

def armOrders (timer : Nat) (effects : List Effect) : List (Order Duty) :=
  effects.filterMap fun
    | .arm delay => some (.after timer delay .respond [])
    | .send _ _ => none

/-- The orders that come with the collector's next step. -/
def orders (n : Node) (net : Network) : List (Order Duty) :=
  match n.call? net with
  | some c => armOrders n.timer (n.member.agent.serve c).2
  | none => []

/-- The armings that come with a step of the collector to `next`. -/
def armed (n : Node) (net : Network) (next : Node) : List Arming :=
  (List.range' n.loop.submitted (n.orders net).length).map fun k =>
    ⟨k, next.member.agent.current, n.loop.time⟩

/-- The record of a turn of the scheduler that leads to `next`; a scheduler that breaks ends. -/
def turnMarks (n next : Node) : List (Mark Duty) :=
  match n.loop.turn with
  | .ok (some (loop, events)) =>
    n.loop.marks ++ events.map .seen ++
      if next.loop.ended && !loop.ended then [.seen .ended] else []
  | _ => [.seen .ended]

/-- An order of somebody who does not know the response timer, and whose job asks for nothing. -/
def Apart (timer : Nat) : Order Duty → Prop
  | .after t _ label follow _ => t ≠ timer ∧ label = .fail ∧ follow = []
  | .now _ label follow _ _ => label = .fail ∧ follow = []
  | .post label follow _ => label = .fail ∧ follow = []
  | _ => True

/-- A single event of a run, with what it adds to the record and to the armings. -/
inductive Step : Node → List (Mark Duty) → List Arming → Node → Prop
  | scheduler {n next : Node} : n.schedulerTurn? = some next → Step n (n.turnMarks next) [] next
  | collector {n next : Node} (net : Network) {net' : Network} :
      n.collectorTurn? net = some (next, net') →
        Step n ((n.orders net).map .gave) (n.armed net next) next
  | order (n : Node) (o : Order Duty) :
      Apart n.timer o → Step n [.gave o] [] { n with loop := n.loop.issue o }
  | wait (n : Node) (time : Nat) :
      n.loop.time ≤ time → Step n [] [] { n with loop := { n.loop with time } }
  | report (n : Node) (x : Sleeper) : x ∈ n.loop.timers.sleepers → x.due ≤ n.loop.time →
      Step n [] [] { n with loop := n.loop.hear x }
  | adjust (n : Node) (inventory : Device.Inventory) :
      Step n [] [] { n with member := { n.member with inventory } }

/-- `Runs n₀ opening tr as n`: after the orders `opening` a run leads from `n₀` to `n`. -/
inductive Runs (n₀ : Node) (opening : List (Order Duty)) :
    List (Mark Duty) → List Arming → Node → Prop
  | start : Runs n₀ opening (opening.map .gave) [] n₀
  | step {tr ms : List (Mark Duty)} {as bs : List Arming} {n next : Node} :
      Runs n₀ opening tr as n → Step n ms bs next → Runs n₀ opening (tr ++ ms) (as ++ bs) next

def opening (s : Settings) : List (Order Duty) :=
  (modulesOf s.schedule).map (fun m => .register m.1 m.2) ++ [.allocate collectorModule]

section Plays

/-- A move of a run that is written out. The collector reads a report of its timer or, if there is
none, the given message; sleepers are counted in the order of arming. -/
inductive Move where
  | scheduler
  | collector (message : Option Message)
  | wait (ms : Nat)
  | report (sleeper : Nat)

/-- A network in which only the node's inbox holds something. -/
def netOf (n : Node) (message : Option Message) : Network :=
  ⟨List.replicate n.member.inbox ⟨"", [], true, true, []⟩ ++ [⟨n.uuid, [], true, true, message.toList⟩]⟩

def move (n : Node) : Move → Option (List (Mark Duty) × List Arming × Node)
  | .scheduler => n.schedulerTurn?.map fun next => (n.turnMarks next, [], next)
  | .collector message =>
    let net := n.netOf message
    (n.collectorTurn? net).map fun r => ((n.orders net).map .gave, n.armed net r.1, r.1)
  | .wait ms => some ([], [], { n with loop := { n.loop with time := n.loop.time + ms } })
  | .report sleeper =>
    (n.loop.timers.sleepers[sleeper]?).bind fun x =>
      if x.due ≤ n.loop.time then some ([], [], { n with loop := n.loop.hear x }) else none

def play (n : Node) : List Move → Option (List (Mark Duty) × List Arming × Node)
  | [] => some ([], [], n)
  | m :: rest =>
    (n.move m).bind fun first =>
      (first.2.2.play rest).map fun later =>
        (first.1 ++ later.1, first.2.1 ++ later.2.1, later.2.2)

theorem move_step {n next : Node} {m : Move} {ms : List (Mark Duty)} {bs : List Arming}
    (h : n.move m = some (ms, bs, next)) : Step n ms bs next := by
  cases m with
  | scheduler =>
    obtain ⟨n', hn, heq⟩ := Option.map_eq_some_iff.mp h
    cases heq
    exact .scheduler hn
  | collector message =>
    obtain ⟨r, hr, heq⟩ := Option.map_eq_some_iff.mp h
    cases heq
    exact .collector _ hr
  | wait time =>
    cases h
    exact .wait n _ (Nat.le_add_right _ _)
  | report sleeper =>
    obtain ⟨x, hx, hdue⟩ := Option.bind_eq_some_iff.mp h
    split at hdue
    · rename_i hle
      cases hdue
      exact .report n x (List.mem_of_getElem? hx) hle
    · cases hdue

theorem Runs.play {n₀ n next : Node} {tr ms : List (Mark Duty)} {as bs : List Arming}
    {os : List (Order Duty)} (h : Runs n₀ os tr as n) {moves : List Move}
    (hp : n.play moves = some (ms, bs, next)) : Runs n₀ os (tr ++ ms) (as ++ bs) next := by
  induction moves generalizing n tr ms as bs with
  | nil =>
    cases hp
    rw [List.append_nil, List.append_nil]
    exact h
  | cons m rest ih =>
    obtain ⟨first, hfirst, hrest⟩ := Option.bind_eq_some_iff.mp hp
    obtain ⟨later, hlater, heq⟩ := Option.map_eq_some_iff.mp hrest
    cases heq
    rw [← List.append_assoc, ← List.append_assoc]
    exact ih (h.step (move_step hfirst)) hlater

/-- A script that can be played from the start gives a run; `p` is what is to be known of it. -/
theorem exists_run (s : Settings) (name : String) (clock : Clock) (time : Nat)
    (moves : List Move) (p : List Arming → Node → Bool)
    (h : (start s name clock time {}).toOption.any fun r =>
      r.toOption.any fun r => (r.1.play moves).any fun r => p r.2.1 r.2.2) :
    ∃ n₀ net₀ tr as n, start s name clock time {} = .ok (.ok (n₀, net₀)) ∧
      Runs n₀ (opening s) tr as n ∧ p as n := by
  cases hstart : start s name clock time {} with
  | error fault =>
    rw [hstart] at h
    cases h
  | ok outcome =>
    rw [hstart] at h
    cases outcome with
    | error failure => cases h
    | ok r =>
      change (r.1.play moves).any (fun r => p r.2.1 r.2.2) at h
      obtain ⟨played, hplay, hp⟩ := (Option.any_eq_true ..).mp h
      exact ⟨r.1, r.2, _, _, _, rfl, Runs.start.play hplay, hp⟩

end Plays

section Scheduler

/-- What the jobs of the response timer report. -/
@[simp] def report? : Mark Duty → Option (Job Duty × TimerStatus)
  | .seen (.ran job (some status) _) => if job.label = .respond then some (job, status) else none
  | _ => none

def reports (tr : List (Mark Duty)) : List (Job Duty × TimerStatus) := tr.filterMap report?

theorem reports_append (tr ms : List (Mark Duty)) : reports (tr ++ ms) = reports tr ++ reports ms :=
  List.filterMap_append

/-- What a node takes note of concerns its reports, or else it breaks the scheduler. -/
structure Observed (n : Node) (events : List (Event Duty)) (next : Node) : Prop where
  member : next.member = n.member
  timer : next.timer = n.timer
  statuses : next.statuses = n.statuses ++ (reports (events.map .seen)).map Prod.snd
  loop : next.loop = n.loop ∨ next.loop.ended
  time : next.loop.time = n.loop.time
  submitted : next.loop.submitted = n.loop.submitted

theorem observe_observed (n : Node) (e : Event Duty) : Observed n [e] (n.observe e) := by
  cases e with
  | ran job status time =>
    obtain ⟨number, label, follow, captures⟩ := job
    cases label with
    | respond =>
      refine ⟨rfl, rfl, ?_, .inl rfl, rfl, rfl⟩
      cases status <;> rfl
    | fail =>
      refine ⟨rfl, rfl, ?_, .inr rfl, rfl, rfl⟩
      cases status <;> exact (List.append_nil _).symm
  | _ => exact ⟨rfl, rfl, (List.append_nil _).symm, .inl rfl, rfl, rfl⟩

theorem foldl_observed (n : Node) (events : List (Event Duty)) :
    Observed n events (events.foldl observe n) := by
  induction events generalizing n with
  | nil => exact ⟨rfl, rfl, (List.append_nil _).symm, .inl rfl, rfl, rfl⟩
  | cons e rest ih =>
    have h := n.observe_observed e
    have k := ih (n.observe e)
    refine ⟨k.member.trans h.member, k.timer.trans h.timer, ?_, ?_, k.time.trans h.time,
      k.submitted.trans h.submitted⟩
    · rw [List.foldl_cons, k.statuses, h.statuses, List.append_assoc, ← List.map_append,
        ← reports_append]
      rfl
    · rcases k.loop with hk | hk
      · rcases h.loop with hh | hh
        · exact .inl (hk.trans hh)
        · right
          rw [List.foldl_cons, hk]
          exact hh
      · exact .inr hk

end Scheduler

section Collector

/-- What a step of the collector comes to for the response timer: nothing, or it is armed for a new
version, or once more for the one in progress. -/
inductive Arms (timer : Nat) (a b : Agent) : List (Order Duty) → Prop
  | idle : b.uuid = a.uuid → b.policy = a.policy → b.started = a.started →
      (b.awaiting → a.awaiting ∧ b.current = a.current) → Arms timer a b []
  | opened : b.uuid = a.uuid → b.policy = a.policy → b.started = a.started + 1 →
      b.current = a.nextVersion →
        Arms timer a b [.after timer a.policy.responseTimeout .respond []]
  | extended : b.uuid = a.uuid → b.policy = a.policy → b.started = a.started → a.awaiting →
      b.current = a.current → Arms timer a b [.after timer a.policy.responseTimeout .respond []]

theorem armOrders_plain (timer : Nat) {es : List Effect} (h : ∀ e ∈ es, e.Plain) :
    armOrders timer es = [] := by
  unfold armOrders
  rw [List.filterMap_eq_nil_iff]
  intro e he
  cases e with
  | send => rfl
  | arm => exact absurd (h _ he) id

theorem opened_arms (timer : Nat) {a b : Agent} (hb : a.Alike b) (x : Float) :
    Arms timer a (b.initiate x).1 (armOrders timer (b.initiate x).2) := by
  have horders : armOrders timer (b.initiate x).2 =
      [.after timer a.policy.responseTimeout .respond []] := by
    have hplain := armOrders_plain timer (b.toOthers_plain b.nextVersion)
    unfold Agent.initiate
    unfold armOrders at hplain ⊢
    rw [List.filterMap_append, hplain, ← hb.policy]
    rfl
  rw [horders]
  refine .opened hb.uuid hb.policy (congrArg (· + 1) hb.started) ?_
  change b.nextVersion = a.nextVersion
  unfold Agent.nextVersion
  rw [hb.uuid, hb.started]

theorem serving_arms (timer : Nat) {a b : Agent} {c : Call} {es : List Effect}
    (h : Agent.Serving a c b es) : Arms timer a b (armOrders timer es) := by
  cases h with
  | requested x hm hb hr => exact opened_arms timer hb x
  | led x hl hb hr => exact opened_arms timer hb x
  | extended left hc haw => exact .extended rfl rfl rfl haw rfl
  | delivered module hc haw hr =>
    have ht := a.finishCurrent_tends
    exact .idle rfl rfl rfl fun hb => ⟨ht.awaiting hb, ht.current hb⟩
  | tended ht hes =>
    rw [armOrders_plain timer hes]
    exact .idle ht.uuid ht.policy ht.started fun hb => ⟨ht.awaiting hb, ht.current hb⟩

theorem foldl_arm (timer : Nat) (effects : List Effect) (l : Loop Duty) :
    effects.foldl (fun (l : Loop Duty) e =>
      match e with
      | .arm delay => l.issue (.after timer delay .respond [])
      | .send _ _ => l) l = (armOrders timer effects).foldl Loop.issue l := by
  induction effects generalizing l with
  | nil => rfl
  | cons e rest ih => cases e <;> exact ih _

structure Collected (n : Node) (net : Network) (next : Node) : Prop where
  timer : next.timer = n.timer
  loop : next.loop = (n.orders net).foldl Loop.issue n.loop
  statuses : next.statuses <:+ n.statuses
  arms : Arms n.timer n.member.agent next.member.agent (n.orders net)

theorem handle_effects {a b : Agent} {x : Float} {m : Message} {e : Snapshot.WireError}
    {es : List Effect} (h : a.handle x m = (.error e, b, es)) : es = [] := by
  unfold Agent.handle at h
  dsimp only at h
  split at h <;> cases h
  rfl

theorem collectorTurn_collected {n next : Node} {net net' : Network}
    (h : n.collectorTurn? net = some (next, net')) : Collected n net next := by
  have hserve : ∀ c, n.call? net = some c →
      n.orders net = armOrders n.timer (n.member.agent.serve c).2 := by
    intro c hc
    rw [orders, hc]
  have hquiet : n.orders net = [] → ∀ state, Collected n net { n with collector := state } := by
    intro hn state
    refine ⟨rfl, ?_, List.suffix_rfl, ?_⟩
    · rw [hn]
      rfl
    · rw [hn]
      exact .idle rfl rfl rfl fun hb => ⟨hb, rfl⟩
  unfold collectorTurn? at h
  split at h
  · cases h
  split at h
  · rename_i status rest hst
    have horders := hserve (.timer status) (by rw [call?, hst])
    obtain ⟨rfl, -⟩ := Prod.mk.inj (Option.some.inj h)
    refine ⟨rfl, ?_, ?_, ?_⟩
    · rw [horders]
      exact foldl_arm n.timer _ n.loop
    · rw [hst]
      exact List.suffix_cons status rest
    · rw [horders]
      exact serving_arms n.timer (n.member.agent.serve_serving (.timer status))
  · rename_i hst
    split at h
    · rename_i message net₁ hnext
      have horders := hserve (.message message n.member.reading) (by rw [call?, hst, hnext]; rfl)
      have hserving := n.member.agent.serve_serving (.message message n.member.reading)
      have harms := serving_arms n.timer hserving
      rw [← horders] at harms
      unfold Agent.serve at harms horders
      dsimp only at harms horders
      split at h
      · rename_i agent effects hhandle
        rw [hhandle] at harms horders
        obtain ⟨rfl, -⟩ := Prod.mk.inj (Option.some.inj h)
        refine ⟨rfl, ?_, List.suffix_rfl, harms⟩
        rw [horders]
        exact foldl_arm n.timer _ n.loop
      · rename_i e agent effects hhandle
        rw [hhandle] at horders
        obtain ⟨rfl, -⟩ := Prod.mk.inj (Option.some.inj h)
        refine hquiet ?_ _
        rw [horders, handle_effects hhandle]
        rfl
    · rename_i hnext
      split at h
      · obtain ⟨rfl, -⟩ := Prod.mk.inj (Option.some.inj h)
        refine hquiet ?_ _
        rw [orders, call?, hst, hnext]
        rfl
      · cases h

end Collector

end PhasedGrid.Node
