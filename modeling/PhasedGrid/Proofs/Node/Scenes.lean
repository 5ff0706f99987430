import Mathlib.Data.List.Nodup
import PhasedGrid.Node.System
import PhasedGrid.Proofs.Node.Runs

/-!
Nodes that take their turns in any order, while others start, leave and send what they like. What
the driver of the nodes does at one instant, or while somebody waits, is a series of such deeds.
-/

namespace PhasedGrid

set_option autoImplicit false

open PhasedGrid.Peer (Message Network)
open PhasedGrid.Schedule (TimerStatus)
open PhasedGrid.Snapshot (Agent Effect)

namespace Snapshot.Agent

/-- The module that the end of the response timer brings an answer, and the answer. -/
def delivers? (a : Agent) (status : TimerStatus) : Option (String × Collected) :=
  match (a.onTimer status).1, a.requester with
  | some (.complete c), some module => some (module, c)
  | _, _ => none

end Snapshot.Agent

namespace Node

/-- What happens among nodes that a stream may have to do with. -/
inductive Happening where
  | sent (receiver : String) (m : Message)
  | completed (uuid requester : String) (c : Snapshot.Collected)
  | left (uuid : String)
  | yielded (r : Results) (c : Snapshot.Collected)
  deriving DecidableEq

/-- What is done with nodes, at any time and in any order. Nodes take their turns by their places
among all that run, and streams are read by the order in which they were opened. -/
inductive Deed where
  | start (settings : Config.Settings) (name : String)
  | setAside (uuid : String)
  | turn (place : Nat)
  | wait (time : Nat)
  | send (uuid receiver : String) (m : Message)
  | subscribe (uuid module : String)
  | setSignal (uuid device signal : String) (value : Float)
  | breakScheduler (uuid : String)
  | leave (uuid : String)
  | shutdown (uuid : String)
  | read (stream : Nat)

/-- A system and the streams that were opened. -/
structure Scene where
  system : System
  streams : List Results := []

namespace System

def running (s : System) : List Node := s.nodes ++ s.strays

/-- Puts other nodes in the places of those that run. -/
def withRunning (s : System) (ns : List Node) : System :=
  { s with nodes := ns.take s.nodes.length, strays := ns.drop s.nodes.length }

/-- Puts a node in the place of another one. -/
def put (s : System) (place : Nat) (n : Node) : System := s.withRunning (s.running.set place n)

/-- Takes the name from the nodes that have it. -/
def setAside (s : System) (uuid : String) : System :=
  { s with
    nodes := s.nodes.filter fun n => n.uuid ≠ uuid
    strays := s.strays ++ s.nodes.filter fun n => n.uuid = uuid }

end System

/-- The answer that the collector's next step completes. -/
def answers (n : Node) : List Happening :=
  match n.statuses with
  | status :: _ =>
    ((n.member.agent.delivers? status).map fun d => .completed n.uuid d.1 d.2).toList
  | [] => []

/-- The answer that the node's next turn completes. -/
def completions (n : Node) : List Happening := if n.schedulerTurn?.isSome then [] else n.answers

def Reply.state? : Reply → Option Snapshot.Collected
  | .state c => some c
  | .timeout | .closed => none

namespace Scene

def perform (sc : Scene) : Deed → Scene × List Happening
  | .start settings name =>
    match Node.start settings name sc.system.clock sc.system.time sc.system.network with
    | .ok (.ok (n, network)) =>
      ({ sc with system := { sc.system with nodes := sc.system.nodes ++ [n], network } }, [])
    | _ => (sc, [])
  | .setAside uuid => ({ sc with system := sc.system.setAside uuid }, [])
  | .turn place =>
    match sc.system.running[place]? with
    | none => (sc, [])
    | some n =>
      match n.turn? sc.system.network with
      | none => (sc, [])
      | some (next, network) =>
        ({ sc with system := { sc.system.put place next with network } }, n.completions)
  | .wait time => ({ sc with system := sc.system.moveTo time }, [])
  | .send uuid receiver m =>
    ({ sc with system := (sc.system.send uuid receiver m).2 },
      [.sent receiver (Network.stamp uuid m)])
  | .subscribe uuid module =>
    let (r, system) := sc.system.subscribe uuid module
    ({ system, streams := sc.streams ++ [r] }, [])
  | .setSignal uuid device signal value =>
    ({ sc with system := sc.system.setSignal uuid device signal value }, [])
  | .breakScheduler uuid => ({ sc with system := sc.system.breakScheduler uuid }, [])
  | .leave uuid => ({ sc with system := sc.system.leave uuid }, [.left uuid])
  | .shutdown uuid => ({ sc with system := sc.system.shutdown uuid }, [.left uuid])
  | .read stream =>
    match sc.streams[stream]? with
    | none => (sc, [])
    | some r =>
      let (reply, system) := sc.system.read? r
      ({ sc with system }, (reply.bind Reply.state?).toList.map (.yielded r))

def after (sc : Scene) (deeds : List Deed) : Scene := deeds.foldl (fun sc d => (sc.perform d).1) sc

def log (sc : Scene) : List Deed → List Happening
  | [] => []
  | d :: rest => (sc.perform d).2 ++ (sc.perform d).1.log rest

/-- What a stream has still to yield. -/
def pending (sc : Scene) (r : Results) : List Snapshot.Collected :=
  (sc.system.network.waiting r.subscription).filterMap (Snapshot.Collected.ofMessage? r.module)

end Scene

section Turn

variable {n next : Node} {net net' : Network}

theorem schedulerTurn?_member (h : n.schedulerTurn? = some next) : next.member = n.member := by
  unfold schedulerTurn? at h
  split at h
  · cases h
    rfl
  · cases h
  · rename_i loop events _
    obtain rfl := Option.some.inj h
    exact (foldl_observed { n with loop } events).member

theorem deliverAll_size (sender : String) (effects : List Effect) (net : Network) :
    (Snapshot.Cluster.deliverAll sender effects net).size = net.size := by
  induction effects generalizing net with
  | nil => rfl
  | cons e rest ih =>
    cases e with
    | arm => exact ih net
    | send receiver m =>
      refine (ih (net.deliver receiver (Network.stamp sender m))).trans ?_
      simp [Network.deliver, Network.size]

theorem size_setInbox (net : Network) (number : Nat) (inbox : List Message) :
    (net.setInbox number inbox).size = net.size := by
  simp [Network.setInbox, Network.size]

/-- A node keeps its inbox, and nobody joins when it takes its turn. -/
theorem turn?_inbox (h : n.turn? net = some (next, net')) :
    next.member.inbox = n.member.inbox ∧ net'.size = net.size := by
  have hhang : ∀ (net : Network) (number : Nat), (net.hangUp number).size = net.size := by
    simp [Network.hangUp, Network.size]
  unfold turn? at h
  cases hs : n.schedulerTurn? with
  | some m =>
    rw [hs] at h
    obtain ⟨rfl, rfl⟩ := Prod.mk.inj (Option.some.inj h)
    rw [schedulerTurn?_member hs]
    exact ⟨rfl, rfl⟩
  | none =>
    rw [hs] at h
    change n.collectorTurn? net = some (next, net') at h
    unfold collectorTurn? at h
    split at h
    · cases h
    split at h
    · obtain ⟨rfl, rfl⟩ := Prod.mk.inj (Option.some.inj h)
      exact ⟨rfl, deliverAll_size ..⟩
    split at h
    · rename_i message net₁ hnext
      have hread : net₁.size = net.size := by
        unfold Network.next? at hnext
        split at hnext
        · cases hnext
        · cases hnext
          exact size_setInbox ..
      split at h
      · obtain ⟨rfl, rfl⟩ := Prod.mk.inj (Option.some.inj h)
        exact ⟨rfl, (deliverAll_size ..).trans hread⟩
      · obtain ⟨rfl, rfl⟩ := Prod.mk.inj (Option.some.inj h)
        exact ⟨rfl, (hhang ..).trans hread⟩
    · split at h
      · obtain ⟨rfl, rfl⟩ := Prod.mk.inj (Option.some.inj h)
        exact ⟨rfl, hhang ..⟩
      · cases h

end Turn

namespace System

theorem running_withRunning (s : System) (ns : List Node) : (s.withRunning ns).running = ns :=
  List.take_append_drop ..

theorem running_put (s : System) (place : Nat) (n : Node) :
    (s.put place n).running = s.running.set place n := running_withRunning ..

theorem withRunning_running (s : System) : s.withRunning s.running = s := by
  unfold withRunning running
  rw [List.take_left, List.drop_left]

/-- Who runs now is all that counts of those who were put in the places before. -/
theorem withRunning_withRunning (s : System) {ns : List Node} (hn : s.nodes.length ≤ ns.length)
    (network : Network) (ms : List Node) :
    { s.withRunning ns with network }.withRunning ms = { s.withRunning ms with network } := by
  unfold withRunning
  dsimp only
  rw [List.length_take, Nat.min_eq_left hn]

theorem nodes_le_running (s : System) : s.nodes.length ≤ s.running.length := by
  rw [running, List.length_append]
  exact Nat.le_add_right ..

theorem put_self (s : System) {place : Nat} {n : Node} (h : s.running[place]? = some n) :
    s.put place n = s := by
  obtain ⟨hlt, rfl⟩ := List.getElem?_eq_some_iff.mp h
  rw [put, List.set_getElem_self, withRunning_running]

theorem put_put (s : System) (place : Nat) (n m : Node) (network : Network) :
    { s.put place n with network }.put place m = { s.put place m with network } := by
  have hrunning : { s.put place n with network }.running = s.running.set place n :=
    running_put s place n
  have hle : s.nodes.length ≤ (s.running.set place n).length := by
    rw [List.length_set]
    exact nodes_le_running s
  unfold put at hrunning ⊢
  rw [hrunning, List.set_set, withRunning_withRunning s hle]

end System

theorem start_joins {settings : Config.Settings} {name : String} {clock : Clock} {time : Nat}
    {net net' : Network} {n : Node} (h : start settings name clock time net = .ok (.ok (n, net'))) :
    n.member.inbox = net.size ∧ net' = net.join name Snapshot.handlerKeys := by
  unfold start at h
  split at h
  · cases h
  split at h
  · cases h
  cases hloop : Schedule.Loop.start (α := Duty) clock settings.alignmentSpan time with
  | error fault =>
    rw [hloop] at h
    cases h
  | ok loop =>
    rw [hloop] at h
    obtain ⟨rfl, rfl⟩ := Prod.mk.inj (Except.ok.inj (Except.ok.inj h))
    exact ⟨rfl, rfl⟩

namespace Scene

variable {sc : Scene} {r : Results}

/-- Every inbox and every stream has a subscription of its own. -/
structure Sound (sc : Scene) : Prop where
  inbox_lt : ∀ n ∈ sc.system.running, n.member.inbox < sc.system.network.size
  inbox_ne : ∀ n ∈ sc.system.running, ∀ r ∈ sc.streams, n.member.inbox ≠ r.subscription
  stream_lt : ∀ r ∈ sc.streams, r.subscription < sc.system.network.size
  apart : (sc.streams.map Results.subscription).Nodup

theorem Sound.keep (h : sc.Sound) {s : System}
    (hrun : ∀ n ∈ s.running, ∃ m ∈ sc.system.running, n.member.inbox = m.member.inbox)
    (hsize : sc.system.network.size ≤ s.network.size) : Sound { sc with system := s } := by
  constructor
  · intro n hn
    obtain ⟨m, hm, heq⟩ := hrun n hn
    rw [heq]
    exact Nat.lt_of_lt_of_le (h.inbox_lt m hm) hsize
  · intro n hn
    obtain ⟨m, hm, heq⟩ := hrun n hn
    rw [heq]
    exact h.inbox_ne m hm
  · intro r hr
    exact Nat.lt_of_lt_of_le (h.stream_lt r hr) hsize
  · exact h.apart

theorem size_join (net : Network) (name : String) (keys : List String) :
    (net.join name keys).size = net.size + 1 := by
  simp [Network.join, Network.size]

theorem Sound.start (h : sc.Sound) {n : Node} {name : String} {keys : List String}
    (hn : n.member.inbox = sc.system.network.size) :
    Sound { sc with system := { sc.system with
      nodes := sc.system.nodes ++ [n], network := sc.system.network.join name keys } } := by
  have hsize := size_join sc.system.network name keys
  have hrun : ∀ m ∈ (sc.system.nodes ++ [n]) ++ sc.system.strays, m ∈ sc.system.running ∨ m = n := by
    intro m hm
    simp only [System.running, List.mem_append, List.mem_singleton] at hm ⊢
    tauto
  constructor
  · intro m hm
    refine Nat.lt_of_lt_of_eq ?_ hsize.symm
    rcases hrun m hm with hm | rfl
    · exact Nat.lt_succ_of_lt (h.inbox_lt m hm)
    · rw [hn]
      exact Nat.lt_succ_self _
  · intro m hm r hr
    rcases hrun m hm with hm | rfl
    · exact h.inbox_ne m hm r hr
    · rw [hn]
      exact Nat.ne_of_gt (h.stream_lt r hr)
  · intro r hr
    refine Nat.lt_of_lt_of_eq ?_ hsize.symm
    exact Nat.lt_succ_of_lt (h.stream_lt r hr)
  · exact h.apart

theorem Sound.subscribe (h : sc.Sound) (uuid module : String) :
    (sc.perform (.subscribe uuid module)).1.Sound := by
  have hsize := size_join sc.system.network uuid [module]
  have hstreams : ∀ r ∈ sc.streams ++ [⟨module, sc.system.network.size⟩],
      r ∈ sc.streams ∨ r.subscription = sc.system.network.size := by
    intro r hr
    rcases List.mem_append.mp hr with hr | hr
    · exact .inl hr
    · rw [List.mem_singleton.mp hr]
      exact .inr rfl
  constructor
  · intro n hn
    refine Nat.lt_of_lt_of_eq ?_ hsize.symm
    exact Nat.lt_succ_of_lt (h.inbox_lt n hn)
  · intro n hn r hr
    rcases hstreams r hr with hr | hr
    · exact h.inbox_ne n hn r hr
    · rw [hr]
      exact Nat.ne_of_lt (h.inbox_lt n hn)
  · intro r hr
    refine Nat.lt_of_lt_of_eq ?_ hsize.symm
    rcases hstreams r hr with hr | hr
    · exact Nat.lt_succ_of_lt (h.stream_lt r hr)
    · rw [hr]
      exact Nat.lt_succ_self _
  · change (List.map Results.subscription (sc.streams ++ [⟨module, sc.system.network.size⟩])).Nodup
    rw [List.map_append, List.map_singleton, List.nodup_append]
    refine ⟨h.apart, by simp, ?_⟩
    intro k hk l hl
    obtain ⟨r, hr, rfl⟩ := List.mem_map.mp hk
    rw [List.mem_singleton.mp hl]
    exact Nat.ne_of_lt (h.stream_lt r hr)

theorem Sound.modify (h : sc.Sound) (uuid : String) {f : Node → Node}
    (hf : ∀ n, (f n).member.inbox = n.member.inbox) :
    Sound { sc with system := sc.system.modify uuid f } := by
  refine h.keep ?_ (Nat.le_refl _)
  intro n hn
  rcases List.mem_append.mp hn with hn | hn
  · obtain ⟨m, hm, rfl⟩ := List.mem_map.mp hn
    refine ⟨m, List.mem_append_left _ hm, ?_⟩
    split
    · exact hf m
    · rfl
  · exact ⟨n, List.mem_append_right _ hn, rfl⟩

theorem Sound.setAside (h : sc.Sound) (uuid : String) :
    Sound { sc with system := sc.system.setAside uuid } := by
  refine h.keep ?_ (Nat.le_refl _)
  intro n hn
  refine ⟨n, ?_, rfl⟩
  simp only [System.setAside, System.running, List.mem_append, List.mem_filter] at hn ⊢
  tauto

theorem Sound.moveTo (h : sc.Sound) (time : Nat) :
    Sound { sc with system := sc.system.moveTo time } := by
  refine h.keep ?_ (Nat.le_refl _)
  intro n hn
  rcases List.mem_append.mp hn with hn | hn
  · obtain ⟨m, hm, rfl⟩ := List.mem_map.mp hn
    exact ⟨m, List.mem_append_left _ hm, rfl⟩
  · obtain ⟨m, hm, rfl⟩ := List.mem_map.mp hn
    exact ⟨m, List.mem_append_right _ hm, rfl⟩

theorem size_leave (net : Network) (uuid : String) : (net.leave uuid).size = net.size := by
  simp [Network.leave, Network.size]

theorem Sound.shutdown (h : sc.Sound) (uuid : String) :
    Sound { sc with system := sc.system.shutdown uuid } := by
  refine h.keep ?_ (Nat.le_of_eq (size_leave _ uuid).symm)
  intro n hn
  refine ⟨n, ?_, rfl⟩
  simp only [System.shutdown, System.leave, System.running, List.mem_append,
    List.mem_filter] at hn ⊢
  tauto

theorem Sound.turn (h : sc.Sound) {place : Nat} {n next : Node} {network : Network}
    (hn : sc.system.running[place]? = some n)
    (hturn : n.turn? sc.system.network = some (next, network)) :
    Sound { sc with system := { sc.system.put place next with network } } := by
  obtain ⟨hinbox, hsize⟩ := turn?_inbox hturn
  refine h.keep ?_ (Nat.le_of_eq hsize.symm)
  intro m hm
  change m ∈ (sc.system.put place next).running at hm
  rw [System.running_put] at hm
  rcases List.mem_or_eq_of_mem_set hm with hm | rfl
  · exact ⟨m, hm, rfl⟩
  · exact ⟨n, List.mem_of_getElem? hn, hinbox⟩

theorem Sound.read (h : sc.Sound) (r : Results) :
    Sound { sc with system := (sc.system.read? r).2 } := by
  refine h.keep (fun n hn => ⟨n, ?_, rfl⟩) ?_
  · unfold System.read? at hn
    dsimp only at hn
    split at hn <;> exact hn
  · unfold System.read?
    dsimp only
    split <;> exact Nat.le_of_eq (size_setInbox ..).symm

theorem Sound.perform (h : sc.Sound) (d : Deed) : (sc.perform d).1.Sound := by
  cases d with
  | start settings name =>
    unfold Scene.perform
    dsimp only
    split
    · rename_i n network hstart
      obtain ⟨hinbox, rfl⟩ := start_joins hstart
      exact h.start hinbox
    · exact h
  | setAside uuid => exact h.setAside uuid
  | turn place =>
    unfold Scene.perform
    dsimp only
    split
    · exact h
    split
    · exact h
    · rename_i n hn _ next network hturn
      exact h.turn hn hturn
  | wait time => exact h.moveTo time
  | send uuid receiver m =>
    refine h.keep (fun n hn => ⟨n, hn, rfl⟩) ?_
    simp [System.send, Network.deliver, Network.size]
  | subscribe uuid module => exact h.subscribe uuid module
  | setSignal uuid device signal value => exact h.modify uuid fun n => rfl
  | breakScheduler uuid => exact h.modify uuid fun n => rfl
  | leave uuid =>
    exact h.keep (fun n hn => ⟨n, hn, rfl⟩) (Nat.le_of_eq (size_leave _ uuid).symm)
  | shutdown uuid => exact h.shutdown uuid
  | read stream =>
    unfold Scene.perform
    dsimp only
    split
    · exact h
    · exact h.read _

theorem mem_streams_perform (hr : r ∈ sc.streams) (d : Deed) : r ∈ (sc.perform d).1.streams := by
  cases d with
  | subscribe uuid module => exact List.mem_append_left _ hr
  | start settings name =>
    unfold Scene.perform
    dsimp only
    split <;> exact hr
  | turn place =>
    unfold Scene.perform
    dsimp only
    split
    · exact hr
    split <;> exact hr
  | read stream =>
    unfold Scene.perform
    dsimp only
    split <;> exact hr
  | _ => exact hr

theorem mem_streams_after (hr : r ∈ sc.streams) (deeds : List Deed) :
    r ∈ (sc.after deeds).streams := by
  induction deeds generalizing sc with
  | nil => exact hr
  | cons d rest ih => exact ih (mem_streams_perform hr d)

theorem Sound.after (h : sc.Sound) (deeds : List Deed) : (sc.after deeds).Sound := by
  induction deeds generalizing sc with
  | nil => exact h
  | cons d rest ih => exact ih (h.perform d)

theorem sound_empty (clock : Clock) : Sound { system := { clock } } := by
  constructor
  · intro n hn
    exact absurd hn List.not_mem_nil
  · intro n hn
    exact absurd hn List.not_mem_nil
  · intro r hr
    exact absurd hr List.not_mem_nil
  · exact List.nodup_nil

theorem after_append (sc : Scene) (deeds later : List Deed) :
    sc.after (deeds ++ later) = (sc.after deeds).after later := List.foldl_append

/-- Turns of nodes lead to a system. -/
def Turns (sc : Scene) (s : System) : Prop :=
  ∃ places : List Nat, sc.after (places.map .turn) = { sc with system := s }

theorem Turns.refl (sc : Scene) : sc.Turns sc.system := ⟨[], rfl⟩

theorem Turns.trans {s t : System} (h : sc.Turns s) (k : Turns { sc with system := s } t) :
    sc.Turns t := by
  obtain ⟨places, hplaces⟩ := h
  obtain ⟨later, hlater⟩ := k
  refine ⟨places ++ later, ?_⟩
  rw [List.map_append, after_append, hplaces, hlater]

theorem Turns.single {place : Nat} {n next : Node} {network : Network}
    (hn : sc.system.running[place]? = some n)
    (hturn : n.turn? sc.system.network = some (next, network)) :
    sc.Turns { sc.system.put place next with network } := by
  refine ⟨[place], ?_⟩
  change (sc.perform (.turn place)).1 = _
  unfold Scene.perform
  simp only [hn, hturn]

theorem turns_drain (sc : Scene) {fuel place : Nat} {n m : Node} {busy b : Bool} {network : Network}
    (hn : sc.system.running[place]? = some n)
    (hd : System.drain n sc.system.network busy fuel = (b, m, network)) :
    sc.Turns { sc.system.put place m with network } := by
  induction fuel generalizing sc n busy with
  | zero =>
    cases hd
    rw [System.put_self _ hn]
    exact Turns.refl sc
  | succ fuel ih =>
    unfold System.drain at hd
    split at hd
    · cases hd
      rw [System.put_self _ hn]
      exact Turns.refl sc
    · rename_i next net hturn
      have hfirst := Turns.single hn hturn
      have hnext : { sc.system.put place next with network := net }.running[place]? = some next := by
        change (sc.system.put place next).running[place]? = some next
        rw [System.running_put, List.getElem?_set_self]
        exact (List.getElem?_eq_some_iff.mp hn).1
      have hrest := ih { sc with system := _ } hnext hd
      rw [System.put_put] at hrest
      exact hfirst.trans hrest

/-- Some of the nodes take their turns, one node after the other. -/
theorem turns_drainAll (sc : Scene) (ahead behind : List Node) {rest left : List Node} {b : Bool}
    {network : Network}
    (hrun : sc.system.running = ahead ++ rest ++ behind)
    (hd : System.drainAll sc.system.network rest = (b, left, network)) :
    left.length = rest.length ∧
      sc.Turns { sc.system.withRunning (ahead ++ left ++ behind) with network } := by
  induction rest generalizing sc ahead left b network with
  | nil =>
    cases hd
    refine ⟨rfl, ?_⟩
    rw [← hrun, System.withRunning_running]
    exact Turns.refl sc
  | cons n rest ih =>
    unfold System.drainAll at hd
    generalize hdrain : System.drain n sc.system.network false System.turnLimit = drained at hd
    obtain ⟨busy, m, net⟩ := drained
    dsimp only at hd
    generalize hothers : System.drainAll net rest = others at hd
    obtain ⟨more, left', network'⟩ := others
    cases hd
    have hn : sc.system.running[ahead.length]? = some n := by
      rw [hrun, List.append_assoc]
      simp
    have hfirst := turns_drain sc hn hdrain
    have hput : sc.system.running.set ahead.length m = (ahead ++ [m]) ++ rest ++ behind := by
      rw [hrun]
      simp
    have hle : sc.system.nodes.length ≤ (ahead ++ [m] ++ rest ++ behind).length := by
      rw [← hput, List.length_set]
      exact System.nodes_le_running _
    have hsecond := ih { sc with system := { sc.system.put ahead.length m with network := net } }
      (ahead ++ [m]) ((System.running_put ..).trans hput) hothers
    rw [System.put, hput] at hsecond hfirst
    dsimp only at hsecond
    rw [System.withRunning_withRunning _ hle] at hsecond
    refine ⟨congrArg (· + 1) hsecond.1, ?_⟩
    have hjoin : ahead ++ m :: left' ++ behind = ahead ++ [m] ++ left' ++ behind := by simp
    rw [hjoin]
    exact hfirst.trans hsecond.2

/-- A round is some turns of the nodes that have a name and then of the others. -/
theorem turns_round (sc : Scene) : sc.Turns sc.system.round.2 := by
  unfold System.round
  generalize hnamed : System.drainAll sc.system.network sc.system.nodes = named
  obtain ⟨busy, nodes, net⟩ := named
  dsimp only
  generalize hothers : System.drainAll net sc.system.strays = others
  obtain ⟨more, strays, network⟩ := others
  obtain ⟨hlength, hfirst⟩ := turns_drainAll sc [] sc.system.strays rfl hnamed
  have hle : sc.system.nodes.length ≤ (nodes ++ sc.system.strays).length := by
    rw [List.length_append, hlength]
    exact Nat.le_add_right ..
  have hrun : { sc.system.withRunning (nodes ++ sc.system.strays) with network := net }.running =
      nodes ++ sc.system.strays ++ [] := by
    rw [List.append_nil]
    exact System.running_withRunning ..
  have hsecond := (turns_drainAll { sc with system := _ } _ _ hrun hothers).2
  rw [List.append_nil, System.withRunning_withRunning _ hle] at hsecond
  have hparts : sc.system.withRunning (nodes ++ strays) = { sc.system with nodes, strays } := by
    unfold System.withRunning
    rw [← hlength, List.take_left, List.drop_left]
  rw [hparts] at hsecond
  exact hfirst.trans hsecond

theorem turns_settle (sc : Scene) : sc.Turns sc.system.settle := by
  unfold System.settle
  generalize System.roundLimit = fuel
  induction fuel generalizing sc with
  | zero => exact Turns.refl sc
  | succ fuel ih =>
    have hround := sc.turns_round
    unfold System.settleWithin
    split
    · rename_i s hs
      rw [hs] at hround
      exact hround.trans (ih { sc with system := s })
    · rename_i s hs
      rw [hs] at hround
      exact hround

/-- Deeds lead to a system. -/
def Leads (sc : Scene) (s : System) : Prop :=
  ∃ deeds : List Deed, sc.after deeds = { sc with system := s }

theorem Turns.leads {s : System} (h : sc.Turns s) : sc.Leads s := by
  obtain ⟨places, hplaces⟩ := h
  exact ⟨_, hplaces⟩

theorem Leads.trans {s t : System} (h : sc.Leads s) (k : Leads { sc with system := s } t) :
    sc.Leads t := by
  obtain ⟨deeds, hdeeds⟩ := h
  obtain ⟨later, hlater⟩ := k
  refine ⟨deeds ++ later, ?_⟩
  rw [after_append, hdeeds, hlater]

theorem Leads.refl (sc : Scene) : sc.Leads sc.system := ⟨[], rfl⟩

theorem Leads.settle {s : System} (h : sc.Leads s) : sc.Leads s.settle :=
  h.trans (turns_settle { sc with system := s }).leads

theorem Leads.deed {s t : System} (h : sc.Leads s) (d : Deed)
    (hd : (perform { sc with system := s } d).1 = { sc with system := t }) : sc.Leads t :=
  h.trans ⟨[d], hd⟩

theorem perform_start (sc : Scene) {settings : Config.Settings} {name : String} {n : Node} {network : Network}
    (h : Node.start settings name sc.system.clock sc.system.time sc.system.network =
      .ok (.ok (n, network))) : (sc.perform (.start settings name)).1 =
        { sc with system := { sc.system with nodes := sc.system.nodes ++ [n], network } } := by
  unfold Scene.perform
  simp only [h]

/-- The driver starts a node by deeds. -/
theorem leads_start {settings : Config.Settings} {name : String} {s : System}
    {outcome : Except Failure String} (h : sc.system.start settings name = .ok (outcome, s)) :
    sc.Leads s := by
  have hpart : ∀ ns : List Node, (ns.partition fun n => n.uuid = name) =
      (ns.filter fun n => n.uuid = name, ns.filter fun n => n.uuid ≠ name) := by
    intro ns
    rw [List.partition_eq_filter_filter]
    congr 2
    funext n
    simp
  unfold System.start at h
  cases hstart : Node.start settings name sc.system.clock sc.system.time sc.system.network with
  | error fault =>
    rw [hstart] at h
    cases h
  | ok result =>
    rw [hstart] at h
    cases result with
    | error e =>
      cases h
      exact Leads.refl sc
    | ok joined =>
      obtain ⟨n, network⟩ := joined
      simp only [bind, Except.bind, hpart] at h
      have haside : sc.Leads (sc.system.setAside name) := (Leads.refl sc).deed (.setAside name) rfl
      have hstarted := (haside.deed (.start settings name)
        (perform_start { sc with system := sc.system.setAside name } hstart)).settle
      split at h
      · cases h
        exact hstarted.deed (.setAside name) rfl
      · cases h
        exact hstarted

theorem Leads.runFrom {s : System} (h : sc.Leads s) (now target : Nat) :
    sc.Leads (System.runFrom now target s) := by
  induction now, s using System.runFrom.induct target with
  | case1 now s hnone =>
    rw [System.runFrom, hnone]
    exact h.deed (.wait target) rfl
  | case2 now s next hnext hlater ih =>
    rw [System.runFrom, hnext]
    simp only [dif_pos hlater]
    exact ih (h.deed (.wait next) rfl).settle
  | case3 now s next hnext hlater =>
    rw [System.runFrom, hnext]
    simp only [dif_neg hlater]
    exact h.deed (.wait target) rfl

/-- Time passes by deeds. -/
theorem leads_advance (sc : Scene) (ms : Nat) : sc.Leads (sc.system.advance ms) :=
  (Leads.refl sc).settle.runFrom _ _

theorem Leads.read {s : System} (h : sc.Leads s) (hr : r ∈ sc.streams) : sc.Leads (s.read? r).2 := by
  obtain ⟨j, hj⟩ := List.mem_iff_getElem?.mp hr
  apply h.deed (.read j)
  unfold Scene.perform
  simp only [hj]

theorem Leads.awaitFrom {s : System} (h : sc.Leads s) (hr : r ∈ sc.streams) (now deadline : Nat) :
    sc.Leads (System.awaitFrom now deadline s r).2 := by
  induction now, s using System.awaitFrom.induct deadline r with
  | case1 now s reply t hread =>
    have hleads := h.read hr
    rw [hread] at hleads
    rw [System.awaitFrom, hread]
    exact hleads
  | case2 now s t hread hnone =>
    have hleads := h.read hr
    rw [hread] at hleads
    rw [System.awaitFrom, hread]
    simp only [hnone]
    exact hleads.deed (.wait deadline) rfl
  | case3 now s t hread next hnext hlater ih =>
    have hleads := h.read hr
    rw [hread] at hleads
    rw [System.awaitFrom, hread]
    simp only [hnext, dif_pos hlater]
    exact ih (hleads.deed (.wait next) rfl).settle
  | case4 now s t hread next hnext hlater =>
    have hleads := h.read hr
    rw [hread] at hleads
    rw [System.awaitFrom, hread]
    simp only [hnext, dif_neg hlater]
    exact hleads.deed (.wait deadline) rfl

/-- Somebody waits for a stream by deeds. -/
theorem leads_await (hr : r ∈ sc.streams) (ms : Nat) : sc.Leads (sc.system.await r ms).2 :=
  (Leads.refl sc).settle.awaitFrom hr _ _

end Scene

end Node

end PhasedGrid
