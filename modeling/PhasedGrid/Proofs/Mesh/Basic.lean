import PhasedGrid.Proofs.Snapshot.Reading
import PhasedGrid.Proofs.Snapshot.Turns

/-!
Collectors that exchange messages, with one channel for each sender and receiver. Nothing is lost
or doubled on a channel; which letter of a channel is delivered next is part of an event, so that
first-in-first-out delivery is one way to run a mesh among others.

Besides what the nodes hold, a mesh remembers the readings that each node has taken, the senders
whose markers it has handled, and with each letter the versions that its sender had recorded when
it was sent. No node reads these.
-/

namespace PhasedGrid.Snapshot

set_option autoImplicit false

open PhasedGrid.Peer (Message Network)
open PhasedGrid.Schedule (TimerStatus)

/-- A message under way, and the versions that its sender had recorded before it was sent. -/
structure Letter where
  message : Message
  past : List Version
  deriving DecidableEq

/-- What the letter says to a collector, if anything. -/
def Letter.notice? (l : Letter) : Option Notice :=
  match Wire.read l.message with
  | .ok notice => notice
  | .error _ => none

/-- Whether the subscription of a collector takes a message. -/
def served (m : Message) : Bool := handlerKeys.any fun k => m.handlerKeys.contains k

/-- The letters that a node's effects put on its channel to a receiver. -/
def letters (sender : String) (past : List Version) (effects : List Effect) (receiver : String) :
    List Letter :=
  effects.filterMap fun
    | .send target m =>
      if target = receiver ∧ served m then some ⟨Network.stamp sender m, past⟩ else none
    | .arm _ => none

structure Mesh where
  nodes : List String
  agent : String → Agent
  /-- by sender and receiver, the oldest letter first -/
  channel : String → String → List Letter
  /-- by node, the readings it took and for which version, the latest first -/
  taken : String → List (Version × Float)
  /-- by node and version, the senders whose markers it handled, the latest first -/
  heard : String → Version → List String

inductive Event where
  | request (node module : String) (reading : Float)
  | timer (node : String) (status : TimerStatus)
  | payload (sender receiver value : String) (tag : Option Version)
  | receive (sender receiver : String) (position : Nat) (reading : Float)

namespace Mesh

/-- Nodes that have just been set up with each other as peers. -/
def start (nodes : List String) (policy : String → Policy) : Mesh where
  nodes
  agent b := Agent.new b (policy b) nodes
  channel _ _ := []
  taken _ := []
  heard _ _ := []

def past (σ : Mesh) (node : String) : List Version := (σ.taken node).map Prod.fst

/-- A node has acted: its next state, the reading it took if any, and what it sent. -/
def act (σ : Mesh) (node : String) (took : Option (Version × Float)) (next : Agent)
    (effects : List Effect) : Mesh :=
  { σ with
    agent := fun b => if b = node then next else σ.agent b
    channel := fun s r =>
      if s = node then σ.channel s r ++ letters node (σ.past node) effects r else σ.channel s r
    taken := fun b => if b = node then took.toList ++ σ.taken b else σ.taken b }

/-- A letter leaves its channel; a marker counts as heard. -/
def consume (σ : Mesh) (sender receiver : String) (position : Nat) (l : Letter) : Mesh :=
  { σ with
    channel := fun s r =>
      if s = sender ∧ r = receiver then (σ.channel s r).eraseIdx position else σ.channel s r
    heard := fun b v =>
      if b = receiver ∧ l.notice? = some (.marker v) then sender :: σ.heard b v else σ.heard b v }

def step (σ : Mesh) : Event → Mesh
  | .request node module reading =>
    let a := σ.agent node
    let next := a.request reading module
    σ.act node (some (a.nextVersion, reading)) next.1 next.2
  | .timer node status =>
    let next := (σ.agent node).onTimer status
    σ.act node none next.2.1 next.2.2
  | .payload sender receiver value tag =>
    let l : Letter := ⟨Network.stamp sender (Wire.payload sender value tag), σ.past sender⟩
    { σ with
      channel := fun s r =>
        if s = sender ∧ r = receiver then σ.channel s r ++ [l] else σ.channel s r }
  | .receive sender receiver position reading =>
    match (σ.channel sender receiver)[position]? with
    | none => σ
    | some l =>
      let a := σ.agent receiver
      let took := l.notice?.bind (a.meet l.message.source).takes?
      let next := a.handle reading l.message
      (σ.consume sender receiver position l).act receiver (took.map (·, reading)) next.2.1 next.2.2

/-- When an event can happen. Sequence numbers have 64 bits, and a payload is none of the kinds of
message that a collector knows. -/
def Enabled (σ : Mesh) : Event → Prop
  | .request node _ _ => node ∈ σ.nodes ∧ (σ.agent node).started < Decimal.maxU64
  | .timer node _ => node ∈ σ.nodes
  | .payload sender receiver value tag =>
    sender ∈ σ.nodes ∧ receiver ∈ σ.nodes ∧ value ∉ Wire.reserved ∧
      ∀ v ∈ tag, v.sequence ≤ Decimal.maxU64
  | .receive sender receiver position _ =>
    sender ∈ σ.nodes ∧ receiver ∈ σ.nodes ∧ position < (σ.channel sender receiver).length

instance (σ : Mesh) : DecidablePred σ.Enabled
  | .request node _ _ =>
    inferInstanceAs (Decidable (node ∈ σ.nodes ∧ (σ.agent node).started < Decimal.maxU64))
  | .timer node _ => inferInstanceAs (Decidable (node ∈ σ.nodes))
  | .payload sender receiver value tag =>
    inferInstanceAs (Decidable (sender ∈ σ.nodes ∧ receiver ∈ σ.nodes ∧ value ∉ Wire.reserved ∧
      ∀ v ∈ tag, v.sequence ≤ Decimal.maxU64))
  | .receive sender receiver position _ =>
    inferInstanceAs (Decidable (sender ∈ σ.nodes ∧ receiver ∈ σ.nodes ∧
      position < (σ.channel sender receiver).length))

def after (σ : Mesh) (es : List Event) : Mesh := es.foldl step σ

/-- Whether some events can happen one after the other and keep to a rule, which may look at the
state before each of them. -/
def Follows (rule : Mesh → Event → Prop) : Mesh → List Event → Prop
  | _, [] => True
  | σ, e :: es => σ.Enabled e ∧ rule σ e ∧ Follows rule (σ.step e) es

instance decidableFollows (rule : Mesh → Event → Prop) [∀ σ, DecidablePred (rule σ)] :
    ∀ σ es, Decidable (Follows rule σ es)
  | _, [] => isTrue trivial
  | σ, e :: es =>
    have := decidableFollows rule (σ.step e) es
    inferInstanceAs (Decidable (σ.Enabled e ∧ rule σ e ∧ Follows rule (σ.step e) es))

/-- The rule of first-in-first-out channels. -/
def InOrder (_ : Mesh) : Event → Prop
  | .receive _ _ position _ => position = 0
  | _ => True

instance (σ : Mesh) : DecidablePred (InOrder σ)
  | .receive _ _ position _ => inferInstanceAs (Decidable (position = 0))
  | .request _ _ _ => isTrue trivial
  | .timer _ _ => isTrue trivial
  | .payload _ _ _ _ => isTrue trivial

/-- Nothing is under way between the nodes. -/
def Drained (σ : Mesh) : Prop := ∀ s ∈ σ.nodes, ∀ r ∈ σ.nodes, σ.channel s r = []

instance : DecidablePred Drained := fun σ =>
  inferInstanceAs (Decidable (∀ s ∈ σ.nodes, ∀ r ∈ σ.nodes, σ.channel s r = []))

/-- A state that any events lead to. -/
def Reachable (σ : Mesh) : Prop :=
  ∃ nodes policy es, nodes.Nodup ∧ (start nodes policy).Follows (fun _ _ => True) es ∧
    σ = (start nodes policy).after es

def three : Mesh := start ["a", "b", "c"] fun _ => {}

theorem Follows.mono {rule rule' : Mesh → Event → Prop} (h : ∀ σ e, rule σ e → rule' σ e)
    {σ : Mesh} {es : List Event} (hf : σ.Follows rule es) : σ.Follows rule' es := by
  induction es generalizing σ with
  | nil => trivial
  | cons e es ih => exact ⟨hf.1, h σ e hf.2.1, ih hf.2.2⟩

theorem Follows.append {rule : Mesh → Event → Prop} {σ : Mesh} {es fs : List Event}
    (he : σ.Follows rule es) (hf : (σ.after es).Follows rule fs) : σ.Follows rule (es ++ fs) := by
  induction es generalizing σ with
  | nil => exact hf
  | cons e es ih => exact ⟨he.1, he.2.1, ih he.2.2 hf⟩

theorem nodes_step (σ : Mesh) (e : Event) : (σ.step e).nodes = σ.nodes := by
  cases e with
  | request node module reading => rfl
  | timer node status => rfl
  | payload sender receiver value tag => rfl
  | receive sender receiver position reading =>
    unfold step
    dsimp only
    split <;> rfl

theorem nodes_after (σ : Mesh) (es : List Event) : (σ.after es).nodes = σ.nodes := by
  induction es generalizing σ with
  | nil => rfl
  | cons e es ih => exact (ih (σ.step e)).trans (nodes_step σ e)

theorem after_append (σ : Mesh) (es fs : List Event) :
    σ.after (es ++ fs) = (σ.after es).after fs := List.foldl_append

theorem Reachable.initial {nodes : List String} (hn : nodes.Nodup) (policy : String → Policy) :
    (start nodes policy).Reachable := ⟨nodes, policy, [], hn, trivial, rfl⟩

theorem Reachable.of_start {nodes : List String} (hn : nodes.Nodup) {policy : String → Policy}
    {rule : Mesh → Event → Prop} {es : List Event} (hf : (start nodes policy).Follows rule es) :
    ((start nodes policy).after es).Reachable :=
  ⟨nodes, policy, es, hn, hf.mono fun _ _ _ => trivial, rfl⟩

/-- What every allowed event keeps holds after any number of them. -/
theorem Follows.invariant {rule : Mesh → Event → Prop} (Inv : Mesh → Prop)
    (h : ∀ σ e, Inv σ → σ.Enabled e → rule σ e → Inv (σ.step e)) {σ : Mesh} {es : List Event}
    (hf : σ.Follows rule es) (hi : Inv σ) : Inv (σ.after es) := by
  induction es generalizing σ with
  | nil => exact hi
  | cons e es ih => exact ih hf.2.2 (h σ e hi hf.1 hf.2.1)

end Mesh

end PhasedGrid.Snapshot
