import PhasedGrid.Peer.Network
import PhasedGrid.Proofs.Tables

/-!
What the readers of a network get. A subscription is open from its joining until its node leaves or
its reader hangs up. Whatever else happens on the network, what is taken out of its inbox and what
still waits there are, one after the other, the messages that were delivered to its node while it
was open and that name one of its handlers.
-/

namespace PhasedGrid.Peer

set_option autoImplicit false

/-- Whether the first segment of some key is one of the given handlers. -/
def Message.isFor (handlers : List String) (m : Message) : Bool :=
  m.entries.any fun e => handlers.contains (Text.upTo '.' e.1)

namespace Network

/-- What is done with a network. Endpoints and readers go by the number of their subscription. -/
inductive Use where
  | join (uuid : String) (keys : List String)
  | leave (uuid : String)
  | deliver (receiver : String) (message : Message)
  | send (endpoint : Nat) (receiver : String) (message : Message)
  | read (number : Nat)
  | drain (number : Nat)
  | hangUp (number : Nat)

inductive Event where
  | joined (uuid : String) (keys : List String)
  | left (uuid : String)
  | delivered (receiver : String) (message : Message) (taken : Bool)
  | received (number : Nat) (message : Message)
  | hungUp (number : Nat) (discarded : List Message)

namespace Event

/-- Whether an event ends a subscription. -/
def ends (uuid : String) (number : Nat) : Event → Bool
  | .left u => u = uuid
  | .hungUp k _ => k = number
  | _ => false

/-- The message that is delivered to a node for some of its handlers. -/
def brings? (uuid : String) (handlers : List String) : Event → Option Message
  | .delivered receiver m _ => if receiver = uuid ∧ m.isFor handlers then some m else none
  | _ => none

/-- The messages that a reader takes out of its inbox, or throws away with it. -/
def removed (number : Nat) : Event → List Message
  | .received k m => if k = number then [m] else []
  | .hungUp k ms => if k = number then ms else []
  | _ => []

end Event

def gone (number : Nat) (events : List Event) : List Message :=
  events.flatMap (Event.removed number)

/-- The messages for a subscription up to its end. -/
def due (uuid : String) (handlers : List String) (number : Nat) (events : List Event) :
    List Message :=
  (events.takeWhile fun e => !e.ends uuid number).filterMap (Event.brings? uuid handlers)

/-- Delivers a message, and tells whether anybody takes it. -/
def convey (n : Network) (receiver : String) (m : Message) : Network × List Event :=
  (n.deliver receiver m, [.delivered receiver m (n.reaches receiver m)])

def use (n : Network) : Use → Network × List Event
  | .join uuid keys => (n.join uuid keys, [.joined uuid keys])
  | .leave uuid => (n.leave uuid, [.left uuid])
  | .deliver receiver m => n.convey receiver m
  | .send endpoint receiver m =>
    match n.subscriptions[endpoint]? with
    | some s => n.convey receiver (stamp s.uuid m)
    | none => (n, [])
  | .read number =>
    match n.next? number with
    | some (m, next) => (next, [.received number m])
    | none => (n, [])
  | .drain number => ((n.drain number).2, (n.drain number).1.map (.received number))
  | .hangUp number => (n.hangUp number, [.hungUp number (n.waiting number)])

def after (n : Network) (uses : List Use) : Network := uses.foldl (fun n u => (n.use u).1) n

def history (n : Network) : List Use → List Event
  | [] => []
  | u :: rest => (n.use u).2 ++ (n.use u).1.history rest

def Use.joins : Use → Bool
  | .join _ _ => true
  | _ => false

/-- The number of subscriptions that come about. -/
def joinings (uses : List Use) : Nat := uses.countP Use.joins

theorem Use.joins_iff {u : Use} : u.joins ↔ ∃ uuid keys, u = .join uuid keys := by
  constructor
  · intro h
    cases u with
    | join uuid keys => exact ⟨uuid, keys, rfl⟩
    | _ => cases h
  · rintro ⟨uuid, keys, rfl⟩
    rfl

theorem joinings_cons (u : Use) (rest : List Use) :
    joinings (u :: rest) = joinings rest + if u.joins then 1 else 0 := List.countP_cons

section Lists

variable {uuid : String} {handlers : List String} {number : Nat} {es fs : List Event}

@[simp] theorem gone_append : gone number (es ++ fs) = gone number es ++ gone number fs :=
  List.flatMap_append

theorem due_append : due uuid handlers number (es ++ fs) =
    due uuid handlers number es ++
      if es.any (Event.ends uuid number) then [] else due uuid handlers number fs := by
  unfold due
  induction es with
  | nil => simp
  | cons e rest ih =>
    by_cases he : e.ends uuid number
    · simp [he]
    · simp only [List.cons_append, List.takeWhile_cons, he, List.any_cons, Bool.not_false, if_true,
        Bool.false_or]
      rw [List.filterMap_cons, List.filterMap_cons]
      cases e.brings? uuid handlers <;> simp [ih]

theorem due_of_not_brings (h : ∀ e ∈ es, e.brings? uuid handlers = none) :
    due uuid handlers number es = [] := by
  unfold due
  rw [List.filterMap_eq_nil_iff]
  intro e he
  apply h e
  exact (List.takeWhile_sublist _).subset he

theorem gone_received (k : Nat) (ms : List Message) :
    gone number (ms.map (.received k)) = if k = number then ms else [] := by
  unfold gone
  induction ms with
  | nil => simp
  | cons m rest ih => by_cases hk : k = number <;> simp_all [Event.removed]

end Lists

end Network

namespace Subscription

open Network

/-- Whether a subscription can still get messages. -/
def isOpen (s : Subscription) : Bool := s.routed && s.listening

variable {s t u : Subscription} {number : Nat} {es fs : List Event}

theorem serves_eq (s : Subscription) (m : Message) : s.serves m = m.isFor s.keys := by
  rw [Bool.eq_iff_iff]
  unfold serves Message.isFor Message.handlerKeys
  simp only [List.any_eq_true, List.contains_iff_mem, Ordered.mem_ofList, Table.keys, List.mem_map]
  constructor
  · rintro ⟨key, hkey, -, ⟨e, he, rfl⟩, rfl⟩
    exact ⟨e, he, hkey⟩
  · rintro ⟨e, he, hkey⟩
    exact ⟨_, hkey, e.1, ⟨e, he, rfl⟩, rfl⟩

theorem takes_eq (s : Subscription) (receiver : String) (m : Message) :
    s.takes receiver m = (s.isOpen && decide (receiver = s.uuid ∧ m.isFor s.keys)) := by
  unfold takes isOpen
  rw [s.serves_eq m]
  by_cases hr : receiver = s.uuid
  · cases s.routed <;> cases s.listening <;> simp [hr]
  · simp [hr, Ne.symm hr]

/-- What becomes of a subscription in the course of some events. -/
structure Follows (s : Subscription) (number : Nat) (es : List Event) (t : Subscription) : Prop where
  uuid : t.uuid = s.uuid
  keys : t.keys = s.keys
  isOpen : t.isOpen = (s.isOpen && !es.any (Event.ends s.uuid number))
  inbox : gone number es ++ t.inbox =
    s.inbox ++ if s.isOpen then due s.uuid s.keys number es else []

theorem Follows.refl (s : Subscription) (number : Nat) : Follows s number [] s := by
  constructor
  · rfl
  · rfl
  · simp
  · simp [gone, due]

theorem Follows.trans (h : Follows s number es t) (k : Follows t number fs u) :
    Follows s number (es ++ fs) u := by
  have hinbox := k.inbox
  rw [h.isOpen, h.uuid, h.keys] at hinbox
  constructor
  · rw [k.uuid, h.uuid]
  · rw [k.keys, h.keys]
  · rw [k.isOpen, h.isOpen, h.uuid, List.any_append, Bool.not_or, Bool.and_assoc]
  · rw [gone_append, List.append_assoc, hinbox, ← List.append_assoc, h.inbox, List.append_assoc,
      due_append]
    congr 1
    cases s.isOpen <;> cases es.any (Event.ends s.uuid number) <;> simp

/-- Events that neither end a subscription nor concern its inbox. -/
theorem Follows.of_spared (he : ∀ e ∈ es, e.ends s.uuid number = false ∧
    e.brings? s.uuid s.keys = none ∧ e.removed number = []) : Follows s number es s := by
  have hgone : gone number es = [] := by
    unfold gone
    rw [List.flatMap_eq_nil_iff]
    intro e hm
    exact (he e hm).2.2
  constructor
  · rfl
  · rfl
  · have hany : es.any (Event.ends s.uuid number) = false := by
      rw [List.any_eq_false]
      intro e hm
      simp [(he e hm).1]
    simp [hany]
  · rw [hgone, due_of_not_brings fun e hm => (he e hm).2.1]
    simp

theorem offer_follows (s : Subscription) (number : Nat) (receiver : String) (m : Message)
    (taken : Bool) : Follows s number [.delivered receiver m taken] (s.offer receiver m) := by
  unfold offer
  rw [takes_eq]
  constructor
  · split <;> rfl
  · split <;> rfl
  · split <;> simp [isOpen, Event.ends]
  · by_cases h : receiver = s.uuid ∧ m.isFor s.keys
    · cases hs : s.isOpen <;> simp [h, gone, due, Event.ends, Event.brings?, Event.removed]
    · cases hs : s.isOpen <;> simp [h, gone, due, Event.ends, Event.brings?, Event.removed]

end Subscription

namespace Network

open Subscription (Follows)

variable {n : Network} {k : Nat} {s : Subscription}

theorem convey_follows (h : n.subscriptions[k]? = some s) (receiver : String) (m : Message) :
    ∃ t, (n.convey receiver m).1.subscriptions[k]? = some t ∧
      Follows s k (n.convey receiver m).2 t := by
  refine ⟨s.offer receiver m, ?_, s.offer_follows k receiver m _⟩
  unfold convey deliver
  rw [List.getElem?_map, h]
  rfl

theorem setInbox_subscription (h : n.subscriptions[k]? = some s) (number : Nat)
    (inbox : List Message) : (n.setInbox number inbox).subscriptions[k]? =
      some (if number = k then { s with inbox } else s) := by
  unfold setInbox
  rw [List.getElem?_modify, h]
  by_cases hk : number = k <;> simp [hk]

theorem waiting_eq (h : n.subscriptions[k]? = some s) : n.waiting k = s.inbox := by
  unfold waiting
  rw [h]
  rfl

/-- Messages that are taken out of an inbox from the front. -/
theorem setInbox_follows (h : n.subscriptions[k]? = some s) {number : Nat} {ms rest : List Message}
    (hw : n.waiting number = ms ++ rest) :
    ∃ t, (n.setInbox number rest).subscriptions[k]? = some t ∧
      Follows s k (ms.map (.received number)) t := by
  refine ⟨_, setInbox_subscription h number rest, ?_⟩
  have hends : ∀ u, (ms.map (Event.received number)).any (Event.ends u k) = false := by
    intro u
    simp [Event.ends]
  have hdue : ∀ u hs, due u hs k (ms.map (Event.received number)) = [] := by
    intro u hs
    apply due_of_not_brings
    simp [Event.brings?]
  by_cases hk : number = k
  · subst hk
    rw [waiting_eq h] at hw
    constructor <;> simp [Subscription.isOpen, hends, hdue, gone_received, hw]
  · constructor <;> simp [Subscription.isOpen, hends, hdue, gone_received, hk]

/-- Whatever is done with a network, a subscription goes on as the events tell. -/
theorem use_follows (h : n.subscriptions[k]? = some s) (u : Use) :
    ∃ t, (n.use u).1.subscriptions[k]? = some t ∧ Follows s k (n.use u).2 t := by
  cases u with
  | join uuid keys =>
    refine ⟨s, ?_, Follows.of_spared (by simp [use, Event.ends, Event.brings?, Event.removed])⟩
    have hk := (List.getElem?_eq_some_iff.mp h).1
    change (n.subscriptions ++ [_])[k]? = some s
    rw [List.getElem?_append_left hk, h]
  | leave uuid =>
    have hsub : (n.leave uuid).subscriptions[k]? =
        some (if s.uuid = uuid then { s with routed := false } else s) := by
      unfold leave
      rw [List.getElem?_map, h]
      rfl
    refine ⟨_, hsub, ?_⟩
    by_cases hu : s.uuid = uuid
    · constructor <;> simp [use, hu, Subscription.isOpen, Event.ends, gone, due, Event.removed]
    · refine (if_neg (c := s.uuid = uuid) hu).symm ▸ Follows.of_spared ?_
      simp [use, Event.ends, Event.brings?, Event.removed, Ne.symm hu]
  | deliver receiver m => exact convey_follows h receiver m
  | send endpoint receiver m =>
    simp only [use]
    cases n.subscriptions[endpoint]? with
    | none => exact ⟨s, h, Follows.refl s k⟩
    | some e => exact convey_follows h receiver (stamp e.uuid m)
  | read number =>
    simp only [use, next?]
    cases hw : n.waiting number with
    | nil => exact ⟨s, h, Follows.refl s k⟩
    | cons m rest =>
      have hfront : n.waiting number = [m] ++ rest := hw
      exact setInbox_follows h hfront
  | drain number =>
    apply setInbox_follows h
    exact (List.append_nil _).symm
  | hangUp number =>
    have hsub : (n.hangUp number).subscriptions[k]? =
        some (if number = k then { s with listening := false, inbox := [] } else s) := by
      unfold hangUp
      rw [List.getElem?_modify, h]
      by_cases hk : number = k <;> simp [hk]
    refine ⟨_, hsub, ?_⟩
    by_cases hk : number = k
    · subst hk
      constructor <;>
        simp [use, Subscription.isOpen, Event.ends, gone, due, Event.removed, waiting_eq h]
    · refine (if_neg (c := number = k) hk).symm ▸ Follows.of_spared ?_
      simp [use, Event.ends, Event.brings?, Event.removed, hk]

theorem after_follows (h : n.subscriptions[k]? = some s) (uses : List Use) :
    ∃ t, (n.after uses).subscriptions[k]? = some t ∧ Follows s k (n.history uses) t := by
  induction uses generalizing n s with
  | nil => exact ⟨s, h, Follows.refl s k⟩
  | cons u rest ih =>
    obtain ⟨t, ht, hfirst⟩ := use_follows h u
    obtain ⟨v, hv, hrest⟩ := ih ht
    exact ⟨v, hv, hfirst.trans hrest⟩

theorem size_use (n : Network) (u : Use) : (n.use u).1.size = n.size + if u.joins then 1 else 0 := by
  have hconvey : ∀ receiver m, (n.convey receiver m).1.size = n.size := by
    intro receiver m
    simp [convey, deliver, size]
  cases u with
  | join uuid keys => simp [use, join, size, Use.joins]
  | leave uuid => simp [use, leave, size, Use.joins]
  | deliver receiver m => exact hconvey receiver m
  | send endpoint receiver m =>
    simp only [use]
    cases n.subscriptions[endpoint]? with
    | none => rfl
    | some e => exact hconvey receiver (stamp e.uuid m)
  | read number =>
    simp only [use, next?]
    cases n.waiting number <;> simp [setInbox, size, Use.joins]
  | drain number => simp [use, drain, setInbox, size, Use.joins]
  | hangUp number => simp [use, hangUp, size, Use.joins]

theorem size_after (n : Network) (uses : List Use) :
    (n.after uses).size = n.size + joinings uses := by
  induction uses generalizing n with
  | nil => rfl
  | cons u rest ih =>
    change ((n.use u).1.after rest).size = _
    rw [ih, size_use, joinings_cons]
    omega

theorem after_append (n : Network) (uses later : List Use) :
    n.after (uses ++ later) = (n.after uses).after later := List.foldl_append

/-- A subscription and what became of it since it joined. -/
theorem joined_follows (earlier : List Use) (uuid : String) (keys : List String)
    (later : List Use) : ∃ t,
      (after {} (earlier ++ .join uuid keys :: later)).subscriptions[joinings earlier]? = some t ∧
      Follows ⟨uuid, keys, true, true, []⟩ (joinings earlier)
        ((after {} (earlier ++ [.join uuid keys])).history later) t := by
  have hsub : (after {} (earlier ++ [.join uuid keys])).subscriptions[joinings earlier]? =
      some ⟨uuid, keys, true, true, []⟩ := by
    have hsize := size_after {} earlier
    rw [after_append]
    change ((after {} earlier).subscriptions ++ [_])[joinings earlier]? = _
    have hlength : joinings earlier = (after {} earlier).subscriptions.length := by
      rw [← size, hsize]
      simp [size]
    rw [hlength, List.getElem?_concat_length]
  have h := after_follows hsub later
  rw [← after_append, List.append_assoc] at h
  exact h

/-- Every subscription has come about by a joining. -/
theorem exists_joining {uses : List Use} {number : Nat} (h : number < joinings uses) :
    ∃ earlier uuid keys later, uses = earlier ++ .join uuid keys :: later ∧
      joinings earlier = number := by
  induction uses generalizing number with
  | nil => exact absurd h (Nat.not_lt_zero number)
  | cons u rest ih =>
    rw [joinings_cons] at h
    by_cases hu : u.joins
    · rw [if_pos hu] at h
      cases number with
      | zero =>
        obtain ⟨uuid, keys, rfl⟩ := Use.joins_iff.mp hu
        exact ⟨[], uuid, keys, rest, rfl, rfl⟩
      | succ number =>
        obtain ⟨earlier, uuid, keys, later, rfl, hj⟩ := ih (Nat.lt_of_succ_lt_succ h)
        refine ⟨u :: earlier, uuid, keys, later, rfl, ?_⟩
        rw [joinings_cons, hj, if_pos hu]
    · rw [if_neg hu] at h
      obtain ⟨earlier, uuid, keys, later, rfl, hj⟩ := ih h
      refine ⟨u :: earlier, uuid, keys, later, rfl, ?_⟩
      rw [joinings_cons, hj, if_neg hu, Nat.add_zero]

/-- The network tells that a message is taken exactly if it is for an open subscription of its
receiver. -/
theorem reaches_iff (uses : List Use) (receiver : String) (m : Message) :
    (after {} uses).reaches receiver m ↔ ∃ earlier keys later,
      uses = earlier ++ .join receiver keys :: later ∧ m.isFor keys ∧
      ∀ e ∈ (after {} (earlier ++ [.join receiver keys])).history later,
        e.ends receiver (joinings earlier) = false := by
  unfold reaches
  rw [List.any_eq_true]
  constructor
  · rintro ⟨s, hs, htakes⟩
    obtain ⟨k, hk⟩ := List.mem_iff_getElem?.mp hs
    have hlt := (List.getElem?_eq_some_iff.mp hk).1
    change k < (after {} uses).size at hlt
    rw [size_after, size, List.length_nil, Nat.zero_add] at hlt
    obtain ⟨earlier, uuid, keys, later, rfl, rfl⟩ := exists_joining hlt
    obtain ⟨t, ht, hfollows⟩ := joined_follows earlier uuid keys later
    obtain rfl := Option.some.inj (hk.symm.trans ht)
    rw [Subscription.takes_eq, hfollows.isOpen, hfollows.uuid, hfollows.keys] at htakes
    simp only [Bool.and_eq_true, decide_eq_true_eq, Bool.not_eq_true', List.any_eq_false] at htakes
    obtain ⟨⟨-, hends⟩, rfl, hfor⟩ := htakes
    refine ⟨earlier, keys, later, rfl, hfor, ?_⟩
    intro e he
    exact Bool.eq_false_iff.mpr (hends e he)
  · rintro ⟨earlier, keys, later, rfl, hfor, hends⟩
    obtain ⟨t, ht, hfollows⟩ := joined_follows earlier receiver keys later
    refine ⟨t, List.mem_of_getElem? ht, ?_⟩
    have hany := List.any_eq_false.mpr fun e he => Bool.eq_false_iff.mp (hends e he)
    rw [Subscription.takes_eq, hfollows.isOpen, hfollows.uuid, hfollows.keys]
    simp only [hany, hfor]
    rfl

/-- An endpoint sends in the name of the node that it was made for. -/
theorem use_send (earlier : List Use) (uuid : String) (keys : List String) (later : List Use)
    (receiver : String) (m : Message) :
    (after {} (earlier ++ .join uuid keys :: later)).use (.send (joinings earlier) receiver m) =
      (after {} (earlier ++ .join uuid keys :: later)).convey receiver { m with source := uuid } := by
  obtain ⟨t, ht, hfollows⟩ := joined_follows earlier uuid keys later
  simp only [use, ht]
  rw [hfollows.uuid]
  rfl

theorem waiting_leave (n : Network) (uuid : String) (number : Nat) :
    (n.leave uuid).waiting number = n.waiting number := by
  unfold waiting leave
  rw [List.getElem?_map]
  cases n.subscriptions[number]? with
  | none => rfl
  | some s => by_cases hu : s.uuid = uuid <;> simp [hu]

/-- A subscription gets what is delivered to its node while it is open and names one of its
handlers: of these messages, in their order, each one has been received, has been thrown away by
hanging up, or still waits, also when its node has left. A delivery tells whether any open
subscription gets the message, and what is sent through an endpoint names the endpoint's node. -/
theorem deliveries_exact :
    (∀ earlier uuid keys later,
      let number := joinings earlier
      let events := (after {} (earlier ++ [.join uuid keys])).history later
      gone number events ++ (after {} (earlier ++ .join uuid keys :: later)).waiting number =
        due uuid keys number events) ∧
    (∀ uses receiver m, ∃ taken,
      ((after {} uses).use (.deliver receiver m)).2 = [.delivered receiver m taken] ∧
      (taken ↔ ∃ earlier keys later, uses = earlier ++ .join receiver keys :: later ∧
        m.isFor keys ∧ ∀ e ∈ (after {} (earlier ++ [.join receiver keys])).history later,
          e.ends receiver (joinings earlier) = false)) ∧
    (∀ earlier uuid keys later receiver m,
      let n := after {} (earlier ++ .join uuid keys :: later)
      n.use (.send (joinings earlier) receiver m) =
        n.use (.deliver receiver { m with source := uuid })) ∧
    ∀ uses uuid number,
      ((after {} uses).use (.leave uuid)).1.waiting number = (after {} uses).waiting number := by
  refine ⟨?_, ?_, use_send, ?_⟩
  · intro earlier uuid keys later number events
    obtain ⟨t, ht, hfollows⟩ := joined_follows earlier uuid keys later
    rw [waiting_eq ht]
    exact hfollows.inbox
  · intro uses receiver m
    exact ⟨_, rfl, reaches_iff uses receiver m⟩
  · intro uses uuid number
    exact waiting_leave _ uuid number

end Network

end PhasedGrid.Peer
