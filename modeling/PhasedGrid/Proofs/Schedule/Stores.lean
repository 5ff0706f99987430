import PhasedGrid.Proofs.Tables
import PhasedGrid.Schedule.Queues
import PhasedGrid.Schedule.Timers

/-!
The places where a job waits inside the scheduler. An operation on the queues or on the timers moves
one job at most; the tables they are kept in stay in the order of their keys.
-/

namespace PhasedGrid.Schedule

set_option autoImplicit false

variable {α : Type}

namespace Queues

def Sorted (q : Queues α) : Prop := Table.Sorted q.byModule

variable {q q' : Queues α} {m : String} {x : α}

theorem waiting_push (q : Queues α) (m m' : String) (x : α) :
    (q.push m x).waiting m' = if m = m' then q.waiting m ++ [x] else q.waiting m' := by
  unfold push waiting
  rw [Table.get?_insert]
  split <;> rfl

theorem Sorted.push (h : q.Sorted) (m : String) (x : α) : (q.push m x).Sorted :=
  Table.Sorted.insert h m _

/-- Writing the queue of a module exchanges its jobs and no others. -/
theorem Sorted.exchange (h : q.Sorted) (m : String) (xs : List α) :
    ∃ rest, q.jobs.Perm (q.waiting m ++ rest) ∧
      (Queues.mk (Table.insert m xs q.byModule)).jobs.Perm (xs ++ rest) := by
  obtain ⟨rest, hold, hnew⟩ := Table.Sorted.flatMap_insert h m xs id
  refine ⟨rest, ?_, hnew⟩
  rw [Option.map_id] at hold
  exact hold

theorem Sorted.jobs_push (h : q.Sorted) (m : String) (x : α) :
    (q.push m x).jobs.Perm (x :: q.jobs) := by
  obtain ⟨rest, hold, hnew⟩ := h.exchange m (q.waiting m ++ [x])
  refine hnew.trans ?_
  rw [List.append_assoc]
  exact List.perm_middle.trans (hold.symm.cons x)

theorem pop?_eq_some (h : q.pop? m = some (x, q')) :
    ∃ rest, q.waiting m = x :: rest ∧ q' = ⟨Table.insert m rest q.byModule⟩ := by
  unfold pop? at h
  split at h
  · cases h
  · rename_i rest hw
    obtain ⟨rfl, rfl⟩ := Prod.mk.inj (Option.some.inj h)
    exact ⟨rest, hw, rfl⟩

theorem waiting_pop (h : q.pop? m = some (x, q')) (m' : String) :
    q.waiting m' = (if m = m' then [x] else []) ++ q'.waiting m' := by
  obtain ⟨rest, hw, rfl⟩ := pop?_eq_some h
  unfold waiting at hw ⊢
  rw [Table.get?_insert]
  split
  · rename_i hm
    rw [← hm, hw]
    rfl
  · rfl

theorem Sorted.pop (hq : q.Sorted) (h : q.pop? m = some (x, q')) : q'.Sorted := by
  obtain ⟨rest, -, rfl⟩ := pop?_eq_some h
  exact Table.Sorted.insert hq m rest

theorem Sorted.jobs_pop (hq : q.Sorted) (h : q.pop? m = some (x, q')) :
    q.jobs.Perm (x :: q'.jobs) := by
  obtain ⟨rest, hw, rfl⟩ := pop?_eq_some h
  obtain ⟨others, hold, hnew⟩ := hq.exchange m rest
  rw [hw] at hold
  exact hold.trans (hnew.symm.cons x)

theorem mem_jobs_of_waiting (q : Queues α) (h : x ∈ q.waiting m) : x ∈ q.jobs := by
  unfold waiting at h
  cases hg : Table.get? m q.byModule with
  | none =>
    rw [hg] at h
    cases h
  | some xs =>
    rw [hg] at h
    exact List.mem_flatMap.mpr ⟨(m, xs), Table.mem_of_get? hg, h⟩

end Queues

namespace Timers

def Sorted (t : Timers α) : Prop := Table.Sorted t.slots

/-- What is pending on a timer. -/
def pending? (t : Timers α) (h : Nat) : Option (Pending α) :=
  (Table.get? h t.slots).bind Slot.pending

variable {t t' : Timers α} {h : Nat} {x : α}

theorem mem_due {now : Nat} {s : Sleeper} : s ∈ due t now ↔ s ∈ t.sleepers ∧ s.due ≤ now := by
  simp [due]

theorem pending?_of_slots {s : Slot α} (h' : t'.slots = Table.insert h s t.slots) (k : Nat) :
    t'.pending? k = if h = k then s.pending else t.pending? k := by
  unfold pending?
  rw [h', Table.get?_insert]
  split <;> rfl

theorem owner?_of_slots {s : Slot α} (h' : t'.slots = Table.insert h s t.slots) (k : Nat) :
    t'.owner? k = if h = k then some s.owner else t.owner? k := by
  unfold owner?
  rw [h', Table.get?_insert]
  split <;> rfl

/-- Writing the slot of a known timer does not change whose it is. -/
theorem owner?_of_known {s slot : Slot α} (h' : t'.slots = Table.insert h s t.slots)
    (hk : Table.get? h t.slots = some slot) (ho : s.owner = slot.owner) (k : Nat) :
    t'.owner? k = t.owner? k := by
  rw [owner?_of_slots h']
  split
  · rename_i hkey
    rw [← hkey, owner?, hk, ho]
    rfl
  · rfl

theorem Sorted.insert (ht : t.Sorted) (h : Nat) (owner : String) : (t.insert h owner).Sorted :=
  Table.Sorted.insert ht h _

theorem payloads_eq (t : Timers α) :
    t.payloads = t.slots.flatMap fun e => (e.2.pending.map Pending.payload).toList :=
  List.filterMap_eq_flatMap_toList ..

/-- Writing a slot exchanges what is pending on it and nothing else. -/
theorem Sorted.exchange (ht : t.Sorted) (t' : Timers α) {s : Slot α}
    (h' : t'.slots = Table.insert h s t.slots) :
    t'.Sorted ∧ ∃ rest,
      t.payloads.Perm (((t.pending? h).map Pending.payload).toList ++ rest) ∧
      t'.payloads.Perm ((s.pending.map Pending.payload).toList ++ rest) := by
  obtain ⟨rest, hold, hnew⟩ :=
    Table.Sorted.flatMap_insert ht h s fun s => (s.pending.map Pending.payload).toList
  refine ⟨?_, rest, ?_, ?_⟩
  · unfold Sorted
    rw [h']
    exact Table.Sorted.insert ht h s
  · rw [payloads_eq, pending?]
    refine hold.trans (.of_eq ?_)
    cases Table.get? h t.slots <;> rfl
  · rw [payloads_eq, h']
    exact hnew

theorem Sorted.payloads_insert (ht : t.Sorted) (hnew : Table.get? h t.slots = none)
    (owner : String) : (t.insert h owner).payloads.Perm t.payloads := by
  obtain ⟨-, rest, hold, hput⟩ := ht.exchange (t.insert h owner) rfl
  rw [pending?, hnew] at hold
  exact hput.trans hold.symm

/-- `slot` is the slot of a timer that is armed for `d`, and `t'` what becomes of the timers. -/
structure Rearms (t : Timers α) (now h d : Nat) (x : α) (slot : Slot α) (t' : Timers α) : Prop where
  known : Table.get? h t.slots = some slot
  slots : t'.slots =
    Table.insert h ⟨slot.owner, slot.generation + 1, some ⟨x, t.armings⟩⟩ t.slots
  sleepers : ∀ s ∈ t'.sleepers,
    s ∈ t.sleepers ∨ s = ⟨t.armings, now + d, ⟨h, slot.generation + 1⟩⟩

theorem Rearms.get?_self {now d : Nat} {slot : Slot α} (ha : t.Rearms now h d x slot t') :
    Table.get? h t'.slots = some ⟨slot.owner, slot.generation + 1, some ⟨x, t.armings⟩⟩ := by
  rw [ha.slots, Table.get?_insert, if_pos rfl]

theorem Rearms.handle {now d : Nat} {slot : Slot α} (ha : t.Rearms now h d x slot t')
    {s : Sleeper} (hs : s ∈ t'.sleepers) : s ∈ t.sleepers ∨ s.report.handle = h := by
  rcases ha.sleepers s hs with hold | rfl
  · exact .inl hold
  · exact .inr rfl

/-- Only a timer without a slot is unknown; what was pending on a slot is handed back. -/
theorem arm_cases (t : Timers α) (now h d : Nat) (x : α) :
    (Table.get? h t.slots = none ∧ (t.arm now h d x).1 = .unknown) ∨
      ∃ slot, t.Rearms now h d x slot (t.arm now h d x).2 ∧
        (t.arm now h d x).1 =
          slot.pending.elim .fresh fun old => .replaced slot.owner old.payload := by
  unfold arm
  cases hg : Table.get? h t.slots with
  | none => exact .inl ⟨rfl, rfl⟩
  | some slot =>
    right
    obtain ⟨owner, generation, pending⟩ := slot
    cases pending with
    | none =>
      refine ⟨_, ⟨hg, rfl, fun s hs => ?_⟩, rfl⟩
      exact (List.mem_append.mp hs).imp id List.mem_singleton.mp
    | some old =>
      refine ⟨_, ⟨hg, rfl, fun s hs => ?_⟩, rfl⟩
      exact (List.mem_append.mp (List.mem_filter.mp hs).1).imp id List.mem_singleton.mp

section Arm

variable {now d : Nat}

theorem arm_unknown (ha : t.arm now h d x = (.unknown, t')) : Table.get? h t.slots = none := by
  rcases t.arm_cases now h d x with ⟨hnone, -⟩ | ⟨slot, -, harmed⟩
  · exact hnone
  · rw [ha] at harmed
    cases hp : slot.pending <;> rw [hp] at harmed <;> cases harmed

theorem arm_fresh (ha : t.arm now h d x = (.fresh, t')) :
    ∃ slot, t.Rearms now h d x slot t' ∧ slot.pending = none := by
  rcases t.arm_cases now h d x with ⟨-, harmed⟩ | ⟨slot, hslot, harmed⟩ <;> rw [ha] at harmed
  · cases harmed
  · rw [ha] at hslot
    refine ⟨slot, hslot, ?_⟩
    cases hp : slot.pending with
    | none => rfl
    | some old =>
      rw [hp] at harmed
      cases harmed

theorem arm_replaced {owner : String} {old : α} (ha : t.arm now h d x = (.replaced owner old, t')) :
    ∃ slot p, t.Rearms now h d x slot t' ∧ slot.pending = some p ∧ slot.owner = owner ∧
      p.payload = old := by
  rcases t.arm_cases now h d x with ⟨-, harmed⟩ | ⟨slot, hslot, harmed⟩ <;> rw [ha] at harmed
  · cases harmed
  · rw [ha] at hslot
    cases hp : slot.pending with
    | none =>
      rw [hp] at harmed
      cases harmed
    | some p =>
      rw [hp] at harmed
      obtain ⟨rfl, rfl⟩ := Armed.replaced.inj harmed
      exact ⟨slot, p, hslot, hp, rfl, rfl⟩

end Arm

/-- Arming takes in the new job and hands out the one that was pending. -/
theorem Rearms.payloads {now d : Nat} {slot : Slot α} (ha : t.Rearms now h d x slot t')
    (ht : t.Sorted) :
    t'.Sorted ∧
      ((slot.pending.map Pending.payload).toList ++ t'.payloads).Perm (x :: t.payloads) := by
  obtain ⟨hsorted, rest, hold, hnew⟩ := ht.exchange t' ha.slots
  refine ⟨hsorted, ((hnew.append_left _).trans ?_).trans (hold.symm.cons x)⟩
  rw [pending?, ha.known]
  exact List.perm_middle

theorem fire_eq_some {r : Report} {owner : String} (hf : t.fire r = (some (owner, x), t')) :
    ∃ slot p, Table.get? r.handle t.slots = some slot ∧ slot.generation = r.generation ∧
      slot.pending = some p ∧ slot.owner = owner ∧ p.payload = x ∧
      t' = { t with slots := Table.insert r.handle { slot with pending := none } t.slots } := by
  unfold fire at hf
  split at hf
  · cases hf
  rename_i slot hslot
  split at hf
  · rename_i hg
    split at hf
    · cases hf
    · rename_i p hp
      obtain ⟨hx, rfl⟩ := Prod.mk.inj hf
      obtain ⟨rfl, rfl⟩ := Prod.mk.inj (Option.some.inj hx)
      exact ⟨slot, p, hslot, hg, hp, rfl, rfl, rfl⟩
  · cases hf

theorem Sorted.payloads_fire {r : Report} {owner : String} (ht : t.Sorted)
    (hf : t.fire r = (some (owner, x), t')) : t'.Sorted ∧ t.payloads.Perm (x :: t'.payloads) := by
  obtain ⟨slot, p, hslot, -, hp, -, rfl, rfl⟩ := fire_eq_some hf
  obtain ⟨hsorted, rest, hold, hnew⟩ := ht.exchange { t with
    slots := Table.insert r.handle { slot with pending := none } t.slots } rfl
  refine ⟨hsorted, hold.trans ?_⟩
  rw [pending?, hslot]
  dsimp only [Option.bind_some]
  rw [hp]
  exact hnew.symm.cons _

end Timers

end PhasedGrid.Schedule
