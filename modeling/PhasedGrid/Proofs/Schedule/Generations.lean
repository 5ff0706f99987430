import Mathlib.Data.List.Induction
import Mathlib.Data.List.Nodup
import PhasedGrid.Proofs.Schedule.Stores

/-!
What the generations of the timers are for. However a bank of timers is used, every payload that an
arming put into it leaves it once at most: claimed by the report of its own arming, displaced by the
next arming of the same timer, or dropped when the bank is shut down. Reports may come in any order,
any number of times and at any time.
-/

namespace PhasedGrid.Schedule

set_option autoImplicit false

variable {α : Type}

/-- A payload and the report of the sleeper that was started for it. -/
structure Timers.Arming (α : Type) where
  report : Report
  payload : α
  deriving DecidableEq, Repr

/-- What is pending on a timer, with the report that claims it. -/
def Slot.arming? (s : Slot α) (handle : Nat) : Option (Timers.Arming α) :=
  s.pending.map fun p => ⟨⟨handle, s.generation⟩, p.payload⟩

namespace Timers

/-- What is done with a bank of timers, the passing of time included. -/
inductive Use (α : Type) where
  | bind (handle : Nat) (owner : String)
  | arm (now handle delay : Nat) (payload : α)
  | wake (now : Nat)
  | fire (report : Report)
  | shutdown

def Use.binds? : Use α → Option Nat
  | .bind handle _ => some handle
  | _ => none

def use (t : Timers α) : Use α → Timers α
  | .bind handle owner => t.insert handle owner
  | .arm now handle delay payload => (t.arm now handle delay payload).2
  | .wake now => (t.wake now).2
  | .fire report => (t.fire report).2
  | .shutdown => t.shutdown.2

/-- The bank after a series of uses. -/
def after (uses : List (Use α)) : Timers α := uses.foldl use {}

/-- Everything that is pending, with the reports that claim it. -/
def standing (t : Timers α) : List (Arming α) := t.slots.filterMap fun e => e.2.arming? e.1

/-- What a use puts into the bank: an arming of a known timer, with its new generation. -/
def takes (t : Timers α) : Use α → List (Arming α)
  | .arm _ handle _ payload =>
    (Table.get? handle t.slots).toList.map fun s => ⟨⟨handle, s.generation + 1⟩, payload⟩
  | _ => []

/-- What a use takes out of the bank: the payload claimed with a report, the one displaced from a
timer, with the generation that the timer had, and all that are dropped. -/
def leaves (t : Timers α) : Use α → List (Arming α)
  | .arm now handle delay payload =>
    match Table.get? handle t.slots, (t.arm now handle delay payload).1 with
    | some s, .replaced _ old => [⟨⟨handle, s.generation⟩, old⟩]
    | _, _ => []
  | .fire report => (t.fire report).1.toList.map fun p => ⟨report, p.2⟩
  | .shutdown => t.standing
  | _ => []

/-- What the uses of a bank read, one after the other. -/
def gathered (read : Timers α → Use α → List (Arming α)) (t : Timers α) :
    List (Use α) → List (Arming α)
  | [] => []
  | u :: rest => read t u ++ gathered read (t.use u) rest

/-- All armings of known timers. -/
def taken (uses : List (Use α)) : List (Arming α) := gathered takes {} uses

/-- All that has left the bank. -/
def gone (uses : List (Use α)) : List (Arming α) := gathered leaves {} uses

def bound (uses : List (Use α)) : List Nat := uses.filterMap Use.binds?

/-- The armings of one timer. -/
def armingsOf (handle : Nat) (as : List (Arming α)) : List (Arming α) :=
  as.filter fun a => a.report.handle = handle

section Concat

variable (uses : List (Use α)) (u : Use α)

theorem after_concat : after (uses ++ [u]) = (after uses).use u := List.foldl_concat ..

theorem gathered_concat (read : Timers α → Use α → List (Arming α)) (t : Timers α) :
    gathered read t (uses ++ [u]) = gathered read t uses ++ read (uses.foldl use t) u := by
  induction uses generalizing t with
  | nil => exact List.append_nil _
  | cons v rest ih =>
    rw [List.cons_append, gathered, gathered, ih, List.append_assoc]
    rfl

theorem bound_concat : bound (uses ++ [u]) = bound uses ++ u.binds?.toList := by
  unfold bound
  rw [List.filterMap_append, List.filterMap_cons, List.filterMap_nil]
  cases u.binds? <;> rfl

end Concat

section Standing

variable {t t' : Timers α} {h : Nat} {s : Slot α} {a : Arming α} {r : Report}

theorem arming?_eq_some : s.arming? h = some a ↔
    a.report = ⟨h, s.generation⟩ ∧ ∃ p, s.pending = some p ∧ p.payload = a.payload := by
  unfold Slot.arming?
  rw [Option.map_eq_some_iff]
  constructor
  · rintro ⟨p, hp, rfl⟩
    exact ⟨rfl, p, hp, rfl⟩
  · rintro ⟨hr, p, hp, hx⟩
    refine ⟨p, hp, ?_⟩
    rw [hx, ← hr]

theorem mem_standing (ht : t.Sorted) : a ∈ t.standing ↔
    ∃ s, Table.get? a.report.handle t.slots = some s ∧ s.arming? a.report.handle = some a := by
  unfold standing
  rw [List.mem_filterMap]
  constructor
  · rintro ⟨⟨k, s⟩, hmem, ha⟩
    obtain rfl : a.report.handle = k := by rw [(arming?_eq_some.mp ha).1]
    exact ⟨s, Table.Sorted.get?_of_mem ht hmem, ha⟩
  · rintro ⟨s, hs, ha⟩
    exact ⟨_, Table.mem_of_get? hs, ha⟩

/-- Writing a slot exchanges what is pending on it and nothing else. -/
theorem Sorted.exchange_standing (ht : t.Sorted) (h' : t'.slots = Table.insert h s t.slots) :
    ∃ rest, t.standing.Perm (((Table.get? h t.slots).bind (Slot.arming? · h)).toList ++ rest) ∧
      t'.standing.Perm ((s.arming? h).toList ++ rest) := by
  obtain ⟨rest, hold, hnew⟩ := Table.Sorted.insert_perm ht h s
  refine ⟨rest.filterMap fun e => e.2.arming? e.1, ?_, ?_⟩
  · refine (hold.filterMap _).trans (.of_eq ?_)
    rw [List.filterMap_append]
    cases Table.get? h t.slots with
    | none => rfl
    | some old =>
      rw [Option.bind_some, Option.toList_some, List.map_singleton]
      cases ha : old.arming? h <;> simp [ha]
  · unfold standing
    rw [h']
    refine (hnew.filterMap _).trans (.of_eq ?_)
    cases ha : s.arming? h <;> simp [ha]

/-- The number of jobs that a shutdown drops. -/
theorem shutdown_fst (t : Timers α) : t.shutdown.1 = t.standing.length := by
  unfold shutdown standing Slot.arming?
  dsimp only
  induction t.slots with
  | nil => rfl
  | cons e rest ih => cases hp : e.2.pending <;> simp [hp, ih]

theorem fire_of_standing (ht : t.Sorted) (ha : a ∈ t.standing) :
    ∃ s, Table.get? a.report.handle t.slots = some s ∧
      t.fire a.report = (some (s.owner, a.payload),
        { t with slots := Table.insert a.report.handle { s with pending := none } t.slots }) := by
  obtain ⟨s, hs, harm⟩ := (mem_standing ht).mp ha
  obtain ⟨hr, p, hp, hx⟩ := arming?_eq_some.mp harm
  have hgen : s.generation = a.report.generation := by rw [hr]
  refine ⟨s, hs, ?_⟩
  unfold fire
  rw [hs]
  dsimp only
  rw [if_pos hgen, hp]
  dsimp only
  rw [hx]

/-- A report that claims nothing changes nothing. -/
theorem fire_of_not_standing (ht : t.Sorted) (hr : ∀ a ∈ t.standing, a.report ≠ r) :
    t.fire r = (none, t) := by
  unfold fire
  cases hs : Table.get? r.handle t.slots with
  | none => rfl
  | some s =>
    dsimp only
    by_cases hgen : s.generation = r.generation
    · rw [if_pos hgen]
      cases hp : s.pending with
      | none => rfl
      | some p =>
        refine absurd rfl (hr ⟨r, p.payload⟩ ((mem_standing ht).mpr ⟨s, hs, ?_⟩))
        exact arming?_eq_some.mpr ⟨by rw [hgen], p, hp, rfl⟩
    · rw [if_neg hgen]

theorem isPending_iff (ht : t.Sorted) (h : Nat) :
    t.isPending h ↔ ∃ a ∈ t.standing, a.report.handle = h := by
  unfold isPending
  rw [Option.any_eq_true]
  constructor
  · rintro ⟨s, hs, hp⟩
    obtain ⟨p, hp⟩ := Option.isSome_iff_exists.mp hp
    refine ⟨⟨⟨h, s.generation⟩, p.payload⟩, (mem_standing ht).mpr ⟨s, hs, ?_⟩, rfl⟩
    exact arming?_eq_some.mpr ⟨rfl, p, hp, rfl⟩
  · rintro ⟨a, ha, rfl⟩
    obtain ⟨s, hs, harm⟩ := (mem_standing ht).mp ha
    obtain ⟨-, p, hp, -⟩ := arming?_eq_some.mp harm
    exact ⟨s, hs, by rw [hp]; rfl⟩

end Standing

/-- What a use does to the slots: nothing, or it opens one, or it writes one that is there, or it
removes them all. What it puts in and takes out is what the slot holds afterwards and before. -/
inductive Turn (t : Timers α) (u : Use α) : Prop
  | keeps : (t.use u).slots = t.slots → u.binds? = none → t.takes u = [] → t.leaves u = [] → Turn t u
  | opens (h : Nat) (owner : String) : (t.use u).slots = Table.insert h ⟨owner, 0, none⟩ t.slots →
      u.binds? = some h → t.takes u = [] → t.leaves u = [] → Turn t u
  | writes (h : Nat) (old new : Slot α) : Table.get? h t.slots = some old →
      (t.use u).slots = Table.insert h new t.slots → u.binds? = none →
      t.takes u = (new.arming? h).toList → t.leaves u = (old.arming? h).toList →
      new.generation = old.generation + (t.takes u).length → Turn t u
  | clears : (t.use u).slots = [] → u.binds? = none → t.takes u = [] → t.leaves u = t.standing →
      Turn t u

section Turn

variable {t : Timers α}

theorem takes_cases (t : Timers α) (u : Use α) : t.takes u = [] ∨
    ∃ h s x, Table.get? h t.slots = some s ∧ t.takes u = [⟨⟨h, s.generation + 1⟩, x⟩] := by
  cases u with
  | arm now h d x =>
    rw [takes]
    cases hs : Table.get? h t.slots with
    | none => exact .inl rfl
    | some s => exact .inr ⟨h, s, x, hs, rfl⟩
  | _ => exact .inl rfl

theorem arm_of_get? {now h d : Nat} {x : α} (hh : Table.get? h t.slots = none) :
    t.arm now h d x = (.unknown, t) := by
  unfold arm
  rw [hh]

theorem turn_arm (t : Timers α) (now h d : Nat) (x : α) : Turn t (.arm now h d x) := by
  rcases t.arm_cases now h d x with ⟨hnone, hres⟩ | ⟨slot, hslot, hres⟩
  · refine .keeps ?_ rfl ?_ ?_
    · rw [use, arm_of_get? hnone]
    · rw [takes, hnone]
      rfl
    · rw [leaves, hnone]
  · refine .writes h slot _ hslot.known hslot.slots rfl ?_ ?_ ?_
    · rw [takes, hslot.known]
      rfl
    · rw [leaves, hslot.known, hres]
      unfold Slot.arming?
      cases slot.pending <;> rfl
    · rw [takes, hslot.known]
      rfl

theorem turn_fire (ht : t.Sorted) (r : Report) : Turn t (.fire r) := by
  by_cases hr : ∃ a ∈ t.standing, a.report = r
  · obtain ⟨a, ha, rfl⟩ := hr
    obtain ⟨s, hs, hfire⟩ := fire_of_standing ht ha
    obtain ⟨s', hs', harm⟩ := (mem_standing ht).mp ha
    obtain rfl := Option.some.inj (hs.symm.trans hs')
    refine .writes a.report.handle s { s with pending := none } hs ?_ rfl rfl ?_ rfl
    · rw [use, hfire]
    · rw [leaves, hfire, harm]
      rfl
  · have hfire := fire_of_not_standing ht fun a ha hr' => hr ⟨a, ha, hr'⟩
    refine .keeps ?_ rfl rfl ?_
    · rw [use, hfire]
    · rw [leaves, hfire]
      rfl

theorem turn (ht : t.Sorted) (u : Use α) : Turn t u := by
  cases u with
  | bind h owner => exact .opens h owner rfl rfl rfl rfl
  | arm now h d x => exact turn_arm t now h d x
  | wake => exact .keeps rfl rfl rfl rfl
  | fire r => exact turn_fire ht r
  | shutdown => exact .clears rfl rfl rfl rfl

theorem sorted_use (ht : t.Sorted) (u : Use α) : (t.use u).Sorted := by
  unfold Sorted at ht ⊢
  cases turn ht u with
  | keeps hslots => exact hslots ▸ ht
  | opens h owner hslots => exact hslots ▸ Table.Sorted.insert ht h _
  | writes h old new hold hslots => exact hslots ▸ Table.Sorted.insert ht h _
  | clears hslots => exact hslots ▸ Table.sorted_nil

/-- What is pending and what is put in is taken out or pending afterwards. -/
theorem balance_use (ht : t.Sorted) {u : Use α}
    (hu : ∀ h, u.binds? = some h → Table.get? h t.slots = none) :
    (t.standing ++ t.takes u).Perm (t.leaves u ++ (t.use u).standing) := by
  cases turn ht u with
  | keeps hslots hb htakes hleaves =>
    rw [htakes, hleaves, standing, standing, hslots, List.append_nil, List.nil_append]
  | opens h owner hslots hb htakes hleaves =>
    obtain ⟨rest, hold, hnew⟩ := ht.exchange_standing hslots
    rw [hu h hb] at hold
    rw [htakes, hleaves, List.append_nil]
    exact hold.trans hnew.symm
  | writes h old new hknown hslots hb htakes hleaves =>
    obtain ⟨rest, hold, hnew⟩ := ht.exchange_standing hslots
    rw [hknown, Option.bind_some] at hold
    rw [htakes, hleaves]
    refine (hold.append_right _).trans ?_
    rw [List.append_assoc]
    exact (List.perm_append_comm.trans hnew.symm).append_left _
  | clears hslots hb htakes hleaves =>
    rw [htakes, hleaves, standing, standing, hslots]
    rfl

/-- A payload leaves with the report of its own arming, with the next arming of its timer, or when
all are dropped. -/
theorem leaves_way (ht : t.Sorted) {u : Use α} {a : Arming α} (ha : a ∈ t.leaves u) :
    a ∈ t.standing ∧ (u = .fire a.report ∨
      (∃ now d x, u = .arm now a.report.handle d x ∧
        t.takes u = [⟨⟨a.report.handle, a.report.generation + 1⟩, x⟩]) ∨
      u = .shutdown) := by
  cases u with
  | bind => cases ha
  | wake => cases ha
  | shutdown => exact ⟨ha, .inr (.inr rfl)⟩
  | fire r =>
    by_cases hr : ∃ b ∈ t.standing, b.report = r
    · obtain ⟨b, hb, rfl⟩ := hr
      obtain ⟨s, -, hfire⟩ := fire_of_standing ht hb
      rw [leaves, hfire] at ha
      obtain rfl : a = b := List.mem_singleton.mp ha
      exact ⟨hb, .inl rfl⟩
    · rw [leaves, fire_of_not_standing ht fun b hb hr' => hr ⟨b, hb, hr'⟩] at ha
      cases ha
  | arm now h d x =>
    rw [leaves] at ha
    cases hs : Table.get? h t.slots with
    | none =>
      rw [hs] at ha
      cases ha
    | some slot =>
      rw [hs] at ha
      split at ha
      · rename_i s owner old heq hres
        obtain rfl := Option.some.inj heq
        obtain rfl := List.mem_singleton.mp ha
        obtain ⟨slot, p, hslot, hp, -, hold⟩ := arm_replaced (Prod.ext hres rfl)
        obtain rfl := Option.some.inj (hs.symm.trans hslot.known)
        refine ⟨(mem_standing ht).mpr ⟨_, hs, arming?_eq_some.mpr ⟨rfl, p, hp, hold⟩⟩, .inr (.inl ?_)⟩
        refine ⟨now, d, x, rfl, ?_⟩
        rw [takes, hs]
        rfl
      · cases ha

/-- A sleeper goes with an arming. -/
theorem sleepers_use (t : Timers α) (u : Use α) :
    ∀ s ∈ (t.use u).sleepers, s ∈ t.sleepers ∨ ∃ a ∈ t.takes u, a.report = s.report := by
  intro s hs
  cases u with
  | bind => exact .inl hs
  | arm now h d x =>
    rcases t.arm_cases now h d x with ⟨hnone, -⟩ | ⟨slot, hslot, -⟩
    · rw [use, arm_of_get? hnone] at hs
      exact .inl hs
    · rcases hslot.sleepers s hs with hold | rfl
      · exact .inl hold
      · refine .inr ⟨⟨⟨h, slot.generation + 1⟩, x⟩, ?_, rfl⟩
        rw [takes, hslot.known]
        exact List.mem_singleton.mpr rfl
  | wake => exact .inl (List.mem_filter.mp hs).1
  | fire r =>
    left
    rw [use] at hs
    unfold fire at hs
    split at hs
    · exact hs
    · split at hs
      · split at hs <;> exact hs
      · exact hs
  | shutdown => exact .inl (List.mem_filter.mp hs).1

end Turn

section ArmingsOf

variable {h : Nat} {a : Arming α} {as bs : List (Arming α)}

theorem armingsOf_append : armingsOf h (as ++ bs) = armingsOf h as ++ armingsOf h bs :=
  List.filter_append ..

theorem mem_armingsOf : a ∈ armingsOf h as ↔ a ∈ as ∧ a.report.handle = h := by
  rw [armingsOf, List.mem_filter, decide_eq_true_eq]

/-- Armings of one timer are its own, and nobody else's. -/
theorem armingsOf_eq (h' : Nat) (has : ∀ a ∈ as, a.report.handle = h) :
    armingsOf h' as = if h = h' then as else [] := by
  unfold armingsOf
  split
  · rename_i heq
    exact List.filter_eq_self.mpr fun a ha => decide_eq_true ((has a ha).trans heq)
  · rename_i hne
    refine List.filter_eq_nil_iff.mpr fun a ha => ?_
    rw [decide_eq_true_eq, has a ha]
    exact hne

/-- The armings of each timer are numbered from one on. -/
def Numbered (as : List (Arming α)) : Prop :=
  ∀ h, (armingsOf h as).map (fun a => a.report.generation) =
    List.range' 1 (armingsOf h as).length

theorem Numbered.concat (hn : Numbered as)
    (ha : a.report.generation = (armingsOf a.report.handle as).length + 1) :
    Numbered (as ++ [a]) := by
  intro h
  rw [armingsOf_append]
  have hone : armingsOf h [a] = if a.report.handle = h then [a] else [] :=
    armingsOf_eq h fun b hb => congrArg (·.report.handle) (List.mem_singleton.mp hb)
  rw [hone]
  by_cases hh : a.report.handle = h
  · rw [if_pos hh, List.map_append, hn h, List.length_append, List.length_singleton,
      List.range'_1_concat, List.map_singleton, ha, hh, Nat.add_comm 1]
  · rw [if_neg hh, List.append_nil]
    exact hn h

/-- No two armings have the same report. -/
theorem Numbered.nodup (hn : Numbered as) : (as.map Arming.report).Nodup := by
  rw [List.nodup_iff_count_le_one]
  intro r
  have hcount : (as.map Arming.report).count r =
      ((armingsOf r.handle as).map fun a => a.report.generation).count r.generation := by
    rw [List.count_eq_countP, List.count_eq_countP, List.countP_map, List.countP_map, armingsOf,
      List.countP_filter]
    congr 1
    funext a
    obtain ⟨⟨k, g⟩, x⟩ := a
    obtain ⟨l, i⟩ := r
    simp [Bool.and_comm, Bool.beq_eq_decide_eq]
  rw [hcount, hn r.handle]
  exact List.nodup_iff_count_le_one.mp List.nodup_range' _

theorem Numbered.inj (hn : Numbered as) {b : Arming α} (ha : a ∈ as) (hb : b ∈ as)
    (h : a.report = b.report) : a = b :=
  List.inj_on_of_nodup_map hn.nodup ha hb h

/-- The latest arming of a timer is the one whose number is their count. -/
theorem Numbered.latest_iff (hn : Numbered as) : (armingsOf h as).getLast? = some a ↔
    a ∈ as ∧ a.report = ⟨h, (armingsOf h as).length⟩ := by
  have hlast : ∀ b, (armingsOf h as).getLast? = some b →
      b ∈ as ∧ b.report = ⟨h, (armingsOf h as).length⟩ := by
    intro b hb
    obtain ⟨hmem, hhandle⟩ := mem_armingsOf.mp (List.mem_of_getLast? hb)
    have hgen := congrArg List.getLast? (hn h)
    rw [List.getLast?_map, hb, List.getLast?_range'] at hgen
    have hpos : (armingsOf h as).length ≠ 0 := by
      rw [Ne, List.length_eq_zero_iff]
      rintro hnil
      rw [hnil] at hb
      cases hb
    rw [if_neg hpos, Option.map_some, Option.some.injEq] at hgen
    refine ⟨hmem, ?_⟩
    obtain ⟨⟨k, g⟩, x⟩ := b
    subst hhandle
    dsimp only at hgen ⊢
    rw [hgen, Nat.add_sub_cancel_left]
  refine ⟨hlast a, fun ⟨hmem, hr⟩ => ?_⟩
  have hne : armingsOf h as ≠ [] := by
    refine List.ne_nil_of_mem (a := a) (mem_armingsOf.mpr ⟨hmem, ?_⟩)
    rw [hr]
  obtain ⟨b, hb⟩ := Option.isSome_iff_exists.mp (List.getLast?_isSome.mpr hne)
  rw [hb, hn.inj hmem (hlast b hb).1 (hr.trans (hlast b hb).2.symm)]

end ArmingsOf

/-- The state of a bank against all that was bound, put in and taken out. -/
structure Kept (bound : List Nat) (taken gone : List (Arming α)) (t : Timers α) : Prop where
  sorted : t.Sorted
  balance : taken.Perm (gone ++ t.standing)
  numbered : Numbered taken
  generation : ∀ h s, Table.get? h t.slots = some s → s.generation = (armingsOf h taken).length
  slots : ∀ h s, Table.get? h t.slots = some s → h ∈ bound
  handles : ∀ a ∈ taken, a.report.handle ∈ bound
  sleepers : ∀ s ∈ t.sleepers, ∃ a ∈ taken, a.report = s.report

namespace Kept

variable {bound : List Nat} {taken gone : List (Arming α)} {t : Timers α} {u : Use α}

theorem start : Kept (α := α) [] [] [] {} :=
  ⟨Table.sorted_nil, .refl [], fun _ => rfl, nofun, nofun, nofun, nofun⟩

/-- An arming is the next one of its timer. -/
theorem numbered_use (k : Kept bound taken gone t) (u : Use α) : Numbered (taken ++ t.takes u) := by
  rcases t.takes_cases u with htakes | ⟨h, s, x, hs, htakes⟩
  · rw [htakes, List.append_nil]
    exact k.numbered
  · rw [htakes]
    apply k.numbered.concat
    rw [k.generation h s hs]

theorem generation_use (k : Kept bound taken gone t) (hu : ∀ h, u.binds? = some h → h ∉ bound)
    {h : Nat} {s : Slot α} (hs : Table.get? h (t.use u).slots = some s) :
    s.generation = (armingsOf h (taken ++ t.takes u)).length := by
  cases turn k.sorted u with
  | keeps hslots _ htakes =>
    rw [hslots] at hs
    rw [htakes, List.append_nil]
    exact k.generation h s hs
  | clears hslots =>
    rw [hslots] at hs
    cases hs
  | opens h' owner hslots hb htakes =>
    rw [hslots, Table.get?_insert] at hs
    rw [htakes, List.append_nil]
    by_cases hh : h' = h
    · subst hh
      rw [if_pos rfl] at hs
      obtain rfl := Option.some.inj hs
      -- A timer that is bound only now has not been armed.
      refine (List.length_eq_zero_iff.mpr (List.filter_eq_nil_iff.mpr fun a ha hh => ?_)).symm
      exact hu h' hb (of_decide_eq_true hh ▸ k.handles a ha)
    · rw [if_neg hh] at hs
      exact k.generation h s hs
  | writes h' old new hknown hslots hb htakes hleaves hgen =>
    have hhandle : ∀ a ∈ t.takes u, a.report.handle = h' := by
      intro a ha
      rw [htakes] at ha
      rw [(arming?_eq_some.mp (Option.mem_toList.mp ha)).1]
    rw [hslots, Table.get?_insert] at hs
    rw [armingsOf_append, List.length_append, armingsOf_eq h hhandle]
    by_cases hh : h' = h
    · subst hh
      rw [if_pos rfl] at hs ⊢
      rw [← Option.some.inj hs, hgen, k.generation h' old hknown]
    · rw [if_neg hh] at hs ⊢
      exact k.generation h s hs

/-- A use keeps the books. -/
theorem use (k : Kept bound taken gone t) (hu : ∀ h, u.binds? = some h → h ∉ bound) :
    Kept (bound ++ u.binds?.toList) (taken ++ t.takes u) (gone ++ t.leaves u) (t.use u) := by
  have hunbound : ∀ h, u.binds? = some h → Table.get? h t.slots = none := by
    intro h hb
    refine Option.eq_none_iff_forall_ne_some.mpr fun s hs => ?_
    exact hu h hb (k.slots h s hs)
  refine ⟨sorted_use k.sorted u, ?_, k.numbered_use u, fun h s => k.generation_use hu, ?_, ?_, ?_⟩
  · refine (k.balance.append_right _).trans ?_
    rw [List.append_assoc, List.append_assoc]
    exact (balance_use k.sorted hunbound).append_left gone
  · intro h s hs
    rw [List.mem_append, Option.mem_toList]
    cases turn k.sorted u with
    | keeps hslots => exact .inl (k.slots h s (hslots ▸ hs))
    | clears hslots =>
      rw [hslots] at hs
      cases hs
    | opens h' owner hslots hb =>
      rw [hslots, Table.get?_insert] at hs
      split at hs
      · rename_i hh
        exact .inr (hh ▸ hb)
      · exact .inl (k.slots h s hs)
    | writes h' old new hknown hslots =>
      rw [hslots, Table.get?_insert] at hs
      split at hs
      · rename_i hh
        exact .inl (hh ▸ k.slots h' old hknown)
      · exact .inl (k.slots h s hs)
  · intro a ha
    rw [List.mem_append]
    rcases List.mem_append.mp ha with ha | ha
    · exact .inl (k.handles a ha)
    · rcases t.takes_cases u with htakes | ⟨h, s, x, hs, htakes⟩ <;> rw [htakes] at ha
      · cases ha
      · obtain rfl := List.mem_singleton.mp ha
        exact .inl (k.slots h s hs)
  · intro s hs
    rcases t.sleepers_use u s hs with hold | ⟨a, ha, hr⟩
    · obtain ⟨a, ha, hr⟩ := k.sleepers s hold
      exact ⟨a, List.mem_append_left _ ha, hr⟩
    · exact ⟨a, List.mem_append_right _ ha, hr⟩

/-- Whatever is done with a bank of timers, its books are kept. -/
theorem after {uses : List (Use α)} (hb : (Timers.bound uses).Nodup) :
    Kept (Timers.bound uses) (Timers.taken uses) (Timers.gone uses) (Timers.after uses) := by
  induction uses using List.reverseRecOn with
  | nil => exact start
  | append_singleton uses u ih =>
    rw [bound_concat] at hb ⊢
    have hold := (List.nodup_append.mp hb).1
    rw [Timers.taken, Timers.gone, gathered_concat, gathered_concat, after_concat]
    refine (ih hold).use fun h hu hmem => ?_
    exact (List.nodup_append.mp hb).2.2 h hmem h (Option.mem_toList.mpr hu) rfl

/-- What is pending is what was armed last and has not left. -/
theorem mem_standing_iff (k : Kept bound taken gone t) {a : Arming α} : a ∈ t.standing ↔
    (armingsOf a.report.handle taken).getLast? = some a ∧ a ∉ gone := by
  have hnodup := k.numbered.nodup
  rw [(k.balance.map Arming.report).nodup_iff, List.map_append] at hnodup
  constructor
  · intro ha
    obtain ⟨s, hs, harm⟩ := (mem_standing k.sorted).mp ha
    refine ⟨k.numbered.latest_iff.mpr ⟨k.balance.mem_iff.mpr (List.mem_append_right _ ha), ?_⟩, ?_⟩
    · rw [← k.generation _ s hs]
      exact (arming?_eq_some.mp harm).1
    · intro hgone
      exact (List.nodup_append.mp hnodup).2.2 _ (List.mem_map_of_mem hgone) _
        (List.mem_map_of_mem ha) rfl
  · rintro ⟨hlast, hgone⟩
    have hmem := (k.numbered.latest_iff.mp hlast).1
    exact (List.mem_append.mp (k.balance.mem_iff.mp hmem)).resolve_left hgone

end Kept

/-- However a bank of timers is used, as long as every timer is bound once: what was armed has left
once or is pending, each under a report of its own; it leaves by that report, by the next arming of
its timer or by a shutdown; a report that is not of something pending, as that of an earlier arming,
changes nothing; a timer is pending as long as its latest arming has not left; and a shutdown counts
what has not. -/
theorem armed_leaves_once {uses : List (Use α)} (hb : (bound uses).Nodup) :
    let t := after uses
    let latest := fun h => (armingsOf h (taken uses)).getLast?
    ((taken uses).map Arming.report).Nodup ∧
    (∀ h, (armingsOf h (taken uses)).map (fun a => a.report.generation) =
      List.range' 1 (armingsOf h (taken uses)).length) ∧
    (taken uses).Perm (gone uses ++ t.standing) ∧
    (∀ u, ∀ a ∈ t.leaves u, a ∈ t.standing ∧ (u = .fire a.report ∨
      (∃ now d x, u = .arm now a.report.handle d x ∧
        t.takes u = [⟨⟨a.report.handle, a.report.generation + 1⟩, x⟩]) ∨
      u = .shutdown)) ∧
    (∀ s ∈ t.sleepers, ∃ a ∈ taken uses, a.report = s.report) ∧
    (∀ a ∈ t.standing, ∃ owner, t.owner? a.report.handle = some owner ∧
      (t.fire a.report).1 = some (owner, a.payload)) ∧
    (∀ r, (∀ a ∈ t.standing, a.report ≠ r) → t.fire r = (none, t)) ∧
    (∀ a ∈ taken uses, latest a.report.handle ≠ some a → t.fire a.report = (none, t)) ∧
    (∀ h, t.isPending h ↔ ∃ a, latest h = some a ∧ a ∉ gone uses) ∧
    (gone uses).length + t.shutdown.1 = (taken uses).length := by
  intro t latest
  have k := Kept.after hb
  have hstanding : ∀ a ∈ t.standing, latest a.report.handle = some a :=
    fun a ha => (k.mem_standing_iff.mp ha).1
  refine ⟨k.numbered.nodup, k.numbered, k.balance, fun u a ha => leaves_way k.sorted ha, k.sleepers,
    fun a ha => ?_, fun r hr => fire_of_not_standing k.sorted hr, fun a ha hlast => ?_, fun h => ?_,
    ?_⟩
  · obtain ⟨s, hs, hfire⟩ := fire_of_standing k.sorted ha
    refine ⟨s.owner, ?_, congrArg Prod.fst hfire⟩
    rw [owner?, hs]
    rfl
  · apply fire_of_not_standing k.sorted
    intro b hb' hr
    have hmem := k.balance.mem_iff.mpr (List.mem_append_right _ hb')
    rw [← k.numbered.inj hmem ha hr] at hlast
    exact hlast (hstanding b hb')
  · rw [isPending_iff k.sorted]
    constructor
    · rintro ⟨a, ha, rfl⟩
      exact ⟨a, k.mem_standing_iff.mp ha⟩
    · rintro ⟨a, hlast, hgone⟩
      have hh : a.report.handle = h := by rw [(k.numbered.latest_iff.mp hlast).2]
      exact ⟨a, k.mem_standing_iff.mpr ⟨hh ▸ hlast, hgone⟩, hh⟩
  · rw [shutdown_fst, ← List.length_append]
    exact k.balance.length_eq.symm

/-- One timer is armed again while it is pending, and again after its report; the reports of all its
armings come late, and some of them twice. -/
def rearmings : List (Use String) :=
  [.bind 0 "lb", .arm 0 0 10 "first", .arm 5 0 10 "second", .wake 15, .fire ⟨0, 1⟩, .fire ⟨0, 2⟩,
    .arm 20 0 10 "third", .fire ⟨0, 2⟩, .fire ⟨0, 1⟩]

/-- The third arming is pending still, and no report of the others gets at it. -/
theorem rearmings_leave_once :
    gone rearmings = [⟨⟨0, 1⟩, "first"⟩, ⟨⟨0, 2⟩, "second"⟩] ∧
      (after rearmings).isPending 0 ∧
      (after rearmings).fire ⟨0, 2⟩ = (none, after rearmings) ∧
      (gone rearmings).length + (after rearmings).shutdown.1 = (taken rearmings).length := by
  obtain ⟨-, -, -, -, -, -, -, hstale, hpending, hcount⟩ :=
    armed_leaves_once (show (bound rearmings).Nodup by decide)
  refine ⟨by decide, (hpending 0).mpr ⟨⟨⟨0, 3⟩, "third"⟩, by decide, by decide⟩, ?_, hcount⟩
  exact hstale ⟨⟨0, 2⟩, "second"⟩ (by decide) (by decide)

end Timers

end PhasedGrid.Schedule
