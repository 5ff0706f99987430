import PhasedGrid.Device.Inventory
import PhasedGrid.Proofs.Tables
import PhasedGrid.Proofs.Texts

/-!
Devices made by specifications. What a specification may be depends on the names in use before it,
among them those of the specifications in front of it. A list is carried out up to the first one
that is refused, and the devices of those before it stay.
-/

namespace PhasedGrid.Device

set_option autoImplicit false

/-- A specification is a name without a colon, a colon, and a class. -/
structure Specifies (spec : String) (device : String × String) : Prop where
  text : spec = device.1 ++ ":" ++ device.2
  first : ':' ∉ device.1.toList

section Checks

variable {classes : List String} {taken : String → Prop} {spec : String}
  {device other : String × String}

theorem cut?_eq_some_iff : Text.cut? ':' spec = some device ↔ Specifies spec device := by
  have htext : spec.toList = device.1.toList ++ ':' :: device.2.toList ↔
      spec = device.1 ++ ":" ++ device.2 := by
    rw [← String.toList_inj, String.toList_append, String.toList_append, List.append_assoc]
    rfl
  obtain ⟨id, cls⟩ := device
  rw [Text.cut?_eq_some_iff, htext]
  exact ⟨fun ⟨ht, hf⟩ => ⟨ht, hf⟩, fun ⟨ht, hf⟩ => ⟨ht, hf⟩⟩

theorem Specifies.unique (h : Specifies spec device) (h' : Specifies spec other) :
    device = other :=
  Option.some.inj ((cut?_eq_some_iff.mpr h).symm.trans (cut?_eq_some_iff.mpr h'))

/-- A specification passes all checks, when some names are taken. -/
structure Admits (classes : List String) (taken : String → Prop) (spec : String)
    (device : String × String) : Prop where
  specifies : Specifies spec device
  free : ¬ taken device.1
  typed : device.2 ≠ ""
  known : device.2 ∈ classes

/-- The first check that a specification does not pass. -/
inductive Refuses (classes : List String) (taken : String → Prop) (spec : String) :
    DeviceError → Prop where
  | badSpec (hcolon : ':' ∉ spec.toList) : Refuses classes taken spec (.badSpec spec)
  | duplicateDevice {id cls : String} (hs : Specifies spec (id, cls)) (ht : taken id) :
      Refuses classes taken spec (.duplicateDevice spec)
  | missingType {id : String} (hs : Specifies spec (id, "")) (hf : ¬ taken id) :
      Refuses classes taken spec (.missingType spec)
  | unknownClass {id cls : String} (hs : Specifies spec (id, cls)) (hf : ¬ taken id)
      (hc : cls ≠ "") (hk : cls ∉ classes) : Refuses classes taken spec (.unknownClass cls)

theorem admits_or_refuses (classes : List String) (taken : String → Prop) (spec : String) :
    (∃ device, Admits classes taken spec device) ∨ ∃ e, Refuses classes taken spec e := by
  cases hcut : Text.cut? ':' spec with
  | none => exact .inr ⟨_, .badSpec (Text.cut?_eq_none_iff.mp hcut)⟩
  | some device =>
    have hs := cut?_eq_some_iff.mp hcut
    by_cases ht : taken device.1
    · exact .inr ⟨_, .duplicateDevice hs ht⟩
    by_cases hc : device.2 = ""
    · obtain ⟨id, cls⟩ := device
      cases hc
      exact .inr ⟨_, .missingType hs ht⟩
    by_cases hk : device.2 ∈ classes
    · exact .inl ⟨device, hs, ht, hc, hk⟩
    · exact .inr ⟨_, .unknownClass hs ht hc hk⟩

end Checks

namespace Inventory

/-- A name is in use for a device, or in a specification that comes before. -/
def Taken (v : Inventory) (before : List String) (id : String) : Prop :=
  v.has id ∨ ∃ spec ∈ before, ∃ cls, Specifies spec (id, cls)

/-- Every specification of the list passes its checks, those in front of it being before it. -/
def AdmitsAll (v : Inventory) (specs : List String) : Prop :=
  ∀ before spec after, specs = before ++ spec :: after →
    ∃ device, Admits v.classes (v.Taken before) spec device

/-- Those of `before` are admitted, and the specification behind them is refused. -/
def Stops (v : Inventory) (specs before : List String) (e : DeviceError) : Prop :=
  ∃ spec after, specs = before ++ spec :: after ∧ v.AdmitsAll before ∧
    Refuses v.classes (v.Taken before) spec e

/-- The inventory with one more device. -/
def including (v : Inventory) (device : String × String) : Inventory :=
  { v with devices := Table.insert device.1 device.2 v.devices }

/-- There are the devices that were there before and those of the list, each of its own class. -/
structure Gains (v : Inventory) (made : List (String × String)) (next : Inventory) : Prop where
  classes : next.classes = v.classes
  signals : next.signals = v.signals
  devices : next.devices.Perm (v.devices ++ made)
  class? : ∀ id cls, Table.get? id next.devices = some cls ↔
    Table.get? id v.devices = some cls ∨ (id, cls) ∈ made
  sorted : Table.Sorted v.devices → Table.Sorted next.devices

variable {make : Maker} {v next : Inventory} {specs before : List String} {spec : String}
  {device : String × String} {made : List (String × String)} {e : DeviceError}

theorem taken_nil (v : Inventory) (id : String) : v.Taken [] id ↔ v.has id := by
  simp [Taken]

/-- The name of a device is taken from its specification on. -/
theorem taken_including (h : Specifies spec device) (before : List String) :
    (v.including device).Taken before = v.Taken (spec :: before) := by
  funext id
  apply propext
  have hnamed : (∃ cls, Specifies spec (id, cls)) ↔ device.1 = id := by
    constructor
    · rintro ⟨cls, hs⟩
      rw [h.unique hs]
    · rintro rfl
      exact ⟨device.2, h⟩
  have hhas : (v.including device).has id ↔ device.1 = id ∨ v.has id := by
    simp [has, including, Table.has_insert]
  simp only [Taken, hhas, List.exists_mem_cons_iff, hnamed]
  rw [or_assoc, or_left_comm]

theorem admitsAll_cons (h : Admits v.classes (v.Taken []) spec device) :
    v.AdmitsAll (spec :: specs) ↔ (v.including device).AdmitsAll specs := by
  have htaken before := taken_including (v := v) h.specifies before
  constructor
  · rintro hall before next after rfl
    rw [htaken]
    exact hall (spec :: before) next after rfl
  · intro hall before next after heq
    cases before with
    | nil =>
      cases heq
      exact ⟨device, h⟩
    | cons first before =>
      cases heq
      rw [← htaken]
      exact hall before next after rfl

/-- A list is admitted, or there is a first specification that is refused. -/
theorem admitsAll_or_stops (v : Inventory) (specs : List String) :
    v.AdmitsAll specs ∨ ∃ before e, v.Stops specs before e := by
  have hnil : ∀ w : Inventory, w.AdmitsAll [] := by
    intro w before spec after heq
    cases before <;> cases heq
  induction specs generalizing v with
  | nil => exact .inl (hnil v)
  | cons spec rest ih =>
    rcases admits_or_refuses v.classes (v.Taken []) spec with ⟨device, ha⟩ | ⟨e, hr⟩
    · rcases ih (v.including device) with hall | ⟨before, e, next, after, rfl, hall, hr⟩
      · exact .inl ((admitsAll_cons ha).mpr hall)
      · rw [taken_including ha.specifies] at hr
        exact .inr ⟨spec :: before, e, next, after, rfl, (admitsAll_cons ha).mpr hall, hr⟩
    · exact .inr ⟨[], e, spec, rest, rfl, hnil v, hr⟩

theorem Gains.refl (v : Inventory) : v.Gains [] v where
  classes := rfl
  signals := rfl
  devices := .of_eq (List.append_nil _).symm
  class? _ _ := by simp
  sorted := id

theorem Gains.cons (h : (v.including device).Gains made next) (hfree : v.has device.1 = false) :
    v.Gains (device :: made) next where
  classes := h.classes
  signals := h.signals
  devices := by
    have hnew := Table.insert_perm hfree device.2
    exact h.devices.trans ((hnew.append_right made).trans List.perm_middle.symm)
  class? id cls := by
    rw [h.class? id cls, including, Table.get?_insert]
    by_cases hid : device.1 = id
    · subst hid
      rw [(Table.get?_eq_none_iff _ _).mpr hfree]
      simp [Prod.ext_iff, eq_comm]
    · have hne : (id, cls) ≠ device := by
        rintro rfl
        exact hid rfl
      rw [if_neg hid, List.mem_cons, or_iff_right hne]
  sorted hv := h.sorted (hv.insert _ _)

theorem absent_of_admits (h : Admits v.classes (v.Taken []) spec device) :
    v.has device.1 = false := by
  simpa only [taken_nil, Bool.not_eq_true] using h.free

theorem createSpec_of_refuses (h : Refuses v.classes (v.Taken []) spec e) :
    v.createSpec make spec = .error e := by
  unfold createSpec
  cases h with
  | badSpec hcolon => rw [Text.cut?_eq_none_iff.mpr hcolon]
  | duplicateDevice hs ht =>
    rw [taken_nil] at ht
    simp only [cut?_eq_some_iff.mpr hs, ht, if_true]
  | missingType hs hf =>
    rw [taken_nil] at hf
    simp only [cut?_eq_some_iff.mpr hs, hf]
    rfl
  | unknownClass hs hf hc hk =>
    rw [taken_nil] at hf
    simp [cut?_eq_some_iff.mpr hs, hf, hc, hk, createBy, hasClass]

section Creation

variable (hmake : ∀ cls ∈ v.classes, ∀ id, make cls id = (id, cls))
include hmake

theorem createSpec_of_admits (h : Admits v.classes (v.Taken []) spec device) :
    v.createSpec make spec = .ok (device, v.including device) := by
  have hfree := absent_of_admits h
  have htyped : device.2.isEmpty = false := by simpa using h.typed
  have hclass : v.hasClass device.2 = true := by simpa [hasClass] using h.known
  unfold createSpec
  rw [cut?_eq_some_iff.mpr h.specifies]
  simp only [hfree, htyped, createBy, hclass, hmake device.2 h.known device.1, add]
  rfl

/-- Specifications that are admitted are carried out one after the other, whatever follows them. -/
theorem createAllBy_append (h : v.AdmitsAll before) :
    ∃ made next, List.Forall₂ Specifies before made ∧ v.Gains made next ∧
      next.Taken [] = v.Taken before ∧
      ∀ rest, v.createAllBy make (before ++ rest) =
        ((next.createAllBy make rest).1.map (made ++ ·), (next.createAllBy make rest).2) := by
  -- The state moves on with the front, and what is taken moves from the list into the state.
  induction before generalizing v with
  | nil =>
    refine ⟨[], v, .nil, .refl v, rfl, fun rest => ?_⟩
    rw [List.nil_append]
    cases h : v.createAllBy make rest with
    | mk result next => cases result <;> rfl
  | cons spec before ih =>
    obtain ⟨device, ha⟩ := h [] spec before rfl
    have hstep := createSpec_of_admits hmake ha
    obtain ⟨made, next, hmade, hgains, htaken, hrest⟩ :=
      ih (v := v.including device) hmake ((admitsAll_cons ha).mp h)
    refine ⟨device :: made, next, .cons ha.specifies hmade, hgains.cons (absent_of_admits ha), ?_,
      fun rest => ?_⟩
    · rw [htaken, taken_including ha.specifies]
    · rw [List.cons_append, createAllBy, hstep]
      dsimp only
      rw [hrest rest]
      cases (next.createAllBy make rest).1 <;> rfl

theorem createAllBy_of_admits (h : v.AdmitsAll specs) :
    ∃ made, (v.createAllBy make specs).1 = .ok made ∧ List.Forall₂ Specifies specs made ∧
      v.Gains made (v.createAllBy make specs).2 := by
  obtain ⟨made, next, hmade, hgains, -, hrest⟩ := createAllBy_append hmake h
  have hall := hrest []
  rw [List.append_nil] at hall
  rw [hall]
  refine ⟨made, ?_, hmade, hgains⟩
  rw [createAllBy, Except.map, List.append_nil]

theorem createAllBy_of_stops (h : v.Stops specs before e) :
    (v.createAllBy make specs).1 = .error e ∧
      ∃ made, List.Forall₂ Specifies before made ∧ v.Gains made (v.createAllBy make specs).2 := by
  obtain ⟨spec, after, rfl, hall, hr⟩ := h
  obtain ⟨made, next, hmade, hgains, htaken, hrest⟩ := createAllBy_append hmake hall
  rw [← htaken, ← hgains.classes] at hr
  rw [hrest, createAllBy, createSpec_of_refuses hr]
  exact ⟨rfl, made, hmade, hgains⟩

end Creation

/-- Devices are made of all specifications if every one of them is admitted, and else of those in
front of the first one that is refused, for the reason of the first check that it does not pass.
What was there before stays as it was. -/
theorem made_up_to_refusal {make : Maker} {v : Inventory}
    (hmake : ∀ cls ∈ v.classes, ∀ id, make cls id = (id, cls)) (specs : List String) :
    let outcome := v.createAllBy make specs
    ((∃ made, outcome.1 = .ok made) ↔ v.AdmitsAll specs) ∧
      (∀ made, outcome.1 = .ok made →
        List.Forall₂ Specifies specs made ∧ v.Gains made outcome.2) ∧
      (∀ e, outcome.1 = .error e ↔ ∃ before, v.Stops specs before e) ∧
      ∀ before e, v.Stops specs before e →
        ∃ made, List.Forall₂ Specifies before made ∧ v.Gains made outcome.2 := by
  intro outcome
  have hfail {before e} (h : v.Stops specs before e) : outcome.1 = .error e :=
    (createAllBy_of_stops hmake h).1
  have hkept before e (h : v.Stops specs before e) := (createAllBy_of_stops hmake h).2
  rcases v.admitsAll_or_stops specs with hall | ⟨front, reason, hstop⟩
  · obtain ⟨made, hok, hmade⟩ := createAllBy_of_admits hmake hall
    refine ⟨iff_of_true ⟨made, hok⟩ hall, fun made' h => ?_, fun e => iff_of_false ?_ ?_, hkept⟩
    · cases hok.symm.trans h
      exact hmade
    · intro h
      cases hok.symm.trans h
    · rintro ⟨before, h⟩
      cases hok.symm.trans (hfail h)
  · have herror := hfail hstop
    refine ⟨iff_of_false ?_ ?_, fun made h => ?_, fun e => ⟨fun h => ?_, ?_⟩, hkept⟩
    · rintro ⟨made, h⟩
      cases herror.symm.trans h
    · intro hall
      obtain ⟨made, hok, -⟩ := createAllBy_of_admits hmake hall
      cases herror.symm.trans hok
    · cases herror.symm.trans h
    · cases herror.symm.trans h
      exact ⟨front, hstop⟩
    · rintro ⟨before, h⟩
      exact hfail h

/-- A node with a device of a class that is not known. -/
def furnished : Inventory := { Inventory.builtin with devices := [("m", "Motor")] }

/-- Classes that are not known make devices under a name of their own. -/
def byHabit : Maker := fun cls id => if cls ∈ builtinClasses then (id, cls) else (cls, cls)

/-- The third specification has both a name that is in use and no class. -/
theorem furnished_up_to_refusal :
    let outcome := furnished.createAllBy byHabit ["l:Load", "s:Sst", "l:", "x"]
    (∀ cls ∈ furnished.classes, ∀ id, byHabit cls id = (id, cls)) ∧
      outcome.1 = .error (.duplicateDevice "l:") ∧
      outcome.2.devices = [("l", "Load"), ("m", "Motor"), ("s", "Sst")] ∧
      (∃ before, furnished.Stops ["l:Load", "s:Sst", "l:", "x"] before (.duplicateDevice "l:") ∧
        ∃ made, List.Forall₂ Specifies before made ∧ furnished.Gains made outcome.2) ∧
      furnished.AdmitsAll ["l:Load", "s:Sst"] ∧ ¬ furnished.AdmitsAll ["l:Load", "m:Sst"] := by
  intro outcome
  have hmake : ∀ cls ∈ furnished.classes, ∀ id, byHabit cls id = (id, cls) := by
    intro cls hcls id
    exact if_pos ((Ordered.mem_ofList cls builtinClasses).mp hcls)
  have herror : outcome.1 = .error (.duplicateDevice "l:") := by decide +kernel
  have hdevices : outcome.2.devices = [("l", "Load"), ("m", "Motor"), ("s", "Sst")] := by
    decide +kernel
  refine ⟨hmake, herror, hdevices, ?_, ?_, ?_⟩
  · obtain ⟨-, -, hstops, hmade⟩ := made_up_to_refusal hmake ["l:Load", "s:Sst", "l:", "x"]
    obtain ⟨before, h⟩ := (hstops (.duplicateDevice "l:")).mp herror
    exact ⟨before, h, hmade before _ h⟩
  · exact (made_up_to_refusal hmake _).1.mp ⟨[("l", "Load"), ("s", "Sst")], by decide +kernel⟩
  · intro hall
    obtain ⟨made, hok⟩ := (made_up_to_refusal hmake _).1.mpr hall
    have hbroken : (furnished.createAllBy byHabit ["l:Load", "m:Sst"]).1 =
        .error (.duplicateDevice "m:Sst") := by decide +kernel
    cases hbroken.symm.trans hok

end Inventory

end PhasedGrid.Device
