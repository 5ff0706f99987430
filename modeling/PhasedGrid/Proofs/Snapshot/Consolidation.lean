import PhasedGrid.Proofs.Decimal.Exactness
import PhasedGrid.Proofs.Snapshot.Calls

/-!
The one-line form of a state and the values that are told from it again. Commas stand between the
fragments, and nothing keeps them out of a fragment: what a message brought is written as it came.
A state falls into the texts of its fragments exactly when no message in it has a comma; the
readings of nodes come back in any case, but text of a message in front of a comma may be taken for
one more.
-/

namespace PhasedGrid.Snapshot

set_option autoImplicit false

namespace Fragment

/-- No comma stands in what a message brought. -/
def Whole : Fragment → Prop
  | .gateway .. => True
  | .transit value source destination =>
    ',' ∉ value.toList ∧ ',' ∉ source.toList ∧ ',' ∉ destination.toList

/-- The parts of a fragment between its commas. -/
def parts (f : Fragment) : List String := Text.split ',' f.text

/-- What is taken for a reading: that of a node, and numbers in front of a comma of a message. -/
def readings : Fragment → List Float
  | .gateway _ value => [value]
  | f@(.transit ..) => f.parts.dropLast.filterMap Decimal.reading?

theorem comma_foreign : Decimal.Foreign ',' := ⟨by decide, by decide, by decide⟩

theorem bracket_foreign : Decimal.Foreign ')' := ⟨by decide, by decide, by decide⟩

theorem toList_transit (value source destination : String) :
    (transit value source destination).text.toList =
      value.toList ++ "(from ".toList ++ source.toList ++ " to ".toList ++ destination.toList ++
        [')'] := by
  simp [text]

theorem whole_iff (f : Fragment) : f.Whole ↔ ',' ∉ f.text.toList := by
  cases f with
  | gateway source value =>
    refine iff_of_true trivial ?_
    exact comma_foreign.not_mem_reading (Decimal.reading?_render_self value)
  | transit value source destination =>
    rw [toList_transit]
    simp [Whole]

theorem text_ne_empty (f : Fragment) : f.text ≠ "" := by
  cases f with
  | gateway source value => exact Decimal.render_ne_empty value
  | transit value source destination =>
    intro hempty
    have hlist := toList_transit value source destination
    rw [hempty] at hlist
    simp at hlist

theorem parts_of_whole {f : Fragment} (h : f.Whole) : f.parts = [f.text] :=
  Text.split_of_not_mem (f.whole_iff.mp h)

/-- The last part of a message ends with a bracket, so it is never taken for a reading. -/
theorem filterMap_parts (f : Fragment) : f.parts.filterMap Decimal.reading? = f.readings := by
  cases f with
  | gateway source value =>
    rw [parts_of_whole (f := .gateway source value) trivial]
    exact List.filterMap_cons_some (Decimal.reading?_render_self value)
  | transit value source destination =>
    obtain ⟨front, back, hsplit⟩ := Text.splitChars_concat (show ')' ≠ ',' by decide)
      (value.toList ++ "(from ".toList ++ source.toList ++ " to ".toList ++ destination.toList)
    have hlast : Decimal.reading? (String.ofList (back ++ [')'])) = none := by
      apply Option.eq_none_iff_forall_ne_some.mpr
      intro x hx
      apply bracket_foreign.not_mem_reading hx
      simp
    have hparts : (transit value source destination).parts =
        front.map String.ofList ++ [String.ofList (back ++ [')'])] := by
      rw [parts, Text.split, toList_transit, hsplit, List.map_append, List.map_singleton]
    rw [readings, hparts, List.dropLast_concat, List.filterMap_append,
      List.filterMap_cons_none hlast, List.filterMap_nil, List.append_nil]

end Fragment

theorem values_eq_flatMap (module : String) (version : Version) (fragments : List Fragment) :
    (Collected.mk module version (consolidate fragments)).values =
      fragments.flatMap Fragment.parts := by
  unfold Collected.values consolidate
  by_cases hne : fragments = []
  · subst hne
    rfl
  have htexts : fragments.map Fragment.text ≠ [] := by
    intro hnil
    exact hne (List.map_eq_nil_iff.mp hnil)
  have hfull : Text.join "," (fragments.map Fragment.text) ≠ "" := by
    apply Text.join_ne_empty htexts
    intro s hs
    obtain ⟨f, -, rfl⟩ := List.mem_map.mp hs
    exact f.text_ne_empty
  rw [if_neg (by simpa using hfull), Text.split_join_flatMap htexts, List.flatMap_map]
  rfl

/-- The values of a state are the parts of its fragments. They are the fragments themselves exactly
if no message in it has a comma. The readings among them are those of the nodes, each in its place,
and besides only what stands in front of a comma of a message. -/
theorem values_of_consolidated (module : String) (version : Version) (fragments : List Fragment) :
    let state : Collected := ⟨module, version, consolidate fragments⟩
    state.values = fragments.flatMap Fragment.parts ∧
      (state.values = fragments.map Fragment.text ↔ ∀ f ∈ fragments, f.Whole) ∧
      state.values.filterMap Decimal.reading? = fragments.flatMap Fragment.readings := by
  intro state
  have hvalues : state.values = fragments.flatMap Fragment.parts :=
    values_eq_flatMap module version fragments
  refine ⟨hvalues, ?_, ?_⟩
  · constructor
    · intro heq f hf
      have hmem : f.text ∈ fragments.flatMap Fragment.parts := by
        rw [← hvalues, heq]
        exact List.mem_map_of_mem hf
      -- No part of any fragment has a comma in it.
      obtain ⟨g, -, hpart⟩ := List.mem_flatMap.mp hmem
      obtain ⟨cs, hcs, htext⟩ := List.mem_map.mp hpart
      apply f.whole_iff.mpr
      rw [← htext, String.toList_ofList]
      exact Text.not_mem_of_mem_splitChars hcs
    · intro hwhole
      rw [hvalues, List.flatMap_congr fun f hf => Fragment.parts_of_whole (hwhole f hf)]
      exact List.flatMap_pure_eq_map Fragment.text fragments
  · rw [hvalues, List.filterMap_flatMap]
    exact List.flatMap_congr fun f _ => f.filterMap_parts

/-- A node asks for a snapshot, and a message with a comma in it arrives before the last marker. -/
def overheard : Agent :=
  (Agent.new "a" {} ["b"]).after
    [.request "gm" 1, .message (Wire.payload "b" "5,2" none) 1,
      .message { Wire.marker ⟨"a", 1⟩ with source := "b" } 1]

set_option maxRecDepth 4000 in
/-- The front of the message is handed out as one more reading, and the same text stands for a
state in which it is one. -/
theorem overheard_values :
    (overheard.onTimer .expired).1 = some (.complete overheard.answer) ∧
      overheard.fragments overheard.current = [.gateway "a" 1, .transit "5,2" "b" "a"] ∧
      overheard.answer.values = ["1", "5", "2(from b to a)"] ∧
      overheard.answer.values ≠ (overheard.fragments overheard.current).map Fragment.text ∧
      overheard.answer.values.filterMap Decimal.reading? = [1, 5] ∧
      overheard.answer.gateway =
        consolidate [.gateway "a" 1, .gateway "b" 5, .transit "2" "b" "a"] := by
  decide +kernel

end PhasedGrid.Snapshot
