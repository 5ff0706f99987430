import Mathlib.Data.List.Basic
import PhasedGrid.Text.Blank
import PhasedGrid.Text.Split

/-!
Text cut into parts, joined and trimmed.
-/

namespace PhasedGrid.Text

set_option autoImplicit false

/-- What holds of every character of a text can be checked along it. -/
theorem forall_mem_of_all {P : Char → Prop} [DecidablePred P] {cs : List Char}
    (h : cs.all fun c => P c) : ∀ c ∈ cs, P c := by
  intro c hc
  exact of_decide_eq_true (List.all_eq_true.mp h c hc)

theorem splitChars_of_not_mem {sep : Char} {cs : List Char} (h : sep ∉ cs) :
    splitChars sep cs = [cs] := by
  induction cs with
  | nil => rfl
  | cons c rest ih =>
    obtain ⟨hc, hrest⟩ := not_or.mp (mt List.mem_cons.mpr h)
    rw [splitChars, if_neg (Ne.symm hc), ih hrest]

theorem splitChars_ne_nil (sep : Char) (cs : List Char) : splitChars sep cs ≠ [] := by
  cases cs with
  | nil => exact List.cons_ne_nil _ _
  | cons c rest =>
    rw [splitChars]
    split
    · exact List.cons_ne_nil _ _
    · split <;> exact List.cons_ne_nil _ _

/-- What stands in front of a separator is split apart from what stands behind it. -/
theorem splitChars_append (sep : Char) (cs rest : List Char) :
    splitChars sep (cs ++ sep :: rest) = splitChars sep cs ++ splitChars sep rest := by
  induction cs with
  | nil => exact if_pos rfl
  | cons c cs ih =>
    rw [List.cons_append, splitChars, splitChars, ih]
    by_cases hc : c = sep
    · rw [if_pos hc, if_pos hc, List.cons_append]
    · rw [if_neg hc, if_neg hc]
      cases hparts : splitChars sep cs with
      | nil => exact absurd hparts (splitChars_ne_nil sep cs)
      | cons part parts => rfl

/-- A text without the separator is its only part. -/
theorem split_of_not_mem {sep : Char} {s : String} (h : sep ∉ s.toList) : split sep s = [s] := by
  rw [split, splitChars_of_not_mem h, List.map_singleton, String.ofList_toList]

/-- Parts that are joined are split apart again, and each of them where it has a separator itself. -/
theorem split_join_flatMap {parts : List String} (hne : parts ≠ []) :
    split ',' (join "," parts) = parts.flatMap (split ',') := by
  induction parts with
  | nil => exact absurd rfl hne
  | cons s rest ih =>
    cases rest with
    | nil => rw [join, List.flatMap_singleton]
    | cons t rest =>
      have hjoin : (join "," (s :: t :: rest)).toList =
          s.toList ++ ',' :: (join "," (t :: rest)).toList := by
        rw [join, String.toList_append, String.toList_append, List.append_assoc]
        · rfl
        · exact nofun
      rw [split, hjoin, splitChars_append, List.map_append, List.flatMap_cons,
        ← ih (List.cons_ne_nil t rest)]
      rfl

/-- Parts without the separator come back when they are joined and split. -/
theorem split_join {parts : List String} (hne : parts ≠ []) (h : ∀ s ∈ parts, ',' ∉ s.toList) :
    split ',' (join "," parts) = parts := by
  rw [split_join_flatMap hne, List.flatMap_congr fun s hs => split_of_not_mem (h s hs),
    List.flatMap_singleton']

theorem join_ne_empty {parts : List String} (hne : parts ≠ []) (h : ∀ s ∈ parts, s ≠ "") :
    join "," parts ≠ "" := by
  cases parts with
  | nil => exact absurd rfl hne
  | cons s rest =>
    have hs := h s List.mem_cons_self
    cases rest with
    | nil => exact hs
    | cons t rest =>
      intro hempty
      rw [join, String.append_assoc] at hempty
      · exact hs (String.append_eq_empty_iff.mp hempty).1
      · exact nofun

/-- What a text ends with is what its last part ends with. -/
theorem splitChars_concat {sep c : Char} (h : c ≠ sep) (cs : List Char) :
    ∃ front back, splitChars sep (cs ++ [c]) = front ++ [back ++ [c]] := by
  induction cs with
  | nil =>
    refine ⟨[], [], ?_⟩
    rw [List.nil_append, splitChars, if_neg h]
    rfl
  | cons d cs ih =>
    obtain ⟨front, back, heq⟩ := ih
    rw [List.cons_append, splitChars, heq]
    split
    · exact ⟨[] :: front, back, rfl⟩
    · cases front with
      | nil => exact ⟨[], d :: back, rfl⟩
      | cons part front => exact ⟨(d :: part) :: front, back, rfl⟩

theorem not_mem_of_mem_splitChars {sep : Char} {cs part : List Char}
    (h : part ∈ splitChars sep cs) : sep ∉ part := by
  induction cs generalizing part with
  | nil =>
    rw [splitChars, List.mem_singleton] at h
    subst h
    exact List.not_mem_nil
  | cons c rest ih =>
    rw [splitChars] at h
    split at h
    · rcases List.mem_cons.mp h with rfl | h
      · exact List.not_mem_nil
      · exact ih h
    rename_i hc
    split at h
    · rw [List.mem_singleton] at h
      subst h
      simpa using Ne.symm hc
    · rename_i first parts heq
      rw [heq] at ih
      rcases List.mem_cons.mp h with rfl | h
      · intro hmem
        rcases List.mem_cons.mp hmem with rfl | hmem
        · exact hc rfl
        · exact ih List.mem_cons_self hmem
      · exact ih (List.mem_cons_of_mem first h)

theorem cutChars?_append {sep : Char} {cs : List Char} (h : sep ∉ cs) (rest : List Char) :
    cutChars? sep (cs ++ sep :: rest) = some (cs, rest) := by
  induction cs with
  | nil => exact if_pos rfl
  | cons c cs ih =>
    obtain ⟨hc, hcs⟩ := not_or.mp (mt List.mem_cons.mpr h)
    rw [List.cons_append, cutChars?, if_neg (Ne.symm hc), ih hcs]
    rfl

theorem cutChars?_eq_some_iff {sep : Char} {cs front back : List Char} :
    cutChars? sep cs = some (front, back) ↔ cs = front ++ sep :: back ∧ sep ∉ front := by
  constructor
  · intro h
    induction cs generalizing front with
    | nil => cases h
    | cons c rest ih =>
      rw [cutChars?] at h
      split at h
      · rename_i hc
        cases h
        exact ⟨by rw [hc, List.nil_append], List.not_mem_nil⟩
      · rename_i hc
        obtain ⟨p, hp, he⟩ := Option.map_eq_some_iff.mp h
        cases he
        obtain ⟨heq, hfront⟩ := ih hp
        exact ⟨by rw [heq, List.cons_append], List.not_mem_cons_of_ne_of_not_mem (Ne.symm hc) hfront⟩
  · rintro ⟨rfl, h⟩
    exact cutChars?_append h back

theorem cutChars?_eq_none_iff {sep : Char} {cs : List Char} :
    cutChars? sep cs = none ↔ sep ∉ cs := by
  induction cs with
  | nil => exact iff_of_true rfl List.not_mem_nil
  | cons c rest ih =>
    rw [cutChars?, List.mem_cons, not_or]
    by_cases hc : c = sep
    · simp [hc]
    · simp [hc, Ne.symm hc, ih]

/-- A text is cut at its first separator. -/
theorem cut?_eq_some_iff {sep : Char} {s front back : String} :
    cut? sep s = some (front, back) ↔
      s.toList = front.toList ++ sep :: back.toList ∧ sep ∉ front.toList := by
  rw [← cutChars?_eq_some_iff, cut?, Option.map_eq_some_iff]
  constructor
  · rintro ⟨p, hp, he⟩
    cases he
    rw [String.toList_ofList, String.toList_ofList]
    exact hp
  · intro h
    exact ⟨_, h, by rw [String.ofList_toList, String.ofList_toList]⟩

theorem cut?_eq_none_iff {sep : Char} {s : String} : cut? sep s = none ↔ sep ∉ s.toList := by
  rw [cut?, Option.map_eq_none_iff, cutChars?_eq_none_iff]

/-- What stands in front of the last separator may contain others. -/
theorem cutLast?_append (s : String) {t : String} (h : ':' ∉ t.toList) :
    cutLast? ':' (s ++ ":" ++ t) = some (s, t) := by
  have hreverse : (s ++ ":" ++ t).toList.reverse =
      t.toList.reverse ++ ':' :: s.toList.reverse := by
    rw [String.toList_append, String.toList_append]
    simp
  unfold cutLast?
  rw [hreverse, cutChars?_append (by simpa using h)]
  simp

theorem isBlank_of_graphic {c : Char} (low : 33 ≤ c.toNat) (high : c.toNat ≤ 126) :
    isBlank c = false := by
  simp only [isBlank, blankRanges, List.any_cons, List.any_nil, Bool.or_false,
    Bool.or_eq_false_iff, Bool.and_eq_false_iff, decide_eq_false_iff_not]
  omega

/-- Text that does not begin or end with a blank. -/
structure Bare (s : String) : Prop where
  first : ∀ c ∈ s.toList.head?, isBlank c = false
  last : ∀ c ∈ s.toList.getLast?, isBlank c = false

theorem dropWhile_of_head? {cs : List Char} (h : ∀ c ∈ cs.head?, isBlank c = false) :
    cs.dropWhile isBlank = cs := by
  cases cs with
  | nil => rfl
  | cons c rest => rw [List.dropWhile_cons_of_neg (by simp [h c rfl])]

theorem head?_dropWhile (cs : List Char) : ∀ c ∈ (cs.dropWhile isBlank).head?, isBlank c = false := by
  intro c hc
  have hnot := List.head?_dropWhile_not isBlank cs
  rw [Option.mem_def.mp hc] at hnot
  exact hnot

theorem Bare.trim {s : String} (h : Bare s) : trim s = s := by
  have hlast : s.toList.reverse.dropWhile isBlank = s.toList.reverse := by
    apply dropWhile_of_head?
    rw [List.head?_reverse]
    exact h.last
  rw [Text.trim, trimChars, dropWhile_of_head? h.first, hlast, List.reverse_reverse,
    String.ofList_toList]

/-- Trimming leaves text without blanks alone. -/
theorem trim_ofList {cs : List Char} (h : ∀ c ∈ cs, isBlank c = false) :
    Text.trim (String.ofList cs) = String.ofList cs := by
  apply Bare.trim
  constructor <;> intro c hc <;> rw [String.toList_ofList] at hc
  · exact h c (List.mem_of_mem_head? hc)
  · exact h c (List.mem_of_mem_getLast? hc)

theorem front_trimChars (cs : List Char) : trimChars cs <+: cs.dropWhile isBlank := by
  have hsuffix := List.dropWhile_suffix (l := (cs.dropWhile isBlank).reverse) isBlank
  rw [← List.reverse_prefix, List.reverse_reverse] at hsuffix
  exact hsuffix

theorem bare_trim (s : String) : Bare (Text.trim s) := by
  constructor <;> intro c hc <;> rw [Text.trim, String.toList_ofList] at hc
  · -- what is left of the text still begins where the blanks in front have been dropped
    obtain ⟨rest, hrest⟩ := front_trimChars s.toList
    apply head?_dropWhile s.toList c
    rw [← hrest, List.head?_append, Option.mem_def.mp hc]
    rfl
  · apply head?_dropWhile (s.toList.dropWhile isBlank).reverse c
    rw [trimChars, List.getLast?_reverse] at hc
    exact hc

theorem mem_of_mem_trim {s : String} {c : Char} (h : c ∈ (Text.trim s).toList) : c ∈ s.toList := by
  rw [Text.trim, String.toList_ofList] at h
  exact List.dropWhile_subset _ ((front_trimChars s.toList).subset h)

end PhasedGrid.Text
