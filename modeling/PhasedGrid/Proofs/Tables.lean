import Mathlib.Data.List.Perm.Basic
import PhasedGrid.Peer.Group

/-!
Keys of tables, and sets kept as ordered lists. A peer that is already in a group is not added
again, so a group made of a list of distinct names has one member for each of them.
-/

namespace PhasedGrid

set_option autoImplicit false

universe u v

variable {κ : Type u} {ν : Type v}

namespace Table

variable [DecidableEq κ]

theorem has_eq (k : κ) (t : Table κ ν) : has k t = (get? k t).isSome := rfl

theorem get?_eq_none_iff (k : κ) (t : Table κ ν) : get? k t = none ↔ has k t = false := by
  rw [has_eq, Option.isSome_eq_false_iff, Option.isNone_iff_eq_none]

theorem mem_keys_iff (k : κ) (t : Table κ ν) : k ∈ keys t ↔ has k t := by
  induction t with
  | nil => simp [keys, has]
  | cons e rest ih =>
    by_cases he : e.1 = k
    · simp [keys, has, get?, he]
    · have hr : has k (e :: rest) = has k rest := by simp [has, get?, he]
      rw [hr, ← ih]
      simp [keys, Ne.symm he]

theorem eq_nil_iff (t : Table κ ν) : t = [] ↔ ∀ k, has k t = false := by
  constructor
  · rintro rfl k
    rfl
  · intro h
    cases t with
    | nil => rfl
    | cons e rest =>
      have he := h e.1
      simp [has, get?] at he

theorem mem_of_get? {k : κ} {t : Table κ ν} {x : ν} (h : get? k t = some x) : (k, x) ∈ t := by
  induction t with
  | nil => cases h
  | cons e rest ih =>
    unfold get? at h
    split at h
    · rename_i he
      obtain rfl := Option.some.inj h
      exact he ▸ List.mem_cons_self
    · exact List.mem_cons_of_mem e (ih h)

variable [LT κ] [DecidableLT κ]

theorem has_insert (t : Table κ ν) (k k' : κ) (x : ν) :
    has k' (insert k x t) = (decide (k = k') || has k' t) := by
  rw [has_eq, get?_insert]
  by_cases h : k = k' <;> simp [h, has_eq]

theorem erase_insert (t : Table κ ν) (k : κ) (x : ν) : erase k (insert k x t) = erase k t := by
  induction t with
  | nil => simp [insert, erase]
  | cons e rest ih =>
    unfold insert
    split
    · rename_i he
      simp [erase, he]
    split
    · simp [erase]
    · unfold erase at ih ⊢
      simp only [List.filter_cons, ih]

/-- A new key makes one entry more. -/
theorem insert_perm {t : Table κ ν} {k : κ} (h : has k t = false) (x : ν) :
    (insert k x t).Perm ((k, x) :: t) := by
  induction t with
  | nil => exact List.Perm.refl _
  | cons e rest ih =>
    rw [← get?_eq_none_iff, get?] at h
    unfold insert
    split at h
    · cases h
    rename_i he
    rw [if_neg he]
    split
    · exact List.Perm.refl _
    · have hrest := ih ((get?_eq_none_iff k rest).mp h)
      exact (hrest.cons e).trans (List.Perm.swap (k, x) e rest)

theorem keys_insert (t : Table κ ν) (k : κ) (x : ν) :
    keys (insert k x t) = Ordered.insert k (keys t) := by
  induction t with
  | nil => rfl
  | cons e rest ih =>
    unfold keys at ih ⊢
    unfold insert
    rw [List.map_cons]
    unfold Ordered.insert
    by_cases he : e.1 = k
    · rw [if_pos he, if_pos he, List.map_cons, he]
    rw [if_neg he, if_neg he]
    by_cases hk : k < e.1
    · rw [if_pos hk, if_pos hk]
      rfl
    · rw [if_neg hk, if_neg hk, List.map_cons, ih]

/-- The keys stand in order, each once. -/
def Sorted (t : Table κ ν) : Prop := (keys t).Pairwise (· < ·)

omit [DecidableEq κ] [DecidableLT κ] in
theorem sorted_nil : Sorted ([] : Table κ ν) := List.Pairwise.nil

end Table

namespace Ordered

variable [DecidableEq κ] [LT κ] [DecidableLT κ]

theorem insert_perm {x : κ} {s : List κ} (h : x ∉ s) : (insert x s).Perm (x :: s) := by
  induction s with
  | nil => exact List.Perm.refl _
  | cons y rest ih =>
    rw [List.mem_cons, not_or] at h
    unfold insert
    rw [if_neg (Ne.symm h.1)]
    split
    · exact List.Perm.refl _
    · exact ((ih h.2).cons y).trans (List.Perm.swap x y rest)

theorem length_le_insert (x : κ) (s : List κ) : s.length ≤ (insert x s).length := by
  induction s with
  | nil => exact Nat.zero_le _
  | cons y rest ih =>
    unfold insert
    split
    · exact Nat.le_refl _
    split
    · exact Nat.le_succ _
    · exact Nat.succ_le_succ ih

theorem pairwise_insert [Trans (fun a b : κ => a < b) (fun a b : κ => a < b) fun a b : κ => a < b]
    [Std.Trichotomous fun a b : κ => a < b] {s : List κ} (hs : s.Pairwise (· < ·)) (x : κ) :
    (insert x s).Pairwise (· < ·) := by
  induction s with
  | nil => exact List.pairwise_singleton _ x
  | cons y rest ih =>
    obtain ⟨hy, hrest⟩ := List.pairwise_cons.mp hs
    unfold insert
    split
    · exact hs
    rename_i hne
    split
    · rename_i hlt
      refine List.pairwise_cons.mpr ⟨fun z hz => ?_, hs⟩
      rcases List.mem_cons.mp hz with rfl | hz
      · exact hlt
      · exact Std.lt_trans hlt (hy z hz)
    · rename_i hnlt
      refine List.pairwise_cons.mpr ⟨fun z hz => ?_, ih hrest⟩
      rcases (mem_insert x z rest).mp hz with rfl | hz
      · rcases Std.lt_trichotomy y z with h | h | h
        · exact h
        · exact absurd h hne
        · exact absurd h hnlt
      · exact hy z hz

theorem pairwise_ofList [Trans (fun a b : κ => a < b) (fun a b : κ => a < b) fun a b : κ => a < b]
    [Std.Trichotomous fun a b : κ => a < b] (xs : List κ) : (ofList xs).Pairwise (· < ·) := by
  have key : ∀ xs s : List κ, s.Pairwise (· < ·) →
      (xs.foldl (fun acc x => insert x acc) s).Pairwise (· < ·) := by
    intro xs
    induction xs with
    | nil => exact fun _ hs => hs
    | cons x rest ih => exact fun s hs => ih _ (pairwise_insert hs x)
  exact key xs [] List.Pairwise.nil

end Ordered

namespace Table

variable [DecidableEq κ] [LT κ]

theorem get?_of_lt [Std.Irrefl fun a b : κ => a < b] {t : Table κ ν} {k : κ}
    (h : ∀ e ∈ t, k < e.1) : get? k t = none := by
  induction t with
  | nil => rfl
  | cons e rest ih =>
    have hne : e.1 ≠ k := by
      rintro rfl
      exact Std.lt_irrefl (h e List.mem_cons_self)
    rw [get?, if_neg hne]
    exact ih fun d hd => h d (List.mem_cons_of_mem e hd)

/-- In a table in order every entry is the one of its key. -/
theorem Sorted.get?_of_mem [Std.Irrefl fun a b : κ => a < b] {t : Table κ ν} (h : Sorted t) {k : κ}
    {x : ν} (hm : (k, x) ∈ t) : get? k t = some x := by
  induction t with
  | nil => cases hm
  | cons e rest ih =>
    obtain ⟨he, hrest⟩ := List.pairwise_cons.mp h
    rcases List.mem_cons.mp hm with rfl | hm
    · exact if_pos rfl
    · have hne : e.1 ≠ k := by
        rintro rfl
        exact Std.lt_irrefl (he e.1 (List.mem_map.mpr ⟨_, hm, rfl⟩))
      rw [get?, if_neg hne]
      exact ih hrest hm

variable [DecidableLT κ]
  [Trans (fun a b : κ => a < b) (fun a b : κ => a < b) fun a b : κ => a < b]

theorem Sorted.insert [Std.Trichotomous fun a b : κ => a < b] {t : Table κ ν} (h : Sorted t) (k : κ)
    (x : ν) : Sorted (insert k x t) := by
  unfold Sorted
  rw [keys_insert]
  exact Ordered.pairwise_insert h k

variable [Std.Irrefl fun a b : κ => a < b]

/-- Writing a key puts the new value in the place of the old one, if any. -/
theorem Sorted.insert_perm {t : Table κ ν} (h : Sorted t) (k : κ) (x : ν) :
    ∃ rest, t.Perm ((get? k t).toList.map (k, ·) ++ rest) ∧
      (Table.insert k x t).Perm ((k, x) :: rest) := by
  induction t with
  | nil => exact ⟨[], List.Perm.refl _, List.Perm.refl _⟩
  | cons e rest ih =>
    obtain ⟨he, hrest⟩ := List.pairwise_cons.mp h
    unfold Table.insert get?
    by_cases hk : e.1 = k
    · subst hk
      rw [if_pos rfl, if_pos rfl]
      exact ⟨rest, List.Perm.refl _, List.Perm.refl _⟩
    rw [if_neg hk, if_neg hk]
    by_cases hlt : k < e.1
    · rw [if_pos hlt]
      have hnone : get? k rest = none := get?_of_lt fun d hd =>
        Std.lt_trans hlt (he d.1 (List.mem_map_of_mem hd))
      rw [hnone]
      exact ⟨e :: rest, List.Perm.refl _, List.Perm.refl _⟩
    · rw [if_neg hlt]
      obtain ⟨rest', hold, hnew⟩ := ih hrest
      exact ⟨e :: rest', (hold.cons e).trans List.perm_middle.symm,
        (hnew.cons e).trans (List.Perm.swap _ _ _)⟩

/-- Of the lists made of the values, writing a key exchanges one. -/
theorem Sorted.flatMap_insert {β : Type} {t : Table κ ν} (h : Sorted t) (k : κ) (x : ν)
    (f : ν → List β) :
    ∃ rest, (t.flatMap fun e => f e.2).Perm (((get? k t).map f).getD [] ++ rest) ∧
      ((Table.insert k x t).flatMap fun e => f e.2).Perm (f x ++ rest) := by
  obtain ⟨rest, hold, hnew⟩ := h.insert_perm k x
  refine ⟨rest.flatMap fun e => f e.2, (hold.flatMap_right _).trans (.of_eq ?_),
    (hnew.flatMap_right _).trans (.of_eq List.flatMap_cons)⟩
  rw [List.flatMap_append]
  cases get? k t <;> simp

end Table

namespace Peer.Group

/-- The members stand in the order of their names, each once. -/
def Sorted (g : Group) : Prop := g.members.Pairwise (· < ·)

theorem mem_insert (g : Group) (p q : String) : q ∈ (g.insert p).members ↔ q = p ∨ q ∈ g.members :=
  Ordered.mem_insert p q g.members

theorem size_le_insert (g : Group) (p : String) : g.size ≤ (g.insert p).size :=
  Ordered.length_le_insert p g.members

/-- A node stays in the group that is announced to it. -/
theorem size_announce_pos (g : Group) (peers : List String) : 0 < (g.announce peers).size :=
  List.length_pos_of_mem ((Ordered.mem_insert g.own g.own _).mpr (Or.inl rfl))

theorem insert_of_mem {g : Group} (hs : g.Sorted) {p : String} (h : p ∈ g.members) :
    g.insert p = g := by
  have key : ∀ s : List String, s.Pairwise (· < ·) → p ∈ s → Ordered.insert p s = s := by
    intro s hs h
    induction s with
    | nil => exact absurd h List.not_mem_nil
    | cons y rest ih =>
      unfold Ordered.insert
      by_cases hy : y = p
      · rw [if_pos hy]
      · have hp : p ∈ rest := (List.mem_cons.mp h).resolve_left (Ne.symm hy)
        have hlt : y < p := (List.pairwise_cons.mp hs).1 p hp
        rw [if_neg hy, if_neg (String.lt_asymm hlt), ih (List.pairwise_cons.mp hs).2 hp]
  unfold insert
  rw [key g.members hs h]

theorem Sorted.insert {g : Group} (hs : g.Sorted) (p : String) : (g.insert p).Sorted :=
  Ordered.pairwise_insert hs p

theorem Sorted.nodup {g : Group} (hs : g.Sorted) : g.members.Nodup :=
  hs.imp fun h => by rintro rfl; exact String.lt_irrefl _ h

theorem foldl_insert (g : Group) (peers : List String) :
    (peers.foldl Group.insert g).own = g.own ∧
      (∀ q, q ∈ (peers.foldl Group.insert g).members ↔ q ∈ g.members ∨ q ∈ peers) ∧
      (g.Sorted → (peers.foldl Group.insert g).Sorted) := by
  induction peers generalizing g with
  | nil => simp
  | cons p rest ih =>
    obtain ⟨ho, hm, hs⟩ := ih (g.insert p)
    refine ⟨ho, fun q => ?_, fun h => hs (h.insert p)⟩
    rw [List.foldl_cons, hm q, mem_insert, List.mem_cons, or_comm (a := q = p), or_assoc]

theorem own_ofList (own : String) (peers : List String) : (ofList own peers).own = own :=
  (foldl_insert (alone own) peers).1

theorem mem_ofList {own : String} {peers : List String} (h : own ∈ peers) (q : String) :
    q ∈ (ofList own peers).members ↔ q ∈ peers := by
  rw [ofList, (foldl_insert (alone own) peers).2.1 q, alone, List.mem_singleton]
  exact ⟨fun hq => hq.elim (fun e => e ▸ h) id, Or.inr⟩

theorem size_ofList_pos (own : String) (peers : List String) : 0 < (ofList own peers).size :=
  List.length_pos_of_mem
    (((foldl_insert (alone own) peers).2.1 own).mpr (Or.inl (List.mem_singleton.mpr rfl)))

theorem sorted_ofList (own : String) (peers : List String) : (ofList own peers).Sorted :=
  (foldl_insert (alone own) peers).2.2 (List.pairwise_singleton _ own)

theorem size_ofList {own : String} {peers : List String} (h : own ∈ peers) (hn : peers.Nodup) :
    (ofList own peers).size = peers.length :=
  ((List.perm_ext_iff_of_nodup (sorted_ofList own peers).nodup hn).mpr (mem_ofList h)).length_eq

/-- The group announced to a node is made of the peers listed and the node. -/
theorem announce_eq (g : Group) (peers : List String) : g.announce peers = ofList g.own peers := by
  have hs : (g.announce peers).Sorted :=
    Ordered.pairwise_insert (Ordered.pairwise_ofList peers) g.own
  have hs' := sorted_ofList g.own peers
  have hmem : ∀ q, q ∈ (g.announce peers).members ↔ q ∈ (ofList g.own peers).members := by
    intro q
    rw [announce, Ordered.mem_insert, Ordered.mem_ofList, ofList,
      (foldl_insert (alone g.own) peers).2.1 q, alone, List.mem_singleton]
  have hperm := (List.perm_ext_iff_of_nodup hs.nodup hs'.nodup).mpr hmem
  have hmembers := hperm.eq_of_pairwise (fun a b _ _ hab hba => absurd hba (String.lt_asymm hab))
    hs hs'
  have hown := own_ofList g.own peers
  rw [Group.mk.injEq]
  exact ⟨hown.symm, hmembers⟩

theorem insert_ofList {own p : String} {peers : List String} (h : own ∈ peers) (hp : p ∈ peers) :
    (ofList own peers).insert p = ofList own peers :=
  insert_of_mem (sorted_ofList own peers) ((mem_ofList h p).mpr hp)

theorem mem_others_ofList {own : String} {peers : List String} (h : own ∈ peers) (q : String) :
    q ∈ (ofList own peers).others ↔ q ∈ peers ∧ q ≠ own := by
  rw [others, List.mem_filter, mem_ofList h, own_ofList, decide_eq_true_eq]

theorem nodup_others_ofList (own : String) (peers : List String) :
    (ofList own peers).others.Nodup :=
  (sorted_ofList own peers).nodup.filter _

end Peer.Group

end PhasedGrid
