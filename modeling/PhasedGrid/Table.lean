/-!
Finite tables as association lists in key order, and finite sets as lists in element order.
Reading after writing follows the usual equations, whether or not the list is in order.
-/

namespace PhasedGrid

set_option autoImplicit false

universe u v

variable {κ : Type u} {ν : Type v}

/-- A finite table; the first entry of a key is the one that counts. -/
abbrev Table (κ : Type u) (ν : Type v) := List (κ × ν)

namespace Table

/-- The value of a key, from its first entry. -/
def get? [DecidableEq κ] (k : κ) : Table κ ν → Option ν
  | [] => none
  | e :: rest => if e.1 = k then some e.2 else get? k rest

def has [DecidableEq κ] (k : κ) (t : Table κ ν) : Bool :=
  (get? k t).isSome

/-- Writes a key, in front of the first larger one if it is new. -/
def insert [DecidableEq κ] [LT κ] [DecidableLT κ] (k : κ) (x : ν) : Table κ ν → Table κ ν
  | [] => [(k, x)]
  | e :: rest =>
    if e.1 = k then (k, x) :: rest
    else if k < e.1 then (k, x) :: e :: rest
    else e :: insert k x rest

def erase [DecidableEq κ] (k : κ) (t : Table κ ν) : Table κ ν :=
  List.filter (fun e => !decide (e.1 = k)) t

def keys (t : Table κ ν) : List κ := List.map Prod.fst t

@[simp] theorem get?_nil [DecidableEq κ] (k : κ) : get? k ([] : Table κ ν) = none := rfl

theorem get?_insert [DecidableEq κ] [LT κ] [DecidableLT κ] (t : Table κ ν) (k k' : κ) (x : ν) :
    get? k' (insert k x t) = if k = k' then some x else get? k' t := by
  induction t with
  | nil => simp [insert, get?]
  | cons e rest ih =>
    by_cases he : e.1 = k
    · by_cases hk : k = k' <;> simp [insert, he, get?, hk]
    · by_cases hl : k < e.1
      · simp [insert, he, hl, get?]
      · by_cases hk : k = k'
        · subst hk
          simp [insert, he, hl, get?, ih]
        · simp [insert, he, hl, get?, ih, hk]

theorem get?_erase [DecidableEq κ] (t : Table κ ν) (k k' : κ) :
    get? k' (erase k t) = if k = k' then none else get? k' t := by
  induction t with
  | nil => simp [erase]
  | cons e rest ih =>
    by_cases he : e.1 = k
    · have hr : erase k (e :: rest) = erase k rest := by simp [erase, he]
      rw [hr, ih]
      by_cases hk : k = k' <;> simp [get?, he, hk]
    · have hr : erase k (e :: rest) = e :: erase k rest := by simp [erase, he]
      rw [hr]
      by_cases hk : k = k'
      · subst hk
        simp [get?, he, ih]
      · simp [get?, ih, hk]

end Table

namespace Ordered

/-- Adds an element in front of the first larger one, unless it is there. -/
def insert [DecidableEq κ] [LT κ] [DecidableLT κ] (x : κ) : List κ → List κ
  | [] => [x]
  | y :: rest =>
    if y = x then y :: rest
    else if x < y then x :: y :: rest
    else y :: insert x rest

def ofList [DecidableEq κ] [LT κ] [DecidableLT κ] (xs : List κ) : List κ :=
  xs.foldl (fun acc x => insert x acc) []

theorem mem_insert [DecidableEq κ] [LT κ] [DecidableLT κ] (x y : κ) (s : List κ) :
    y ∈ insert x s ↔ y = x ∨ y ∈ s := by
  induction s with
  | nil => simp [insert]
  | cons z rest ih =>
    by_cases hz : z = x
    · subst hz
      simp [insert]
    · by_cases hl : x < z
      · simp [insert, hz, hl]
      · simp only [insert, hz, hl, if_false, List.mem_cons, ih]
        exact or_left_comm

theorem mem_ofList [DecidableEq κ] [LT κ] [DecidableLT κ] (y : κ) (xs : List κ) :
    y ∈ ofList xs ↔ y ∈ xs := by
  have key : ∀ (xs acc : List κ),
      y ∈ xs.foldl (fun acc x => insert x acc) acc ↔ y ∈ acc ∨ y ∈ xs := by
    intro xs
    induction xs with
    | nil => simp
    | cons x rest ih =>
      intro acc
      simp only [List.foldl_cons, ih, mem_insert, List.mem_cons]
      constructor
      · rintro ((h | h) | h)
        · exact Or.inr (Or.inl h)
        · exact Or.inl h
        · exact Or.inr (Or.inr h)
      · rintro (h | h | h)
        · exact Or.inl (Or.inr h)
        · exact Or.inl (Or.inl h)
        · exact Or.inr h
  simp [ofList, key]

end Ordered

end PhasedGrid
