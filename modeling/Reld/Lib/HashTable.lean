import Mathlib.Data.List.Basic

/-!
# `Lib.HashTable` — a hash table that keeps the order of insertion

`HashTable.find` returns, among the entries with the hash, the first one inserted that a predicate accepts.
A table that is filled from a list so finds the first element of the list that has the hash and is accepted:
`find_ofList`. What a search of the whole list finds first is found in the table if it was filed under the hash
that is looked up (`find?_filed`).
-/

variable {α H : Type*} [DecidableEq H]

/-- The entries with their hashes, in the order of insertion. -/
structure HashTable (H α : Type*) where
  entries : List (H × α) := []

namespace HashTable

/-- `insert_unique` -/
def insertUnique (t : HashTable H α) (hash : H) (a : α) : HashTable H α := ⟨t.entries ++ [(hash, a)]⟩

/-- `find` -/
def find (t : HashTable H α) (hash : H) (eq : α → Bool) : Option α :=
  (t.entries.find? fun entry => decide (entry.1 = hash) && eq entry.2).map Prod.snd

/-- Every element of a list, inserted in order. -/
def ofList (hash : α → H) (l : List α) : HashTable H α :=
  l.foldl (fun t a => t.insertUnique (hash a) a) {}

omit [DecidableEq H] in
theorem entries_foldl (hash : α → H) (l : List α) (t : HashTable H α) :
    (l.foldl (fun t a => t.insertUnique (hash a) a) t).entries = t.entries ++ l.map fun a => (hash a, a) := by
  induction l generalizing t with
  | nil => simp
  | cons a l ih =>
    rw [List.foldl_cons, ih]
    simp [insertUnique]

omit [DecidableEq H] in
theorem entries_ofList (hash : α → H) (l : List α) : (ofList hash l).entries = l.map fun a => (hash a, a) := by
  simp [ofList, entries_foldl]

/-- A table filled from a list finds what a search for the hash finds in the list. -/
theorem find_ofList (hash : α → H) (l : List α) (h : H) (eq : α → Bool) :
    (ofList hash l).find h eq = l.find? fun a => decide (hash a = h) && eq a := by
  rw [find, entries_ofList, List.find?_map, Option.map_map]
  exact Option.map_id' ..

end HashTable

/-! ## First matches -/

/-- The first element that `q` accepts is the first that both accept, if `p` accepts it. -/
theorem find?_filed {p q : α → Bool} {l : List α} {a : α} (h : l.find? q = some a) (hp : p a = true) :
    (l.find? fun x => p x && q x) = some a := by
  induction l with
  | nil => cases h
  | cons x l ih =>
    rw [List.find?_cons] at h
    cases hx : q x with
    | true =>
      rw [hx] at h
      cases h
      rw [List.find?_cons_of_pos (by simp [hp, hx])]
    | false =>
      rw [hx] at h
      rw [List.find?_cons_of_neg (by simp [hx])]
      exact ih h

/-- Nothing is found among the filed elements if nothing is found at all. -/
theorem find?_filed_eq_none {p q : α → Bool} {l : List α} (h : l.find? q = none) :
    (l.find? fun x => p x && q x) = none := by
  rw [List.find?_eq_none] at h ⊢
  intro x hx hpq
  exact h x hx (Bool.and_eq_true_iff.1 hpq).2
