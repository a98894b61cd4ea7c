import Mathlib.Algebra.GroupWithZero.Nat
import Mathlib.Data.List.Nodup
import Mathlib.Data.List.Infix
import Mathlib.Algebra.BigOperators.Group.List.Basic

/-!
# `Lib.Interning` — a pool that keeps each element once

Elements are added to a pool one after the other, and one that is there already is not added again. Laid out one
behind the other, each has an offset. The pool only grows at the end, so an offset that has been given stays
(`offsetOf_foldl`).
-/

universe u v

namespace Interning

variable {α : Type u} [DecidableEq α] {β : Type v} {size : α → Nat} {pool xs ys : List α} {x y : α}

def add (pool : List α) (x : α) : List α := if x ∈ pool then pool else pool ++ [x]

/-- The elements of a list, each once, in the order of their first occurrences. -/
def distinct (xs : List α) : List α := xs.foldl add []

/-- How much lies in front of an element. -/
def offsetOf (size : α → Nat) (pool : List α) (x : α) : Nat := ((pool.takeWhile (· ≠ x)).map size).sum

theorem add_of_mem (h : x ∈ pool) : add pool x = pool := if_pos h

theorem add_of_not_mem (h : x ∉ pool) : add pool x = pool ++ [x] := if_neg h

theorem prefix_add (pool : List α) (x : α) : pool <+: add pool x := by
  unfold add
  split
  · exact List.prefix_rfl
  · exact List.prefix_append _ _

theorem mem_add : y ∈ add pool x ↔ y ∈ pool ∨ y = x := by
  unfold add
  split
  case isTrue hx =>
    constructor
    · exact Or.inl
    · rintro (hy | rfl)
      · exact hy
      · exact hx
  case isFalse => simp

theorem prefix_foldl (pool xs : List α) : pool <+: xs.foldl add pool := by
  induction xs generalizing pool with
  | nil => exact List.prefix_rfl
  | cons x xs ih => exact (prefix_add pool x).trans (ih _)

theorem mem_foldl : y ∈ xs.foldl add pool ↔ y ∈ pool ∨ y ∈ xs := by
  induction xs generalizing pool with
  | nil => simp
  | cons x xs ih => rw [List.foldl_cons, ih, mem_add, List.mem_cons, or_assoc]

theorem mem_distinct : y ∈ distinct xs ↔ y ∈ xs := by
  simp [distinct, mem_foldl]

theorem distinct_append (xs ys : List α) : distinct (xs ++ ys) = ys.foldl add (distinct xs) :=
  List.foldl_append

theorem distinct_front (xs ys : List α) : distinct xs <+: distinct (xs ++ ys) := by
  rw [distinct_append]
  exact prefix_foldl _ _

theorem takeWhile_append_of_mem (hx : x ∈ pool) (rest : List α) :
    (pool ++ rest).takeWhile (· ≠ x) = pool.takeWhile (· ≠ x) := by
  induction pool with
  | nil => cases hx
  | cons y ys ih =>
    by_cases hy : y = x
    · simp [hy]
    · rw [List.cons_append, List.takeWhile_cons_of_pos (by simpa using hy),
        List.takeWhile_cons_of_pos (by simpa using hy), ih ((List.mem_cons.mp hx).resolve_left (Ne.symm hy))]

theorem takeWhile_of_not_mem (hx : x ∉ pool) : pool.takeWhile (· ≠ x) = pool := by
  induction pool with
  | nil => rfl
  | cons y ys ih =>
    rw [List.mem_cons, not_or] at hx
    rw [List.takeWhile_cons_of_pos (by simpa using Ne.symm hx.1), ih hx.2]

/-- An offset does not depend on what comes later. -/
theorem offsetOf_front {pool' : List α} (hfront : pool <+: pool') (hx : x ∈ pool) :
    offsetOf size pool' x = offsetOf size pool x := by
  obtain ⟨rest, rfl⟩ := hfront
  rw [offsetOf, takeWhile_append_of_mem hx, offsetOf]

/-- A new element comes behind all others. -/
theorem offsetOf_new (hx : x ∉ pool) : offsetOf size (pool ++ [x]) x = (pool.map size).sum := by
  unfold offsetOf
  rw [List.takeWhile_append, if_pos (by rw [takeWhile_of_not_mem hx]), List.takeWhile_cons_of_neg (by simp),
    List.append_nil]

/-- The pool in front of an element, the element, and the rest. -/
theorem split_at (hx : x ∈ pool) : ∃ rest, pool = pool.takeWhile (· ≠ x) ++ x :: rest := by
  induction pool with
  | nil => cases hx
  | cons y ys ih =>
    by_cases hy : y = x
    · exact ⟨ys, by simp [hy]⟩
    · obtain ⟨rest, hrest⟩ := ih ((List.mem_cons.mp hx).resolve_left (Ne.symm hy))
      refine ⟨rest, ?_⟩
      rw [List.takeWhile_cons_of_pos (by simpa using hy), List.cons_append, ← hrest]

/-- Up to the end of an element there is no more than in the pool. -/
theorem offsetOf_add_le (hx : x ∈ pool) : offsetOf size pool x + size x ≤ (pool.map size).sum := by
  obtain ⟨rest, hsplit⟩ := split_at hx
  have hsum : (pool.map size).sum = offsetOf size pool x + (size x + (rest.map size).sum) := by
    conv_lhs => rw [hsplit]
    simp [offsetOf]
  omega

/-- Laid out one behind the other, an element lies at its offset. -/
theorem drop_offsetOf {pool : List (List β)} [DecidableEq β] {x : List β} (hx : x ∈ pool) :
    x <+: pool.flatten.drop (offsetOf List.length pool x) := by
  obtain ⟨rest, hsplit⟩ := split_at hx
  have hlength : offsetOf List.length pool x = (pool.takeWhile (· ≠ x)).flatten.length := by
    rw [List.length_flatten, offsetOf]
  have hflatten : pool.flatten = (pool.takeWhile (· ≠ x)).flatten ++ (x ++ rest.flatten) := by
    conv_lhs => rw [hsplit]
    simp
  rw [hlength, hflatten, List.drop_left]
  exact List.prefix_append _ _

end Interning

/-!
# A map that keeps the order of insertion

A key stands where it was inserted first; inserting it again changes its value only. A list without a key twice is
the entries of the map that is built from it (`entries_ofList`), so a map can be written down and read back.
-/

/-- Keys with their values, in the order of insertion. -/
structure IndexMap (K : Type u) (V : Type v) where
  entries : List (K × V)
  nodup : (entries.map Prod.fst).Nodup

namespace IndexMap

variable {K : Type u} {V : Type v}

variable {m : IndexMap K V}

@[ext] theorem ext {m' : IndexMap K V} (h : m.entries = m'.entries) : m = m' := by
  cases m
  cases m'
  simpa using h

def empty : IndexMap K V := ⟨[], List.nodup_nil⟩

@[simp] theorem entries_empty : (empty : IndexMap K V).entries = [] := rfl

variable [DecidableEq K]

instance [DecidableEq V] : DecidableEq (IndexMap K V) := fun m m' =>
  decidable_of_iff (m.entries = m'.entries) ⟨ext, fun h => h ▸ rfl⟩

def containsKey (m : IndexMap K V) (k : K) : Bool := decide (k ∈ m.entries.map Prod.fst)

/-- `entry(k).and_modify(..).or_insert(v)` on a list of entries. -/
def insertEntry (f : V → V → V) (k : K) (v : V) (entries : List (K × V)) : List (K × V) :=
  if k ∈ entries.map Prod.fst then entries.map (fun e => if e.1 = k then (e.1, f e.2 v) else e)
  else entries ++ [(k, v)]

theorem keys_insertEntry (f : V → V → V) (k : K) (v : V) (entries : List (K × V)) :
    (insertEntry f k v entries).map Prod.fst
      = if k ∈ entries.map Prod.fst then entries.map Prod.fst else entries.map Prod.fst ++ [k] := by
  unfold insertEntry
  split_ifs with h
  · rw [List.map_map]
    refine List.map_congr_left (fun e _ => ?_)
    simp only [Function.comp_apply]
    split_ifs <;> rfl
  · rw [List.map_append]
    rfl

/-- The value of a key is combined with the new one, and a new key comes last. -/
def insertWith (f : V → V → V) (m : IndexMap K V) (e : K × V) : IndexMap K V where
  entries := insertEntry f e.1 e.2 m.entries
  nodup := by
    rw [keys_insertEntry]
    split_ifs with h
    · exact m.nodup
    · exact List.nodup_append.mpr ⟨m.nodup, List.nodup_singleton _, by
        intro a ha b hb heq
        rw [List.mem_singleton] at hb
        exact h (hb ▸ heq ▸ ha)⟩

def insert (m : IndexMap K V) (e : K × V) : IndexMap K V := m.insertWith (fun _ v => v) e

/-- Insert the entries of a list one after another. -/
def ofList (l : List (K × V)) : IndexMap K V := l.foldl insert empty

variable {f : V → V → V}

theorem entries_insertWith_of_notMem {e : K × V} (h : e.1 ∉ m.entries.map Prod.fst) :
    (m.insertWith f e).entries = m.entries ++ [e] := if_neg h

/-- What is an entry after an insertion: the new one, one that was there, or one that is combined with the new one. -/
theorem mem_insertWith {e x : K × V} (h : x ∈ (m.insertWith f e).entries) :
    x = e ∨ x ∈ m.entries ∨ ∃ v, (e.1, v) ∈ m.entries ∧ x = (e.1, f v e.2) := by
  unfold insertWith insertEntry at h
  split_ifs at h with hmem
  · obtain ⟨y, hy, rfl⟩ := List.mem_map.mp h
    split_ifs with hkey
    · exact Or.inr (Or.inr ⟨y.2, hkey ▸ hy, by rw [hkey]⟩)
    · exact Or.inr (Or.inl hy)
  · rcases List.mem_append.mp h with h | h
    · exact Or.inr (Or.inl h)
    · exact Or.inl (List.mem_singleton.mp h)

variable {l : List (K × V)}

/-- A key stays, and what has been inserted is there. -/
theorem mem_keys_foldl_insertWith {k : K} :
    ∀ {m : IndexMap K V}, k ∈ (l.foldl (insertWith f) m).entries.map Prod.fst ↔
      k ∈ m.entries.map Prod.fst ∨ k ∈ l.map Prod.fst := by
  induction l with
  | nil => simp
  | cons e l ih =>
    intro m
    have hkeys : k ∈ (m.insertWith f e).entries.map Prod.fst ↔ k ∈ m.entries.map Prod.fst ∨ k = e.1 := by
      unfold insertWith
      rw [keys_insertEntry]
      split_ifs with h
      · exact ⟨Or.inl, fun hk => hk.elim id (fun heq => heq ▸ h)⟩
      · rw [List.mem_append, List.mem_singleton]
    rw [List.foldl_cons, ih, hkeys, List.map_cons, List.mem_cons, or_assoc]

/-- What holds of all entries, and is kept when a value is combined, holds after insertions. -/
theorem forall_foldl_insertWith {p : K × V → Prop} (hf : ∀ k v v', p (k, v) → p (k, v') → p (k, f v v'))
    (hl : ∀ e ∈ l, p e) :
    ∀ {m : IndexMap K V}, (∀ e ∈ m.entries, p e) → ∀ e ∈ (l.foldl (insertWith f) m).entries, p e := by
  induction l with
  | nil => exact fun hm => hm
  | cons x l ih =>
    intro m hm
    obtain ⟨hx, hl⟩ := List.forall_mem_cons.mp hl
    refine ih hl (fun e he => ?_)
    rcases mem_insertWith he with rfl | he | ⟨v, hv, rfl⟩
    · exact hx
    · exact hm e he
    · exact hf _ _ _ (hm _ hv) hx

theorem entries_foldl_insert :
    ∀ {m : IndexMap K V}, ((m.entries ++ l).map Prod.fst).Nodup → (l.foldl insert m).entries = m.entries ++ l := by
  induction l with
  | nil => exact fun _ => (List.append_nil _).symm
  | cons e l ih =>
    intro m hnodup
    have hfresh : e.1 ∉ m.entries.map Prod.fst := by
      rw [List.map_append, List.map_cons, List.nodup_append] at hnodup
      intro hmem
      exact hnodup.2.2 _ hmem _ List.mem_cons_self rfl
    have hentries : (m.insert e).entries = m.entries ++ [e] := entries_insertWith_of_notMem hfresh
    rw [List.foldl_cons, ih, hentries, List.append_assoc, List.singleton_append]
    rw [hentries, List.append_assoc, List.singleton_append]
    exact hnodup

/-- **A map is read back** from its entries. -/
theorem ofList_entries (m : IndexMap K V) : ofList m.entries = m := by
  apply ext
  unfold ofList
  rw [entries_foldl_insert (by simpa using m.nodup)]
  rfl

end IndexMap
