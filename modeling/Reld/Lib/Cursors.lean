import Mathlib.Data.List.Forall2

/-!
# `Lib.Cursors` — tables that are filled from the front

A cursor knows the slots that it has passed, and counts those in front of it. Each slot is passed once, so nothing is
written twice. The front of a table can be cut off, filled by a cursor of its own, and passed as that one has left it.

Two tables are in step (`InStep`) as long as their cursors have passed as many slots, nothing was left out in either,
and the entries belong together.
-/

namespace Cursors

/-- The slots behind a cursor, and how many are in front of it. Nothing is in a slot that is `none`. -/
structure Cursor (α : Type) where
  passed : List (Option α)
  free : Nat

variable {α β : Type}

namespace Cursor

/-- A cursor in front of a table. -/
def new (n : Nat) : Cursor α := ⟨[], n⟩

/-- The table as it is. -/
def table (c : Cursor α) : List (Option α) := c.passed ++ List.replicate c.free none

/-- The next slot is written. -/
def push (c : Cursor α) (a : α) : Option (Cursor α) :=
  if 0 < c.free then some ⟨c.passed ++ [some a], c.free - 1⟩ else none

/-- The next slots are taken away; the cursor is behind them. -/
def take (c : Cursor α) (n : Nat) : Option (Cursor α) := if n ≤ c.free then some ⟨c.passed, c.free - n⟩ else none

/-- Slots that were taken away are passed as another cursor has left them. -/
def pass (c : Cursor α) (part : List (Option α)) : Cursor α := ⟨c.passed ++ part, c.free⟩

/-- The number of slots, behind and in front. -/
def size (c : Cursor α) : Nat := c.passed.length + c.free

variable {c c' : Cursor α} {a : α} {n : Nat}

theorem size_new : (new n : Cursor α).size = n := by
  rw [size, new, List.length_nil, Nat.zero_add]

theorem length_table (c : Cursor α) : c.table.length = c.size := by
  rw [table, List.length_append, List.length_replicate, size]

theorem push_eq_some : c.push a = some c' ↔ 0 < c.free ∧ c' = ⟨c.passed ++ [some a], c.free - 1⟩ := by
  unfold push
  by_cases h : 0 < c.free
  · simp [h, eq_comm]
  · simp [h]

theorem take_eq_some : c.take n = some c' ↔ n ≤ c.free ∧ c' = ⟨c.passed, c.free - n⟩ := by
  unfold take
  by_cases h : n ≤ c.free
  · simp [h, eq_comm]
  · simp [h]

theorem size_push (h : c.push a = some c') : c'.size = c.size := by
  obtain ⟨hfree, rfl⟩ := push_eq_some.1 h
  simp only [size, List.length_append, List.length_singleton]
  omega

/-- Slots that are taken, and passed, are still there. -/
theorem size_pass (h : c.take n = some c') {part : List (Option α)} (hpart : part.length = n) :
    (c'.pass part).size = c.size := by
  obtain ⟨hfree, rfl⟩ := take_eq_some.1 h
  simp only [size, pass, List.length_append]
  omega

theorem table_of_free_eq_zero (h : c.free = 0) : c.table = c.passed := by
  rw [table, h, List.replicate_zero, List.append_nil]

/-- A slot in front of the cursor is empty. -/
theorem none_mem_table (h : 0 < c.free) : none ∈ c.table :=
  List.mem_append_right _ (List.mem_replicate.2 ⟨by omega, rfl⟩)

end Cursor

/-! ## Two tables -/

/-- Nothing was left out in either table, the entries belong together, and as many slots are left. -/
structure InStep (r : α → β → Prop) (c : Cursor α) (d : Cursor β) : Prop where
  entries : ∃ as bs, c.passed = as.map some ∧ d.passed = bs.map some ∧ List.Forall₂ r as bs
  free : c.free = d.free

variable {r : α → β → Prop} {c c' : Cursor α} {d d' : Cursor β}

theorem InStep.new (n : Nat) : InStep r (.new n) (.new n) := ⟨⟨[], [], rfl, rfl, .nil⟩, rfl⟩

theorem InStep.push (h : InStep r c d) {a : α} {b : β} (hr : r a b) (hc : c.push a = some c') (hd : d.push b = some d') :
    InStep r c' d' := by
  obtain ⟨-, rfl⟩ := Cursor.push_eq_some.1 hc
  obtain ⟨-, rfl⟩ := Cursor.push_eq_some.1 hd
  obtain ⟨as, bs, has, hbs, hall⟩ := h.entries
  refine ⟨⟨as ++ [a], bs ++ [b], ?_, ?_, List.rel_append hall (.cons hr .nil)⟩, congrArg (· - 1) h.free⟩
  · rw [has, List.map_append, List.map_singleton]
  · rw [hbs, List.map_append, List.map_singleton]

/-- Parts that are in step, and full, are passed. -/
theorem InStep.pass (h : InStep r c d) {part : Cursor α} {part' : Cursor β} (hpart : InStep r part part')
    (hfull : part.free = 0) : InStep r (c.pass part.table) (d.pass part'.table) := by
  obtain ⟨as, bs, has, hbs, hall⟩ := h.entries
  obtain ⟨as', bs', has', hbs', hall'⟩ := hpart.entries
  refine ⟨⟨as ++ as', bs ++ bs', ?_, ?_, List.rel_append hall hall'⟩, h.free⟩
  · rw [Cursor.pass, Cursor.table_of_free_eq_zero hfull, has, has', List.map_append]
  · rw [Cursor.pass, Cursor.table_of_free_eq_zero (hpart.free ▸ hfull), hbs, hbs', List.map_append]

theorem InStep.take (h : InStep r c d) {n : Nat} (hc : c.take n = some c') (hd : d.take n = some d') :
    InStep r c' d' := by
  obtain ⟨-, rfl⟩ := Cursor.take_eq_some.1 hc
  obtain ⟨-, rfl⟩ := Cursor.take_eq_some.1 hd
  exact ⟨h.entries, congrArg (· - n) h.free⟩

/-- **Full tables that are in step belong together, entry by entry.** -/
theorem InStep.tables (h : InStep r c d) (hfull : c.free = 0) :
    ∃ as bs, c.table = as.map some ∧ d.table = bs.map some ∧ List.Forall₂ r as bs := by
  obtain ⟨as, bs, has, hbs, hall⟩ := h.entries
  refine ⟨as, bs, ?_, ?_, hall⟩
  · rw [Cursor.table_of_free_eq_zero hfull, has]
  · rw [Cursor.table_of_free_eq_zero (h.free ▸ hfull), hbs]

end Cursors
