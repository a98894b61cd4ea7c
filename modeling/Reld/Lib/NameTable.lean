import Mathlib.Algebra.GroupWithZero.Nat
import Mathlib.Algebra.BigOperators.Group.List.Basic
import Mathlib.Data.List.TakeWhile

/-!
# `Lib.NameTable` — names one behind the other, each with a terminator

A table of names is read at the offset of a name. The offset of a name is what the names before it take up, and what
is found there is the name with its terminator (`read_table`). Whoever reads up to the terminator finds the name, if
the terminator is not in it (`nameAt_table`).
-/

universe u

namespace NameTable

variable {α : Type u} (stop : α) (names : List (List α))

/-- What a name takes up. -/
def room (name : List α) : Nat := name.length + 1

/-- All names, each with its terminator. -/
def table : List α := names.flatMap (· ++ [stop])

/-- The offset of the name with the index `i`. -/
def offset (i : Nat) : Nat := ((names.take i).map room).sum

variable {stop names}

@[simp] theorem table_nil : table stop [] = [] := rfl

@[simp] theorem table_cons (name : List α) : table stop (name :: names) = name ++ stop :: table stop names := by
  simp [table]

theorem table_append (more : List (List α)) : table stop (names ++ more) = table stop names ++ table stop more :=
  List.flatMap_append

theorem length_table : (table stop names).length = (names.map room).sum := by
  induction names with
  | nil => rfl
  | cons name names ih =>
    rw [table_cons, List.length_append, List.length_cons, ih, List.map_cons, List.sum_cons, room]
    omega

@[simp] theorem offset_zero : offset names 0 = 0 := rfl

/-- The offset of a name is within the table. -/
theorem offset_lt {i : Nat} {name : List α} (h : names[i]? = some name) : offset names i < (names.map room).sum := by
  have hsplit : (names.map room).sum = offset names i + ((names.drop i).map room).sum := by
    unfold offset
    rw [← List.sum_append, ← List.map_append, List.take_append_drop]
  obtain ⟨hi, hname⟩ := List.getElem?_eq_some_iff.mp h
  rw [hsplit, List.drop_eq_getElem_cons hi, List.map_cons, List.sum_cons, room]
  omega

/-- What is in the table at the offset of a name. -/
theorem read_table {i : Nat} {name : List α} (h : names[i]? = some name) :
    ((table stop names).drop (offset names i)).take (room name) = name ++ [stop] := by
  obtain ⟨hi, hname⟩ := List.getElem?_eq_some_iff.mp h
  have hsplit : names = names.take i ++ name :: names.drop (i + 1) := by
    rw [← hname, ← List.drop_eq_getElem_cons hi, List.take_append_drop]
  have hdrop : (table stop names).drop (offset names i) = table stop (name :: names.drop (i + 1)) := by
    have hlength : offset names i = (table stop (names.take i)).length := length_table.symm
    have htable : table stop names = table stop (names.take i) ++ table stop (name :: names.drop (i + 1)) :=
      (congrArg (table stop) hsplit).trans (table_append _)
    rw [hlength, htable, List.drop_left]
  rw [hdrop, table_cons, ← List.singleton_append, ← List.append_assoc, List.take_append_of_le_length]
  · rw [List.take_of_length_le]
    simp [room]
  · simp [room]

/-! ## Reading up to the terminator -/

section NameAt

variable [DecidableEq α] {front behind bytes name : List α} {i pos : Nat}

/-- What is at a position, up to the terminator. -/
def nameAt (stop : α) (bytes : List α) (pos : Nat) : Option (List α) :=
  if stop ∈ bytes.drop pos then some ((bytes.drop pos).takeWhile (· ≠ stop)) else none

/-- **A name is read back** at its offset, whatever is in front of the table and behind it. -/
theorem nameAt_table (h : names[i]? = some name) (hstop : stop ∉ name) :
    nameAt stop (front ++ (table stop names ++ behind)) (front.length + offset names i) = some name := by
  have hdrop : (front ++ (table stop names ++ behind)).drop (front.length + offset names i)
      = name ++ stop :: (((table stop names).drop (offset names i)).drop (room name) ++ behind) := by
    have hwithin := offset_lt h
    rw [← length_table] at hwithin
    have hsplit := List.take_append_drop (room name) ((table stop names).drop (offset names i))
    rw [read_table h] at hsplit
    rw [List.drop_append, List.drop_eq_nil_of_le (Nat.le_add_right _ _), List.nil_append, Nat.add_sub_cancel_left,
      List.drop_append_of_le_length (Nat.le_of_lt hwithin)]
    conv_lhs => rw [← hsplit]
    simp
  unfold nameAt
  rw [hdrop, if_pos List.mem_append_cons_self, List.takeWhile_append_of_pos,
    List.takeWhile_cons_of_neg (by simp), List.append_nil]
  intro c hc
  have hne : c ≠ stop := fun heq => hstop (heq ▸ hc)
  simpa using hne

/-- What is read has no terminator in it. -/
theorem notMem_of_nameAt (h : nameAt stop bytes pos = some name) : stop ∉ name := by
  unfold nameAt at h
  split at h
  · obtain rfl := Option.some.inj h
    intro hmem
    simpa using List.mem_takeWhile_imp hmem
  · cases h

end NameAt

end NameTable
