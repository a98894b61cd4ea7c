import Mathlib.Algebra.GroupWithZero.Nat
import Mathlib.Data.List.Nodup
import Mathlib.Algebra.BigOperators.Group.List.Basic

/-!
# `Lib.Segments` — consecutive index ranges

A list of segments lays its elements out one after another: a segment of size `n` takes the `n` indices
after those of the segments before it. `locate` finds the segment of an index and the offset in it, `start`
the first index of a segment, and `locate_eq_some_iff` says that they are inverse to each other.
-/

universe u

namespace Segments

variable {α : Type u} (size : α → Nat)

/-- The number of indices of all segments. -/
def total (l : List α) : Nat := (l.map size).sum

/-- The segment that holds an index and the offset of the index in it. -/
def locate : List α → Nat → Option (α × Nat)
  | [], _ => none
  | a :: l, i => if i < size a then some (a, i) else locate l (i - size a)

/-- The first index of the first segment that satisfies `p`. -/
def start (p : α → Bool) : List α → Nat
  | [] => 0
  | a :: l => if p a then 0 else size a + start p l

variable {size}

theorem total_append (l m : List α) : total size (l ++ m) = total size l + total size m := by
  unfold total
  rw [List.map_append, List.sum_append]

@[simp] theorem total_nil : total size ([] : List α) = 0 := rfl

@[simp] theorem total_cons (a : α) (l : List α) : total size (a :: l) = size a + total size l := by
  unfold total
  rw [List.map_cons, List.sum_cons]

variable {l : List α} {i : Nat}

/-- Segments appended at the end do not move the earlier ones. -/
theorem locate_append_left (h : i < total size l) (m : List α) :
    locate size (l ++ m) i = locate size l i := by
  induction l generalizing i with
  | nil => exact absurd h (Nat.not_lt_zero i)
  | cons a l ih =>
    rw [List.cons_append, locate, locate]
    by_cases hi : i < size a
    · rw [if_pos hi, if_pos hi]
    · rw [if_neg hi, if_neg hi]
      apply ih
      rw [total_cons] at h
      omega

theorem locate_append_right (h : total size l ≤ i) (m : List α) :
    locate size (l ++ m) i = locate size m (i - total size l) := by
  induction l generalizing i with
  | nil => rfl
  | cons a l ih =>
    rw [total_cons] at h
    rw [List.cons_append, locate, if_neg (by omega), ih (by omega), total_cons, Nat.sub_sub]

/-- The offset found is inside the segment found, which is one of the list. -/
theorem locate_some {j : Nat} {a : α} (h : locate size l i = some (a, j)) :
    a ∈ l ∧ j < size a := by
  induction l generalizing i with
  | nil => exact absurd h (by simp [locate])
  | cons b l ih =>
    rw [locate] at h
    by_cases hi : i < size b
    · rw [if_pos hi] at h
      obtain ⟨rfl, rfl⟩ := Prod.mk.inj (Option.some.inj h)
      exact ⟨List.mem_cons_self, hi⟩
    · rw [if_neg hi] at h
      obtain ⟨hmem, hj⟩ := ih h
      exact ⟨List.mem_cons_of_mem _ hmem, hj⟩

/-- Every index below the total is in a segment. -/
theorem locate_isSome_iff :
    (locate size l i).isSome = true ↔ i < total size l := by
  induction l generalizing i with
  | nil => simp [locate]
  | cons a l ih =>
    rw [locate, total_cons]
    by_cases hi : i < size a
    · rw [if_pos hi]
      exact ⟨fun _ => by omega, fun _ => rfl⟩
    · rw [if_neg hi, ih]
      omega

/-- Segments that are changed but keep their sizes. -/
theorem locate_map {β : Type u} {size' : β → Nat} (f : α → β) (h : ∀ a, size' (f a) = size a) (l : List α)
    (i : Nat) : locate size' (l.map f) i = (locate size l i).map (fun p => (f p.1, p.2)) := by
  induction l generalizing i with
  | nil => rfl
  | cons a l ih =>
    rw [List.map_cons, locate, locate, h, ih]
    split_ifs <;> rfl

theorem total_map {β : Type u} {size' : β → Nat} (f : α → β) (h : ∀ a, size' (f a) = size a) (l : List α) :
    total size' (l.map f) = total size l := by
  unfold total
  rw [List.map_map]
  congr 1
  exact List.map_congr_left (fun a _ => h a)

/-! ## `locate` and `start` -/

variable {κ : Type u} [DecidableEq κ] {key : α → κ}

/-- The start of the segment with a given key. -/
abbrev startOf (size : α → Nat) (key : α → κ) (k : κ) (l : List α) : Nat :=
  start size (fun a => decide (key a = k)) l

/-- **`locate` inverts `start`**, where the keys are distinct. -/
theorem locate_eq_some_iff (hnodup : (l.map key).Nodup) {j : Nat} {a : α} :
    locate size l i = some (a, j) ↔
      a ∈ l ∧ j < size a ∧ i = startOf size key (key a) l + j := by
  induction l generalizing i with
  | nil => simp [locate]
  | cons b l ih =>
    rw [List.map_cons, List.nodup_cons] at hnodup
    obtain ⟨hb, hnodup⟩ := hnodup
    rw [locate]
    by_cases hab : key b = key a
    · have hnot : a ∉ l := fun ha => hb (hab ▸ List.mem_map_of_mem ha)
      have hstart : startOf size key (key a) (b :: l) = 0 := by simp [startOf, start, hab]
      rw [hstart, Nat.zero_add]
      by_cases hi : i < size b
      · rw [if_pos hi]
        constructor
        · intro h
          obtain ⟨rfl, rfl⟩ := Prod.mk.inj (Option.some.inj h)
          exact ⟨List.mem_cons_self, hi, rfl⟩
        · rintro ⟨hmem, _, rfl⟩
          rcases List.mem_cons.mp hmem with rfl | hmem
          · rfl
          · exact absurd hmem hnot
      · rw [if_neg hi]
        constructor
        · intro h
          exact absurd (locate_some h).1 hnot
        · rintro ⟨hmem, hj, rfl⟩
          rcases List.mem_cons.mp hmem with rfl | hmem
          · exact absurd hj hi
          · exact absurd hmem hnot
    · have hne : a ≠ b := fun h => hab (congrArg key h.symm)
      have hstart : startOf size key (key a) (b :: l) = size b + startOf size key (key a) l := by
        simp [startOf, start, hab]
      by_cases hi : i < size b
      · rw [if_pos hi]
        constructor
        · intro h
          exact absurd (Prod.mk.inj (Option.some.inj h)).1.symm hne
        · rintro ⟨_, _, rfl⟩
          omega
      · rw [if_neg hi, ih hnodup, List.mem_cons, or_iff_right hne]
        constructor
        · rintro ⟨hmem, hj, h⟩
          exact ⟨hmem, hj, by omega⟩
        · rintro ⟨hmem, hj, h⟩
          exact ⟨hmem, hj, by omega⟩

end Segments

/-!
# Ranges of identifiers that follow one another

Whoever takes `len` identifiers from a counter has a range of them (`IdRange`). The ranges that are taken one after
another are **contiguous**: each starts where the one before it stops (`Contiguous`). They are then disjoint and in
order (`Contiguous.pairwise`).
-/

namespace Reld

/-- The identifiers from `start` on, `len` of them. -/
structure IdRange where
  start : Nat
  len : Nat
deriving DecidableEq

namespace IdRange

/-- The first identifier after a range. -/
def stop (r : IdRange) : Nat := r.start + r.len

end IdRange

/-- Each range starts where the one before it stops, from `start` to `stop`. -/
def Contiguous (start : Nat) : List IdRange → Nat → Prop
  | [], stop      => start = stop
  | r :: rs, stop => r.start = start ∧ Contiguous r.stop rs stop

namespace Contiguous

variable {ranges : List IdRange} {a b : Nat}

/-- No range starts before the first one. -/
theorem le_start (h : Contiguous a ranges b) {r : IdRange} (hr : r ∈ ranges) : a ≤ r.start := by
  induction ranges generalizing a with
  | nil => cases hr
  | cons r' rs ih =>
    obtain ⟨hstart, hrest⟩ := h
    rcases List.mem_cons.mp hr with rfl | hmem
    · exact Nat.le_of_eq hstart.symm
    · have hle : r'.stop ≤ r.start := ih hrest hmem
      rw [IdRange.stop, hstart] at hle
      exact Nat.le_of_add_right_le hle

/-- **Contiguous ranges are disjoint**, and in order. -/
theorem pairwise (h : Contiguous a ranges b) : ranges.Pairwise (fun r s => r.stop ≤ s.start) := by
  induction ranges generalizing a with
  | nil => exact .nil
  | cons r rs ih => exact .cons (fun s hs => h.2.le_start hs) (ih h.2)

end Contiguous

end Reld
