import Mathlib

/-!
# `Lib.SizedRecords` — records that hold their own size

Records one behind the other, each with a field for its size. A reader goes from record to record by that field; it is
at the start of each record in turn, and at the end after the last one, exactly if every field is right and the reader
takes as many steps as there are records.
-/

namespace SizedRecords

variable {α : Type} (size field : α → Nat)

/-- The size field of the record that starts at an offset. -/
def fieldAt : List α → Nat → Option Nat
  | [], _ => none
  | record :: records, offset =>
    if offset = 0 then some (field record)
    else if offset < size record then none
    else fieldAt records (offset - size record)

/-- The offsets that a reader comes to in so many steps. -/
def walk (records : List α) : Nat → Nat → Option (List Nat)
  | 0, offset => some [offset]
  | steps + 1, offset => (fieldAt size field records offset).bind fun n => (walk records steps (offset + n)).map (offset :: ·)

/-- Where the records start, and where the last one ends. -/
def boundaries : Nat → List α → List Nat
  | offset, [] => [offset]
  | offset, record :: records => offset :: boundaries (offset + size record) records

variable {size field} {records front : List α}

theorem head?_walk {steps offset : Nat} {visited : List Nat} (h : walk size field records steps offset = some visited) :
    visited.head? = some offset := by
  cases steps with
  | zero =>
    obtain rfl := Option.some.inj h
    rfl
  | succ steps =>
    obtain ⟨n, -, hrest⟩ := Option.bind_eq_some_iff.1 h
    obtain ⟨rest, -, rfl⟩ := Option.map_eq_some_iff.1 hrest
    rfl

theorem head?_boundaries (offset : Nat) (records : List α) : (boundaries size offset records).head? = some offset := by
  cases records <;> rfl

/-- Behind the records in front there is the next one. -/
theorem fieldAt_append (hpos : ∀ record ∈ front, 0 < size record) (records : List α) :
    fieldAt size field (front ++ records) (front.map size).sum = fieldAt size field records 0 := by
  induction front with
  | nil => rfl
  | cons record front ih =>
    obtain ⟨hrecord, hfront⟩ := List.forall_mem_cons.1 hpos
    rw [List.cons_append, fieldAt, List.map_cons, List.sum_cons, if_neg (by omega), if_neg (by omega),
      Nat.add_sub_cancel_left, ih hfront]

/-- From any record on. -/
theorem walk_append_eq_iff (hfront : ∀ record ∈ front, 0 < size record) (hpos : ∀ record ∈ records, 0 < size record)
    (steps : Nat) :
    walk size field (front ++ records) steps (front.map size).sum = some (boundaries size (front.map size).sum records) ↔
      steps = records.length ∧ ∀ record ∈ records, field record = size record := by
  induction records generalizing front steps with
  | nil =>
    cases steps with
    | zero => exact iff_of_true rfl ⟨rfl, List.forall_mem_nil _⟩
    | succ steps =>
      rw [walk, fieldAt_append hfront]
      exact iff_of_false nofun fun h => nomatch h.1
  | cons record records ih =>
    obtain ⟨hrecord, hrecords⟩ := List.forall_mem_cons.1 hpos
    have hnext := @ih (front ++ [record])
      (fun r hr => (List.mem_append.1 hr).elim (hfront r) fun h => List.mem_singleton.1 h ▸ hrecord) hrecords
    rw [List.append_assoc, List.singleton_append, List.map_append, List.sum_append, List.map_singleton,
      List.sum_singleton] at hnext
    cases steps with
    | zero =>
      refine iff_of_false (fun h => ?_) fun h => nomatch h.1
      have hnil := (List.cons.inj (Option.some.inj h)).2
      have hhead := @head?_boundaries _ size ((front.map size).sum + size record) records
      rw [← hnil] at hhead
      exact nomatch hhead
    | succ steps =>
      rw [walk, fieldAt_append hfront, fieldAt, if_pos rfl, Option.bind_some, boundaries, List.length_cons,
        Nat.add_right_cancel_iff, List.forall_mem_cons]
      constructor
      · intro h
        obtain ⟨rest, hrest, heq⟩ := Option.map_eq_some_iff.1 h
        obtain rfl := (List.cons.inj heq).2
        have hhead := (head?_walk hrest).symm.trans (head?_boundaries _ _)
        have hfield : field record = size record := Nat.add_left_cancel (Option.some.inj hhead)
        rw [hfield, hnext] at hrest
        exact ⟨hrest.1, hfield, hrest.2⟩
      · rintro ⟨hsteps, hfield, hfields⟩
        rw [hfield, (hnext steps).2 ⟨hsteps, hfields⟩]
        rfl

/-- **The reader comes to all records exactly if their fields are right.** -/
theorem walk_eq_boundaries_iff (hpos : ∀ record ∈ records, 0 < size record) (steps : Nat) :
    walk size field records steps 0 = some (boundaries size 0 records) ↔
      steps = records.length ∧ ∀ record ∈ records, field record = size record :=
  walk_append_eq_iff (List.forall_mem_nil _) hpos steps

end SizedRecords
