import Reld.Lib.Segments

/-!
# `Layout.StartOffsets` — where each group's parts start

An `OutputSectionPartMap` keeps the parts of the built-in sections in a vector and those of user sections in a sparse
map, which has entries for the parts of its own group only. `merge_and_return_start_offsets` walks the two halves on
their own: it advances the running offsets by the sizes of a group and returns what they were before. Over all groups
the ranges of a part are contiguous, whether or not the groups in between have the part.
-/

namespace Reld

/-- `PartId`. -/
abbrev PartId := Nat

/-- `OutputSectionPartMap`, with its representation. Every map of a link is made by `new_part_map`, with the same
    number of dense parts, and `get_mut` makes entries behind them in the sparse map only. -/
structure DensePartMap (numDense : Nat) (α : Type) where
  parts : List α
  /-- `sparse`, of which a missing map is an empty one. -/
  sparse : PartId → Option α
  length_parts : parts.length = numDense
  sparse_behind : ∀ id, id < numDense → sparse id = none

namespace DensePartMap

variable {numDense : Nat} {α β γ : Type}

/-- The entry of a part. -/
def entry (m : DensePartMap numDense α) (id : PartId) : Option α := (m.parts[id]?).or (m.sparse id)

/-- `get`. -/
def get [Inhabited α] (m : DensePartMap numDense α) (id : PartId) : α := (m.entry id).getD default

/-- `new_part_map`. -/
def new (numDense : Nat) [Inhabited α] : DensePartMap numDense α where
  parts := List.replicate numDense default
  sparse := fun _ => none
  length_parts := List.length_replicate
  sparse_behind := fun _ _ => rfl

/-- `mut_with_map`: the map after the callback went over the entries of `other`, and the map of what it returned. -/
def mutWithMap [Inhabited α] (m : DensePartMap numDense α) (other : DensePartMap numDense β) (cb : α → β → α × γ) :
    DensePartMap numDense α × DensePartMap numDense γ :=
  ({ parts := List.zipWith (fun t u => (cb t u).1) m.parts other.parts
     sparse := fun id =>
       match other.sparse id with
       | some right => some (cb ((m.sparse id).getD default) right).1
       | none => m.sparse id
     length_parts := by rw [List.length_zipWith, m.length_parts, other.length_parts, Nat.min_self]
     sparse_behind := fun id h => by rw [other.sparse_behind id h, m.sparse_behind id h] },
   { parts := List.zipWith (fun t u => (cb t u).2) m.parts other.parts
     sparse := fun id => (other.sparse id).map fun right => (cb ((m.sparse id).getD default) right).2
     length_parts := by rw [List.length_zipWith, m.length_parts, other.length_parts, Nat.min_self]
     sparse_behind := fun id h => by rw [other.sparse_behind id h, Option.map_none] })

/-- `merge_and_return_start_offsets`. -/
def mergeAndReturnStartOffsets (m sizes : DensePartMap numDense Nat) :
    DensePartMap numDense Nat × DensePartMap numDense Nat :=
  m.mutWithMap sizes fun offset size => (offset + size, offset)

/-- `merge`. -/
def merge (m rhs : DensePartMap numDense Nat) : DensePartMap numDense Nat where
  parts := List.zipWith (fun left right => left + right) m.parts rhs.parts
  sparse := fun id =>
    match rhs.sparse id with
    | some right => some ((m.sparse id).getD 0 + right)
    | none => m.sparse id
  length_parts := by rw [List.length_zipWith, m.length_parts, rhs.length_parts, Nat.min_self]
  sparse_behind := fun id h => by rw [rhs.sparse_behind id h, m.sparse_behind id h]

/-- `compute_start_offsets_by_group`, given the sizes of each group. -/
def computeStartOffsetsByGroup : List (DensePartMap numDense Nat) → DensePartMap numDense Nat →
    List (DensePartMap numDense Nat)
  | [], _ => []
  | memSizes :: groups, memOffsets =>
    let (memOffsets, starts) := memOffsets.mergeAndReturnStartOffsets memSizes
    starts :: computeStartOffsetsByGroup groups memOffsets

/-- The total sizes, as `merge` accumulates them. -/
def totalSizes (groups : List (DensePartMap numDense Nat)) : DensePartMap numDense Nat :=
  groups.foldl merge (new numDense)

/-! ## One group -/

/-- A part is in the vector or in the sparse map, by its number. -/
theorem entry_eq (m : DensePartMap numDense α) (id : PartId) :
    m.entry id = if id < numDense then m.parts[id]? else m.sparse id := by
  unfold entry
  split_ifs with h
  · rw [m.sparse_behind id h, Option.or_none]
  · rw [List.getElem?_eq_none (by rw [m.length_parts]; exact Nat.le_of_not_lt h), Option.none_or]

theorem isSome_entry (m : DensePartMap numDense α) {id : PartId} (h : id < numDense) : ∃ v, m.parts[id]? = some v :=
  ⟨_, List.getElem?_eq_getElem (by rw [m.length_parts]; exact h)⟩

/-- The entries of the returned map are those of the other one. -/
theorem entry_mutWithMap_snd [Inhabited α] (m : DensePartMap numDense α) (other : DensePartMap numDense β)
    (cb : α → β → α × γ) (id : PartId) :
    (m.mutWithMap other cb).2.entry id = (other.entry id).map fun right => (cb (m.get id) right).2 := by
  unfold get
  simp only [entry_eq]
  split_ifs with h
  · obtain ⟨v, hv⟩ := m.isSome_entry h
    obtain ⟨w, hw⟩ := other.isSome_entry h
    simp [mutWithMap, List.getElem?_zipWith, hv, hw]
  · rfl

/-- A part that the other map does not have stays as it is. -/
theorem get_mutWithMap_fst [Inhabited α] (m : DensePartMap numDense α) (other : DensePartMap numDense β)
    (cb : α → β → α × γ) (id : PartId) :
    (m.mutWithMap other cb).1.get id = ((other.entry id).map fun right => (cb (m.get id) right).1).getD (m.get id) := by
  unfold get
  simp only [entry_eq]
  split_ifs with h
  · obtain ⟨v, hv⟩ := m.isSome_entry h
    obtain ⟨w, hw⟩ := other.isSome_entry h
    simp [mutWithMap, List.getElem?_zipWith, hv, hw]
  · cases hother : other.sparse id <;> simp [mutWithMap, hother]

/-- **One group**: the running offset of a part advances by its size. -/
theorem get_mergeAndReturnStartOffsets (m sizes : DensePartMap numDense Nat) (id : PartId) :
    (m.mergeAndReturnStartOffsets sizes).1.get id = m.get id + sizes.get id := by
  unfold mergeAndReturnStartOffsets
  rw [get_mutWithMap_fst]
  unfold get
  cases sizes.entry id <;> rfl

theorem get_merge (m rhs : DensePartMap numDense Nat) (id : PartId) : (m.merge rhs).get id = m.get id + rhs.get id := by
  unfold get
  simp only [entry_eq]
  -- Dense parts are zipped, the others merged into the map.
  split_ifs with h
  · obtain ⟨v, hv⟩ := m.isSome_entry h
    obtain ⟨w, hw⟩ := rhs.isSome_entry h
    simp [merge, List.getElem?_zipWith, hv, hw]
  · cases hrhs : rhs.sparse id <;> simp [merge, hrhs]

theorem get_foldl_merge (groups : List (DensePartMap numDense Nat)) (m : DensePartMap numDense Nat) (id : PartId) :
    (groups.foldl merge m).get id = m.get id + (groups.map fun sizes => sizes.get id).sum := by
  induction groups generalizing m with
  | nil => rfl
  | cons sizes groups ih => rw [List.foldl_cons, ih, get_merge, List.map_cons, List.sum_cons, Nat.add_assoc]

theorem get_new (id : PartId) : (new numDense : DensePartMap numDense Nat).get id = 0 := by
  unfold get
  rw [entry_eq]
  split_ifs with h
  · simp [new, h]
  · rfl

/-! ## All groups -/

/-- The ranges of a part, of the groups that have the part. -/
def rangesOf (id : PartId) (groups starts : List (DensePartMap numDense Nat)) : List IdRange :=
  (groups.zip starts).filterMap fun p => (p.1.entry id).map fun size => ⟨p.2.get id, size⟩

theorem length_computeStartOffsetsByGroup (groups : List (DensePartMap numDense Nat))
    (base : DensePartMap numDense Nat) : (computeStartOffsetsByGroup groups base).length = groups.length := by
  induction groups generalizing base with
  | nil => rfl
  | cons sizes groups ih => exact congrArg Nat.succ (ih _)

/-- The ranges from a base on. A group without the part takes no range, and the next one goes on at the same offset. -/
theorem contiguous_rangesOf (id : PartId) (groups : List (DensePartMap numDense Nat))
    (base : DensePartMap numDense Nat) :
    Contiguous (base.get id) (rangesOf id groups (computeStartOffsetsByGroup groups base))
      (base.get id + (groups.map fun sizes => sizes.get id).sum) := by
  induction groups generalizing base with
  | nil => rfl
  | cons sizes groups ih =>
    have hrest := ih (base.mergeAndReturnStartOffsets sizes).1
    rw [get_mergeAndReturnStartOffsets] at hrest
    rw [List.map_cons, List.sum_cons, ← Nat.add_assoc]
    unfold rangesOf
    rw [computeStartOffsetsByGroup, List.zip_cons_cons, List.filterMap_cons]
    cases hentry : sizes.entry id with
    | none =>
      -- a part that the group does not have counts nothing, and the base stays
      have hzero : sizes.get id = 0 := by rw [get, hentry]; rfl
      rw [hzero, Nat.add_zero] at hrest ⊢
      exact hrest
    | some size =>
      -- the callback returns the running offset and adds the size to it
      have hsize : sizes.get id = size := by rw [get, hentry]; rfl
      have hstart : (base.mergeAndReturnStartOffsets sizes).2.get id = base.get id := by
        unfold mergeAndReturnStartOffsets
        rw [get, entry_mutWithMap_snd, hentry]
        rfl
      rw [hsize] at hrest ⊢
      refine ⟨hstart, ?_⟩
      rw [IdRange.stop, hstart]
      exact hrest

/-- A group's starts are of the parts that the group has. -/
theorem isSome_starts (id : PartId) (groups : List (DensePartMap numDense Nat)) (base : DensePartMap numDense Nat) :
    ∀ p ∈ groups.zip (computeStartOffsetsByGroup groups base), (p.2.entry id).isSome = (p.1.entry id).isSome := by
  induction groups generalizing base with
  | nil => exact fun p hp => absurd hp List.not_mem_nil
  | cons sizes groups ih =>
    intro p hp
    rw [computeStartOffsetsByGroup, List.zip_cons_cons] at hp
    rcases List.mem_cons.mp hp with rfl | hp
    · unfold mergeAndReturnStartOffsets
      rw [entry_mutWithMap_snd, Option.isSome_map]
    · exact ih _ p hp

/-- **Where the parts of the groups are**: each group gets a start for exactly the parts that it has, and the ranges
    of a part go from its base to the end of its total size, one behind the other. -/
theorem start_offsets_contiguous (groups : List (DensePartMap numDense Nat)) (base : DensePartMap numDense Nat)
    (id : PartId) :
    (computeStartOffsetsByGroup groups base).length = groups.length ∧
    (∀ p ∈ groups.zip (computeStartOffsetsByGroup groups base), (p.2.entry id).isSome = (p.1.entry id).isSome) ∧
    Contiguous (base.get id) (rangesOf id groups (computeStartOffsetsByGroup groups base))
      (base.get id + (totalSizes groups).get id) ∧
    (rangesOf id groups (computeStartOffsetsByGroup groups base)).Pairwise (fun r s => r.stop ≤ s.start) := by
  have hcontiguous := contiguous_rangesOf id groups base
  refine ⟨length_computeStartOffsetsByGroup groups base, isSome_starts id groups base, ?_, hcontiguous.pairwise⟩
  rwa [totalSizes, get_foldl_merge, get_new, Nat.zero_add]

end DensePartMap

end Reld
