import Mathlib.Data.List.Chain
import Mathlib.Data.BitVec
import Mathlib.Algebra.BigOperators.Group.List.Basic

/-!
# `Thunks.Reach` — objects are assigned to thunk blocks

`assign_thunk_blocks` goes over the objects of the primary part once and calls back for each of them, for some
twice. What the callbacks leave is a cut of the objects into blocks of neighbours: the objects before the owner, the
owner, and the objects behind it (`cut`). `assignThunkBlocks_cut` says so; where the thunks of a block
stand follows from the cut alone.
-/

namespace Reld

/-! ## The loop -/

/-- `MAXIMUM_THUNK_BYTES_PER_BLOCK` -/
def maximumThunkBytesPerBlock : Nat := 2 * 1024 * 1024

/-- `(file_id, start, end)`, the file id as it is encoded. -/
structure ThunkObject where
  fileId : BitVec 32
  start : Nat
  stop : Nat
deriving DecidableEq, Repr

/-- `ThunkBlockId`; `ThunkBlockId::FIRST` is 0. -/
abbrev ThunkBlockId := BitVec 32

/-- The arguments of `assign`. -/
structure AssignCall where
  fileId : BitVec 32
  blockId : ThunkBlockId
  isOwner : Bool
deriving DecidableEq, Repr

/-- `pending_next`: a block that has no place so far. -/
structure PendingNext where
  nextId : ThunkBlockId
  firstFileId : BitVec 32
  firstObjectStart : Nat
deriving DecidableEq, Repr

/-- The variables of the loop, and the calls made so far. -/
structure AssignState where
  numBlocks : Nat
  prevBlockId : ThunkBlockId
  prevBlockPos : Nat
  pendingNext : Option PendingNext
  calls : List AssignCall
deriving DecidableEq, Repr

/-- One object. -/
def assignStep (maxBranchRange : Nat) (s : AssignState) (o : ThunkObject) : AssignState :=
  match s.pendingNext with
  | some next =>
    if o.stop - next.firstObjectStart ≥ maxBranchRange then
      { s with
        prevBlockId := next.nextId
        prevBlockPos := o.stop
        pendingNext := none
        calls := s.calls ++ [⟨next.firstFileId, next.nextId, false⟩, ⟨o.fileId, next.nextId, true⟩] }
    else { s with calls := s.calls ++ [⟨o.fileId, next.nextId, false⟩] }
  | none =>
    if o.stop - s.prevBlockPos ≥ maxBranchRange then
      { s with
        numBlocks := s.numBlocks + 1
        pendingNext := some ⟨BitVec.ofNat 32 s.numBlocks, o.fileId, o.start⟩ }
    else { s with calls := s.calls ++ [⟨o.fileId, s.prevBlockId, false⟩] }

/-- A block that is still without a place goes to the first object that uses it. -/
def assignFinish (s : AssignState) : Nat × List AssignCall :=
  match s.pendingNext with
  | some next => (s.numBlocks, s.calls ++ [⟨next.firstFileId, next.nextId, true⟩])
  | none      => (s.numBlocks, s.calls)

/-- `assign_thunk_blocks`: the number of blocks, and the calls in their order. -/
def assignThunkBlocks (maxBranchRange : Nat) : List ThunkObject → Nat × List AssignCall
  | [] => (0, [])
  | first :: objects =>
    assignFinish (objects.foldl (assignStep maxBranchRange)
      { numBlocks := 1, prevBlockId := 0, prevBlockPos := first.stop, pendingNext := none,
        calls := [⟨first.fileId, 0, true⟩] })

/-- What the calls leave in `thunk_block_id` and `owns_thunk_block` of an object, `none` if there is no call. -/
def assignedBlock (calls : List AssignCall) (fileId : BitVec 32) : Option (ThunkBlockId × Bool) :=
  calls.foldl (fun assigned call => if call.fileId = fileId then some (call.blockId, call.isOwner) else assigned) none

@[simp] theorem assignedBlock_append (calls : List AssignCall) (call : AssignCall) (fileId : BitVec 32) :
    assignedBlock (calls ++ [call]) fileId =
      if call.fileId = fileId then some (call.blockId, call.isOwner) else assignedBlock calls fileId := by
  simp [assignedBlock, List.foldl_append]

/-! ## The cut -/

/-- A block: its owner, and the neighbours that use it. -/
structure BlockObjects where
  before : List ThunkObject
  owner : ThunkObject
  behind : List ThunkObject
deriving DecidableEq, Repr

namespace BlockObjects

def objects (b : BlockObjects) : List ThunkObject := b.before ++ b.owner :: b.behind

/-- The first object that uses the block. -/
def first (b : BlockObjects) : ThunkObject := b.before.headD b.owner

end BlockObjects

/-- The block that takes objects at present: one that has its place, or one whose first object and further objects
are known. -/
inductive CurrentBlock where
  | previous (block : BlockObjects)
  | next (first : ThunkObject) (more : List ThunkObject)

namespace CurrentBlock

def objects : CurrentBlock → List ThunkObject
  | .previous block  => block.objects
  | .next first more => first :: more

/-- The objects that come behind the current ones, cut into blocks. -/
def cut (maxBranchRange : Nat) : CurrentBlock → List ThunkObject → List BlockObjects
  | .previous block, []       => [block]
  | .next first more, []      => [⟨[], first, more⟩]
  | .previous block, o :: os  =>
    if o.stop - block.owner.stop ≥ maxBranchRange then block :: cut maxBranchRange (.next o []) os
    else cut maxBranchRange (.previous { block with behind := block.behind ++ [o] }) os
  | .next first more, o :: os =>
    if o.stop - first.start ≥ maxBranchRange then cut maxBranchRange (.previous ⟨first :: more, o, []⟩) os
    else cut maxBranchRange (.next first (more ++ [o])) os

/-- Nothing is lost, and the order stays. -/
theorem flatMap_objects_cut (maxBranchRange : Nat) (current : CurrentBlock) (os : List ThunkObject) :
    (current.cut maxBranchRange os).flatMap BlockObjects.objects = current.objects ++ os := by
  induction os generalizing current with
  | nil => cases current <;> simp [cut, objects, BlockObjects.objects]
  | cons o os ih =>
    cases current with
    | previous block =>
      unfold cut
      split
      · rw [List.flatMap_cons, ih]
        simp [objects]
      · rw [ih]
        simp [objects, BlockObjects.objects]
    | next first more =>
      unfold cut
      split
      · rw [ih]
        simp [objects, BlockObjects.objects]
      · rw [ih]
        simp [objects]

end CurrentBlock

/-- The cut of all objects. -/
def thunkBlockCut (maxBranchRange : Nat) : List ThunkObject → List BlockObjects
  | [] => []
  | first :: os => CurrentBlock.cut maxBranchRange (.previous ⟨[], first, []⟩) os

theorem flatMap_thunkBlockCut (maxBranchRange : Nat) (os : List ThunkObject) :
    (thunkBlockCut maxBranchRange os).flatMap BlockObjects.objects = os := by
  cases os with
  | nil          => rfl
  | cons first os => simp [thunkBlockCut, CurrentBlock.flatMap_objects_cut, CurrentBlock.objects, BlockObjects.objects]

/-! ## The calls make the cut -/

variable {maxBranchRange : Nat} {calls : List AssignCall} {placed : List BlockObjects} {current : CurrentBlock}
  {s : AssignState}

/-- Each object of a block is assigned to it, and the owner is its owner. -/
def AssignedTo (calls : List AssignCall) (k : Nat) (b : BlockObjects) : Prop :=
  ∀ o ∈ b.objects, assignedBlock calls o.fileId = some (BitVec.ofNat 32 k, decide (o = b.owner))

/-- Each object of the `k`-th block is assigned to block `k`. -/
def CallsFor (calls : List AssignCall) (blocks : List BlockObjects) : Prop :=
  ∀ k b, blocks[k]? = some b → AssignedTo calls k b

/-- A call for another object changes nothing. -/
theorem AssignedTo.append {k : Nat} {b : BlockObjects} (h : AssignedTo calls k b) {call : AssignCall}
    (hne : ∀ o ∈ b.objects, call.fileId ≠ o.fileId) : AssignedTo (calls ++ [call]) k b := by
  intro o ho
  rw [assignedBlock_append, if_neg (hne o ho)]
  exact h o ho

theorem CallsFor.append (h : CallsFor calls placed) {call : AssignCall}
    (hne : ∀ o ∈ placed.flatMap BlockObjects.objects, call.fileId ≠ o.fileId) :
    CallsFor (calls ++ [call]) placed := by
  intro k b hb
  refine (h k b hb).append fun o ho => hne o ?_
  exact List.mem_flatMap.mpr ⟨b, List.mem_of_getElem? hb, ho⟩

theorem CallsFor.snoc (h : CallsFor calls placed) {b : BlockObjects} (hb : AssignedTo calls placed.length b) :
    CallsFor calls (placed ++ [b]) := by
  intro k b' hb'
  rcases Nat.lt_trichotomy k placed.length with hk | rfl | hk
  · rw [List.getElem?_append_left hk] at hb'
    exact h k b' hb'
  · rw [List.getElem?_concat_length, Option.some.injEq] at hb'
    exact hb' ▸ hb
  · rw [List.getElem?_eq_none (by simp; omega)] at hb'
    cases hb'

/-- What the loop knows of the current block. -/
def CurrentAssigned (s : AssignState) (id : Nat) : CurrentBlock → Prop
  | .previous block  =>
    s.pendingNext = none ∧ s.prevBlockId = BitVec.ofNat 32 id ∧ s.prevBlockPos = block.owner.stop ∧
      AssignedTo s.calls id block
  | .next first more =>
    s.pendingNext = some ⟨BitVec.ofNat 32 id, first.fileId, first.start⟩ ∧
      ∀ o ∈ more, assignedBlock s.calls o.fileId = some (BitVec.ofNat 32 id, false)

/-- The state of the loop when the blocks `placed` are complete. -/
structure AtCurrent (placed : List BlockObjects) (current : CurrentBlock) (s : AssignState) : Prop where
  numBlocks : s.numBlocks = placed.length + 1
  calls : CallsFor s.calls placed
  assigned : CurrentAssigned s placed.length current

variable {os : List ThunkObject}

/-- The ids of `xs` are none of `o`'s. -/
theorem fileId_ne {xs : List ThunkObject} {o : ThunkObject} (h : ((xs ++ o :: os).map (·.fileId)).Nodup) :
    ∀ x ∈ xs, o.fileId ≠ x.fileId := by
  rw [List.map_append, List.nodup_append, List.map_cons] at h
  intro x hx heq
  exact h.2.2 _ (List.mem_map_of_mem hx) _ List.mem_cons_self heq.symm

/-- What one object does: a block is completed or not, and the object is added to the current one. -/
theorem AtCurrent.step (maxBranchRange : Nat) {o : ThunkObject} (h : AtCurrent placed current s)
    (hids : ((placed.flatMap BlockObjects.objects ++ current.objects ++ [o]).map (·.fileId)).Nodup) :
    ∃ placed' current', AtCurrent placed' current' (assignStep maxBranchRange s o) ∧
      placed'.flatMap BlockObjects.objects ++ current'.objects =
        placed.flatMap BlockObjects.objects ++ current.objects ++ [o] ∧
      ∀ os, placed' ++ current'.cut maxBranchRange os = placed ++ current.cut maxBranchRange (o :: os) := by
  have hne := fileId_ne hids
  obtain ⟨hcount, hplaced, hcurrent⟩ := h
  cases current with
  | previous block =>
    obtain ⟨hpending, hid, hpos, hblock⟩ := hcurrent
    unfold assignStep
    simp only [hpending]
    split
    case isTrue hfar =>
      refine ⟨placed ++ [block], .next o [], ⟨?_, hplaced.snoc hblock, ?_, ?_⟩, ?_, fun os => ?_⟩
      · simp [hcount]
      · simp [hcount]
      · simp
      · simp [CurrentBlock.objects]
      · simp [CurrentBlock.cut, ← hpos, hfar]
    case isFalse hnear =>
      refine ⟨placed, .previous { block with behind := block.behind ++ [o] },
        ⟨hcount, hplaced.append fun x hx => hne x (List.mem_append_left _ hx), rfl, hid, hpos, ?_⟩, ?_,
        fun os => ?_⟩
      · intro x hx
        have howner : o ≠ block.owner := by
          rintro rfl
          exact hne block.owner (by simp [CurrentBlock.objects, BlockObjects.objects]) rfl
        have hx' : x ∈ block.objects ∨ x = o := by
          simpa [BlockObjects.objects, or_assoc] using hx
        rw [assignedBlock_append]
        rcases hx' with hx' | rfl
        · rw [if_neg (hne x (List.mem_append_right _ hx'))]
          exact hblock x hx'
        · simp [hid, howner]
      · simp [CurrentBlock.objects, BlockObjects.objects]
      · simp only [CurrentBlock.cut, ← hpos, if_neg hnear]
  | next first more =>
    obtain ⟨hpending, hmore⟩ := hcurrent
    unfold assignStep
    simp only [hpending]
    split
    case isTrue hfar =>
      have hids' : (((placed.flatMap BlockObjects.objects) ++ first :: (more ++ [o])).map (·.fileId)).Nodup := by
        simpa [CurrentBlock.objects] using hids
      have hneFirst := fileId_ne hids'
      have hneMore : ∀ x ∈ more, first.fileId ≠ x.fileId := by
        rw [List.map_append, List.nodup_append, List.map_cons, List.nodup_cons] at hids'
        intro x hx heq
        exact hids'.2.1.1 (heq ▸ List.mem_map_of_mem (List.mem_append_left _ hx))
      have hcalls : s.calls ++ [⟨first.fileId, BitVec.ofNat 32 placed.length, false⟩,
          ⟨o.fileId, BitVec.ofNat 32 placed.length, true⟩] =
          (s.calls ++ [⟨first.fileId, BitVec.ofNat 32 placed.length, false⟩]) ++
            [⟨o.fileId, BitVec.ofNat 32 placed.length, true⟩] := by simp
      refine ⟨placed, .previous ⟨first :: more, o, []⟩, ⟨hcount, ?_, rfl, rfl, rfl, ?_⟩, ?_, fun os => ?_⟩
      · simp only [hcalls]
        exact (hplaced.append hneFirst).append fun x hx => hne x (List.mem_append_left _ hx)
      · intro x hx
        simp only [hcalls, assignedBlock_append]
        have hx' : x ∈ first :: more ∨ x = o := by simpa [BlockObjects.objects, or_assoc] using hx
        rcases hx' with hx' | rfl
        · have hxo : x ≠ o := by
            rintro rfl
            exact hne x (List.mem_append_right _ hx') rfl
          rw [if_neg (hne x (List.mem_append_right _ hx'))]
          rcases List.mem_cons.mp hx' with rfl | hx''
          · simp [hxo]
          · simp [hneMore x hx'', hmore x hx'', hxo]
        · simp
      · simp [CurrentBlock.objects, BlockObjects.objects]
      · simp only [CurrentBlock.cut, if_pos hfar]
    case isFalse hnear =>
      refine ⟨placed, .next first (more ++ [o]),
        ⟨hcount, hplaced.append fun x hx => hne x (List.mem_append_left _ hx), rfl, ?_⟩, ?_, fun os => ?_⟩
      · intro x hx
        rw [assignedBlock_append]
        rcases List.mem_append.mp hx with hx | hx
        · rw [if_neg (hne x (by simp [CurrentBlock.objects, hx]))]
          exact hmore x hx
        · simp [List.mem_singleton.mp hx]
      · simp [CurrentBlock.objects]
      · simp only [CurrentBlock.cut, if_neg hnear]

/-- At the end: a block without a place is given to its first object. -/
theorem AtCurrent.finish (h : AtCurrent placed current s)
    (hids : ((placed.flatMap BlockObjects.objects ++ current.objects).map (·.fileId)).Nodup) :
    (assignFinish s).1 = (placed ++ current.cut maxBranchRange []).length ∧
      CallsFor (assignFinish s).2 (placed ++ current.cut maxBranchRange []) := by
  obtain ⟨hcount, hplaced, hcurrent⟩ := h
  cases current with
  | previous block =>
    obtain ⟨hpending, -, -, hblock⟩ := hcurrent
    unfold assignFinish
    simp only [hpending, CurrentBlock.cut]
    exact ⟨by simp [hcount], hplaced.snoc hblock⟩
  | next first more =>
    obtain ⟨hpending, hmore⟩ := hcurrent
    have hneMore : ∀ x ∈ more, first.fileId ≠ x.fileId := by
      rw [CurrentBlock.objects, List.map_append, List.nodup_append, List.map_cons, List.nodup_cons] at hids
      intro x hx heq
      exact hids.2.1.1 (heq ▸ List.mem_map_of_mem hx)
    unfold assignFinish
    simp only [hpending, CurrentBlock.cut]
    refine ⟨by simp [hcount], (hplaced.append (fileId_ne hids)).snoc ?_⟩
    intro x hx
    have hx' : x = first ∨ x ∈ more := by simpa [BlockObjects.objects] using hx
    rcases hx' with rfl | hx'
    · simp
    · have hxf : x ≠ first := by
        rintro rfl
        exact hneMore x hx' rfl
      simp [hneMore x hx', hmore x hx', hxf]

theorem AtCurrent.run (h : AtCurrent placed current s)
    (hids : ((placed.flatMap BlockObjects.objects ++ current.objects ++ os).map (·.fileId)).Nodup) :
    (assignFinish (os.foldl (assignStep maxBranchRange) s)).1 = (placed ++ current.cut maxBranchRange os).length ∧
      CallsFor (assignFinish (os.foldl (assignStep maxBranchRange) s)).2 (placed ++ current.cut maxBranchRange os) := by
  induction os generalizing placed current s with
  | nil => exact h.finish (by simpa using hids)
  | cons o os ih =>
    have hids' : ((placed.flatMap BlockObjects.objects ++ current.objects ++ [o]).map (·.fileId)).Nodup := by
      refine List.Nodup.sublist (List.Sublist.map _ ?_) hids
      exact List.Sublist.append_left (by simp) _
    obtain ⟨placed', current', hnext, hobjects, hcut⟩ := h.step maxBranchRange hids'
    rw [List.foldl_cons, ← hcut os]
    refine ih hnext ?_
    rw [hobjects]
    simpa using hids

/-- **What the calls leave is the cut.** -/
theorem assignThunkBlocks_cut (maxBranchRange : Nat) (hids : (os.map (·.fileId)).Nodup) :
    (assignThunkBlocks maxBranchRange os).1 = (thunkBlockCut maxBranchRange os).length ∧
      CallsFor (assignThunkBlocks maxBranchRange os).2 (thunkBlockCut maxBranchRange os) := by
  cases os with
  | nil => exact ⟨rfl, fun k b hb => by simp [thunkBlockCut] at hb⟩
  | cons first os =>
    refine AtCurrent.run (show AtCurrent [] (.previous ⟨[], first, []⟩) _ from ⟨rfl, ?_, rfl, rfl, rfl, ?_⟩) ?_
    · intro k b hb
      simp at hb
    · intro o ho
      have ho' : o = first := by simpa [BlockObjects.objects] using ho
      simp [assignedBlock, ho']
    · simpa [CurrentBlock.objects, BlockObjects.objects] using hids

end Reld

/-!
# Thunks in range of the objects that use them

The thunks of a block are allocated at the end of its owner. Objects behind the owner end within the branch
range of them. In front of it the loop tests the distance to the end of the object that becomes the owner only
after it has gone beyond the range, and the size of an object that opens a block is never tested (`StretchesFit`).
-/

namespace Reld

/-! ## Objects in the primary part -/

/-- The objects given to `assign_thunk_blocks`: each with an id of its own, one behind the other, none empty. -/
structure PlacedObjects where
  objects : List ThunkObject
  ids_nodup : (objects.map (·.fileId)).Nodup
  nonempty : ∀ o ∈ objects, o.start < o.stop
  contiguous : objects.IsChain fun o o' => o.stop = o'.start

/-- The distance between two addresses. -/
def addressDistance (a b : Nat) : Nat := max a b - min a b

/-- What `assign_thunk_blocks` is to give. The thunks of a block are at the end of its owner. -/
structure ThunkBlocksInRange (maxBranchRange : Nat) (os : List ThunkObject) (numBlocks : Nat)
    (calls : List AssignCall) : Prop where
  assigned : ∀ o ∈ os, ∃ id owns, assignedBlock calls o.fileId = some (id, owns) ∧ id.toNat < numBlocks
  owner : ∀ k < numBlocks, ∃! o, o ∈ os ∧ assignedBlock calls o.fileId = some (BitVec.ofNat 32 k, true)
  near : ∀ o ∈ os, ∀ owner ∈ os, ∀ id owns, assignedBlock calls o.fileId = some (id, owns) →
    assignedBlock calls owner.fileId = some (id, true) → ∀ address, o.start ≤ address → address < o.stop →
      addressDistance address owner.stop < maxBranchRange + maximumThunkBytesPerBlock

/-- Where the objects stand to each other: behind an object with thunks at its end, or from an object on that needs
a block. -/
inductive Stretch where
  | behind (stop : Nat)
  | opened (first : ThunkObject)

/-- The stretches fit: behind an object with thunks, the first that ends outside the branch range opens a
stretch. It goes to the first later object that ends outside of the range of its start, whose end is the
next with thunks; if there is none, the object that opens the stretch has them. -/
def StretchesFit (maxBranchRange : Nat) : Stretch → List ThunkObject → Prop
  | .behind _, [] => True
  | .opened first, [] => first.stop - first.start < maxBranchRange + maximumThunkBytesPerBlock
  | .behind stop, o :: os =>
    if o.stop - stop ≥ maxBranchRange then StretchesFit maxBranchRange (.opened o) os
    else StretchesFit maxBranchRange (.behind stop) os
  | .opened first, o :: os =>
    if o.stop - first.start ≥ maxBranchRange then
      o.stop - first.start < maxBranchRange + maximumThunkBytesPerBlock ∧
        StretchesFit maxBranchRange (.behind o.stop) os
    else StretchesFit maxBranchRange (.opened first) os

/-- No object, and no stretch up to the next thunks, is longer than the range and the room for the thunks. -/
def ObjectsFit (maxBranchRange : Nat) : List ThunkObject → Prop
  | [] => True
  | first :: os =>
    first.stop - first.start < maxBranchRange + maximumThunkBytesPerBlock ∧
      StretchesFit maxBranchRange (.behind first.stop) os

variable {maxBranchRange : Nat} {os : List ThunkObject}

/-! ## The blocks of the cut -/

/-- The distance that the first object of the block has to cover. -/
def BlockObjects.Fits (b : BlockObjects) (maxBranchRange : Nat) : Prop :=
  b.owner.stop - b.first.start < maxBranchRange + maximumThunkBytesPerBlock

/-- The objects that came while the block was the previous one. -/
def BlockObjects.BehindNear (b : BlockObjects) (maxBranchRange : Nat) : Prop :=
  ∀ o ∈ b.behind, o.stop - b.owner.stop < maxBranchRange

def CurrentBlock.BehindNear (maxBranchRange : Nat) : CurrentBlock → Prop
  | .previous block  => block.BehindNear maxBranchRange
  | .next first more => first.start ≤ first.stop ∧ ∀ o ∈ more, o.stop - first.start < maxBranchRange

theorem behindNear_cut (current : CurrentBlock) (h : current.BehindNear maxBranchRange)
    (hos : ∀ o ∈ os, o.start ≤ o.stop) : ∀ b ∈ current.cut maxBranchRange os, b.BehindNear maxBranchRange := by
  induction os generalizing current with
  | nil =>
    intro b hb
    cases current with
    | previous block  => exact List.mem_singleton.mp hb ▸ h
    | next first more =>
      rw [List.mem_singleton.mp hb]
      intro o ho
      have := h.2 o ho
      have := h.1
      show o.stop - first.stop < maxBranchRange
      omega
  | cons o os ih =>
    have hos' := fun x hx => hos x (List.mem_cons_of_mem o hx)
    have hnone : ∀ block : BlockObjects, block.behind = [] → block.BehindNear maxBranchRange := by
      intro block hblock x hx
      rw [hblock] at hx
      cases hx
    cases current with
    | previous block =>
      unfold CurrentBlock.cut
      split
      case isTrue =>
        intro b hb
        rcases List.mem_cons.mp hb with rfl | hb
        · exact h
        · exact ih (.next o []) ⟨hos o List.mem_cons_self, by simp⟩ hos' b hb
      case isFalse hnear =>
        refine ih (.previous _) ?_ hos'
        intro x hx
        rcases List.mem_append.mp hx with hx | hx
        · exact h x hx
        · rw [List.mem_singleton.mp hx]
          exact Nat.lt_of_not_le hnear
    | next first more =>
      unfold CurrentBlock.cut
      split
      case isTrue => exact ih (.previous _) (hnone _ rfl) hos'
      case isFalse hnear =>
        refine ih (.next _ _) ⟨h.1, fun x hx => ?_⟩ hos'
        rcases List.mem_append.mp hx with hx | hx
        · exact h.2 x hx
        · rw [List.mem_singleton.mp hx]
          exact Nat.lt_of_not_le hnear

/-- The current block and the objects that come behind it fit. -/
def CurrentBlock.Fits (maxBranchRange : Nat) (os : List ThunkObject) : CurrentBlock → Prop
  | .previous block => block.Fits maxBranchRange ∧ StretchesFit maxBranchRange (.behind block.owner.stop) os
  | .next first _   => StretchesFit maxBranchRange (.opened first) os

/-- The blocks fit when the stretches of the objects do. -/
theorem fits_cut_iff (current : CurrentBlock) :
    (∀ b ∈ current.cut maxBranchRange os, b.Fits maxBranchRange) ↔ current.Fits maxBranchRange os := by
  induction os generalizing current with
  | nil =>
    cases current with
    | previous block  => simp [CurrentBlock.cut, CurrentBlock.Fits, StretchesFit]
    | next first more =>
      simp [CurrentBlock.cut, CurrentBlock.Fits, StretchesFit, BlockObjects.Fits, BlockObjects.first]
  | cons o os ih =>
    cases current with
    | previous block =>
      by_cases hfar : o.stop - block.owner.stop ≥ maxBranchRange
      · simp only [CurrentBlock.cut, CurrentBlock.Fits, StretchesFit, if_pos hfar, List.forall_mem_cons, ih]
      · simp only [CurrentBlock.cut, CurrentBlock.Fits, StretchesFit, if_neg hfar, ih]
        rfl
    | next first more =>
      by_cases hfar : o.stop - first.start ≥ maxBranchRange
      · simp only [CurrentBlock.cut, CurrentBlock.Fits, StretchesFit, if_pos hfar, ih]
        rfl
      · simp only [CurrentBlock.cut, CurrentBlock.Fits, StretchesFit, if_neg hfar, ih]

theorem objectsFit_iff : ObjectsFit maxBranchRange os ↔ ∀ b ∈ thunkBlockCut maxBranchRange os, b.Fits maxBranchRange := by
  cases os with
  | nil => simp [ObjectsFit, thunkBlockCut]
  | cons first os =>
    rw [thunkBlockCut, fits_cut_iff]
    rfl

/-! ## The order of the objects -/

/-- `o` lies in front of `o'`. -/
def ThunkObject.InFrontOf (o o' : ThunkObject) : Prop := o.start < o.stop ∧ o.stop ≤ o'.start ∧ o'.start < o'.stop

instance : Trans ThunkObject.InFrontOf ThunkObject.InFrontOf ThunkObject.InFrontOf :=
  ⟨fun h h' => ⟨h.1, by have := h.2; have := h'.2; omega, h'.2.2⟩⟩

namespace PlacedObjects

variable (p : PlacedObjects)

theorem pairwise : p.objects.Pairwise ThunkObject.InFrontOf := by
  refine List.isChain_iff_pairwise.mp (p.contiguous.imp_of_mem_imp ?_)
  intro o o' ho ho' h
  exact ⟨p.nonempty o ho, h.le, p.nonempty o' ho'⟩

/-- The blocks of the cut. -/
abbrev blocks (maxBranchRange : Nat) : List BlockObjects := thunkBlockCut maxBranchRange p.objects

variable {o : ThunkObject}

theorem mem_objects_iff (maxBranchRange : Nat) :
    o ∈ p.objects ↔ ∃ b ∈ p.blocks maxBranchRange, o ∈ b.objects := by
  conv_lhs => rw [← flatMap_thunkBlockCut maxBranchRange p.objects]
  exact List.mem_flatMap

variable {b : BlockObjects}

theorem pairwise_objects (hb : b ∈ p.blocks maxBranchRange) :
    b.objects.Pairwise ThunkObject.InFrontOf := by
  refine p.pairwise.sublist ?_
  rw [← flatMap_thunkBlockCut maxBranchRange p.objects, List.flatMap_def]
  exact List.sublist_flatten_of_mem (List.mem_map_of_mem hb)

/-- The objects up to the owner lie from the first object's start to the owner's end. -/
theorem up_to_owner (hb : b ∈ p.blocks maxBranchRange) (ho : o ∈ b.before ∨ o = b.owner) :
    b.first.start ≤ o.start ∧ o.stop ≤ b.owner.stop := by
  have horder := p.pairwise_objects hb
  unfold BlockObjects.objects at horder
  rw [List.pairwise_append, List.pairwise_cons] at horder
  obtain ⟨hbefore, -, hcross⟩ := horder
  have howner : ∀ x ∈ b.before, x.InFrontOf b.owner := fun x hx => hcross x hx b.owner List.mem_cons_self
  rcases hfirst : b.before with - | ⟨first, rest⟩
  · have : o = b.owner := by simpa [hfirst] using ho
    simp [BlockObjects.first, hfirst, this]
  · have hhead : b.first = first := by simp [BlockObjects.first, hfirst]
    rw [hfirst, List.pairwise_cons] at hbefore
    rw [hhead]
    have hfo := howner first (by simp [hfirst])
    rcases ho with ho | rfl
    · have := (howner o ho).2
      rw [hfirst] at ho
      rcases List.mem_cons.mp ho with rfl | ho
      · omega
      · have := hbefore.1 o ho
        unfold ThunkObject.InFrontOf at this
        omega
    · unfold ThunkObject.InFrontOf at hfo
      omega

theorem behind_owner (hb : b ∈ p.blocks maxBranchRange) (ho : o ∈ b.behind) : b.owner.stop ≤ o.start := by
  have horder := p.pairwise_objects hb
  unfold BlockObjects.objects at horder
  rw [List.pairwise_append, List.pairwise_cons] at horder
  exact (horder.2.1.1 o ho).2.1

theorem behindNear (hb : b ∈ p.blocks maxBranchRange) : b.BehindNear maxBranchRange := by
  obtain ⟨os, hids, hne, hchain⟩ := p
  cases os with
  | nil => cases hb
  | cons first os =>
    refine behindNear_cut (.previous ⟨[], first, []⟩) ?_ ?_ b hb
    · intro o ho
      cases ho
    · intro o ho
      exact (hne o (List.mem_cons_of_mem _ ho)).le

/-- All objects of a block are near its thunks when the first one is. -/
theorem fits_iff (hb : b ∈ p.blocks maxBranchRange) :
    b.Fits maxBranchRange ↔ ∀ o ∈ b.objects, ∀ address, o.start ≤ address → address < o.stop →
      addressDistance address b.owner.stop < maxBranchRange + maximumThunkBytesPerBlock := by
  have hobjects : ∀ o, o ∈ b.objects ↔ (o ∈ b.before ∨ o = b.owner) ∨ o ∈ b.behind := by
    simp [BlockObjects.objects, or_assoc]
  unfold BlockObjects.Fits
  constructor
  · intro hfits o ho address hstart hstop
    unfold addressDistance
    rcases (hobjects o).mp ho with ho | ho
    · have := p.up_to_owner hb ho
      omega
    · have := p.behind_owner hb ho
      have := p.behindNear hb o ho
      omega
  · intro hnear
    have hfirst : b.first ∈ b.before ∨ b.first = b.owner := by
      unfold BlockObjects.first
      cases b.before <;> simp
    have hmem : b.first ∈ b.objects := (hobjects _).mpr (.inl hfirst)
    have hlt := p.nonempty _ ((p.mem_objects_iff maxBranchRange).mpr ⟨b, hb, hmem⟩)
    have := hnear b.first hmem b.first.start le_rfl hlt
    unfold addressDistance at this
    omega

/-- There are no more blocks than ids. -/
theorem length_blocks_le (maxBranchRange : Nat) : (p.blocks maxBranchRange).length ≤ 2 ^ 32 := by
  have hlength : (p.blocks maxBranchRange).length ≤ p.objects.length := by
    conv_rhs => rw [← flatMap_thunkBlockCut maxBranchRange p.objects]
    rw [List.length_flatMap]
    refine le_trans (le_of_eq (by simp)) (List.length_le_sum_of_one_le _ ?_)
    intro n hn
    obtain ⟨b, -, rfl⟩ := List.mem_map.mp hn
    simp only [BlockObjects.objects, List.length_append, List.length_cons]
    omega
  have hids : ((p.objects.map (·.fileId)).map BitVec.toFin).Nodup :=
    p.ids_nodup.map fun _ _ h => BitVec.toFin_inj.mp h
  have hcard := hids.length_le_card
  rw [List.length_map, List.length_map, Fintype.card_fin] at hcard
  exact hlength.trans hcard

end PlacedObjects

/-! ## The blocks of a run -/

section

variable (p : PlacedObjects) (maxBranchRange : Nat)

/-- What the calls leave of an object. -/
theorem assignedBlock_iff {o : ThunkObject} (ho : o ∈ p.objects) {id : ThunkBlockId} {owns : Bool} :
    assignedBlock (assignThunkBlocks maxBranchRange p.objects).2 o.fileId = some (id, owns) ↔
      ∃ k b, (p.blocks maxBranchRange)[k]? = some b ∧ o ∈ b.objects ∧ id = BitVec.ofNat 32 k ∧
        owns = decide (o = b.owner) := by
  obtain ⟨-, hcalls⟩ := assignThunkBlocks_cut maxBranchRange p.ids_nodup
  constructor
  · intro hassigned
    obtain ⟨b, hb, hob⟩ := (p.mem_objects_iff maxBranchRange).mp ho
    obtain ⟨k, hk⟩ := List.mem_iff_getElem?.mp hb
    have := hcalls k b hk o hob
    rw [hassigned, Option.some.injEq, Prod.mk.injEq] at this
    exact ⟨k, b, hk, hob, this⟩
  · rintro ⟨k, b, hk, hob, rfl, rfl⟩
    exact hcalls k b hk o hob

/-- Ids of blocks are not cut off. -/
theorem toNat_blockId {k : Nat} {b : BlockObjects} (hk : (p.blocks maxBranchRange)[k]? = some b) :
    (BitVec.ofNat 32 k).toNat = k := by
  have := p.length_blocks_le maxBranchRange
  have := (List.getElem?_eq_some_iff.mp hk).1
  rw [BitVec.toNat_ofNat, Nat.mod_eq_of_lt (by omega)]

theorem owner_mem {k : Nat} {b : BlockObjects} (hk : (p.blocks maxBranchRange)[k]? = some b) :
    b.owner ∈ b.objects ∧ b.owner ∈ p.objects := by
  have howner : b.owner ∈ b.objects := by simp [BlockObjects.objects]
  exact ⟨howner, (p.mem_objects_iff maxBranchRange).mpr ⟨b, List.mem_of_getElem? hk, howner⟩⟩

/-- **Every object gets a block, every block one owner, and the thunks are near exactly when the stretches fit.** -/
theorem thunk_blocks_iff :
    ThunkBlocksInRange maxBranchRange p.objects (assignThunkBlocks maxBranchRange p.objects).1
        (assignThunkBlocks maxBranchRange p.objects).2 ↔
      ObjectsFit maxBranchRange p.objects := by
  obtain ⟨hcount, -⟩ := assignThunkBlocks_cut maxBranchRange p.ids_nodup
  rw [objectsFit_iff, hcount]
  constructor
  · intro h b hb
    obtain ⟨k, hk⟩ := List.mem_iff_getElem?.mp hb
    refine (p.fits_iff hb).mpr fun o ho => ?_
    have hop := (p.mem_objects_iff maxBranchRange).mpr ⟨b, hb, ho⟩
    obtain ⟨howner, hownerp⟩ := owner_mem p maxBranchRange hk
    exact h.near o hop b.owner hownerp (BitVec.ofNat 32 k) (decide (o = b.owner))
      ((assignedBlock_iff p maxBranchRange hop).mpr ⟨k, b, hk, ho, rfl, rfl⟩)
      ((assignedBlock_iff p maxBranchRange hownerp).mpr ⟨k, b, hk, howner, rfl, by simp⟩)
  · intro hfits
    refine ⟨?_, ?_, ?_⟩
    · intro o ho
      obtain ⟨b, hb, hob⟩ := (p.mem_objects_iff maxBranchRange).mp ho
      obtain ⟨k, hk⟩ := List.mem_iff_getElem?.mp hb
      refine ⟨_, _, (assignedBlock_iff p maxBranchRange ho).mpr ⟨k, b, hk, hob, rfl, rfl⟩, ?_⟩
      rw [toNat_blockId p maxBranchRange hk]
      exact (List.getElem?_eq_some_iff.mp hk).1
    · intro k hlt
      have hk := List.getElem?_eq_getElem hlt
      obtain ⟨howner, hownerp⟩ := owner_mem p maxBranchRange hk
      refine ⟨_, ⟨hownerp, (assignedBlock_iff p maxBranchRange hownerp).mpr ⟨k, _, hk, howner, rfl, by simp⟩⟩, ?_⟩
      rintro o ⟨ho, hassigned⟩
      obtain ⟨k', b, hk', -, hid, howns⟩ := (assignedBlock_iff p maxBranchRange ho).mp hassigned
      have hkk : k = k' := by
        rw [← toNat_blockId p maxBranchRange hk, hid, toNat_blockId p maxBranchRange hk']
      subst hkk
      rw [hk, Option.some.injEq] at hk'
      rw [hk']
      exact of_decide_eq_true howns.symm
    · intro o ho owner howner id owns hassigned hassigned'
      obtain ⟨k, b, hk, hob, rfl, -⟩ := (assignedBlock_iff p maxBranchRange ho).mp hassigned
      obtain ⟨k', b', hk', -, hid, howns⟩ := (assignedBlock_iff p maxBranchRange howner).mp hassigned'
      have hkk : k = k' := by
        rw [← toNat_blockId p maxBranchRange hk, hid, toNat_blockId p maxBranchRange hk']
      subst hkk
      rw [hk, Option.some.injEq] at hk'
      subst hk'
      rw [of_decide_eq_true howns.symm]
      have hb := List.mem_of_getElem? hk
      exact (p.fits_iff hb).mp (hfits b hb) o hob

end

/-- Four objects of 100 MiB, each of which is in range of thunks at its own end. -/
def hundredMiBObjects : PlacedObjects where
  objects := (List.range 4).map fun i => ⟨BitVec.ofNat 32 i, i * 100 * 2 ^ 20, (i + 1) * 100 * 2 ^ 20⟩
  ids_nodup := by decide
  nonempty := by decide
  contiguous := by decide

/-- The block of the third is placed at the end of the fourth, 200 MiB behind its first byte. -/
theorem third_object_out_of_range :
    ¬ ThunkBlocksInRange (126 * 2 ^ 20) hundredMiBObjects.objects
        (assignThunkBlocks (126 * 2 ^ 20) hundredMiBObjects.objects).1
        (assignThunkBlocks (126 * 2 ^ 20) hundredMiBObjects.objects).2 := by
  intro h
  have := h.near ⟨2, 200 * 2 ^ 20, 300 * 2 ^ 20⟩ (by decide) ⟨3, 300 * 2 ^ 20, 400 * 2 ^ 20⟩ (by decide) 1 false
    (by decide) (by decide) (200 * 2 ^ 20) (by decide) (by decide)
  revert this
  decide

end Reld
