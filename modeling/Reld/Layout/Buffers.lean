import Reld.Layout.ComputeLayout

/-!
# `Layout.Buffers` — the output file is cut into buffers

The writer cuts the output file three times: into the sections, by the file ranges of their layouts; each
section into its parts, one behind the other; and each part into the bytes of the groups of input files. Only
the first cut looks at offsets. A cut that asks for more bytes than there are panics.
-/

namespace Reld

/-! ## Sections -/

/-- `SectionAllocation`. -/
structure SectionAllocation where
  id : OutputSectionId
  offset : Nat
  size : Nat
deriving DecidableEq, Repr

namespace SectionAllocation

def stop (a : SectionAllocation) : Nat := a.offset + a.size

/-- The order by `(offset, offset + size)`. -/
def le (a b : SectionAllocation) : Prop := a.offset < b.offset ∨ a.offset = b.offset ∧ a.stop ≤ b.stop

instance : DecidableRel le := fun a b =>
  inferInstanceAs (Decidable (a.offset < b.offset ∨ a.offset = b.offset ∧ a.stop ≤ b.stop))

end SectionAllocation

/-- `PaddingSlice`. -/
structure PaddingSlice where
  slice : Slice
  parentSectionId : Option OutputSectionId
deriving DecidableEq, Repr

/-- The state of `split_output_into_sections`. -/
structure SplitState where
  data : Slice
  offset : Nat := 0
  prevPrimaryId : Option OutputSectionId := none
  sectionData : OutputSectionId → Slice := fun _ => {}
  paddingSlices : List PaddingSlice := []

/-- One round of `split_output_into_sections`. -/
def splitStep (o : OutputSections) (a : SectionAllocation) (s : SplitState) : Option SplitState :=
  if a.offset < s.offset then none  -- "Offsets went backward"
  else
    (s.data.splitOff (a.offset - s.offset)).bind fun padding =>
      (padding.2.splitOff a.size).map fun buffer =>
        let currPrimaryId := o.primaryOutputSection a.id
        { data := buffer.2
          offset := a.offset + a.size
          prevPrimaryId := some currPrimaryId
          sectionData := Function.update s.sectionData a.id buffer.1
          paddingSlices := s.paddingSlices ++
            [{ slice := padding.1, parentSectionId := s.prevPrimaryId.filter (· = currPrimaryId) }] }

def splitSections (o : OutputSections) : List SectionAllocation → SplitState → Option SplitState
  | [], s => some s
  | a :: allocations, s => (splitStep o a s).bind (splitSections o allocations)

/-- The allocations of all sections, in the order of the ids. -/
def sectionAllocations (o : OutputSections) (layouts : OutputSectionId → OutputRecordLayout) :
    List SectionAllocation :=
  (List.range o.sectionInfos.length).map fun id =>
    { id, offset := (layouts id).fileOffset, size := (layouts id).fileSize }

/-- `split_output_into_sections`. -/
def splitOutputIntoSections (o : OutputSections) (layouts : OutputSectionId → OutputRecordLayout)
    (data : Slice) : Option ((OutputSectionId → Slice) × List PaddingSlice) :=
  (splitSections o ((sectionAllocations o layouts).insertionSort SectionAllocation.le) { data }).map
    fun s => (s.sectionData, s.paddingSlices)

/-- `compute_total_file_size`. -/
def computeTotalFileSize (o : OutputSections) (layouts : OutputSectionId → OutputRecordLayout) : Nat :=
  (List.range o.sectionInfos.length).foldl (fun size id => max size (layouts id).fileEnd) 0

/-! ## Parts -/

/-- The section buffers, less what was taken from them, and the part buffers. -/
structure PartBuffers where
  sections : OutputSectionId → Slice
  parts : OutputSectionId → Nat → Slice := fun _ _ => {}

/-- The sections of the output order. -/
def orderedIds (order : List OrderEvent) : List OutputSectionId :=
  order.filterMap fun
    | .outputSection id => some id
    | _ => none

theorem orderedIds_cons_section (id : OutputSectionId) (events : List OrderEvent) :
    orderedIds (.outputSection id :: events) = id :: orderedIds events := rfl

theorem orderedIds_cons_other {e : OrderEvent} (he : ∀ id, e ≠ .outputSection id) (events : List OrderEvent) :
    orderedIds (e :: events) = orderedIds events := by
  cases e with
  | outputSection id => exact absurd rfl (he id)
  | _ => rfl

/-- There are two kinds of events. -/
theorem section_or_other (e : OrderEvent) : (∃ id, e = .outputSection id) ∨ ∀ id, e ≠ .outputSection id := by
  cases e with
  | outputSection id => exact .inl ⟨id, rfl⟩
  | _ => exact .inr fun _ h => OrderEvent.noConfusion h

theorem orderedIds_append (evs₁ evs₂ : List OrderEvent) :
    orderedIds (evs₁ ++ evs₂) = orderedIds evs₁ ++ orderedIds evs₂ := List.filterMap_append

/-- The parts of one section. -/
def splitSectionByAlignment (records : OutputSectionId → List (Nat × OutputRecordLayout))
    (id : OutputSectionId) (b : PartBuffers) : Option PartBuffers :=
  ((b.sections id).cut ((records id).map (·.2.fileSize))).map fun taken =>
    { sections := Function.update b.sections id taken.2
      parts := Function.update b.parts id fun part =>
        ((((records id).map (·.1)).zip taken.1).lookup part).getD (b.parts id part) }

def splitSectionsByAlignment (records : OutputSectionId → List (Nat × OutputRecordLayout)) :
    List OutputSectionId → PartBuffers → Option PartBuffers
  | [], b => some b
  | id :: ids, b => (splitSectionByAlignment records id b).bind (splitSectionsByAlignment records ids)

/-- `split_buffers_by_alignment`. -/
def splitBuffersByAlignment (records : OutputSectionId → List (Nat × OutputRecordLayout))
    (order : List OrderEvent) (sectionBuffers : OutputSectionId → Slice) :
    Option (OutputSectionId → Nat → Slice) :=
  (splitSectionsByAlignment records (orderedIds order) { sections := sectionBuffers }).map (·.parts)

/-! ## Groups -/

/-- `compute_file_sizes`. -/
def computeFileSizes (o : OutputSections) (memSizes : PartMap Nat) : PartMap Nat :=
  memSizes.map fun id size => if o.hasDataInFile id then size else 0

/-- Every part has the bytes that are taken from it. -/
def Fits (numSections : Nat) (buffers : OutputSectionId → Nat → Slice) (sizes : PartMap Nat) : Prop :=
  ∀ id < numSections, ∀ part < numParts id, sizes.get id part ≤ (buffers id part).length

instance (numSections : Nat) (buffers : OutputSectionId → Nat → Slice) (sizes : PartMap Nat) :
    Decidable (Fits numSections buffers sizes) :=
  inferInstanceAs (Decidable (∀ id < numSections, ∀ part < numParts id,
    sizes.get id part ≤ (buffers id part).length))

/-- `take_mut`: what is taken from each part and what is left. -/
def takeMut (numSections : Nat) (buffers : OutputSectionId → Nat → Slice) (sizes : PartMap Nat) :
    Option ((OutputSectionId → Nat → Slice) × (OutputSectionId → Nat → Slice)) :=
  if Fits numSections buffers sizes then
    some (fun id part => { start := (buffers id part).start, length := sizes.get id part },
      fun id part =>
        { start := (buffers id part).start + sizes.get id part
          length := (buffers id part).length - sizes.get id part })
  else none

/-- `split_output_by_group`, with the file sizes of the groups. -/
def splitOutputByGroup (numSections : Nat) : List (PartMap Nat) → (OutputSectionId → Nat → Slice) →
    Option (List (OutputSectionId → Nat → Slice))
  | [], _ => some []
  | sizes :: groups, buffers =>
    (takeMut numSections buffers sizes).bind fun taken =>
      (splitOutputByGroup numSections groups taken.2).map (taken.1 :: ·)

/-- `compute_start_offsets_by_group`: the memory address from which on each group places the input sections
of a part. -/
def startOffsetsByGroup : List (PartMap Nat) → (OutputSectionId → Nat → Nat) →
    List (OutputSectionId → Nat → Nat)
  | [], _ => []
  | memSizes :: groups, memOffsets =>
    memOffsets :: startOffsetsByGroup groups fun id part => memOffsets id part + memSizes.get id part

/-! ## The three cuts -/

/-- The record of a part; a part that was never laid out has the default one. -/
def LayoutState.recordOf (layout : LayoutState) (id : OutputSectionId) (part : Nat) : OutputRecordLayout :=
  ((layout.records id).lookup part).getD {}

/-- The buffers that the writer works with. -/
structure OutputBuffers where
  parts : OutputSectionId → Nat → Slice
  groups : List (OutputSectionId → Nat → Slice)

/-- The whole file is cut into sections, parts and groups. -/
def splitOutput (ctx : LayoutContext) (layout : LayoutState) : Option OutputBuffers :=
  let o := ctx.outputSections
  (splitOutputIntoSections o layout.sectionLayouts
    { start := 0, length := computeTotalFileSize o layout.sectionLayouts }).bind fun sections =>
  (splitBuffersByAlignment layout.records ctx.outputOrder sections.1).bind fun parts =>
  (splitOutputByGroup o.sectionInfos.length (ctx.groupSizes.map (computeFileSizes o)) parts).map
    fun groups => { parts, groups }

/-- The memory addresses at which the groups start in each part. -/
def groupStarts (ctx : LayoutContext) (layout : LayoutState) : List (OutputSectionId → Nat → Nat) :=
  startOffsetsByGroup ctx.groupSizes fun id part => (layout.recordOf id part).memOffset

end Reld
