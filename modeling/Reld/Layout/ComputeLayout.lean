import Reld.Layout.OutputOrder

/-!
# `Layout.ComputeLayout` — offsets and addresses of the output sections

`compute_layout_sections` walks the events of the output order with a file offset and a memory address. Every
part of a section is moved up to its alignment, which is capped at the largest alignment in use, and advances
the two by its size. Sections without data take no room in the file, sections that are not allocated none in
memory; location counters, start addresses, memory regions and the starts of load segments move the address,
and sometimes the file offset with it.

The evaluation of the script's expressions is a parameter. Numbers are natural numbers: addresses do not wrap.
-/

namespace Reld

/-- `OutputRecordLayout`. -/
structure OutputRecordLayout where
  fileSize : Nat := 0
  memSize : Nat := 0
  alignment : Alignment := 0
  fileOffset : Nat := 0
  memOffset : Nat := 0
  lmaOffset : Nat := 0
deriving DecidableEq, Repr

namespace OutputRecordLayout

/-- `file_end`. -/
def fileEnd (r : OutputRecordLayout) : Nat := r.fileOffset + r.fileSize

/-- `mem_end`. -/
def memEnd (r : OutputRecordLayout) : Nat := r.memOffset + r.memSize

end OutputRecordLayout

/-- `MemoryRegion`. -/
structure MemoryRegion where
  origin : Nat
  length : Nat
  used : Nat
deriving DecidableEq, Repr

/-- `ResolvedLocationCounter`. -/
structure ResolvedLocationCounter where
  value : Nat := 0
  sectionOffset : Option Nat := none
deriving DecidableEq, Repr

/-- Why there is no layout. -/
inductive LayoutError where
  /-- An expression has no value. -/
  | expression (error : String)
  /-- "Memory region '…' not declared". -/
  | regionNotDeclared (region : Bytes)
  /-- "address … of section '…' is not within region …". -/
  | notWithinRegion (address : Nat) (sectionId : OutputSectionId) (region : Bytes)
  /-- "Cannot move location counter backwards". -/
  | backwards (source target : Nat)
  /-- "region '…' overflowed by … bytes". -/
  | regionOverflowed (region : Bytes) (bytes : Nat)
  /-- The tables have no entry for the section: a panic. -/
  | noSuchSection (sectionId : OutputSectionId)
deriving DecidableEq

/-- `evaluate_expression` with the regions, section layouts and location counters so far; `SymbolLoc::None` is
`none`. -/
abbrev Evaluator :=
  Expression → Option SymbolPlace → (Bytes → Option MemoryRegion) → (OutputSectionId → OutputRecordLayout) →
    List ResolvedLocationCounter → Except String Nat

/-- What `compute_layout_sections` reads. The first fields of an output section's info are in
`OutputSections`; the others, those that only matter here, are functions of the section. -/
structure LayoutContext where
  outputSections : OutputSections
  minAlignment : OutputSectionId → Alignment
  regionName : OutputSectionId → Option Bytes := fun _ => none
  /-- `location_info.is_top_level`. -/
  isTopLevel : OutputSectionId → Bool := fun _ => false
  /-- `location_info.at_location`. -/
  atLocation : OutputSectionId → Option Expression := fun _ => none
  baseAddress : Expression
  isLoadSegment : ProgramSegmentId → Bool
  loadableSegmentAlignment : Alignment
  numLocationCounters : Nat := 0
  outputOrder : List OrderEvent
  /-- The sizes of the parts in each group of input files. -/
  groupSizes : List (PartMap Nat)
  memoryRegions : Bytes → Option MemoryRegion := fun _ => none
  evaluate : Evaluator

/-- `RELRO_PADDING_SECTION_ID`. -/
def relroPadding : OutputSectionId := 29

/-- `has_data_in_file`. -/
def OutputSections.hasDataInFile (o : OutputSections) (id : OutputSectionId) : Bool :=
  !(o.info id).sectionAttributes.isNoBits

/-- The state of the walk. -/
structure LayoutState where
  fileOffset : Nat := 0
  memOffset : Nat
  lmaOffset : Nat
  nonallocMemOffsets : OutputSectionId → Nat := fun _ => 0
  relocAllocMemOffsets : OutputSectionId → Nat := fun _ => 0
  pendingLocation : Option Nat := none
  resolvedLc : List ResolvedLocationCounter := []
  tlsMemsave : Option Nat := none
  memoryRegions : Bytes → Option MemoryRegion
  /-- `records_out`: the records of the parts of each section, once it was reached. -/
  records : OutputSectionId → List (Nat × OutputRecordLayout) := fun _ => []
  sectionLayouts : OutputSectionId → OutputRecordLayout := fun _ => {}

namespace LayoutContext

variable (ctx : LayoutContext)

/-- `section_part_sizes`. -/
def sizes : PartMap Nat := totalSizes ctx.groupSizes

def maxAlignment (id : OutputSectionId) : Alignment := ctx.sizes.maxAlignment ctx.minAlignment id

/-- The alignment that a part gets: its own, capped at the largest in use. -/
def cappedAlignment (id : OutputSectionId) (part : Nat) : Alignment :=
  min (partAlignment ctx.minAlignment id part) (ctx.maxAlignment id)

/-- `has_data_in_file(merge_target)`. -/
def targetHasData (id : OutputSectionId) : Bool :=
  ctx.outputSections.hasDataInFile (ctx.outputSections.primaryOutputSection id)

/-- `section_flags(merge_target).is_alloc()`. -/
def targetIsAlloc (id : OutputSectionId) : Bool :=
  (ctx.outputSections.info (ctx.outputSections.primaryOutputSection id)).sectionAttributes.isAlloc

/-- The parts that are laid out: those of `sizes`, or an empty first part. -/
def visitedParts (id : OutputSectionId) : List (Nat × Nat) :=
  if ctx.sizes.inRange id = [] then [(0, 0)] else ctx.sizes.inRange id

def eval (e : Expression) (loc : Option SymbolPlace) (s : LayoutState) : Except LayoutError Nat :=
  match ctx.evaluate e loc s.memoryRegions s.sectionLayouts s.resolvedLc with
  | .ok v => .ok v
  | .error e => .error (.expression e)

/-! ## Segments -/

/-- The alignments of the load segments and those that are open. -/
structure SegmentAlignments where
  alignments : ProgramSegmentId → Option Alignment := fun _ => none
  active : List ProgramSegmentId := []

def segmentAlignmentStep (a : SegmentAlignments) : OrderEvent → SegmentAlignments
  | .segmentStart id =>
    if ctx.isLoadSegment id then
      { alignments :=
          Function.update a.alignments id (some ((a.alignments id).getD ctx.loadableSegmentAlignment))
        active := a.active ++ [id] }
    else a
  | .segmentEnd id => { a with active := a.active.filter (· ≠ id) }
  | .outputSection id =>
    { a with alignments := fun segment =>
        if segment ∈ a.active then (a.alignments segment).map (max · (ctx.maxAlignment id))
        else a.alignments segment }
  | _ => a

/-- `compute_segment_alignments`. -/
def computeSegmentAlignments : ProgramSegmentId → Option Alignment :=
  (ctx.outputOrder.foldl ctx.segmentAlignmentStep {}).alignments

/-- A load segment starts. With a pending location the file offset is made congruent to it, otherwise
`align_load_segment_start` moves the addresses. -/
def startSegment (segment : ProgramSegmentId) (s : LayoutState) : LayoutState :=
  let alignment := (ctx.computeSegmentAlignments segment).getD ctx.loadableSegmentAlignment
  match s.pendingLocation with
  | some addr =>
    { s with
      memOffset := addr
      lmaOffset := addr
      fileOffset := alignment.alignModulo addr s.fileOffset }
  | none =>
    { s with
      memOffset := alignment.alignModulo s.fileOffset s.memOffset
      lmaOffset := alignment.alignModulo s.fileOffset s.lmaOffset }

/-! ## Sections -/

/-- TLS sections without data do not move the address for the sections behind them. -/
def visitTls (id : OutputSectionId) (s : LayoutState) : LayoutState :=
  let attributes := (ctx.outputSections.info id).sectionAttributes
  if attributes.isTls && attributes.isNoBits then
    { s with tlsMemsave := some (s.tlsMemsave.getD s.memOffset) }
  else
    { s with memOffset := s.tlsMemsave.getD s.memOffset, tlsMemsave := none }

/-- The region of a section. -/
def regionOf (id : OutputSectionId) (s : LayoutState) : Except LayoutError (Option MemoryRegion) :=
  match ctx.regionName id with
  | none => .ok none
  | some name =>
    match s.memoryRegions name with
    | none => .error (.regionNotDeclared name)
    | some region => .ok (some region)

def enterRegion (region : Option MemoryRegion) (s : LayoutState) : LayoutState :=
  match region with
  | none => s
  | some region => { s with memOffset := region.origin + region.used }

/-- Whether a location in front of the section moves the file offset too. -/
def movesFile (id : OutputSectionId) : Bool :=
  (id = ctx.outputSections.primaryOutputSection id || !ctx.isTopLevel id) && ctx.targetIsAlloc id &&
    ctx.targetHasData id

/-- The location set in front of a section. -/
def applyLocation (id : OutputSectionId) (region : Option MemoryRegion) (location : Option Nat)
    (s : LayoutState) : Except LayoutError LayoutState :=
  match location with
  | none => .ok s
  | some offset =>
    if region.any (fun r => offset < s.memOffset || offset > s.memOffset + r.length) then
      .error (.notWithinRegion offset id ((ctx.regionName id).getD []))
    else if ctx.movesFile id then
      if offset < s.memOffset then .error (.backwards s.memOffset offset)
      else .ok { s with fileOffset := s.fileOffset + (offset - s.memOffset), memOffset := offset }
    else .ok { s with memOffset := offset }

/-- What happens before the parts of a section. -/
def enterSection (id : OutputSectionId) (s : LayoutState) : Except LayoutError LayoutState := do
  let location := s.pendingLocation
  let s := ctx.visitTls id { s with pendingLocation := none }
  let region ← ctx.regionOf id s
  let s ← ctx.applyLocation id region location (enterRegion region s)
  return { s with lmaOffset := s.memOffset }

/-! ## Parts -/

/-- The size of a part in memory; the padding of RELRO goes up to the next page. -/
def partMemSize (id : OutputSectionId) (size : Nat) (s : LayoutState) : Nat :=
  if id = relroPadding then ctx.loadableSegmentAlignment.alignUp s.memOffset - s.memOffset else size

/-- Aligned even when the part is empty, so that the section starts aligned; not for `NOBITS` sections. -/
def partFileOffset (id : OutputSectionId) (part : Nat) (s : LayoutState) : Nat :=
  if ctx.targetHasData id then (ctx.cappedAlignment id part).alignUp s.fileOffset else s.fileOffset

/-- The record of a part. -/
def partRecord (id : OutputSectionId) (part size : Nat) (s : LayoutState) : OutputRecordLayout :=
  let alignment := ctx.cappedAlignment id part
  let memSize := ctx.partMemSize id size s
  if ctx.targetIsAlloc id then
    let fileSize := if ctx.targetHasData id then memSize else 0
    if ctx.outputSections.outputKind.isPartialObject then
      let memOffset := alignment.alignUp (s.relocAllocMemOffsets id)
      { fileSize, memSize, alignment, fileOffset := ctx.partFileOffset id part s, memOffset,
        lmaOffset := memOffset }
    else
      { fileSize, memSize, alignment, fileOffset := ctx.partFileOffset id part s,
        memOffset := alignment.alignUp s.memOffset, lmaOffset := alignment.alignUp s.lmaOffset }
  else
    let memOffset := alignment.alignUp (s.nonallocMemOffsets id)
    { fileSize := memSize, memSize, alignment, fileOffset := ctx.partFileOffset id part s, memOffset,
      lmaOffset := memOffset }

/-- The offsets behind a part. -/
def advance (id : OutputSectionId) (r : OutputRecordLayout) (s : LayoutState) : LayoutState :=
  let s := { s with fileOffset := r.fileOffset + r.fileSize }
  if ctx.targetIsAlloc id then
    if ctx.outputSections.outputKind.isPartialObject then
      { s with
        relocAllocMemOffsets := Function.update s.relocAllocMemOffsets id (r.memOffset + r.memSize) }
    else { s with memOffset := r.memOffset + r.memSize, lmaOffset := r.lmaOffset + r.memSize }
  else
    -- Not from the aligned offset on: the padding in front of the part is not counted.
    { s with nonallocMemOffsets :=
        Function.update s.nonallocMemOffsets id (s.nonallocMemOffsets id + r.memSize) }

/-- `layout_section_from_part_layouts`. -/
def layoutSectionFromPartLayouts (part sectionLayout : OutputRecordLayout) (minAlignment : Alignment)
    (isFirstPart : Bool) : OutputRecordLayout :=
  if isFirstPart then
    { part with alignment := if 0 < part.memSize then max minAlignment part.alignment else minAlignment }
  else
    let fileOffset := min sectionLayout.fileOffset part.fileOffset
    let memOffset := min sectionLayout.memOffset part.memOffset
    { fileSize := max sectionLayout.fileEnd part.fileEnd - fileOffset
      memSize := max sectionLayout.memEnd part.memEnd - memOffset
      alignment := if 0 < part.memSize then max sectionLayout.alignment part.alignment
        else sectionLayout.alignment
      fileOffset
      memOffset
      lmaOffset := min sectionLayout.lmaOffset part.lmaOffset }

/-- A record is stored, and the layout of its section grows by it. -/
def storeRecord (id : OutputSectionId) (part : Nat) (r : OutputRecordLayout) (isFirstPart : Bool)
    (s : LayoutState) : LayoutState :=
  { s with
    records := Function.update s.records id
      (if isFirstPart then [(part, r)] else s.records id ++ [(part, r)])
    sectionLayouts := Function.update s.sectionLayouts id
      (layoutSectionFromPartLayouts r (s.sectionLayouts id) (ctx.minAlignment id) isFirstPart) }

/-- `AT`: the load address of the part and of its section. -/
def setLma (id : OutputSectionId) (lma : Nat) (s : LayoutState) : LayoutState :=
  { s with
    lmaOffset := lma
    records := Function.update s.records id
      ((s.records id).modify ((s.records id).length - 1) fun p => (p.1, { p.2 with lmaOffset := lma }))
    sectionLayouts := Function.update s.sectionLayouts id { s.sectionLayouts id with lmaOffset := lma } }

/-- One round of the loop over the parts. -/
def placePart (id : OutputSectionId) (isFirstPart : Bool) (p : Nat × Nat) (s : LayoutState) :
    Except LayoutError LayoutState :=
  let r := ctx.partRecord id p.1 p.2 s
  let s := ctx.storeRecord id p.1 r isFirstPart (ctx.advance id r s)
  match ctx.atLocation id with
  | none => .ok s
  | some expr => do
    let lma ← ctx.eval expr none s
    return setLma id lma s

/-- The loop over the parts. -/
def placeParts (id : OutputSectionId) : Bool → List (Nat × Nat) → LayoutState → Except LayoutError LayoutState
  | _, [], s => .ok s
  | isFirstPart, p :: ps, s => do
    let s ← ctx.placePart id isFirstPart p s
    placeParts id false ps s

/-- What happens behind the parts of a section. -/
def leaveSection (id : OutputSectionId) (s : LayoutState) : Except LayoutError LayoutState :=
  match ctx.regionName id with
  | none => .ok s
  | some name =>
    match s.memoryRegions name with
    | none => .ok s
    | some region =>
      if region.origin + region.length < s.memOffset then
        .error (.regionOverflowed name (s.memOffset - (region.origin + region.length)))
      else
        .ok { s with
          memoryRegions := Function.update s.memoryRegions name
            (some { region with used := s.memOffset - region.origin }) }

/-- `OrderEvent::Section`. -/
def placeSection (id : OutputSectionId) (s : LayoutState) : Except LayoutError LayoutState := do
  if ctx.outputSections.sectionInfos.length ≤ id then
    throw (.noSuchSection id)
  let s ← ctx.enterSection id s
  let s ← ctx.placeParts id true (ctx.visitedParts id) s
  ctx.leaveSection id s

/-! ## The walk -/

/-- `value - section_base` with 64 bits. -/
def wrappingSub (a b : Nat) : Nat := (a + 2 ^ 64 - b % 2 ^ 64) % 2 ^ 64

/-- One event of the output order. -/
def layoutEvent (s : LayoutState) : OrderEvent → Except LayoutError LayoutState
  | .setLocation expr loc idx => do
    let value ← ctx.eval expr (some loc) s
    return { s with
      pendingLocation := some value
      resolvedLc := s.resolvedLc.set idx { value, sectionOffset := none } }
  | .setLocationRelative expr id loc idx => do
    let base := (s.sectionLayouts (ctx.outputSections.primaryOutputSection id)).memOffset
    let value ← ctx.eval expr (some loc) s
    return { s with
      pendingLocation := some value
      resolvedLc := s.resolvedLc.set idx { value, sectionOffset := some (wrappingSub value base) } }
  | .setSectionAddress expr => do
    let value ← ctx.eval expr none s
    return { s with pendingLocation := some value }
  | .segmentStart segment =>
    .ok (if ctx.isLoadSegment segment then ctx.startSegment segment s else s)
  | .segmentEnd _ => .ok s
  | .outputSection id => ctx.placeSection id s

/-- The state before the first event. -/
def start : Except LayoutError LayoutState := do
  let base ← ctx.eval ctx.baseAddress none
    { memOffset := 0, lmaOffset := 0, memoryRegions := ctx.memoryRegions }
  return {
    memOffset := base
    lmaOffset := base
    resolvedLc := (List.replicate ctx.numLocationCounters {}).set 0 { value := base, sectionOffset := none }
    memoryRegions := ctx.memoryRegions }

/-- The events in turn. -/
def layoutEvents : List OrderEvent → LayoutState → Except LayoutError LayoutState
  | [], s => .ok s
  | event :: events, s => do
    let s ← ctx.layoutEvent s event
    layoutEvents events s

/-- `compute_layout_sections`; the caller keeps `records`, `sectionLayouts` and `resolvedLc`. -/
def computeLayoutSections : Except LayoutError LayoutState := do
  let s ← ctx.start
  ctx.layoutEvents ctx.outputOrder s

end LayoutContext

end Reld
