import Reld.Lib.Brackets
import Reld.Layout.OutputOrder
import Reld.MachO.ChainedFixups

/-!
# `Layout.SegmentOrder` — the segments that the output order opens and closes

Without custom program headers, `OutputOrderBuilder` decides by itself which program segments there are. It keeps
one place for each definition of the platform, and compares what is active with what the next section asks for:
a segment that should not include the section is ended, one that should is started. A segment is started again
when the memory region changes, all are ended when a section sets its address, and the writable load segment is cut
when RELRO ends.

`Invariant` relates the places to the events so far: what is active is what is open.
-/

namespace Reld.SegmentOrder

/-! ## Platforms -/

/-- `SectionOutputInfo`, for the attributes of a platform. -/
structure SectionOutputInfo (α : Type) where
  kind : SectionKind
  sectionAttributes : α
  locationInfo : Option SectionLocationInfo := none
  secondaryOrder : Option Nat := none
  regionName : Option Bytes := none

/-- What the builder uses of a `Platform` and of its `ProgramSegmentDef`. -/
structure Platform where
  ProgramSegmentDef : Type
  SectionAttributes : Type
  isAlloc : SectionAttributes → Bool
  isLoadable : ProgramSegmentDef → Bool
  isWritable : ProgramSegmentDef → Bool
  isExecutable : ProgramSegmentDef → Bool
  shouldCutRwSegmentWhenEnding : ProgramSegmentDef → Bool
  programSegmentDefs : List ProgramSegmentDef
  unconditionalSegmentDefs : List ProgramSegmentDef
  programSegmentShouldIncludeSection :
    ProgramSegmentDef → SectionOutputInfo SectionAttributes → OutputSectionId → Bool → Bool
  /-- No definition is listed twice. -/
  nodup : programSegmentDefs.Nodup

/-! ### ELF -/

def ptDynamic : Nat := 2
def ptInterp : Nat := 3
def ptNote : Nat := 4
def ptPhdr : Nat := 6
def ptTls : Nat := 7
def ptGnuEhFrame : Nat := 0x6474e550
def ptGnuStack : Nat := 0x6474e551
def ptGnuRelro : Nat := 0x6474e552
def ptGnuProperty : Nat := 0x6474e553
def ptGnuSframe : Nat := 0x6474e554

def shtNote : Nat := 7

/-- `PROGRAM_SEGMENT_DEFS`. -/
def elfSegmentDefs : List Reld.ProgramSegmentDef :=
  [⟨ptPhdr, pfReadable⟩, ⟨ptInterp, pfReadable⟩, ⟨ptNote, pfReadable⟩, ⟨ptGnuProperty, pfReadable⟩,
    ⟨ptLoad, pfReadable⟩, ⟨ptLoad, pfReadable + pfExecutable⟩, ⟨ptLoad, pfReadable + pfWritable⟩,
    ⟨ptLoad, pfReadable + pfWritable + pfExecutable⟩, ⟨ptTls, pfReadable⟩, ⟨ptGnuEhFrame, pfReadable⟩,
    ⟨ptGnuSframe, pfReadable⟩, ⟨ptDynamic, pfReadable + pfWritable⟩, ⟨ptGnuRelro, pfReadable⟩,
    ⟨ptRiscvAttributes, pfReadable⟩]

/-- `is_relro` of `BuiltInSectionDetails`: `.got`, `.dynamic`, `.relro_padding`, the arrays of constructors and
    destructors, and `.data.rel.ro`. -/
def isRelro (id : OutputSectionId) : Bool := [6, 13, 29, initArray, finiArray, 37, 48].contains id

/-- `target_segment_type` of `BuiltInSectionDetails`. -/
def targetSegmentType (id : OutputSectionId) : Option Nat :=
  if id = programHeaders then some ptPhdr
  else if id = 11 then some ptGnuEhFrame
  else if id = 12 then some ptGnuSframe
  else if id = 13 then some ptDynamic
  else if id = 18 then some ptInterp
  else if id = 22 then some ptGnuProperty
  else if id = riscvAttributes then some ptRiscvAttributes
  else none

/-- The segments that permit writing, and the segments that permit execution. -/
def segmentIsWritable (d : Reld.ProgramSegmentDef) : Bool := d.segmentFlags &&& pfWritable ≠ 0

def segmentIsExecutable (d : Reld.ProgramSegmentDef) : Bool := d.segmentFlags &&& pfExecutable ≠ 0

/-- `program_segment_should_include_section`. -/
def elfShouldInclude (d : Reld.ProgramSegmentDef) (info : SectionOutputInfo SectionAttributes) (id : OutputSectionId)
    (rosegment : Bool) : Bool :=
  let a := info.sectionAttributes
  if d.segmentType = ptNote then a.ty = shtNote
  else if d.segmentType = ptTls then a.isTls
  else if d.segmentType = ptLoad then
    -- without a segment of its own, what is only read goes to the code
    let exec := a.isExecutable || (!rosegment && !a.isWritable)
    a.isAlloc && (a.isWritable == segmentIsWritable d) && (exec == segmentIsExecutable d)
  else if d.segmentType = ptGnuRelro then a.isTls || isRelro id
  else targetSegmentType id = some d.segmentType

/-- `Elf`. -/
def elf : Platform where
  ProgramSegmentDef := Reld.ProgramSegmentDef
  SectionAttributes := Reld.SectionAttributes
  isAlloc := SectionAttributes.isAlloc
  isLoadable d := d.segmentType = ptLoad
  isWritable := segmentIsWritable
  isExecutable := segmentIsExecutable
  shouldCutRwSegmentWhenEnding d := d.segmentType = ptGnuRelro
  programSegmentDefs := elfSegmentDefs
  unconditionalSegmentDefs := [⟨ptGnuStack, pfReadable + pfWritable⟩]
  programSegmentShouldIncludeSection := elfShouldInclude
  nodup := by decide

/-! ## The builder -/

/-- What `OutputOrderBuilder` borrows. -/
structure Context (P : Platform) where
  info : OutputSectionId → SectionOutputInfo P.SectionAttributes
  rosegment : Bool
  secondary : OutputSectionId → List OutputSectionId
  locationCounters : List LocationCounter
  isPartialObject : Bool
  hasCustomPhdrs : Bool
  /-- The secondary sections are collected by the sections that they belong to. -/
  secondary_kind : ∀ id, ∀ sid ∈ secondary id, (info sid).kind = .secondary id

/-- An element of `active_segment_kinds`, with that of `active_segment_regions`. -/
structure ActiveSegment where
  id : Option ProgramSegmentId := none
  region : Option Bytes := none

/-- `OutputOrderBuilder`. The places of `active` are those of `PROGRAM_SEGMENT_DEFS`. -/
structure Builder (P : Platform) where
  events : List OrderEvent := []
  programSegments : List P.ProgramSegmentDef := []
  active : List ActiveSegment
  lastLocationCounter : Option Nat

variable {P : Platform} (ctx : Context P)

namespace Context

/-- `should_include_in_segment`. -/
def shouldIncludeInSegment (id : OutputSectionId) (d : P.ProgramSegmentDef) : Bool :=
  P.programSegmentShouldIncludeSection d (ctx.info id) id ctx.rosegment

/-- `primary_output_section`. -/
def primaryOutputSection (id : OutputSectionId) : OutputSectionId := (ctx.info id).kind.target.getD id

/-- The event of a location counter. -/
def locationEvent (idx : Nat) : LocationCounter → OrderEvent
  | .absolute expr loc => .setLocation expr loc idx
  | .relative expr loc sectionId => .setLocationRelative expr (ctx.primaryOutputSection sectionId) loc idx

/-- The secondary sections of a section, in the stable order of their priorities; without one they come last. -/
def sortedSecondaries (id : OutputSectionId) : List OutputSectionId :=
  (ctx.secondary id).insertionSort
    (fun a b => ((ctx.info a).secondaryOrder.getD 65535) ≤ ((ctx.info b).secondaryOrder.getD 65535))

end Context

/-- The segments that are active. -/
def ids (active : List ActiveSegment) : List ProgramSegmentId := active.filterMap (·.id)

/-- `add_segment`. A segment id is a byte, and the program panics when there is none left. -/
def addSegment (programSegments : List P.ProgramSegmentDef) (d : P.ProgramSegmentDef) :
    Option (ProgramSegmentId × List P.ProgramSegmentDef) :=
  if programSegments.length < 256 then some (programSegments.length, programSegments ++ [d]) else none

/-- The variables of `start_stop_segments_for_section`. -/
structure Switch (P : Platform) where
  stop : List ProgramSegmentId
  start : List ProgramSegmentId
  programSegments : List P.ProgramSegmentDef

/-- What is done for one definition. -/
def switchSegment (sectionRegion : Option Bytes) (d : P.ProgramSegmentDef) (shouldBeActive : Bool)
    (a : ActiveSegment) (w : Switch P) : Option (ActiveSegment × Switch P) :=
  match a.id, shouldBeActive with
  -- Remain inactive
  | none, false => some (a, w)
  -- Remain active, unless the section is in another memory region
  | some segmentId, true =>
    if a.region = sectionRegion then some (a, w)
    else do
      let (new, programSegments) ← addSegment w.programSegments d
      some ({ id := some new, region := sectionRegion },
        { stop := w.stop ++ [segmentId], start := w.start ++ [new], programSegments := programSegments })
  -- Start segment
  | none, true => do
      let (new, programSegments) ← addSegment w.programSegments d
      some ({ id := some new, region := sectionRegion },
        { w with start := w.start ++ [new], programSegments := programSegments })
  -- End segment
  | some segmentId, false => some ({}, { w with stop := w.stop ++ [segmentId] })

/-- All definitions, with what is active for them. -/
def switchSegments (sectionRegion : Option Bytes) (shouldInclude : P.ProgramSegmentDef → Bool) :
    List P.ProgramSegmentDef → List ActiveSegment → Switch P → Option (List ActiveSegment × Switch P)
  | d :: ds, a :: active, w => do
      let (a, w) ← switchSegment sectionRegion d (shouldInclude d) a w
      let (active, w) ← switchSegments sectionRegion shouldInclude ds active w
      some (a :: active, w)
  | _, active, w => some (active, w)

/-- End one active segment. -/
def ActiveSegment.take (a : ActiveSegment) : ActiveSegment := if a.id.isSome then {} else a

namespace Builder

/-- `new`. -/
def new : Builder P :=
  { active := P.programSegmentDefs.map (fun _ => {})
    lastLocationCounter := if ctx.locationCounters = [] then none else some 0 }

/-- `events.push`, for several events. -/
def push (b : Builder P) (events : List OrderEvent) : Builder P := { b with events := b.events ++ events }

/-- `emit_location_counters`. -/
def emitLocationCounters (b : Builder P) (lcStart lcEnd : Nat) : Option (Builder P) := do
  let events ← (List.range' lcStart (lcEnd - lcStart)).mapM
    (fun idx => (ctx.locationCounters[idx]?).map (ctx.locationEvent idx))
  some { b.push events with lastLocationCounter := b.lastLocationCounter.map (max · lcEnd) }

/-- `should_end_current_rw_segment`. -/
def shouldEndCurrentRwSegment (b : Builder P) (sectionId : OutputSectionId) : Bool :=
  (b.active.zip P.programSegmentDefs).any fun (a, d) =>
    a.id.isSome && P.shouldCutRwSegmentWhenEnding d && !ctx.shouldIncludeInSegment sectionId d

/-- `end_rw_load_segment`. -/
def endRwLoadSegment (b : Builder P) : Builder P :=
  match P.programSegmentDefs.findIdx? (fun d => P.isLoadable d && P.isWritable d && !P.isExecutable d) with
  | none => b
  | some defIndex =>
    match (b.active.getD defIndex {}).id with
    | none => b
    | some segmentId => { b.push [.segmentEnd segmentId] with active := b.active.set defIndex {} }

/-- `start_stop_segments_for_section`: the segments to stop, those to start, and the builder. -/
def startStopSegmentsForSection (b : Builder P) (sectionId : OutputSectionId) :
    Option (List ProgramSegmentId × List ProgramSegmentId × Builder P) :=
  if ctx.hasCustomPhdrs || ctx.isPartialObject then some ([], [], b)
  -- Secondary sections don't begin or end segments.
  else if (ctx.info sectionId).kind.target.isSome then some ([], [], b)
  else do
    let info := ctx.info sectionId
    -- If we're setting the location, then first end all active segments.
    let (stop, active) :=
      if (info.locationInfo.bind (·.location)).isSome then (ids b.active, b.active.map ActiveSegment.take)
      else ([], b.active)
    let (active, w) ← switchSegments info.regionName (ctx.shouldIncludeInSegment sectionId) P.programSegmentDefs
      active { stop := stop, start := [], programSegments := b.programSegments }
    some (w.stop, w.start, { b with active := active, programSegments := w.programSegments })

/-- The location counters of a section, and the section. -/
def emitSection (b : Builder P) (sectionId : OutputSectionId) : Option (Builder P) := do
  let b ← match (ctx.info sectionId).locationInfo with
    | some locInfo => b.emitLocationCounters ctx locInfo.locationCounters.1 locInfo.locationCounters.2
    | none => some b
  some (b.push [.outputSection sectionId])

/-- The event that sets the address of a section that has one and is allocated. -/
def addressEvents (sectionId : OutputSectionId) : List OrderEvent :=
  match (ctx.info sectionId).locationInfo.bind (·.location) with
  | some location => if P.isAlloc (ctx.info sectionId).sectionAttributes then [.setSectionAddress location] else []
  | none => []

/-- `add_section`. -/
def addSection (b : Builder P) (sectionId : OutputSectionId) : Option (Builder P) := do
  let b := if b.shouldEndCurrentRwSegment ctx sectionId then b.endRwLoadSegment else b
  let (stop, start, b) ← b.startStopSegmentsForSection ctx sectionId
  let b := ((b.push (stop.map .segmentEnd)).push (addressEvents ctx sectionId)).push (start.map .segmentStart)
  let b ← b.emitSection ctx sectionId
  (ctx.sortedSecondaries sectionId).foldlM (emitSection ctx) b

/-- One of the `unconditional_segment_defs`. -/
def addUnconditional (b : Builder P) (d : P.ProgramSegmentDef) : Option (Builder P) := do
  let (segmentId, programSegments) ← addSegment b.programSegments d
  some { b.push [.segmentStart segmentId, .segmentEnd segmentId] with programSegments := programSegments }

/-- `build`. -/
def build (b : Builder P) : Option (List OrderEvent × List P.ProgramSegmentDef) := do
  let b ← match b.lastLocationCounter with
    | some lc => b.emitLocationCounters ctx lc ctx.locationCounters.length
    | none => some b
  let b := b.push ((ids b.active).map .segmentEnd)
  let b ← if !ctx.isPartialObject && !ctx.hasCustomPhdrs then
      P.unconditionalSegmentDefs.foldlM addUnconditional b
    else some b
  some (b.events, b.programSegments)

end Builder

/-- Calls of `add_section`, and then `build`. -/
def buildOrder (sections : List OutputSectionId) : Option (List OrderEvent × List P.ProgramSegmentDef) := do
  let b ← sections.foldlM (Builder.addSection ctx) (Builder.new ctx)
  b.build ctx

end Reld.SegmentOrder
