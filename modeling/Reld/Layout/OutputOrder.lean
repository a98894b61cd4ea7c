import Mathlib.Data.List.Sort
import Reld.Layout.Script
import Reld.Lib.Spans

/-!
# `Layout.OutputOrder` — the order of sections and segments under `PHDRS`

A script with a `PHDRS` command decides itself which program segments there are and which sections go into
each. `buildCustomOutputOrder` lays its sections out in the order of their declarations, opens each segment
before the first section that names it and closes it after the last, and places the sections that no script
mentions, the orphans, at the end of the first segments that suit them.

The result is a list of events. With custom program headers no segment is ever active in the builder, so the
branches of `add_section` and `build` that start and end segments by themselves are left out.
-/

namespace Reld

/-- `ProgramSegmentId`. -/
abbrev ProgramSegmentId := Nat

/-- `OrderEvent`. -/
inductive OrderEvent where
  | segmentStart (id : ProgramSegmentId)
  | segmentEnd (id : ProgramSegmentId)
  | outputSection (id : OutputSectionId)
  | setLocation (expr : Expression) (loc : SymbolPlace) (idx : Nat)
  | setLocationRelative (expr : Expression) (sectionId : OutputSectionId) (loc : SymbolPlace) (idx : Nat)
  | setSectionAddress (expr : Expression)

/-- `ProgramSegmentDef`. -/
structure ProgramSegmentDef where
  segmentType : Nat
  segmentFlags : Nat
deriving DecidableEq

def ptLoad : Nat := 1
def ptRiscvAttributes : Nat := 0x70000003
def pfExecutable : Nat := 1
def pfWritable : Nat := 2
def pfReadable : Nat := 4

/-- Why there is no output order. -/
inductive OrderError where
  /-- A type or the flags of a program header are not constant. -/
  | expression (error : String)
  /-- "Section … assigned to non-existent phdr …". -/
  | nonExistentPhdr (sectionId : OutputSectionId) (phdr : Bytes)
  /-- "Missing LOAD PHDR in linker script". -/
  | missingLoad
  /-- "Tried to create a ProgramSegmentId >= 256". -/
  | tooManySegments

/-! ## The builder -/

/-- What `OutputOrderBuilder` borrows. -/
structure OrderContext where
  outputSections : OutputSections
  secondary : OutputSectionId → List OutputSectionId
  locationCounters : List LocationCounter

/-- `OutputOrderBuilder`. -/
structure OutputOrderBuilder where
  events : List OrderEvent := []
  programSegments : List ProgramSegmentDef := []
  lastLocationCounter : Option Nat

namespace OutputOrderBuilder

/-- `new`. -/
def new (ctx : OrderContext) : OutputOrderBuilder :=
  { lastLocationCounter := if ctx.locationCounters = [] then none else some 0 }

/-- `push_event`. -/
def pushEvent (b : OutputOrderBuilder) (event : OrderEvent) : OutputOrderBuilder :=
  { b with events := b.events ++ [event] }

/-- The event of a location counter. -/
def locationEvent (ctx : OrderContext) (idx : Nat) : LocationCounter → OrderEvent
  | .absolute expr loc => .setLocation expr loc idx
  | .relative expr loc sectionId =>
    .setLocationRelative expr (ctx.outputSections.primaryOutputSection sectionId) loc idx

/-- `emit_location_counters`. -/
def emitLocationCounters (ctx : OrderContext) (b : OutputOrderBuilder) (lcStart lcEnd : Nat) :
    OutputOrderBuilder :=
  { b with
    events := b.events ++ (List.range' lcStart (lcEnd - lcStart)).filterMap
      (fun idx => (ctx.locationCounters[idx]?).map (locationEvent ctx idx))
    lastLocationCounter := b.lastLocationCounter.map (max · lcEnd) }

/-- The location counters of a section, and the section. -/
def emitSection (ctx : OrderContext) (b : OutputOrderBuilder) (sectionId : OutputSectionId) :
    OutputOrderBuilder :=
  let b := match (ctx.outputSections.info sectionId).locationInfo with
    | some locInfo => b.emitLocationCounters ctx locInfo.locationCounters.1 locInfo.locationCounters.2
    | none => b
  b.pushEvent (.outputSection sectionId)

/-- The key that orders the secondary sections: those without a priority come last. -/
def secondaryKey (ctx : OrderContext) (sectionId : OutputSectionId) : Nat :=
  ((ctx.outputSections.info sectionId).secondaryOrder).getD 65535

/-- The secondary sections of a section, in the stable order of their keys. -/
def sortedSecondaries (ctx : OrderContext) (sectionId : OutputSectionId) : List OutputSectionId :=
  (ctx.secondary sectionId).insertionSort (fun a b => secondaryKey ctx a ≤ secondaryKey ctx b)

/-- `add_section`. -/
def addSection (ctx : OrderContext) (b : OutputOrderBuilder) (sectionId : OutputSectionId) :
    OutputOrderBuilder :=
  let info := ctx.outputSections.info sectionId
  let b := match info.locationInfo.bind (·.location) with
    | some location =>
      if info.sectionAttributes.isAlloc then b.pushEvent (.setSectionAddress location) else b
    | none => b
  (sortedSecondaries ctx sectionId).foldl (emitSection ctx) (b.emitSection ctx sectionId)

/-- `add_sections`. -/
def addSections (ctx : OrderContext) (b : OutputOrderBuilder) (sections : List OutputSectionId) :
    OutputOrderBuilder :=
  sections.foldl (addSection ctx) b

/-- `add_custom_segment`. A segment id is a byte. -/
def addCustomSegment (b : OutputOrderBuilder) (segmentDef : ProgramSegmentDef) :
    Except OrderError (ProgramSegmentId × OutputOrderBuilder) :=
  if b.programSegments.length < 256 then
    .ok (b.programSegments.length, { b with programSegments := b.programSegments ++ [segmentDef] })
  else .error .tooManySegments

/-- `get_segment_mut(id).segment_flags |= flags`. -/
def addSegmentFlags (b : OutputOrderBuilder) (id : ProgramSegmentId) (flags : Nat) : OutputOrderBuilder :=
  { b with
    programSegments := b.programSegments.modify id
      (fun segmentDef => { segmentDef with segmentFlags := segmentDef.segmentFlags ||| flags }) }

/-- `build`. -/
def build (ctx : OrderContext) (b : OutputOrderBuilder) : List OrderEvent × List ProgramSegmentDef :=
  let b := match b.lastLocationCounter with
    | some lc => b.emitLocationCounters ctx lc ctx.locationCounters.length
    | none => b
  (b.events, b.programSegments)

end OutputOrderBuilder

/-- `get_segment_flags_for_section`. -/
def getSegmentFlagsForSection (a : SectionAttributes) : Nat :=
  (if a.isAlloc then pfReadable else 0) ||| (if a.isWritable then pfWritable else 0) |||
    (if a.isExecutable then pfExecutable else 0)

/-! ## Orphans -/

/-- The lists of `CustomSectionIds`. -/
inductive SectionClass where
  | ro | exec | data | bss | nonalloc | tdata | tbss
deriving DecidableEq

/-- The list a section goes to. -/
def classify (attr : SectionAttributes) : SectionClass :=
  if attr.isExecutable then .exec
  else if attr.isTls then if attr.isNoBits then .tbss else .tdata
  else if !attr.isWritable then if attr.isAlloc then .ro else .nonalloc
  else if attr.isNoBits then .bss
  else .data

namespace OutputSections

/-- The sections that `output_order` puts into `CustomSectionIds` under custom program headers: those
    without program headers, but not the file's headers, which the builder emits by themselves, and not a
    built-in section whose name a script or an input section has taken. -/
def isOrphan (o : OutputSections) (id : OutputSectionId) : Bool :=
  match (o.info id).kind with
  | .secondary _ => false
  | .primary sectionName =>
    (o.info id).phdrs = [] && !(headerSections.contains id) &&
      !(id < numBuiltInSections && (o.customByName sectionName).isSome)

/-- One list of `CustomSectionIds`. -/
def custom (o : OutputSections) (c : SectionClass) : List OutputSectionId :=
  (List.range o.sectionInfos.length).filter
    (fun id => o.isOrphan id && classify (o.info id).sectionAttributes = c)

/-- The secondary sections of a section. -/
def secondary (o : OutputSections) (id : OutputSectionId) : List OutputSectionId :=
  (List.range o.sectionInfos.length).filter (fun sid => (o.info sid).kind = .secondary id)

end OutputSections

/-! ## Segments -/

/-- `SegmentEntry`. -/
structure SegmentEntry where
  id : ProgramSegmentId
  ptype : Nat
  flags : Nat
  isEmitted : Bool
deriving DecidableEq

/-- `segments_map`: the entries by the names of the program headers. -/
abbrev SegmentsMap := List (Bytes × SegmentEntry)

namespace SegmentsMap

def get (m : SegmentsMap) (phdr : Bytes) : Option SegmentEntry := (m.find? (·.1 = phdr)).map (·.2)

/-- `insert`: a header of the same name is replaced. -/
def insert (m : SegmentsMap) (phdr : Bytes) (entry : SegmentEntry) : SegmentsMap :=
  m.filter (·.1 ≠ phdr) ++ [(phdr, entry)]

/-- `get_mut` with an assignment. -/
def set (m : SegmentsMap) (phdr : Bytes) (entry : SegmentEntry) : SegmentsMap :=
  m.map (fun p => if p.1 = phdr then (phdr, entry) else p)

end SegmentsMap

/-- The variables of the loop over the scripts. -/
structure SegmentState where
  builder : OutputOrderBuilder
  segmentsMap : SegmentsMap := []
  orderedSections : List OutputSectionId := []
  segmentHasExplicitFlags : List Bool := []

/-- The value of an expression as a `u32`. -/
def evaluateU32 (e : Expression) : Except OrderError Nat :=
  match evaluateConst e with
  | .ok value => .ok (value.toNat % 2 ^ 32)
  | .error error => .error (.expression error)

/-- The flags of a program header, 0 if it has none. -/
def phdrFlags (phdr : Phdr) : Except OrderError Nat :=
  match phdr.flags with
  | some flags => evaluateU32 flags
  | none => .ok 0

/-- One program header of a script. -/
def addPhdr (s : SegmentState) (phdr : Phdr) : Except OrderError SegmentState := do
  let ptype ← evaluateU32 phdr.ptype
  let flags ← phdrFlags phdr
  let (id, builder) ← s.builder.addCustomSegment { segmentType := ptype, segmentFlags := flags }
  .ok
    { s with
      builder := builder
      segmentHasExplicitFlags := s.segmentHasExplicitFlags ++ [phdr.flags.isSome]
      segmentsMap := s.segmentsMap.insert phdr.name
        { id := id, ptype := ptype, flags := flags, isEmitted := false } }

/-- The name of no program header. -/
def nonePhdr : Bytes := bytesOf "NONE"

/-- One program header of an ordered section. Without explicit flags, the segment gets those of the
    section. -/
def assignPhdr (o : OutputSections) (sectionId : OutputSectionId) (s : SegmentState) (phdr : Bytes) :
    Except OrderError SegmentState :=
  if phdr = nonePhdr then .ok s
  else
    match s.segmentsMap.get phdr with
    | none => .error (.nonExistentPhdr sectionId phdr)
    | some segment =>
      if s.segmentHasExplicitFlags.getD segment.id false then
        .ok { s with segmentsMap := s.segmentsMap.set phdr { segment with isEmitted := true } }
      else
        let flags := segment.flags ||| getSegmentFlagsForSection (o.info sectionId).sectionAttributes
        .ok
          { s with
            segmentsMap := s.segmentsMap.set phdr { segment with flags := flags, isEmitted := true }
            builder := s.builder.addSegmentFlags segment.id flags }

/-- One ordered section of a script. -/
def orderSection (o : OutputSections) (s : SegmentState) (sectionId : OutputSectionId) :
    Except OrderError SegmentState := do
  let s ← (o.info sectionId).phdrs.foldlM (assignPhdr o sectionId) s
  .ok { s with orderedSections := s.orderedSections ++ [sectionId] }

/-- One script: its program headers, and then its sections. -/
def readScript (o : OutputSections) (s : SegmentState) (script : ProcessedLinkerScript) :
    Except OrderError SegmentState := do
  let s ← script.programHeaders.foldlM addPhdr s
  script.orderedSections.foldlM (orderSection o) s

/-! ## Where the segments start and end -/

/-- The variables of the loop over the ordered sections. -/
structure SpanState where
  starts : List (Option Nat)
  ends : List (Option Nat)
  firstLoad : Option ProgramSegmentId := none
  firstExec : Option SegmentEntry := none
  firstRw : Option SegmentEntry := none
  firstRo : Option SegmentEntry := none

/-- A `LOAD` segment becomes the first executable, writable or read-only one. -/
def chooseLoad (s : SpanState) (entry : SegmentEntry) : SpanState :=
  if entry.flags &&& pfExecutable ≠ 0 ∧ s.firstExec.all (fun e => e.flags &&& pfWritable ≠ 0) then
    { s with firstExec := some entry }
  else if entry.flags &&& pfWritable ≠ 0 ∧ s.firstRw.all (fun e => e.flags &&& pfExecutable ≠ 0) then
    { s with firstRw := some entry }
  else if s.firstRo.all (fun e => e.flags ≠ pfReadable) then { s with firstRo := some entry }
  else s

/-- One program header of the section at a position. -/
def visitPhdr (segmentsMap : SegmentsMap) (pos : Nat) (s : SpanState) (phdrName : Bytes) : SpanState :=
  match segmentsMap.get phdrName with
  | none => s
  | some entry =>
    let s :=
      { s with
        firstLoad := if entry.ptype = ptLoad ∧ s.firstLoad = none then some entry.id else s.firstLoad
        starts := if s.ends.getD entry.id none = none then s.starts.set entry.id (some pos) else s.starts
        ends := s.ends.set entry.id (some pos) }
    if entry.ptype = ptLoad then chooseLoad s entry else s

/-- The loop over the ordered sections. -/
def findSpans (o : OutputSections) (segmentsMap : SegmentsMap) (numPhdrs : Nat)
    (orderedSections : List OutputSectionId) : SpanState :=
  orderedSections.zipIdx.foldl
    (fun s (id, pos) => (o.info id).phdrs.foldl (visitPhdr segmentsMap pos) s)
    { starts := List.replicate numPhdrs none, ends := List.replicate numPhdrs none }

/-- `first.map_or(first_load, |e| Some(e.id))`. -/
def orphanSegment (first : Option SegmentEntry) (firstLoad : Option ProgramSegmentId) :
    Option ProgramSegmentId :=
  match first with
  | some entry => some entry.id
  | none => firstLoad

/-! ## Emission -/

open OutputOrderBuilder

/-- `update_flags`. -/
def updateFlags (ctx : OrderContext) (segmentHasExplicitFlags : List Bool) (sections : List OutputSectionId)
    (segment : ProgramSegmentId) (b : OutputOrderBuilder) : OutputOrderBuilder :=
  if segmentHasExplicitFlags.getD segment false then b
  else sections.foldl (fun b id =>
    b.addSegmentFlags segment (getSegmentFlagsForSection (ctx.outputSections.info id).sectionAttributes)) b

/-- Place orphans at the end of a segment. -/
def addOrphans (ctx : OrderContext) (segmentHasExplicitFlags : List Bool) (segment : ProgramSegmentId)
    (classes : List SectionClass) (b : OutputOrderBuilder) : OutputOrderBuilder :=
  let b := classes.foldl (fun b c =>
    updateFlags ctx segmentHasExplicitFlags (ctx.outputSections.custom c) segment b) b
  classes.foldl (fun b c => b.addSections ctx (ctx.outputSections.custom c)) b

/-- Close a segment after its last section. -/
def closeSegment (ctx : OrderContext) (segmentHasExplicitFlags : List Bool) (spans : SpanState)
    (b : OutputOrderBuilder) (segId : ProgramSegmentId) : OutputOrderBuilder :=
  let b := if orphanSegment spans.firstExec spans.firstLoad = some segId then
    addOrphans ctx segmentHasExplicitFlags segId [.exec] b else b
  let b := if orphanSegment spans.firstRw spans.firstLoad = some segId then
    addOrphans ctx segmentHasExplicitFlags segId [.tdata, .tbss, .data, .bss] b else b
  let b := if orphanSegment spans.firstRo spans.firstLoad = some segId then
    addOrphans ctx segmentHasExplicitFlags segId [.ro] b else b
  b.pushEvent (.segmentEnd segId)

/-- The segments whose mark is at a position, in the order of their ids. -/
def segmentsAt (marks : List (Option Nat)) (pos : Nat) : List ProgramSegmentId :=
  (List.range marks.length).filter (fun seg => marks.getD seg none = some pos)

/-- One ordered section with the segments that start and end at it. -/
def emitPosition (ctx : OrderContext) (segmentHasExplicitFlags : List Bool) (spans : SpanState)
    (b : OutputOrderBuilder) (p : OutputSectionId × Nat) : OutputOrderBuilder :=
  let b := (segmentsAt spans.starts p.2).foldl (fun b seg => b.pushEvent (.segmentStart seg)) b
  let b := b.addSection ctx p.1
  (segmentsAt spans.ends p.2).foldl (closeSegment ctx segmentHasExplicitFlags spans) b

/-- The segments that no section names. -/
def emitUnused (b : OutputOrderBuilder) (entry : SegmentEntry) : OutputOrderBuilder :=
  if entry.isEmitted then b
  else (b.pushEvent (.segmentStart entry.id)).pushEvent (.segmentEnd entry.id)

/-- All events, once the segments are known. `values` lists the entries of the map in hash order. -/
def emitEvents (ctx : OrderContext) (s : SegmentState) (spans : SpanState) (values : List SegmentEntry) :
    Except OrderError OutputOrderBuilder := do
  let b := headerSections.foldl (fun b id => b.pushEvent (.outputSection id)) s.builder
  let b := s.orderedSections.zipIdx.foldl (emitPosition ctx s.segmentHasExplicitFlags spans) b
  let b := b.addSections ctx ((ctx.outputSections.custom .nonalloc).filter (· ≠ riscvAttributes))
  let b := values.foldl emitUnused b
  let (riscvSegment, b) ← b.addCustomSegment { segmentType := ptRiscvAttributes, segmentFlags := pfReadable }
  let b := (b.pushEvent (.segmentStart riscvSegment)).addSection ctx riscvAttributes
  .ok (b.pushEvent (.segmentEnd riscvSegment))

/-- `build_custom_output_order_and_program_segments`, as `output_order` calls it. `hashOrder` is the order
    in which the map lists its values. -/
def buildCustomOutputOrder (hashOrder : List SegmentEntry → List SegmentEntry) (o : OutputSections)
    (scripts : List ProcessedLinkerScript) : Except OrderError (List OrderEvent × List ProgramSegmentDef) := do
  let ctx : OrderContext :=
    { outputSections := o
      secondary := o.secondary
      locationCounters := scripts.flatMap (·.locationCounters) }
  let s ← scripts.foldlM (readScript o) { builder := new ctx }
  let numPhdrs := (scripts.map (·.programHeaders.length)).sum
  let spans := findSpans o s.segmentsMap numPhdrs s.orderedSections
  if spans.firstLoad = none then .error .missingLoad
  else
    let b ← emitEvents ctx s spans (hashOrder (s.segmentsMap.map (·.2)))
    .ok (b.build ctx)

end Reld

/-!
# The sections and segments among the events

Location counters and section addresses aside, the events of the custom output order are a weave
(`Lib/Spans.lean`): the spans are the segments, and the positions are the declarations of the scripts. This
module computes the sections and segment boundaries that the builder emits, `marks_emitEvents`.
-/

namespace Reld

open OutputOrderBuilder

/-- The boundary of a segment, or a section. -/
inductive Mark where
  | start (id : ProgramSegmentId)
  | stop (id : ProgramSegmentId)
  | placed (id : OutputSectionId)
deriving DecidableEq

/-- The mark of an event; location events have none. -/
def OrderEvent.mark : OrderEvent → Option Mark
  | .segmentStart id => some (.start id)
  | .segmentEnd id => some (.stop id)
  | .outputSection id => some (.placed id)
  | _ => none

/-- The sections and segment boundaries of a list of events, in order. -/
def marks (events : List OrderEvent) : List Mark := events.filterMap OrderEvent.mark

/-- A loop whose every step appends to what `M` reads appends all of it. -/
theorem foldl_appends {α β γ : Type} {f : β → α → β} {M : β → List γ} {g : α → List γ}
    (h : ∀ b a, M (f b a) = M b ++ g a) (l : List α) (b : β) : M (l.foldl f b) = M b ++ l.flatMap g := by
  induction l generalizing b with
  | nil => simp
  | cons a l ih => rw [List.foldl_cons, ih, h, List.flatMap_cons, List.append_assoc]

namespace OutputOrderBuilder

variable (ctx : OrderContext) (b : OutputOrderBuilder)

/-- What a builder has placed so far. -/
def marked (b : OutputOrderBuilder) : List Mark := marks b.events

theorem marked_pushEvent (event : OrderEvent) : (b.pushEvent event).marked = b.marked ++ marks [event] :=
  List.filterMap_append

theorem marked_emitLocationCounters (lcStart lcEnd : Nat) :
    (b.emitLocationCounters ctx lcStart lcEnd).marked = b.marked := by
  have hnone : marks ((List.range' lcStart (lcEnd - lcStart)).filterMap
      (fun idx => (ctx.locationCounters[idx]?).map (locationEvent ctx idx))) = [] := by
    refine List.filterMap_eq_nil_iff.mpr (fun event hevent => ?_)
    obtain ⟨idx, -, hidx⟩ := List.mem_filterMap.mp hevent
    obtain ⟨lc, -, rfl⟩ := Option.map_eq_some_iff.mp hidx
    cases lc <;> rfl
  unfold marked marks at *
  rw [emitLocationCounters, List.filterMap_append, hnone, List.append_nil]

theorem marked_emitSection (id : OutputSectionId) : (b.emitSection ctx id).marked = b.marked ++ [.placed id] := by
  unfold emitSection
  cases (ctx.outputSections.info id).locationInfo with
  | none => exact marked_pushEvent b _
  | some locInfo => exact (marked_pushEvent _ _).trans (by rw [marked_emitLocationCounters]; rfl)

/-- The sections that `add_section` emits: the section and its secondary ones. -/
def sectionIds (id : OutputSectionId) : List OutputSectionId := id :: sortedSecondaries ctx id

theorem marked_addSection (id : OutputSectionId) :
    (b.addSection ctx id).marked = b.marked ++ (sectionIds ctx id).map .placed := by
  have hrest : ∀ b : OutputOrderBuilder,
      ((sortedSecondaries ctx id).foldl (emitSection ctx) (b.emitSection ctx id)).marked =
        b.marked ++ (sectionIds ctx id).map .placed := by
    intro b
    rw [foldl_appends (marked_emitSection ctx), marked_emitSection, List.append_assoc]
    rw [sectionIds, List.map_cons, List.map_eq_flatMap]
    rfl
  refine (hrest _).trans ?_
  congr 1
  split
  · split
    · exact (marked_pushEvent b _).trans (List.append_nil _)
    · rfl
  · rfl

theorem marked_addSections (sections : List OutputSectionId) :
    (b.addSections ctx sections).marked = b.marked ++ (sections.flatMap (sectionIds ctx)).map .placed := by
  unfold addSections
  rw [foldl_appends (fun b id => marked_addSection ctx b id), List.map_flatMap]

theorem marked_addSegmentFlags (id : ProgramSegmentId) (flags : Nat) :
    (b.addSegmentFlags id flags).marked = b.marked := rfl

end OutputOrderBuilder

section Emission

variable (ctx : OrderContext) (explicitFlags : List Bool) (spans : SpanState)

theorem marked_updateFlags (sections : List OutputSectionId) (segment : ProgramSegmentId) (b : OutputOrderBuilder) :
    (updateFlags ctx explicitFlags sections segment b).marked = b.marked := by
  unfold updateFlags
  split
  · rfl
  · refine (foldl_appends (M := marked) (g := fun _ => []) (fun b id => ?_) sections b).trans ?_
    · rw [marked_addSegmentFlags, List.append_nil]
    · simp

theorem marked_addOrphans (segment : ProgramSegmentId) (classes : List SectionClass) (b : OutputOrderBuilder) :
    (addOrphans ctx explicitFlags segment classes b).marked =
      b.marked ++ ((classes.flatMap ctx.outputSections.custom).flatMap (sectionIds ctx)).map .placed := by
  have hflags : (classes.foldl (fun b c =>
      updateFlags ctx explicitFlags (ctx.outputSections.custom c) segment b) b).marked = b.marked := by
    refine (foldl_appends (M := marked) (g := fun _ => []) (fun b c => ?_) classes b).trans ?_
    · rw [marked_updateFlags, List.append_nil]
    · simp
  unfold addOrphans
  rw [foldl_appends (M := marked) (fun b c => marked_addSections ctx b (ctx.outputSections.custom c)), hflags]
  rw [List.flatMap_assoc, List.map_flatMap]

/-- The orphans at the end of a segment. -/
def orphansAt (segId : ProgramSegmentId) : List OutputSectionId :=
  (if orphanSegment spans.firstExec spans.firstLoad = some segId then
    [SectionClass.exec].flatMap ctx.outputSections.custom else []) ++
  (if orphanSegment spans.firstRw spans.firstLoad = some segId then
    [SectionClass.tdata, .tbss, .data, .bss].flatMap ctx.outputSections.custom else []) ++
  (if orphanSegment spans.firstRo spans.firstLoad = some segId then
    [SectionClass.ro].flatMap ctx.outputSections.custom else [])

theorem marked_closeSegment (b : OutputOrderBuilder) (segId : ProgramSegmentId) :
    (closeSegment ctx explicitFlags spans b segId).marked =
      b.marked ++ (((orphansAt ctx spans segId).flatMap (sectionIds ctx)).map .placed ++ [.stop segId]) := by
  unfold closeSegment orphansAt
  rw [marked_pushEvent, ← List.append_assoc]
  congr 1
  split_ifs <;> simp only [marked_addOrphans, List.append_nil, List.nil_append, List.flatMap_append,
    List.map_append, List.append_assoc, List.flatMap_nil, List.map_nil]

theorem segmentsAt_eq (m : List (Option Nat)) (pos : Nat) : segmentsAt m pos = Spans.marksAt m pos := rfl

/-- The sections that a segment's end brings with it. -/
def tailMarks (segId : ProgramSegmentId) : List Mark :=
  ((orphansAt ctx spans segId).flatMap (sectionIds ctx)).map .placed

/-- The sections of a position. -/
def itemMarks (orderedSections : List OutputSectionId) (pos : Nat) : List Mark :=
  (sectionIds ctx (orderedSections.getD pos 0)).map .placed

/-- The starts and ends that the loop over the ordered sections has found. -/
def SpanState.marks (spans : SpanState) : Spans.Marks := { starts := spans.starts, ends := spans.ends }

theorem marked_emitPosition (b : OutputOrderBuilder) (id : OutputSectionId) (pos : Nat) :
    (emitPosition ctx explicitFlags spans b (id, pos)).marked =
      b.marked ++ ((Spans.marksAt spans.starts pos).map .start ++ (sectionIds ctx id).map .placed ++
        (Spans.marksAt spans.ends pos).flatMap (fun s => tailMarks ctx spans s ++ [.stop s])) := by
  unfold emitPosition
  rw [foldl_appends (M := marked) (marked_closeSegment ctx explicitFlags spans), marked_addSection,
    foldl_appends (M := marked) (g := fun seg => [Mark.start seg]) (fun b seg => marked_pushEvent b _)]
  simp only [segmentsAt_eq, List.append_assoc]
  rw [← List.map_eq_flatMap]
  rfl

theorem marked_emitPositions (b : OutputOrderBuilder) (orderedSections : List OutputSectionId) :
    (orderedSections.zipIdx.foldl (emitPosition ctx explicitFlags spans) b).marked =
      b.marked ++ Spans.weave .start .stop (itemMarks ctx orderedSections) (tailMarks ctx spans) spans.marks
        orderedSections.length := by
  rw [foldl_appends (M := marked) (fun b p => marked_emitPosition ctx explicitFlags spans b p.1 p.2)]
  have hzip : orderedSections.zipIdx =
      (List.range orderedSections.length).map (fun pos => (orderedSections.getD pos 0, pos)) := by
    refine List.ext_getElem (by simp) (fun i hi hi' => ?_)
    simp only [List.length_zipIdx] at hi
    simp [List.getD_eq_getElem?_getD, hi]
  rw [hzip, List.flatMap_map]
  rfl

/-- The marks of the segments that no section names. -/
def unusedMarks (entry : SegmentEntry) : List Mark :=
  if entry.isEmitted then [] else [.start entry.id, .stop entry.id]

theorem marked_emitUnused (b : OutputOrderBuilder) (entry : SegmentEntry) :
    (emitUnused b entry).marked = b.marked ++ unusedMarks entry := by
  unfold emitUnused unusedMarks
  split
  · rw [List.append_nil]
  · rw [marked_pushEvent, marked_pushEvent, List.append_assoc]
    rfl

end Emission

/-! ## The number of segments -/

section SegmentCount

variable (ctx : OrderContext) (explicitFlags : List Bool) (spans : SpanState)

/-- A loop whose steps keep what `M` reads keeps it. -/
theorem foldl_keeps {α β γ : Type} {f : β → α → β} {M : β → γ} (h : ∀ b a, M (f b a) = M b) (l : List α) (b : β) :
    M (l.foldl f b) = M b := by
  induction l generalizing b with
  | nil => rfl
  | cons a l ih => rw [List.foldl_cons, ih, h]

/-- The number of segments of a builder, which is the id of the next one. -/
def OutputOrderBuilder.segmentCount (b : OutputOrderBuilder) : Nat := b.programSegments.length

theorem segmentCount_emitSection (b : OutputOrderBuilder) (id : OutputSectionId) :
    (b.emitSection ctx id).segmentCount = b.segmentCount := by
  unfold emitSection
  cases (ctx.outputSections.info id).locationInfo <;> rfl

theorem segmentCount_addSection (b : OutputOrderBuilder) (id : OutputSectionId) :
    (b.addSection ctx id).segmentCount = b.segmentCount := by
  refine (foldl_keeps (segmentCount_emitSection ctx) _ _).trans ?_
  rw [segmentCount_emitSection]
  split
  · split <;> rfl
  · rfl

theorem segmentCount_addSections (b : OutputOrderBuilder) (sections : List OutputSectionId) :
    (b.addSections ctx sections).segmentCount = b.segmentCount :=
  foldl_keeps (segmentCount_addSection ctx) sections b

theorem segmentCount_updateFlags (sections : List OutputSectionId) (segment : ProgramSegmentId)
    (b : OutputOrderBuilder) : (updateFlags ctx explicitFlags sections segment b).segmentCount = b.segmentCount := by
  unfold updateFlags
  split
  · rfl
  · refine foldl_keeps (M := segmentCount) (fun b id => ?_) sections b
    exact List.length_modify ..

theorem segmentCount_addOrphans (segment : ProgramSegmentId) (classes : List SectionClass) (b : OutputOrderBuilder) :
    (addOrphans ctx explicitFlags segment classes b).segmentCount = b.segmentCount := by
  unfold addOrphans
  rw [foldl_keeps (fun b c => segmentCount_addSections ctx b _),
    foldl_keeps (fun b c => segmentCount_updateFlags ctx explicitFlags _ segment b)]

theorem segmentCount_closeSegment (b : OutputOrderBuilder) (segId : ProgramSegmentId) :
    (closeSegment ctx explicitFlags spans b segId).segmentCount = b.segmentCount := by
  show (ite _ _ _ : OutputOrderBuilder).segmentCount = _
  split_ifs <;> simp only [segmentCount_addOrphans]

theorem segmentCount_emitPosition (b : OutputOrderBuilder) (p : OutputSectionId × Nat) :
    (emitPosition ctx explicitFlags spans b p).segmentCount = b.segmentCount := by
  unfold emitPosition
  rw [foldl_keeps (segmentCount_closeSegment ctx explicitFlags spans), segmentCount_addSection]
  exact foldl_keeps (M := segmentCount) (f := fun b seg => b.pushEvent (.segmentStart seg)) (fun _ _ => rfl) _ b

theorem segmentCount_emitUnused (b : OutputOrderBuilder) (entry : SegmentEntry) :
    (emitUnused b entry).segmentCount = b.segmentCount := by
  unfold emitUnused
  split <;> rfl

end SegmentCount

/-! ## All marks -/

/-- The marks of the output order: the headers, the ordered sections with their segments, the sections that
    are not loaded, the unused segments, and the attributes of RISC-V in a segment of their own. -/
theorem marked_emitEvents {ctx : OrderContext} {s : SegmentState} {spans : SpanState} {values : List SegmentEntry}
    {b : OutputOrderBuilder} (h : emitEvents ctx s spans values = .ok b) :
    b.marked = s.builder.marked ++ headerSections.map .placed ++
      Spans.weave .start .stop (itemMarks ctx s.orderedSections) (tailMarks ctx spans) spans.marks
        s.orderedSections.length ++
      (((ctx.outputSections.custom .nonalloc).filter (· ≠ riscvAttributes)).flatMap (sectionIds ctx)).map .placed ++
      values.flatMap unusedMarks ++
      (.start s.builder.segmentCount :: (sectionIds ctx riscvAttributes).map .placed ++
        [.stop s.builder.segmentCount]) := by
  let b₁ := headerSections.foldl (fun b id => b.pushEvent (.outputSection id)) s.builder
  let b₂ := s.orderedSections.zipIdx.foldl (emitPosition ctx s.segmentHasExplicitFlags spans) b₁
  let b₃ := b₂.addSections ctx ((ctx.outputSections.custom .nonalloc).filter (· ≠ riscvAttributes))
  let b₄ := values.foldl emitUnused b₃
  have hmarks : b₄.marked = s.builder.marked ++ headerSections.map .placed ++
      Spans.weave .start .stop (itemMarks ctx s.orderedSections) (tailMarks ctx spans) spans.marks
        s.orderedSections.length ++
      (((ctx.outputSections.custom .nonalloc).filter (· ≠ riscvAttributes)).flatMap (sectionIds ctx)).map .placed ++
      values.flatMap unusedMarks := by
    rw [foldl_appends (M := marked) marked_emitUnused, marked_addSections, marked_emitPositions,
      foldl_appends (M := marked) (g := fun id => [Mark.placed id]) (fun b id => marked_pushEvent b _)]
    rw [← List.map_eq_flatMap]
  have hcount : b₄.segmentCount = s.builder.segmentCount := by
    rw [foldl_keeps segmentCount_emitUnused, segmentCount_addSections,
      foldl_keeps (segmentCount_emitPosition ctx s.segmentHasExplicitFlags spans)]
    exact foldl_keeps (M := segmentCount) (f := fun b id => b.pushEvent (.outputSection id)) (fun _ _ => rfl)
      headerSections s.builder
  unfold emitEvents at h
  simp only [bind, Except.bind] at h
  split at h
  · cases h
  · rename_i r hadd
    unfold addCustomSegment at hadd
    split at hadd
    · obtain rfl := Except.ok.inj hadd
      obtain rfl := Except.ok.inj h
      rw [marked_pushEvent, marked_addSection, marked_pushEvent]
      show b₄.marked ++ [Mark.start b₄.segmentCount] ++ _ ++ [Mark.stop b₄.segmentCount] = _
      rw [hmarks, hcount]
      simp
    · cases hadd

end Reld
