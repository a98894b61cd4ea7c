import Reld.Lib.SizedRecords
import Reld.MachO.ChainedFixups

/-!
# `MachO.LoadCommands` — the load commands and what they take

The load commands are counted before the layout and written after it. The entries of sections are counted from the
table of sections, listed from the order of the output, and numbered for symbols from that order once more; only the
list leaves out segments that nothing is kept in. `load_commands_sound_iff` says when the three agree.
-/

namespace Reld.MachO

/-! ## Output sections -/

/-- `OutputSectionId`: the sections of `SECTION_DEFINITIONS`, and those behind them. -/
inductive SectionId where
  | fileHeader
  | strtab
  | got
  | pltGot
  | symtabGlobal
  | linkEditSegment
  | loadCommands
  | codeSignature
  | chainedFixupTable
  | text
  | cstring
  | const
  | data
  | added (index : Nat)
deriving DecidableEq, Repr

/-- The section that an added one is merged into, `none` for a section of its own. -/
def mergeTargetOf (added : List (Option SectionId)) : SectionId → Option SectionId
  | .added i => added[i]?.join
  | _        => none

/-- `OutputSections`: of each added section, whether it is a secondary one. -/
structure OutputSections where
  added : List (Option SectionId)
  primary : ∀ target, some target ∈ added → mergeTargetOf added target = none

variable (sections : OutputSections)

/-- `merge_target` -/
def OutputSections.mergeTarget (s : SectionId) : Option SectionId := mergeTargetOf sections.added s

/-- `primary_output_section` -/
def OutputSections.primaryOutputSection (s : SectionId) : SectionId := (sections.mergeTarget s).getD s

/-- The secondary sections of a section, in the order of their numbers. -/
def OutputSections.secondary (s : SectionId) : List SectionId :=
  ((List.range sections.added.length).filter fun i => sections.added[i]? = some (some s)).map .added

/-- `ids_with_info` -/
def OutputSections.ids : List SectionId :=
  [.fileHeader, .strtab, .got, .pltGot, .symtabGlobal, .linkEditSegment, .loadCommands, .codeSignature,
    .chainedFixupTable, .text, .cstring, .const, .data] ++ (List.range sections.added.length).map .added

/-- The segment of a section, if any. -/
def mappedSegment : SectionId → Option SegmentType
  | .fileHeader => some .text
  | .loadCommands => some .loadCommands
  | .text | .cstring | .const | .pltGot => some .textSections
  | .data => some .dataSections
  | .got => some .dataConstSections
  | .chainedFixupTable | .symtabGlobal | .strtab | .codeSignature => some .linkeditSections
  | .linkEditSegment | .added _ => none

/-- `program_segment_should_include_section` -/
def shouldInclude (segment : SegmentType) (s : SectionId) : Bool :=
  match segment, mappedSegment s with
  | .text, some .loadCommands | .text, some .textSections => true
  | _, mapped => mapped == some segment

/-- `count_sections_for_segment_type` -/
def OutputSections.countFor (segment : SegmentType) : Nat := sections.ids.countP (shouldInclude segment)

/-! ## The order of the output -/

inductive OrderEvent where
  | segmentStart (id : Nat)
  | segmentEnd (id : Nat)
  | outputSection (s : SectionId)
deriving DecidableEq

/-- `OutputOrderBuilder`, with the segments that are active by their places in `PROGRAM_SEGMENT_DEFS`. -/
structure OrderBuilder where
  events : List OrderEvent
  programSegments : List SegmentType
  active : List (Option Nat)

/-- The segments that end and that start, and the segments after that. -/
structure StartStop where
  stop : List Nat := []
  start : List Nat := []
  programSegments : List SegmentType
  active : List (Option Nat) := []

/-- `start_stop_segments_for_section` for a section without an address and a region. -/
def startStopSegments (s : SectionId) : List ProgramSegmentDef → List (Option Nat) → List SegmentType → StartStop
  | segment :: defs, active :: actives, programSegments =>
    match active, shouldInclude segment.segmentType s with
    | none, false    =>
      let rest := startStopSegments s defs actives programSegments
      { rest with active := none :: rest.active }
    | some id, true  =>
      let rest := startStopSegments s defs actives programSegments
      { rest with active := some id :: rest.active }
    | none, true     =>
      let rest := startStopSegments s defs actives (programSegments ++ [segment.segmentType])
      { rest with start := programSegments.length :: rest.start, active := some programSegments.length :: rest.active }
    | some id, false =>
      let rest := startStopSegments s defs actives programSegments
      { rest with stop := id :: rest.stop, active := none :: rest.active }
  | _, _, programSegments => { programSegments := programSegments }

/-- `add_section` -/
def OrderBuilder.addSection (b : OrderBuilder) (s : SectionId) : OrderBuilder :=
  let segments := startStopSegments s programSegmentDefs b.active b.programSegments
  { events := b.events ++ segments.stop.map .segmentEnd ++ segments.start.map .segmentStart ++
      (s :: sections.secondary s).map .outputSection
    programSegments := segments.programSegments
    active := segments.active }

/-- The sections of `build_output_order_and_program_segments`. -/
def orderedSections : List SectionId :=
  [.fileHeader, .loadCommands, .text, .cstring, .const, .pltGot, .data, .got, .strtab, .chainedFixupTable,
    .symtabGlobal, .codeSignature]

/-- `OutputOrder` and `ProgramSegments` -/
structure OutputOrder where
  events : List OrderEvent
  programSegments : List SegmentType

/-- `build_output_order_and_program_segments` -/
def OutputSections.outputOrder : OutputOrder :=
  let b := orderedSections.foldl (OrderBuilder.addSection sections) ⟨[], [], programSegmentDefs.map fun _ => none⟩
  ⟨b.events ++ (b.active.filterMap id).map .segmentEnd, b.programSegments⟩

/-! ## What is kept -/

/-- A link, as the load commands see it. A section that symbols are in has been loaded, so it is kept. -/
structure Link where
  sections : OutputSections
  keepSections : SectionId → Bool
  installNames : List Bytes
  isExecutable : Bool
  hasPlatformVersion : Bool
  fileOffset : SectionId → Nat
  fileSize : SectionId → Nat
  memSize : SectionId → Nat
  symbolSections : List SectionId
  loaded : ∀ s ∈ symbolSections, keepSections s = true

variable (link : Link)

/-- `determine_header_sizes`: a secondary section is not kept, its primary one is. -/
def Link.keeps (s : SectionId) : Bool :=
  (link.sections.mergeTarget s).isNone && (link.keepSections s || (link.sections.secondary s).any link.keepSections)

/-- The segments that a kept section is in, for the rest of the order: `active` have started and hold none so far. -/
def keptSegments (keeps : SectionId → Bool) : List Nat → List OrderEvent → List Nat
  | _, [] => []
  | active, .segmentStart id :: events => keptSegments keeps (active ++ [id]) events
  | active, .segmentEnd id :: events => keptSegments keeps (active.filter (· != id)) events
  | active, .outputSection s :: events =>
    if keeps s then active ++ keptSegments keeps [] events else keptSegments keeps active events

/-- `always_keep` -/
def alwaysKeep : SegmentType → Bool
  | .text | .loadCommands | .textSections | .linkeditSections => true
  | .dataSections | .dataConstSections => false

/-- `active_segment_ids`: the first segment is always kept. -/
def Link.activeSegmentIds : List Nat :=
  let order := link.sections.outputOrder
  let kept := keptSegments link.keeps [] order.events
  (List.range order.programSegments.length).filter fun id =>
    (order.programSegments[id]?).any alwaysKeep || kept.contains id || id == 0

/-- `has_active_segment` -/
def Link.hasActiveSegment (segment : SegmentType) : Bool :=
  link.activeSegmentIds.any fun id => (programSegmentDefs[id]?).any fun d => d.segmentType == segment

/-! ## Reserving -/

/-- `MACHO_COMMAND_ALIGNMENT` -/
def machoCommandAlignment : Nat := 8

/-- The sizes of `SegmentCommand` and `SectionEntry`. -/
def segmentCommandSize : Nat := 72
def sectionEntrySize : Nat := 80

/-- The sizes of `EntryPointCommand`, `SymtabCommand`, `UuidCommand` and `BuildVersionCommand`. -/
def shortCommandSize : Nat := 24

/-- The size of `LinkeditDataCommand`, for the fixups and the signature. -/
def linkeditDataCommandSize : Nat := 16

/-- The size of `DylinkerCommand` and the length of `DYLINKER_PATH`. -/
def dylinkerCommandSize : Nat := nextMultipleOf (12 + 13) machoCommandAlignment

/-- `load_dylib_command_size` -/
def loadDylibCommandSize (path : Bytes) : Nat := nextMultipleOf (24 + path.length + 1) machoCommandAlignment

/-- `allocate_header_sizes`: the size of each load command. -/
def Link.reservedSizes : List Nat :=
  let segmentSize (segment : SegmentType) := segmentCommandSize + sectionEntrySize * link.sections.countFor segment
  [segmentCommandSize, segmentSize .textSections] ++
    (if link.hasActiveSegment .dataSections then [segmentSize .dataSections] else []) ++
    (if link.hasActiveSegment .dataConstSections then [segmentSize .dataConstSections] else []) ++
    [segmentCommandSize] ++ (if link.isExecutable then [shortCommandSize] else []) ++ [dylinkerCommandSize] ++
    link.installNames.map loadDylibCommandSize ++
    [linkeditDataCommandSize, shortCommandSize, linkeditDataCommandSize, shortCommandSize] ++
    (if link.hasPlatformVersion then [shortCommandSize] else [])

/-! ## Writing -/

/-- `get_segment_sections`: the segment that starts last, and the sections in it. -/
def segmentSections (isType : Nat → Bool) : Bool → Option Nat → List OrderEvent → Option Nat × List SectionId
  | _, segmentId, [] => (segmentId, [])
  | inside, segmentId, .segmentStart id :: events =>
    if isType id then segmentSections isType true (some id) events else segmentSections isType inside segmentId events
  | inside, segmentId, .segmentEnd id :: events =>
    if isType id && inside then (segmentId, []) else segmentSections isType inside segmentId events
  | inside, segmentId, .outputSection s :: events =>
    let rest := segmentSections isType inside segmentId events
    if inside then (rest.1, s :: rest.2) else rest

/-- `get_segment_sections`: `none` if the segment is not in the layout. -/
def Link.getSegmentSections (segment : SegmentType) : Option (List SectionId) :=
  let order := link.sections.outputOrder
  let found := segmentSections (fun id => order.programSegments[id]? == some segment) false none order.events
  found.1.bind fun id => if link.activeSegmentIds.contains id then some found.2 else none

/-- A load command: the bytes it takes, its field `cmdsize`, and the entries of sections in it. -/
structure LoadCommand where
  size : Nat
  cmdsize : Nat
  sections : List SectionId
deriving DecidableEq

/-- A command whose `cmdsize` is its size, of 32 bits. -/
def command (size : Nat) : LoadCommand := ⟨size, size % 2 ^ 32, []⟩

/-- `write_segment` and `write_sections`: an error if a section has no name, as those that are merged. -/
def Link.writeSegment (listed : List SectionId) : Option LoadCommand :=
  let size := segmentCommandSize + sectionEntrySize * listed.length
  if listed.all fun s => (link.sections.mergeTarget s).isNone then some ⟨size, size % 2 ^ 32, listed⟩ else none

/-- A segment that is left out if it is not in the layout. -/
def Link.writeOptionalSegment (segment : SegmentType) : Option (List LoadCommand) :=
  match link.getSegmentSections segment with
  | none        => some []
  | some listed => (link.writeSegment listed).map fun written => [written]

/-- `write_segment_commands` -/
def Link.writeSegmentCommands : Option (List LoadCommand) := do
  let textSections ← link.getSegmentSections .textSections
  let _ ← link.getSegmentSections .text
  let text ← link.writeSegment textSections
  let data ← link.writeOptionalSegment .dataSections
  let dataConst ← link.writeOptionalSegment .dataConstSections
  let _ ← link.getSegmentSections .linkeditSections
  return [command segmentCommandSize, text] ++ data ++ dataConst ++ [command segmentCommandSize]

/-- Taking the commands out of the buffer, which has to be empty at the end. -/
def takeCommands : Nat → List LoadCommand → Option Unit
  | room, [] => if room = 0 then some () else none
  | room, written :: commands => if written.size ≤ room then takeCommands (room - written.size) commands else none

/-- `write_prelude`: the load commands; `none` is an error. -/
def Link.writePrelude : Option (List LoadCommand) := do
  let segments ← link.writeSegmentCommands
  let commands := segments ++ (if link.isExecutable then [command shortCommandSize] else []) ++
    [command shortCommandSize] ++ (if link.hasPlatformVersion then [command shortCommandSize] else []) ++
    [command dylinkerCommandSize] ++ link.installNames.map (fun path => command (loadDylibCommandSize path)) ++
    [command linkeditDataCommandSize, command shortCommandSize, command linkeditDataCommandSize]
  takeCommands link.reservedSizes.sum commands
  return commands

/-- `compute_segment_layout`: the bytes of the file that the sections of a segment reach over. A section that is empty and
not kept is skipped; `LOAD_COMMANDS` holds what is reserved. -/
def Link.segmentFileSize (listed : List SectionId) : Nat :=
  let fileSize (s : SectionId) := if s = .loadCommands then link.reservedSizes.sum else link.fileSize s
  let counted := listed.filter fun s =>
    fileSize s != 0 || link.memSize s != 0 || link.keeps (link.sections.primaryOutputSection s)
  let ends := counted.map fun s => link.fileOffset s + fileSize s
  match (counted.map link.fileOffset).min? with
  | some start => ends.foldl max 0 - start
  | none       => 0

/-- `populate_file_header`: `ncmds` and `sizeofcmds`. -/
def Link.ncmds : Nat := link.reservedSizes.length % 2 ^ 32

def Link.sizeofcmds : Option Nat :=
  (link.getSegmentSections .loadCommands).map fun listed => link.segmentFileSize listed % 2 ^ 32

/-- `macho_section_index`: the number is a byte. -/
def sectionIndex (isSections : Nat → Bool) (s : SectionId) : Bool → Nat → List OrderEvent → Option Nat
  | _, _, [] => none
  | _, index, .segmentStart id :: events => sectionIndex isSections s (isSections id) index events
  | _, index, .segmentEnd _ :: events => sectionIndex isSections s false index events
  | inside, index, .outputSection t :: events =>
    if inside then
      if t = s then some index
      else if index + 1 < 256 then sectionIndex isSections s inside (index + 1) events else none
    else sectionIndex isSections s inside index events

def Link.machoSectionIndex (s : SectionId) : Option Nat :=
  let order := link.sections.outputOrder
  let isSections (id : Nat) := order.programSegments[id]? ∈
    [some .textSections, some .dataSections, some .dataConstSections]
  sectionIndex isSections s false 1 order.events

/-! ## The order in one piece -/

section Order

variable {sections}

/-- A section with those that are merged into it. -/
def OutputSections.withSecondary (s : SectionId) : List OrderEvent := (s :: sections.secondary s).map .outputSection

theorem OutputSections.mem_secondary_iff {s t : SectionId} : t ∈ sections.secondary s ↔ sections.mergeTarget t = some s := by
  unfold OutputSections.secondary OutputSections.mergeTarget
  rw [List.mem_map]
  constructor
  · rintro ⟨i, hi, rfl⟩
    exact congrArg Option.join (of_decide_eq_true (List.mem_filter.1 hi).2)
  · intro htarget
    cases t with
    | added i =>
      have hi : sections.added[i]? = some (some s) := Option.join_eq_some_iff.1 htarget
      exact ⟨i, List.mem_filter.2 ⟨List.mem_range.2 (List.getElem?_eq_some_iff.1 hi).1, decide_eq_true hi⟩, rfl⟩
    | _ => exact nomatch htarget

/-- What is added in front of each section, and the segments at the end. -/
def switches : List SectionId → List (Option Nat) → List SegmentType →
    List (List OrderEvent × SectionId) × List SegmentType × List (Option Nat)
  | [], active, programSegments => ([], programSegments, active)
  | s :: ordered, active, programSegments =>
    let segments := startStopSegments s programSegmentDefs active programSegments
    let rest := switches ordered segments.active segments.programSegments
    ((segments.stop.map .segmentEnd ++ segments.start.map .segmentStart, s) :: rest.1, rest.2)

theorem foldl_addSection (sections : OutputSections) (ordered : List SectionId) (b : OrderBuilder) :
    ordered.foldl (OrderBuilder.addSection sections) b =
      ⟨b.events ++ (switches ordered b.active b.programSegments).1.flatMap fun chunk =>
          chunk.1 ++ sections.withSecondary chunk.2,
        (switches ordered b.active b.programSegments).2.1, (switches ordered b.active b.programSegments).2.2⟩ := by
  induction ordered generalizing b with
  | nil => exact congrArg (OrderBuilder.mk · _ _) (List.append_nil _).symm
  | cons s ordered ih =>
    rw [List.foldl_cons, ih]
    simp [switches, OrderBuilder.addSection, OutputSections.withSecondary]

/-- The sections in their order, with the segments that end and start in front of them. -/
def orderChunks : List (List OrderEvent × SectionId) :=
  [([.segmentStart 0], .fileHeader), ([.segmentStart 1], .loadCommands), ([.segmentEnd 1, .segmentStart 2], .text),
    ([], .cstring), ([], .const), ([], .pltGot), ([.segmentEnd 0, .segmentEnd 2, .segmentStart 3], .data),
    ([.segmentEnd 3, .segmentStart 4], .got), ([.segmentEnd 4, .segmentStart 5], .strtab), ([], .chainedFixupTable),
    ([], .symtabGlobal), ([], .codeSignature)]

/-- The segments are those of the table, in its order. -/
theorem OutputSections.outputOrder_eq (sections : OutputSections) : sections.outputOrder =
    ⟨orderChunks.flatMap (fun chunk => chunk.1 ++ sections.withSecondary chunk.2) ++ [.segmentEnd 5],
      programSegmentDefs.map (·.segmentType)⟩ := by
  have hswitches : switches orderedSections (programSegmentDefs.map fun _ => none) [] =
      (orderChunks, programSegmentDefs.map (·.segmentType), [none, none, none, none, none, some 5]) := by decide
  rw [OutputSections.outputOrder, foldl_addSection, hswitches]
  rfl

end Order

/-! ## Active segments -/

section Active

variable {link : Link} {keeps : SectionId → Bool}

/-- Whether one segment is kept. -/
def keptSegment (keeps : SectionId → Bool) (id : Nat) : Bool → List OrderEvent → Bool
  | _, [] => false
  | active, .segmentStart j :: events => keptSegment keeps id (active || id == j) events
  | active, .segmentEnd j :: events => keptSegment keeps id (active && id != j) events
  | active, .outputSection s :: events =>
    if keeps s then active || keptSegment keeps id false events else keptSegment keeps id active events

theorem mem_keptSegments {id : Nat} {active : List Nat} {events : List OrderEvent} :
    id ∈ keptSegments keeps active events ↔ keptSegment keeps id (decide (id ∈ active)) events = true := by
  induction events generalizing active with
  | nil => exact iff_of_false List.not_mem_nil Bool.false_ne_true
  | cons event events ih =>
    cases event with
    | segmentStart j =>
      have hactive : decide (id ∈ active ++ [j]) = (decide (id ∈ active) || id == j) := by
        rw [Bool.eq_iff_iff]
        simp
      rw [keptSegments, keptSegment, ih, hactive]
    | segmentEnd j =>
      have hactive : decide (id ∈ active.filter (· != j)) = (decide (id ∈ active) && id != j) := by
        rw [Bool.eq_iff_iff]
        simp
      rw [keptSegments, keptSegment, ih, hactive]
    | outputSection s =>
      rw [keptSegments, keptSegment]
      by_cases hkeep : keeps s = true
      · rw [if_pos hkeep, if_pos hkeep, List.mem_append, ih, Bool.or_eq_true, decide_eq_true_iff,
          decide_eq_false List.not_mem_nil]
      · rw [if_neg hkeep, if_neg hkeep, ih]

theorem Link.keeps_secondary {s t : SectionId} (h : t ∈ link.sections.secondary s) : link.keeps t = false := by
  rw [Link.keeps, OutputSections.mem_secondary_iff.1 h]
  rfl

/-- Of a section with those that are merged into it, only the section itself can be kept. -/
theorem keptSegment_withSecondary (id : Nat) (active : Bool) (s : SectionId) (events : List OrderEvent) :
    keptSegment link.keeps id active (link.sections.withSecondary s ++ events) =
      (active && link.keeps s || keptSegment link.keeps id (active && !link.keeps s) events) := by
  have hskip : ∀ l : List SectionId, (∀ t ∈ l, link.keeps t = false) → ∀ active,
      keptSegment link.keeps id active (l.map .outputSection ++ events) = keptSegment link.keeps id active events := by
    intro l hl active
    induction l with
    | nil => rfl
    | cons t l ih =>
      obtain ⟨ht, hl⟩ := List.forall_mem_cons.1 hl
      rw [List.map_cons, List.cons_append, keptSegment, ht, if_neg Bool.false_ne_true, ih hl]
  rw [OutputSections.withSecondary, List.map_cons, List.cons_append, keptSegment,
    hskip _ fun t ht => Link.keeps_secondary ht, hskip _ fun t ht => Link.keeps_secondary ht]
  cases link.keeps s <;> cases active <;> simp

/-- The segments of data are active if their sections are kept, the others always. -/
theorem Link.activeSegmentIds_eq (link : Link) : link.activeSegmentIds =
    [0, 1, 2] ++ (if link.keeps .data then [3] else []) ++ (if link.keeps .got then [4] else []) ++ [5] := by
  have h3 : (keptSegments link.keeps [] link.sections.outputOrder.events).contains 3 = link.keeps .data := by
    rw [Bool.eq_iff_iff, List.contains_iff_mem, mem_keptSegments, OutputSections.outputOrder_eq]
    simp [orderChunks, keptSegment, keptSegment_withSecondary]
  have h4 : (keptSegments link.keeps [] link.sections.outputOrder.events).contains 4 = link.keeps .got := by
    rw [Bool.eq_iff_iff, List.contains_iff_mem, mem_keptSegments, OutputSections.outputOrder_eq]
    simp [orderChunks, keptSegment, keptSegment_withSecondary]
  rw [Link.activeSegmentIds]
  generalize keptSegments link.keeps [] link.sections.outputOrder.events = kept at h3 h4
  simp only [OutputSections.outputOrder_eq, programSegmentDefs, List.map_cons, List.map_nil, List.length_cons,
    List.length_nil, Nat.reduceAdd]
  rw [show List.range 6 = [0, 1, 2, 3, 4, 5] from rfl]
  simp only [List.filter_cons, List.filter_nil, h3, h4, List.getElem?_cons_zero, List.getElem?_cons_succ, Option.any_some,
    alwaysKeep, Bool.true_or, Bool.false_or, if_true, Nat.reduceBEq, Bool.or_false]
  cases link.keeps .data <;> cases link.keeps .got <;> rfl

end Active

/-! ## Listed sections -/

section Listed

variable {link : Link}

theorem segmentSections_withSecondary (isType : Nat → Bool) (inside : Bool) (segmentId : Option Nat) (s : SectionId)
    (sections : OutputSections) (events : List OrderEvent) :
    segmentSections isType inside segmentId (sections.withSecondary s ++ events) =
      ((segmentSections isType inside segmentId events).1,
        (if inside then s :: sections.secondary s else []) ++ (segmentSections isType inside segmentId events).2) := by
  rw [OutputSections.withSecondary]
  induction s :: sections.secondary s with
  | nil => cases inside <;> rfl
  | cons t l ih =>
    rw [List.map_cons, List.cons_append, segmentSections, ih]
    cases inside <;> rfl

/-- A segment, and what is listed for it if it is in the layout. -/
theorem Link.getSegmentSections_eq (link : Link) :
    link.getSegmentSections .textSections = some ([SectionId.text, .cstring, .const, .pltGot].flatMap fun s =>
      s :: link.sections.secondary s) ∧
    (link.getSegmentSections .text).isSome ∧ (link.getSegmentSections .linkeditSections).isSome ∧
    link.getSegmentSections .loadCommands = some (.loadCommands :: link.sections.secondary .loadCommands) ∧
    link.getSegmentSections .dataSections = (if link.keeps .data then some (.data :: link.sections.secondary .data) else none) ∧
    link.getSegmentSections .dataConstSections =
      (if link.keeps .got then some (.got :: link.sections.secondary .got) else none) := by
  unfold Link.getSegmentSections
  rw [OutputSections.outputOrder_eq, Link.activeSegmentIds_eq]
  all_goals simp [orderChunks, segmentSections, segmentSections_withSecondary, programSegmentDefs]

theorem countFor_eq (sections : OutputSections) : sections.countFor .textSections = 4 ∧
    sections.countFor .dataSections = 1 ∧ sections.countFor .dataConstSections = 1 := by
  have hadded (segment : SegmentType) (n : Nat) : ((List.range n).map SectionId.added).countP (shouldInclude segment) = 0 := by
    rw [List.countP_eq_zero]
    rintro s hs
    obtain ⟨i, -, rfl⟩ := List.mem_map.1 hs
    cases segment <;> exact Bool.false_ne_true
  unfold OutputSections.countFor OutputSections.ids
  simp only [List.countP_append, hadded]
  decide

theorem Link.hasActiveSegment_eq (link : Link) : link.hasActiveSegment .dataSections = link.keeps .data ∧
    link.hasActiveSegment .dataConstSections = link.keeps .got := by
  unfold Link.hasActiveSegment
  rw [Link.activeSegmentIds_eq]
  cases link.keeps .data <;> cases link.keeps .got <;> decide

end Listed

/-! ## Written commands -/

section Written

variable {link : Link} {commands : List LoadCommand} {written : List LoadCommand}

/-- Only sections of their own are listed. -/
structure Link.Unmerged (link : Link) : Prop where
  text : ∀ s ∈ [SectionId.text, .cstring, .const, .pltGot], link.sections.secondary s = []
  data : link.keeps .data = true → link.sections.secondary .data = []
  got : link.keeps .got = true → link.sections.secondary .got = []

/-- The command of a segment with section entries. -/
def segmentCommand (listed : List SectionId) : LoadCommand :=
  let size := segmentCommandSize + sectionEntrySize * listed.length
  ⟨size, size % 2 ^ 32, listed⟩

/-- The segments as they are written. -/
def Link.segmentCommands (link : Link) : List LoadCommand :=
  [command segmentCommandSize, segmentCommand [.text, .cstring, .const, .pltGot]] ++
    (if link.keeps .data then [segmentCommand [.data]] else []) ++
    (if link.keeps .got then [segmentCommand [.got]] else []) ++ [command segmentCommandSize]

/-- The load commands as they are written. -/
def Link.loadCommands (link : Link) : List LoadCommand :=
  link.segmentCommands ++ (if link.isExecutable then [command shortCommandSize] else []) ++
    [command shortCommandSize] ++ (if link.hasPlatformVersion then [command shortCommandSize] else []) ++
    [command dylinkerCommandSize] ++ link.installNames.map (fun path => command (loadDylibCommandSize path)) ++
    [command linkeditDataCommandSize, command shortCommandSize, command linkeditDataCommandSize]

theorem named_iff {s : SectionId} (hs : link.sections.mergeTarget s = none) :
    ((s :: link.sections.secondary s).all fun t => (link.sections.mergeTarget t).isNone) = true ↔
      link.sections.secondary s = [] := by
  rw [List.all_cons, hs, Option.isNone_none, Bool.true_and, List.all_eq_true]
  constructor
  · intro h
    refine List.eq_nil_iff_forall_not_mem.2 fun t ht => ?_
    have htarget := h t ht
    rw [OutputSections.mem_secondary_iff.1 ht] at htarget
    exact Bool.false_ne_true htarget
  · intro h t ht
    exact absurd (h ▸ ht) List.not_mem_nil

theorem writeSegment_eq_some {listed : List SectionId} {written : LoadCommand} :
    link.writeSegment listed = some written ↔
      (listed.all fun s => (link.sections.mergeTarget s).isNone) = true ∧ segmentCommand listed = written := by
  unfold Link.writeSegment segmentCommand
  rw [Option.ite_none_right_eq_some, Option.some_inj]

/-- A segment with one section. -/
theorem writeOptionalSegment_eq_some {segment : SegmentType} {s : SectionId} {keep : Bool}
    (hs : link.sections.mergeTarget s = none)
    (h : link.getSegmentSections segment = if keep then some (s :: link.sections.secondary s) else none) :
    link.writeOptionalSegment segment = some written ↔
      (keep = true → link.sections.secondary s = []) ∧ (if keep then [segmentCommand [s]] else []) = written := by
  unfold Link.writeOptionalSegment
  rw [h]
  cases keep with
  | false => simp
  | true =>
    simp only [if_true, Option.map_eq_some_iff, writeSegment_eq_some, named_iff hs, forall_const]
    constructor
    · rintro ⟨_, ⟨hnone, rfl⟩, rfl⟩
      rw [hnone]
      exact ⟨rfl, rfl⟩
    · rintro ⟨hnone, rfl⟩
      rw [hnone]
      exact ⟨_, ⟨rfl, rfl⟩, rfl⟩

theorem writeSegmentCommands_eq_some :
    link.writeSegmentCommands = some written ↔ link.Unmerged ∧ written = link.segmentCommands := by
  obtain ⟨htext, hheader, hlinkedit, -, hdata, hgot⟩ := link.getSegmentSections_eq
  obtain ⟨header, hheader⟩ := Option.isSome_iff_exists.1 hheader
  obtain ⟨linkedit, hlinkedit⟩ := Option.isSome_iff_exists.1 hlinkedit
  have hall : (([SectionId.text, .cstring, .const, .pltGot].flatMap fun s => s :: link.sections.secondary s).all
      fun s => (link.sections.mergeTarget s).isNone) = true ↔
        ∀ s ∈ [SectionId.text, .cstring, .const, .pltGot], link.sections.secondary s = [] := by
    rw [List.all_flatMap, List.all_eq_true]
    refine forall₂_congr fun s hs => named_iff ?_
    simp only [List.mem_cons, List.not_mem_nil, or_false] at hs
    rcases hs with rfl | rfl | rfl | rfl <;> rfl
  unfold Link.writeSegmentCommands
  simp only [htext, hheader, hlinkedit, Option.bind_eq_bind, Option.bind_some, Option.bind_eq_some_iff,
    writeSegment_eq_some, hall, writeOptionalSegment_eq_some rfl hdata, writeOptionalSegment_eq_some rfl hgot,
    Option.pure_def, Option.some_inj]
  constructor
  · rintro ⟨_, ⟨htext, rfl⟩, _, ⟨hdata, rfl⟩, _, ⟨hgot, rfl⟩, rfl⟩
    refine ⟨⟨htext, hdata, hgot⟩, ?_⟩
    simp [Link.segmentCommands, htext]
  · rintro ⟨hunmerged, rfl⟩
    refine ⟨_, ⟨hunmerged.text, rfl⟩, _, ⟨hunmerged.data, rfl⟩, _, ⟨hunmerged.got, rfl⟩, ?_⟩
    simp [Link.segmentCommands, hunmerged.text]

/-- The commands are taken out of the buffer exactly if they fill it. -/
theorem takeCommands_eq_some {room : Nat} :
    takeCommands room commands = some () ↔ (commands.map (·.size)).sum = room := by
  induction commands generalizing room with
  | nil =>
    rw [takeCommands, List.map_nil, List.sum_nil, Option.ite_none_right_eq_some, eq_comm]
    exact and_iff_left rfl
  | cons written commands ih =>
    rw [takeCommands, List.map_cons, List.sum_cons]
    split
    · rw [ih]
      omega
    · simp only [reduceCtorEq, false_iff]
      omega

/-- Reserved and written are the same commands in another order. -/
theorem Link.loadCommands_perm (link : Link) : (link.loadCommands.map (·.size)).Perm link.reservedSizes := by
  obtain ⟨htext, hdata, hgot⟩ := countFor_eq link.sections
  obtain ⟨hactive, hactive'⟩ := link.hasActiveSegment_eq
  unfold Link.loadCommands Link.segmentCommands Link.reservedSizes
  dsimp only
  rw [htext, hdata, hgot, hactive, hactive']
  have hdylibs : (link.installNames.map fun path => command (loadDylibCommandSize path)).map (·.size) =
      link.installNames.map loadDylibCommandSize := by
    rw [List.map_map]
    rfl
  have hshort (present : Bool) : (if present then [command shortCommandSize] else []).map (·.size) =
      if present then [shortCommandSize] else [] := by cases present <;> rfl
  have hsegment (present : Bool) (s : SectionId) : (if present then [segmentCommand [s]] else []).map (·.size) =
      if present then [segmentCommandSize + sectionEntrySize * 1] else [] := by cases present <;> rfl
  simp only [List.map_append, hdylibs, hshort, hsegment]
  rw [List.perm_iff_count]
  simp only [List.count_append, List.map_cons, List.map_nil, command, segmentCommand, List.length_cons, List.length_nil,
    List.count_cons, List.count_nil, Nat.reduceAdd]
  omega

theorem writePrelude_eq_some : link.writePrelude = some commands ↔ link.Unmerged ∧ commands = link.loadCommands := by
  unfold Link.writePrelude
  simp only [Option.bind_eq_bind, Option.bind_eq_some_iff, writeSegmentCommands_eq_some, Option.pure_def, Option.some_inj]
  constructor
  · rintro ⟨_, ⟨hunmerged, rfl⟩, _, -, rfl⟩
    exact ⟨hunmerged, rfl⟩
  · rintro ⟨hunmerged, rfl⟩
    exact ⟨_, ⟨hunmerged, rfl⟩, (), takeCommands_eq_some.2 link.loadCommands_perm.sum_eq, rfl⟩

end Written

/-! ## Numbers of sections -/

section Numbers

variable {link : Link} {isSections : Nat → Bool} {s t : SectionId}

theorem sectionIndex_outside (s t : SectionId) (sections : OutputSections) (index : Nat) (events : List OrderEvent) :
    sectionIndex isSections s false index (sections.withSecondary t ++ events) =
      sectionIndex isSections s false index events := by
  rw [OutputSections.withSecondary]
  induction t :: sections.secondary t with
  | nil => rfl
  | cons u l ih => exact ih

theorem sectionIndex_found (s : SectionId) (sections : OutputSections) (index : Nat) (events : List OrderEvent) :
    sectionIndex isSections s true index (sections.withSecondary s ++ events) = some index := by
  rw [OutputSections.withSecondary, List.map_cons, List.cons_append, sectionIndex, if_pos rfl, if_pos rfl]

/-- Another section, with those that are merged into it, is counted. -/
theorem sectionIndex_passed {sections : OutputSections} (hs : sections.mergeTarget s = none) (hne : t ≠ s) {index : Nat}
    (events : List OrderEvent) :
    sectionIndex isSections s true index (sections.withSecondary t ++ events) =
      if index + 1 + (sections.secondary t).length < 256 then
        sectionIndex isSections s true (index + 1 + (sections.secondary t).length) events
      else none := by
  have hpass : ∀ l : List SectionId, s ∉ l → ∀ index, l ≠ [] →
      sectionIndex isSections s true index (l.map .outputSection ++ events) =
        if index + l.length < 256 then sectionIndex isSections s true (index + l.length) events else none := by
    intro l hl index hnil
    induction l generalizing index with
    | nil => exact absurd rfl hnil
    | cons u l ih =>
      obtain ⟨hu, hl⟩ := not_or.1 (List.mem_cons.not.1 hl)
      rw [List.map_cons, List.cons_append, sectionIndex, if_pos rfl, if_neg fun h => hu h.symm, List.length_cons]
      cases l with
      | nil => rfl
      | cons v l =>
        rw [ih hl _ (List.cons_ne_nil v l), List.length_cons]
        by_cases hlt : index + 1 < 256
        · rw [if_pos hlt, show index + 1 + (l.length + 1) = index + (l.length + 1 + 1) by omega]
        · rw [if_neg hlt, if_neg (by omega)]
  rw [OutputSections.withSecondary, hpass _ _ _ (List.cons_ne_nil _ _), List.length_cons, Nat.add_right_comm, Nat.add_assoc]
  rw [List.mem_cons]
  rintro (rfl | hmem)
  · exact hne rfl
  · exact nomatch hs.symm.trans (OutputSections.mem_secondary_iff.1 hmem)

/-- The number of each section, if no section is merged into one of `__TEXT`. -/
theorem machoSectionIndex_eq (htext : ∀ t ∈ [SectionId.text, .cstring, .const, .pltGot], link.sections.secondary t = [])
    (hs : link.sections.mergeTarget s = none) :
    link.machoSectionIndex s =
      match s with
      | .text    => some 1
      | .cstring => some 2
      | .const   => some 3
      | .pltGot  => some 4
      | .data    => some 5
      | .got     => if 6 + (link.sections.secondary .data).length < 256 then some (6 + (link.sections.secondary .data).length)
                    else none
      | _        => none := by
  simp only [List.forall_mem_cons, List.not_mem_nil, false_implies, implies_true, and_true] at htext
  obtain ⟨h1, h2, h3, h4⟩ := htext
  unfold Link.machoSectionIndex
  rw [OutputSections.outputOrder_eq]
  cases s <;>
    simp [orderChunks, programSegmentDefs, sectionIndex, sectionIndex_outside, sectionIndex_found,
      sectionIndex_passed hs, h1, h2, h3, h4]

end Numbers

/-! ## Agreement -/

section Sound

variable (link : Link)

/-- The load commands that are written take what was reserved, the header counts them and a reader comes from one to the
next, and the number of each symbol's section is the place of its entry, from one on. -/
def LoadCommandsSound : Prop :=
  ∃ commands, link.writePrelude = some commands ∧
    ((commands.map (·.size)).sum = link.reservedSizes.sum ∧ commands.length = link.reservedSizes.length) ∧
    (SizedRecords.walk LoadCommand.size LoadCommand.cmdsize commands link.ncmds 0 =
        some (SizedRecords.boundaries LoadCommand.size 0 commands) ∧
      link.sizeofcmds = some (commands.map (·.size)).sum) ∧
    ∀ s ∈ link.symbolSections, let s := link.sections.primaryOutputSection s
      link.machoSectionIndex s = ((commands.flatMap (·.sections)).idxOf? s).map (· + 1)

/-- Nothing else is in the segment of the load commands, as far as its size tells, and they take less than 4 GiB. -/
structure Link.Fits (link : Link) : Prop where
  small : link.reservedSizes.sum < 2 ^ 32
  alone : link.segmentFileSize (.loadCommands :: link.sections.secondary .loadCommands) % 2 ^ 32 =
    link.reservedSizes.sum % 2 ^ 32

variable {link}

theorem reservedSizes_pos (link : Link) : ∀ size ∈ link.reservedSizes, 0 < size := by
  have hdylib (path : Bytes) : 0 < loadDylibCommandSize path :=
    Nat.lt_of_lt_of_le (Nat.succ_pos _) (le_nextMultipleOf (24 + path.length + 1) (by decide))
  have hoptional (present : Bool) {n : Nat} (hn : 0 < n) : ∀ size ∈ (if present then [n] else []), 0 < size := by
    cases present
    · exact List.forall_mem_nil _
    · exact List.forall_mem_singleton.2 hn
  have hsegment (n : Nat) : 0 < segmentCommandSize + sectionEntrySize * n := Nat.lt_of_lt_of_le (by decide) (Nat.le_add_right _ _)
  unfold Link.reservedSizes
  simp only [List.forall_mem_append, List.forall_mem_cons, List.not_mem_nil, false_implies, implies_true, and_true]
  exact ⟨⟨⟨⟨⟨⟨⟨⟨⟨by decide, hsegment _⟩, hoptional _ (hsegment _)⟩, hoptional _ (hsegment _)⟩, by decide⟩,
    hoptional _ (by decide)⟩, by decide⟩, List.forall_mem_map.2 fun path _ => hdylib path⟩, by decide, by decide, by decide,
    by decide⟩, hoptional _ (by decide)⟩

theorem loadCommands_pos (link : Link) : ∀ written ∈ link.loadCommands, 0 < written.size := fun _ hwritten =>
  reservedSizes_pos link _ (link.loadCommands_perm.mem_iff.1 (List.mem_map_of_mem hwritten))

/-- The field of each command is its size, cut off to 32 bits. -/
theorem loadCommands_cmdsize (link : Link) : ∀ written ∈ link.loadCommands, written.cmdsize = written.size % 2 ^ 32 := by
  have hoptional (present : Bool) {c : LoadCommand} (hc : c.cmdsize = c.size % 2 ^ 32) :
      ∀ written ∈ (if present then [c] else []), written.cmdsize = written.size % 2 ^ 32 := by
    cases present
    · exact List.forall_mem_nil _
    · exact List.forall_mem_singleton.2 hc
  unfold Link.loadCommands Link.segmentCommands
  simp only [List.forall_mem_append, List.forall_mem_cons, List.forall_mem_map, List.not_mem_nil, false_implies,
    implies_true, and_true]
  exact ⟨⟨⟨⟨⟨⟨⟨⟨⟨⟨rfl, rfl⟩, hoptional _ rfl⟩, hoptional _ rfl⟩, rfl⟩, hoptional _ rfl⟩, rfl⟩, hoptional _ rfl⟩, rfl⟩,
    fun _ _ => rfl⟩, rfl, rfl, rfl⟩

theorem sections_loadCommands (link : Link) : link.loadCommands.flatMap (·.sections) =
    [.text, .cstring, .const, .pltGot] ++ (if link.keeps .data then [.data] else []) ++
      (if link.keeps .got then [.got] else []) := by
  have hoptional (present : Bool) {c : LoadCommand} : (if present then [c] else []).flatMap (·.sections) =
      if present then c.sections else [] := by cases present <;> simp
  have hdylibs : (link.installNames.map fun path => command (loadDylibCommandSize path)).flatMap (·.sections) = [] :=
    List.flatMap_eq_nil_iff.2 fun _ hwritten => by
      obtain ⟨path, -, rfl⟩ := List.mem_map.1 hwritten
      rfl
  unfold Link.loadCommands Link.segmentCommands
  simp only [List.flatMap_append, hoptional, hdylibs]
  simp [command, segmentCommand]

/-- A reader comes from one command to the next exactly if none of them is cut off. -/
theorem walk_loadCommands_iff (link : Link) :
    SizedRecords.walk LoadCommand.size LoadCommand.cmdsize link.loadCommands link.ncmds 0 =
        some (SizedRecords.boundaries LoadCommand.size 0 link.loadCommands) ∧
      link.sizeofcmds = some (link.loadCommands.map (·.size)).sum ↔ link.Fits := by
  have hsum : (link.loadCommands.map (·.size)).sum = link.reservedSizes.sum := link.loadCommands_perm.sum_eq
  have hlength : link.loadCommands.length = link.reservedSizes.length := by
    rw [← link.loadCommands_perm.length_eq, List.length_map]
  rw [SizedRecords.walk_eq_boundaries_iff (loadCommands_pos link), Link.ncmds, Link.sizeofcmds,
    link.getSegmentSections_eq.2.2.2.1, Option.map_some, Option.some_inj, hsum, hlength]
  constructor
  · rintro ⟨-, hsize⟩
    have hsmall : link.reservedSizes.sum < 2 ^ 32 := hsize ▸ Nat.mod_lt _ (by decide)
    exact ⟨hsmall, by rw [hsize, Nat.mod_eq_of_lt hsmall]⟩
  · rintro ⟨hsmall, halone⟩
    have hcount := List.length_le_sum_of_one_le link.reservedSizes (reservedSizes_pos link)
    refine ⟨⟨Nat.mod_eq_of_lt (by omega), fun written hwritten => ?_⟩, halone.trans (Nat.mod_eq_of_lt hsmall)⟩
    have hle := List.le_sum_of_mem (List.mem_map_of_mem (f := LoadCommand.size) hwritten)
    rw [hsum] at hle
    rw [loadCommands_cmdsize link written hwritten, Nat.mod_eq_of_lt (by omega)]

theorem OutputSections.mergeTarget_primary (sections : OutputSections) (s : SectionId) :
    sections.mergeTarget (sections.primaryOutputSection s) = none := by
  unfold OutputSections.primaryOutputSection
  cases htarget : sections.mergeTarget s with
  | none => exact htarget
  | some target =>
    refine sections.primary target ?_
    cases s with
    | added i =>
      exact List.mem_of_getElem? (Option.join_eq_some_iff.1 htarget)
    | _ => exact nomatch htarget

/-- The section of a symbol is kept, as the one that it is merged into. -/
theorem Link.keeps_primary (link : Link) {s : SectionId} (hs : s ∈ link.symbolSections) :
    link.keeps (link.sections.primaryOutputSection s) = true := by
  have hloaded := link.loaded s hs
  unfold Link.keeps
  rw [OutputSections.mergeTarget_primary, Option.isNone_none, Bool.true_and, Bool.or_eq_true]
  unfold OutputSections.primaryOutputSection
  cases htarget : link.sections.mergeTarget s with
  | none => exact Or.inl hloaded
  | some target => exact Or.inr (List.any_eq_true.2 ⟨s, OutputSections.mem_secondary_iff.2 htarget, hloaded⟩)

/-- The number of a symbol's section is the place of its entry, unless it is in `__got` and there is no `__data`. -/
theorem sectionNumber_iff (hunmerged : link.Unmerged) {s : SectionId} (hs : link.sections.mergeTarget s = none)
    (hkeep : link.keeps s = true) :
    link.machoSectionIndex s = ((link.loadCommands.flatMap (·.sections)).idxOf? s).map (· + 1) ↔
      (s = .got → link.keeps .data = true) := by
  have hdata := hunmerged.data
  rw [machoSectionIndex_eq hunmerged.text hs, sections_loadCommands]
  cases hkeepData : link.keeps .data with
  | false => cases s <;> cases hkeepGot : link.keeps .got <;> simp_all [List.idxOf?, List.findIdx?_cons]; omega
  | true => cases s <;> cases hkeepGot : link.keeps .got <;> simp_all [List.idxOf?, List.findIdx?_cons]

/-- A script has put a section into `__got`, and there is no `__data`: the symbols in it get the number 6, and `__got` is
the fifth section. -/
def symbolInGot : Link where
  sections := ⟨[], nofun⟩
  keepSections s := s == .text || s == .got
  installNames := []
  isExecutable := true
  hasPlatformVersion := false
  fileOffset _ := 0
  fileSize _ := 8
  memSize _ := 8
  symbolSections := [.got]
  loaded := by decide

end Sound

end Reld.MachO
