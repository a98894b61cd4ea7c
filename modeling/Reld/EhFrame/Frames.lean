import Reld.Lib.Encodings
import Reld.Lib.SortedTable
import Reld.Relax.SymbolAddresses

/-!
# `EhFrame.Frames` — the frames of a link and their table

Layout walks over the `.eh_frame` sections of each object, keeps the sizes of the common entries, and notes for each
section the frames that describe it; a section that is loaded takes room for its frames in `.eh_frame` and in the table of
`.eh_frame_hdr`. The writer walks over the same sections again, copies the entries that are kept, and fills the table,
which is sorted at the end. What the relocations of an entry write is not modelled, only whether they can be applied.
-/

namespace Reld.EhFrame

open SymbolAddresses

/-! ## Input -/

/-- What `symbol` and `symbol_section` say of the symbol of a relocation. -/
structure FrameSymbol where
  sectionIndex : Option Nat
  value : BitVec 64
deriving DecidableEq

structure FrameRelocation where
  offset : Nat
  symbol : Option FrameSymbol
  addend : BitVec 64
deriving DecidableEq

/-- A section of an object that frames may describe, after layout. -/
inductive TargetSlot where
  /-- Not loaded; it could have been. -/
  | unloaded
  /-- Loaded by `load_section`. -/
  | loaded (resolution : SectionResolution)
  /-- A section that is not loaded that way, such as `.eh_frame` itself. -/
  | other (resolution : SectionResolution)

/-- `unloaded_mut`, asked before anything is loaded. -/
def TargetSlot.canLoad : TargetSlot → Bool
  | .unloaded => true
  | .loaded _ => true
  | .other _  => false

/-- The entry of `section_resolutions`. -/
def TargetSlot.resolution : TargetSlot → SectionResolution
  | .unloaded => ⟨BitVec.allOnes 64⟩
  | .loaded resolution => resolution
  | .other resolution => resolution

structure TargetSection where
  slot : TargetSlot
  size : Nat
  deltas : Option SectionRelaxDeltas := none

/-- One `.eh_frame` section of an object. -/
structure FrameSection where
  data : List UInt8
  relocations : List FrameRelocation

structure FrameObject where
  sections : List TargetSection
  frameSections : List FrameSection

inductive FrameError where
  /-- "Invalid .eh_frame data". -/
  | invalidData
  /-- "Unexpected absolute relocation in .eh_frame pc-begin". -/
  | absolutePcBegin
  /-- ".eh_frame pc-begin refers to symbol that's not defined in file". -/
  | undefinedPcBegin
  /-- "CIE pointer is {cieId}, but we're at offset {position}". -/
  | ciePointer (cieId position : Nat)
  /-- "FDE referenced CIE at {position}, but no CIE at that position". -/
  | noCie (position : Nat)
  /-- "32 bit overflow in frame_ptr". -/
  | framePtrOverflow
  /-- "32 bit overflow when computing frame_info_ptr". -/
  | frameInfoPtrOverflow
  /-- ".eh_frame more than 2GB away from .eh_frame_hdr". -/
  | framePointerOverflow
  /-- ".eh_frame_hdr entries overflowed 32 bits". -/
  | entryCountOverflow
  | insufficientAllocation
  | excessiveAllocation
  /-- "Failed to apply eh_frame {relocation}". -/
  | relocation
deriving DecidableEq

/-! ## The entries of a section -/

def readU32 (data : List UInt8) (pos : Nat) : Nat := LittleEndian.leNat ((data.drop pos).take 4)

/-- An entry: a CIE, if its `cie_id` is zero, or else an FDE. -/
structure FrameEntry where
  pos : Nat
  size : Nat
  cieId : Nat

namespace FrameEntry

def next (entry : FrameEntry) : Nat := entry.pos + entry.size

def isCie (entry : FrameEntry) : Bool := entry.cieId == 0

/-- The relocations of an entry, at the front of those that are left. -/
def own (entry : FrameEntry) (relocations : List FrameRelocation) : List FrameRelocation :=
  relocations.takeWhile (·.offset < entry.next)

/-- The relocations that are left behind an entry. -/
def behind (entry : FrameEntry) (relocations : List FrameRelocation) : List FrameRelocation :=
  relocations.dropWhile (·.offset < entry.next)

/-- `FDE_PC_BEGIN_OFFSET`. -/
def isPcBegin (entry : FrameEntry) (relocation : FrameRelocation) : Bool := relocation.offset == entry.pos + 8

end FrameEntry

/-- The loop over the entries of a section, which layout and the writer share: the entries, and where they end. -/
def frameEntries (data : List UInt8) (pos : Nat) : Except FrameError (List FrameEntry × Nat) :=
  if pos + 8 ≤ data.length then
    -- an entry without a length ends the section
    if readU32 data pos = 0 then .ok ([], data.length)
    else if data.length < pos + (4 + readU32 data pos) then .error .invalidData
    else
      match frameEntries data (pos + (4 + readU32 data pos)) with
      | .ok (entries, stop) => .ok (⟨pos, 4 + readU32 data pos, readU32 data (pos + 4)⟩ :: entries, stop)
      | .error error => .error error
  else .ok ([], pos)
termination_by data.length - pos

/-- `is_eh_frame_terminator`. -/
def isEhFrameTerminator (data : List UInt8) : Bool := data.length == 4 && data.all (· == 0)

/-- The bytes behind the entries that are copied as they are. -/
def remainingLength (data : List UInt8) (stop : Nat) : Nat :=
  if isEhFrameTerminator (data.drop stop) then 0 else data.length - stop

/-! ## Layout -/

/-- A frame that is noted for its section. The code links the frames of a section by their indices. -/
structure ExceptionFrame where
  sectionIndex : Nat
  frameSize : Nat

/-- The section that the last relocation of `pc_begin` refers to. -/
def pcBeginSection (entry : FrameEntry) (relocations : List FrameRelocation) : Option Nat :=
  (((entry.own relocations).filter fun r => entry.isPcBegin r && r.symbol.isSome).getLast?.bind (·.symbol)).bind
    (·.sectionIndex)

def FrameObject.section? (o : FrameObject) (index : Nat) : Option TargetSection := o.sections[index]?

def FrameObject.canLoad (o : FrameObject) (index : Nat) : Bool := (o.section? index).any (·.slot.canLoad)

/-- `process_eh_frame_relocations`: the frames that are noted, and the bytes of the common entries. -/
def processEhFrameRelocations (o : FrameObject) : List FrameEntry → List FrameRelocation → List ExceptionFrame × Nat
  | [], _ => ([], 0)
  | entry :: entries, relocations =>
    let rest := processEhFrameRelocations o entries (entry.behind relocations)
    if entry.isCie then (rest.1, entry.size + rest.2)
    else
      match pcBeginSection entry relocations with
      | some index => if o.canLoad index then (⟨index, entry.size⟩ :: rest.1, rest.2) else rest
      | none => rest

/-- What one `.eh_frame` section adds, with the bytes behind its entries. -/
def FrameSection.allocate (o : FrameObject) (sec : FrameSection) : Except FrameError (List ExceptionFrame × Nat) :=
  match frameEntries sec.data 0 with
  | .ok (entries, stop) =>
    let noted := processEhFrameRelocations o entries sec.relocations
    .ok (noted.1, noted.2 + remainingLength sec.data stop)
  | .error error => .error error

/-- Loaded, and not empty. -/
def TargetSection.isLoaded (s : TargetSection) : Bool :=
  match s.slot with
  | .loaded _ => s.size != 0
  | _ => false

/-- The room that an object takes: entries of the table and bytes of `.eh_frame`. -/
structure FrameSizes where
  numFrames : Nat
  ehFrameSize : Nat

/-- `process_section_exception_frames`, for a section that is loaded and not empty. -/
def processSectionExceptionFrames (frames : List ExceptionFrame) (index : Nat) : FrameSizes :=
  let own := frames.filter (·.sectionIndex = index)
  { numFrames := own.length, ehFrameSize := (own.map (·.frameSize)).sum }

/-- The sections that take room for their frames. -/
def FrameObject.loadedSections (o : FrameObject) : List Nat :=
  (List.range o.sections.length).filter fun index => (o.section? index).any (·.isLoaded)

/-- The room of an object with these frames and this many bytes besides. -/
def FrameObject.sizes (o : FrameObject) (frames : List ExceptionFrame) (bytes : Nat) : FrameSizes where
  numFrames := (o.loadedSections.map fun index => (processSectionExceptionFrames frames index).numFrames).sum
  ehFrameSize := (o.loadedSections.map fun index => (processSectionExceptionFrames frames index).ehFrameSize).sum + bytes

def FrameObject.allocate (o : FrameObject) : Except FrameError FrameSizes := do
  let noted ← o.frameSections.mapM (·.allocate o)
  return o.sizes (noted.flatMap (·.1)) (noted.map (·.2)).sum

/-! ## The writer -/

/-- `EhFrameHdrEntry`. -/
structure EhFrameHdrEntry where
  framePtr : Int
  frameInfoPtr : Int
deriving DecidableEq

/-- A frame that was written: where its range starts, and its place in the buffer. -/
structure KeptFrame where
  start : BitVec 64
  position : Nat
deriving DecidableEq

/-- The part of the table writer of a group that frames go through, with what it has written. -/
structure FrameWriter where
  /-- `eh_frame_start_address`. -/
  startAddress : BitVec 64
  /-- The entries that are left of `.eh_frame_hdr`. -/
  hdrLeft : Nat
  /-- The bytes that are left of `.eh_frame`. -/
  ehFrameLeft : Nat
  taken : Nat := 0
  entries : List EhFrameHdrEntry := []
  kept : List KeptFrame := []

/-- `take_eh_frame_data`. -/
def FrameWriter.takeEhFrameData (w : FrameWriter) (size : Nat) : Except FrameError FrameWriter :=
  if w.ehFrameLeft < size then .error .insufficientAllocation
  else .ok { w with ehFrameLeft := w.ehFrameLeft - size, taken := w.taken + size }

/-- `i32::try_from`. -/
def tryI32 (value : Int) (error : FrameError) : Except FrameError Int :=
  if -2 ^ 31 ≤ value ∧ value < 2 ^ 31 then .ok value else .error error

/-- The entry for a frame that is written at `address`, if there is one left to take. -/
def FrameWriter.putHdrEntry (w : FrameWriter) (hdrAddress start address : BitVec 64) : Except FrameError FrameWriter :=
  if w.hdrLeft = 0 then .ok w
  else do
    let framePtr ← tryI32 (start - hdrAddress).toInt .framePtrOverflow
    let frameInfoPtr ← tryI32 (address - hdrAddress).toInt .frameInfoPtrOverflow
    return { w with hdrLeft := w.hdrLeft - 1, entries := w.entries ++ [⟨framePtr, frameInfoPtr⟩] }

/-- What the writer reads besides the objects. -/
structure FrameContext where
  hdrAddress : BitVec 64
  /-- Whether `apply_relocation` succeeds for a relocation of the entry at an address. -/
  applies : FrameRelocation → BitVec 64 → Bool

/-- Where the range of an FDE starts, if the FDE is kept. -/
def keptStart (o : FrameObject) (entry : FrameEntry) (relocations : List FrameRelocation) :
    Except FrameError (Option (BitVec 64)) :=
  match relocations.head? with
  | some relocation =>
    if relocation.offset < entry.next && entry.isPcBegin relocation then
      match relocation.symbol with
      | none => .error .absolutePcBegin
      | some symbol =>
        match symbol.sectionIndex with
        | none => .error .undefinedPcBegin
        | some index => .ok ((o.section? index).bind fun target =>
          if target.size = 0 then none
          else target.slot.resolution.address.map fun sectionAddress =>
            sectionAddress + optInputToOutput target.deltas (symbol.value + relocation.addend))
    else .ok none
  | none => .ok none

/-- The place of the CIE that an FDE refers to. -/
def inputCiePos (entry : FrameEntry) : Except FrameError Nat :=
  if entry.pos + 4 < entry.cieId then .error (.ciePointer entry.cieId (entry.pos + 4)) else .ok (entry.pos + 4 - entry.cieId)

def applyRelocations (c : FrameContext) (address : BitVec 64) (relocations : List FrameRelocation) : Except FrameError Unit :=
  if relocations.all (c.applies · address) then .ok () else .error .relocation

/-- The loop of `write_eh_frame_relocations`: `cies` are the places of the common entries so far, in the input and in the
output; the result is the output position behind the last entry. -/
def writeEntries (c : FrameContext) (o : FrameObject) : List FrameEntry → List FrameRelocation → List (Nat × Nat) → Nat →
    FrameWriter → Except FrameError (Nat × FrameWriter)
  | [], _, _, outputPos, w => .ok (outputPos, w)
  | entry :: entries, relocations, cies, outputPos, w =>
    let address := w.startAddress + BitVec.ofNat 64 outputPos
    if entry.isCie then do
      let w ← w.takeEhFrameData entry.size
      applyRelocations c address (entry.own relocations)
      writeEntries c o entries (entry.behind relocations) ((entry.pos, outputPos) :: cies) (outputPos + entry.size) w
    else do
      match ← keptStart o entry relocations with
      | none => writeEntries c o entries (entry.behind relocations) cies outputPos w
      | some start =>
        let ciePos ← inputCiePos entry
        let kept := { start, position := w.taken }
        let w ← w.putHdrEntry c.hdrAddress start address
        if (cies.lookup ciePos).isNone then .error (.noCie ciePos)
        else do
          let w ← { w with kept := w.kept ++ [kept] }.takeEhFrameData entry.size
          applyRelocations c address (entry.own relocations)
          writeEntries c o entries (entry.behind relocations) cies (outputPos + entry.size) w

/-- `write_eh_frame_data`. -/
def writeEhFrameData (c : FrameContext) (o : FrameObject) (w : FrameWriter) (sec : FrameSection) :
    Except FrameError FrameWriter := do
  let (entries, stop) ← frameEntries sec.data 0
  let (outputPos, w) ← writeEntries c o entries sec.relocations [] 0 w
  let remaining := remainingLength sec.data stop
  let w ← if remaining = 0 then .ok w else w.takeEhFrameData remaining
  return { w with startAddress := w.startAddress + BitVec.ofNat 64 (outputPos + remaining) }

/-! ## A link -/

/-- A group of objects; the last one has the epilogue, which ends `.eh_frame`. -/
structure FrameGroup where
  objects : List FrameObject
  terminates : Bool := false

def FrameGroup.sizes (g : FrameGroup) : Except FrameError FrameSizes := do
  let sizes ← g.objects.mapM (·.allocate)
  return { numFrames := (sizes.map (·.numFrames)).sum,
           ehFrameSize := (sizes.map (·.ehFrameSize)).sum + if g.terminates then 4 else 0 }

/-- The writing of a group into its buffers, and `validate_empty`. -/
def writeGroup (c : FrameContext) (g : FrameGroup) (startAddress : BitVec 64) (sizes : FrameSizes) :
    Except FrameError FrameWriter := do
  let w := { startAddress, hdrLeft := sizes.numFrames, ehFrameLeft := sizes.ehFrameSize }
  let w ← g.objects.foldlM (fun w o => o.frameSections.foldlM (writeEhFrameData c o) w) w
  -- `write_eh_frame_terminator` does without, if there is no room
  let w := if g.terminates && decide (4 ≤ w.ehFrameLeft) then { w with ehFrameLeft := w.ehFrameLeft - 4 } else w
  if w.ehFrameLeft = 0 ∧ w.hdrLeft = 0 then .ok w else .error .excessiveAllocation

/-- `EhFrameHdr`, without its constant fields. -/
structure EhFrameHdr where
  framePointer : Int
  entryCount : Nat
deriving DecidableEq

structure FrameLink where
  hdrAddress : BitVec 64
  ehFrameAddress : BitVec 64
  groups : List FrameGroup
  applies : FrameRelocation → BitVec 64 → Bool

def FrameLink.context (link : FrameLink) : FrameContext := { hdrAddress := link.hdrAddress, applies := link.applies }

/-- `eh_frame_ptr`. -/
def ehFramePtr (link : FrameLink) : Except FrameError Int :=
  let distance := link.ehFrameAddress - (link.hdrAddress + 4)
  if distance.toNat < 2 ^ 31 then .ok distance.toNat else .error .framePointerOverflow

/-- `eh_frame_hdr_entry_count`, from the size of `.eh_frame_hdr`. -/
def ehFrameHdrEntryCount (hdrSize : Nat) : Except FrameError Nat :=
  if (hdrSize - 12) / 8 < 2 ^ 32 then .ok ((hdrSize - 12) / 8) else .error .entryCountOverflow

/-- `write_eh_frame_hdr`. -/
def writeEhFrameHdr (link : FrameLink) (hdrSize : Nat) : Except FrameError EhFrameHdr := do
  let framePointer ← ehFramePtr link
  let entryCount ← ehFrameHdrEntryCount hdrSize
  return { framePointer, entryCount }

/-- The groups with their buffers, one behind the other: the start of a group is the end of the one before. -/
def writeGroups (c : FrameContext) : List (FrameGroup × FrameSizes) → BitVec 64 → Except FrameError (List FrameWriter)
  | [], _ => .ok []
  | (g, sizes) :: groups, startAddress => do
    let w ← writeGroup c g startAddress sizes
    return w :: (← writeGroups c groups (startAddress + BitVec.ofNat 64 sizes.ehFrameSize))

/-- The frames of the groups, with their places in `.eh_frame`. -/
def keptInSection : List (FrameSizes × FrameWriter) → Nat → List KeptFrame
  | [], _ => []
  | (sizes, w) :: groups, base =>
    w.kept.map (fun kept => { kept with position := base + kept.position }) ++ keptInSection groups (base + sizes.ehFrameSize)

/-- What is written: the header, the sorted table, and where the frames are. -/
structure WrittenFrames where
  header : EhFrameHdr
  table : List EhFrameHdrEntry
  kept : List KeptFrame

/-- The frames of a link that has `.eh_frame_hdr`; the table is sorted once all groups are written
(`sort_eh_frame_hdr_entries`). -/
def writeFrames (link : FrameLink) : Except FrameError WrittenFrames := do
  let sizes ← link.groups.mapM (·.sizes)
  let header ← writeEhFrameHdr link (12 + 8 * (sizes.map (·.numFrames)).sum)
  let writers ← writeGroups link.context (link.groups.zip sizes) link.ehFrameAddress
  return { header, table := SortedTable.sort (·.framePtr) (writers.flatMap (·.entries)),
           kept := keptInSection (sizes.zip writers) 0 }

end Reld.EhFrame

/-!
# The room that layout makes for frames

The entries that a link keeps come out one behind the other (`FrameOut`): each takes its bytes, and a frame takes an entry
of the table as well. Layout decides by the section of the last relocation of `pc_begin` and the writer by that of the
first; in a well-formed section these are the same, and layout makes room for exactly what is written
(`FrameObject.allocate_eq`).
-/

namespace Reld.EhFrame

open SymbolAddresses

/-! ## What is written -/

/-- Bytes that are written to `.eh_frame`, and where the range starts if they are a frame. -/
structure FrameOut where
  size : Nat
  start : Option (BitVec 64) := none

/-- The entries of a section that are kept. -/
def frameOutputs (o : FrameObject) : List FrameEntry → List FrameRelocation → List FrameOut
  | [], _ => []
  | entry :: entries, relocations =>
    let rest := frameOutputs o entries (entry.behind relocations)
    if entry.isCie then { size := entry.size } :: rest
    else
      match keptStart o entry relocations with
      | .ok (some start) => { size := entry.size, start := some start } :: rest
      | _ => rest

def FrameSection.outputs (o : FrameObject) (sec : FrameSection) : List FrameOut :=
  match frameEntries sec.data 0 with
  | .ok (entries, stop) => frameOutputs o entries sec.relocations ++ [{ size := remainingLength sec.data stop }]
  | .error _ => []

def FrameObject.outputs (o : FrameObject) : List FrameOut := o.frameSections.flatMap (·.outputs o)

def FrameGroup.outputs (g : FrameGroup) : List FrameOut :=
  g.objects.flatMap (·.outputs) ++ if g.terminates then [{ size := 4 }] else []

def total (outs : List FrameOut) : Nat := (outs.map (·.size)).sum

def frameCount (outs : List FrameOut) : Nat := (outs.filter (·.start.isSome)).length

/-- The frames with their places. -/
def placed : Nat → List FrameOut → List KeptFrame
  | _, [] => []
  | base, out :: outs =>
    (out.start.map fun start => { start, position := base }).toList ++ placed (base + out.size) outs

@[simp] theorem total_nil : total [] = 0 := rfl

@[simp] theorem total_cons (out : FrameOut) (outs : List FrameOut) : total (out :: outs) = out.size + total outs := rfl

@[simp] theorem total_append (outs outs' : List FrameOut) : total (outs ++ outs') = total outs + total outs' := by
  unfold total
  rw [List.map_append, List.sum_append]

@[simp] theorem frameCount_append (outs outs' : List FrameOut) :
    frameCount (outs ++ outs') = frameCount outs + frameCount outs' := by
  unfold frameCount
  rw [List.filter_append, List.length_append]

theorem placed_append (base : Nat) (outs outs' : List FrameOut) :
    placed base (outs ++ outs') = placed base outs ++ placed (base + total outs) outs' := by
  induction outs generalizing base with
  | nil => rfl
  | cons out outs ih => rw [List.cons_append, placed, placed, ih, List.append_assoc, total_cons, Nat.add_assoc]

theorem length_placed (base : Nat) (outs : List FrameOut) : (placed base outs).length = frameCount outs := by
  induction outs generalizing base with
  | nil => rfl
  | cons out outs ih =>
    rw [placed, List.length_append, ih, frameCount, frameCount, List.filter_cons]
    cases out.start with
    | none => exact Nat.zero_add _
    | some start => exact Nat.add_comm _ _

/-- Places that are counted from further in front. -/
theorem placed_add (front base : Nat) (outs : List FrameOut) :
    placed (front + base) outs = (placed base outs).map fun kept => { kept with position := front + kept.position } := by
  induction outs generalizing base with
  | nil => rfl
  | cons out outs ih =>
    rw [placed, placed, List.map_append, ← ih, Nat.add_assoc]
    cases out.start <;> rfl

/-! ## Well-formed input -/

/-- A section that frames describe is loaded as code is, or has no address. -/
def TargetSection.Sound (target : TargetSection) : Prop :=
  match target.slot with
  | .unloaded => True
  | .loaded resolution => resolution.address.isSome
  | .other resolution => resolution.address = none

/-- An FDE refers to a CIE in front of it, and has no relocations (its section is gone), or one of `pc_begin` before the
others, against a symbol that is defined in the object. -/
structure WellFormedFde (o : FrameObject) (entry : FrameEntry) (own : List FrameRelocation) (cies : List Nat) : Prop where
  cieId : entry.cieId ≤ entry.pos + 4
  cie : entry.pos + 4 - entry.cieId ∈ cies
  begin_ : own = [] ∨ ∃ first rest symbol index, own = first :: rest ∧ entry.isPcBegin first = true ∧
    first.symbol = some symbol ∧ symbol.sectionIndex = some index ∧ (∀ r ∈ rest, entry.isPcBegin r = false) ∧
    ∀ target, o.section? index = some target → target.Sound

/-- The entries behind common entries at the given places. -/
def WellFormedEntries (o : FrameObject) : List FrameEntry → List FrameRelocation → List Nat → Prop
  | [], _, _ => True
  | entry :: entries, relocations, cies =>
    if entry.isCie then WellFormedEntries o entries (entry.behind relocations) (entry.pos :: cies)
    else WellFormedFde o entry (entry.own relocations) cies ∧
      WellFormedEntries o entries (entry.behind relocations) cies

def FrameSection.WellFormed (o : FrameObject) (sec : FrameSection) : Prop :=
  ∃ entries stop, frameEntries sec.data 0 = .ok (entries, stop) ∧ WellFormedEntries o entries sec.relocations []

variable {o : FrameObject} {entry : FrameEntry} {relocations : List FrameRelocation} {cies : List Nat}

/-- Whether a section takes room for its frames. -/
def FrameObject.isLoaded (o : FrameObject) (index : Nat) : Bool := (o.section? index).any (·.isLoaded)

theorem FrameObject.canLoad_of_isLoaded {index : Nat} (h : o.isLoaded index = true) : o.canLoad index = true := by
  unfold canLoad
  obtain ⟨target, htarget, hloaded⟩ := (Option.any_eq_true _ _).1 h
  rw [htarget]
  show target.slot.canLoad = true
  unfold TargetSection.isLoaded at hloaded
  split at hloaded
  · rename_i hslot
    rw [hslot]
    rfl
  · cases hloaded

theorem pcBeginSection_nil (hown : entry.own relocations = []) : pcBeginSection entry relocations = none := by
  unfold pcBeginSection
  rw [hown]
  rfl

theorem keptStart_nil (hown : entry.own relocations = []) : keptStart o entry relocations = .ok none := by
  unfold keptStart
  cases relocations with
  | nil => rfl
  | cons r relocations =>
    have hr : ¬ r.offset < entry.next := by
      intro hr
      rw [FrameEntry.own, List.takeWhile_cons, if_pos (decide_eq_true hr)] at hown
      cases hown
    simp [hr]

variable {first : FrameRelocation} {rest : List FrameRelocation} {symbol : FrameSymbol} {index : Nat}

theorem pcBeginSection_cons (hown : entry.own relocations = first :: rest) (hbegin : entry.isPcBegin first = true)
    (hsymbol : first.symbol = some symbol) (hindex : symbol.sectionIndex = some index)
    (hrest : ∀ r ∈ rest, entry.isPcBegin r = false) : pcBeginSection entry relocations = some index := by
  have hfilter : (rest.filter fun r => entry.isPcBegin r && r.symbol.isSome) = [] := by
    apply List.filter_eq_nil_iff.2
    intro r hr
    rw [hrest r hr, Bool.false_and]
    exact Bool.false_ne_true
  unfold pcBeginSection
  rw [hown, List.filter_cons, hbegin, hsymbol, hfilter]
  simp [hsymbol, hindex]

/-- Where the range of a frame of this section starts, if the section has an address. -/
def targetStart (target : TargetSection) (offset : BitVec 64) : Option (BitVec 64) :=
  if target.size = 0 then none
  else target.slot.resolution.address.map fun sectionAddress => sectionAddress + optInputToOutput target.deltas offset

theorem keptStart_cons (hown : entry.own relocations = first :: rest) (hbegin : entry.isPcBegin first = true)
    (hsymbol : first.symbol = some symbol) (hindex : symbol.sectionIndex = some index) :
    keptStart o entry relocations = .ok ((o.section? index).bind (targetStart · (symbol.value + first.addend))) := by
  unfold keptStart
  cases relocations with
  | nil => cases hown
  | cons r relocations =>
    rw [FrameEntry.own, List.takeWhile_cons] at hown
    split at hown
    · rename_i hr
      obtain ⟨rfl, -⟩ := List.cons.inj hown
      simp only [List.head?_cons, hr, hbegin, Bool.and_self, if_true, hsymbol, hindex]
      rfl
    · cases hown

theorem TargetSection.Sound.start_iff {target : TargetSection} (h : target.Sound) (offset : BitVec 64) :
    (targetStart target offset).isSome = target.isLoaded := by
  unfold Sound at h
  unfold targetStart isLoaded
  cases hslot : target.slot with
  | unloaded =>
    split <;> rfl
  | loaded resolution =>
    rw [hslot] at h
    dsimp only [TargetSlot.resolution] at h ⊢
    by_cases hsize : target.size = 0
    · rw [if_pos hsize, hsize]
      rfl
    · rw [if_neg hsize, Option.isSome_map, h]
      exact (bne_iff_ne.2 hsize).symm
  | other resolution =>
    rw [hslot] at h
    dsimp only [TargetSlot.resolution] at h ⊢
    rw [h]
    split <;> rfl

/-- Layout makes room for an FDE exactly when the writer keeps it. -/
theorem WellFormedFde.kept_iff (h : WellFormedFde o entry (entry.own relocations) cies) :
    (∃ index start, pcBeginSection entry relocations = some index ∧ o.isLoaded index = true ∧
        keptStart o entry relocations = .ok (some start)) ∨
      (keptStart o entry relocations = .ok none ∧
        ∀ index, pcBeginSection entry relocations = some index → o.isLoaded index = false) := by
  rcases h.begin_ with hnone | ⟨first, rest, symbol, index, hown, hbegin, hsymbol, hindex, hrest, hsound⟩
  · right
    refine ⟨keptStart_nil hnone, fun index hindex => ?_⟩
    rw [pcBeginSection_nil hnone] at hindex
    cases hindex
  · have hsection := pcBeginSection_cons hown hbegin hsymbol hindex hrest
    have hkept := keptStart_cons (o := o) hown hbegin hsymbol hindex
    cases htarget : o.section? index with
    | none =>
      right
      rw [hkept, htarget]
      refine ⟨rfl, fun index' hindex' => ?_⟩
      rw [hsection] at hindex'
      obtain rfl := Option.some.inj hindex'
      rw [FrameObject.isLoaded, htarget]
      rfl
    | some target =>
      have hstart := (hsound target htarget).start_iff (symbol.value + first.addend)
      rw [htarget, Option.bind_some] at hkept
      cases htargetStart : targetStart target (symbol.value + first.addend) with
      | some start =>
        left
        rw [htargetStart] at hkept hstart
        refine ⟨index, start, hsection, ?_, hkept⟩
        rw [FrameObject.isLoaded, htarget]
        exact hstart.symm
      | none =>
        right
        rw [htargetStart] at hkept hstart
        refine ⟨hkept, fun index' hindex' => ?_⟩
        rw [hsection] at hindex'
        obtain rfl := Option.some.inj hindex'
        rw [FrameObject.isLoaded, htarget]
        exact hstart.symm

/-! ## Layout makes room for what is written -/

/-- The frames that a loaded section describes. -/
def loadedFrames (o : FrameObject) (frames : List ExceptionFrame) : List ExceptionFrame :=
  frames.filter fun frame => o.isLoaded frame.sectionIndex

theorem allocated_eq {entries : List FrameEntry} (h : WellFormedEntries o entries relocations cies) :
    (loadedFrames o (processEhFrameRelocations o entries relocations).1).length =
        frameCount (frameOutputs o entries relocations) ∧
      ((loadedFrames o (processEhFrameRelocations o entries relocations).1).map (·.frameSize)).sum +
          (processEhFrameRelocations o entries relocations).2 = total (frameOutputs o entries relocations) := by
  induction entries generalizing relocations cies with
  | nil => exact ⟨rfl, rfl⟩
  | cons entry entries ih =>
    unfold WellFormedEntries at h
    unfold processEhFrameRelocations frameOutputs
    by_cases hcie : entry.isCie = true
    · rw [if_pos hcie] at h ⊢
      rw [if_pos hcie]
      obtain ⟨hcount, hsize⟩ := ih h
      refine ⟨hcount, ?_⟩
      rw [total_cons, ← hsize]
      exact Nat.add_left_comm _ _ _
    · rw [if_neg hcie] at h ⊢
      rw [if_neg hcie]
      obtain ⟨hcount, hsize⟩ := ih h.2
      rcases h.1.kept_iff with ⟨index, start, hindex, hloaded, hkept⟩ | ⟨hkept, hunloaded⟩
      · rw [hindex, hkept]
        dsimp only
        rw [if_pos (FrameObject.canLoad_of_isLoaded hloaded)]
        have hframes : ∀ frames, loadedFrames o (⟨index, entry.size⟩ :: frames) =
            ⟨index, entry.size⟩ :: loadedFrames o frames := fun frames => List.filter_cons_of_pos hloaded
        rw [hframes, List.length_cons, hcount, List.map_cons, List.sum_cons, total_cons, ← hsize]
        exact ⟨rfl, Nat.add_assoc _ _ _⟩
      · rw [hkept]
        split
        · rename_i index hindex
          split
          · have hframes : ∀ frames, loadedFrames o (⟨index, entry.size⟩ :: frames) = loadedFrames o frames :=
              fun frames => List.filter_cons_of_neg (by rw [hunloaded index hindex]; exact Bool.false_ne_true)
            rw [hframes]
            exact ⟨hcount, hsize⟩
          · exact ⟨hcount, hsize⟩
        · exact ⟨hcount, hsize⟩

theorem sum_indicator (index weight : Nat) {sections : List Nat} (hnodup : sections.Nodup) :
    (sections.map fun i => if index = i then weight else 0).sum = if index ∈ sections then weight else 0 := by
  induction sections with
  | nil => rfl
  | cons i sections ih =>
    rw [List.nodup_cons] at hnodup
    rw [List.map_cons, List.sum_cons, ih hnodup.2]
    by_cases hi : index = i
    · subst hi
      rw [if_pos rfl, if_neg hnodup.1, if_pos List.mem_cons_self, Nat.add_zero]
    · rw [if_neg hi, Nat.zero_add]
      simp [hi]

/-- A sum over the frames of each section, for sections that are listed once. -/
theorem sum_by_section (weight : ExceptionFrame → Nat) (frames : List ExceptionFrame) {sections : List Nat}
    (hnodup : sections.Nodup) :
    (sections.map fun index => ((frames.filter (·.sectionIndex = index)).map weight).sum).sum =
      ((frames.filter (·.sectionIndex ∈ sections)).map weight).sum := by
  induction frames with
  | nil => simp
  | cons frame frames ih =>
    have hstep : ∀ p : ExceptionFrame → Bool, (((frame :: frames).filter p).map weight).sum =
        (if p frame then weight frame else 0) + ((frames.filter p).map weight).sum := by
      intro p
      rw [List.filter_cons]
      split
      · rw [List.map_cons, List.sum_cons]
      · exact (Nat.zero_add _).symm
    simp only [hstep, decide_eq_true_eq, List.sum_map_add, ih]
    rw [sum_indicator _ _ hnodup]

theorem FrameObject.mem_loadedSections {o : FrameObject} {index : Nat} :
    index ∈ o.loadedSections ↔ o.isLoaded index = true := by
  unfold loadedSections
  rw [List.mem_filter, List.mem_range]
  refine ⟨fun h => h.2, fun h => ⟨?_, h⟩⟩
  obtain ⟨target, htarget, -⟩ := (Option.any_eq_true _ _).1 h
  obtain ⟨hlt, -⟩ := List.getElem?_eq_some_iff.1 htarget
  exact hlt

/-- The room of an object is that of its loaded frames. -/
theorem FrameObject.sizes_eq (o : FrameObject) (frames : List ExceptionFrame) (bytes : Nat) :
    o.sizes frames bytes = { numFrames := (loadedFrames o frames).length,
                             ehFrameSize := ((loadedFrames o frames).map (·.frameSize)).sum + bytes } := by
  have hnodup : o.loadedSections.Nodup := List.nodup_range.filter _
  have hfilter : (frames.filter fun frame => decide (frame.sectionIndex ∈ o.loadedSections)) = loadedFrames o frames :=
    List.filter_congr fun frame _ => by rw [Bool.eq_iff_iff, decide_eq_true_eq, mem_loadedSections]
  have hcount := sum_by_section (fun _ => 1) frames hnodup
  have hsize := sum_by_section (·.frameSize) frames hnodup
  rw [hfilter] at hcount hsize
  have hlength : ∀ own : List ExceptionFrame, (own.map fun _ => 1).sum = own.length := fun own => by simp
  simp only [hlength] at hcount
  unfold sizes processSectionExceptionFrames
  simp only [hcount, hsize]

theorem FrameSection.allocate_eq {sec : FrameSection} (h : sec.WellFormed o) :
    ∃ noted, sec.allocate o = .ok noted ∧ (loadedFrames o noted.1).length = frameCount (sec.outputs o) ∧
      ((loadedFrames o noted.1).map (·.frameSize)).sum + noted.2 = total (sec.outputs o) := by
  obtain ⟨entries, stop, hentries, hwell⟩ := h
  obtain ⟨hcount, hsize⟩ := allocated_eq hwell
  unfold allocate outputs
  rw [hentries]
  refine ⟨_, rfl, ?_, ?_⟩
  · rw [frameCount_append, ← hcount]
    rfl
  · rw [total_append, ← hsize]
    exact (Nat.add_assoc _ _ _).symm

/-- **The room that layout makes for an object is what is written of it.** -/
theorem FrameObject.allocate_eq (h : ∀ sec ∈ o.frameSections, sec.WellFormed o) :
    o.allocate = .ok { numFrames := frameCount o.outputs, ehFrameSize := total o.outputs } := by
  have hnoted : ∀ secs : List FrameSection, (∀ sec ∈ secs, sec.WellFormed o) →
      ∃ noted, secs.mapM (·.allocate o) = .ok noted ∧
        (loadedFrames o (noted.flatMap (·.1))).length = frameCount (secs.flatMap (·.outputs o)) ∧
        ((loadedFrames o (noted.flatMap (·.1))).map (·.frameSize)).sum + (noted.map (·.2)).sum =
          total (secs.flatMap (·.outputs o)) := by
    intro secs hsecs
    induction secs with
    | nil => exact ⟨[], rfl, rfl, rfl⟩
    | cons sec secs ih =>
      rw [List.forall_mem_cons] at hsecs
      obtain ⟨noted, hnoted, hcount, hsize⟩ := ih hsecs.2
      obtain ⟨first, hfirst, hfirstCount, hfirstSize⟩ := FrameSection.allocate_eq hsecs.1
      refine ⟨first :: noted, ?_, ?_, ?_⟩
      · rw [List.mapM_cons, hfirst, hnoted]
        rfl
      · rw [List.flatMap_cons, List.flatMap_cons, frameCount_append, ← hcount, ← hfirstCount, loadedFrames,
          List.filter_append, List.length_append]
        rfl
      · rw [List.flatMap_cons, List.flatMap_cons, total_append, ← hsize, ← hfirstSize, loadedFrames, List.filter_append,
          List.map_append, List.sum_append, List.map_cons, List.sum_cons]
        exact Nat.add_add_add_comm _ _ _ _
  obtain ⟨noted, hmap, hcount, hsize⟩ := hnoted o.frameSections h
  unfold allocate
  rw [hmap]
  show Except.ok (o.sizes _ _) = _
  rw [o.sizes_eq, hcount, hsize]
  rfl

theorem FrameGroup.sizes_eq {g : FrameGroup} (h : ∀ o ∈ g.objects, ∀ sec ∈ o.frameSections, sec.WellFormed o) :
    g.sizes = .ok { numFrames := frameCount g.outputs, ehFrameSize := total g.outputs } := by
  have hmap : ∀ objects : List FrameObject, (∀ o ∈ objects, ∀ sec ∈ o.frameSections, sec.WellFormed o) →
      ∃ sizes, objects.mapM (·.allocate) = .ok sizes ∧ (sizes.map (·.numFrames)).sum = frameCount (objects.flatMap (·.outputs)) ∧
        (sizes.map (·.ehFrameSize)).sum = total (objects.flatMap (·.outputs)) := by
    intro objects hobjects
    induction objects with
    | nil => exact ⟨[], rfl, rfl, rfl⟩
    | cons o objects ih =>
      rw [List.forall_mem_cons] at hobjects
      obtain ⟨sizes, hsizes, hcount, hsize⟩ := ih hobjects.2
      refine ⟨{ numFrames := frameCount o.outputs, ehFrameSize := total o.outputs } :: sizes, ?_, ?_, ?_⟩
      · rw [List.mapM_cons, FrameObject.allocate_eq hobjects.1, hsizes]
        rfl
      · rw [List.map_cons, List.sum_cons, hcount, List.flatMap_cons, frameCount_append]
      · rw [List.map_cons, List.sum_cons, hsize, List.flatMap_cons, total_append]
  obtain ⟨sizes, hsizes, hcount, hsize⟩ := hmap g.objects h
  unfold FrameGroup.sizes FrameGroup.outputs
  rw [hsizes]
  show Except.ok (FrameSizes.mk _ _) = _
  rw [hcount, hsize, frameCount_append, total_append]
  cases g.terminates <;> rfl

end Reld.EhFrame
