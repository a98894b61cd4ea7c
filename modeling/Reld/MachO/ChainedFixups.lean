import Mathlib.Data.List.Sort
import Mathlib.Data.Option.NAry
import Reld.Lib.Multiples
import Reld.Lib.Records
import Reld.Input.File

/-!
# `MachO.ChainedFixups` — the imports of a Mach-O file

Each imported symbol has a slot in `__got`. The slots are linked into a chain, and a table beside them says where the
chain starts and what the symbols are. The loader goes along the chain to bind the slots.
-/

namespace Reld.MachO

/-! ## Slots -/

/-- What is read of an imported symbol: its name, and the library that defines it. -/
structure ImportedSymbol where
  name : Bytes
  fileId : FileId
deriving DecidableEq

/-- `ImportedSymbolWithResolution` -/
structure ImportedSymbolWithResolution where
  symbol : ImportedSymbol
  gotAddress : Nat
deriving DecidableEq

/-- `GOT_ENTRY_SIZE` -/
def gotEntrySize : Nat := 8

/-- `allocate_got`, for one symbol after the other. -/
def allocateGot (memOffset : Nat) : List ImportedSymbol → List ImportedSymbolWithResolution
  | [] => []
  | symbol :: symbols => ⟨symbol, memOffset⟩ :: allocateGot (memOffset + gotEntrySize) symbols

/-- `create_layout_ext`: the imported symbols sorted by their slots. -/
def createLayoutExt (importedSymbols : List ImportedSymbolWithResolution) : List ImportedSymbolWithResolution :=
  importedSymbols.mergeSort fun a b => a.gotAddress ≤ b.gotAddress

/-! ## Segments -/

inductive SegmentType where
  | text
  | loadCommands
  | textSections
  | dataSections
  | dataConstSections
  | linkeditSections
deriving DecidableEq, Repr

structure ProgramSegmentDef where
  segmentType : SegmentType
  countAsSegment : Bool
deriving DecidableEq, Repr

/-- `PROGRAM_SEGMENT_DEFS` -/
def programSegmentDefs : List ProgramSegmentDef :=
  [⟨.text, true⟩, ⟨.loadCommands, false⟩, ⟨.textSections, false⟩, ⟨.dataSections, true⟩, ⟨.dataConstSections, true⟩,
    ⟨.linkeditSections, true⟩]

/-- What the writer reads of the layout. `__got` is all of `__DATA_CONST`. -/
structure Layout where
  keepData : Bool
  importedLibraries : List FileId
  importedSymbols : List ImportedSymbolWithResolution
  gotMemOffset : Nat
  segmentFileOffset : BitVec 64

variable (layout : Layout)

/-- Whether `get_segment_sections` finds a segment: only those that hold something are kept. -/
def Layout.isKept : SegmentType → Bool
  | .dataSections => layout.keepData
  | .dataConstSections => !layout.importedSymbols.isEmpty
  | _ => true

/-- `active_segments` -/
def Layout.activeSegments : List SegmentType :=
  (programSegmentDefs.filter fun segment => segment.countAsSegment && layout.isKept segment.segmentType).map
    (·.segmentType)

/-! ## The table -/

/-- `MACHO_PAGE_ALIGNMENT` -/
def machoPageAlignment : Nat := 2 ^ 14

/-- `MAX_SEGMENT_COUNT` -/
def maxSegmentCount : Nat := 6

/-- The sizes of `ChainedFixupsHeader`, and of `DyldChainedStartsInSegment`. -/
def headerSize : Nat := 28

def startsInSegmentSize : Nat := 22

/-- `CHAINED_FIXUP_TABLE_BASE_SIZE` -/
def chainedFixupTableBaseSize : Nat := headerSize + 4 * (maxSegmentCount + 1) + startsInSegmentSize

/-- `finalise_sizes_epilogue`: the size of the table. -/
def finaliseSizesEpilogue (symbols : List ImportedSymbolWithResolution) : Nat :=
  nextMultipleOf
    (chainedFixupTableBaseSize + (symbols.map fun s => 4 + s.symbol.name.length + 1).sum +
      2 * ((symbols.length + machoPageAlignment - 1) / machoPageAlignment)) 8

/-- `create_dynamic_layout_ext`: the ordinal of a library is its place among the load commands, in a byte that is not
zero; `none` is the error. -/
def Layout.ordinal (fileId : FileId) : Option Nat :=
  (layout.importedLibraries.findIdx? (· == fileId)).bind fun index =>
    if index + 1 < 256 then some (index + 1) else none

/-- The strings, each with its null character. -/
def stringPool (symbols : List ImportedSymbolWithResolution) : Bytes := symbols.flatMap fun s => s.symbol.name ++ [0]

/-- `symbol_offsets` -/
def symbolOffsets (strOffset : Nat) : List ImportedSymbolWithResolution → List Nat
  | [] => []
  | s :: symbols => strOffset :: symbolOffsets (strOffset + s.symbol.name.length + 1) symbols

/-- A `dyld_chained_import` of 32 bits. -/
def chainedImport (libOrdinal symbolOffset : Nat) : Nat := libOrdinal ||| (symbolOffset % 2 ^ 32) <<< 9

/-- The numbers at the front of the table, for a number of segments. -/
def tableHeader (segmentCount importsCount : Nat) : List Records.Field :=
  let importsOffset := headerSize + 4 * (segmentCount + 1) + (startsInSegmentSize + 2)
  [(4, 0), (4, headerSize), (4, importsOffset), (4, importsOffset + 4 * importsCount), (4, importsCount), (4, 1), (4, 0)]

/-- `starts_in_image` -/
def startsInImage (segmentCount : Nat) (dataConstIndex : Option Nat) : List Records.Field :=
  let starts := segmentCount :: List.replicate segmentCount 0
  (match dataConstIndex with
  | none       => starts
  | some index => starts.set (index + 2) (4 * (segmentCount + 1))).map fun start => (4, start)

/-- `DyldChainedStartsInSegment`, with its one page start. -/
def startsInSegment (fileOffset : Nat) : List Records.Field :=
  [(4, startsInSegmentSize + 2), (2, machoPageAlignment), (2, 6), (8, fileOffset), (4, 0), (2, 1), (2, 0)]

/-- The rest of the table is zero; `none` if it is too small. -/
def fillTable (size : Nat) (bytes : Bytes) : Option Bytes :=
  if bytes.length ≤ size then some (bytes ++ List.replicate (size - bytes.length) 0) else none

/-- `write_chained_fixup_table`; `none` is an error or a panic. -/
def Layout.writeChainedFixupTable : Option Bytes :=
  let symbols := layout.importedSymbols
  let size := finaliseSizesEpilogue symbols
  -- `__PAGEZERO` has to be added
  let segmentCount := layout.activeSegments.length + 1
  if segmentCount > maxSegmentCount then none
  else
    match layout.activeSegments.findIdx? (· == .dataConstSections) with
    | none =>
      fillTable size (Records.encode (tableHeader segmentCount symbols.length ++ startsInImage segmentCount none))
    | some index =>
      if symbols.length < machoPageAlignment / 4 then
        (symbols.mapM fun s => layout.ordinal s.symbol.fileId).bind fun ordinals =>
          fillTable size
            (Records.encode (tableHeader segmentCount symbols.length ++ startsInImage segmentCount (some index) ++
                startsInSegment layout.segmentFileOffset.toNat ++
                (List.zipWith chainedImport ordinals (symbolOffsets 0 symbols)).map fun value => (4, value)) ++
              stringPool symbols)
      else none

/-! ## The chain -/

/-- A slot: that it is to be bound, the distance to the next one, and the import. -/
def gotEntry (count i : Nat) : Nat := (1 <<< 63) ||| ((if i = count - 1 then 0 else 2) <<< 51) ||| i

/-- The slots of the symbols from the `i`-th on are written. -/
def writeSlots (memOffset count : Nat) : Nat → List ImportedSymbolWithResolution → Bytes → Option Bytes
  | _, [], got => some got
  | i, s :: symbols, got =>
    if memOffset ≤ s.gotAddress ∧ s.gotAddress - memOffset + gotEntrySize ≤ got.length then
      writeSlots memOffset count (i + 1) symbols
        (LittleEndian.overwrite got (s.gotAddress - memOffset) (LittleEndian.leBytes gotEntrySize (gotEntry count i)))
    else none

/-- `write_got_entries` -/
def Layout.writeGotEntries (got : Bytes) : Option Bytes :=
  writeSlots layout.gotMemOffset layout.importedSymbols.length 0 layout.importedSymbols got

/-- What is written: the table, and `__got`, which had `got` in it. -/
def Layout.write (got : Bytes) : Option (Bytes × Bytes) :=
  Option.map₂ Prod.mk layout.writeChainedFixupTable (layout.writeGotEntries got)

end Reld.MachO

/-!
# How the loader follows chains

The table is read by its offsets. It says for each page of a segment where the chain starts that links the fixups in
that page; a chain does not leave its page.
-/

namespace Reld.MachO

open Records

/-- `MACHO_START_MEM_ADDRESS`: where the header of the file is. -/
def machoStartMemAddress : Nat := 0x100000000

/-- A file as the loader sees it: the table, and the bytes of the segment with the chain. -/
structure LoadedImage where
  table : Bytes
  got : Bytes
  gotAddress : Nat

/-- What is put at a place: an import with its library, or an address in the file itself. -/
inductive FixupTarget where
  | bind (libOrdinal : Int) (weakImport : Bool) (name : Bytes) (addend : Nat)
  | rebase (target : Nat)
deriving DecidableEq, Repr

structure Fixup where
  address : Nat
  target : FixupTarget
deriving DecidableEq, Repr

namespace LoadedImage

variable (image : LoadedImage)

/-- A number of 64 bits at an address of the segment. -/
def read64 (address : Nat) : Option Nat :=
  if image.gotAddress ≤ address then Records.read image.got (address - image.gotAddress) 8 else none

/-- A string up to its null character. -/
def cString (bytes : Bytes) : Option Bytes := (bytes.findIdx? (· == 0)).map fun i => bytes.take i

/-- The ordinals above `0xF0` are negative: they stand for no library of the file. -/
def signedOrdinal (libOrdinal : Nat) : Int := if libOrdinal > 0xF0 then (libOrdinal : Int) - 256 else libOrdinal

/-- The import with a number, in the format of 32 bits: eight for the ordinal, one for weak imports, and the offset
of the name. -/
def importAt (ordinal : Nat) : Option (Int × Bool × Bytes) :=
  (Records.read image.table 8 4).bind fun importsOffset =>
  (Records.read image.table 12 4).bind fun symbolsOffset =>
  (Records.read image.table 16 4).bind fun importsCount =>
  (Records.read image.table 20 4).bind fun importsFormat =>
  if importsFormat = 1 ∧ ordinal < importsCount then
    (Records.read image.table (importsOffset + 4 * ordinal) 4).bind fun raw =>
      (cString (image.table.drop (symbolsOffset + raw / 2 ^ 9))).map fun name =>
        (signedOrdinal (raw % 2 ^ 8), raw.testBit 8, name)
  else none

/-- The fixup for the number at an address. -/
def fixupAt (address value : Nat) : Option Fixup :=
  if value.testBit 63 then
    (image.importAt (value % 2 ^ 24)).map fun found =>
      ⟨address, .bind found.1 found.2.1 found.2.2 (value / 2 ^ 24 % 2 ^ 8)⟩
  else some ⟨address, .rebase (value % 2 ^ 36)⟩

/-- A chain, from an offset in its page on: `next` counts strides of four bytes. -/
def walkChain (pageAddress pageSize offset : Nat) : Option (List Fixup) :=
  if _h : offset + 8 ≤ pageSize then
    (image.read64 (pageAddress + offset)).bind fun value =>
      (image.fixupAt (pageAddress + offset) value).bind fun fixup =>
        if _hnext : value / 2 ^ 51 % 2 ^ 12 = 0 then some [fixup]
        else (walkChain pageAddress pageSize (offset + 4 * (value / 2 ^ 51 % 2 ^ 12))).map (fixup :: ·)
  else none
termination_by pageSize - offset

/-- The chain of a page, if it has one. -/
def pageFixups (segInfo pageSize segmentOffset page : Nat) : Option (List Fixup) :=
  (Records.read image.table (segInfo + 22 + 2 * page) 2).bind fun start =>
    if start = 0xFFFF then some []
    else image.walkChain (machoStartMemAddress + segmentOffset + page * pageSize) pageSize start

def segmentFixups (segInfo : Nat) : Option (List Fixup) :=
  (Records.read image.table (segInfo + 4) 2).bind fun pageSize =>
  (Records.read image.table (segInfo + 6) 2).bind fun pointerFormat =>
  (Records.read image.table (segInfo + 8) 8).bind fun segmentOffset =>
  (Records.read image.table (segInfo + 20) 2).bind fun pageCount =>
  if pointerFormat = 6 then
    ((List.range pageCount).mapM (image.pageFixups segInfo pageSize segmentOffset)).map List.flatten
  else none

/-- What the loader visits, in its order; `none` if the table or a chain is not valid. -/
def fixups : Option (List Fixup) :=
  (Records.read image.table 0 4).bind fun version =>
  (Records.read image.table 4 4).bind fun startsOffset =>
  (Records.read image.table startsOffset 4).bind fun segmentCount =>
  if version = 0 then
    ((List.range segmentCount).mapM fun segment =>
      (Records.read image.table (startsOffset + 4 + 4 * segment) 4).bind fun segInfoOffset =>
        if segInfoOffset = 0 then some [] else image.segmentFixups (startsOffset + segInfoOffset)).map List.flatten
  else none

end LoadedImage

end Reld.MachO
