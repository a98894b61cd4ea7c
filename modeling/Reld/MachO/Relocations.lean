import Reld.Reloc.Thunks
import Reld.MachO.Slots

/-!
# `MachO.Relocations` — the relocations of ARM64 objects

`process_relocation` gathers flags from all references to a symbol, and `create_resolution` makes one value of them: the
stub of the symbol, its slot or its definition. `apply_relocation` then writes that value for each reference, whatever
the reference asked for. A symbol without a resolution stands for the start of its section.
-/

namespace Reld.MachO

/-! ## Types -/

/-- `ARM64_RELOC_…` -/
inductive RelocationType where
  | unsigned
  | subtractor
  | branch26
  | page21
  | pageoff12
  | gotLoadPage21
  | gotLoadPageoff12
  | pointerToGot
  | tlvpLoadPage21
  | tlvpLoadPageoff12
  | addend
  | other
deriving DecidableEq, Repr

/-- `RelocationInfo` -/
structure RelocationInfo where
  rAddress : BitVec 32
  rSymbolnum : BitVec 24
  rPcrel : Bool
  rLength : Fin 4
  rExtern : Bool
  rType : RelocationType
deriving DecidableEq, Repr

/-- The `RelocationKind`s of these types. -/
inductive RelocationKind where
  | absolute
  | absoluteLowPart
  | relative
  | gotRelative
  | got
deriving DecidableEq, Repr

/-- The `AArch64Instruction`s of these types. -/
inductive FieldInstruction where
  | adr
  | jumpCall
  | machOLow12
deriving DecidableEq, Repr

/-- `RelocationSize` -/
inductive RelocationSize where
  | byteSize (bytes : Nat)
  | bitMasking (instruction : FieldInstruction) (start stop : Nat)
deriving DecidableEq, Repr

/-- `RelocationKindInfo` -/
structure RelocationKindInfo where
  kind : RelocationKind
  size : RelocationSize
  mask : Option PageMask
  range : AllowedRange
  alignment : Nat

/-- `relocation_from_raw` -/
def relocationFromRaw (rel : RelocationInfo) : Option RelocationKindInfo :=
  let relSize := RelocationSize.byteSize (2 ^ rel.rLength.val)
  let relKind := if rel.rPcrel then RelocationKind.relative else .absolute
  let pages := some (PageMask.symbolPlusAddendAndPosition pageMask4KB)
  match rel.rType with
  | .unsigned => some ⟨relKind, relSize, none, .noCheck, 1⟩
  | .branch26 => some ⟨relKind, .bitMasking .jumpCall 2 28, none, .fromBitSize 28 .signed, 4⟩
  | .page21 => some ⟨relKind, .bitMasking .adr 12 33, pages, .fromBitSize 33 .signed, 1⟩
  | .pageoff12 => some ⟨.absoluteLowPart, .bitMasking .machOLow12 0 12, none, .noCheck, 1⟩
  | .gotLoadPage21 => some ⟨.gotRelative, .bitMasking .adr 12 33, pages, .fromBitSize 33 .signed, 1⟩
  | .gotLoadPageoff12 => some ⟨.got, .bitMasking .machOLow12 0 12, none, .noCheck, 1⟩
  | _ => none

/-! ## Writing -/

/-- The factor of the offset in a load or a store, as a power of two. -/
def pageOffsetScale (insn : BitVec 32) : Nat :=
  if insn &&& 0x3b000000 = 0x39000000 then
    let scale := (insn >>> 30).toNat
    -- the 128-bit variant
    if scale = 0 ∧ insn &&& 0x04800000 = 0x04800000 then 4 else scale
  else 0

/-- `write_to_value` of `MachOLow12`, the only one that clears its field. -/
def writeMachOLow12 (extracted dest : BitVec 64) : BitVec 64 :=
  let scale := pageOffsetScale (dest.setWidth 32)
  let dest := andFromSlice 4 dest (~~~((0xfff : BitVec 64) <<< 10))
  orFromSlice 4 dest ((lowBytes 4 extracted >>> scale) <<< 10)

/-- `write_to_value` -/
def FieldInstruction.writeToValue (insn : FieldInstruction) (extracted : BitVec 64) (negative : Bool)
    (dest : BitVec 64) : BitVec 64 :=
  match insn with
  | .adr        => AArch64Instruction.adr.writeToValue extracted negative dest
  | .jumpCall   => AArch64Instruction.jumpCall.writeToValue extracted negative dest
  | .machOLow12 => writeMachOLow12 extracted dest

namespace RelocationKindInfo

def verify (info : RelocationKindInfo) (value : BitVec 64) : Bool :=
  decide (value.toNat % info.alignment = 0) && info.range.contains value.toInt

/-- `write_to_buffer` on the bytes at the place, up to eight of them; `none` if the value is refused. -/
def writeToBuffer (info : RelocationKindInfo) (value dest : BitVec 64) : Option (BitVec 64) :=
  if info.verify value then
    match info.size with
    | .byteSize bytes                     =>
      some ((dest &&& ~~~lowBytes bytes (BitVec.allOnes 64)) ||| lowBytes bytes value)
    | .bitMasking instruction start stop =>
      some (instruction.writeToValue (extractBitRange value start stop) value.msb dest)
  else none

/-- The value that `apply_relocation` computes. -/
def value (info : RelocationKindInfo) (rawValue place : BitVec 64) : BitVec 64 :=
  let mask := getPageMask info.mask
  match info.kind with
  | .absolute | .absoluteLowPart | .got => rawValue &&& mask.symbolPlusAddend
  | .relative | .gotRelative => (rawValue &&& mask.symbolPlusAddend) - (place &&& mask.place)

end RelocationKindInfo

/-! ## Symbols and references -/

/-- A symbol of an object, with the `symbol_section` of its own entry. -/
structure ObjectSymbol (n : Nat) where
  id : Fin n
  sectionIndex : Option Nat

/-- A section of an object: its address there, and `section_resolutions`. -/
structure ObjectSection where
  addr : BitVec 64
  address : Option (BitVec 64)

/-- `ObjectLayout` -/
structure ObjectLayout (n : Nat) where
  symbols : List (ObjectSymbol n)
  sections : List ObjectSection

/-- A section that is written: its relocations, each with the bytes that it finds at its place. -/
structure LoadedSection (n : Nat) where
  object : ObjectLayout n
  address : BitVec 64
  relocations : List (RelocationInfo × BitVec 64)

/-- The flags of the symbols, and the symbols that libraries were asked for. -/
structure References (n : Nat) where
  flags : Fin n → ValueFlags
  imported : List (Fin n)

/-- A link of `n` symbols. The definition of a symbol is its own definition. -/
structure LinkedObjects (n : Nat) where
  sections : List (LoadedSection n)
  definition : Fin n → Fin n
  definition_idem : ∀ s, definition (definition s) = definition s
  /-- `is_dynamic_library` of the file of the symbol. -/
  isDynamicLibrary : Fin n → Bool
  /-- What has been referenced otherwise, by the entry point for example. -/
  initial : References n
  initial_imported : ∀ s, s ∈ initial.imported ↔ isDynamicLibrary s = true ∧ (initial.flags s).hasResolution = true
  /-- The address of the definition. -/
  rawValue : Fin n → Nat
  /-- The starts of `__got` and `__stubs`. -/
  start : SlotMap

variable {n : Nat}

/-- `resolution_flags` -/
def resolutionFlags : RelocationKind → ValueFlags
  | .got | .gotRelative   => .ofList [.got]
  | .absolute | .relative => .ofList [.direct]
  | .absoluteLowPart      => .empty

/-- The flags that a reference adds to those of its definition. -/
def flagsToAdd (kind : RelocationKind) (rType : RelocationType) (isDynamicLibrary : Bool) : ValueFlags :=
  let flags := resolutionFlags kind
  if isDynamicLibrary then
    let flags := flags.union (.ofList [.got])
    if rType = .branch26 then flags.union (.ofList [.function, .plt]) else flags
  else flags

namespace LinkedObjects

/-- The definition of the symbol with the number of the relocation. -/
def symbolOf (link : LinkedObjects n) (object : ObjectLayout n) (rel : RelocationInfo) : Option (Fin n) :=
  (object.symbols[rel.rSymbolnum.toNat]?).map fun sym => link.definition sym.id

/-- `fetch_or` of the flags, and the request if the symbol had no resolution before. A library keeps a list of them. -/
def addFlags (link : LinkedObjects n) (references : References n) (s : Fin n) (flags : ValueFlags) : References n where
  flags := Function.update references.flags s ((references.flags s).union flags)
  imported :=
    if !(references.flags s).hasResolution && link.isDynamicLibrary s then references.imported ++ [s]
    else references.imported

/-- `process_relocation` -/
def processRelocation (link : LinkedObjects n) (references : References n) (r : ObjectLayout n × RelocationInfo) :
    Option (References n) :=
  if r.2.rExtern then
    (link.symbolOf r.1 r.2).bind fun s => (relocationFromRaw r.2).map fun info =>
      link.addFlags references s (flagsToAdd info.kind r.2.rType (link.isDynamicLibrary s))
  else some references

/-- All relocations, with their objects. -/
def relocations (link : LinkedObjects n) : List (ObjectLayout n × RelocationInfo) :=
  link.sections.flatMap fun sec => sec.relocations.map fun r => (sec.object, r.1)

/-- The flags in the end. They do not depend on the order. -/
def references (link : LinkedObjects n) : Option (References n) := link.relocations.foldlM link.processRelocation link.initial

/-- What `create_resolution` is called with: a symbol that is defined elsewhere has no resolution of its own. -/
def symbolValues (link : LinkedObjects n) (references : References n) : List SymbolValue :=
  (List.finRange n).map fun s =>
    if link.definition s = s then ⟨references.flags s, link.rawValue s⟩ else ⟨.empty, 0⟩

end LinkedObjects

/-! ## Applying -/

/-- The resolutions, and the entries of `__got` that dyld fills. -/
structure SymbolLayout where
  resolutions : List Resolution
  imported : List ImportedEntries

/-- `local_symbol_resolution` -/
def SymbolLayout.symbolResolution (layout : SymbolLayout) (s : Fin n) : Option Resolution :=
  (layout.resolutions[s.val]?).filter fun resolution => resolution.flags.hasResolution

namespace LinkedObjects

/-- `create_layout_ext` on the resolutions of all symbols. -/
def layout (link : LinkedObjects n) : Option SymbolLayout :=
  link.references.bind fun references =>
    let resolutions := createResolutions link.start (link.symbolValues references)
    (importedEntries resolutions (references.imported.map Fin.val)).map fun imported => ⟨resolutions, imported⟩

/-- `get_resolution`: the `raw_value`. `r_extern` is not looked at. -/
def getResolution (link : LinkedObjects n) (layout : SymbolLayout) (object : ObjectLayout n) (rel : RelocationInfo) :
    Option (BitVec 64) :=
  (object.symbols[rel.rSymbolnum.toNat]?).bind fun sym =>
    ((layout.symbolResolution (link.definition sym.id)).map fun resolution => BitVec.ofNat 64 resolution.rawValue).or
      (sym.sectionIndex.bind fun i => (object.sections[i]?).bind (·.address))

/-- `place` -/
def place (sec : LoadedSection n) (rel : RelocationInfo) : BitVec 64 := sec.address + rel.rAddress.setWidth 64

/-- `apply_relocation` -/
def applyRelocation (link : LinkedObjects n) (layout : SymbolLayout) (sec : LoadedSection n) (r : RelocationInfo × BitVec 64) :
    Option (BitVec 64) :=
  (relocationFromRaw r.1).bind fun info => (link.getResolution layout sec.object r.1).bind fun rawValue =>
    info.writeToBuffer (info.value rawValue (place sec r.1)) r.2

/-- `write_object_section`: what is at the places then. The first error ends it. -/
def writeObjectSection (link : LinkedObjects n) (layout : SymbolLayout) (sec : LoadedSection n) : Option (List (BitVec 64)) :=
  sec.relocations.mapM (link.applyRelocation layout sec)

end LinkedObjects

end Reld.MachO
