import Reld.Db.SymbolDb
import Reld.Lib.X86
import Reld.Reloc.Tables

/-!
# `Reloc.X86Got` — relaxing reads of the global offset table on x86-64

An instruction that reads the address of a symbol from its GOT slot is rewritten, when the symbol is close enough or
its value is known, into one that has the address as an immediate or computes it from `rip`. The rewritten relocation
is then applied as an `R_X86_64_32` or an `R_X86_64_PC32`.
-/

namespace Reld

open X86 (Op writeBytes littleEndian)

/-- The relocation types of a GOT slot relative to the instruction pointer. -/
inductive GotPcRelType where
  | gotpcrel
  | gotpcrelx
  | rexGotpcrelx
  | code4Gotpcrelx
deriving DecidableEq, Repr

/-- The `RelaxationKind`s that these types are relaxed with. -/
inductive X86RelaxationKind where
  | movIndirectToLea
  | movIndirectToAbsolute
  | rexMovIndirectToAbsolute (instOffset : Nat)
  | rexSubIndirectToAbsolute (instOffset : Nat)
  | rexCmpIndirectToAbsolute (instOffset : Nat)
  | callIndirectToRelative
  | jmpIndirectToRelative
deriving DecidableEq, Repr

/-! ## Values -/

/-- The `RelocationKind` of the relaxed relocations. -/
inductive X86ValueKind where
  | absolute
  | relative
deriving DecidableEq, Repr

/-- `RelocationKindInfo` of a type with `RelocationSize::ByteSize`. -/
structure ByteKindInfo where
  kind : X86ValueKind
  byteSize : Nat
  range : AllowedRange
  alignment : Nat
deriving DecidableEq, Repr

namespace ByteKindInfo

/-- `R_X86_64_32` -/
def abs32 : ByteKindInfo :=
  { kind := .absolute, byteSize := 4, range := .fromBitSize 32 .unsigned, alignment := 1 }

/-- `R_X86_64_PC32` -/
def pc32 : ByteKindInfo :=
  { kind := .relative, byteSize := 4, range := .fromBitSize 32 .signed, alignment := 1 }

def verify (info : ByteKindInfo) (value : BitVec 64) : Bool :=
  decide (value.toNat % info.alignment = 0) && info.range.contains value.toInt

/-- `write_to_buffer` at an offset of the section, `none` if the value is refused. -/
def writeToBuffer (info : ByteKindInfo) (value : BitVec 64) (bytes : X86.Bytes) (offset : Nat) : Option X86.Bytes :=
  if info.verify value then some (writeBytes bytes offset (littleEndian info.byteSize value)) else none

end ByteKindInfo

/-! ## Choosing a relaxation -/

structure X86Relaxation where
  kind : X86RelaxationKind
  relInfo : ByteKindInfo
  mandatory : Bool
deriving DecidableEq, Repr

/-- Whether the value of the symbol is final, so that it can be an immediate. -/
def hasFinalValue (flags : ValueFlags) (outputKind : OutputKind) : Bool :=
  (flags.isAbsolute && !flags.isDynamic) || (flags.isAddress && !outputKind.isRelocatable)

/-- `new_relaxation` for the types of a GOT slot, on the bytes of the section. -/
def newGotRelaxation (type : GotPcRelType) (bytes : X86.Bytes) (offset : Nat) (flags : ValueFlags)
    (outputKind : OutputKind) (execInstr : Bool) : Option X86Relaxation :=
  let mandatory := outputKind.isStaticExecutable
  let toAbsolute (kind : X86RelaxationKind) : Option X86Relaxation := some ⟨kind, .abs32, mandatory⟩
  let toRelative (kind : X86RelaxationKind) : Option X86Relaxation := some ⟨kind, .pc32, mandatory⟩
  if flags.isIfunc then none
  else if !execInstr then none
  else
    match type with
    | .rexGotpcrelx | .code4Gotpcrelx =>
      if (type = .code4Gotpcrelx ∧ offset ≥ 4 ∧ bytes (offset - 4) = 0xd5) ∨ offset ≥ 3 then
        let rex := bytes (offset - 3)
        if rex ≠ 0x48 ∧ rex ≠ 0x4c then none
        else if hasFinalValue flags outputKind then
          let instOffset := if type = .rexGotpcrelx then 3 else 4
          if bytes (offset - 2) = 0x8b then toAbsolute (.rexMovIndirectToAbsolute instOffset)
          else if bytes (offset - 2) = 0x2b then toAbsolute (.rexSubIndirectToAbsolute instOffset)
          else if bytes (offset - 2) = 0x3b then toAbsolute (.rexCmpIndirectToAbsolute instOffset)
          else none
        else if !flags.isInterposable then
          if bytes (offset - 2) = 0x8b then toRelative .movIndirectToLea else none
        else none
      else none
    | .gotpcrelx =>
      if bytes (offset - 2) = 0x8b ∧ hasFinalValue flags outputKind then toAbsolute .movIndirectToAbsolute
      else if bytes (offset - 2) = 0x8b ∧ !flags.isInterposable then toRelative .movIndirectToLea
      else if !flags.isInterposable then
        if bytes (offset - 2) = 0xff ∧ bytes (offset - 1) = 0x15 then toRelative .callIndirectToRelative
        else if bytes (offset - 2) = 0xff ∧ bytes (offset - 1) = 0x25 then toRelative .jmpIndirectToRelative
        else none
      else none
    | .gotpcrel =>
      if !flags.isInterposable ∧ offset ≥ 2 then
        if bytes (offset - 2) = 0x8b then some ⟨.movIndirectToLea, .pc32, false⟩ else none
      else none

/-! ## Rewriting the instruction -/

/-- What `RelaxationKind::apply` changes: the bytes of the section, the offset and the addend. -/
structure Rewrite where
  bytes : X86.Bytes
  offset : Nat
  addend : BitVec 64

/-- A prefix with its register bits moved from `reg` to `rm`. -/
def movePrefix (instOffset : Nat) (rex : BitVec 8) : BitVec 8 :=
  if instOffset = 3 then (rex &&& ~~~(4 : BitVec 8)) ||| ((rex &&& 4) >>> 2)
  else if instOffset = 4 then (rex &&& ~~~(0x44 : BitVec 8)) ||| ((rex &&& 0x44) >>> 2)
  else rex

/-- ModRM with the register moved from `reg` to `rm`, under an extension of the opcode. -/
def moveModRm (modRm extension : BitVec 8) : BitVec 8 := (modRm >>> 3) &&& 0x7 ||| extension

/-- The arms of `RelaxationKind::apply` for instructions with a prefix. -/
def rexToAbsolute (instOffset : Nat) (opcode extension : BitVec 8) (bytes : X86.Bytes) (offset : Nat) : Rewrite :=
  { bytes := writeBytes bytes (offset - 3)
      [movePrefix instOffset (bytes (offset - 3)), opcode, moveModRm (bytes (offset - 1)) extension]
    offset := offset
    addend := 0 }

/-- `RelaxationKind::apply` -/
def X86RelaxationKind.apply (kind : X86RelaxationKind) (bytes : X86.Bytes) (offset : Nat) (addend : BitVec 64) :
    Rewrite :=
  match kind with
  | .movIndirectToLea => { bytes := writeBytes bytes (offset - 2) [0x8d], offset := offset, addend := addend }
  | .movIndirectToAbsolute =>
    { bytes := writeBytes bytes (offset - 2) [0xc7, moveModRm (bytes (offset - 1)) 0xc0]
      offset := offset
      addend := 0 }
  | .rexMovIndirectToAbsolute instOffset => rexToAbsolute instOffset 0xc7 0xc0 bytes offset
  | .rexSubIndirectToAbsolute instOffset => rexToAbsolute instOffset 0x81 0xe8 bytes offset
  | .rexCmpIndirectToAbsolute instOffset => rexToAbsolute instOffset 0x81 0xf8 bytes offset
  | .callIndirectToRelative =>
    { bytes := writeBytes bytes (offset - 2) [0x67, 0xe8], offset := offset, addend := addend }
  | .jmpIndirectToRelative =>
    { bytes := writeBytes bytes (offset - 2) [0xe9, 0, 0, 0, 0, 0x90]
      offset := offset - 1 -- the instruction is a byte shorter
      addend := addend }

/-! ## Applying the relocation -/

/-- What the writer reads of a resolution, with the flags of the reference merged in. -/
structure GotResolution where
  rawValue : BitVec 64
  dynamicSymbolIndex : Option Nat
  flags : ValueFlags

/-- What it reads of the section. -/
structure SectionInfo where
  sectionAddress : BitVec 64
  isAlloc : Bool
  isWritable : Bool
  execInstr : Bool
deriving DecidableEq, Repr

/-- What it reads of the table writer. -/
structure DynamicOutput where
  outputKind : OutputKind
  hasRelr : Bool
deriving DecidableEq

/-- A relocation that is left to the loader. -/
inductive DynamicRelocation where
  | symbol (place addend : BitVec 64) (symbolIndex : Nat)
  | irelative (place resolver : BitVec 64)
  | relative (place address : BitVec 64)
deriving DecidableEq, Repr

/-- `write_absolute_relocation`: the value for the field, and the relocation for the loader. -/
def writeAbsoluteRelocation (out : DynamicOutput) (resolution : GotResolution) (place addend : BitVec 64)
    (sectionInfo : SectionInfo) : Option (BitVec 64 × Option DynamicRelocation) :=
  let flags := resolution.flags
  let valueWithAddend := resolution.rawValue + addend
  if !sectionInfo.isAlloc then some (valueWithAddend, none)
  else if flags.isDynamic && flags.isAbsolute && !sectionInfo.isWritable then some (0, none)
  else if flags.isInterposable && sectionInfo.isWritable then
    resolution.dynamicSymbolIndex.map fun index => (0, some (.symbol place addend index))
  else if flags.isIfunc && sectionInfo.isWritable && out.outputKind.isRelocatable then
    some (0, some (.irelative place valueWithAddend))
  else if out.outputKind.isRelocatable && !flags.isAbsolute then
    -- an even place gets a RELR entry, which adds to what the place holds
    some (if out.hasRelr && place.toNat % 2 == 0 then valueWithAddend else 0, some (.relative place valueWithAddend))
  else some (valueWithAddend, none)

/-- The section and the loader's relocations after a relocation. -/
structure AppliedRelocation where
  bytes : X86.Bytes
  dynamic : Option DynamicRelocation

/-- The value that `apply_relocation` computes. -/
def relaxedValue (out : DynamicOutput) (resolution : GotResolution) (sectionInfo : SectionInfo) (kind : X86ValueKind)
    (place addend : BitVec 64) : Option (BitVec 64 × Option DynamicRelocation) :=
  match kind with
  | .absolute => writeAbsoluteRelocation out resolution place addend sectionInfo
  | .relative => some (resolution.rawValue + addend - place, none)

/-- `apply_relocation` from the chosen relaxation on, `none` if an address is missing or the value is refused. -/
def applyGotRelaxation (out : DynamicOutput) (resolution : GotResolution) (sectionInfo : SectionInfo)
    (relaxation : X86Relaxation) (bytes : X86.Bytes) (offset : Nat) (addend : BitVec 64) : Option AppliedRelocation := do
  let rewrite := relaxation.kind.apply bytes offset addend
  let place := sectionInfo.sectionAddress + BitVec.ofNat 64 rewrite.offset
  let (value, dynamic) ← relaxedValue out resolution sectionInfo relaxation.relInfo.kind place rewrite.addend
  let bytes ← relaxation.relInfo.writeToBuffer value rewrite.bytes rewrite.offset
  some { bytes := bytes, dynamic := dynamic }

/-! ## The slot -/

/-- What `process_resolution` leaves in a GOT slot: a value, an address that the loader moves, or a symbol that it
looks up. `definition` are the flags of the symbol without those of the reference. -/
inductive GotSlot where
  | value (v : BitVec 64)
  | address (a : BitVec 64)
  | dynamicSymbol
deriving DecidableEq, Repr

/-- `process_resolution` for a symbol that is neither an ifunc nor thread-local. -/
def gotSlot (outputKind : OutputKind) (definition : ValueFlags) (rawValue : BitVec 64) : GotSlot :=
  if definition.isDynamic || (definition.needsExportDynamic && definition.isInterposable) then .dynamicSymbol
  else if definition.isAddress && outputKind.isRelocatable then .address rawValue
  else .value rawValue

/-- The word in the slot of a program loaded at `base`, whose loader finds the symbol at `found`. -/
def GotSlot.loaded (base found : BitVec 64) : GotSlot → BitVec 64
  | .value v       => v
  | .address a     => base + a
  | .dynamicSymbol => found

end Reld
