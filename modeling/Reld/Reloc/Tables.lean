import Reld.Reloc.AArch64
import Reld.Reloc.LoongArch64
import Reld.Reloc.RiscV

/-!
# `Reloc.Tables` — the relocation types that patch instructions

The displacements of ppc64 instructions, whose bits are at the same positions in the value and in the instruction; how
a value is checked and written; and the tables of AArch64, RISC-V and LoongArch64.
-/

namespace Reld

/-- `Ppc64Instruction` -/
inductive Ppc64Instruction where
  | d
  | ds
  | branch14
  | branch24
deriving DecidableEq, Repr

namespace Ppc64Instruction

/-- `field_mask` -/
def fieldMask : Ppc64Instruction → BitVec 64
  | .d => 0x0000ffff
  | .ds | .branch14 => 0x0000fffc
  | .branch24 => 0x03fffffc

/-- `write_to_value` -/
def writeToValue (insn : Ppc64Instruction) (extracted : BitVec 64) (_negative : Bool) (dest : BitVec 64) :
    BitVec 64 :=
  let word := lowBytes 4 dest
  let word := (word &&& ~~~ insn.fieldMask) ||| (lowBytes 4 extracted &&& insn.fieldMask)
  orFromSlice 4 (andFromSlice 4 dest 0) word

end Ppc64Instruction

end Reld

/-!
# Writing a relocation value into an instruction

A relocation type selects a range of bits of the value and says which instruction takes them. Before they are
written the value is checked for its alignment and against the allowed range.
-/

namespace Reld

/-- `RelocationInstruction` -/
inductive RelocationInstruction where
  | aarch64 (insn : AArch64Instruction)
  | riscv (insn : RiscVInstruction)
  | loongarch64 (insn : LoongArch64Instruction)
  | ppc64 (insn : Ppc64Instruction)
deriving DecidableEq, Repr

namespace RelocationInstruction

/-- `write_to_value` -/
def writeToValue (insn : RelocationInstruction) (extracted : BitVec 64) (negative : Bool) (dest : BitVec 64) :
    BitVec 64 :=
  match insn with
  | .aarch64 insn     => insn.writeToValue extracted negative dest
  | .riscv insn       => insn.writeToValue extracted negative dest
  | .loongarch64 insn => insn.writeToValue extracted negative dest
  | .ppc64 insn       => insn.writeToValue extracted negative dest

end RelocationInstruction

/-! ## Allowed values -/

inductive Sign where
  | unsigned
  | signed
deriving DecidableEq, Repr

/-- `AllowedRange`: from `min` up to below `max`. -/
structure AllowedRange where
  min : Int
  max : Int
deriving DecidableEq, Repr

namespace AllowedRange

/-- `no_check` -/
def noCheck : AllowedRange := ⟨-(2 ^ 63), 2 ^ 63 - 1⟩

/-- `from_bit_size` -/
def fromBitSize (bits : Nat) (sign : Sign) : AllowedRange :=
  if bits = 0 ∨ bits = 64 then noCheck
  else match sign with
    | .unsigned => ⟨0, 2 ^ bits⟩
    | .signed   => ⟨-(2 ^ (bits - 1)), 2 ^ (bits - 1)⟩

def contains (range : AllowedRange) (value : Int) : Bool := decide (range.min ≤ value ∧ value < range.max)

end AllowedRange

/-- `RelocationKindInfo` of a type with `RelocationSize::BitMasking`: what `write_to_buffer` reads of it. -/
structure RelocationKindInfo where
  instruction : RelocationInstruction
  start : Nat
  stop : Nat
  range : AllowedRange
  alignment : Nat
deriving DecidableEq, Repr

namespace RelocationKindInfo

def verify (info : RelocationKindInfo) (value : BitVec 64) : Bool :=
  decide (value.toNat % info.alignment = 0) && info.range.contains value.toInt

/-- The bits of the value that are written. -/
def extracted (info : RelocationKindInfo) (value : BitVec 64) : BitVec 64 :=
  extractBitRange value info.start info.stop

/-- `write_to_buffer` on the word at the place, `none` if the value is refused. -/
def writeToBuffer (info : RelocationKindInfo) (value dest : BitVec 64) : Option (BitVec 64) :=
  if info.verify value then some (info.instruction.writeToValue (info.extracted value) value.msb dest) else none

end RelocationKindInfo

end Reld

/-!
# The tables

The tables of three architectures, without the types that write whole bytes or nothing. They are in the
order of the source.
-/

namespace Reld

/-! ## AArch64 -/

/-- The types `R_AARCH64_…`. -/
inductive AArch64RelocationType where
  | movwUabsG0 | movwUabsG0Nc | movwUabsG1 | movwUabsG1Nc | movwUabsG2 | movwUabsG2Nc | movwUabsG3
  | movwSabsG0 | movwSabsG1 | movwSabsG2 | ldPrelLo19 | adrPrelLo21 | adrPrelPgHi21 | adrPrelPgHi21Nc
  | addAbsLo12Nc | ldst8AbsLo12Nc | ldst16AbsLo12Nc | ldst32AbsLo12Nc | ldst64AbsLo12Nc | ldst128AbsLo12Nc
  | tstbr14 | condbr19 | jump26 | call26 | movwPrelG0 | movwPrelG0Nc | movwPrelG1 | movwPrelG1Nc | movwPrelG2
  | movwPrelG2Nc | movwPrelG3 | movwGotoffG0 | movwGotoffG0Nc | movwGotoffG1 | movwGotoffG1Nc | movwGotoffG2
  | movwGotoffG2Nc | movwGotoffG3 | gotLdPrel19 | ld64GotoffLo15 | adrGotPage | ld64GotLo12Nc
  | ld64GotpageLo15 | tlsgdAdrPrel21 | tlsgdAdrPage21 | tlsgdAddLo12Nc | tlsgdMovwG1 | tlsgdMovwG0Nc
  | tlsldAdrPrel21 | tlsldAdrPage21 | tlsldAddLo12Nc | tlsldMovwG1 | tlsldMovwG0Nc | tlsldLdPrel19
  | tlsldMovwDtprelG2 | tlsldMovwDtprelG1 | tlsldMovwDtprelG1Nc | tlsldMovwDtprelG0 | tlsldMovwDtprelG0Nc
  | tlsldAddDtprelHi12 | tlsldAddDtprelLo12 | tlsldAddDtprelLo12Nc | tlsldLdst8DtprelLo12
  | tlsldLdst8DtprelLo12Nc | tlsldLdst16DtprelLo12 | tlsldLdst16DtprelLo12Nc | tlsldLdst32DtprelLo12
  | tlsldLdst32DtprelLo12Nc | tlsldLdst64DtprelLo12 | tlsldLdst64DtprelLo12Nc | tlsldLdst128DtprelLo12
  | tlsldLdst128DtprelLo12Nc | tlsieMovwGottprelG1 | tlsieMovwGottprelG0Nc | tlsieAdrGottprelPage21
  | tlsieLd64GottprelLo12Nc | tlsieLdGottprelPrel19 | tlsleMovwTprelG2 | tlsleMovwTprelG1
  | tlsleMovwTprelG1Nc | tlsleMovwTprelG0 | tlsleMovwTprelG0Nc | tlsleAddTprelHi12 | tlsleAddTprelLo12
  | tlsleAddTprelLo12Nc | tlsleLdst8TprelLo12 | tlsleLdst8TprelLo12Nc | tlsleLdst16TprelLo12
  | tlsleLdst16TprelLo12Nc | tlsleLdst32TprelLo12 | tlsleLdst32TprelLo12Nc | tlsleLdst64TprelLo12
  | tlsleLdst64TprelLo12Nc | tlsleLdst128TprelLo12 | tlsleLdst128TprelLo12Nc | tlsdescLdPrel19
  | tlsdescAdrPrel21 | tlsdescAdrPage21 | tlsdescLd64Lo12 | tlsdescAddLo12 | tlsdescOffG1 | tlsdescOffG0Nc
deriving DecidableEq, Repr

/-- `relocation_type_from_raw` -/
def AArch64RelocationType.info : AArch64RelocationType → RelocationKindInfo
  | .movwUabsG0 => ⟨.aarch64 .movkz, 0, 16, .fromBitSize 16 .unsigned, 1⟩
  | .movwUabsG0Nc => ⟨.aarch64 .movkz, 0, 16, .noCheck, 1⟩
  | .movwUabsG1 => ⟨.aarch64 .movkz, 16, 32, .fromBitSize 32 .unsigned, 1⟩
  | .movwUabsG1Nc => ⟨.aarch64 .movkz, 16, 32, .noCheck, 1⟩
  | .movwUabsG2 => ⟨.aarch64 .movkz, 32, 48, .fromBitSize 48 .unsigned, 1⟩
  | .movwUabsG2Nc => ⟨.aarch64 .movkz, 32, 48, .noCheck, 1⟩
  | .movwUabsG3 => ⟨.aarch64 .movkz, 48, 64, .noCheck, 1⟩
  | .movwSabsG0 => ⟨.aarch64 .movnz, 0, 16, .fromBitSize 17 .signed, 1⟩
  | .movwSabsG1 => ⟨.aarch64 .movnz, 16, 32, .fromBitSize 33 .signed, 1⟩
  | .movwSabsG2 => ⟨.aarch64 .movnz, 32, 48, .fromBitSize 49 .signed, 1⟩
  | .ldPrelLo19 => ⟨.aarch64 .ldr, 2, 21, .fromBitSize 21 .signed, 4⟩
  | .adrPrelLo21 => ⟨.aarch64 .adr, 0, 21, .fromBitSize 21 .signed, 1⟩
  | .adrPrelPgHi21 => ⟨.aarch64 .adr, 12, 33, .fromBitSize 33 .signed, 1⟩
  | .adrPrelPgHi21Nc => ⟨.aarch64 .adr, 12, 33, .noCheck, 1⟩
  | .addAbsLo12Nc => ⟨.aarch64 .add, 0, 12, .noCheck, 1⟩
  | .ldst8AbsLo12Nc => ⟨.aarch64 .ldSt, 0, 12, .noCheck, 1⟩
  | .ldst16AbsLo12Nc => ⟨.aarch64 .ldSt, 1, 12, .noCheck, 2⟩
  | .ldst32AbsLo12Nc => ⟨.aarch64 .ldSt, 2, 12, .noCheck, 4⟩
  | .ldst64AbsLo12Nc => ⟨.aarch64 .ldSt, 3, 12, .noCheck, 8⟩
  | .ldst128AbsLo12Nc => ⟨.aarch64 .ldSt, 4, 12, .noCheck, 16⟩
  | .tstbr14 => ⟨.aarch64 .tstBr, 2, 16, .fromBitSize 16 .signed, 4⟩
  | .condbr19 => ⟨.aarch64 .bcond, 2, 21, .fromBitSize 21 .signed, 4⟩
  | .jump26 => ⟨.aarch64 .jumpCall, 2, 28, .fromBitSize 28 .signed, 4⟩
  | .call26 => ⟨.aarch64 .jumpCall, 2, 28, .fromBitSize 28 .signed, 4⟩
  | .movwPrelG0 => ⟨.aarch64 .movnz, 0, 16, .noCheck, 1⟩
  | .movwPrelG0Nc => ⟨.aarch64 .movkz, 0, 16, .noCheck, 1⟩
  | .movwPrelG1 => ⟨.aarch64 .movnz, 16, 32, .noCheck, 1⟩
  | .movwPrelG1Nc => ⟨.aarch64 .movkz, 16, 32, .noCheck, 1⟩
  | .movwPrelG2 => ⟨.aarch64 .movnz, 32, 48, .noCheck, 1⟩
  | .movwPrelG2Nc => ⟨.aarch64 .movkz, 32, 48, .noCheck, 1⟩
  | .movwPrelG3 => ⟨.aarch64 .movnz, 48, 64, .noCheck, 1⟩
  | .movwGotoffG0 => ⟨.aarch64 .movnz, 0, 16, .noCheck, 1⟩
  | .movwGotoffG0Nc => ⟨.aarch64 .movkz, 0, 16, .noCheck, 1⟩
  | .movwGotoffG1 => ⟨.aarch64 .movnz, 16, 32, .noCheck, 1⟩
  | .movwGotoffG1Nc => ⟨.aarch64 .movkz, 16, 32, .noCheck, 1⟩
  | .movwGotoffG2 => ⟨.aarch64 .movnz, 32, 48, .noCheck, 1⟩
  | .movwGotoffG2Nc => ⟨.aarch64 .movkz, 32, 48, .noCheck, 1⟩
  | .movwGotoffG3 => ⟨.aarch64 .movnz, 48, 64, .noCheck, 1⟩
  | .gotLdPrel19 => ⟨.aarch64 .ldSt, 2, 21, .fromBitSize 21 .signed, 4⟩
  | .ld64GotoffLo15 => ⟨.aarch64 .ldSt, 3, 15, .fromBitSize 15 .unsigned, 8⟩
  | .adrGotPage => ⟨.aarch64 .adr, 12, 33, .fromBitSize 33 .signed, 1⟩
  | .ld64GotLo12Nc => ⟨.aarch64 .ldSt, 3, 12, .noCheck, 8⟩
  | .ld64GotpageLo15 => ⟨.aarch64 .ldSt, 3, 15, .fromBitSize 15 .unsigned, 8⟩
  | .tlsgdAdrPrel21 => ⟨.aarch64 .adr, 0, 21, .fromBitSize 21 .signed, 1⟩
  | .tlsgdAdrPage21 => ⟨.aarch64 .adr, 12, 33, .fromBitSize 33 .signed, 1⟩
  | .tlsgdAddLo12Nc => ⟨.aarch64 .add, 0, 12, .noCheck, 1⟩
  | .tlsgdMovwG1 => ⟨.aarch64 .movnz, 16, 33, .noCheck, 1⟩
  | .tlsgdMovwG0Nc => ⟨.aarch64 .movkz, 0, 16, .noCheck, 1⟩
  | .tlsldAdrPrel21 => ⟨.aarch64 .adr, 0, 21, .fromBitSize 21 .signed, 1⟩
  | .tlsldAdrPage21 => ⟨.aarch64 .adr, 12, 33, .fromBitSize 33 .signed, 1⟩
  | .tlsldAddLo12Nc => ⟨.aarch64 .add, 0, 12, .noCheck, 1⟩
  | .tlsldMovwG1 => ⟨.aarch64 .movnz, 16, 32, .noCheck, 1⟩
  | .tlsldMovwG0Nc => ⟨.aarch64 .movkz, 0, 16, .noCheck, 1⟩
  | .tlsldLdPrel19 => ⟨.aarch64 .ldr, 0, 21, .fromBitSize 21 .signed, 1⟩
  | .tlsldMovwDtprelG2 => ⟨.aarch64 .movnz, 32, 48, .noCheck, 1⟩
  | .tlsldMovwDtprelG1 => ⟨.aarch64 .movnz, 16, 32, .noCheck, 1⟩
  | .tlsldMovwDtprelG1Nc => ⟨.aarch64 .movkz, 16, 32, .noCheck, 1⟩
  | .tlsldMovwDtprelG0 => ⟨.aarch64 .movnz, 0, 16, .noCheck, 1⟩
  | .tlsldMovwDtprelG0Nc => ⟨.aarch64 .movkz, 0, 16, .noCheck, 1⟩
  | .tlsldAddDtprelHi12 => ⟨.aarch64 .add, 12, 24, .fromBitSize 24 .unsigned, 1⟩
  | .tlsldAddDtprelLo12 => ⟨.aarch64 .add, 0, 12, .fromBitSize 12 .unsigned, 1⟩
  | .tlsldAddDtprelLo12Nc => ⟨.aarch64 .add, 0, 12, .noCheck, 1⟩
  | .tlsldLdst8DtprelLo12 => ⟨.aarch64 .ldSt, 0, 12, .fromBitSize 12 .unsigned, 1⟩
  | .tlsldLdst8DtprelLo12Nc => ⟨.aarch64 .ldSt, 0, 12, .noCheck, 1⟩
  | .tlsldLdst16DtprelLo12 => ⟨.aarch64 .ldSt, 1, 12, .fromBitSize 12 .unsigned, 2⟩
  | .tlsldLdst16DtprelLo12Nc => ⟨.aarch64 .ldSt, 1, 12, .noCheck, 2⟩
  | .tlsldLdst32DtprelLo12 => ⟨.aarch64 .ldSt, 2, 12, .fromBitSize 12 .unsigned, 4⟩
  | .tlsldLdst32DtprelLo12Nc => ⟨.aarch64 .ldSt, 2, 12, .noCheck, 4⟩
  | .tlsldLdst64DtprelLo12 => ⟨.aarch64 .ldSt, 3, 12, .fromBitSize 12 .unsigned, 8⟩
  | .tlsldLdst64DtprelLo12Nc => ⟨.aarch64 .ldSt, 3, 12, .noCheck, 8⟩
  | .tlsldLdst128DtprelLo12 => ⟨.aarch64 .ldSt, 4, 12, .fromBitSize 12 .unsigned, 16⟩
  | .tlsldLdst128DtprelLo12Nc => ⟨.aarch64 .ldSt, 4, 12, .noCheck, 16⟩
  | .tlsieMovwGottprelG1 => ⟨.aarch64 .movnz, 16, 32, .noCheck, 1⟩
  | .tlsieMovwGottprelG0Nc => ⟨.aarch64 .movkz, 0, 16, .noCheck, 1⟩
  | .tlsieAdrGottprelPage21 => ⟨.aarch64 .adr, 12, 33, .fromBitSize 33 .signed, 1⟩
  | .tlsieLd64GottprelLo12Nc => ⟨.aarch64 .ldrRegister, 3, 12, .noCheck, 8⟩
  | .tlsieLdGottprelPrel19 => ⟨.aarch64 .ldr, 2, 21, .fromBitSize 21 .signed, 4⟩
  | .tlsleMovwTprelG2 => ⟨.aarch64 .movnz, 32, 48, .noCheck, 1⟩
  | .tlsleMovwTprelG1 => ⟨.aarch64 .movnz, 16, 32, .noCheck, 1⟩
  | .tlsleMovwTprelG1Nc => ⟨.aarch64 .movkz, 16, 32, .noCheck, 1⟩
  | .tlsleMovwTprelG0 => ⟨.aarch64 .movnz, 0, 16, .noCheck, 1⟩
  | .tlsleMovwTprelG0Nc => ⟨.aarch64 .movkz, 0, 16, .noCheck, 1⟩
  | .tlsleAddTprelHi12 => ⟨.aarch64 .add, 12, 24, .fromBitSize 24 .unsigned, 1⟩
  | .tlsleAddTprelLo12 => ⟨.aarch64 .add, 0, 12, .fromBitSize 12 .unsigned, 1⟩
  | .tlsleAddTprelLo12Nc => ⟨.aarch64 .add, 0, 12, .noCheck, 1⟩
  | .tlsleLdst8TprelLo12 => ⟨.aarch64 .ldSt, 0, 12, .fromBitSize 12 .unsigned, 1⟩
  | .tlsleLdst8TprelLo12Nc => ⟨.aarch64 .ldSt, 0, 12, .noCheck, 1⟩
  | .tlsleLdst16TprelLo12 => ⟨.aarch64 .ldSt, 1, 12, .fromBitSize 12 .unsigned, 2⟩
  | .tlsleLdst16TprelLo12Nc => ⟨.aarch64 .ldSt, 1, 12, .noCheck, 2⟩
  | .tlsleLdst32TprelLo12 => ⟨.aarch64 .ldSt, 2, 12, .fromBitSize 12 .unsigned, 4⟩
  | .tlsleLdst32TprelLo12Nc => ⟨.aarch64 .ldSt, 2, 12, .noCheck, 4⟩
  | .tlsleLdst64TprelLo12 => ⟨.aarch64 .ldSt, 3, 12, .fromBitSize 12 .unsigned, 8⟩
  | .tlsleLdst64TprelLo12Nc => ⟨.aarch64 .ldSt, 3, 12, .noCheck, 8⟩
  | .tlsleLdst128TprelLo12 => ⟨.aarch64 .ldSt, 4, 12, .fromBitSize 12 .unsigned, 16⟩
  | .tlsleLdst128TprelLo12Nc => ⟨.aarch64 .ldSt, 4, 12, .noCheck, 16⟩
  | .tlsdescLdPrel19 => ⟨.aarch64 .ldr, 2, 21, .fromBitSize 21 .signed, 4⟩
  | .tlsdescAdrPrel21 => ⟨.aarch64 .adr, 0, 21, .fromBitSize 21 .signed, 1⟩
  | .tlsdescAdrPage21 => ⟨.aarch64 .adr, 12, 33, .fromBitSize 33 .signed, 1⟩
  | .tlsdescLd64Lo12 => ⟨.aarch64 .ldrRegister, 3, 12, .noCheck, 8⟩
  | .tlsdescAddLo12 => ⟨.aarch64 .add, 0, 12, .noCheck, 1⟩
  | .tlsdescOffG1 => ⟨.aarch64 .movnz, 16, 32, .fromBitSize 33 .signed, 1⟩
  | .tlsdescOffG0Nc => ⟨.aarch64 .movkz, 0, 16, .noCheck, 1⟩

/-! ## RISC-V -/

/-- The types `R_RISCV_…`. -/
inductive RiscVRelocationType where
  | branch | jal | call | callPlt | gotHi20 | tlsGotHi20 | tlsGdHi20 | pcrelHi20 | pcrelLo12I | pcrelLo12S
  | hi20 | lo12I | lo12S | tprelHi20 | tprelLo12I | tprelLo12S | rvcBranch | rvcJump
deriving DecidableEq, Repr

/-- `relocation_type_from_raw` -/
def RiscVRelocationType.info : RiscVRelocationType → RelocationKindInfo
  | .branch     => ⟨.riscv .bType, 0, 32, ⟨-(2 ^ 12), 2 ^ 12 - 1⟩, 2⟩
  | .jal        => ⟨.riscv .jType, 0, 32, ⟨-(2 ^ 20), 2 ^ 20 - 1⟩, 2⟩
  | .call       => ⟨.riscv .uiType, 0, 64, ⟨-(2 ^ 31), 2 ^ 32⟩, 1⟩
  | .callPlt    => ⟨.riscv .uiType, 0, 64, ⟨-(2 ^ 31), 2 ^ 32⟩, 1⟩
  | .gotHi20    => ⟨.riscv .uType, 0, 32, ⟨-(2 ^ 31), 2 ^ 32⟩, 1⟩
  | .tlsGotHi20 => ⟨.riscv .uType, 0, 32, ⟨-(2 ^ 31), 2 ^ 32⟩, 1⟩
  | .tlsGdHi20  => ⟨.riscv .uType, 0, 32, ⟨-(2 ^ 31), 2 ^ 32⟩, 1⟩
  | .pcrelHi20  => ⟨.riscv .uType, 0, 32, ⟨-(2 ^ 31), 2 ^ 32⟩, 1⟩
  | .pcrelLo12I => ⟨.riscv .iType, 0, 32, ⟨-(2 ^ 31), 2 ^ 32⟩, 1⟩
  | .pcrelLo12S => ⟨.riscv .sType, 0, 32, ⟨-(2 ^ 31), 2 ^ 32⟩, 1⟩
  | .hi20       => ⟨.riscv .uType, 0, 32, ⟨-(2 ^ 31), 2 ^ 32⟩, 1⟩
  | .lo12I      => ⟨.riscv .iType, 0, 32, ⟨-(2 ^ 31), 2 ^ 32⟩, 1⟩
  | .lo12S      => ⟨.riscv .sType, 0, 32, ⟨-(2 ^ 31), 2 ^ 32⟩, 1⟩
  | .tprelHi20  => ⟨.riscv .uType, 0, 32, ⟨-(2 ^ 31), 2 ^ 32⟩, 1⟩
  | .tprelLo12I => ⟨.riscv .iType, 0, 32, ⟨-(2 ^ 31), 2 ^ 32⟩, 1⟩
  | .tprelLo12S => ⟨.riscv .sType, 0, 32, ⟨-(2 ^ 31), 2 ^ 32⟩, 1⟩
  | .rvcBranch  => ⟨.riscv .cbType, 0, 16, ⟨-(2 ^ 8), 2 ^ 8 - 1⟩, 2⟩
  | .rvcJump    => ⟨.riscv .cjType, 0, 16, ⟨-(2 ^ 11), 2 ^ 11 - 1⟩, 2⟩

/-! ## LoongArch64 -/

/-- The types `R_LARCH_…`. -/
inductive LoongArch64RelocationType where
  | absHi20 | absLo12 | abs64Hi12 | abs64Lo20 | pcalaHi20 | pcalaLo12 | pcala64Hi12 | pcala64Lo20 | pcrel20S2
  | pcaddHi20 | gotPcHi20 | gotPcLo12 | got64PcHi12 | got64PcLo20 | b16 | b21 | b26 | call36 | call30
  | tlsLeHi20 | tlsLeLo12 | tlsLe64Lo20 | tlsLe64Hi12 | tlsLeHi20R | tlsLeLo12R | tlsIePcHi20 | tlsIePcLo12
  | tlsIe64PcLo20 | tlsIe64PcHi12 | tlsIeHi20 | tlsIeLo12 | tlsIe64Hi12 | tlsIe64Lo20 | tlsLdPcHi20
  | tlsLdHi20 | tlsGdPcHi20 | tlsGdHi20 | tlsDescPcHi20 | tlsDescPcLo12 | tlsDesc64PcHi12 | tlsDesc64PcLo20
deriving DecidableEq, Repr

/-- `relocation_type_from_raw` -/
def LoongArch64RelocationType.info : LoongArch64RelocationType → RelocationKindInfo
  | .absHi20 => ⟨.loongarch64 .shift5, 12, 32, .noCheck, 1⟩
  | .absLo12 => ⟨.loongarch64 .shift10, 0, 12, .noCheck, 1⟩
  | .abs64Hi12 => ⟨.loongarch64 .shift10, 52, 64, .noCheck, 1⟩
  | .abs64Lo20 => ⟨.loongarch64 .shift5, 32, 52, .noCheck, 1⟩
  | .pcalaHi20 => ⟨.loongarch64 .shift5, 12, 32, .noCheck, 1⟩
  | .pcalaLo12 => ⟨.loongarch64 .shift10, 0, 12, .noCheck, 1⟩
  | .pcala64Hi12 => ⟨.loongarch64 .shift10, 52, 64, .noCheck, 1⟩
  | .pcala64Lo20 => ⟨.loongarch64 .shift5, 32, 52, .noCheck, 1⟩
  | .pcrel20S2 => ⟨.loongarch64 .shift5, 2, 22, .fromBitSize 22 .signed, 4⟩
  | .pcaddHi20 => ⟨.loongarch64 .shift5, 12, 32, .noCheck, 1⟩
  | .gotPcHi20 => ⟨.loongarch64 .shift5, 12, 32, .noCheck, 1⟩
  | .gotPcLo12 => ⟨.loongarch64 .shift10, 0, 12, .noCheck, 1⟩
  | .got64PcHi12 => ⟨.loongarch64 .shift10, 52, 64, .noCheck, 1⟩
  | .got64PcLo20 => ⟨.loongarch64 .shift5, 32, 52, .noCheck, 1⟩
  | .b16 => ⟨.loongarch64 .shift10, 2, 18, .fromBitSize 18 .signed, 4⟩
  | .b21 => ⟨.loongarch64 .branch21, 2, 23, .fromBitSize 23 .signed, 4⟩
  | .b26 => ⟨.loongarch64 .branch26, 2, 28, .fromBitSize 28 .signed, 4⟩
  | .call36 => ⟨.loongarch64 .call36, 2, 38, .fromBitSize 38 .signed, 4⟩
  | .call30 => ⟨.loongarch64 .call30, 2, 19, .noCheck, 1⟩
  | .tlsLeHi20 => ⟨.loongarch64 .shift5, 12, 32, .noCheck, 1⟩
  | .tlsLeLo12 => ⟨.loongarch64 .shift10, 0, 12, .noCheck, 1⟩
  | .tlsLe64Lo20 => ⟨.loongarch64 .shift5, 32, 52, .noCheck, 1⟩
  | .tlsLe64Hi12 => ⟨.loongarch64 .shift10, 52, 64, .noCheck, 1⟩
  | .tlsLeHi20R => ⟨.loongarch64 .shift5, 12, 32, .noCheck, 1⟩
  | .tlsLeLo12R => ⟨.loongarch64 .shift10, 0, 12, .noCheck, 1⟩
  | .tlsIePcHi20 => ⟨.loongarch64 .shift5, 12, 32, .noCheck, 1⟩
  | .tlsIePcLo12 => ⟨.loongarch64 .shift10, 0, 12, .noCheck, 1⟩
  | .tlsIe64PcLo20 => ⟨.loongarch64 .shift5, 32, 52, .noCheck, 1⟩
  | .tlsIe64PcHi12 => ⟨.loongarch64 .shift10, 52, 64, .noCheck, 1⟩
  | .tlsIeHi20 => ⟨.loongarch64 .shift5, 12, 32, .noCheck, 1⟩
  | .tlsIeLo12 => ⟨.loongarch64 .shift10, 0, 12, .noCheck, 1⟩
  | .tlsIe64Hi12 => ⟨.loongarch64 .shift10, 52, 64, .noCheck, 1⟩
  | .tlsIe64Lo20 => ⟨.loongarch64 .shift5, 32, 52, .noCheck, 1⟩
  | .tlsLdPcHi20 => ⟨.loongarch64 .shift5, 12, 32, .noCheck, 1⟩
  | .tlsLdHi20 => ⟨.loongarch64 .shift5, 12, 32, .noCheck, 1⟩
  | .tlsGdPcHi20 => ⟨.loongarch64 .shift5, 12, 32, .noCheck, 1⟩
  | .tlsGdHi20 => ⟨.loongarch64 .shift5, 12, 32, .noCheck, 1⟩
  | .tlsDescPcHi20 => ⟨.loongarch64 .shift5, 12, 32, .noCheck, 1⟩
  | .tlsDescPcLo12 => ⟨.loongarch64 .shift10, 0, 12, .noCheck, 1⟩
  | .tlsDesc64PcHi12 => ⟨.loongarch64 .shift10, 52, 64, .noCheck, 1⟩
  | .tlsDesc64PcLo20 => ⟨.loongarch64 .shift5, 32, 52, .noCheck, 1⟩

end Reld
