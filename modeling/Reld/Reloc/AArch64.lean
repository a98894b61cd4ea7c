import Reld.Reloc.Bits

/-!
# `Reloc.AArch64` — the immediates of AArch64 instructions

An AArch64 instruction has its immediate in one piece, `adr` in two. All encoders but that of `movn` and `movz`
combine the value with what the instruction holds already. The Mach-O form of the source is in no table of
relocation types and left out.
-/

namespace Reld

/-- `AArch64Instruction` -/
inductive AArch64Instruction where
  | adr
  | movkz
  | movnz
  | ldr
  | ldrRegister
  | add
  | ldSt
  | tstBr
  | bcond
  | jumpCall
deriving DecidableEq, Repr

namespace AArch64Instruction

/-! ## Encoding -/

/-- All bits except `rd` and `hw` are cleared, then the opcode and the immediate are set. -/
def writeMovnz (extracted : BitVec 64) (negative : Bool) (dest : BitVec 64) : BitVec 64 :=
  let dest := andFromSlice 4 dest 0x0060001F
  let value := if negative then ~~~ extracted else extracted
  let mask : BitVec 64 := if negative then 0x92800000 else 0xd2800000
  orFromSlice 4 dest (mask ||| extractBitRange value 0 16 <<< 5)

/-- `write_to_value` -/
def writeToValue (insn : AArch64Instruction) (extracted : BitVec 64) (negative : Bool) (dest : BitVec 64) :
    BitVec 64 :=
  match insn with
  | .adr =>
    orFromSlice 4 dest ((extractBitRange extracted 0 2 <<< 29) ||| (extractBitRange extracted 2 32 <<< 5))
  | .movkz => orFromSlice 4 dest (extracted <<< 5)
  | .movnz => writeMovnz extracted negative dest
  | .ldr => orFromSlice 4 dest (extracted <<< 5)
  | .ldrRegister => orFromSlice 4 dest (extracted <<< 10)
  | .add => orFromSlice 4 dest (extracted <<< 10)
  | .ldSt => orFromSlice 4 dest (extracted <<< 10)
  | .tstBr => orFromSlice 4 dest (extracted <<< 5)
  | .bcond => orFromSlice 4 dest (extracted <<< 5)
  | .jumpCall => orFromSlice 4 dest extracted

/-! ## The immediate -/

open BitFields

/-- Where the last piece of the immediate starts, less the bits in front of it. -/
def shift : AArch64Instruction → Nat
  | .adr                         => 3
  | .ldrRegister | .add | .ldSt => 10
  | .jumpCall => 0
  | _ => 5

/-- What an encoder without clearing does to a bit. -/
theorem getLsbD_orFromSlice (dest extracted : BitVec 64) (dst i : Nat) :
    (orFromSlice 4 dest (extracted <<< dst)).getLsbD i =
      (dest.getLsbD i || (decide (dst ≤ i ∧ i < 32) && extracted.getLsbD (i - dst))) := by
  unfold orFromSlice
  rw [BitVec.getLsbD_or, getLsbD_lowBytes, BitVec.getLsbD_shiftLeft]
  by_cases h32 : i < 32
  · by_cases hd : i < dst
    · simp [hd, show ¬ dst ≤ i by omega]
    · simp [hd, h32, show dst ≤ i by omega, show i < 64 by omega]
  · simp [show ¬ i < 8 * 4 by omega]

end AArch64Instruction

end Reld
