import Reld.Reloc.Bits

/-!
# `Reloc.LoongArch64` — the immediates of LoongArch64 instructions

The encoders clear the immediate first. A call takes two instructions, seen as one word of eight bytes: the
first is its lower half.
-/

namespace Reld

/-- `LoongArch64Instruction` -/
inductive LoongArch64Instruction where
  | shift5
  | shift10
  | branch21
  | branch26
  | call30
  | call36
deriving DecidableEq, Repr

namespace LoongArch64Instruction

/-! ## Encoding -/

def call30Clear : BitVec 64 := (0xFFF803FF : BitVec 64) <<< 32 ||| 0xFE00001F
def call36Clear : BitVec 64 := (0xFC0003FF : BitVec 64) <<< 32 ||| 0xFE00001F

def writeCall30 (extracted dest : BitVec 64) : BitVec 64 :=
  let dest := andFromSlice 8 dest call30Clear
  let lowPart := (extracted &&& 0x1ff) <<< 42
  let highPart := (extracted &&& ~~~ 0x1ff) <<< 5
  orFromSlice 8 dest (lowPart ||| highPart)

def writeCall36 (extracted dest : BitVec 64) : BitVec 64 :=
  let dest := andFromSlice 8 dest call36Clear
  let lowPart := (extracted &&& 0xffff) <<< 42
  let highPart := ((extracted + 0x8000) >>> 16) <<< 5
  orFromSlice 8 dest (lowPart ||| highPart)

/-- `write_to_value` -/
def writeToValue (insn : LoongArch64Instruction) (extracted : BitVec 64) (_negative : Bool) (dest : BitVec 64) :
    BitVec 64 :=
  match insn with
  | .shift5   => orFromSlice 4 (andFromSlice 4 dest 0xFE00001F) (extracted <<< 5)
  | .shift10  => orFromSlice 4 (andFromSlice 4 dest 0xFFC003FF) (extracted <<< 10)
  | .branch26 => orFromSlice 4 (andFromSlice 4 dest 0xFC000000) ((extracted &&& 0xffff) <<< 10 ||| extracted >>> 16)
  | .branch21 => orFromSlice 4 (andFromSlice 4 dest 0xFC0003E0) ((extracted &&& 0xffff) <<< 10 ||| extracted >>> 16)
  | .call30   => writeCall30 extracted dest
  | .call36   => writeCall36 extracted dest

/-! ## The immediate -/

open BitFields

/-- The places of the immediate. -/
def immediate : LoongArch64Instruction → List BitField
  | .shift5   => [{ src := 0, dst := 5, len := 20 }]
  | .shift10  => [{ src := 0, dst := 10, len := 12 }]
  | .branch26 => [{ src := 0, dst := 10, len := 16 }, { src := 16, dst := 0, len := 10 }]
  | .branch21 => [{ src := 0, dst := 10, len := 16 }, { src := 16, dst := 0, len := 5 }]
  | .call30   => [{ src := 0, dst := 42, len := 9 }, { src := 9, dst := 5, len := 20 }]
  | .call36   => [{ src := 0, dst := 42, len := 16 }, { src := 16, dst := 5, len := 20 }]

end LoongArch64Instruction

end Reld
