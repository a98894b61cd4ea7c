import Reld.Reloc.Bits

/-!
# `Reloc.RiscV` — the immediates of RISC-V instructions

The immediate of most instructions is scattered over the word. Upper parts are rounded with `0x800`, since the
lower part that is added to them is signed.
-/

namespace Reld

/-- `RiscVInstruction` -/
inductive RiscVInstruction where
  | uiType
  | uType
  | iType
  | sType
  | bType
  | jType
  | cbType
  | cjType
  | cluiType
deriving DecidableEq, Repr

namespace RiscVInstruction

def uTypeImmediateMask : BitVec 64 := 0b0000_0000_0000_0000_0000_1111_1111_1111
def iTypeImmediateMask : BitVec 64 := 0b0000_0000_0000_1111_1111_1111_1111_1111
def sTypeImmediateMask : BitVec 64 := 0b0000_0001_1111_1111_1111_0000_0111_1111
def bTypeImmediateMask : BitVec 64 := 0b0000_0001_1111_1111_1111_0000_0111_1111
def jTypeImmediateMask : BitVec 64 := 0b0000_0000_0000_0000_0000_1111_1111_1111
def cbTypeImmediateMask : BitVec 64 := 0b1110_0011_1000_0011
def cjTypeImmediateMask : BitVec 64 := 0b1110_0000_0000_0011
def cluiTypeImmediateMask : BitVec 64 := 0b1110_1111_1000_0011

/-! ## Encoding -/

def writeUType (extracted dest : BitVec 64) : BitVec 64 :=
  let mask := extractBitRange (extracted + 0x800) 12 32 <<< 12
  orFromSlice 4 (andFromSlice 4 dest uTypeImmediateMask) mask

def writeIType (extracted dest : BitVec 64) : BitVec 64 :=
  let mask := extracted <<< 20
  orFromSlice 4 (andFromSlice 4 dest iTypeImmediateMask) mask

def writeSType (extracted dest : BitVec 64) : BitVec 64 :=
  let mask := extractBitRange extracted 0 5 <<< 7
  let mask := mask ||| extractBitRange extracted 5 12 <<< 25
  orFromSlice 4 (andFromSlice 4 dest sTypeImmediateMask) mask

def writeBType (extracted dest : BitVec 64) : BitVec 64 :=
  let mask := extractBit extracted 11 <<< 7
  let mask := mask ||| extractBitRange extracted 1 5 <<< 8
  let mask := mask ||| extractBitRange extracted 5 11 <<< 25
  let mask := mask ||| extractBit extracted 12 <<< 31
  orFromSlice 4 (andFromSlice 4 dest bTypeImmediateMask) mask

def writeJType (extracted dest : BitVec 64) : BitVec 64 :=
  let mask := extractBitRange extracted 12 20 <<< 12
  let mask := mask ||| extractBit extracted 11 <<< 20
  let mask := mask ||| extractBitRange extracted 1 11 <<< 21
  let mask := mask ||| extractBit extracted 20 <<< 31
  orFromSlice 4 (andFromSlice 4 dest jTypeImmediateMask) mask

def writeCbType (extracted dest : BitVec 64) : BitVec 64 :=
  let mask := extractBit extracted 5 <<< 2
  let mask := mask ||| extractBitRange extracted 1 3 <<< 3
  let mask := mask ||| extractBitRange extracted 6 8 <<< 5
  let mask := mask ||| extractBitRange extracted 3 5 <<< 10
  let mask := mask ||| extractBit extracted 8 <<< 12
  orFromSlice 2 (andFromSlice 2 dest cbTypeImmediateMask) mask

def writeCjType (extracted dest : BitVec 64) : BitVec 64 :=
  let mask := extractBit extracted 5 <<< 2
  let mask := mask ||| extractBitRange extracted 1 4 <<< 3
  let mask := mask ||| extractBit extracted 7 <<< 6
  let mask := mask ||| extractBit extracted 6 <<< 7
  let mask := mask ||| extractBit extracted 10 <<< 8
  let mask := mask ||| extractBitRange extracted 8 10 <<< 9
  let mask := mask ||| extractBit extracted 4 <<< 11
  let mask := mask ||| extractBit extracted 11 <<< 12
  orFromSlice 2 (andFromSlice 2 dest cjTypeImmediateMask) mask

def writeCluiType (extracted dest : BitVec 64) : BitVec 64 :=
  let hi20 := (extracted + 0x800) >>> 12
  let mask := (hi20 &&& 0x1f) <<< 2
  let mask := mask ||| ((hi20 >>> 5) &&& 1) <<< 12
  orFromSlice 2 (andFromSlice 2 dest cluiTypeImmediateMask) mask

/-- The second instruction of a pair is the word from the fourth byte on. -/
def writeUiType (extracted dest : BitVec 64) : BitVec 64 :=
  let first := writeUType extracted dest
  (writeIType extracted (first >>> 32) <<< 32) ||| lowBytes 4 first

/-- `write_to_value` -/
def writeToValue (insn : RiscVInstruction) (extracted : BitVec 64) (_negative : Bool) (dest : BitVec 64) :
    BitVec 64 :=
  match insn with
  | .uiType   => writeUiType extracted dest
  | .uType    => writeUType extracted dest
  | .iType    => writeIType extracted dest
  | .sType    => writeSType extracted dest
  | .bType    => writeBType extracted dest
  | .jType    => writeJType extracted dest
  | .cbType   => writeCbType extracted dest
  | .cjType   => writeCjType extracted dest
  | .cluiType => writeCluiType extracted dest

/-! ## The fields -/

open BitFields

def uTypeFields : List BitField := [{ src := 12, dst := 12, len := 20 }]
def iTypeFields : List BitField := [{ src := 0, dst := 20, len := 12 }]
def sTypeFields : List BitField := [{ src := 0, dst := 7, len := 5 }, { src := 5, dst := 25, len := 7 }]
def jTypeFields : List BitField :=
  [{ src := 12, dst := 12, len := 8 }, { src := 11, dst := 20, len := 1 }, { src := 1, dst := 21, len := 10 },
    { src := 20, dst := 31, len := 1 }]
theorem writeUType_eq (extracted dest : BitVec 64) :
    writeUType extracted dest = write uTypeFields (extracted + 0x800) dest := by
  have hpatch := @patch_eq_write 4 uTypeFields uTypeImmediateMask (by decide) (by decide) (by decide)
    (extracted + 0x800) dest
  have hmask : extractBitRange (extracted + 0x800) 12 32 <<< 12 = scatter uTypeFields (extracted + 0x800) := by
    exact (BitVec.or_zero).symm
  rw [← hpatch, ← hmask]
  rfl

theorem writeIType_eq (extracted dest : BitVec 64) :
    writeIType extracted dest = write iTypeFields extracted dest := by
  have hpatch := @patch_eq_write 4 iTypeFields iTypeImmediateMask (by decide) (by decide) (by decide)
    extracted dest
  have hmask : lowBytes 4 (extracted <<< 20) = scatter iTypeFields extracted := by
    rw [lowBytes_shift extracted (by decide) (by decide)]
    exact (BitVec.or_zero).symm
  rw [← hpatch]
  unfold writeIType orFromSlice
  simp only
  rw [hmask, lowBytes_scatter (by decide) (by decide)]

theorem writeSType_eq (extracted dest : BitVec 64) :
    writeSType extracted dest = write sTypeFields extracted dest := by
  have hpatch := @patch_eq_write 4 sTypeFields sTypeImmediateMask (by decide) (by decide) (by decide)
    extracted dest
  have hmask : extractBitRange extracted 0 5 <<< 7 ||| extractBitRange extracted 5 12 <<< 25 =
      scatter sTypeFields extracted := by
    simp (disch := decide) only [extractBitRange_shift]
    rw [sTypeFields, scatter, scatter, scatter, BitVec.ofNat_eq_ofNat, BitVec.or_zero]
  rw [← hpatch, ← hmask]
  rfl

theorem writeJType_eq (extracted dest : BitVec 64) :
    writeJType extracted dest = write jTypeFields extracted dest := by
  have hpatch := @patch_eq_write 4 jTypeFields jTypeImmediateMask (by decide) (by decide) (by decide)
    extracted dest
  rw [← hpatch]
  unfold writeJType extractBit
  simp (disch := decide) only [extractBitRange_shift, jTypeFields, scatter, BitVec.or_assoc,
    BitVec.ofNat_eq_ofNat, BitVec.or_zero]

end RiscVInstruction

end Reld
