import Reld.Lib.Encodings
import Reld.Reloc.Tables
import Reld.Elf.Symbol

/-!
# `Reloc.ReadModifyWrite` — relocations that change what is at their place

RISC-V and LoongArch64 have relocations that add to, subtract from or set part of what the assembler has put at
their place, since the linker may still shorten code. Loaded sections (`applyRelocation`) and debug sections
(`applyDebugRelocation`) each have a list of the kinds that read their place first. `same_bytes_iff` says when both
store the same.
-/

namespace Reld

open LittleEndian

/-! ## Types -/

/-- The relocation types of RISC-V that change their place. -/
inductive RiscVPlaceType where
  | add8 | add16 | add32 | add64
  | sub8 | sub16 | sub32 | sub64
  | sub6 | set6 | set8 | set16 | set32
  | setUleb128 | subUleb128
deriving DecidableEq, Repr

/-- The relocation types of LoongArch64 that change their place. -/
inductive LoongArch64PlaceType where
  | add6 | add8 | add16 | add24 | add32 | add64
  | sub6 | sub8 | sub16 | sub24 | sub32 | sub64
  | addUleb128 | subUleb128
deriving DecidableEq, Repr

inductive PlaceType where
  | riscv (type : RiscVPlaceType)
  | loongarch64 (type : LoongArch64PlaceType)
deriving DecidableEq, Repr

/-- The `RelocationKind`s of these types. -/
inductive PlaceKind where
  | absoluteSet
  | absoluteSetWord6
  | absoluteAddition
  | absoluteAdditionWord6
  | absoluteSubtraction
  | absoluteSubtractionWord6
  | pairSubtractionUleb128 (expected : PlaceType)
  | relative
deriving DecidableEq, Repr

/-- `RelocationKindInfo` of these types: none has a page mask or a bias. -/
structure PlaceKindInfo where
  kind : PlaceKind
  byteSize : Nat
  range : AllowedRange := .noCheck
  alignment : Nat := 1
deriving DecidableEq, Repr

/-- `relocation_type_from_raw`. The first of the two types of a pair is skipped. -/
def RiscVPlaceType.info : RiscVPlaceType → PlaceKindInfo
  | .add8       => { kind := .absoluteAddition, byteSize := 1 }
  | .add16      => { kind := .absoluteAddition, byteSize := 2 }
  | .add32      => { kind := .absoluteAddition, byteSize := 4 }
  | .add64      => { kind := .absoluteAddition, byteSize := 8 }
  | .sub8       => { kind := .absoluteSubtraction, byteSize := 1 }
  | .sub16      => { kind := .absoluteSubtraction, byteSize := 2 }
  | .sub32      => { kind := .absoluteSubtraction, byteSize := 4 }
  | .sub64      => { kind := .absoluteSubtraction, byteSize := 8 }
  | .sub6       => { kind := .absoluteSubtractionWord6, byteSize := 1 }
  | .set6       => { kind := .absoluteSetWord6, byteSize := 1 }
  | .set8       => { kind := .absoluteSet, byteSize := 1 }
  | .set16      => { kind := .absoluteSet, byteSize := 2 }
  | .set32      => { kind := .absoluteSet, byteSize := 4 }
  | .setUleb128 => { kind := .relative, byteSize := 0 }
  | .subUleb128 => { kind := .pairSubtractionUleb128 (.riscv .setUleb128), byteSize := 8 }

/-- `relocation_type_from_raw` -/
def LoongArch64PlaceType.info : LoongArch64PlaceType → PlaceKindInfo
  | .add6       => { kind := .absoluteAdditionWord6, byteSize := 1 }
  | .add8       => { kind := .absoluteAddition, byteSize := 1 }
  | .add16      => { kind := .absoluteAddition, byteSize := 2 }
  | .add24      => { kind := .absoluteAddition, byteSize := 3 }
  | .add32      => { kind := .absoluteAddition, byteSize := 4 }
  | .add64      => { kind := .absoluteAddition, byteSize := 8 }
  | .sub6       => { kind := .absoluteSubtractionWord6, byteSize := 1 }
  | .sub8       => { kind := .absoluteSubtraction, byteSize := 1 }
  | .sub16      => { kind := .absoluteSubtraction, byteSize := 2 }
  | .sub24      => { kind := .absoluteSubtraction, byteSize := 3 }
  | .sub32      => { kind := .absoluteSubtraction, byteSize := 4 }
  | .sub64      => { kind := .absoluteSubtraction, byteSize := 8 }
  | .addUleb128 => { kind := .relative, byteSize := 0 }
  | .subUleb128 => { kind := .pairSubtractionUleb128 (.loongarch64 .addUleb128), byteSize := 8 }

def PlaceType.info : PlaceType → PlaceKindInfo
  | .riscv type       => type.info
  | .loongarch64 type => type.info

/-! ## Values -/

namespace PlaceKindInfo

def verify (info : PlaceKindInfo) (value : BitVec 64) : Bool :=
  decide (value.toNat % info.alignment = 0) && info.range.contains value.toInt

/-- The bytes that a value is stored as. -/
def encode (leb : Leb128) (info : PlaceKindInfo) (value : BitVec 64) : Bytes :=
  match info.kind with
  | .pairSubtractionUleb128 _ => leb.write value.toNat
  | _ => leBytes info.byteSize value.toNat

/-- `write_to_buffer` at an offset of the section, `none` if the value is refused or outside of the section. -/
def writeToBuffer (leb : Leb128) (info : PlaceKindInfo) (value : BitVec 64) (out : Bytes) (offset : Nat) :
    Option Bytes :=
  if info.verify value then
    if offset + (info.encode leb value).length ≤ out.length then
      some (overwrite out offset (info.encode leb value))
    else none
  else none

end PlaceKindInfo

/-- `LOW6_MASK` -/
def low6Mask : BitVec 64 := 0b0011_1111

/-- `adjust_relocation_based_on_value`, `none` for a place outside of the section and for other kinds. -/
def adjustRelocationBasedOnValue (value : BitVec 64) (info : PlaceKindInfo) (out : Bytes) (offset : Nat) :
    Option (BitVec 64) :=
  if offset + info.byteSize ≤ out.length then
    let current := BitVec.ofNat 64 (leNat ((out.drop offset).take info.byteSize))
    match info.kind with
    | .absoluteSetWord6 => some (value &&& low6Mask ||| current &&& ~~~low6Mask)
    | .absoluteAddition => some (current + value)
    | .absoluteAdditionWord6 =>
      some (((current &&& low6Mask) + (value &&& low6Mask)) &&& low6Mask ||| current &&& ~~~low6Mask)
    | .absoluteSubtraction => some (current - value)
    | .absoluteSubtractionWord6 =>
      some (((current &&& low6Mask) - (value &&& low6Mask)) &&& low6Mask ||| current &&& ~~~low6Mask)
    | _ => none
  else none

/-- The relocation that comes before another one. Its value is absent where the symbol cannot be resolved. -/
structure PreviousRelocation where
  type : PlaceType
  inputOffset : Nat
  value : Option (BitVec 64)

/-- A relocation with the offset of its place in the input and in the output. -/
structure PlaceRelocation where
  type : PlaceType
  inputOffset : Nat
  offset : Nat
  previous : Option PreviousRelocation

/-- `get_pair_subtraction_relocation_value` -/
def getPairSubtractionRelocationValue (rel : PlaceRelocation) (value : BitVec 64) (expected : PlaceType) :
    Option (BitVec 64) := do
  let setRel ← rel.previous
  guard (setRel.inputOffset = rel.inputOffset)
  guard (setRel.type = expected)
  let setValue ← setRel.value
  return setValue - value

/-! ## The two paths -/

/-- What a symbol of a relocation in a debug section is resolved to. -/
inductive DebugTarget where
  /-- A resolution, by its value with the addend. -/
  | resolved (value : BitVec 64)
  /-- A string of a merged section, whose address may be unknown. -/
  | mergedString (address : Option (BitVec 64))
  /-- A section that is discarded or not loaded, or a symbol of another file that is not. -/
  | notLoaded
  /-- A section of another kind without an address. -/
  | missing

/-- The kinds for which a debug section reads the place. -/
def debugReadsPlace : PlaceKind → Bool
  | .absoluteAddition | .absoluteSubtraction | .absoluteSetWord6 | .absoluteSubtractionWord6 => true
  | _ => false

/-- The kinds for which a loaded section reads the place. -/
def readsPlace : PlaceKind → Bool
  | .absoluteAddition | .absoluteAdditionWord6 | .absoluteSubtraction | .absoluteSetWord6
  | .absoluteSubtractionWord6 => true
  | _ => false

/-- The value of a relocation in a debug section. -/
def debugValue (rel : PlaceRelocation) (out : Bytes) (value : BitVec 64) : Option (BitVec 64) :=
  match rel.type.info.kind with
  | .pairSubtractionUleb128 expected => getPairSubtractionRelocationValue rel value expected
  | .relative => if rel.type.info.byteSize = 0 then some 0 else none
  | kind =>
    if debugReadsPlace kind then adjustRelocationBasedOnValue value rel.type.info out rel.offset else some value

/-- `apply_debug_relocation` -/
def applyDebugRelocation (leb : Leb128) (tombstone : BitVec 64) (rel : PlaceRelocation) (target : DebugTarget)
    (out : Bytes) : Option Bytes := do
  let value ← match target with
    | .resolved value => debugValue rel out value
    | .mergedString address => address
    | .notLoaded => some tombstone
    | .missing => none
  rel.type.info.writeToBuffer leb value out rel.offset

/-- `apply_relocation` for a symbol whose value with the addend is known. -/
def PlaceRelocation.applyRelocation (leb : Leb128) (sectionAddress : BitVec 64) (rel : PlaceRelocation)
    (value : BitVec 64) (out : Bytes) : Option Bytes := do
  let value ← match rel.type.info.kind with
    | .pairSubtractionUleb128 expected => getPairSubtractionRelocationValue rel value expected
    | .relative => some (value - (sectionAddress + BitVec.ofNat 64 rel.offset))
    | _ => some value
  let value ←
    if readsPlace rel.type.info.kind then adjustRelocationBasedOnValue value rel.type.info out rel.offset
    else some value
  rel.type.info.writeToBuffer leb value out rel.offset

/-! ## Six bits of a byte -/

theorem and_low6Mask (x : BitVec 64) : (x &&& low6Mask).toNat = x.toNat % 64 := by
  exact Nat.and_two_pow_sub_one_eq_mod x.toNat 6

theorem and_not_low6Mask (x : BitVec 64) : x &&& ~~~low6Mask = (x >>> 6) <<< 6 := by
  have hmask : low6Mask = (BitVec.allOnes 6).setWidth 64 := rfl
  ext i hi
  simp only [hmask, BitVec.getElem_and, BitVec.getElem_not, BitVec.getElem_shiftLeft, BitVec.getElem_setWidth,
    BitVec.getLsbD_allOnes]
  by_cases hlow : i < 6
  · simp [hlow]
  · simp [hlow, show 6 + (i - 6) = i by omega, BitVec.getLsbD_eq_getElem hi]

/-- Six bits below those of a byte that stay. -/
theorem toNat_low6_or {x current : BitVec 64} (h : current.toNat < 256) :
    ((x &&& low6Mask) ||| (current &&& ~~~low6Mask)).toNat = x.toNat % 64 + 64 * (current.toNat / 64) := by
  have hhigh : (current &&& ~~~low6Mask).toNat = 2 ^ 6 * (current.toNat / 64) := by
    rw [and_not_low6Mask, BitVec.toNat_shiftLeft, BitVec.toNat_ushiftRight, Nat.shiftLeft_eq,
      Nat.shiftRight_eq_div_pow]
    omega
  have hlow : x.toNat % 64 < 2 ^ 6 := Nat.mod_lt _ (by decide)
  rw [BitVec.toNat_or, and_low6Mask, hhigh, Nat.or_comm, ← Nat.two_pow_add_eq_or_of_lt hlow]
  omega

/-! ## Where the paths agree -/

/-- Every range of these types is `no_check`, which leaves out the largest number, and no value is misaligned. -/
theorem verify_info (type : PlaceType) (value : BitVec 64) :
    type.info.verify value = true ↔ value ≠ BitVec.intMax 64 := by
  have hinfo : type.info.range = .noCheck ∧ type.info.alignment = 1 := by
    cases type with
    | riscv type => cases type <;> exact ⟨rfl, rfl⟩
    | loongarch64 type => cases type <;> exact ⟨rfl, rfl⟩
  unfold PlaceKindInfo.verify AllowedRange.contains
  rw [hinfo.1, hinfo.2]
  have hle := BitVec.le_toInt value
  have hlt := BitVec.toInt_lt (x := value)
  have hmax : value = BitVec.intMax 64 ↔ value.toInt = 2 ^ 63 - 1 := by
    rw [← BitVec.toInt_inj]
    rfl
  rw [Ne, hmax, Bool.and_eq_true, decide_eq_true_iff, decide_eq_true_iff, Nat.mod_one]
  unfold AllowedRange.noCheck
  dsimp only
  omega

/-- A byte is stored where there is one, and in its place. -/
theorem overwrite_singleton_inj {out : Bytes} {offset : Nat} {b b' : UInt8} :
    overwrite out offset [b] = overwrite out offset [b'] ↔ b = b' := by
  refine ⟨fun h => ?_, fun h => by rw [h]⟩
  unfold overwrite at h
  rw [List.append_assoc, List.append_assoc] at h
  exact (List.cons.inj (List.append_cancel_left h)).1

/-- What the two paths need to store the same bytes: the sum of the six bits is the value itself, and nothing that
is checked is the largest number. -/
def PathsAgree (sectionAddress : BitVec 64) (rel : PlaceRelocation) (value : BitVec 64) (out : Bytes) : Prop :=
  match rel.type.info.kind with
  | .absoluteAdditionWord6 =>
    ∀ b, out[rel.offset]? = some b →
      value ≠ BitVec.intMax 64 ∧ b.toNat % 64 = 0 ∧ value.toNat / 64 % 4 = b.toNat / 64
  | .relative =>
    rel.offset ≤ out.length → value - (sectionAddress + BitVec.ofNat 64 rel.offset) ≠ BitVec.intMax 64
  | _ => True

theorem byteSize_of_relative {type : PlaceType} (h : type.info.kind = .relative) : type.info.byteSize = 0 := by
  cases type with
  | riscv type | loongarch64 type => cases type <;> first | rfl | exact absurd h (by decide)

theorem byteSize_of_additionWord6 {type : PlaceType} (h : type.info.kind = .absoluteAdditionWord6) :
    type.info.byteSize = 1 := by
  cases type with
  | riscv type | loongarch64 type => cases type <;> first | rfl | exact absurd h (by decide)

/-- The first relocation of a pair stores nothing, and only the path of loaded sections looks at its value. -/
theorem same_bytes_of_relative {leb : Leb128} {tombstone sectionAddress value : BitVec 64} {rel : PlaceRelocation}
    {out : Bytes} (h : rel.type.info.kind = .relative) :
    applyDebugRelocation leb tombstone rel (.resolved value) out = rel.applyRelocation leb sectionAddress value out ↔
      (rel.offset ≤ out.length →
        value - (sectionAddress + BitVec.ofNat 64 rel.offset) ≠ BitVec.intMax 64) := by
  have hsize := byteSize_of_relative h
  have hencode : ∀ v, rel.type.info.encode leb v = [] := by
    intro v
    simp only [PlaceKindInfo.encode, h, hsize, leBytes]
  have hzero : rel.type.info.verify 0 = true := (verify_info _ _).mpr (by decide)
  simp only [applyDebugRelocation, PlaceRelocation.applyRelocation, debugValue, h, hsize, readsPlace,
    PlaceKindInfo.writeToBuffer, hencode, hzero, List.length_nil, Nat.add_zero, bind, Option.bind, if_true, Bool.false_eq_true, if_false]
  by_cases hoffset : rel.offset ≤ out.length
  · simp only [hoffset, true_implies, ← verify_info rel.type]
    cases rel.type.info.verify (value - (sectionAddress + BitVec.ofNat 64 rel.offset)) <;> simp
  · simp only [hoffset, false_implies, iff_true]
    cases rel.type.info.verify (value - (sectionAddress + BitVec.ofNat 64 rel.offset)) <;> rfl

/-- The six-bit addition: a debug section gets the value as it is. -/
theorem same_bytes_of_additionWord6 {leb : Leb128} {tombstone sectionAddress value : BitVec 64}
    {rel : PlaceRelocation} {out : Bytes} (h : rel.type.info.kind = .absoluteAdditionWord6) :
    applyDebugRelocation leb tombstone rel (.resolved value) out = rel.applyRelocation leb sectionAddress value out ↔
      ∀ b, out[rel.offset]? = some b →
        value ≠ BitVec.intMax 64 ∧ b.toNat % 64 = 0 ∧ value.toNat / 64 % 4 = b.toNat / 64 := by
  have hsize := byteSize_of_additionWord6 h
  have hencode : ∀ v : BitVec 64, rel.type.info.encode leb v = [UInt8.ofNat (v.toNat % 256)] := by
    intro v
    simp only [PlaceKindInfo.encode, h, hsize, leBytes]
  simp only [applyDebugRelocation, PlaceRelocation.applyRelocation, debugValue, h, debugReadsPlace, readsPlace,
    PlaceKindInfo.writeToBuffer, adjustRelocationBasedOnValue, hsize, hencode, List.length_singleton, bind,
    Option.bind, if_true, Bool.false_eq_true, if_false]
  by_cases hoffset : rel.offset + 1 ≤ out.length
  · have hb : out[rel.offset]? = some out[rel.offset] := List.getElem?_eq_getElem hoffset
    have htake : (out.drop rel.offset).take 1 = [out[rel.offset]] := by
      rw [List.drop_eq_getElem_cons hoffset, List.take_succ_cons, List.take_zero]
    generalize out[rel.offset] = b at hb htake
    have hcurrent : (BitVec.ofNat 64 (leNat [b])).toNat = b.toNat := by
      have := b.toNat_lt
      simp only [leNat, BitVec.toNat_ofNat]
      omega
    have hbyte : (BitVec.ofNat 64 (leNat [b])).toNat < 256 := by
      rw [hcurrent]
      exact b.toNat_lt
    simp only [hoffset, if_true, htake, hb, Option.some.injEq, forall_eq', ← verify_info rel.type]
    generalize BitVec.ofNat 64 (leNat [b]) = current at hcurrent hbyte ⊢
    -- the value of a loaded section is a byte, which is never the largest number
    have hsum := toNat_low6_or (x := (current &&& low6Mask) + (value &&& low6Mask)) hbyte
    rw [BitVec.toNat_add, and_low6Mask, and_low6Mask, hcurrent] at hsum
    generalize hadjusted : (((current &&& low6Mask) + (value &&& low6Mask)) &&& low6Mask ||| current &&& ~~~low6Mask)
      = adjusted at hsum
    have hverify : rel.type.info.verify adjusted = true := by
      rw [verify_info]
      rintro rfl
      have hmax : (BitVec.intMax 64).toNat = 2 ^ 63 - 1 := rfl
      omega
    rw [hverify, if_pos rfl]
    cases rel.type.info.verify value with
    | false => simp
    | true =>
      simp only [if_true, Option.some.injEq, overwrite_singleton_inj, true_and]
      rw [← UInt8.toNat_inj, UInt8.toNat_ofNat', UInt8.toNat_ofNat', hsum]
      constructor
      · intro heq
        omega
      · rintro ⟨hlow, hhigh⟩
        omega
  · have hnone : out[rel.offset]? = none := List.getElem?_eq_none (by omega)
    simp only [hoffset, if_false, hnone, false_implies, implies_true, iff_true, reduceCtorEq]
    split_ifs <;> rfl

/-- **Debug sections and loaded sections store the same bytes** exactly where the paths agree, which they do for
every kind but the six-bit addition and the first relocation of a pair. -/
theorem same_bytes_iff (leb : Leb128) (tombstone sectionAddress value : BitVec 64) (rel : PlaceRelocation)
    (out : Bytes) :
    applyDebugRelocation leb tombstone rel (.resolved value) out = rel.applyRelocation leb sectionAddress value out ↔
      PathsAgree sectionAddress rel value out := by
  unfold PathsAgree
  cases h : rel.type.info.kind with
  | absoluteAdditionWord6 => exact same_bytes_of_additionWord6 h
  | relative => exact same_bytes_of_relative h
  | _ =>
    -- both paths read the place, or none of them does
    simp only [iff_true, applyDebugRelocation, PlaceRelocation.applyRelocation, debugValue, h, debugReadsPlace,
      readsPlace, Bool.false_eq_true, if_true, if_false]
    rfl

/-- `R_LARCH_ADD6` at the start of a section. -/
def add6Relocation : PlaceRelocation :=
  { type := .loongarch64 .add6, inputOffset := 0, offset := 0, previous := none }

/-- **The six-bit addition overwrites in a debug section**: 2 added to `0x41` stays 2, and 0x43 is stored in a
loaded section. -/
theorem debug_addition_overwrites :
    ¬∀ (leb : Leb128) (tombstone sectionAddress value : BitVec 64) (rel : PlaceRelocation) (out : Bytes),
      applyDebugRelocation leb tombstone rel (.resolved value) out
        = rel.applyRelocation leb sectionAddress value out := by
  intro h
  exact absurd (h .standard 0 0 2 add6Relocation [0x41]) (by decide)

end Reld
