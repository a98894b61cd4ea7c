import Reld.Reloc.Written

/-!
# `Reloc.RiscVPairs` — what a processor makes of an upper and a lower part

An address is split between `lui` or `auipc`, which has the upper twenty bits of a number of 32 bits, and an
instruction that adds twelve more with their sign. On a 64-bit processor the number of 32 bits has a sign as well,
so that the upper half of the values that the table allows is not what the processor adds up.
-/

namespace Reld

open BitFields

/-! ## The processor -/

/-- The upper immediate of the instruction at a place: bits 31 to 12 with zeros behind them, extended. -/
def immU (word : BitVec 64) : BitVec 64 := (word.extractLsb' 12 20 ++ 0#12).signExtend 64

/-- The immediate of a load, an addition or `jalr`: bits 31 to 20, extended. -/
def immI (word : BitVec 64) : BitVec 64 := (word.extractLsb' 20 12).signExtend 64

/-- The immediate of a store: bits 31 to 25 and 11 to 7, extended. -/
def immS (word : BitVec 64) : BitVec 64 := (word.extractLsb' 25 7 ++ word.extractLsb' 7 5).signExtend 64

/-- What the instruction with the lower part adds. -/
def immLow (insn : RelocationInstruction) (word : BitVec 64) : BitVec 64 :=
  if insn = .riscv .sType then immS word else immI word

/-! ## The two parts of a value -/

def upperTypes : List RiscVRelocationType := [.hi20, .pcrelHi20, .gotHi20, .tlsGotHi20, .tlsGdHi20, .tprelHi20]
def lowerTypes : List RiscVRelocationType := [.lo12I, .lo12S, .pcrelLo12I, .pcrelLo12S, .tprelLo12I, .tprelLo12S]
def callTypes : List RiscVRelocationType := [.call, .callPlt]

theorem immU_write (value dest : BitVec 64) :
    (immU (RiscVInstruction.writeUType value dest)).toInt =
      Int.bmod ((hiPart value).toNat * 2 ^ 12 : Nat) (2 ^ 32) := by
  have hfield : (RiscVInstruction.writeUType value dest).extractLsb' 12 20 = (hiPart value).setWidth 20 := by
    refine BitVec.eq_of_getLsbD_eq fun i hi => ?_
    have himm := congrArg (·.getLsbD i) (RiscVInstruction.readUType_imm value dest)
    have hones : ∀ i < 20, (0xfffff : BitVec 64).getLsbD i = true := by decide
    simp only [BitVec.getLsbD_and, BitVec.getLsbD_ushiftRight, getLsbD_lowBytes, hones i hi, Bool.and_true,
      decide_eq_true (show 12 + i < 8 * 4 by omega), Bool.true_and] at himm
    rw [BitVec.getLsbD_extractLsb', BitVec.getLsbD_setWidth, himm]
  have hlt := RiscVInstruction.hiPart_toNat value
  unfold immU
  rw [hfield, BitVec.toInt_signExtend_of_le (by decide), BitVec.toInt_eq_toNat_bmod, BitVec.toNat_append,
    BitVec.toNat_setWidth, Nat.mod_eq_of_lt (by omega), BitVec.toNat_ofNat, Nat.zero_mod, Nat.or_zero,
    Nat.shiftLeft_eq]

variable {value : BitVec 64}

/-- The sign extension of twelve bits of the value. -/
theorem immLow_toInt {field : BitVec 12} (h : ∀ i < 12, field.getLsbD i = value.getLsbD i) :
    (field.signExtend 64).toInt = Int.bmod ((loPart value).toNat : Int) (2 ^ 12) := by
  have hfield : field = (loPart value).setWidth 12 := by
    refine BitVec.eq_of_getLsbD_eq fun i hi => ?_
    rw [h i hi, BitVec.getLsbD_setWidth, RiscVInstruction.getLsbD_loPart, decide_eq_true hi, Bool.true_and,
      Bool.true_and]
  rw [hfield, BitVec.toInt_signExtend_of_le (by decide), BitVec.toInt_setWidth]

theorem immI_write (value dest : BitVec 64) :
    (immI (RiscVInstruction.writeIType value dest)).toInt = Int.bmod ((loPart value).toNat : Int) (2 ^ 12) := by
  refine immLow_toInt fun i hi => ?_
  have hin : covers RiscVInstruction.iTypeFields (20 + i) = true := by
    simp only [RiscVInstruction.iTypeFields, covers, List.any_cons, List.any_nil, Bool.or_false, BitField.holds,
      decide_eq_true_eq]
    omega
  have hat := @scatter_at 64 RiscVInstruction.iTypeFields (by decide) value _ List.mem_cons_self i hi
  rw [BitVec.getLsbD_extractLsb', decide_eq_true hi, Bool.true_and, RiscVInstruction.writeIType_eq,
    write_inside (by decide) _ _ hin, hat, Nat.zero_add]

theorem immS_write (value dest : BitVec 64) :
    (immS (RiscVInstruction.writeSType value dest)).toInt = Int.bmod ((loPart value).toNat : Int) (2 ^ 12) := by
  refine immLow_toInt fun i hi => ?_
  rw [BitVec.getLsbD_append, BitVec.getLsbD_extractLsb', BitVec.getLsbD_extractLsb', RiscVInstruction.writeSType_eq]
  by_cases h5 : i < 5
  · have hin : covers RiscVInstruction.sTypeFields (7 + i) = true := by
      simp only [RiscVInstruction.sTypeFields, covers, List.any_cons, List.any_nil, Bool.or_false, BitField.holds,
        Bool.or_eq_true, decide_eq_true_eq]
      omega
    have hat := @scatter_at 64 RiscVInstruction.sTypeFields (by decide) value _ List.mem_cons_self i h5
    rw [if_pos h5, decide_eq_true h5, Bool.true_and, write_inside (by decide) _ _ hin, hat, Nat.zero_add]
  · have hin : covers RiscVInstruction.sTypeFields (25 + (i - 5)) = true := by
      simp only [RiscVInstruction.sTypeFields, covers, List.any_cons, List.any_nil, Bool.or_false, BitField.holds,
        Bool.or_eq_true, decide_eq_true_eq]
      omega
    have hat := @scatter_at 64 RiscVInstruction.sTypeFields (by decide) value { src := 5, dst := 25, len := 7 }
      (by decide) (i - 5) (show i - 5 < 7 by omega)
    rw [if_neg h5, decide_eq_true (show i - 5 < 7 by omega), Bool.true_and,
      write_inside (by decide) _ _ hin, hat, show 5 + (i - 5) = i by omega]

/-- **The sum.** An upper part rounded to the nearest multiple of `0x1000` and a signed lower part add up to the
    value, if what is rounded is a number of 32 bits with a sign. -/
theorem sum_eq_value_iff {upper lower : BitVec 64}
    (hupper : upper.toInt = Int.bmod ((hiPart value).toNat * 2 ^ 12 : Nat) (2 ^ 32))
    (hlower : lower.toInt = Int.bmod ((loPart value).toNat : Int) (2 ^ 12)) :
    upper + lower = value ↔ -(2 ^ 31) - 0x800 ≤ value.toInt ∧ value.toInt < 2 ^ 31 - 0x800 := by
  have hval : value.toInt = if 2 * value.toNat < 2 ^ 64 then (value.toNat : Int) else value.toNat - 2 ^ 64 := rfl
  rw [RiscVInstruction.hiPart_toNat] at hupper
  rw [RiscVInstruction.loPart_toNat] at hlower
  rw [← BitVec.toInt_inj, BitVec.toInt_add, hupper, hlower]
  simp only [Int.bmod] at hupper hlower ⊢
  split at hval <;> omega

/-- For the values of the table only rounding can reach the sign of the upper part. -/
theorem sum_eq_iff {upper lower : BitVec 64}
    (hupper : upper.toInt = Int.bmod ((hiPart value).toNat * 2 ^ 12 : Nat) (2 ^ 32))
    (hlower : lower.toInt = Int.bmod ((loPart value).toNat : Int) (2 ^ 12)) (hlo : -(2 ^ 31) ≤ value.toInt) :
    upper + lower = value ↔ value.toInt < 2 ^ 31 - 0x800 := by
  rw [sum_eq_value_iff hupper hlower]
  omega

/-- The two words of a pair. -/
theorem immU_writeUiType (value dest : BitVec 64) :
    immU (RiscVInstruction.writeUiType value dest) = immU (RiscVInstruction.writeUType value dest) := by
  have hfield : (RiscVInstruction.writeUiType value dest).extractLsb' 12 20 =
      (RiscVInstruction.writeUType value dest).extractLsb' 12 20 := by
    refine BitVec.eq_of_getLsbD_eq fun i hi => ?_
    rw [BitVec.getLsbD_extractLsb', BitVec.getLsbD_extractLsb', RiscVInstruction.getLsbD_writeUiType _ _ (by omega),
      if_pos (by omega)]
  unfold immU
  rw [hfield]

theorem immI_writeUiType (value dest : BitVec 64) :
    immI (RiscVInstruction.writeUiType value dest >>> 32) =
      immI (RiscVInstruction.writeIType value (RiscVInstruction.writeUType value dest >>> 32)) := by
  have hfield : (RiscVInstruction.writeUiType value dest >>> 32).extractLsb' 20 12 =
      (RiscVInstruction.writeIType value (RiscVInstruction.writeUType value dest >>> 32)).extractLsb' 20 12 := by
    refine BitVec.eq_of_getLsbD_eq fun i hi => ?_
    rw [BitVec.getLsbD_extractLsb', BitVec.getLsbD_extractLsb', BitVec.getLsbD_ushiftRight,
      RiscVInstruction.getLsbD_writeUiType _ _ (by omega), if_neg (by omega), Nat.add_sub_cancel_left]
  unfold immI
  rw [hfield]

/-- The pair as it is written adds up to the value. -/
theorem pair_sum_iff (value dest : BitVec 64) :
    immU (RiscVInstruction.writeUiType value dest) + immI (RiscVInstruction.writeUiType value dest >>> 32) = value ↔
      -(2 ^ 31) - 0x800 ≤ value.toInt ∧ value.toInt < 2 ^ 31 - 0x800 := by
  rw [immU_writeUiType, immI_writeUiType]
  exact sum_eq_value_iff (immU_write value dest) (immI_write value _)

/-! ## The tables -/

variable {rType : RiscVRelocationType}

theorem upper_info (h : rType ∈ upperTypes) :
    rType.info = ⟨.riscv .uType, 0, 32, ⟨-(2 ^ 31), 2 ^ 32⟩, 1⟩ := by
  have hall : ∀ rType ∈ upperTypes, rType.info = ⟨.riscv .uType, 0, 32, ⟨-(2 ^ 31), 2 ^ 32⟩, 1⟩ := by decide
  exact hall rType h

theorem lower_info (h : rType ∈ lowerTypes) :
    ∃ insn, (insn = .iType ∨ insn = .sType) ∧ rType.info = ⟨.riscv insn, 0, 32, ⟨-(2 ^ 31), 2 ^ 32⟩, 1⟩ := by
  simp only [lowerTypes, List.mem_cons, List.not_mem_nil, or_false] at h
  rcases h with rfl | rfl | rfl | rfl | rfl | rfl
  · exact ⟨.iType, Or.inl rfl, rfl⟩
  · exact ⟨.sType, Or.inr rfl, rfl⟩
  · exact ⟨.iType, Or.inl rfl, rfl⟩
  · exact ⟨.sType, Or.inr rfl, rfl⟩
  · exact ⟨.iType, Or.inl rfl, rfl⟩
  · exact ⟨.sType, Or.inr rfl, rfl⟩

theorem call_info (h : rType ∈ callTypes) :
    rType.info = ⟨.riscv .uiType, 0, 64, ⟨-(2 ^ 31), 2 ^ 32⟩, 1⟩ := by
  have hall : ∀ rType ∈ callTypes, rType.info = ⟨.riscv .uiType, 0, 64, ⟨-(2 ^ 31), 2 ^ 32⟩, 1⟩ := by decide
  exact hall rType h

theorem loPart_extract : loPart (extractBitRange value 0 32) = loPart value := by
  refine BitVec.eq_of_getLsbD_eq fun i _ => ?_
  rw [RiscVInstruction.getLsbD_loPart, RiscVInstruction.getLsbD_loPart, getLsbD_extractBitRange (by decide), Nat.zero_add]
  by_cases h12 : i < 12
  · rw [decide_eq_true (show i < 32 - 0 by omega), Bool.true_and]
  · rw [decide_eq_false h12, Bool.false_and, Bool.false_and]

/-- The parts of a value that both tables accept, at two places. -/
theorem separate_parts {upper lower : RiscVRelocationType} (hu : upper ∈ upperTypes) (hl : lower ∈ lowerTypes)
    {destUpper destLower wordUpper wordLower : BitVec 64}
    (hwu : upper.info.writeToBuffer value destUpper = some wordUpper)
    (hwl : lower.info.writeToBuffer value destLower = some wordLower) :
    immU wordUpper + immLow lower.info.instruction wordLower = value ↔ value.toInt < 2 ^ 31 - 0x800 := by
  obtain ⟨hv, rfl⟩ := RelocationKindInfo.writeToBuffer_eq_some hwu
  obtain ⟨-, rfl⟩ := RelocationKindInfo.writeToBuffer_eq_some hwl
  obtain ⟨-, hlo, -⟩ := RelocationKindInfo.verify_eq_true hv
  obtain ⟨insn, hinsn, hinfo⟩ := lower_info hl
  rw [upper_info hu] at hlo ⊢
  rw [hinfo]
  have hupper := immU_write (extractBitRange value 0 32) destUpper
  rw [RiscVInstruction.hiPart_extract (by decide) (by decide)] at hupper
  refine sum_eq_iff hupper ?_ hlo
  rcases hinsn with rfl | rfl
  · have hlower := immI_write (extractBitRange value 0 32) destLower
    rw [loPart_extract] at hlower
    exact hlower
  · have hlower := immS_write (extractBitRange value 0 32) destLower
    rw [loPart_extract] at hlower
    exact hlower

/-- The parts of a call, at one place. -/
theorem call_parts (hc : rType ∈ callTypes) {dest word : BitVec 64}
    (hw : rType.info.writeToBuffer value dest = some word) :
    immU word + immI (word >>> 32) = value ↔ value.toInt < 2 ^ 31 - 0x800 := by
  obtain ⟨hv, rfl⟩ := RelocationKindInfo.writeToBuffer_eq_some hw
  obtain ⟨-, hlo, -⟩ := RelocationKindInfo.verify_eq_true hv
  rw [call_info hc] at hlo ⊢
  refine (pair_sum_iff value dest).trans ?_
  dsimp only at hlo
  omega

/-- **Upper and lower parts.** Of the values that are accepted the processor adds up those that are at least
    `0x800` below the middle of the range. -/
theorem parts_add_up_iff (value : BitVec 64) :
    (∀ upper ∈ upperTypes, ∀ lower ∈ lowerTypes, ∀ destUpper destLower wordUpper wordLower,
      upper.info.writeToBuffer value destUpper = some wordUpper →
      lower.info.writeToBuffer value destLower = some wordLower →
        (immU wordUpper + immLow lower.info.instruction wordLower = value ↔ value.toInt < 2 ^ 31 - 0x800)) ∧
    (∀ rType ∈ callTypes, ∀ dest word, rType.info.writeToBuffer value dest = some word →
      (immU word + immI (word >>> 32) = value ↔ value.toInt < 2 ^ 31 - 0x800)) :=
  ⟨fun _ hu _ hl _ _ _ _ hwu hwl => separate_parts hu hl hwu hwl, fun _ hc _ _ hw => call_parts hc hw⟩

/-- `lui` and `addi` of `-10`: the upper part is zero. -/
theorem parts_add_up_minus_ten :
    immU 0x537 + immLow RiscVRelocationType.lo12I.info.instruction 0xff650513 = -10 ↔
      (-10 : BitVec 64).toInt < 2 ^ 31 - 0x800 :=
  (parts_add_up_iff (-10)).1 .hi20 (by decide) .lo12I (by decide) 0x537 0x50513 0x537 0xff650513 (by decide) (by decide)

/-- `auipc` and `addi` of `0x7ffff800`: the upper part is rounded to `0x80000000`, a negative number. -/
theorem parts_do_not_add_up :
    ¬ ∀ upper ∈ upperTypes, ∀ lower ∈ lowerTypes, ∀ value destUpper destLower wordUpper wordLower,
      upper.info.writeToBuffer value destUpper = some wordUpper →
      lower.info.writeToBuffer value destLower = some wordLower →
        immU wordUpper + immLow lower.info.instruction wordLower = value := by
  intro h
  have hsum := h .pcrelHi20 (by decide) .pcrelLo12I (by decide) 0x7ffff800 0x517 0x50513 0x80000517 0x80050513
    (by decide) (by decide)
  exact absurd hsum (by decide)

end Reld
