import Reld.Reloc.Tables

/-!
# `Reloc.Written` — the words that relocations write

An accepted value is cut down to its selected bits and written into the word at the place. Here the formats are
described by the bits of the word afterwards (`getLsbD_write`), or as bit fields: AArch64 instructions keep what they
hold, those of RISC-V and LoongArch64 are cleared first.
-/

namespace Reld

open BitFields

namespace RelocationKindInfo

variable {info : RelocationKindInfo} {value : BitVec 64}

theorem writeToBuffer_eq_some {dest word : BitVec 64} (h : info.writeToBuffer value dest = some word) :
    info.verify value = true ∧ word = info.instruction.writeToValue (info.extracted value) value.msb dest := by
  unfold writeToBuffer at h
  by_cases hv : info.verify value = true
  · rw [if_pos hv] at h
    exact ⟨hv, (Option.some.inj h).symm⟩
  · rw [if_neg hv] at h
    cases h

theorem verify_eq_true (h : info.verify value = true) :
    value.toNat % info.alignment = 0 ∧ info.range.min ≤ value.toInt ∧ value.toInt < info.range.max := by
  unfold verify AllowedRange.contains at h
  rw [Bool.and_eq_true, decide_eq_true_eq, decide_eq_true_eq] at h
  exact ⟨h.1, h.2.1, h.2.2⟩

end RelocationKindInfo

/-! ## AArch64 -/

namespace AArch64Instruction

/-- All formats but `adr` and `movnz`. -/
def OnePiece (insn : AArch64Instruction) : Prop := insn ≠ .adr ∧ insn ≠ .movnz

instance (insn : AArch64Instruction) : Decidable insn.OnePiece := inferInstanceAs (Decidable (_ ∧ _))

variable {insn : AArch64Instruction}

theorem getLsbD_write (h : insn.OnePiece) (extracted dest : BitVec 64) (negative : Bool) (i : Nat) :
    (insn.writeToValue extracted negative dest).getLsbD i =
      (dest.getLsbD i || (decide (insn.shift ≤ i ∧ i < 32) && extracted.getLsbD (i - insn.shift))) := by
  obtain ⟨hadr, hmov⟩ := h
  cases insn with
  | adr      => exact absurd rfl hadr
  | movnz    => exact absurd rfl hmov
  | jumpCall =>
    have h0 := getLsbD_orFromSlice dest extracted 0 i
    rw [BitVec.shiftLeft_zero] at h0
    exact h0
  | _        => exact getLsbD_orFromSlice dest extracted _ i

theorem getLsbD_writeAdr {extracted : BitVec 64} (hext : ∀ i, 21 ≤ i → extracted.getLsbD i = false)
    (dest : BitVec 64) (negative : Bool) (i : Nat) :
    (AArch64Instruction.adr.writeToValue extracted negative dest).getLsbD i =
      (dest.getLsbD i || (decide (29 ≤ i ∧ i < 31) && extracted.getLsbD (i - 29)) ||
        (decide (5 ≤ i ∧ i < 24) && extracted.getLsbD (i - 3))) := by
  have hlow : extractBitRange extracted 0 2 <<< 29 = BitField.put { src := 0, dst := 29, len := 2 } extracted :=
    extractBitRange_shift extracted 29 (by decide) (by decide)
  have hhigh : extractBitRange extracted 2 32 <<< 5 = BitField.put { src := 2, dst := 5, len := 30 } extracted :=
    extractBitRange_shift extracted 5 (by decide) (by decide)
  have hcut : (decide (i < 8 * 4) && (decide (5 ≤ i ∧ i < 35) && extracted.getLsbD (2 + (i - 5)))) =
      (decide (5 ≤ i ∧ i < 24) && extracted.getLsbD (i - 3)) := by
    by_cases h5 : 5 ≤ i
    · rw [show 2 + (i - 5) = i - 3 by omega]
      by_cases h24 : i < 24
      · rw [decide_eq_true (show i < 8 * 4 by omega), decide_eq_true (show 5 ≤ i ∧ i < 35 by omega),
          decide_eq_true (show 5 ≤ i ∧ i < 24 by omega), Bool.true_and]
      · rw [hext (i - 3) (by omega), Bool.and_false, Bool.and_false, Bool.and_false]
    · rw [decide_eq_false (show ¬ (5 ≤ i ∧ i < 35) by omega), decide_eq_false (show ¬ (5 ≤ i ∧ i < 24) by omega),
        Bool.false_and, Bool.and_false, Bool.false_and]
  have hcut' : (decide (i < 8 * 4) && (decide (29 ≤ i ∧ i < 31) && extracted.getLsbD (0 + (i - 29)))) =
      (decide (29 ≤ i ∧ i < 31) && extracted.getLsbD (i - 29)) := by
    rw [Nat.zero_add]
    by_cases h29 : 29 ≤ i ∧ i < 31
    · rw [decide_eq_true (show i < 8 * 4 by omega), Bool.true_and]
    · rw [decide_eq_false h29, Bool.false_and, Bool.and_false]
  unfold writeToValue orFromSlice
  rw [hlow, hhigh, BitVec.getLsbD_or, getLsbD_lowBytes, BitVec.getLsbD_or,
    BitField.getLsbD_put (n := 64) (by decide), BitField.getLsbD_put (n := 64) (by decide), Bool.and_or_distrib_left]
  unfold BitField.holds
  simp only [Nat.reduceAdd]
  rw [hcut, hcut', Bool.or_assoc]

end AArch64Instruction

/-! ## RISC-V -/

/-- The two parts that a RISC-V address is split into. -/
def hiPart (value : BitVec 64) : BitVec 64 := extractBitRange (value + 0x800) 12 32
def loPart (value : BitVec 64) : BitVec 64 := extractBitRange value 0 12

namespace RiscVInstruction

theorem getLsbD_loPart (value : BitVec 64) (i : Nat) :
    (loPart value).getLsbD i = (decide (i < 12) && value.getLsbD i) := by
  unfold loPart
  rw [getLsbD_extractBitRange (by decide), Nat.zero_add]

theorem getLsbD_hiPart (value : BitVec 64) (i : Nat) :
    (hiPart value).getLsbD i = (decide (i < 20) && (value + 0x800).getLsbD (12 + i)) := by
  unfold hiPart
  rw [getLsbD_extractBitRange (by decide)]

theorem hiPart_toNat (value : BitVec 64) : (hiPart value).toNat = (value.toNat + 0x800) / 2 ^ 12 % 2 ^ 20 := by
  have hround : (0x800 : BitVec 64).toNat = 0x800 := by decide
  unfold hiPart
  rw [toNat_extractBitRange (by decide), BitVec.toNat_add, hround]
  omega

theorem loPart_toNat (value : BitVec 64) : (loPart value).toNat = value.toNat % 2 ^ 12 := by
  unfold loPart
  rw [toNat_extractBitRange (by decide), Nat.pow_zero, Nat.div_one]

/-- The upper part does not look beyond 32 bits. -/
theorem hiPart_extract {stop : Nat} (h32 : 32 ≤ stop) (hs : stop ≤ 64) (value : BitVec 64) :
    hiPart (extractBitRange value 0 stop) = hiPart value := by
  refine BitVec.eq_of_toNat_eq ?_
  have hval : (extractBitRange value 0 stop).toNat = value.toNat % 2 ^ stop := by
    rw [toNat_extractBitRange hs, Nat.pow_zero, Nat.div_one, Nat.sub_zero]
  rw [hiPart_toNat, hiPart_toNat, hval]
  have hdvd : (2 : Nat) ^ 32 ∣ 2 ^ stop := Nat.pow_dvd_pow 2 h32
  have hmod := Nat.mod_mod_of_dvd value.toNat hdvd
  omega

/-- The field that is read is the upper part that was written. -/
theorem readUType_imm (value dest : BitVec 64) :
    (lowBytes 4 (writeUType value dest) >>> 12) &&& 0xfffff = hiPart value := by
  have hones : (0xfffff : BitVec 64) = BitVec.ofNat 64 (2 ^ 20 - 1) := by decide
  refine BitVec.eq_of_getLsbD_eq fun i _ => ?_
  rw [hones, BitVec.getLsbD_and, BitField.getLsbD_ones, BitVec.getLsbD_ushiftRight, getLsbD_lowBytes, getLsbD_hiPart,
    Bool.and_comm]
  by_cases h20 : i < 20
  · rw [decide_eq_true (show i < 64 ∧ i < 20 by omega), decide_eq_true (show 12 + i < 8 * 4 by omega),
      decide_eq_true h20, Bool.true_and, Bool.true_and, Bool.true_and, writeUType_eq]
    have hin : covers uTypeFields (12 + i) = true := by
      simp only [uTypeFields, covers, List.any_cons, List.any_nil, Bool.or_false, BitField.holds, decide_eq_true_eq]
      omega
    rw [write_inside (by decide) _ _ hin]
    exact @scatter_at 64 uTypeFields (by decide) _ _ List.mem_cons_self i h20
  · rw [decide_eq_false (by omega), decide_eq_false h20, Bool.false_and, Bool.false_and]

/-- The first instruction is the lower half of the word, the second the upper one. -/
theorem getLsbD_writeUiType (value dest : BitVec 64) {i : Nat} (hi : i < 64) :
    (writeUiType value dest).getLsbD i =
      if i < 32 then (writeUType value dest).getLsbD i
      else (writeIType value (writeUType value dest >>> 32)).getLsbD (i - 32) := by
  unfold writeUiType
  rw [BitVec.getLsbD_or, BitVec.getLsbD_shiftLeft, getLsbD_lowBytes, decide_eq_true hi]
  by_cases h32 : i < 32
  · rw [if_pos h32, decide_eq_true h32, Bool.not_true, Bool.and_false, Bool.false_and, Bool.false_or, Bool.true_and]
  · rw [if_neg h32, decide_eq_false h32, Bool.not_false, Bool.and_true, Bool.true_and, Bool.false_and, Bool.or_false]

end RiscVInstruction

/-! ## LoongArch64 -/

theorem shiftLeft_eq_put {v : BitVec 64} {dst len : Nat} (h : ∀ i, len ≤ i → v.getLsbD i = false)
    (hd : dst + len ≤ 64) : v <<< dst = BitField.put { src := 0, dst := dst, len := len } v := by
  refine BitVec.eq_of_getLsbD_eq fun i hi => ?_
  rw [BitVec.getLsbD_shiftLeft,
    BitField.getLsbD_put (n := 64) ⟨show 0 + len ≤ 64 by omega, hd⟩, decide_eq_true hi, Bool.true_and, Nat.zero_add]
  unfold BitField.holds
  by_cases h1 : i < dst
  · rw [decide_eq_true h1, decide_eq_false (by simp only; omega), Bool.not_true, Bool.false_and]
  · rw [decide_eq_false h1, Bool.not_false, Bool.true_and]
    by_cases h2 : i < dst + len
    · rw [decide_eq_true (by simp only; omega), Bool.true_and]
    · rw [h (i - dst) (by omega), Bool.and_false]

namespace LoongArch64Instruction

variable {extracted : BitVec 64}

theorem writeShift5_eq (h : ∀ i, 20 ≤ i → extracted.getLsbD i = false) (negative : Bool) (dest : BitVec 64) :
    LoongArch64Instruction.shift5.writeToValue extracted negative dest =
      write LoongArch64Instruction.shift5.immediate extracted dest := by
  have hpatch := @patch_eq_write 4 LoongArch64Instruction.shift5.immediate 0xFE00001F (by decide) (by decide)
    (by decide) extracted dest
  rw [← hpatch]
  unfold writeToValue
  rw [@shiftLeft_eq_put extracted 5 20 h (by decide), immediate, scatter, scatter]
  simp

theorem writeShift10_eq (h : ∀ i, 12 ≤ i → extracted.getLsbD i = false) (negative : Bool) (dest : BitVec 64) :
    LoongArch64Instruction.shift10.writeToValue extracted negative dest =
      write LoongArch64Instruction.shift10.immediate extracted dest := by
  have hpatch := @patch_eq_write 4 LoongArch64Instruction.shift10.immediate 0xFFC003FF (by decide) (by decide)
    (by decide) extracted dest
  rw [← hpatch]
  unfold writeToValue
  rw [@shiftLeft_eq_put extracted 10 12 h (by decide), immediate, scatter, scatter]
  simp

theorem bits_of_toNat_lt {v : BitVec 64} {n : Nat} (h : v.toNat < 2 ^ n) {i : Nat} (hi : n ≤ i) :
    v.getLsbD i = false :=
  Nat.testBit_lt_two_pow (Nat.lt_of_lt_of_le h (Nat.pow_le_pow_right (by decide) hi))

end LoongArch64Instruction

end Reld
