import Reld.Reloc.Written

/-!
# `Reloc.Pcala` — LoongArch64 addresses in four parts

`pcalau12i` and `addi.d` reach 2 GiB around the place. For the whole address space `lu32i.d` and `lu52i.d` add
the upper parts, which are rounded for what the sign extensions of the lower parts take away. The distance is that
of the page of the first instruction, which the upper parts have to find from their own places.
-/

namespace Reld

open BitFields

/-! ## The four relocations -/

/-- The types `R_LARCH_PCALA_…`. -/
inductive PcalaType where
  | hi20
  | lo12
  | lo20
  | hi12
deriving DecidableEq, Repr

/-- `highest_relocation_with_bias` -/
def highestRelocationWithBias (symbolWithAddend pc : BitVec 64) : BitVec 64 :=
  ((symbolWithAddend + size2GB + (if symbolWithAddend &&& size2KB ≠ 0 then size4KB - size4GB else 0)) &&&
    ~~~ pageMask4KB) - ((pc - 8) &&& ~~~ pageMask4KB)

namespace PcalaType

def rType : PcalaType → LoongArch64RelocationType
  | .hi20 => .pcalaHi20
  | .lo12 => .pcalaLo12
  | .lo20 => .pcala64Lo20
  | .hi12 => .pcala64Hi12

def mask : PcalaType → Option PageMask
  | .hi20 => some (.symbolPlusAddendAndPosition pageMask4KB)
  | _     => none

def bias : PcalaType → BitVec 64
  | .hi20 => size2KB
  | _     => 0

/-- The value of the relocation: of the kinds `Relative`, `AbsoluteLowPart` and `RelativeLoongArchHigh`. -/
def value (type : PcalaType) (symbolWithAddend place : BitVec 64) : BitVec 64 :=
  let mask := getPageMask type.mask
  match type with
  | .hi20 => ((symbolWithAddend + type.bias) &&& mask.symbolPlusAddend) - (place &&& mask.place)
  | .lo12 => symbolWithAddend &&& mask.symbolPlusAddend
  | .lo20 | .hi12 => highestRelocationWithBias symbolWithAddend place

/-- The relocation applied to the instruction at a place. -/
def apply (type : PcalaType) (symbolWithAddend place dest : BitVec 64) : Option (BitVec 64) :=
  type.rType.info.writeToBuffer (type.value symbolWithAddend place) dest

end PcalaType

/-- The instructions of a sequence, as they are before and after the link. -/
structure PcalaInsns where
  pcalau12i : BitVec 64
  addiD : BitVec 64
  lu32iD : BitVec 64
  lu52iD : BitVec 64
deriving DecidableEq, Repr

/-- All four relocations, at four places in a row. -/
def applyPcala (symbolWithAddend place : BitVec 64) (dest : PcalaInsns) : Option PcalaInsns := do
  let pcalau12i ← PcalaType.hi20.apply symbolWithAddend place dest.pcalau12i
  let addiD ← PcalaType.lo12.apply symbolWithAddend (place + 4) dest.addiD
  let lu32iD ← PcalaType.lo20.apply symbolWithAddend (place + 8) dest.lu32iD
  let lu52iD ← PcalaType.hi12.apply symbolWithAddend (place + 12) dest.lu52iD
  return { pcalau12i := pcalau12i, addiD := addiD, lu32iD := lu32iD, lu52iD := lu52iD }

/-! ## The processor -/

def imm20 (insn : BitVec 64) : BitVec 20 := insn.extractLsb' 5 20
def imm12 (insn : BitVec 64) : BitVec 12 := insn.extractLsb' 10 12

/-- The page of the place and a signed number of pages. -/
def execPcalau12i (insn place : BitVec 64) : BitVec 64 :=
  (place &&& ~~~ pageMask4KB) + (imm20 insn ++ 0#12).signExtend 64

def execAddiD (insn register : BitVec 64) : BitVec 64 := register + (imm12 insn).signExtend 64

/-- The upper half is replaced by a signed number. -/
def execLu32iD (insn register : BitVec 64) : BitVec 64 := (imm20 insn).signExtend 32 ++ register.extractLsb' 0 32

/-- The twelve upper bits are replaced. -/
def execLu52iD (insn register : BitVec 64) : BitVec 64 := imm12 insn ++ register.extractLsb' 0 52

/-- The first two instructions alone. -/
def nearAddress (place pcalau12i addiD : BitVec 64) : BitVec 64 := execAddiD addiD (execPcalau12i pcalau12i place)

/-- The extreme code model: the page in one register, all other parts in another, added up. -/
def extremeAddress (place : BitVec 64) (insns : PcalaInsns) : BitVec 64 :=
  execPcalau12i insns.pcalau12i place +
    execLu52iD insns.lu52iD (execLu32iD insns.lu32iD (execAddiD insns.addiD 0))

/-! ## What is written -/

/-- A selection of twenty bits as a number. -/
theorem imm20_extracted {value : BitVec 64} {start : Nat} (hs : start + 20 ≤ 64) (negative : Bool) (dest : BitVec 64) :
    (imm20 (LoongArch64Instruction.shift5.writeToValue (extractBitRange value start (start + 20)) negative dest)).toNat =
      value.toNat / 2 ^ start % 2 ^ 20 := by
  have hout : ∀ i, 20 ≤ i → (extractBitRange value start (start + 20)).getLsbD i = false := by
    intro i hi
    rw [getLsbD_extractBitRange hs, decide_eq_false (by omega), Bool.false_and]
  rw [imm20, LoongArch64Instruction.writeShift5_eq hout, LoongArch64Instruction.immediate, extract_write (by decide),
    BitVec.toNat_setWidth, toNat_extractBitRange hs, Nat.add_sub_cancel_left, Nat.mod_mod]

theorem imm12_extracted {value : BitVec 64} {start : Nat} (hs : start + 12 ≤ 64) (negative : Bool) (dest : BitVec 64) :
    (imm12 (LoongArch64Instruction.shift10.writeToValue (extractBitRange value start (start + 12)) negative dest)).toNat =
      value.toNat / 2 ^ start % 2 ^ 12 := by
  have hout : ∀ i, 12 ≤ i → (extractBitRange value start (start + 12)).getLsbD i = false := by
    intro i hi
    rw [getLsbD_extractBitRange hs, decide_eq_false (by omega), Bool.false_and]
  rw [imm12, LoongArch64Instruction.writeShift10_eq hout, LoongArch64Instruction.immediate, extract_write (by decide),
    BitVec.toNat_setWidth, toNat_extractBitRange hs, Nat.add_sub_cancel_left, Nat.mod_mod]

/-! ## The processor in numbers -/

theorem toNat_execPcalau12i (insn place : BitVec 64) :
    (execPcalau12i insn place).toNat =
      (place.toNat / 2 ^ 12 * 2 ^ 12 + (if (imm20 insn).toNat < 2 ^ 19 then (imm20 insn).toNat * 2 ^ 12
        else (imm20 insn).toNat * 2 ^ 12 + (2 ^ 64 - 2 ^ 32))) % 2 ^ 64 := by
  have happ : (imm20 insn ++ 0#12).toNat = (imm20 insn).toNat * 2 ^ 12 := by
    rw [BitVec.toNat_append, BitVec.toNat_ofNat, Nat.zero_mod, Nat.or_zero, Nat.shiftLeft_eq]
  unfold execPcalau12i
  rw [BitVec.toNat_add, toNat_page, BitVec.toNat_signExtend, BitVec.msb_eq_decide, happ, BitVec.toNat_setWidth, happ]
  by_cases hneg : (imm20 insn).toNat < 2 ^ 19
  · rw [if_pos hneg, decide_eq_false (by omega), if_neg (by decide)]
    omega
  · rw [if_neg hneg, decide_eq_true (by omega), if_pos rfl]
    omega

theorem toNat_execAddiD (insn register : BitVec 64) :
    (execAddiD insn register).toNat =
      (register.toNat + (if (imm12 insn).toNat < 2 ^ 11 then (imm12 insn).toNat
        else (imm12 insn).toNat + (2 ^ 64 - 2 ^ 12))) % 2 ^ 64 := by
  unfold execAddiD
  rw [BitVec.toNat_add, BitVec.toNat_signExtend, BitVec.msb_eq_decide, BitVec.toNat_setWidth]
  by_cases hneg : (imm12 insn).toNat < 2 ^ 11
  · rw [if_pos hneg, decide_eq_false (by omega), if_neg (by decide)]
    omega
  · rw [if_neg hneg, decide_eq_true (by omega), if_pos rfl]
    omega

/-- The upper parts in the second register. What `lu32i.d` has put above 52 bits is replaced. -/
theorem toNat_upperParts (lu52iD lu32iD register : BitVec 64) :
    (execLu52iD lu52iD (execLu32iD lu32iD register)).toNat =
      (imm12 lu52iD).toNat * 2 ^ 52 + (imm20 lu32iD).toNat * 2 ^ 32 + register.toNat % 2 ^ 32 := by
  have happ : ∀ {n m : Nat} (a : BitVec n) (b : BitVec m), (a ++ b).toNat = a.toNat * 2 ^ m + b.toNat := by
    intro n m a b
    rw [BitVec.toNat_append, ← Nat.shiftLeft_add_eq_or_of_lt b.isLt, Nat.shiftLeft_eq]
  unfold execLu52iD execLu32iD
  rw [happ, BitVec.extractLsb'_toNat, happ, BitVec.extractLsb'_toNat, BitVec.toNat_signExtend, BitVec.toNat_setWidth]
  have hmod : (imm20 lu32iD).toNat % 2 ^ 32 = (imm20 lu32iD).toNat := Nat.mod_eq_of_lt (by omega)
  split <;> omega

/-! ## The values in numbers -/

theorem and_size2KB_ne_zero (x : BitVec 64) : x &&& size2KB ≠ 0 ↔ 2 ^ 11 ≤ x.toNat % 2 ^ 12 := by
  have hbit : ∀ i < 64, size2KB.getLsbD i = decide (i = 11) := by decide
  have htest : x.getLsbD 11 = true ↔ 2 ^ 11 ≤ x.toNat % 2 ^ 12 := by
    rw [BitVec.getLsbD, Nat.testBit, Nat.shiftRight_eq_div_pow, Nat.one_and_eq_mod_two, bne_iff_ne]
    omega
  rw [← htest]
  constructor
  · intro hne
    by_contra hoff
    refine hne (BitVec.eq_of_getLsbD_eq fun i hi => ?_)
    rw [BitVec.getLsbD_and, hbit i hi, BitVec.ofNat_eq_ofNat, BitVec.getLsbD_zero]
    by_cases h11 : i = 11
    · rw [h11, Bool.eq_false_iff.mpr hoff, Bool.false_and]
    · rw [decide_eq_false h11, Bool.and_false]
  · intro hon hzero
    have h11 := congrArg (·.getLsbD 11) hzero
    simp only [BitVec.getLsbD_and, hon] at h11
    exact absurd h11 (by decide)

/-- The pages between the place and the rounded target. -/
theorem toNat_hi20_value (symbolWithAddend place : BitVec 64) :
    (PcalaType.hi20.value symbolWithAddend place).toNat =
      ((symbolWithAddend.toNat + 2 ^ 11) / 2 ^ 12 + (2 ^ 52 - place.toNat / 2 ^ 12)) % 2 ^ 52 * 2 ^ 12 := by
  have h1 : (symbolWithAddend + size2KB).toNat = (symbolWithAddend.toNat + 2 ^ 11) % 2 ^ 64 := by
    rfl
  change (((symbolWithAddend + size2KB) &&& ~~~ pageMask4KB) - (place &&& ~~~ pageMask4KB)).toNat = _
  rw [BitVec.toNat_sub, toNat_page, toNat_page, h1]
  omega

/-- The pages between a place eight bytes back and the target rounded for both sign extensions. -/
theorem toNat_highestRelocationWithBias (symbolWithAddend pc : BitVec 64) :
    (highestRelocationWithBias symbolWithAddend pc).toNat =
      ((symbolWithAddend.toNat + 2 ^ 11) / 2 ^ 12 +
        (if 2 ^ 11 ≤ symbolWithAddend.toNat % 2 ^ 12 then 2 ^ 52 + 2 ^ 19 - 2 ^ 20 else 2 ^ 19) +
        (2 ^ 52 - (pc - 8).toNat / 2 ^ 12)) % 2 ^ 52 * 2 ^ 12 := by
  have hsigned : (size4KB - size4GB).toNat = 2 ^ 64 + 2 ^ 12 - 2 ^ 32 := by decide
  have h2GB : size2GB.toNat = 2 ^ 31 := by decide
  unfold highestRelocationWithBias
  rw [BitVec.toNat_sub, toNat_page, toNat_page]
  by_cases hcarry : 2 ^ 11 ≤ symbolWithAddend.toNat % 2 ^ 12
  · rw [if_pos ((and_size2KB_ne_zero _).mpr hcarry), if_pos hcarry, BitVec.toNat_add, BitVec.toNat_add, hsigned, h2GB]
    omega
  · have hzero : symbolWithAddend + size2GB + 0 = symbolWithAddend + size2GB := by simp
    rw [if_neg (fun h => hcarry ((and_size2KB_ne_zero _).mp h)), if_neg hcarry, hzero, BitVec.toNat_add, h2GB]
    omega

/-! ## Accepted values -/

/-- Values that are not checked: all but the largest signed number, since the range is half-open. -/
theorem verify_noCheck {info : RelocationKindInfo} (hrange : info.range = .noCheck) (halign : info.alignment = 1)
    (value : BitVec 64) : info.verify value = true ↔ value.toInt ≠ 2 ^ 63 - 1 := by
  have hlo := BitVec.le_toInt value
  have hhi := @BitVec.toInt_lt 64 value
  unfold RelocationKindInfo.verify AllowedRange.contains
  rw [hrange, halign, Nat.mod_one, decide_eq_true rfl, Bool.true_and, decide_eq_true_eq]
  simp only [AllowedRange.noCheck]
  omega

/-- A whole number of pages is always accepted. -/
theorem page_accepted {value : BitVec 64} (h : value.toNat % 2 ^ 12 = 0) : value.toInt ≠ 2 ^ 63 - 1 := by
  have hval : value.toInt = if 2 * value.toNat < 2 ^ 64 then (value.toNat : Int) else value.toNat - 2 ^ 64 := rfl
  split at hval <;> omega

theorem pcala_info (type : PcalaType) : type.rType.info.range = .noCheck ∧ type.rType.info.alignment = 1 := by
  cases type <;> exact ⟨rfl, rfl⟩

/-- What `applyPcala` writes if it accepts. -/
def pcalaWords (symbolWithAddend place : BitVec 64) (dest : PcalaInsns) : PcalaInsns :=
  let write (type : PcalaType) (place dest : BitVec 64) :=
    let value := type.value symbolWithAddend place
    type.rType.info.instruction.writeToValue (type.rType.info.extracted value) value.msb dest
  { pcalau12i := write .hi20 place dest.pcalau12i
    addiD := write .lo12 (place + 4) dest.addiD
    lu32iD := write .lo20 (place + 8) dest.lu32iD
    lu52iD := write .hi12 (place + 12) dest.lu52iD }

theorem PcalaType.apply_eq (type : PcalaType) (symbolWithAddend place dest : BitVec 64)
    (h : (type.value symbolWithAddend place).toInt ≠ 2 ^ 63 - 1) :
    type.apply symbolWithAddend place dest = some (type.rType.info.instruction.writeToValue
      (type.rType.info.extracted (type.value symbolWithAddend place)) (type.value symbolWithAddend place).msb dest) := by
  obtain ⟨hrange, halign⟩ := pcala_info type
  unfold PcalaType.apply RelocationKindInfo.writeToBuffer
  rw [if_pos ((verify_noCheck hrange halign _).mpr h)]

theorem highest_accepted (symbolWithAddend pc : BitVec 64) :
    (highestRelocationWithBias symbolWithAddend pc).toInt ≠ 2 ^ 63 - 1 := by
  refine page_accepted ?_
  rw [toNat_highestRelocationWithBias]
  omega

theorem lo12_value (symbolWithAddend place : BitVec 64) : PcalaType.lo12.value symbolWithAddend place = symbolWithAddend :=
  BitVec.and_allOnes

/-- **Every address but one is accepted.** -/
theorem applyPcala_eq_some_iff (symbolWithAddend place : BitVec 64) (dest words : PcalaInsns) :
    applyPcala symbolWithAddend place dest = some words ↔
      symbolWithAddend.toInt ≠ 2 ^ 63 - 1 ∧ words = pcalaWords symbolWithAddend place dest := by
  have hhi20 : (PcalaType.hi20.value symbolWithAddend place).toInt ≠ 2 ^ 63 - 1 := by
    refine page_accepted ?_
    rw [toNat_hi20_value]
    omega
  have h0 := PcalaType.apply_eq .hi20 symbolWithAddend place dest.pcalau12i hhi20
  have h2 := PcalaType.apply_eq .lo20 symbolWithAddend (place + 8) dest.lu32iD (highest_accepted _ _)
  have h3 := PcalaType.apply_eq .hi12 symbolWithAddend (place + 12) dest.lu52iD (highest_accepted _ _)
  unfold applyPcala
  by_cases hmax : symbolWithAddend.toInt = 2 ^ 63 - 1
  · have h1 : PcalaType.lo12.apply symbolWithAddend (place + 4) dest.addiD = none := by
      unfold PcalaType.apply RelocationKindInfo.writeToBuffer
      rw [if_neg]
      rw [verify_noCheck (pcala_info .lo12).1 (pcala_info .lo12).2, lo12_value]
      exact fun h => h hmax
    rw [h0, h1]
    exact iff_of_false nofun (fun h => h.1 hmax)
  · have h1 := PcalaType.apply_eq .lo12 symbolWithAddend (place + 4) dest.addiD (by rw [lo12_value]; exact hmax)
    rw [h0, h1, h2, h3]
    constructor
    · intro h
      exact ⟨hmax, (Option.some.inj h).symm⟩
    · rintro ⟨-, rfl⟩
      rfl

/-! ## The sums -/

/-- The immediates of the four instructions. -/
theorem pcalaWords_imm (symbolWithAddend place : BitVec 64) (dest : PcalaInsns) :
    let words := pcalaWords symbolWithAddend place dest
    (imm20 words.pcalau12i).toNat = (PcalaType.hi20.value symbolWithAddend place).toNat / 2 ^ 12 % 2 ^ 20 ∧
      (imm12 words.addiD).toNat = symbolWithAddend.toNat % 2 ^ 12 ∧
      (imm20 words.lu32iD).toNat = (highestRelocationWithBias symbolWithAddend (place + 8)).toNat / 2 ^ 32 % 2 ^ 20 ∧
      (imm12 words.lu52iD).toNat = (highestRelocationWithBias symbolWithAddend (place + 12)).toNat / 2 ^ 52 % 2 ^ 12 := by
  refine ⟨?_, ?_, ?_, ?_⟩
  · exact @imm20_extracted (PcalaType.hi20.value symbolWithAddend place) 12 (by decide)
      (PcalaType.hi20.value symbolWithAddend place).msb dest.pcalau12i
  · have h := @imm12_extracted (PcalaType.lo12.value symbolWithAddend (place + 4)) 0 (by decide)
      (PcalaType.lo12.value symbolWithAddend (place + 4)).msb dest.addiD
    rw [Nat.pow_zero, Nat.div_one] at h
    refine Eq.trans h ?_
    rw [lo12_value]
  · exact @imm20_extracted (highestRelocationWithBias symbolWithAddend (place + 8)) 32 (by decide)
      (highestRelocationWithBias symbolWithAddend (place + 8)).msb dest.lu32iD
  · exact @imm12_extracted (highestRelocationWithBias symbolWithAddend (place + 12)) 52 (by decide)
      (highestRelocationWithBias symbolWithAddend (place + 12)).msb dest.lu52iD

/-- A signed number of pages and a signed offset in numbers, from the page of the place on. -/
theorem near_sum {target place pages : Nat} (ht : target < 2 ^ 64) (hp : place < 2 ^ 64)
    (hpages : pages = ((target + 2 ^ 11) / 2 ^ 12 + (2 ^ 52 - place / 2 ^ 12)) % 2 ^ 52) :
    ((place / 2 ^ 12 * 2 ^ 12 + (if pages % 2 ^ 20 < 2 ^ 19 then pages % 2 ^ 20 * 2 ^ 12
        else pages % 2 ^ 20 * 2 ^ 12 + (2 ^ 64 - 2 ^ 32))) % 2 ^ 64 +
      (if target % 2 ^ 12 < 2 ^ 11 then target % 2 ^ 12 else target % 2 ^ 12 + (2 ^ 64 - 2 ^ 12))) % 2 ^ 64 = target ↔
    pages < 2 ^ 19 ∨ 2 ^ 52 - 2 ^ 19 ≤ pages := by
  by_cases hneg : pages % 2 ^ 20 < 2 ^ 19
  · rw [if_pos hneg]
    by_cases hlow : target % 2 ^ 12 < 2 ^ 11
    · rw [if_pos hlow]
      omega
    · rw [if_neg hlow]
      omega
  · rw [if_neg hneg]
    by_cases hlow : target % 2 ^ 12 < 2 ^ 11
    · rw [if_pos hlow]
      omega
    · rw [if_neg hlow]
      omega

/-- The signed middle part and the upper parts, of pages, make up the distance: `c` is whether the low part is
    negative. -/
theorem upper_pages {pages upper c s : Nat} (hp : pages < 2 ^ 52)
    (hs : s = if pages % 2 ^ 20 < 2 ^ 19 then pages % 2 ^ 20 else pages % 2 ^ 20 + (2 ^ 52 - 2 ^ 20))
    (hupper : upper = (pages + 2 ^ 19 + c * (2 ^ 52 - 2 ^ 20)) % 2 ^ 52) :
    (s + upper / 2 ^ 20 * 2 ^ 20 + c * 2 ^ 20) % 2 ^ 52 = pages := by
  split at hs <;> omega

/-- All parts together, from the page of the place on. -/
theorem sum_of_pages {t p pages upper uppermost c s : Nat} (ht : t < 2 ^ 52) (hp : p < 2 ^ 52)
    (hpages : pages = (t + c + (2 ^ 52 - p)) % 2 ^ 52)
    (hupper : (s + upper / 2 ^ 20 * 2 ^ 20 + c * 2 ^ 20) % 2 ^ 52 = pages) (hlt : upper < 2 ^ 52)
    (hmost : uppermost < 2 ^ 12) :
    (p + s + uppermost * 2 ^ 40 + upper / 2 ^ 20 % 2 ^ 20 * 2 ^ 20 + c * (2 ^ 20 - 1)) % 2 ^ 52 = t ↔
      uppermost = upper / 2 ^ 40 := by
  have hsplit : upper / 2 ^ 20 = upper / 2 ^ 40 * 2 ^ 20 + upper / 2 ^ 20 % 2 ^ 20 := by omega
  have hbase : (p + s + upper / 2 ^ 20 * 2 ^ 20 + c * (2 ^ 20 - 1)) % 2 ^ 52 = t := by omega
  omega

/-- All four parts in numbers. The upper parts take back what the sign extensions have added. -/
theorem extreme_sum {target place pages upper uppermost : Nat} (ht : target < 2 ^ 64) (hp : place < 2 ^ 64)
    (hpages : pages = ((target + 2 ^ 11) / 2 ^ 12 + (2 ^ 52 - place / 2 ^ 12)) % 2 ^ 52)
    (hupper : upper = ((target + 2 ^ 11) / 2 ^ 12 +
      (if 2 ^ 11 ≤ target % 2 ^ 12 then 2 ^ 52 + 2 ^ 19 - 2 ^ 20 else 2 ^ 19) + (2 ^ 52 - place / 2 ^ 12)) % 2 ^ 52)
    (huppermost : uppermost < 2 ^ 12) :
    ((place / 2 ^ 12 * 2 ^ 12 + (if pages % 2 ^ 20 < 2 ^ 19 then pages % 2 ^ 20 * 2 ^ 12
        else pages % 2 ^ 20 * 2 ^ 12 + (2 ^ 64 - 2 ^ 32))) % 2 ^ 64 +
      (uppermost * 2 ^ 52 + upper / 2 ^ 20 % 2 ^ 20 * 2 ^ 32 +
        (if target % 2 ^ 12 < 2 ^ 11 then target % 2 ^ 12 else target % 2 ^ 12 + (2 ^ 64 - 2 ^ 12)) % 2 ^ 32)) % 2 ^ 64 =
      target ↔ uppermost = upper / 2 ^ 40 := by
  obtain ⟨t, l, rfl, hl⟩ : ∃ t l, target = t * 2 ^ 12 + l ∧ l < 2 ^ 12 := ⟨target / 2 ^ 12, target % 2 ^ 12, by omega⟩
  obtain ⟨c, hc⟩ : ∃ c, c = if 2 ^ 11 ≤ l then 1 else 0 := ⟨_, rfl⟩
  obtain ⟨s, hs⟩ : ∃ s, s = if pages % 2 ^ 20 < 2 ^ 19 then pages % 2 ^ 20
      else pages % 2 ^ 20 + (2 ^ 52 - 2 ^ 20) := ⟨_, rfl⟩
  have hpage : place / 2 ^ 12 < 2 ^ 52 := by omega
  have hmod : (t * 2 ^ 12 + l) % 2 ^ 12 = l := by omega
  have hround : (t * 2 ^ 12 + l + 2 ^ 11) / 2 ^ 12 = t + c := by
    split at hc <;> omega
  have hlow : (if l < 2 ^ 11 then l else l + (2 ^ 64 - 2 ^ 12)) % 2 ^ 32 = c * (2 ^ 20 - 1) * 2 ^ 12 + l := by
    split at hc
    · rw [if_neg (by omega)]
      omega
    · rw [if_pos (by omega)]
      omega
  have hhigh : (if pages % 2 ^ 20 < 2 ^ 19 then pages % 2 ^ 20 * 2 ^ 12
      else pages % 2 ^ 20 * 2 ^ 12 + (2 ^ 64 - 2 ^ 32)) = s * 2 ^ 12 := by
    split at hs
    · rw [if_pos (by omega), hs]
    · rw [if_neg (by omega), hs]
      omega
  rw [hround] at hpages hupper
  have hshift : upper = (pages + 2 ^ 19 + c * (2 ^ 52 - 2 ^ 20)) % 2 ^ 52 := by
    split at hc
    · rw [if_pos (by omega)] at hupper
      omega
    · rw [if_neg (by omega)] at hupper
      omega
  have hsum := sum_of_pages (by omega) hpage hpages (upper_pages (by omega) hs hshift) (by omega) huppermost
  rw [hmod, hlow, hhigh, ← hsum]
  omega

/-- **The first two instructions** reach the target if it is within 2 GiB of the page. -/
theorem nearAddress_iff (symbolWithAddend place : BitVec 64) (dest : PcalaInsns) :
    nearAddress place (pcalaWords symbolWithAddend place dest).pcalau12i
        (pcalaWords symbolWithAddend place dest).addiD = symbolWithAddend ↔
      -(2 ^ 31) ≤ (PcalaType.hi20.value symbolWithAddend place).toInt ∧
        (PcalaType.hi20.value symbolWithAddend place).toInt < 2 ^ 31 := by
  obtain ⟨h20, h12, -, -⟩ := pcalaWords_imm symbolWithAddend place dest
  have hpages := toNat_hi20_value symbolWithAddend place
  generalize PcalaType.hi20.value symbolWithAddend place = pages at h20 hpages ⊢
  have hval : pages.toInt = if 2 * pages.toNat < 2 ^ 64 then (pages.toNat : Int) else pages.toNat - 2 ^ 64 := rfl
  generalize hcount : ((symbolWithAddend.toNat + 2 ^ 11) / 2 ^ 12 + (2 ^ 52 - place.toNat / 2 ^ 12)) % 2 ^ 52 = count
    at hpages
  have hsum := near_sum symbolWithAddend.isLt place.isLt hcount.symm
  unfold nearAddress
  rw [← BitVec.toNat_inj, toNat_execAddiD, toNat_execPcalau12i, h20, h12, hpages, Nat.mul_div_cancel _ (by decide), hsum,
    hval, hpages]
  split <;> omega

/-- The four parts as numbers: only the uppermost one can be wrong. -/
theorem extremeAddress_iff_upper (symbolWithAddend place : BitVec 64) (dest : PcalaInsns) :
    extremeAddress place (pcalaWords symbolWithAddend place dest) = symbolWithAddend ↔
      (highestRelocationWithBias symbolWithAddend (place + 12)).toNat / 2 ^ 52 =
        (highestRelocationWithBias symbolWithAddend (place + 8)).toNat / 2 ^ 52 := by
  obtain ⟨h20, h12, hlo20, hhi12⟩ := pcalaWords_imm symbolWithAddend place dest
  have hpages := toNat_hi20_value symbolWithAddend place
  have hupper := toNat_highestRelocationWithBias symbolWithAddend (place + 8)
  rw [BitVec.add_sub_cancel] at hupper
  generalize hcount : ((symbolWithAddend.toNat + 2 ^ 11) / 2 ^ 12 + (2 ^ 52 - place.toNat / 2 ^ 12)) % 2 ^ 52 = count
    at hpages
  generalize hcount' : ((symbolWithAddend.toNat + 2 ^ 11) / 2 ^ 12 +
    (if 2 ^ 11 ≤ symbolWithAddend.toNat % 2 ^ 12 then 2 ^ 52 + 2 ^ 19 - 2 ^ 20 else 2 ^ 19) +
      (2 ^ 52 - place.toNat / 2 ^ 12)) % 2 ^ 52 = count' at hupper
  have hmost : (highestRelocationWithBias symbolWithAddend (place + 12)).toNat / 2 ^ 52 < 2 ^ 12 := by
    omega
  have hsum := extreme_sum symbolWithAddend.isLt place.isLt hcount.symm hcount'.symm hmost
  have hzero : (0 : BitVec 64).toNat = 0 := rfl
  have hlow : ∀ n : Nat, (0 + n) % 2 ^ 64 % 2 ^ 32 = n % 2 ^ 32 := by omega
  have hmid : count' * 2 ^ 12 / 2 ^ 32 = count' / 2 ^ 20 := by omega
  have htop : count' * 2 ^ 12 / 2 ^ 52 = count' / 2 ^ 40 := by omega
  unfold extremeAddress
  rw [← BitVec.toNat_inj, BitVec.toNat_add, toNat_upperParts, toNat_execAddiD, toNat_execPcalau12i, h20, h12, hlo20,
    hhi12, hpages, Nat.mul_div_cancel _ (by decide), Nat.mod_eq_of_lt hmost, hupper, hzero, hlow, hmid, htop, hsum]

/-- The uppermost part is that of the first instruction's page, though it is counted from the page of `place + 4`. -/
def UppermostAgrees (symbolWithAddend place : BitVec 64) : Prop :=
  (place + 4) &&& ~~~ pageMask4KB = place &&& ~~~ pageMask4KB ∨
    extractBitRange (highestRelocationWithBias symbolWithAddend (place + 8)) 0 52 ≠ 0

theorem uppermost_eq_iff (symbolWithAddend place : BitVec 64) :
    (highestRelocationWithBias symbolWithAddend (place + 12)).toNat / 2 ^ 52 =
        (highestRelocationWithBias symbolWithAddend (place + 8)).toNat / 2 ^ 52 ↔
      UppermostAgrees symbolWithAddend place := by
  have h8 := toNat_highestRelocationWithBias symbolWithAddend (place + 8)
  have h12 := toNat_highestRelocationWithBias symbolWithAddend (place + 12)
  have hplace : place + 12 - 8 = place + 4 := by
    rw [BitVec.sub_eq_iff_eq_add, BitVec.add_assoc]
    rfl
  have hnext : (place + 4).toNat = (place.toNat + 4) % 2 ^ 64 := by
    rfl
  rw [BitVec.add_sub_cancel] at h8
  rw [hplace, hnext] at h12
  unfold UppermostAgrees
  rw [← BitVec.toNat_inj, toNat_page, toNat_page, hnext, ne_eq, ← BitVec.toNat_inj, toNat_extractBitRange (by decide),
    Nat.pow_zero, Nat.div_one]
  have hzero : (0 : BitVec 64).toNat = 0 := rfl
  -- a page that is crossed takes one page off the distance
  by_cases hcross : (place.toNat + 4) % 2 ^ 64 / 2 ^ 12 = place.toNat / 2 ^ 12
  · rw [hcross] at h12 ⊢
    rw [h8, h12]
    exact iff_of_true rfl (Or.inl rfl)
  · have hpage : (place.toNat + 4) % 2 ^ 64 / 2 ^ 12 = (place.toNat / 2 ^ 12 + 1) % 2 ^ 52 := by omega
    have hp : place.toNat / 2 ^ 12 < 2 ^ 52 := by omega
    generalize place.toNat / 2 ^ 12 = p at *
    omega

/-- **The extreme code model.** Exactly when the sequence is accepted and reaches the target. -/
theorem extremeAddress_iff (symbolWithAddend place : BitVec 64) (dest : PcalaInsns) :
    (∃ words, applyPcala symbolWithAddend place dest = some words ∧ extremeAddress place words = symbolWithAddend) ↔
      symbolWithAddend.toInt ≠ 2 ^ 63 - 1 ∧ UppermostAgrees symbolWithAddend place := by
  constructor
  · rintro ⟨words, happly, hsum⟩
    obtain ⟨hmax, rfl⟩ := (applyPcala_eq_some_iff _ _ _ _).mp happly
    exact ⟨hmax, (uppermost_eq_iff _ _).mp ((extremeAddress_iff_upper _ _ _).mp hsum)⟩
  · rintro ⟨hmax, hupper⟩
    exact ⟨_, (applyPcala_eq_some_iff _ _ _ _).mpr ⟨hmax, rfl⟩,
      (extremeAddress_iff_upper _ _ _).mpr ((uppermost_eq_iff _ _).mpr hupper)⟩

/-- **Addresses in parts.** The whole sequence reaches every target, as long as its uppermost part is counted from the
    right page. The types of the first two instructions accept what they cannot reach. -/
theorem pcala_reaches :
    (∀ symbolWithAddend place dest, symbolWithAddend.toInt ≠ 2 ^ 63 - 1 → UppermostAgrees symbolWithAddend place →
      ∃ words, applyPcala symbolWithAddend place dest = some words ∧
        extremeAddress place words = symbolWithAddend) ∧
    (∀ symbolWithAddend place pcalau12i addiD pcalau12i' addiD',
      PcalaType.hi20.apply symbolWithAddend place pcalau12i = some pcalau12i' →
      PcalaType.lo12.apply symbolWithAddend (place + 4) addiD = some addiD' →
        (nearAddress place pcalau12i' addiD' = symbolWithAddend ↔
          -(2 ^ 31) ≤ (PcalaType.hi20.value symbolWithAddend place).toInt ∧
            (PcalaType.hi20.value symbolWithAddend place).toInt < 2 ^ 31)) := by
  refine ⟨fun _ _ _ hmax hupper => (extremeAddress_iff _ _ _).mpr ⟨hmax, hupper⟩, ?_⟩
  intro symbolWithAddend place pcalau12i addiD pcalau12i' addiD' h0 h1
  obtain ⟨-, rfl⟩ := RelocationKindInfo.writeToBuffer_eq_some h0
  obtain ⟨-, rfl⟩ := RelocationKindInfo.writeToBuffer_eq_some h1
  exact nearAddress_iff symbolWithAddend place { pcalau12i := pcalau12i, addiD := addiD, lu32iD := 0, lu52iD := 0 }

/-- The instructions of the sequence, before the link. -/
def pcalaSequence : PcalaInsns :=
  { pcalau12i := 0x1a000004, addiD := 0x02c00005, lu32iD := 0x16000005, lu52iD := 0x030000a5 }

/-- A target with all parts negative. -/
theorem pcala_reaches_top :
    ∃ words, applyPcala 0xffffffff80000800 0x120000000 pcalaSequence = some words ∧
      extremeAddress 0x120000000 words = 0xffffffff80000800 :=
  pcala_reaches.1 0xffffffff80000800 0x120000000 pcalaSequence (by decide) (by unfold UppermostAgrees; decide)

/-- Two instructions alone are accepted for a target 4 GiB away, and end up at the place itself. -/
theorem pcala_near_misses :
    ¬ ((∀ symbolWithAddend place dest, ∃ words, applyPcala symbolWithAddend place dest = some words ∧
        extremeAddress place words = symbolWithAddend) ∧
      (∀ symbolWithAddend place pcalau12i addiD pcalau12i' addiD',
        PcalaType.hi20.apply symbolWithAddend place pcalau12i = some pcalau12i' →
        PcalaType.lo12.apply symbolWithAddend (place + 4) addiD = some addiD' →
          nearAddress place pcalau12i' addiD' = symbolWithAddend)) := by
  intro h
  have hnear := h.2 0x120000000 0x20000000 0x1a000004 0x02c00084 0x1a000004 0x02c00084 (by decide) (by decide)
  exact absurd hnear (by decide)

end Reld
