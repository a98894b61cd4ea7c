import Mathlib.Tactic.LinearCombination
import Reld.MachO.Relocations

/-!
# `MachO.Fields` — what the fields of relocations denote

A field denotes an address, its page or its offset in the page. The pages of `adrp` and the distance of a branch are
combined with what is in the instruction already, an offset and a pointer take its place.
-/

namespace Reld

/-- What two words have in common is what their sum has too much. -/
theorem or_add_and {w : Nat} (x y : BitVec w) : (x ||| y) + (x &&& y) = x + y := by
  have hzero (a b : BitVec w) (c : BitVec w) : (a &&& c) &&& (b &&& ~~~c) = 0#w := by
    refine BitVec.eq_of_getLsbD_eq fun i hi => ?_
    simp only [BitVec.getLsbD_and, BitVec.getLsbD_not, BitVec.getLsbD_zero, decide_eq_true hi, Bool.true_and]
    cases c.getLsbD i <;> simp
  have hor : x ||| y = x + (y &&& ~~~x) := by
    have h := hzero x y x
    rw [BitVec.and_self] at h
    rw [BitVec.add_eq_or_of_and_eq_zero _ _ h]
    refine BitVec.eq_of_getLsbD_eq fun i hi => ?_
    simp only [BitVec.getLsbD_or, BitVec.getLsbD_and, BitVec.getLsbD_not, decide_eq_true hi, Bool.true_and]
    cases x.getLsbD i <;> simp
  have hsplit : (y &&& ~~~x) + (x &&& y) = y := by
    rw [BitVec.add_comm, BitVec.and_comm x y, BitVec.add_eq_or_of_and_eq_zero _ _ (hzero y y x)]
    refine BitVec.eq_of_getLsbD_eq fun i hi => ?_
    simp only [BitVec.getLsbD_or, BitVec.getLsbD_and, BitVec.getLsbD_not, decide_eq_true hi, Bool.true_and]
    cases x.getLsbD i <;> simp
  rw [hor, BitVec.add_assoc, hsplit]

end Reld

namespace Reld.MachO

/-! ## Reading a field -/

/-- The page of an address. -/
def page (address : BitVec 64) : BitVec 64 := address &&& ~~~pageMask4KB

namespace RelocationInfo

/-- What is in the field of a relocation: a pointer, or the immediate of an instruction. -/
def stored (rel : RelocationInfo) (word : BitVec 64) : BitVec 64 :=
  let insn := word.setWidth 32
  match rel.rType with
  | .unsigned => (word.setWidth (8 * 2 ^ rel.rLength.val)).signExtend 64
  | .page21 | .gotLoadPage21 => (immAdr insn ++ 0#12).signExtend 64
  | .pageoff12 | .gotLoadPageoff12 => (immAdd insn).setWidth 64 <<< pageOffsetScale insn
  | _ => (imm26 insn ++ 0#2).signExtend 64

/-- A pointer of one, two, four or eight bytes, as it reads afterwards. -/
def pointerTo (rel : RelocationInfo) (place address : BitVec 64) : BitVec 64 :=
  let bits := 8 * 2 ^ rel.rLength.val
  if rel.rPcrel then place + ((address - place).setWidth bits).signExtend 64 else (address.setWidth bits).setWidth 64

/-- The address that a field denotes, or as much of it as the field is for. -/
def denoted (rel : RelocationInfo) (place word : BitVec 64) : BitVec 64 :=
  match rel.rType with
  | .unsigned =>
    if rel.rPcrel then place + rel.stored word else (word.setWidth (8 * 2 ^ rel.rLength.val)).setWidth 64
  | .page21 | .gotLoadPage21 => page place + rel.stored word
  | .pageoff12 | .gotLoadPageoff12 => rel.stored word
  | _ => place + rel.stored word

/-- What the field is for: a page, an offset in it, or the whole address. -/
def part (rel : RelocationInfo) (address : BitVec 64) : BitVec 64 :=
  match rel.rType with
  | .page21 | .gotLoadPage21 => page address
  | .pageoff12 | .gotLoadPageoff12 => address &&& pageMask4KB
  | _ => address

/-- From the place to an address. Without `r_pcrel` it is taken for the distance. -/
def distance (rel : RelocationInfo) (place address : BitVec 64) : BitVec 64 :=
  match rel.rType with
  | .page21 => if rel.rPcrel then page address - page place else page address
  | .gotLoadPage21 => page address - page place
  | _ => if rel.rPcrel then address - place else address

end RelocationInfo

/-- The offset in the page, in multiples of what the instruction at the place accesses. -/
def scaledOffset (dest address : BitVec 64) : BitVec 64 :=
  let scale := pageOffsetScale (dest.setWidth 32)
  ((address &&& pageMask4KB) >>> scale) <<< scale

/-! ## Written fields -/

/-- What an instruction with an immediate that is combined reads afterwards. -/
theorem append_or {len low : Nat} (x y : BitVec len) :
    ((x ||| y) ++ BitVec.ofNat low 0).signExtend 64 = (x ++ BitVec.ofNat low 0).signExtend 64 ||| (y ++ BitVec.ofNat low 0).signExtend 64 := by
  have h : (x ||| y) ++ BitVec.ofNat low 0 = (x ++ BitVec.ofNat low 0) ||| (y ++ BitVec.ofNat low 0) := by
    rw [BitVec.or_append, BitVec.or_self]
  rw [h, BitVec.signExtend_or]

variable {value : BitVec 64}

theorem jumpCall_stored (halign : value.toNat % 4 = 0) (hlo : -(2 ^ 27) ≤ value.toInt) (hhi : value.toInt < 2 ^ 27)
    (negative : Bool) (dest : BitVec 64) :
    let word := AArch64Instruction.jumpCall.writeToValue (extractBitRange value 2 28) negative dest
    (imm26 (word.setWidth 32) ++ 0#2).signExtend 64 = (imm26 (dest.setWidth 32) ++ 0#2).signExtend 64 ||| value := by
  have hold : imm26 (dest.setWidth 32) = (extractBitRange dest 0 26).setWidth 26 := by
    refine BitVec.eq_of_getLsbD_eq fun i hi => ?_
    unfold imm26
    rw [BitVec.getLsbD_extractLsb', BitVec.getLsbD_setWidth, BitVec.getLsbD_setWidth,
      getLsbD_extractBitRange (by decide), decide_eq_true hi, decide_eq_true (show 0 + i < 32 by omega)]
  intro word
  rw [(branch_fields value dest negative).2, BitVec.setWidth_or, append_or, ← hold, displacement_eq halign hlo hhi]

theorem adr_stored (halign : value.toNat % 2 ^ 12 = 0) (hlo : -(2 ^ 32) ≤ value.toInt) (hhi : value.toInt < 2 ^ 32)
    (negative : Bool) (dest : BitVec 64) :
    let word := AArch64Instruction.adr.writeToValue (extractBitRange value 12 33) negative dest
    (immAdr (word.setWidth 32) ++ 0#12).signExtend 64 = (immAdr (dest.setWidth 32) ++ 0#12).signExtend 64 ||| value := by
  intro word
  have hcut : ∀ i, 21 ≤ i → (extractBitRange value 12 33).getLsbD i = false := by
    intro i hi
    rw [getLsbD_extractBitRange (by decide), decide_eq_false (by omega), Bool.false_and]
  have hbit : ∀ i < 32, (word.setWidth 32).getLsbD i = ((dest.setWidth 32).getLsbD i ||
      (decide (29 ≤ i ∧ i < 31) && (extractBitRange value 12 33).getLsbD (i - 29)) ||
        (decide (5 ≤ i ∧ i < 24) && (extractBitRange value 12 33).getLsbD (i - 3))) := by
    intro i hi
    rw [BitVec.getLsbD_setWidth, BitVec.getLsbD_setWidth, decide_eq_true hi, Bool.true_and, Bool.true_and]
    exact AArch64Instruction.getLsbD_writeAdr hcut dest negative i
  generalize word.setWidth 32 = insn at hbit ⊢
  generalize dest.setWidth 32 = old at hbit ⊢
  have himm : immAdr insn = immAdr old ||| (extractBitRange value 12 33).setWidth 21 := by
    refine BitVec.eq_of_getLsbD_eq fun i hi => ?_
    unfold immAdr
    rw [BitVec.getLsbD_or, BitVec.getLsbD_append, BitVec.getLsbD_append, BitVec.getLsbD_extractLsb',
      BitVec.getLsbD_extractLsb', BitVec.getLsbD_extractLsb', BitVec.getLsbD_extractLsb', BitVec.getLsbD_setWidth,
      decide_eq_true hi, Bool.true_and]
    by_cases h2 : i < 2
    · rw [if_pos h2, if_pos h2, decide_eq_true h2, Bool.true_and, Bool.true_and, hbit _ (by omega),
        decide_eq_true (by omega), decide_eq_false (by omega), Nat.add_sub_cancel_left, Bool.true_and, Bool.false_and,
        Bool.or_false]
    · rw [if_neg h2, if_neg h2, decide_eq_true (by omega), Bool.true_and, Bool.true_and, hbit _ (by omega),
        decide_eq_false (by omega), decide_eq_true (by omega), show 5 + (i - 2) - 3 = i by omega, Bool.true_and,
        Bool.false_and, Bool.or_false]
  rw [himm, append_or, @extractBitRange_signExtend 12 21 32 rfl (by decide) _ halign hlo hhi]

/-- The scale is in the bits behind the immediate. -/
theorem pageOffsetScale_congr {a b : BitVec 32} (h : ∀ i, 22 ≤ i → i < 32 → a.getLsbD i = b.getLsbD i) :
    pageOffsetScale a = pageOffsetScale b := by
  have hand (m : BitVec 32) (hm : ∀ i < 22, m.getLsbD i = false) : a &&& m = b &&& m := by
    refine BitVec.eq_of_getLsbD_eq fun i hi => ?_
    rw [BitVec.getLsbD_and, BitVec.getLsbD_and]
    by_cases h22 : i < 22
    · rw [hm i h22, Bool.and_false, Bool.and_false]
    · rw [h i (by omega) hi]
  have hshift : a >>> 30 = b >>> 30 := by
    refine BitVec.eq_of_getLsbD_eq fun i hi => ?_
    rw [BitVec.getLsbD_ushiftRight, BitVec.getLsbD_ushiftRight]
    by_cases h32 : 30 + i < 32
    · exact h _ (by omega) h32
    · rw [BitVec.getLsbD_of_ge _ _ (by omega), BitVec.getLsbD_of_ge _ _ (by omega)]
  unfold pageOffsetScale
  rw [hand _ (by decide), hand _ (by decide), hshift]

/-- The field is cleared, and the scale is that of the instruction before. -/
theorem machOLow12_offset {offset : BitVec 64} (hlow : ∀ i, 12 ≤ i → offset.getLsbD i = false) (dest : BitVec 64) :
    let insn := (writeMachOLow12 offset dest).setWidth 32
    let scale := pageOffsetScale (dest.setWidth 32)
    (immAdd insn).setWidth 64 <<< pageOffsetScale insn = (offset >>> scale) <<< scale := by
  intro insn scale
  have hmask : ∀ i < 32, (~~~((0xfff : BitVec 64) <<< 10)).getLsbD i = !decide (10 ≤ i ∧ i < 22) := by decide
  have hlow4 : lowBytes 4 offset = offset := by
    refine BitVec.eq_of_getLsbD_eq fun i hi => ?_
    rw [getLsbD_lowBytes]
    by_cases h12 : 12 ≤ i
    · rw [hlow i h12, Bool.and_false]
    · rw [decide_eq_true (by omega), Bool.true_and]
  have hbit : ∀ i < 32, insn.getLsbD i =
      if 10 ≤ i ∧ i < 22 then (offset >>> scale).getLsbD (i - 10) else (dest.setWidth 32).getLsbD i := by
    intro i hi
    change ((orFromSlice 4 (andFromSlice 4 dest (~~~((0xfff : BitVec 64) <<< 10)))
      ((lowBytes 4 offset >>> scale) <<< 10)).setWidth 32).getLsbD i = _
    have hzero : ∀ j, 12 ≤ j → (offset >>> scale).getLsbD j = false := by
      intro j hj
      rw [BitVec.getLsbD_ushiftRight, hlow _ (by omega)]
    unfold orFromSlice andFromSlice
    rw [hlow4, BitVec.getLsbD_setWidth, BitVec.getLsbD_setWidth, BitVec.getLsbD_or, BitVec.getLsbD_and, BitVec.getLsbD_or,
      hmask i hi, BitVec.getLsbD_not, getLsbD_lowBytes, getLsbD_lowBytes, BitVec.getLsbD_allOnes, BitVec.getLsbD_shiftLeft,
      decide_eq_true hi, decide_eq_true (show i < 64 by omega)]
    by_cases h10 : 10 ≤ i
    · by_cases h22 : i < 22
      · rw [if_pos ⟨h10, h22⟩, decide_eq_true (show 10 ≤ i ∧ i < 22 from ⟨h10, h22⟩),
          decide_eq_false (show ¬ i < 10 by omega)]
        simp
      · rw [if_neg (by omega), decide_eq_false (show ¬ (10 ≤ i ∧ i < 22) by omega), hzero _ (by omega)]
        simp
    · rw [if_neg (by omega), decide_eq_false (show ¬ (10 ≤ i ∧ i < 22) by omega), decide_eq_true (show i < 10 by omega)]
      simp
  have hscale : pageOffsetScale insn = scale := by
    refine pageOffsetScale_congr fun i h22 h32 => ?_
    rw [hbit i h32, if_neg (by omega)]
  have himm : (immAdd insn).setWidth 64 = offset >>> scale := by
    refine BitVec.eq_of_getLsbD_eq fun i hi => ?_
    unfold immAdd
    rw [BitVec.getLsbD_setWidth, BitVec.getLsbD_extractLsb', decide_eq_true hi, Bool.true_and]
    by_cases h12 : i < 12
    · rw [decide_eq_true h12, Bool.true_and, hbit _ (by omega), if_pos (by omega), Nat.add_sub_cancel_left]
    · rw [decide_eq_false h12, Bool.false_and, BitVec.getLsbD_ushiftRight, hlow _ (by omega)]
  rw [hscale, himm]

theorem machOLow12_stored (address dest : BitVec 64) :
    let insn := (writeMachOLow12 (extractBitRange address 0 12) dest).setWidth 32
    (immAdd insn).setWidth 64 <<< pageOffsetScale insn = scaledOffset dest address := by
  have hmask : ∀ i < 64, pageMask4KB.getLsbD i = decide (i < 12) := by decide
  have hoffset : extractBitRange address 0 12 = address &&& pageMask4KB := by
    refine BitVec.eq_of_getLsbD_eq fun i hi => ?_
    rw [getLsbD_extractBitRange (by decide), BitVec.getLsbD_and, hmask i hi, Nat.zero_add, Bool.and_comm, Nat.sub_zero]
  have hlow : ∀ i, 12 ≤ i → (extractBitRange address 0 12).getLsbD i = false := by
    intro i hi
    rw [getLsbD_extractBitRange (by decide), decide_eq_false (by omega), Bool.false_and]
  intro insn
  rw [machOLow12_offset hlow dest, hoffset]
  rfl

theorem byteSize_stored {bytes : Nat} (hb : bytes ≤ 8) (value dest : BitVec 64) :
    ((dest &&& ~~~lowBytes bytes (BitVec.allOnes 64)) ||| lowBytes bytes value).setWidth (8 * bytes) =
      value.setWidth (8 * bytes) := by
  refine BitVec.eq_of_getLsbD_eq fun i hi => ?_
  rw [BitVec.getLsbD_setWidth, BitVec.getLsbD_setWidth, BitVec.getLsbD_or, BitVec.getLsbD_and, BitVec.getLsbD_not,
    getLsbD_lowBytes, getLsbD_lowBytes, BitVec.getLsbD_allOnes, decide_eq_true hi, decide_eq_true (show i < 64 by omega)]
  simp

/-! ## What is denoted -/

theorem toNat_page_sub (a b : BitVec 64) : (page a - page b).toNat % 2 ^ 12 = 0 := by
  have ha := toNat_page a
  have hb := toNat_page b
  have hlt := (page b).isLt
  unfold page at hlt ⊢
  rw [BitVec.toNat_sub, ha, hb]
  omega

variable {info : RelocationKindInfo}

theorem verify_eq_true (h : info.verify value = true) :
    value.toNat % info.alignment = 0 ∧ info.range.min ≤ value.toInt ∧ value.toInt < info.range.max := by
  unfold RelocationKindInfo.verify AllowedRange.contains at h
  rw [Bool.and_eq_true, decide_eq_true_eq, decide_eq_true_eq] at h
  exact ⟨h.1, h.2.1, h.2.2⟩

variable {place address dest word : BitVec 64} {rel : RelocationInfo}

theorem unsigned_written (htype : rel.rType = .unsigned) (hinfo : relocationFromRaw rel = some info)
    (hwrite : info.writeToBuffer (info.value address place) dest = some word) :
    rel.denoted place word = rel.pointerTo place address := by
  have hlength : rel.rLength.val ≤ 3 := by omega
  have hb : 2 ^ rel.rLength.val ≤ 8 := Nat.pow_le_pow_right (by decide : 0 < 2) hlength
  obtain ⟨hsize, hvalue⟩ : info.size = .byteSize (2 ^ rel.rLength.val) ∧
      info.value address place = if rel.rPcrel then address - place else address := by
    simp only [relocationFromRaw, htype, Option.some_inj] at hinfo
    subst hinfo
    cases rel.rPcrel
    · exact ⟨rfl, BitVec.and_allOnes⟩
    · exact ⟨rfl, congrArg₂ (· - ·) BitVec.and_allOnes BitVec.and_allOnes⟩
  unfold RelocationKindInfo.writeToBuffer at hwrite
  rw [hvalue, hsize] at hwrite
  by_cases hv : info.verify (if rel.rPcrel then address - place else address) = true
  · rw [if_pos hv] at hwrite
    obtain rfl := Option.some.inj hwrite
    unfold RelocationInfo.denoted RelocationInfo.pointerTo RelocationInfo.stored
    simp only [htype]
    rw [byteSize_stored hb]
    cases rel.rPcrel <;> rfl
  · rw [if_neg hv] at hwrite
    cases hwrite

theorem writeToBuffer_eq_some {instruction : FieldInstruction} {start stop : Nat}
    (hsize : info.size = .bitMasking instruction start stop) {value dest word : BitVec 64}
    (hwrite : info.writeToBuffer value dest = some word) :
    info.verify value = true ∧ word = instruction.writeToValue (extractBitRange value start stop) value.msb dest := by
  unfold RelocationKindInfo.writeToBuffer at hwrite
  rw [hsize] at hwrite
  by_cases hv : info.verify value = true
  · rw [if_pos hv] at hwrite
    exact ⟨hv, (Option.some.inj hwrite).symm⟩
  · rw [if_neg hv] at hwrite
    cases hwrite

theorem branch_written (htype : rel.rType = .branch26) (hinfo : relocationFromRaw rel = some info)
    (hwrite : info.writeToBuffer (info.value address place) dest = some word) :
    rel.denoted place word = place + (rel.stored dest ||| rel.distance place address) := by
  obtain ⟨hsize, hrange, halignment, hvalue⟩ : info.size = .bitMasking .jumpCall 2 28 ∧
      info.range = .fromBitSize 28 .signed ∧ info.alignment = 4 ∧ info.value address place = rel.distance place address := by
    simp only [relocationFromRaw, htype, Option.some_inj] at hinfo
    subst hinfo
    refine ⟨rfl, rfl, rfl, ?_⟩
    unfold RelocationKindInfo.value RelocationInfo.distance
    cases rel.rPcrel <;> simp only [htype]
    · exact BitVec.and_allOnes
    · exact congrArg₂ (· - ·) BitVec.and_allOnes BitVec.and_allOnes
  obtain ⟨hv, rfl⟩ := writeToBuffer_eq_some hsize hwrite
  obtain ⟨halign, hmin, hmax⟩ := verify_eq_true hv
  rw [hvalue, halignment] at halign
  rw [hvalue, hrange] at hmin hmax
  unfold RelocationInfo.denoted RelocationInfo.stored
  simp only [htype]
  rw [hvalue]
  exact congrArg (place + ·) (jumpCall_stored halign hmin hmax (rel.distance place address).msb dest)

/-- The instructions that take a number of pages. -/
theorem adr_written (htype : rel.rType = .page21 ∨ rel.rType = .gotLoadPage21)
    (hinfo : relocationFromRaw rel = some info)
    (hwrite : info.writeToBuffer (info.value address place) dest = some word) :
    rel.denoted place word = page place + (rel.stored dest ||| rel.distance place address) := by
  obtain ⟨hsize, hrange, hvalue⟩ : info.size = .bitMasking .adr 12 33 ∧ info.range = .fromBitSize 33 .signed ∧
      info.value address place = rel.distance place address := by
    unfold RelocationKindInfo.value RelocationInfo.distance
    obtain htype | htype := htype <;> simp only [relocationFromRaw, htype, Option.some_inj] at hinfo <;> subst hinfo
    · cases rel.rPcrel <;> exact ⟨rfl, rfl, by simp only [htype]; rfl⟩
    · exact ⟨rfl, rfl, by simp only [htype]; rfl⟩
  obtain ⟨hv, rfl⟩ := writeToBuffer_eq_some hsize hwrite
  obtain ⟨-, hmin, hmax⟩ := verify_eq_true hv
  rw [hrange, hvalue] at hmin hmax
  have halign : (rel.distance place address).toNat % 2 ^ 12 = 0 := by
    have hpage : (page address).toNat % 2 ^ 12 = 0 := by
      unfold page
      rw [toNat_page]
      omega
    have hsub := toNat_page_sub address place
    unfold RelocationInfo.distance
    obtain htype | htype := htype <;> simp only [htype]
    · cases rel.rPcrel
      · exact hpage
      · exact hsub
    · exact hsub
  unfold RelocationInfo.denoted RelocationInfo.stored
  obtain htype | htype := htype <;> simp only [htype] <;> rw [hvalue] <;>
    exact congrArg (page place + ·) (adr_stored halign hmin hmax (rel.distance place address).msb dest)

theorem machOLow12_written (htype : rel.rType = .pageoff12 ∨ rel.rType = .gotLoadPageoff12)
    (hinfo : relocationFromRaw rel = some info)
    (hwrite : info.writeToBuffer (info.value address place) dest = some word) :
    rel.denoted place word = scaledOffset dest address := by
  obtain ⟨hsize, hvalue⟩ : info.size = .bitMasking .machOLow12 0 12 ∧ info.value address place = address := by
    obtain htype | htype := htype <;> simp only [relocationFromRaw, htype, Option.some_inj] at hinfo <;> subst hinfo <;>
      exact ⟨rfl, BitVec.and_allOnes⟩
  obtain ⟨-, rfl⟩ := writeToBuffer_eq_some hsize hwrite
  unfold RelocationInfo.denoted RelocationInfo.stored
  obtain htype | htype := htype <;> simp only [htype] <;> rw [hvalue] <;> exact machOLow12_stored address dest

end Reld.MachO
