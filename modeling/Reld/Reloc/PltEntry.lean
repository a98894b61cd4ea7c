import Reld.Lib.IndirectJump
import Reld.Lib.X86
import Reld.Reloc.Pcala
import Reld.Reloc.RiscVPairs
import Reld.Reloc.Thunks

/-!
# `Reloc.PltEntry` — entries of the PLT

An entry jumps to what its slot of the GOT holds. The distance to the slot is written into a template of sixteen
bytes; two of the four architectures check it. On RISC-V a distance close to 2 GiB becomes negative, and on LoongArch64
the pages in between run into the opcode.
-/

namespace Reld

open IndirectJump BitFields

/-! ## Writing -/

/-- Four instructions of four bytes. -/
structure PltWords where
  first : BitVec 64
  second : BitVec 64
  third : BitVec 64
  fourth : BitVec 64
deriving DecidableEq, Repr

namespace X86Plt

/-- `PLT_ENTRY_TEMPLATE`: `endbr64`, `bnd jmp` and `nopl` -/
def template : List (BitVec 8) :=
  [0xf3, 0x0f, 0x1e, 0xfa, 0xf2, 0xff, 0x25, 0x0, 0x0, 0x0, 0x0, 0x0f, 0x1f, 0x44, 0x0, 0x0]

/-- `write_plt_entry` -/
def writePltEntry (gotAddress pltAddress : BitVec 64) : Option X86.Bytes :=
  let offset := gotAddress - (pltAddress + 0xb)
  if -(2 ^ 31) ≤ offset.toInt ∧ offset.toInt < 2 ^ 31 then
    some (X86.writeBytes (template.getD · 0) 7 (X86.littleEndian 4 offset))
  else none

end X86Plt

namespace AArch64Plt

/-- `PLT_ENTRY_TEMPLATE`: `adrp x16`, `ldr x17, [x16]`, `br x17` and `nop` -/
def template : PltWords := { first := 0x90000010, second := 0xf9400211, third := 0xd61f0220, fourth := 0xd503201f }

/-- `write_plt_entry` -/
def writePltEntry (gotAddress pltAddress : BitVec 64) : Option PltWords :=
  let pltPageAddress := pltAddress &&& ~~~ pageMask4KB
  let offset := gotAddress - pltPageAddress
  if offset < 1 <<< 32 then
    some { template with
      first := AArch64Instruction.adr.writeToValue (offset / size4KB) false template.first
      second := AArch64Instruction.ldrRegister.writeToValue ((offset &&& pageMask4KB) / 8) false template.second }
  else none

end AArch64Plt

namespace RiscV64Plt

/-- `PLT_ENTRY_TEMPLATE`: `auipc t3`, `ld t3, 0(t3)`, `jalr t1, t3` and `ebreak` -/
def template : PltWords := { first := 0x00000e17, second := 0x000e3e03, third := 0x000e0367, fourth := 0x00100073 }

/-- `write_plt_entry`: the first two instructions are written as a pair of eight bytes. -/
def writePltEntry (gotAddress pltAddress : BitVec 64) : PltWords :=
  let pair := RiscVInstruction.uiType.writeToValue (gotAddress - pltAddress) false
    (template.second <<< 32 ||| template.first)
  { template with first := lowBytes 4 pair, second := pair >>> 32 }

end RiscV64Plt

namespace LoongArch64Plt

/-- `PLT_ENTRY_TEMPLATE`: `pcalau12i $t3`, `ld.d $t3, $t3`, `jirl $t1, $t3` and `break` -/
def template : PltWords := { first := 0x1a00000f, second := 0x28c001ef, third := 0x4c0001ed, fourth := 0x002a0000 }

/-- `write_plt_entry` -/
def writePltEntry (gotAddress pltAddress : BitVec 64) : PltWords :=
  let pcalaHi20 := ((((gotAddress + size2KB) &&& ~~~ pageMask4KB) - (pltAddress &&& ~~~ pageMask4KB)) >>> 12) <<< 5
  let pcalaLo12 := (gotAddress &&& 0xfff) <<< 10
  { template with
    first := orFromSlice 4 template.first pcalaHi20
    second := orFromSlice 4 template.second pcalaLo12 }

end LoongArch64Plt

/-! ## The processors -/

namespace X86Plt

/-- `endbr64`, and a jump through a word at a distance from the next instruction. -/
def decode (bytes : X86.Bytes) (place : BitVec 64) (start : Nat) : Option (Insn (BitVec 5)) :=
  if (bytes start, bytes (start + 1), bytes (start + 2), bytes (start + 3)) = (0xf3, 0x0f, 0x1e, 0xfa) then some .skip
  else if (bytes start, bytes (start + 1), bytes (start + 2)) = (0xf2, 0xff, 0x25) then
    some (.jumpThrough (place + 7 + (X86.field32 bytes (start + 3)).signExtend 64))
  else none

end X86Plt

namespace AArch64Plt

/-- `ldr` of 64 bits with an unsigned offset -/
def isLdr (insn : BitVec 32) : Bool := insn.extractLsb' 22 10 == 0b1111100101

def decode (insn : BitVec 32) (place : BitVec 64) : Option (Insn (BitVec 5)) :=
  if isAdrp insn then some (.set (rd insn) ((place &&& ~~~ pageMask4KB) + (immAdr insn ++ 0#12).signExtend 64))
  else if isLdr insn then some (.load (rd insn) (rn insn) ((immAdd insn).setWidth 64 * 8))
  else if isBr insn then some (.jump (rn insn) 0 (BitVec.allOnes 64))
  else none

end AArch64Plt

namespace RiscV64Plt

/-- `jalr` clears the lowest bit. -/
def jumpMask : BitVec 64 := ~~~ 1

/-- `auipc`, `ld` and `jalr`; their destination is not register zero here. -/
def decode (word place : BitVec 64) : Option (Insn (BitVec 5)) :=
  let opcode := word.extractLsb' 0 7
  let rd := word.extractLsb' 7 5
  let funct3 := word.extractLsb' 12 3
  let rs1 := word.extractLsb' 15 5
  if opcode = 0b0010111 then some (.set rd (place + immU word))
  else if opcode = 0b0000011 ∧ funct3 = 0b011 then some (.load rd rs1 (immI word))
  else if opcode = 0b1100111 ∧ funct3 = 0 then some (.jump rs1 (immI word) jumpMask)
  else none

end RiscV64Plt

namespace LoongArch64Plt

/-- `pcalau12i`, `ld.d` and `jirl`. The other instructions that a changed opcode can make of the first one do not put
the page of the slot into a register. -/
def decode (word place : BitVec 64) : Option (Insn (BitVec 5)) :=
  let rd := word.extractLsb' 0 5
  let rj := word.extractLsb' 5 5
  if word.extractLsb' 25 7 = 0b0001101 then some (.set rd (execPcalau12i word place))
  else if word.extractLsb' 22 10 = 0b0010100011 then some (.load rd rj ((imm12 word).signExtend 64))
  else if word.extractLsb' 26 6 = 0b010011 then
    some (.jump rj ((word.extractLsb' 10 16 ++ 0#2).signExtend 64) (BitVec.allOnes 64))
  else none

end LoongArch64Plt

/-- The architectures with a PLT. -/
inductive PltArch where
  | x86_64
  | aarch64
  | riscv64
  | loongarch64
deriving DecidableEq, Repr

namespace PltArch

/-- The instructions of a written entry; `none` is an error. -/
def entryCode (gotAddress pltAddress : BitVec 64) : PltArch → Option (List (Option (Insn (BitVec 5))))
  | .x86_64      => (X86Plt.writePltEntry gotAddress pltAddress).map fun bytes =>
    [X86Plt.decode bytes pltAddress 0, X86Plt.decode bytes (pltAddress + 4) 4]
  | .aarch64     => (AArch64Plt.writePltEntry gotAddress pltAddress).map fun words =>
    [AArch64Plt.decode (words.first.setWidth 32) pltAddress, AArch64Plt.decode (words.second.setWidth 32) (pltAddress + 4),
      AArch64Plt.decode (words.third.setWidth 32) (pltAddress + 8),
      AArch64Plt.decode (words.fourth.setWidth 32) (pltAddress + 12)]
  | .riscv64     =>
    let words := RiscV64Plt.writePltEntry gotAddress pltAddress
    some [RiscV64Plt.decode words.first pltAddress, RiscV64Plt.decode words.second (pltAddress + 4),
      RiscV64Plt.decode words.third (pltAddress + 8), RiscV64Plt.decode words.fourth (pltAddress + 12)]
  | .loongarch64 =>
    let words := LoongArch64Plt.writePltEntry gotAddress pltAddress
    some [LoongArch64Plt.decode words.first pltAddress, LoongArch64Plt.decode words.second (pltAddress + 4),
      LoongArch64Plt.decode words.third (pltAddress + 8), LoongArch64Plt.decode words.fourth (pltAddress + 12)]

/-- The bits of an address that a jump looks at. -/
def jumpMask : PltArch → BitVec 64
  | .riscv64 => RiscV64Plt.jumpMask
  | _        => BitVec.allOnes 64

/-- The distances that the instructions can express. -/
def Reaches (gotAddress pltAddress : BitVec 64) : PltArch → Prop
  | .x86_64 | .aarch64 => True
  | .riscv64 =>
    -(2 ^ 31) - 0x800 ≤ (gotAddress - pltAddress).toInt ∧ (gotAddress - pltAddress).toInt < 2 ^ 31 - 0x800
  | .loongarch64 =>
    ((gotAddress + size2KB) &&& ~~~ pageMask4KB) - (pltAddress &&& ~~~ pageMask4KB) < 1 <<< 31

end PltArch

/-! ## x86-64 and AArch64 -/

variable {gotAddress pltAddress : BitVec 64}

/-- The distance is checked, and counts from the instruction behind the jump. -/
theorem X86Plt.jumpsThrough {bytes : X86.Bytes} (h : writePltEntry gotAddress pltAddress = some bytes) :
    JumpsThrough [decode bytes pltAddress 0, decode bytes (pltAddress + 4) 4] gotAddress (BitVec.allOnes 64) := by
  unfold writePltEntry at h
  dsimp only at h
  split at h
  case isFalse => exact nomatch h
  case isTrue hrange =>
    obtain rfl := Option.some.inj h
    generalize hoffset : gotAddress - (pltAddress + 0xb) = offset at hrange
    have hfront : ∀ i < 7, X86.writeBytes (template.getD · 0) 7 (X86.littleEndian 4 offset) i = template.getD i 0 :=
      fun i hi => X86.writeBytes_outside _ (Or.inl hi)
    have hfield := X86.field32_writeBytes (template.getD · 0) 7 offset
    have hextend : (offset.setWidth 32).signExtend 64 = offset := by
      rw [← BitVec.toInt_inj, BitVec.toInt_signExtend_of_le (by decide), BitVec.toInt_setWidth]
      have hval : offset.toInt = if 2 * offset.toNat < 2 ^ 64 then (offset.toNat : Int) else offset.toNat - 2 ^ 64 := rfl
      simp only [Int.bmod]
      split at hval <;> omega
    have hslot : pltAddress + 4 + 7 + offset = gotAddress := by
      rw [← hoffset, BitVec.add_assoc pltAddress 4 7, BitVec.add_comm]
      exact BitVec.sub_add_cancel _ _
    generalize X86.writeBytes (template.getD · 0) 7 (X86.littleEndian 4 offset) = bytes at hfront hfield
    have hendbr : decode bytes pltAddress 0 = some .skip := by
      rw [decode, hfront 0 (by decide), hfront (0 + 1) (by decide), hfront (0 + 2) (by decide), hfront (0 + 3) (by decide)]
      rfl
    have hjmp : decode bytes (pltAddress + 4) 4 = some (.jumpThrough gotAddress) := by
      rw [decode, hfront 4 (by decide), hfront (4 + 1) (by decide), hfront (4 + 2) (by decide), hfield, hextend, hslot,
        if_neg (by simp [template]), if_pos (by rfl)]
    rw [hendbr, hjmp, jumpsThrough_skip, jumpsThrough_slot]

theorem toNat_pageOffset (address : BitVec 64) : (address &&& pageMask4KB).toNat = address.toNat % 2 ^ 12 := by
  have hmask : pageMask4KB.toNat = 2 ^ 12 - 1 := by decide
  rw [BitVec.toNat_and, hmask, Nat.and_two_pow_sub_one_eq_mod]

/-- The pages, with a sign that is never set, and the rest in words of eight bytes. -/
theorem AArch64Plt.sum_eq {offset : BitVec 64} (hoffset : gotAddress - (pltAddress &&& ~~~ pageMask4KB) = offset)
    (hrange : offset < 1 <<< 32) (halign : gotAddress.toNat % 8 = 0) :
    (pltAddress &&& ~~~ pageMask4KB) + (((offset / size4KB).setWidth 21 ++ 0#12).signExtend 64) +
      (((offset &&& pageMask4KB) / 8).setWidth 12).setWidth 64 * 8 = gotAddress := by
  have hlt : offset.toNat < 2 ^ 32 := hrange
  have hpage := toNat_page pltAddress
  have hval := congrArg BitVec.toNat hoffset
  rw [BitVec.toNat_sub, hpage] at hval
  have hcount : (offset / size4KB).toNat = offset.toNat / 2 ^ 12 := BitVec.toNat_udiv
  have happ : ((offset / size4KB).setWidth 21 ++ 0#12).toNat = offset.toNat / 2 ^ 12 * 2 ^ 12 := by
    rw [BitVec.toNat_append, BitVec.toNat_ofNat, Nat.zero_mod, Nat.or_zero, Nat.shiftLeft_eq, BitVec.toNat_setWidth,
      hcount, Nat.mod_eq_of_lt (by omega)]
  have hlow : (((offset &&& pageMask4KB) / 8).setWidth 12).setWidth 64 * 8 = offset &&& pageMask4KB := by
    refine BitVec.eq_of_toNat_eq ?_
    have hdiv : ((offset &&& pageMask4KB) / 8).toNat = offset.toNat % 2 ^ 12 / 8 := by
      rw [BitVec.toNat_udiv, toNat_pageOffset]
      rfl
    have height : (8 : BitVec 64).toNat = 8 := rfl
    rw [BitVec.toNat_mul, BitVec.toNat_setWidth, BitVec.toNat_setWidth, hdiv, toNat_pageOffset, height]
    omega
  refine BitVec.eq_of_toNat_eq ?_
  rw [hlow, BitVec.toNat_add, BitVec.toNat_add, hpage, toNat_pageOffset, BitVec.toNat_signExtend, BitVec.msb_eq_decide,
    BitVec.toNat_setWidth, happ, decide_eq_false (by omega), if_neg (by decide)]
  omega

/-- The distance from the page of the entry is checked. -/
theorem AArch64Plt.jumpsThrough {words : PltWords} (h : writePltEntry gotAddress pltAddress = some words)
    (halign : gotAddress.toNat % 8 = 0) (code : List (Option (Insn (BitVec 5)))) :
    JumpsThrough (decode (words.first.setWidth 32) pltAddress :: decode (words.second.setWidth 32) (pltAddress + 4) ::
      decode (words.third.setWidth 32) (pltAddress + 8) :: code) gotAddress (BitVec.allOnes 64) := by
  unfold writePltEntry at h
  dsimp only at h
  split at h
  case isFalse => exact nomatch h
  case isTrue hrange =>
    obtain rfl := Option.some.inj h
    have hsum := AArch64Plt.sum_eq rfl hrange halign
    generalize gotAddress - (pltAddress &&& ~~~ pageMask4KB) = offset at hrange hsum ⊢
    have hlt : offset.toNat < 2 ^ 32 := hrange
    have hcount : ∀ i, 21 ≤ i → (offset / size4KB).getLsbD i = false := fun i hi => by
      refine LoongArch64Instruction.bits_of_toNat_lt (n := 21) ?_ hi
      have hsize : size4KB.toNat = 2 ^ 12 := by decide
      rw [BitVec.toNat_udiv, hsize]
      omega
    have hlow : ∀ i, 12 ≤ i → ((offset &&& pageMask4KB) / 8).getLsbD i = false := fun i hi => by
      refine LoongArch64Instruction.bits_of_toNat_lt (n := 12) ?_ hi
      have hdiv := Nat.div_le_self (offset.toNat % 2 ^ 12) (8 : BitVec 64).toNat
      rw [BitVec.toNat_udiv, toNat_pageOffset]
      omega
    obtain ⟨-, hadrp, hrd, hpages⟩ := adrp_fields hcount
    obtain ⟨hconst, himm⟩ := @shift10_bits .ldrRegister (by decide) rfl _ 0xf9400211 hlow (by decide)
    have hfirst : decode ((AArch64Instruction.adr.writeToValue (offset / size4KB) false template.first).setWidth 32)
        pltAddress = some (.set 16 ((pltAddress &&& ~~~ pageMask4KB) +
          ((offset / size4KB).setWidth 21 ++ 0#12).signExtend 64)) := by
      unfold decode
      rw [show template.first = 0x90000010 from rfl, if_pos hadrp, hrd, hpages]
    have hsecond : decode ((AArch64Instruction.ldrRegister.writeToValue ((offset &&& pageMask4KB) / 8) false
        template.second).setWidth 32) (pltAddress + 4) =
          some (.load 17 16 ((((offset &&& pageMask4KB) / 8).setWidth 12).setWidth 64 * 8)) := by
      rw [show template.second = 0xf9400211 from rfl]
      generalize (AArch64Instruction.ldrRegister.writeToValue ((offset &&& pageMask4KB) / 8) false 0xf9400211).setWidth 32 =
        insn at hconst himm
      have hfield : ∀ start len, (start + len ≤ 10 ∨ 22 ≤ start) → start + len ≤ 32 →
          insn.extractLsb' start len = (0xf9400211 : BitVec 64).extractLsb' start len := fun start len hout hend =>
        extractLsb'_congr fun i hlo hhi => hconst i (by omega) (by omega)
      have hnot : isAdrp insn = false := by
        unfold isAdrp
        rw [hfield 24 5 (by decide) (by decide)]
        exact Bool.and_eq_false_imp.2 fun h => absurd h (by decide)
      have hldr : isLdr insn = true := by
        unfold isLdr
        rw [hfield 22 10 (by decide) (by decide)]
        decide
      unfold decode
      rw [hnot, if_neg Bool.false_ne_true, if_pos hldr, himm, rd, rn, hfield 0 5 (by decide) (by decide),
        hfield 5 5 (by decide) (by decide)]
      rfl
    have hthird : decode (template.third.setWidth 32) (pltAddress + 8) = some (.jump 17 0 (BitVec.allOnes 64)) := rfl
    rw [hfirst, hsecond, hthird]
    exact (jumpsThrough_load (by decide)).2 hsum

/-! ## RISC-V -/

/-- A pair keeps all but its immediates. -/
theorem getLsbD_pair (value dest : BitVec 64) {i : Nat} (hi : i < 12 ∨ 32 ≤ i ∧ i < 52) :
    (RiscVInstruction.writeUiType value dest).getLsbD i = dest.getLsbD i := by
  have hupper : covers RiscVInstruction.uTypeFields i = false := by
    simp only [RiscVInstruction.uTypeFields, covers, List.any_cons, List.any_nil, Bool.or_false, BitField.holds,
      decide_eq_false_iff_not]
    omega
  have hfirst : (RiscVInstruction.writeUType value dest).getLsbD i = dest.getLsbD i := by
    rw [RiscVInstruction.writeUType_eq, write_outside (by decide) _ _ hupper]
  rw [RiscVInstruction.getLsbD_writeUiType _ _ (by omega)]
  by_cases h32 : i < 32
  · rw [if_pos h32, hfirst]
  · have hlower : covers RiscVInstruction.iTypeFields (i - 32) = false := by
      simp only [RiscVInstruction.iTypeFields, covers, List.any_cons, List.any_nil, Bool.or_false, BitField.holds,
        decide_eq_false_iff_not]
      omega
    rw [if_neg h32, RiscVInstruction.writeIType_eq, write_outside (by decide) _ _ hlower, BitVec.getLsbD_ushiftRight,
      Nat.add_sub_cancel' (Nat.le_of_not_lt h32), hfirst]

/-- The distance is not checked. -/
theorem RiscV64Plt.jumpsThrough_iff (code : List (Option (Insn (BitVec 5)))) :
    let words := writePltEntry gotAddress pltAddress
    JumpsThrough (decode words.first pltAddress :: decode words.second (pltAddress + 4) ::
      decode words.third (pltAddress + 8) :: code) gotAddress jumpMask ↔
      PltArch.Reaches gotAddress pltAddress .riscv64 := by
  have hsum := pair_sum_iff (gotAddress - pltAddress) (template.second <<< 32 ||| template.first)
  have hbits := fun i hi => @getLsbD_pair (gotAddress - pltAddress) (template.second <<< 32 ||| template.first) i hi
  intro words
  change _ ↔ -(2 ^ 31) - 0x800 ≤ (gotAddress - pltAddress).toInt ∧ (gotAddress - pltAddress).toInt < 2 ^ 31 - 0x800
  rw [← hsum]
  have hwords : words = { template with
      first := lowBytes 4 (RiscVInstruction.writeUiType (gotAddress - pltAddress) (template.second <<< 32 ||| template.first))
      second := RiscVInstruction.writeUiType (gotAddress - pltAddress) (template.second <<< 32 ||| template.first) >>> 32 } :=
    rfl
  clear_value words
  subst hwords
  generalize RiscVInstruction.writeUiType (gotAddress - pltAddress) (template.second <<< 32 ||| template.first) = pair
    at hbits ⊢
  have hlow : ∀ start len, start + len ≤ 32 → (lowBytes 4 pair).extractLsb' start len = pair.extractLsb' start len :=
    fun start len hend => extractLsb'_congr fun i _ hhi => by
      rw [getLsbD_lowBytes, decide_eq_true (by omega), Bool.true_and]
  have hpair : ∀ start len, (start + len ≤ 12 ∨ 32 ≤ start ∧ start + len ≤ 52) → pair.extractLsb' start len =
      (template.second <<< 32 ||| template.first).extractLsb' start len :=
    fun start len hin => extractLsb'_congr fun i hlo hhi => hbits i (by omega)
  have hshift : ∀ start len, (pair >>> 32).extractLsb' start len = pair.extractLsb' (32 + start) len := by
    intro start len
    refine BitVec.eq_of_getLsbD_eq fun i hi => ?_
    rw [BitVec.getLsbD_extractLsb', BitVec.getLsbD_extractLsb', BitVec.getLsbD_ushiftRight, Nat.add_assoc]
  have himm : immU (lowBytes 4 pair) = immU pair := by
    unfold immU
    rw [hlow 12 20 (by decide)]
  have hfirst : decode (lowBytes 4 pair) pltAddress = some (.set 28 (pltAddress + immU pair)) := by
    unfold decode
    rw [hlow 0 7 (by decide), hlow 7 5 (by decide), hpair 0 7 (by decide), hpair 7 5 (by decide), himm]
    rfl
  have hsecond : decode (pair >>> 32) (pltAddress + 4) = some (.load 28 28 (immI (pair >>> 32))) := by
    unfold decode
    rw [hshift 0 7, hshift 7 5, hshift 12 3, hshift 15 5, hpair (32 + 0) 7 (by decide), hpair (32 + 7) 5 (by decide),
      hpair (32 + 12) 3 (by decide), hpair (32 + 15) 5 (by decide)]
    rfl
  have hthird : decode template.third (pltAddress + 8) = some (.jump 28 0 jumpMask) := rfl
  rw [hfirst, hsecond, hthird, jumpsThrough_load (by decide), BitVec.add_assoc, BitVec.eq_sub_iff_add_eq, BitVec.add_comm]

/-! ## LoongArch64 -/

/-- The pages, as they are before the range of the immediate is looked at. -/
def LoongArch64Plt.pages (gotAddress pltAddress : BitVec 64) : BitVec 64 :=
  (((gotAddress + size2KB) &&& ~~~ pageMask4KB) - (pltAddress &&& ~~~ pageMask4KB)) >>> 12

theorem LoongArch64Plt.toNat_pages (gotAddress pltAddress : BitVec 64) :
    (pages gotAddress pltAddress).toNat =
      ((gotAddress.toNat + 2 ^ 11) / 2 ^ 12 + (2 ^ 52 - pltAddress.toNat / 2 ^ 12)) % 2 ^ 52 := by
  have hvalue := toNat_hi20_value gotAddress pltAddress
  change (((gotAddress + size2KB) &&& ~~~ pageMask4KB) - (pltAddress &&& ~~~ pageMask4KB)).toNat = _ at hvalue
  rw [pages, BitVec.toNat_ushiftRight, hvalue, Nat.shiftRight_eq_div_pow, Nat.mul_div_cancel _ (by decide)]

theorem LoongArch64Plt.reaches_iff (gotAddress pltAddress : BitVec 64) :
    PltArch.Reaches gotAddress pltAddress .loongarch64 ↔ (pages gotAddress pltAddress).toNat < 2 ^ 19 := by
  have hvalue := toNat_hi20_value gotAddress pltAddress
  change (((gotAddress + size2KB) &&& ~~~ pageMask4KB) - (pltAddress &&& ~~~ pageMask4KB)).toNat = _ at hvalue
  change (((gotAddress + size2KB) &&& ~~~ pageMask4KB) - (pltAddress &&& ~~~ pageMask4KB)).toNat < 2 ^ 31 ↔ _
  rw [hvalue, toNat_pages]
  omega

/-- The first instruction: it is decoded if the pages leave its opcode as it is, and they do if there are few. -/
theorem LoongArch64Plt.decode_first {hi20 : BitVec 64} (place : BitVec 64) :
    let word := orFromSlice 4 template.first (hi20 <<< 5)
    imm20 word = hi20.setWidth 20 ∧
      (hi20.toNat < 2 ^ 19 → decode word place = some (.set 15 (execPcalau12i word place))) ∧
      (hi20.getLsbD 21 = true → decode word place = none) ∧
      (decode word place = none ∨ decode word place = some (.set 15 (execPcalau12i word place))) := by
  have hbit := fun i => AArch64Instruction.getLsbD_orFromSlice template.first hi20 5 i
  intro word
  change ∀ i, word.getLsbD i = _ at hbit
  clear_value word
  have hzero : ∀ i < 20, template.first.getLsbD (5 + i) = false := by decide
  have hrd : word.extractLsb' 0 5 = 15 := by
    have hconst : word.extractLsb' 0 5 = template.first.extractLsb' 0 5 := extractLsb'_congr fun i _ hhi => by
      rw [hbit, decide_eq_false (by omega), Bool.false_and, Bool.or_false]
    exact hconst.trans (by decide)
  -- a bit that the opcode has stays set, so that it can only become another opcode with more bits
  have hset : ∀ i, template.first.getLsbD i = true → word.getLsbD i = true := fun i h => by rw [hbit, h, Bool.true_or]
  have hnotLd : word.extractLsb' 22 10 ≠ 0b0010100011 := fun h => by
    have h25 := congrArg (·.getLsbD 3) h
    simp only [BitVec.getLsbD_extractLsb', hset (22 + 3) (by decide)] at h25
    exact absurd h25 (by decide)
  have hnotJirl : word.extractLsb' 26 6 ≠ 0b010011 := fun h => by
    have h28 := congrArg (·.getLsbD 2) h
    simp only [BitVec.getLsbD_extractLsb', hset (26 + 2) (by decide)] at h28
    exact absurd h28 (by decide)
  have hdecode : decode word place =
      if word.extractLsb' 25 7 = 0b0001101 then some (.set 15 (execPcalau12i word place)) else none := by
    unfold decode
    dsimp only
    rw [hrd, if_neg hnotLd, if_neg hnotJirl]
  refine ⟨?_, fun hfew => ?_, fun h21 => ?_, ?_⟩
  · refine BitVec.eq_of_getLsbD_eq fun i hi => ?_
    unfold imm20
    rw [BitVec.getLsbD_extractLsb', BitVec.getLsbD_setWidth, decide_eq_true hi, hbit, hzero i hi, decide_eq_true (by omega),
      Nat.add_sub_cancel_left, Bool.false_or, Bool.true_and]
  · have hop : word.extractLsb' 25 7 = template.first.extractLsb' 25 7 := extractLsb'_congr fun i hlo hhi => by
      rw [hbit, LoongArch64Instruction.bits_of_toNat_lt hfew (by omega), Bool.and_false, Bool.or_false]
    rw [hdecode, if_pos (hop.trans (by decide))]
  · rw [hdecode, if_neg fun h => ?_]
    have h26 := congrArg (·.getLsbD 1) h
    simp only [BitVec.getLsbD_extractLsb', hbit, h21, Nat.reduceAdd, Nat.reduceSub] at h26
    exact absurd h26 (by decide)
  · rw [hdecode]
    split
    · exact Or.inr rfl
    · exact Or.inl rfl

/-- The distance is not checked, and the pages are not cut off to the immediate. -/
theorem LoongArch64Plt.jumpsThrough_iff (code : List (Option (Insn (BitVec 5)))) :
    let words := writePltEntry gotAddress pltAddress
    JumpsThrough (decode words.first pltAddress :: decode words.second (pltAddress + 4) ::
      decode words.third (pltAddress + 8) :: code) gotAddress (BitVec.allOnes 64) ↔
      PltArch.Reaches gotAddress pltAddress .loongarch64 := by
  obtain ⟨h20, hfew, hmany, hcases⟩ := @decode_first (pages gotAddress pltAddress) pltAddress
  have hpages := toNat_pages gotAddress pltAddress
  have hbit := fun i => AArch64Instruction.getLsbD_orFromSlice template.second (gotAddress &&& 0xfff) 10 i
  have hlow : (gotAddress &&& 0xfff).toNat = gotAddress.toNat % 2 ^ 12 := toNat_pageOffset gotAddress
  intro words
  have hwords : words = { template with
      first := orFromSlice 4 template.first (pages gotAddress pltAddress <<< 5)
      second := orFromSlice 4 template.second ((gotAddress &&& 0xfff) <<< 10) } := rfl
  clear_value words
  subst hwords
  rw [reaches_iff]
  generalize orFromSlice 4 template.first (pages gotAddress pltAddress <<< 5) = first at *
  generalize orFromSlice 4 template.second ((gotAddress &&& 0xfff) <<< 10) = second at hbit ⊢
  have hhigh : ∀ i, 12 ≤ i → (gotAddress &&& 0xfff).getLsbD i = false := fun i hi =>
    LoongArch64Instruction.bits_of_toNat_lt (n := 12) (by omega) hi
  have hconst : ∀ start len, (start + len ≤ 10 ∨ 22 ≤ start) →
      second.extractLsb' start len = template.second.extractLsb' start len :=
    fun start len hout => extractLsb'_congr fun i hlo hhi => by
      rw [hbit]
      by_cases h10 : 10 ≤ i
      · rw [hhigh (i - 10) (by omega), Bool.and_false, Bool.or_false]
      · rw [decide_eq_false (by omega), Bool.false_and, Bool.or_false]
  have h12 : imm12 second = (gotAddress &&& 0xfff).setWidth 12 := by
    have hzero : ∀ i < 12, template.second.getLsbD (10 + i) = false := by decide
    refine BitVec.eq_of_getLsbD_eq fun i hi => ?_
    unfold imm12
    rw [BitVec.getLsbD_extractLsb', BitVec.getLsbD_setWidth, decide_eq_true hi, hbit, hzero i hi,
      decide_eq_true (by omega), Nat.add_sub_cancel_left, Bool.false_or, Bool.true_and]
  have hsecond : decode second (pltAddress + 4) = some (.load 15 15 ((imm12 second).signExtend 64)) := by
    unfold decode
    rw [hconst 25 7 (by decide), hconst 22 10 (by decide), hconst 0 5 (by decide), hconst 5 5 (by decide)]
    rfl
  have hthird : decode template.third (pltAddress + 8) = some (.jump 15 0 (BitVec.allOnes 64)) := rfl
  have hsum : execPcalau12i first pltAddress + (imm12 second).signExtend 64 = gotAddress ↔
      (pages gotAddress pltAddress).toNat < 2 ^ 19 ∨ 2 ^ 52 - 2 ^ 19 ≤ (pages gotAddress pltAddress).toNat := by
    have hnear := near_sum gotAddress.isLt pltAddress.isLt hpages
    change execAddiD second (execPcalau12i first pltAddress) = gotAddress ↔ _
    rw [← BitVec.toNat_inj, toNat_execAddiD, toNat_execPcalau12i, h20, h12, BitVec.toNat_setWidth, BitVec.toNat_setWidth,
      hlow, Nat.mod_mod, hnear]
  rw [hsecond, hthird]
  constructor
  · intro h
    rcases hcases with hnone | hsome
    · rw [hnone] at h
      exact absurd h not_jumpsThrough_none
    · rw [hsome, jumpsThrough_load (by decide), hsum] at h
      refine h.resolve_right fun hmost => ?_
      have h21 : (pages gotAddress pltAddress).getLsbD 21 = true := by
        rw [BitVec.getLsbD, Nat.testBit_eq_decide_div_mod_eq, decide_eq_true_eq]
        omega
      exact nomatch hsome.symm.trans (hmany h21)
  · intro hreach
    rw [hfew hreach, jumpsThrough_load (by decide), hsum]
    exact Or.inl hreach

/-! ## All architectures -/

/-- **An entry that has been written jumps through its slot exactly if its instructions can express the distance.** -/
theorem pltEntry_jumpsThrough_iff (arch : PltArch) (gotAddress pltAddress : BitVec 64)
    (halign : gotAddress.toNat % 8 = 0) (code : List (Option (Insn (BitVec 5)))) (hcode : arch.entryCode gotAddress pltAddress = some code) :
    JumpsThrough code gotAddress arch.jumpMask ↔ arch.Reaches gotAddress pltAddress := by
  cases arch with
  | x86_64 =>
    obtain ⟨bytes, hbytes, rfl⟩ := Option.map_eq_some_iff.1 hcode
    exact iff_of_true (X86Plt.jumpsThrough hbytes) trivial
  | aarch64 =>
    obtain ⟨words, hwords, rfl⟩ := Option.map_eq_some_iff.1 hcode
    exact iff_of_true (AArch64Plt.jumpsThrough hwords halign _) trivial
  | riscv64 =>
    obtain rfl := Option.some.inj hcode
    exact RiscV64Plt.jumpsThrough_iff _
  | loongarch64 =>
    obtain rfl := Option.some.inj hcode
    exact LoongArch64Plt.jumpsThrough_iff _

/-- The next page, on AArch64. -/
theorem pltEntry_jumpsThrough_next :
    JumpsThrough [some (.set 16#5 0x402000), some (.load 17 16 8), some (.jump 17 0 (BitVec.allOnes 64)), none] 0x402008
        PltArch.aarch64.jumpMask ↔ PltArch.aarch64.Reaches 0x402008 0x401010 := by
  have hcode : PltArch.aarch64.entryCode 0x402008 0x401010 =
      some [some (.set 16 0x402000), some (.load 17 16 8), some (.jump 17 0 (BitVec.allOnes 64)), none] := by decide
  exact pltEntry_jumpsThrough_iff .aarch64 0x402008 0x401010 (by decide) _ hcode

/-- 2 GiB away on RISC-V: `auipc` subtracts them. -/
theorem pltEntry_misses :
    ¬ ∀ (arch : PltArch) (gotAddress pltAddress : BitVec 64) (code : List (Option (Insn (BitVec 5)))),
      gotAddress.toNat % 8 = 0 → pltAddress < gotAddress → arch.entryCode gotAddress pltAddress = some code →
        JumpsThrough code gotAddress arch.jumpMask := by
  intro h
  have hreach := (RiscV64Plt.jumpsThrough_iff _).1 (h .riscv64 0x80001000 0x1000 _ (by decide) (by decide) rfl)
  exact absurd hreach.2 (by decide)

end Reld
