import Mathlib.Data.BitVec
import Reld.Reloc.Written

/-!
# `Reloc.Thunks` — branches that are out of range

A branch reaches 128 MiB. Beyond that it goes to a thunk, which has been reserved for the symbol and goes on to it.
The thunk does not know the relocation: an addend is lost on the way, and the page distance to the symbol is cut off
without a check.
-/

namespace Reld

open BitFields

/-! ## Values of branches -/

/-- What `apply_relocation` and `write_thunks` read of a resolution. -/
structure BranchResolution where
  rawValue : BitVec 64
  pltAddress : Option (BitVec 64)
deriving DecidableEq, Repr

/-- Where the symbol is entered, `plt_address` if it has one. -/
def BranchResolution.entry (resolution : BranchResolution) : BitVec 64 :=
  resolution.pltAddress.getD resolution.rawValue

/-- The kinds of a branch relocation: as it is in the table, and relaxed. -/
inductive BranchKind where
  | pltRelative
  | relative
deriving DecidableEq, Repr

/-- `R_AARCH64_CALL26` or `R_AARCH64_JUMP26` -/
inductive BranchType where
  | call26
  | jump26
deriving DecidableEq, Repr

def BranchType.info : BranchType → RelocationKindInfo
  | .call26 => AArch64RelocationType.call26.info
  | .jump26 => AArch64RelocationType.jump26.info

/-- The mask of both types. -/
def branchMask : Option PageMask := none

/-- The bias of both types. -/
def branchBias : BitVec 64 := 0

/-- The value that `apply_relocation` computes, `none` without the address it needs. -/
def directValue (kind : BranchKind) (resolution : BranchResolution) (addend place : BitVec 64) :
    Option (BitVec 64) :=
  let mask := getPageMask branchMask
  match kind with
  | .pltRelative => resolution.pltAddress.map fun plt => plt + addend + branchBias - (place &&& mask.place)
  | .relative    =>
    some (((resolution.rawValue + addend + branchBias) &&& mask.symbolPlusAddend) - (place &&& mask.place))

/-- The addresses of the thunks of a block, by the symbol they go to. -/
abbrev ThunkBlock := Nat → Option (BitVec 64)

/-- `maybe_get_thunk_for_relocation` for a thunkable relocation: `none` is an error. -/
def maybeGetThunkForRelocation (blocks : List ThunkBlock) (inPrimaryPart : Bool) (objectBlock : Nat) (type : BranchType)
    (definition : Nat) (place value : BitVec 64) : Option (Option (BitVec 64)) :=
  if type.info.range.contains value.toInt then some none
  else
    let thunkId := if inPrimaryPart then objectBlock else 0
    match blocks[thunkId]?.bind (fun block => block definition) with
    | none => none
    | some thunkAddress =>
      if thunkAddress = 0 then none
      else
        let mask := getPageMask branchMask
        some (some (((thunkAddress + branchBias) &&& mask.symbolPlusAddend) - (place &&& mask.place)))

/-! ## Thunks -/

/-- The instructions of `THUNK_TEMPLATE`. -/
structure ThunkWords where
  adrp : BitVec 64 := 0x90000010
  add : BitVec 64 := 0x91000210
  br : BitVec 64 := 0xd61f0200
deriving DecidableEq, Repr

/-- The number of pages to the target, of 21 bits. -/
def thunkPageCount (thunkAddress targetAddress : BitVec 64) : BitVec 64 :=
  let thunkPage := thunkAddress &&& ~~~ pageMask4KB
  let targetPage := targetAddress &&& ~~~ pageMask4KB
  (targetPage - thunkPage).sdiv size4KB &&& 0x1fffff

/-- `write_thunk` -/
def writeThunk (thunkAddress targetAddress : BitVec 64) : ThunkWords :=
  let buf : ThunkWords := {}
  { buf with
    adrp := AArch64Instruction.adr.writeToValue (thunkPageCount thunkAddress targetAddress) false buf.adrp
    add := AArch64Instruction.add.writeToValue (targetAddress &&& pageMask4KB) false buf.add }

/-! ## The processor -/

structure ArmState where
  pc : BitVec 64
  x : BitVec 5 → BitVec 64

def ArmState.set (s : ArmState) (register : BitVec 5) (value : BitVec 64) : ArmState :=
  { s with x := fun r => if r = register then value else s.x r }

/-- `b` and `bl` -/
def isBranch (insn : BitVec 32) : Bool := insn.extractLsb' 26 5 == 0b00101
def isAdrp (insn : BitVec 32) : Bool := insn.extractLsb' 24 5 == 0b10000 && insn.getLsbD 31
/-- `add` of an immediate that is not shifted, 64 bits -/
def isAddImm (insn : BitVec 32) : Bool := insn.extractLsb' 22 10 == 0b1001000100
def isBr (insn : BitVec 32) : Bool := insn &&& 0xfffffc1f == 0xd61f0000

def imm26 (insn : BitVec 32) : BitVec 26 := insn.extractLsb' 0 26
def immAdr (insn : BitVec 32) : BitVec 21 := insn.extractLsb' 5 19 ++ insn.extractLsb' 29 2
def immAdd (insn : BitVec 32) : BitVec 12 := insn.extractLsb' 10 12
def rd (insn : BitVec 32) : BitVec 5 := insn.extractLsb' 0 5
def rn (insn : BitVec 32) : BitVec 5 := insn.extractLsb' 5 5

/-- The instructions that the branch and the thunk consist of. -/
def armStep (fetch : BitVec 64 → BitVec 32) (s : ArmState) : Option ArmState :=
  let insn := fetch s.pc
  if isBranch insn then
    let linked := if insn.getLsbD 31 then s.set 30 (s.pc + 4) else s
    some { linked with pc := s.pc + (imm26 insn ++ 0#2).signExtend 64 }
  else if isAdrp insn then
    some { s.set (rd insn) ((s.pc &&& ~~~ pageMask4KB) + (immAdr insn ++ 0#12).signExtend 64) with pc := s.pc + 4 }
  else if isAddImm insn then
    some { s.set (rd insn) (s.x (rn insn) + (immAdd insn).setWidth 64) with pc := s.pc + 4 }
  else if isBr insn then
    some { s with pc := s.x (rn insn) }
  else none

def armRun (fetch : BitVec 64 → BitVec 32) : Nat → ArmState → Option ArmState
  | 0, s => some s
  | steps + 1, s => (armStep fetch s).bind (armRun fetch steps)

/-! ## The instructions of a thunk -/

/-- The pages between two addresses, cut off to 21 bits. -/
theorem toNat_thunkPageCount (thunkAddress targetAddress : BitVec 64) :
    (thunkPageCount thunkAddress targetAddress).toNat =
      (targetAddress.toNat / 2 ^ 12 + (2 ^ 52 - thunkAddress.toNat / 2 ^ 12)) % 2 ^ 21 := by
  have hmask : (0x1fffff : BitVec 64).toNat = 2 ^ 21 - 1 := by decide
  have h4 : size4KB.toInt = 2 ^ 12 := by decide
  have hdiff : (targetAddress &&& ~~~ pageMask4KB) - (thunkAddress &&& ~~~ pageMask4KB) =
      BitVec.ofNat 64 ((targetAddress.toNat / 2 ^ 12 + (2 ^ 52 - thunkAddress.toNat / 2 ^ 12)) % 2 ^ 52 * 2 ^ 12) := by
    refine BitVec.eq_of_toNat_eq ?_
    rw [BitVec.toNat_sub, toNat_page, toNat_page, BitVec.toNat_ofNat]
    omega
  unfold thunkPageCount
  simp only [hdiff]
  generalize targetAddress.toNat / 2 ^ 12 + (2 ^ 52 - thunkAddress.toNat / 2 ^ 12) = pages
  rw [BitVec.toNat_and, hmask, Nat.and_two_pow_sub_one_eq_mod]
  have hint := BitVec.toInt_sdiv (BitVec.ofNat 64 (pages % 2 ^ 52 * 2 ^ 12)) size4KB
  have hexact : (BitVec.ofNat 64 (pages % 2 ^ 52 * 2 ^ 12)).toInt =
      ((pages % 2 ^ 52 : Nat) : Int).bmod (2 ^ 52) * 2 ^ 12 := by
    rw [BitVec.toInt_eq_toNat_bmod, BitVec.toNat_ofNat]
    simp only [Int.bmod]
    omega
  rw [h4, hexact, Int.mul_tdiv_cancel _ (by decide)] at hint
  generalize (BitVec.ofNat 64 (pages % 2 ^ 52 * 2 ^ 12)).sdiv size4KB = count at hint ⊢
  have hlow : ((pages % 2 ^ 52 : Nat) : Int).bmod (2 ^ 52) % 2 ^ 21 = (pages % 2 ^ 21 : Nat) := by
    have hdvd : (2 : Int) ^ 21 ∣ ((2 ^ 52 : Nat) : Int) := by decide
    have hmod := Nat.mod_mod_of_dvd pages (show 2 ^ 21 ∣ 2 ^ 52 by decide)
    rw [← Int.emod_emod_of_dvd _ hdvd, Int.bmod_emod, Int.emod_emod_of_dvd _ hdvd, ← hmod]
    exact (Int.natCast_mod (pages % 2 ^ 52) (2 ^ 21)).symm
  have hle : -(2 ^ 51) ≤ ((pages % 2 ^ 52 : Nat) : Int).bmod (2 ^ 52) := Int.le_bmod (by decide)
  have hlt : ((pages % 2 ^ 52 : Nat) : Int).bmod (2 ^ 52) < 2 ^ 51 := Int.bmod_lt (by decide)
  rw [Int.bmod_eq_of_le (by omega) (by omega)] at hint
  have hval : count.toInt = if 2 * count.toNat < 2 ^ 64 then (count.toNat : Int) else count.toNat - 2 ^ 64 := rfl
  split at hval <;> omega

theorem thunkPageCount_bits (thunkAddress targetAddress : BitVec 64) {i : Nat} (hi : 21 ≤ i) :
    (thunkPageCount thunkAddress targetAddress).getLsbD i = false := by
  refine LoongArch64Instruction.bits_of_toNat_lt (n := 21) ?_ hi
  rw [toNat_thunkPageCount]
  omega

/-- The fields of `adrp x16` with a number of pages. -/
theorem adrp_fields {count : BitVec 64} (hcount : ∀ i, 21 ≤ i → count.getLsbD i = false) :
    let insn := (AArch64Instruction.adr.writeToValue count false 0x90000010).setWidth 32
    isBranch insn = false ∧ isAdrp insn = true ∧ rd insn = 16 ∧ immAdr insn = count.setWidth 21 := by
  have hbit : ∀ i < 32, ((AArch64Instruction.adr.writeToValue count false 0x90000010).setWidth 32).getLsbD i =
      ((0x90000010 : BitVec 64).getLsbD i || (decide (29 ≤ i ∧ i < 31) && count.getLsbD (i - 29)) ||
        (decide (5 ≤ i ∧ i < 24) && count.getLsbD (i - 3))) := by
    intro i hi
    rw [BitVec.getLsbD_setWidth, decide_eq_true hi, Bool.true_and]
    exact AArch64Instruction.getLsbD_writeAdr hcount 0x90000010 false i
  generalize (AArch64Instruction.adr.writeToValue count false 0x90000010).setWidth 32 = insn at hbit ⊢
  -- outside the immediate the word is the template
  have hconst : ∀ i < 32, ¬ (29 ≤ i ∧ i < 31) → ¬ (5 ≤ i ∧ i < 24) →
      insn.getLsbD i = (0x90000010 : BitVec 64).getLsbD i := by
    intro i hi h29 h5
    rw [hbit i hi, decide_eq_false h29, decide_eq_false h5, Bool.false_and, Bool.false_and, Bool.or_false, Bool.or_false]
  refine ⟨?_, ?_, ?_, ?_⟩
  · have h26 := hconst 26 (by decide) (by decide) (by decide)
    unfold isBranch
    rw [beq_eq_false_iff_ne]
    intro heq
    have hzero := congrArg (·.getLsbD 0) heq
    simp only [BitVec.getLsbD_extractLsb', h26] at hzero
    exact absurd hzero (by decide)
  · have hop : insn.extractLsb' 24 5 = (0x90000010 : BitVec 64).extractLsb' 24 5 :=
      extractLsb'_congr fun i hlo hhi => hconst i (by omega) (by omega) (by omega)
    unfold isAdrp
    rw [hop, hconst 31 (by decide) (by decide) (by decide)]
    decide
  · have hreg : insn.extractLsb' 0 5 = (0x90000010 : BitVec 64).extractLsb' 0 5 :=
      extractLsb'_congr fun i _ hhi => hconst i (by omega) (by omega) (by omega)
    exact hreg.trans (by decide)
  · have hlow : ∀ i < 2, (0x90000010 : BitVec 64).getLsbD (29 + i) = false := by decide
    have hhigh : ∀ i < 19, (0x90000010 : BitVec 64).getLsbD (5 + i) = false := by decide
    refine BitVec.eq_of_getLsbD_eq fun i hi => ?_
    unfold immAdr
    rw [BitVec.getLsbD_append, BitVec.getLsbD_extractLsb', BitVec.getLsbD_extractLsb', BitVec.getLsbD_setWidth,
      decide_eq_true hi, Bool.true_and]
    by_cases h2 : i < 2
    · rw [if_pos h2, decide_eq_true h2, Bool.true_and, hbit _ (by omega), hlow i h2, decide_eq_true (by omega),
        decide_eq_false (by omega), Nat.add_sub_cancel_left, Bool.true_and, Bool.false_and, Bool.false_or, Bool.or_false]
    · rw [if_neg h2, decide_eq_true (by omega), Bool.true_and, hbit _ (by omega), hhigh _ (by omega),
        decide_eq_false (by omega), decide_eq_true (by omega), show 5 + (i - 2) - 3 = i by omega, Bool.true_and,
        Bool.false_and, Bool.false_or, Bool.false_or]

/-- An immediate of twelve bits from the tenth on, in an instruction where these bits are zero. -/
theorem shift10_bits {type : AArch64Instruction} (hone : type.OnePiece) (hshift : type.shift = 10) {value dest : BitVec 64}
    (hvalue : ∀ i, 12 ≤ i → value.getLsbD i = false) (hdest : ∀ i < 12, dest.getLsbD (10 + i) = false) :
    let insn := (type.writeToValue value false dest).setWidth 32
    (∀ i < 32, ¬ (10 ≤ i ∧ i < 22) → insn.getLsbD i = dest.getLsbD i) ∧ immAdd insn = value.setWidth 12 := by
  have hbit : ∀ i < 32, ((type.writeToValue value false dest).setWidth 32).getLsbD i =
      (dest.getLsbD i || (decide (10 ≤ i ∧ i < 32) && value.getLsbD (i - 10))) := by
    intro i hi
    rw [BitVec.getLsbD_setWidth, decide_eq_true hi, Bool.true_and, AArch64Instruction.getLsbD_write hone, hshift]
  generalize (type.writeToValue value false dest).setWidth 32 = insn at hbit ⊢
  refine ⟨fun i hi hout => ?_, BitVec.eq_of_getLsbD_eq fun i hi => ?_⟩
  · rw [hbit i hi]
    by_cases h10 : 10 ≤ i
    · rw [hvalue (i - 10) (by omega), Bool.and_false, Bool.or_false]
    · rw [decide_eq_false (by omega), Bool.false_and, Bool.or_false]
  · unfold immAdd
    rw [BitVec.getLsbD_extractLsb', BitVec.getLsbD_setWidth, decide_eq_true hi, Bool.true_and, Bool.true_and,
      hbit _ (by omega), hdest i hi, decide_eq_true (by omega), Nat.add_sub_cancel_left, Bool.true_and, Bool.false_or]

theorem thunk_adrp_fields (thunkAddress targetAddress : BitVec 64) :
    let insn := (writeThunk thunkAddress targetAddress).adrp.setWidth 32
    isBranch insn = false ∧ isAdrp insn = true ∧ rd insn = 16 ∧
      immAdr insn = (thunkPageCount thunkAddress targetAddress).setWidth 21 :=
  adrp_fields fun _ hi => thunkPageCount_bits thunkAddress targetAddress hi

/-- A field that the value does not reach is that of the template. -/
theorem thunk_add_fields (thunkAddress targetAddress : BitVec 64) :
    let insn := (writeThunk thunkAddress targetAddress).add.setWidth 32
    isBranch insn = false ∧ isAdrp insn = false ∧ isAddImm insn = true ∧ rd insn = 16 ∧ rn insn = 16 ∧
      immAdd insn = targetAddress.setWidth 12 := by
  have hmask : ∀ j < 64, pageMask4KB.getLsbD j = decide (j < 12) := by decide
  have hvalue : ∀ i, 12 ≤ i → (targetAddress &&& pageMask4KB).getLsbD i = false := by
    intro i hi
    by_cases h64 : i < 64
    · rw [BitVec.getLsbD_and, hmask i h64, decide_eq_false (by omega), Bool.and_false]
    · exact BitVec.getLsbD_of_ge _ _ (by omega)
  have hlow : (targetAddress &&& pageMask4KB).setWidth 12 = targetAddress.setWidth 12 := by
    refine BitVec.eq_of_getLsbD_eq fun i hi => ?_
    rw [BitVec.getLsbD_setWidth, BitVec.getLsbD_setWidth, BitVec.getLsbD_and, hmask i (by omega), decide_eq_true hi,
      Bool.and_true]
  obtain ⟨hconst, himm⟩ := @shift10_bits .add (by decide) rfl _ 0x91000210 hvalue (by decide)
  rw [hlow] at himm
  intro insn
  change ∀ i < 32, ¬ (10 ≤ i ∧ i < 22) → insn.getLsbD i = (0x91000210 : BitVec 64).getLsbD i at hconst
  have hop : insn.extractLsb' 22 10 = (0x91000210 : BitVec 64).extractLsb' 22 10 :=
    extractLsb'_congr fun i hlo hhi => hconst i (by omega) (by omega)
  have hd : insn.extractLsb' 0 5 = (0x91000210 : BitVec 64).extractLsb' 0 5 :=
    extractLsb'_congr fun i _ hhi => hconst i (by omega) (by omega)
  have hn : insn.extractLsb' 5 5 = (0x91000210 : BitVec 64).extractLsb' 5 5 :=
    extractLsb'_congr fun i hlo hhi => hconst i (by omega) (by omega)
  have hbranch : insn.extractLsb' 26 5 = (0x91000210 : BitVec 64).extractLsb' 26 5 :=
    extractLsb'_congr fun i hlo hhi => hconst i (by omega) (by omega)
  have hadrp : insn.extractLsb' 24 5 = (0x91000210 : BitVec 64).extractLsb' 24 5 :=
    extractLsb'_congr fun i hlo hhi => hconst i (by omega) (by omega)
  refine ⟨?_, ?_, ?_, hd.trans (by decide), hn.trans (by decide), himm⟩
  · unfold isBranch
    rw [hbranch]
    decide
  · unfold isAdrp
    rw [hadrp]
    exact Bool.and_eq_false_imp.2 fun h => absurd h (by decide)
  · unfold isAddImm
    rw [hop]
    decide

/-! ## Running a thunk -/

/-- A thunk in memory. -/
structure HoldsThunk (fetch : BitVec 64 → BitVec 32) (thunkAddress : BitVec 64) (words : ThunkWords) : Prop where
  adrp : fetch thunkAddress = words.adrp.setWidth 32
  add : fetch (thunkAddress + 4) = words.add.setWidth 32
  br : fetch (thunkAddress + 8) = words.br.setWidth 32

/-- Where a thunk goes. -/
def thunkArrival (thunkAddress targetAddress : BitVec 64) : BitVec 64 :=
  (thunkAddress &&& ~~~ pageMask4KB) +
    ((thunkPageCount thunkAddress targetAddress).setWidth 21 ++ 0#12).signExtend 64 +
      (targetAddress.setWidth 12).setWidth 64

/-- **A run of the thunk.** Three steps, from any state. -/
theorem thunk_run {fetch : BitVec 64 → BitVec 32} {thunkAddress targetAddress : BitVec 64}
    (hmem : HoldsThunk fetch thunkAddress (writeThunk thunkAddress targetAddress)) {s : ArmState}
    (hpc : s.pc = thunkAddress) :
    (armRun fetch 3 s).map (·.pc) = some (thunkArrival thunkAddress targetAddress) := by
  obtain ⟨hb, ha, hd, himm⟩ := thunk_adrp_fields thunkAddress targetAddress
  obtain ⟨hb', ha', hadd', hd', hn', himm'⟩ := thunk_add_fields thunkAddress targetAddress
  have h1 : armStep fetch s = some { s.set 16 ((thunkAddress &&& ~~~ pageMask4KB) +
      ((thunkPageCount thunkAddress targetAddress).setWidth 21 ++ 0#12).signExtend 64) with pc := thunkAddress + 4 } := by
    unfold armStep
    simp [hpc, hmem.adrp, hb, ha, hd, himm]
  have h2 : ∀ s' : ArmState, s'.pc = thunkAddress + 4 →
      armStep fetch s' = some { s'.set 16 (s'.x 16 + (targetAddress.setWidth 12).setWidth 64) with
        pc := thunkAddress + 4 + 4 } := by
    intro s' hpc'
    unfold armStep
    simp only [hpc', hmem.add, hb', ha', hadd', hd', hn', himm', if_true, Bool.false_eq_true, if_false]
  have h3 : ∀ s' : ArmState, s'.pc = thunkAddress + 4 + 4 → armStep fetch s' = some { s' with pc := s'.x 16 } := by
    intro s' hpc'
    have hnext : thunkAddress + 4 + 4 = thunkAddress + 8 := by
      rw [BitVec.add_assoc]
      rfl
    have hbr : (writeThunk thunkAddress targetAddress).br.setWidth 32 = 0xd61f0200#32 := by
      rfl
    unfold armStep
    simp only [hpc', hnext, hmem.br, hbr]
    rfl
  rw [armRun, h1, Option.bind_some, armRun, h2 _ rfl, Option.bind_some, armRun, h3 _ rfl, Option.bind_some, armRun]
  rfl

/-- The distance of two addresses in whole pages. -/
def pageDistance (thunkAddress targetAddress : BitVec 64) : Int :=
  ((targetAddress &&& ~~~ pageMask4KB) - (thunkAddress &&& ~~~ pageMask4KB)).toInt

/-- How far a thunk misses its target: a page count that does not fit comes back with the other sign. -/
def adrpError (thunkAddress targetAddress : BitVec 64) : BitVec 64 :=
  if pageDistance thunkAddress targetAddress < -(2 ^ 32) then 2 ^ 33
  else if pageDistance thunkAddress targetAddress < 2 ^ 32 then 0 else -(2 ^ 33)

theorem toNat_thunkArrival (thunkAddress targetAddress : BitVec 64) :
    (thunkArrival thunkAddress targetAddress).toNat =
      (thunkAddress.toNat / 2 ^ 12 * 2 ^ 12 +
        (if (thunkPageCount thunkAddress targetAddress).toNat < 2 ^ 20
          then (thunkPageCount thunkAddress targetAddress).toNat * 2 ^ 12
          else (thunkPageCount thunkAddress targetAddress).toNat * 2 ^ 12 + (2 ^ 64 - 2 ^ 33)) +
        targetAddress.toNat % 2 ^ 12) % 2 ^ 64 := by
  have hcount : (thunkPageCount thunkAddress targetAddress).toNat < 2 ^ 21 := by
    rw [toNat_thunkPageCount]
    omega
  have happ : ((thunkPageCount thunkAddress targetAddress).setWidth 21 ++ 0#12).toNat =
      (thunkPageCount thunkAddress targetAddress).toNat * 2 ^ 12 := by
    rw [BitVec.toNat_append, BitVec.toNat_ofNat, Nat.zero_mod, Nat.or_zero, Nat.shiftLeft_eq, BitVec.toNat_setWidth,
      Nat.mod_eq_of_lt hcount]
  have hlow : ((targetAddress.setWidth 12).setWidth 64).toNat = targetAddress.toNat % 2 ^ 12 := by
    rw [BitVec.toNat_setWidth, BitVec.toNat_setWidth]
    omega
  unfold thunkArrival
  rw [BitVec.toNat_add, BitVec.toNat_add, toNat_page, BitVec.toNat_signExtend, BitVec.msb_eq_decide, happ,
    BitVec.toNat_setWidth, happ, hlow]
  by_cases hneg : (thunkPageCount thunkAddress targetAddress).toNat < 2 ^ 20
  · rw [if_pos hneg, decide_eq_false (by omega), if_neg (by decide)]
    omega
  · rw [if_neg hneg, decide_eq_true (by omega), if_pos rfl]
    omega

/-- **Arrival.** Within 4 GiB a thunk misses its target by nothing, or by eight GiB if the pages are further apart. -/
theorem thunkArrival_eq {thunkAddress targetAddress : BitVec 64}
    (hlo : -(2 ^ 32) ≤ (targetAddress - thunkAddress).toInt) (hhi : (targetAddress - thunkAddress).toInt ≤ 2 ^ 32) :
    thunkArrival thunkAddress targetAddress = targetAddress + adrpError thunkAddress targetAddress := by
  have hcount := toNat_thunkPageCount thunkAddress targetAddress
  have hdist : (targetAddress - thunkAddress).toInt =
      if 2 * (targetAddress - thunkAddress).toNat < 2 ^ 64 then ((targetAddress - thunkAddress).toNat : Int)
      else (targetAddress - thunkAddress).toNat - 2 ^ 64 := rfl
  have hpage : pageDistance thunkAddress targetAddress =
      if 2 * ((targetAddress &&& ~~~ pageMask4KB) - (thunkAddress &&& ~~~ pageMask4KB)).toNat < 2 ^ 64
      then (((targetAddress &&& ~~~ pageMask4KB) - (thunkAddress &&& ~~~ pageMask4KB)).toNat : Int)
      else ((targetAddress &&& ~~~ pageMask4KB) - (thunkAddress &&& ~~~ pageMask4KB)).toNat - 2 ^ 64 := rfl
  rw [BitVec.toNat_sub] at hdist
  rw [BitVec.toNat_sub, toNat_page, toNat_page] at hpage
  have hplus : (2 ^ 33 : BitVec 64).toNat = 2 ^ 33 := by decide
  have hminus : (-(2 ^ 33) : BitVec 64).toNat = 2 ^ 64 - 2 ^ 33 := by decide
  refine BitVec.eq_of_toNat_eq ?_
  rw [toNat_thunkArrival, BitVec.toNat_add]
  unfold adrpError
  by_cases hbelow : pageDistance thunkAddress targetAddress < -(2 ^ 32)
  · rw [if_pos hbelow, hplus]
    have hneg : (thunkPageCount thunkAddress targetAddress).toNat < 2 ^ 20 := by
      split at hdist <;> split at hpage <;> omega
    rw [if_pos hneg, hcount]
    split at hdist <;> split at hpage <;> omega
  · rw [if_neg hbelow]
    by_cases hin : pageDistance thunkAddress targetAddress < 2 ^ 32
    · rw [if_pos hin]
      have hzero : (0 : BitVec 64).toNat = 0 := rfl
      rw [hzero]
      split at hpage
      · rw [if_pos (by omega), hcount]
        split at hdist <;> omega
      · rw [if_neg (by omega), hcount]
        split at hdist <;> omega
    · rw [if_neg hin, hminus]
      have hneg : ¬ (thunkPageCount thunkAddress targetAddress).toNat < 2 ^ 20 := by
        split at hdist <;> split at hpage <;> omega
      rw [if_neg hneg, hcount]
      split at hdist <;> split at hpage <;> omega

/-! ## Branching to a thunk -/

/-- The encoder combines the displacement with what the branch holds: that has to be part of it already. -/
def AbsorbsBranch (displacement dest : BitVec 64) : Prop :=
  extractBitRange dest 0 26 ||| extractBitRange displacement 2 28 = extractBitRange displacement 2 28

theorem branch_fields (displacement dest : BitVec 64) (negative : Bool) :
    let insn := (AArch64Instruction.jumpCall.writeToValue (extractBitRange displacement 2 28) negative dest).setWidth 32
    isBranch insn = isBranch (dest.setWidth 32) ∧
      imm26 insn = (extractBitRange dest 0 26 ||| extractBitRange displacement 2 28).setWidth 26 := by
  have hbit := @AArch64Instruction.getLsbD_write .jumpCall (by decide) (extractBitRange displacement 2 28) dest
    negative
  generalize AArch64Instruction.jumpCall.writeToValue (extractBitRange displacement 2 28) negative dest = word at hbit ⊢
  constructor
  · have hop : (word.setWidth 32).extractLsb' 26 5 = (dest.setWidth 32).extractLsb' 26 5 := by
      refine BitVec.eq_of_getLsbD_eq fun i hi => ?_
      rw [BitVec.getLsbD_extractLsb', BitVec.getLsbD_extractLsb', BitVec.getLsbD_setWidth, BitVec.getLsbD_setWidth, hbit,
        getLsbD_extractBitRange (by decide), decide_eq_false (show ¬ 26 + i - AArch64Instruction.jumpCall.shift < 28 - 2 by
          change ¬ 26 + i - 0 < 28 - 2
          omega), Bool.false_and, Bool.and_false, Bool.or_false]
    unfold isBranch
    rw [hop]
  · refine BitVec.eq_of_getLsbD_eq fun i hi => ?_
    have hshift : AArch64Instruction.jumpCall.shift = 0 := rfl
    have hold : (extractBitRange dest 0 26).getLsbD i = dest.getLsbD i := by
      rw [getLsbD_extractBitRange (by decide), decide_eq_true (show i < 26 - 0 by omega), Bool.true_and, Nat.zero_add]
    unfold imm26
    rw [BitVec.getLsbD_extractLsb', BitVec.getLsbD_setWidth, BitVec.getLsbD_setWidth, Nat.zero_add, hbit, hshift,
      BitVec.getLsbD_or, hold, decide_eq_true (show i < 32 by omega), decide_eq_true (show 0 ≤ i ∧ i < 32 by omega),
      Bool.true_and, Bool.true_and, Nat.sub_zero]

/-- A displacement that is a whole number of instructions within 128 MiB is what the processor makes of it. -/
theorem displacement_eq {displacement : BitVec 64} (halign : displacement.toNat % 4 = 0)
    (hlo : -(2 ^ 27) ≤ displacement.toInt) (hhi : displacement.toInt < 2 ^ 27) :
    ((extractBitRange displacement 2 28).setWidth 26 ++ 0#2).signExtend 64 = displacement :=
  @extractBitRange_signExtend 2 26 27 rfl (by decide) _ halign hlo hhi

theorem append_signExtend_inj {a b : BitVec 26} (h : (a ++ 0#2).signExtend 64 = (b ++ 0#2).signExtend 64) : a = b := by
  have hlow : ((a ++ 0#2).signExtend 64).setWidth 28 = ((b ++ 0#2).signExtend 64).setWidth 28 := by rw [h]
  have hback : ∀ c : BitVec 28, (c.signExtend 64).setWidth 28 = c := by
    intro c
    refine BitVec.eq_of_getLsbD_eq fun i hi => ?_
    rw [BitVec.getLsbD_setWidth, BitVec.getLsbD_signExtend, if_pos hi, decide_eq_true hi, decide_eq_true (by omega),
      Bool.true_and, Bool.true_and]
  rw [hback, hback] at hlow
  refine BitVec.eq_of_getLsbD_eq fun i hi => ?_
  have hi' := congrArg (·.getLsbD (i + 2)) hlow
  simp only [BitVec.getLsbD_append, if_neg (show ¬ i + 2 < 2 by omega), Nat.add_sub_cancel] at hi'
  exact hi'

theorem branch_step {fetch : BitVec 64 → BitVec 32} {s : ArmState} (h : isBranch (fetch s.pc) = true) :
    (armStep fetch s).map (·.pc) = some (s.pc + (imm26 (fetch s.pc) ++ 0#2).signExtend 64) := by
  unfold armStep
  simp [h]

/-! ## The whole way -/

/-- The branch goes to the thunk and the thunk to `goal`. -/
structure Transfers (fetch : BitVec 64 → BitVec 32) (place thunkAddress goal : BitVec 64) : Prop where
  branch : ∀ s : ArmState, s.pc = place → (armStep fetch s).map (·.pc) = some thunkAddress
  thunk : ∀ s : ArmState, s.pc = thunkAddress → (armRun fetch 3 s).map (·.pc) = some goal

theorem branch_info (type : BranchType) :
    type.info = ⟨.aarch64 .jumpCall, 2, 28, .fromBitSize 28 .signed, 4⟩ := by
  cases type <;> rfl

/-- A branch that goes by a thunk is given the distance to it. -/
theorem thunk_value {blocks : List ThunkBlock} {inPrimaryPart : Bool} {objectBlock : Nat} {type : BranchType}
    {definition : Nat} {place value newValue thunkAddress : BitVec 64}
    (h : maybeGetThunkForRelocation blocks inPrimaryPart objectBlock type definition place value = some (some newValue))
    (hthunk : blocks[if inPrimaryPart then objectBlock else 0]?.bind (fun block => block definition) =
      some thunkAddress) :
    newValue = thunkAddress - place := by
  have hbias : thunkAddress + branchBias = thunkAddress := BitVec.add_zero thunkAddress
  unfold maybeGetThunkForRelocation at h
  by_cases hin : type.info.range.contains value.toInt = true
  · rw [if_pos hin] at h
    cases h
  · rw [if_neg hin] at h
    simp only [hthunk] at h
    by_cases hzero : thunkAddress = 0
    · rw [if_pos hzero] at h
      cases h
    · rw [if_neg hzero] at h
      rw [← Option.some.inj (Option.some.inj h), hbias]
      change (thunkAddress &&& BitVec.allOnes 64) - (place &&& BitVec.allOnes 64) = _
      rw [BitVec.and_allOnes, BitVec.and_allOnes]

/-- **Range extension.** The thunk and the branch to it reach the symbol and the addend exactly if the branch was empty
    and the addend is what the thunk misses, that is nothing unless the pages are too far apart. -/
theorem thunk_transfers_iff {kind : BranchKind} {resolution : BranchResolution} {addend place value : BitVec 64}
    {blocks : List ThunkBlock} {inPrimaryPart : Bool} {objectBlock : Nat} {type : BranchType} {definition : Nat}
    {newValue thunkAddress dest word : BitVec 64} {fetch : BitVec 64 → BitVec 32}
    (hinsn : isBranch (dest.setWidth 32) = true)
    (_hdirect : directValue kind resolution addend place = some value)
    (hvalue : maybeGetThunkForRelocation blocks inPrimaryPart objectBlock type definition place value =
      some (some newValue))
    (hthunk : blocks[if inPrimaryPart then objectBlock else 0]?.bind (fun block => block definition) =
      some thunkAddress)
    (hwrite : type.info.writeToBuffer newValue dest = some word)
    (hbranch : fetch place = word.setWidth 32)
    (hmem : HoldsThunk fetch thunkAddress (writeThunk thunkAddress resolution.entry))
    (hlo : -(2 ^ 32) ≤ (resolution.entry - thunkAddress).toInt)
    (hhi : (resolution.entry - thunkAddress).toInt ≤ 2 ^ 32) :
    Transfers fetch place thunkAddress (resolution.entry + addend) ↔
      AbsorbsBranch (thunkAddress - place) dest ∧ addend = adrpError thunkAddress resolution.entry := by
  obtain rfl := thunk_value hvalue hthunk
  obtain ⟨hv, rfl⟩ := RelocationKindInfo.writeToBuffer_eq_some hwrite
  obtain ⟨halign, hmin, hmax⟩ := RelocationKindInfo.verify_eq_true hv
  rw [branch_info] at halign hmin hmax hbranch
  obtain ⟨hop, himm⟩ := branch_fields (thunkAddress - place) dest (thunkAddress - place).msb
  change fetch place = (AArch64Instruction.jumpCall.writeToValue (extractBitRange (thunkAddress - place) 2 28)
    (thunkAddress - place).msb dest).setWidth 32 at hbranch
  rw [← hbranch] at hop himm
  rw [hinsn] at hop
  have hdisp := displacement_eq halign hmin hmax
  -- the branch reaches the thunk if its immediate is the displacement
  have hfirst : (∀ s : ArmState, s.pc = place → (armStep fetch s).map (·.pc) = some thunkAddress) ↔
      AbsorbsBranch (thunkAddress - place) dest := by
    have hstep : ∀ s : ArmState, s.pc = place →
        (armStep fetch s).map (·.pc) = some (place + (imm26 (fetch place) ++ 0#2).signExtend 64) := by
      intro s hpc
      have hs := @branch_step fetch s (by rw [hpc]; exact hop)
      rw [hpc] at hs
      exact hs
    have hwide : ∀ x : BitVec 64, (∀ i, 26 ≤ i → x.getLsbD i = false) → (x.setWidth 26).setWidth 64 = x := by
      intro x hx
      refine BitVec.eq_of_getLsbD_eq fun i hi => ?_
      rw [BitVec.getLsbD_setWidth, BitVec.getLsbD_setWidth, decide_eq_true hi, Bool.true_and]
      by_cases h26 : i < 26
      · rw [decide_eq_true h26, Bool.true_and]
      · rw [decide_eq_false h26, Bool.false_and, hx i (by omega)]
    have hsmall : ∀ i, 26 ≤ i → (extractBitRange (thunkAddress - place) 2 28).getLsbD i = false := by
      intro i hi
      rw [getLsbD_extractBitRange (by decide), decide_eq_false (by omega), Bool.false_and]
    have hsmall' : ∀ i, 26 ≤ i →
        (extractBitRange dest 0 26 ||| extractBitRange (thunkAddress - place) 2 28).getLsbD i = false := by
      intro i hi
      rw [BitVec.getLsbD_or, hsmall i hi, getLsbD_extractBitRange (by decide), decide_eq_false (by omega), Bool.false_and,
        Bool.or_false]
    constructor
    · intro h
      have hat := hstep { pc := place, x := fun _ => 0 } rfl
      rw [h _ rfl] at hat
      have hsame : (imm26 (fetch place) ++ 0#2).signExtend 64 =
          ((extractBitRange (thunkAddress - place) 2 28).setWidth 26 ++ 0#2).signExtend 64 := by
        rw [hdisp, Option.some.inj hat, BitVec.add_comm, BitVec.add_sub_cancel]
      have hfield := append_signExtend_inj hsame
      rw [himm] at hfield
      unfold AbsorbsBranch
      rw [← hwide _ hsmall', hfield, hwide _ hsmall]
    · intro habs s hpc
      rw [hstep s hpc, himm, habs, hdisp, BitVec.add_comm, BitVec.sub_add_cancel]
  have hsecond : (∀ s : ArmState, s.pc = thunkAddress →
      (armRun fetch 3 s).map (·.pc) = some (resolution.entry + addend)) ↔
        addend = adrpError thunkAddress resolution.entry := by
    have hrun : ∀ s : ArmState, s.pc = thunkAddress → (armRun fetch 3 s).map (·.pc) =
        some (resolution.entry + adrpError thunkAddress resolution.entry) := by
      intro s hpc
      rw [thunk_run hmem hpc, thunkArrival_eq hlo hhi]
    constructor
    · intro h
      have hat := hrun { pc := thunkAddress, x := fun _ => 0 } rfl
      rw [h _ rfl] at hat
      exact (BitVec.add_right_inj _).mp (Option.some.inj hat)
    · rintro rfl s hpc
      exact hrun s hpc
  constructor
  · rintro ⟨h1, h2⟩
    exact ⟨hfirst.mp h1, hsecond.mp h2⟩
  · rintro ⟨h1, h2⟩
    exact ⟨hfirst.mpr h1, hsecond.mpr h2⟩

/-- A program with a branch at `0x400000` and a thunk at `0x500000`. -/
def thunkProgram (branch : BitVec 64) (words : ThunkWords) (address : BitVec 64) : BitVec 32 :=
  if address = 0x400000 then branch.setWidth 32
  else if address = 0x500000 then words.adrp.setWidth 32
  else if address = 0x500004 then words.add.setWidth 32
  else words.br.setWidth 32

/-- A call of a function 256 MiB away. -/
theorem thunk_transfers_far_call :
    Transfers (thunkProgram 0x94040000 (writeThunk 0x500000 0x10000123)) 0x400000 0x500000 (0x10000123 + 0) ↔
      AbsorbsBranch (0x500000 - 0x400000) 0x94000000 ∧ 0 = adrpError 0x500000 0x10000123 :=
  @thunk_transfers_iff .relative ⟨0x10000123, none⟩ 0 0x400000 0xfc00123 [fun _ => some 0x500000] true 0 .call26 7
    0x100000 0x500000 0x94000000 0x94040000 (thunkProgram 0x94040000 (writeThunk 0x500000 0x10000123)) (by decide)
    (by decide) (by decide) rfl (by decide) (by decide) ⟨by decide, by decide, by decide⟩ (by decide) (by decide)

/-- The same call with an addend of four: the thunk goes to the symbol itself. -/
theorem thunk_loses_addend :
    ¬ ∀ (kind : BranchKind) (resolution : BranchResolution) (addend place value : BitVec 64) (blocks : List ThunkBlock)
      (inPrimaryPart : Bool) (objectBlock : Nat) (type : BranchType) (definition : Nat)
      (newValue thunkAddress dest word : BitVec 64) (fetch : BitVec 64 → BitVec 32),
      isBranch (dest.setWidth 32) = true →
      directValue kind resolution addend place = some value →
      maybeGetThunkForRelocation blocks inPrimaryPart objectBlock type definition place value =
        some (some newValue) →
      blocks[if inPrimaryPart then objectBlock else 0]?.bind (fun block => block definition) = some thunkAddress →
      type.info.writeToBuffer newValue dest = some word →
      fetch place = word.setWidth 32 →
      HoldsThunk fetch thunkAddress (writeThunk thunkAddress resolution.entry) →
      -(2 ^ 32) ≤ (resolution.entry - thunkAddress).toInt →
      (resolution.entry - thunkAddress).toInt ≤ 2 ^ 32 →
        Transfers fetch place thunkAddress (resolution.entry + addend) := by
  intro h
  have hgo := (h .relative ⟨0x10000120, none⟩ 4 0x400000 0xfc00124 [fun _ => some 0x500000] true 0 .call26 7
    0x100000 0x500000 0x94000000 0x94040000 (thunkProgram 0x94040000 (writeThunk 0x500000 0x10000120)) (by decide)
    (by decide) (by decide) rfl (by decide) (by decide) ⟨by decide, by decide, by decide⟩ (by decide)
    (by decide)).thunk { pc := 0x500000, x := fun _ => 0 } rfl
  have hrun := @thunk_run (thunkProgram 0x94040000 (writeThunk 0x500000 0x10000120)) 0x500000 0x10000120
    ⟨by decide, by decide, by decide⟩ { pc := 0x500000, x := fun _ => 0 } rfl
  exact absurd (hrun.symm.trans hgo) (by decide)

end Reld
