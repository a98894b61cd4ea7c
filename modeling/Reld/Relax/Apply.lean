import Reld.Relax.Deltas
import Reld.Reloc.RiscV
import Reld.Lib.Encodings

/-!
# `Relax.Apply` — copying a relaxed section and refilling its padding

The writer copies the input bytes of a section without the deleted ones. An `R_RISCV_ALIGN` then overwrites
what is left of its padding with nops of four bytes and, if two bytes remain, a `c.nop`.
-/

namespace Reld

open SectionRelaxDeltas

/-! ## Copying -/

/-- The copy loop of `populate_section_output`, from an input position on. -/
def populateFrom (inputData : Bytes) (inputPos : Nat) : SectionRelaxDeltas → Bytes
  | [] => inputData.drop inputPos
  | delta :: deltas =>
    (inputData.drop inputPos).take (delta.inputOffset - inputPos) ++
      populateFrom inputData (delta.inputOffset + delta.bytesDeleted) deltas

/-- `populate_section_output`: the content of the section, without the padding at its end. -/
def populateSectionOutput (inputData : Bytes) (deltas : SectionRelaxDeltas) : Bytes :=
  populateFrom inputData 0 deltas

theorem populateFrom_eq (inputData : Bytes) (inputPos : Nat) (deltas : SectionRelaxDeltas) :
    populateFrom inputData inputPos deltas = Deletions.compactFrom inputData inputPos deltas.raw := by
  induction deltas generalizing inputPos with
  | nil => rfl
  | cons delta deltas ih =>
    have hchunk : (inputData.drop inputPos).take (delta.inputOffset - inputPos) =
        (inputData.take delta.inputOffset).drop inputPos := by
      rw [List.drop_take]
    show (inputData.drop inputPos).take (delta.inputOffset - inputPos) ++ _ = _ ++ _
    rw [hchunk, ih]
    rfl

theorem populateSectionOutput_eq (inputData : Bytes) (deltas : SectionRelaxDeltas) :
    populateSectionOutput inputData deltas = Deletions.compact inputData deltas.raw :=
  populateFrom_eq inputData 0 deltas

/-! ## Padding -/

/-- `fill_nop_padding` -/
def fillNopPadding : Bytes → Bytes
  | _ :: _ :: _ :: _ :: buf => 0x13 :: 0x00 :: 0x00 :: 0x00 :: fillNopPadding buf
  | _ :: _ :: buf => 0x01 :: 0x00 :: buf
  | buf => buf

/-- The padding bytes of an `R_RISCV_ALIGN` that are kept. -/
def keptPadding (deltas : SectionRelaxDeltas) (rel : Relocation) : Nat :=
  asU64 rel.addend - deltas.deltaBytesAt rel.offset

/-- `apply_relocation` for `RelocationKind::Alignment`. -/
def applyAlignment (deltas : SectionRelaxDeltas) (rel : Relocation) (out : Bytes) : Bytes :=
  let offset := deltas.inputToOutputOffset rel.offset
  let padding := keptPadding deltas rel
  out.take offset ++ fillNopPadding ((out.drop offset).take padding) ++ out.drop (offset + padding)

/-- An even number of bytes of nops. -/
def nopSled (bytes : Nat) : Bytes := fillNopPadding (List.replicate bytes 0)

/-- What an even number of bytes held before does not matter. -/
theorem fillNopPadding_eq : ∀ buf : Bytes, buf.length % 2 = 0 → fillNopPadding buf = nopSled buf.length
  | [], _ => rfl
  | [_], h => by simp at h
  | [_, _], _ => rfl
  | [_, _, _], h => by simp at h
  | a :: b :: c :: d :: buf, h => by
    have hbuf : buf.length % 2 = 0 := by
      simp only [List.length_cons] at h
      omega
    have ih := fillNopPadding_eq buf hbuf
    unfold nopSled at ih ⊢
    simp [List.replicate_succ, fillNopPadding, ih]

/-- Where the kept padding is in the output, the nops are written. -/
theorem applyAlignment_eq {deltas : SectionRelaxDeltas} {rel : Relocation} {pre pad post : Bytes}
    (hpre : pre.length = deltas.inputToOutputOffset rel.offset) (hpad : pad.length = keptPadding deltas rel) :
    applyAlignment deltas rel (pre ++ pad ++ post) = pre ++ fillNopPadding pad ++ post := by
  unfold applyAlignment
  simp only
  rw [← hpre, ← hpad]
  have htake : (pre ++ pad ++ post).take pre.length = pre := by
    rw [List.append_assoc, List.take_left]
  have hmid : ((pre ++ pad ++ post).drop pre.length).take pad.length = pad := by
    rw [List.append_assoc, List.drop_left, List.take_left]
  have hdrop : (pre ++ pad ++ post).drop (pre.length + pad.length) = post := by
    rw [← List.length_append, List.drop_left]
  rw [htake, hmid, hdrop]

end Reld

/-!
# Applying the relocations of a relaxed section

After the copy the writer goes over the relocations once more. Each is applied at the output offset of its
place. For a `lui` and for the instructions that add the lower part, it asks the deltas what relaxation has
done, by translating the output offset *back*. For a call it looks at the bytes: without a `jalr` behind the
`auipc` the pair has become a `jal`.

The values that the symbols have in the end, and what the other relocation types write, are parameters.
-/

namespace Reld

open SectionRelaxDeltas LittleEndian

/-! ## Words of the output -/

/-- The word at an offset: eight bytes, or what there is. -/
def wordAt (out : Bytes) (offset : Nat) : BitVec 64 := BitVec.ofNat 64 (leNat ((out.drop offset).take 8))

/-- Change the low bytes of the word at an offset. It fails if the bytes do not exist. -/
def patchWord (bytes : Nat) (f : BitVec 64 → BitVec 64) (out : Bytes) (offset : Nat) : Option Bytes :=
  if offset + bytes ≤ out.length then
    some (overwrite out offset (leBytes bytes (f (wordAt out offset)).toNat))
  else none

/-! ## What the writer knows -/

/-- The values and flags that relocations are applied with. -/
structure RelocationContext where
  /-- Symbol plus addend. -/
  absolute : Option Nat → Int → BitVec 64
  /-- The value for a call, `none` if it is out of range for the instructions left. -/
  callValue : Relocation → Option (BitVec 64)
  /-- Whether the symbol of a call has an address other than zero. -/
  nonZero : Relocation → Bool
  interposable : Relocation → Bool
  /-- The bytes that another relocation type changes, and how. -/
  otherSize : Relocation → Nat
  other : Relocation → Bytes → Bytes
  other_length : ∀ rel buf, (other rel buf).length = buf.length

/-- The range of the upper and lower parts. -/
def inHiLoRange (value : BitVec 64) : Bool := decide (-(2 ^ 31) ≤ value.toInt ∧ value.toInt < 2 ^ 32)

def rs1Mask : BitVec 64 := (0x1f : BitVec 64) <<< 15

/-- The register fields of an instruction. -/
def rdOf (word : BitVec 64) : BitVec 64 := extractBitRange word 7 12
def rs1Of (word : BitVec 64) : BitVec 64 := extractBitRange word 15 20

/-- `is_jalr_deleted` -/
def isJalrDeleted (out : Bytes) (offset : Nat) : Bool :=
  if offset + 8 > out.length then true
  else
    let nextWord := wordAt out (offset + 4)
    !(extractBitRange nextWord 0 7 == 0x67 && rs1Of nextWord == rdOf (wordAt out offset))

/-- What the writer takes a call for. -/
inductive CallForm where
  /-- `auipc` and `jalr`. -/
  | pair
  /-- One `jal`. -/
  | jal
  /-- A call of nothing. -/
  | nop
deriving DecidableEq, Repr

def callForm (ctx : RelocationContext) (out : Bytes) (offset : Nat) (rel : Relocation) : CallForm :=
  if ctx.interposable rel then .pair
  else if ctx.nonZero rel then
    if isJalrDeleted out offset then .jal else .pair
  else .nop

/-! ## Applying -/

open RiscVInstruction

/-- The output and whether the next relocation is skipped. -/
abbrev Applied := Option (Bool × Bytes)

def applyCall (ctx : RelocationContext) (rel : Relocation) (out : Bytes) (offset : Nat) : Applied :=
  match callForm ctx out offset rel with
  | .pair =>
    match ctx.callValue rel with
    | some v => (patchWord 8 (writeToValue .uiType v false) out offset).map (false, ·)
    | none   => none
  | .jal =>
    match ctx.callValue rel with
    | some v => (patchWord 4 (fun word => writeToValue .jType v false (0x6f ||| rdOf word <<< 7)) out offset).map
        (true, ·)
    | none => none
  | .nop => (patchWord 4 (fun _ => 0x00010001) out offset).map (false, ·)

def applyHi20 (ctx : RelocationContext) (deltas : SectionRelaxDeltas) (rel : Relocation) (out : Bytes)
    (offset : Nat) : Applied :=
  let inputOffset := deltas.outputToInputOffset offset
  let value := ctx.absolute rel.symbol rel.addend
  if deltas.hasDeltaAt inputOffset then some (true, out)
  else if ¬ inHiLoRange value then none
  else if deltas.hasDeltaAt (inputOffset + 2) then
    (patchWord 2 (fun word => writeToValue .cluiType (extractBitRange value 0 32) false
      (0x6001 ||| rdOf word <<< 7)) out offset).map (false, ·)
  else (patchWord 4 (writeToValue .uType (extractBitRange value 0 32) false) out offset).map (false, ·)

/-- Whether the base register of a lower part is replaced by `x0`. -/
def rs1ToZero (deltas : SectionRelaxDeltas) (out : Bytes) (offset : Nat) : Bool :=
  let inputOffset := deltas.outputToInputOffset offset
  decide (4 ≤ inputOffset) && deltas.deltaBytesAt (inputOffset - 4) == 4 &&
    decide (offset + 4 ≤ out.length) && rdOf (wordAt out offset) == rs1Of (wordAt out offset)

def applyLo12 (ctx : RelocationContext) (deltas : SectionRelaxDeltas) (insn : RiscVInstruction)
    (rel : Relocation) (out : Bytes) (offset : Nat) : Applied :=
  let value := ctx.absolute rel.symbol rel.addend
  if inHiLoRange value then
    (patchWord 4 (fun word =>
      let word := if rs1ToZero deltas out offset then word &&& ~~~ rs1Mask else word
      writeToValue insn (extractBitRange value 0 32) false word) out offset).map (false, ·)
  else none

/-- The relocation types that write the bytes at their place and nothing else. -/
def applyOther (ctx : RelocationContext) (rel : Relocation) (out : Bytes) (offset : Nat) : Applied :=
  if offset + ctx.otherSize rel ≤ out.length then
    some (false, overwrite out offset (ctx.other rel ((out.drop offset).take (ctx.otherSize rel))))
  else none

/-- `apply_relocation` -/
def applyRelocation (ctx : RelocationContext) (deltas : SectionRelaxDeltas) (out : Bytes) (rel : Relocation) :
    Applied :=
  let offset := deltas.inputToOutputOffset rel.offset
  match rel.rType with
  | .relax => some (false, out)
  | .align =>
    if offset + keptPadding deltas rel ≤ out.length then some (false, applyAlignment deltas rel out) else none
  | .call | .callPlt => applyCall ctx rel out offset
  | .hi20 => applyHi20 ctx deltas rel out offset
  | .lo12I => applyLo12 ctx deltas .iType rel out offset
  | .lo12S => applyLo12 ctx deltas .sType rel out offset
  | .other _ => applyOther ctx rel out offset

/-- One turn of the loop of `apply_relocations`. -/
def relocationStep (ctx : RelocationContext) (deltas : SectionRelaxDeltas) (state : Bool × Bytes)
    (rel : Relocation) : Applied :=
  if state.1 then some (false, state.2) else applyRelocation ctx deltas state.2 rel

/-- `apply_relocations`, on the copied content of the section. -/
def applyRelocations (ctx : RelocationContext) (deltas : SectionRelaxDeltas) (relocations : List Relocation)
    (inputData : Bytes) : Applied :=
  relocations.foldlM (relocationStep ctx deltas) (false, populateSectionOutput inputData deltas)

/-! ## Frames -/

theorem getLsbD_wordAt (out : Bytes) (offset i : Nat) :
    (wordAt out offset).getLsbD i = (decide (i < 64) && bitAt out (8 * offset + i)) := by
  unfold wordAt
  rw [BitVec.getLsbD_ofNat, testBit_leNat]
  by_cases h : i < 64
  · rw [bitAt_take (by omega), bitAt_drop]
  · simp [h]

/-- Only bytes from `lo` to `hi` change. -/
structure Writes (out out' : Bytes) (lo hi : Nat) : Prop where
  length : out'.length = out.length
  outside : ∀ k, k < 8 * lo ∨ 8 * hi ≤ k → bitAt out' k = bitAt out k

theorem Writes.refl (out : Bytes) (lo hi : Nat) : Writes out out lo hi := ⟨rfl, fun _ _ => rfl⟩

theorem writes_overwrite {out new : Bytes} {offset : Nat} (h : offset + new.length ≤ out.length) :
    Writes out (overwrite out offset new) offset (offset + new.length) := by
  refine ⟨length_overwrite h, fun k hk => ?_⟩
  rw [bitAt_overwrite h, if_neg (by omega)]

theorem patchWord_writes {bytes : Nat} {f : BitVec 64 → BitVec 64} {out out' : Bytes} {offset : Nat}
    (h : patchWord bytes f out offset = some out') : Writes out out' offset (offset + bytes) := by
  unfold patchWord at h
  split at h
  · rename_i hle
    cases h
    have hlen : (leBytes bytes (f (wordAt out offset)).toNat).length = bytes := length_leBytes _ _
    have hw : Writes out (overwrite out offset (leBytes bytes (f (wordAt out offset)).toNat)) offset
        (offset + (leBytes bytes (f (wordAt out offset)).toNat).length) :=
      writes_overwrite (by rw [hlen]; exact hle)
    rw [hlen] at hw
    exact hw
  · cases h

/-- The bits of a patched word. -/
theorem patchWord_bit {bytes : Nat} {f : BitVec 64 → BitVec 64} {out out' : Bytes} {offset : Nat}
    (h : patchWord bytes f out offset = some out') {i : Nat} (hi : i < 8 * bytes) :
    bitAt out' (8 * offset + i) = (f (wordAt out offset)).getLsbD i := by
  unfold patchWord at h
  split at h
  · rename_i hle
    cases h
    rw [bitAt_overwrite (by rw [length_leBytes]; exact hle), length_leBytes, if_pos (by omega),
      show 8 * offset + i - 8 * offset = i by omega, bitAt_leBytes, decide_eq_true hi, Bool.true_and]
    rfl
  · cases h

end Reld
