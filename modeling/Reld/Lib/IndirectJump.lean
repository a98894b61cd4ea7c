import Mathlib.Data.BitVec

/-!
# `Lib.IndirectJump` — code that jumps to an address in memory

Straight-line code up to its first jump, as a list of decoded instructions. Where it goes depends on the registers and
on memory; `JumpsThrough` says that it is what one slot of memory holds, whatever the registers and all other memory
hold. Addresses that count from the place of an instruction are part of what it is decoded to.
-/

namespace IndirectJump

/-- A decoded instruction. The target of a jump is masked. -/
inductive Insn (Reg : Type) where
  | skip
  | set (register : Reg) (value : BitVec 64)
  | load (register base : Reg) (offset : BitVec 64)
  | jump (base : Reg) (offset mask : BitVec 64)
  | jumpThrough (slot : BitVec 64)
deriving DecidableEq, Repr

variable {Reg : Type} [DecidableEq Reg]

/-- Where the code goes, `none` if it ends or if an instruction is not decoded. -/
def target (memory : BitVec 64 → BitVec 64) : List (Option (Insn Reg)) → (Reg → BitVec 64) → Option (BitVec 64)
  | [], _ => none
  | none :: _, _ => none
  | some .skip :: code, x => target memory code x
  | some (.set register value) :: code, x => target memory code (Function.update x register value)
  | some (.load register base offset) :: code, x =>
    target memory code (Function.update x register (memory (x base + offset)))
  | some (.jump base offset mask) :: _, x => some ((x base + offset) &&& mask)
  | some (.jumpThrough slot) :: _, _ => some (memory slot)

/-- The code goes to what the slot holds. -/
def JumpsThrough (code : List (Option (Insn Reg))) (slot mask : BitVec 64) : Prop :=
  ∀ memory x, target memory code x = some (memory slot &&& mask)

variable {code : List (Option (Insn Reg))} {slot mask : BitVec 64}

theorem not_jumpsThrough_none : ¬JumpsThrough (none :: code) slot mask := fun h =>
  nomatch h (fun _ => 0) fun _ => 0

theorem jumpsThrough_skip : JumpsThrough (some .skip :: code) slot mask ↔ JumpsThrough code slot mask := Iff.rfl

/-- Two addresses are told apart by a memory that has all bits set at one of them only. -/
theorem memory_eq_iff (hmask : mask ≠ 0) {address : BitVec 64} :
    (∀ memory : BitVec 64 → BitVec 64, memory address &&& mask = memory slot &&& mask) ↔ address = slot := by
  constructor
  · intro h
    by_contra hne
    have hslot := h fun a => if a = slot then BitVec.allOnes 64 else 0
    rw [if_neg hne, if_pos rfl, BitVec.allOnes_and, BitVec.ofNat_eq_ofNat, BitVec.zero_and] at hslot
    exact hmask hslot.symm
  · rintro rfl _
    rfl

theorem jumpsThrough_slot {address : BitVec 64} :
    JumpsThrough (some (.jumpThrough address) :: code) slot (BitVec.allOnes 64) ↔ address = slot := by
  have hones : BitVec.allOnes 64 ≠ 0 := by decide
  rw [← memory_eq_iff hones]
  simp only [JumpsThrough, target, Option.some_inj, BitVec.and_allOnes, forall_const]

/-- An address in a register, a load and a jump. -/
theorem jumpsThrough_load (hmask : mask ≠ 0) {base register : Reg} {value offset : BitVec 64} :
    JumpsThrough (some (.set base value) :: some (.load register base offset) :: some (.jump register 0 mask) :: code)
      slot mask ↔ value + offset = slot := by
  rw [← memory_eq_iff hmask]
  simp only [JumpsThrough, target, Function.update_self, Option.some_inj, BitVec.ofNat_eq_ofNat, BitVec.add_zero,
    forall_const]

end IndirectJump
