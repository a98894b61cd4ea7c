import Mathlib.Data.BitVec
import Mathlib.Tactic.Ring
import Reld.Reloc.X86Got

/-!
# `Reloc.X86GotSound` — what a relaxed instruction reads

The relaxed instruction has the operation, the register and the width of the one that reads the slot, and the bytes
around it stay. Its operand is the symbol's value as far as the field can hold it: an immediate is extended with its
sign, and a displacement gives the address that the symbol moves to with the program, which an absolute symbol does not.
-/

namespace Reld

open X86 (Op Insn decode decodePrefix writeBytes littleEndian field32 isRipRelative isRegister regField rmField rexPrefix
  rex2Prefix)

/-! ## The instruction that reads the slot -/

/-- The length of the prefix that a type stands for; `R_X86_64_GOTPCREL` is used with every prefix. -/
def GotPcRelType.prefixLength : GotPcRelType → Option Nat
  | .gotpcrel       => none
  | .gotpcrelx      => some 0
  | .rexGotpcrelx   => some 1
  | .code4Gotpcrelx => some 2

/-- An instruction at `start` reads memory through the field at `offset`, its last four bytes. -/
structure ReadsSlot (type : GotPcRelType) (bytes : X86.Bytes) (start offset : Nat) (insn : Insn) : Prop where
  decoded : decode bytes start = some insn
  memory : ∃ d, insn.operand = .memory d
  field : offset + 4 = start + insn.size
  prefixed : ∀ n, type.prefixLength = some n → insn.size = n + 6

/-- The parts of such an instruction. -/
structure SlotParts (bytes : X86.Bytes) (start offset : Nat) (insn : Insn) (p : X86.Prefix) : Prop where
  prefixAt : decodePrefix bytes start = some p
  noAddr32 : bytes start ≠ 0x67
  wide : insn.wide = p.wide
  size : insn.size = p.length + 6
  offset_eq : offset = start + p.length + 2
  opcode :
    ((∃ e ∈ [((0x8b : BitVec 8), Op.mov), (0x2b, Op.sub), (0x3b, Op.cmp)], bytes (offset - 2) = e.1 ∧ insn.op = e.2) ∧
        isRipRelative (bytes (offset - 1)) = true ∧ insn.reg = regField p (bytes (offset - 1))) ∨
    ((∃ e ∈ [((0x15 : BitVec 8), Op.call), (0x25, Op.jmp)], bytes (offset - 1) = e.1 ∧ insn.op = e.2) ∧
        bytes (offset - 2) = 0xff ∧ insn.reg = 0)

variable {bytes : X86.Bytes} {offset start : Nat} {type : GotPcRelType} {insn : Insn}

theorem ReadsSlot.parts (h : ReadsSlot type bytes start offset insn) : ∃ p, SlotParts bytes start offset insn p := by
  obtain ⟨d, hd⟩ := h.memory
  obtain ⟨p, hp, h67, hwide, hsize, hop⟩ := X86.decode_memory h.decoded hd
  have hoffset : offset = start + p.length + 2 := by have := h.field; omega
  have hopcode : offset - 2 = start + p.length := by omega
  have hmodRm : offset - 1 = start + p.length + 1 := by omega
  exact ⟨p, hp, h67, hwide, hsize, hoffset, by rw [hopcode, hmodRm]; exact hop⟩

/-! ## The choice -/

/-- An instruction with an immediate that replaces one that reads memory. -/
structure ImmediateForm where
  op : Op
  opcode : BitVec 8
  newOpcode : BitVec 8
  modRm : BitVec 8
  extension : BitVec 3
  kind : Nat → X86RelaxationKind

def immediateForms : List ImmediateForm :=
  [⟨.mov, 0x8b, 0xc7, 0xc0, 0, .rexMovIndirectToAbsolute⟩,
   ⟨.sub, 0x2b, 0x81, 0xe8, 5, .rexSubIndirectToAbsolute⟩,
   ⟨.cmp, 0x3b, 0x81, 0xf8, 7, .rexCmpIndirectToAbsolute⟩]

theorem ImmediateForm.apply {form : ImmediateForm} (h : form ∈ immediateForms) (instOffset : Nat) (bytes : X86.Bytes)
    (offset : Nat) (addend : BitVec 64) :
    (form.kind instOffset).apply bytes offset addend =
      rexToAbsolute instOffset form.newOpcode form.modRm bytes offset := by
  simp only [immediateForms, List.mem_cons, List.not_mem_nil, or_false] at h
  rcases h with rfl | rfl | rfl <;> rfl

/-- The relaxations that are chosen, with what has been checked for them. -/
inductive GotChoice (type : GotPcRelType) (bytes : X86.Bytes) (offset : Nat) (final : Bool) :
    X86RelaxationKind → ByteKindInfo → Prop where
  | rexImmediate {form : ImmediateForm} {instOffset : Nat} (hform : form ∈ immediateForms)
      (htype : (type = .rexGotpcrelx ∧ instOffset = 3) ∨ (type = .code4Gotpcrelx ∧ instOffset = 4))
      (hrex : bytes (offset - 3) = 0x48 ∨ bytes (offset - 3) = 0x4c) (hopcode : bytes (offset - 2) = form.opcode)
      (hfinal : final = true) : GotChoice type bytes offset final (form.kind instOffset) .abs32
  | immediate (htype : type = .gotpcrelx) (hopcode : bytes (offset - 2) = 0x8b) (hfinal : final = true) :
      GotChoice type bytes offset final .movIndirectToAbsolute .abs32
  | lea (hopcode : bytes (offset - 2) = 0x8b) (hfinal : type ≠ .gotpcrel → final = false) :
      GotChoice type bytes offset final .movIndirectToLea .pc32
  | call (htype : type = .gotpcrelx) (hopcode : bytes (offset - 2) = 0xff) (hmodRm : bytes (offset - 1) = 0x15) :
      GotChoice type bytes offset final .callIndirectToRelative .pc32
  | jmp (htype : type = .gotpcrelx) (hopcode : bytes (offset - 2) = 0xff) (hmodRm : bytes (offset - 1) = 0x25) :
      GotChoice type bytes offset final .jmpIndirectToRelative .pc32

variable {relaxation : X86Relaxation} {outputKind : OutputKind} {flags : ValueFlags}

theorem rexRelaxation_choice (htype : type = .rexGotpcrelx ∨ type = .code4Gotpcrelx)
    (h : newGotRelaxation type bytes offset flags outputKind true = some relaxation) (hifunc : flags.isIfunc = false) :
    GotChoice type bytes offset (hasFinalValue flags outputKind) relaxation.kind relaxation.relInfo := by
  have hinst : (type = .rexGotpcrelx ∧ (if type = .rexGotpcrelx then 3 else 4) = 3) ∨
      (type = .code4Gotpcrelx ∧ (if type = .rexGotpcrelx then 3 else 4) = 4) := by
    rcases htype with rfl | rfl <;> simp
  have hmem (form : ImmediateForm) (h : form = ⟨.mov, 0x8b, 0xc7, 0xc0, 0, .rexMovIndirectToAbsolute⟩ ∨
      form = ⟨.sub, 0x2b, 0x81, 0xe8, 5, .rexSubIndirectToAbsolute⟩ ∨
      form = ⟨.cmp, 0x3b, 0x81, 0xf8, 7, .rexCmpIndirectToAbsolute⟩) : form ∈ immediateForms := by
    simpa [immediateForms] using h
  have key : (if (type = .code4Gotpcrelx ∧ offset ≥ 4 ∧ bytes (offset - 4) = 0xd5) ∨ offset ≥ 3 then
        if bytes (offset - 3) ≠ 0x48 ∧ bytes (offset - 3) ≠ 0x4c then none
        else if hasFinalValue flags outputKind then
          if bytes (offset - 2) = 0x8b then
            some ⟨.rexMovIndirectToAbsolute (if type = .rexGotpcrelx then 3 else 4), .abs32, outputKind.isStaticExecutable⟩
          else if bytes (offset - 2) = 0x2b then
            some ⟨.rexSubIndirectToAbsolute (if type = .rexGotpcrelx then 3 else 4), .abs32, outputKind.isStaticExecutable⟩
          else if bytes (offset - 2) = 0x3b then
            some ⟨.rexCmpIndirectToAbsolute (if type = .rexGotpcrelx then 3 else 4), .abs32, outputKind.isStaticExecutable⟩
          else none
        else if !flags.isInterposable then
          if bytes (offset - 2) = 0x8b then some ⟨.movIndirectToLea, .pc32, outputKind.isStaticExecutable⟩ else none
        else none
      else none) = some relaxation := by
    rcases htype with rfl | rfl <;> simpa [newGotRelaxation, hifunc] using h
  split at key
  case isFalse => simp at key
  split at key
  case isTrue => simp at key
  next hrex =>
    have hrex' : bytes (offset - 3) = 0x48 ∨ bytes (offset - 3) = 0x4c := by
      by_contra hcon
      exact hrex (not_or.mp hcon)
    split at key
    next hfinal =>
      split at key
      next hb =>
        rw [← Option.some.inj key]
        exact GotChoice.rexImmediate (hmem _ (.inl rfl)) hinst hrex' hb hfinal
      split at key
      next hb =>
        rw [← Option.some.inj key]
        exact GotChoice.rexImmediate (hmem _ (.inr (.inl rfl))) hinst hrex' hb hfinal
      split at key
      next hb =>
        rw [← Option.some.inj key]
        exact GotChoice.rexImmediate (hmem _ (.inr (.inr rfl))) hinst hrex' hb hfinal
      next => simp at key
    next hfinal =>
      split at key
      case isFalse => simp at key
      split at key
      case isFalse => simp at key
      next hb =>
        rw [← Option.some.inj key]
        exact GotChoice.lea hb fun _ => by simpa using hfinal

theorem newGotRelaxation_choice {execInstr : Bool}
    (h : newGotRelaxation type bytes offset flags outputKind execInstr = some relaxation) :
    flags.isIfunc = false ∧
      GotChoice type bytes offset (hasFinalValue flags outputKind) relaxation.kind relaxation.relInfo := by
  have hifunc : flags.isIfunc = false := by
    by_contra hcon
    simp [newGotRelaxation, hcon] at h
  have hexec : execInstr = true := by
    by_contra hcon
    simp [newGotRelaxation, hcon] at h
  subst hexec
  refine ⟨hifunc, ?_⟩
  cases htype : type with
  | rexGotpcrelx   => rw [htype] at h; exact rexRelaxation_choice (.inl rfl) h hifunc
  | code4Gotpcrelx => rw [htype] at h; exact rexRelaxation_choice (.inr rfl) h hifunc
  | gotpcrelx =>
    simp only [newGotRelaxation, htype, hifunc, Bool.false_eq_true, if_false, Bool.not_true] at h
    split at h
    next hb =>
      rw [← Option.some.inj h]
      exact GotChoice.immediate rfl hb.1 hb.2
    next hnot =>
      split at h
      next hb =>
        rw [← Option.some.inj h]
        exact GotChoice.lea hb.1 fun _ => by simpa [hb.1] using hnot
      split at h
      case isFalse => simp at h
      split at h
      next hb =>
        rw [← Option.some.inj h]
        exact GotChoice.call rfl hb.1 hb.2
      split at h
      next hb =>
        rw [← Option.some.inj h]
        exact GotChoice.jmp rfl hb.1 hb.2
      next => simp at h
  | gotpcrel =>
    simp only [newGotRelaxation, htype, hifunc, Bool.false_eq_true, if_false, Bool.not_true] at h
    split at h
    case isFalse => simp at h
    split at h
    case isFalse => simp at h
    next hb =>
      rw [← Option.some.inj h]
      exact GotChoice.lea hb fun hne => absurd rfl hne

/-! ## The rewritten bytes -/

theorem moveModRm_register (form : ImmediateForm) (h : form ∈ immediateForms) (modRm : BitVec 8) :
    isRegister (moveModRm modRm form.modRm) form.extension = true ∧
      (moveModRm modRm form.modRm).extractLsb' 0 3 = modRm.extractLsb' 3 3 := by
  have hmov : ∀ m : BitVec 8, isRegister (moveModRm m 0xc0) 0 = true ∧
      (moveModRm m 0xc0).extractLsb' 0 3 = m.extractLsb' 3 3 := by decide
  have hsub : ∀ m : BitVec 8, isRegister (moveModRm m 0xe8) 5 = true ∧
      (moveModRm m 0xe8).extractLsb' 0 3 = m.extractLsb' 3 3 := by decide
  have hcmp : ∀ m : BitVec 8, isRegister (moveModRm m 0xf8) 7 = true ∧
      (moveModRm m 0xf8).extractLsb' 0 3 = m.extractLsb' 3 3 := by decide
  simp only [immediateForms, List.mem_cons, List.not_mem_nil, or_false] at h
  rcases h with rfl | rfl | rfl
  · exact hmov modRm
  · exact hsub modRm
  · exact hcmp modRm

/-- A rewritten instruction with an immediate, behind a prefix that has the register in `rm`. -/
theorem decode_immediateForm {form : ImmediateForm} (hform : form ∈ immediateForms) {p p' : X86.Prefix}
    {modRm : BitVec 8} (hp : decodePrefix bytes start = some p') (h67 : bytes start ≠ 0x67) (hrm : p'.rm = p.reg)
    (hopcode : bytes (start + p'.length) = form.newOpcode)
    (hmodRm : bytes (start + p'.length + 1) = moveModRm modRm form.modRm) :
    decode bytes start =
      some { op := form.op, reg := regField p modRm, wide := p'.wide,
             operand := .immediate (field32 bytes (start + p'.length + 2)), size := p'.length + 6 } := by
  obtain ⟨hregister, hreg⟩ := moveModRm_register form hform modRm
  rw [X86.decode_eq hp h67, X86.decodeOpcode_immediate form.op form.extension ?_ ?_]
  · rw [hmodRm, rmField, hreg, hrm, regField]
  · rw [hopcode]
    simp only [immediateForms, List.mem_cons, List.not_mem_nil, or_false] at hform ⊢
    rcases hform with rfl | rfl | rfl <;> simp
  · rw [hmodRm]
    exact hregister

/-- The bytes that a relaxed relocation leaves. -/
def relaxedBytes (kind : X86RelaxationKind) (bytes : X86.Bytes) (offset : Nat) (addend value : BitVec 64) :
    X86.Bytes :=
  let rewrite := kind.apply bytes offset addend
  writeBytes rewrite.bytes rewrite.offset (littleEndian 4 value)

/-- The relaxed instruction: that of the slot, with another operand and perhaps another size. -/
structure RelaxedInsn (bytes : X86.Bytes) (start : Nat) (insn : Insn) (operand : X86.Operand) (size : Nat) : Prop where
  decoded : decode bytes start = some { insn with operand := operand, size := size }
  size : insn.op ≠ .jmp → size = insn.size

variable {value : BitVec 64} {kind : X86RelaxationKind}

/-- The bytes in front of the field are those of the rewriting. -/
theorem relaxedBytes_before {addend : BitVec 64} {i : Nat} (h : i < (kind.apply bytes offset addend).offset) :
    relaxedBytes kind bytes offset addend value i = (kind.apply bytes offset addend).bytes i :=
  X86.writeBytes_outside _ (.inl h)

theorem relaxedBytes_field (kind : X86RelaxationKind) (bytes : X86.Bytes) (offset : Nat) (addend value : BitVec 64) :
    field32 (relaxedBytes kind bytes offset addend value) (kind.apply bytes offset addend).offset =
      value.setWidth 32 :=
  X86.field32_writeBytes _ _ value

section
variable {bytes : X86.Bytes} {start offset : Nat} {insn : Insn} {p : X86.Prefix} (parts : SlotParts bytes start offset insn p)
include parts

theorem SlotParts.wide_of_empty (hlength : p.length = 0) : insn.wide = false := by
  rw [parts.wide, (X86.decodePrefix_length parts.prefixAt).1 hlength]

/-- An instruction with the opcode of `mov` is one. -/
theorem SlotParts.mov (hb : bytes (offset - 2) = 0x8b) :
    insn.op = .mov ∧ isRipRelative (bytes (offset - 1)) = true ∧ insn.reg = regField p (bytes (offset - 1)) := by
  rcases parts.opcode with ⟨⟨e, he, hopcode, hop⟩, hrip, hreg⟩ | ⟨-, hff, -⟩
  · refine ⟨?_, hrip, hreg⟩
    simp only [List.mem_cons, List.not_mem_nil, or_false] at he
    rw [hb] at hopcode
    rcases he with rfl | rfl | rfl
    · exact hop
    · exact absurd hopcode (by decide)
    · exact absurd hopcode (by decide)
  · rw [hb] at hff
    exact absurd hff (by decide)

theorem SlotParts.form {form : ImmediateForm} (hform : form ∈ immediateForms) (hb : bytes (offset - 2) = form.opcode) :
    insn.op = form.op ∧ insn.reg = regField p (bytes (offset - 1)) := by
  simp only [immediateForms, List.mem_cons, List.not_mem_nil, or_false] at hform
  rcases parts.opcode with ⟨⟨e, he, hopcode, hop⟩, -, hreg⟩ | ⟨-, hff, -⟩
  · refine ⟨?_, hreg⟩
    simp only [List.mem_cons, List.not_mem_nil, or_false] at he
    rw [hb] at hopcode
    rcases hform with rfl | rfl | rfl <;> rcases he with rfl | rfl | rfl <;>
      first | exact hop | exact absurd hopcode (by decide)
  · rw [hb] at hff
    rcases hform with rfl | rfl | rfl <;> exact absurd hff (by decide)

theorem SlotParts.branch (hb : bytes (offset - 2) = 0xff) :
    insn.reg = 0 ∧ (bytes (offset - 1) = 0x15 → insn.op = .call) ∧ (bytes (offset - 1) = 0x25 → insn.op = .jmp) := by
  rcases parts.opcode with ⟨⟨e, he, hopcode, -⟩, -⟩ | ⟨⟨e, he, hmodRm, hop⟩, -, hreg⟩
  · simp only [List.mem_cons, List.not_mem_nil, or_false] at he
    rw [hb] at hopcode
    rcases he with rfl | rfl | rfl <;> exact absurd hopcode (by decide)
  · refine ⟨hreg, ?_⟩
    simp only [List.mem_cons, List.not_mem_nil, or_false] at he
    rcases he with rfl | rfl
    · exact ⟨fun _ => hop, fun h => absurd (hmodRm.symm.trans h) (by decide)⟩
    · exact ⟨fun h => absurd (hmodRm.symm.trans h) (by decide), fun _ => hop⟩

/-- `lea` with the same prefix and register. -/
theorem SlotParts.lea (hb : bytes (offset - 2) = 0x8b) (addend value : BitVec 64) :
    RelaxedInsn (relaxedBytes .movIndirectToLea bytes offset addend value) start insn (.address (value.setWidth 32))
      insn.size := by
  obtain ⟨hop, hrip, hreg⟩ := parts.mov hb
  have hoffset := parts.offset_eq
  have hbefore (i : Nat) (hi : i < offset) : relaxedBytes .movIndirectToLea bytes offset addend value i =
      writeBytes bytes (offset - 2) [0x8d] i := relaxedBytes_before hi
  have hopcode : relaxedBytes .movIndirectToLea bytes offset addend value (start + p.length) = 0x8d := by
    rw [hbefore _ (by omega), show start + p.length = offset - 2 + 0 by omega]
    exact X86.writeBytes_inside bytes (by decide)
  have hmodRm : relaxedBytes .movIndirectToLea bytes offset addend value (start + p.length + 1) = bytes (offset - 1) := by
    rw [hbefore _ (by omega), show start + p.length + 1 = offset - 1 by omega]
    exact X86.writeBytes_outside bytes (.inr (by simp only [List.length_singleton]; omega))
  have hprefixed (i : Nat) (hi : i < start + p.length) :
      relaxedBytes .movIndirectToLea bytes offset addend value i = bytes i := by
    rw [hbefore _ (by omega)]
    exact X86.writeBytes_outside bytes (.inl (by omega))
  have hp : decodePrefix (relaxedBytes .movIndirectToLea bytes offset addend value) start = some p := by
    refine X86.decodePrefix_congr parts.prefixAt (fun i _ hi => hprefixed i hi) fun h0 => ?_
    rw [h0, Nat.add_zero] at hopcode
    rw [hopcode]
    decide
  have h67 : relaxedBytes .movIndirectToLea bytes offset addend value start ≠ 0x67 := by
    rcases Nat.eq_zero_or_pos p.length with h0 | hpos
    · rw [h0, Nat.add_zero] at hopcode
      rw [hopcode]
      decide
    · rw [hprefixed start (by omega)]
      exact parts.noAddr32
  refine ⟨?_, fun _ => rfl⟩
  rw [X86.decode_eq hp h67, X86.decodeOpcode_lea hopcode (by rw [hmodRm]; exact hrip), hmodRm,
    show start + p.length + 2 = offset by omega]
  have hfield := relaxedBytes_field .movIndirectToLea bytes offset addend value
  rw [show (X86RelaxationKind.movIndirectToLea.apply bytes offset addend).offset = offset from rfl] at hfield
  rw [hfield, ← hreg, ← parts.wide, ← parts.size, ← hop]

/-- An immediate instead of the slot, behind a prefix that is found at the rewritten bytes. -/
theorem SlotParts.immediate_of {form : ImmediateForm} (hform : form ∈ immediateForms)
    (hb : bytes (offset - 2) = form.opcode) {bytes' : X86.Bytes} {p' : X86.Prefix} {value : BitVec 64}
    (hp : decodePrefix bytes' start = some p') (h67 : bytes' start ≠ 0x67) (hlength : p'.length = p.length)
    (hwide : p'.wide = p.wide) (hrm : p'.rm = p.reg) (hopcode : bytes' (offset - 2) = form.newOpcode)
    (hmodRm : bytes' (offset - 1) = moveModRm (bytes (offset - 1)) form.modRm)
    (hfield : field32 bytes' offset = value.setWidth 32) :
    RelaxedInsn bytes' start insn (.immediate (value.setWidth 32)) insn.size := by
  obtain ⟨hop, hreg⟩ := parts.form hform hb
  have hoffset := parts.offset_eq
  refine ⟨?_, fun _ => rfl⟩
  rw [decode_immediateForm hform hp h67 hrm (by rw [← hopcode, hlength]; congr 1; omega)
    (by rw [← hmodRm, hlength]; congr 1; omega), hlength, show start + p.length + 2 = offset by omega, hfield, hwide,
    ← hop, ← hreg, ← parts.wide, ← parts.size]

theorem SlotParts.immediate (hlength : p.length = 0) (hb : bytes (offset - 2) = 0x8b) (addend value : BitVec 64) :
    RelaxedInsn (relaxedBytes .movIndirectToAbsolute bytes offset addend value) start insn
      (.immediate (value.setWidth 32)) insn.size := by
  have hoffset := parts.offset_eq
  have hbefore (i : Nat) (hi : i < offset) : relaxedBytes .movIndirectToAbsolute bytes offset addend value i =
      writeBytes bytes (offset - 2) [0xc7, moveModRm (bytes (offset - 1)) 0xc0] i := relaxedBytes_before hi
  have hopcode : relaxedBytes .movIndirectToAbsolute bytes offset addend value (offset - 2) = 0xc7 := by
    rw [hbefore _ (by omega)]
    exact X86.writeBytes_inside bytes (k := 0) (Nat.zero_lt_succ _)
  have hmodRm : relaxedBytes .movIndirectToAbsolute bytes offset addend value (offset - 1) =
      moveModRm (bytes (offset - 1)) 0xc0 := by
    rw [hbefore _ (by omega), show offset - 1 = offset - 2 + 1 by omega]
    exact X86.writeBytes_inside bytes (k := 1) (Nat.lt_succ_self _)
  have hstart : offset - 2 = start := by omega
  have hp : decodePrefix (relaxedBytes .movIndirectToAbsolute bytes offset addend value) start =
      some { length := 0, wide := false, reg := 0, rm := 0 } := by
    rw [hstart] at hopcode
    exact X86.decodePrefix_none (by rw [hopcode]; decide) (by rw [hopcode]; decide)
  have hp0 : p = { length := 0, wide := false, reg := 0, rm := 0 } :=
    (X86.decodePrefix_length parts.prefixAt).1 hlength
  have hform : ⟨.mov, 0x8b, 0xc7, 0xc0, 0, .rexMovIndirectToAbsolute⟩ ∈ immediateForms := List.mem_cons_self ..
  exact parts.immediate_of hform hb hp
    (by rw [← hstart, hopcode]; decide) hlength.symm (by rw [hp0]) (by rw [hp0]) hopcode hmodRm
    (relaxedBytes_field .movIndirectToAbsolute bytes offset addend value)

omit parts in
theorem rexPrefix_moved {rex : BitVec 8} (h : rex = 0x48 ∨ rex = 0x4c) :
    (movePrefix 3 rex).extractLsb' 4 4 = 4 ∧ movePrefix 3 rex ≠ 0x67 ∧
      (rexPrefix (movePrefix 3 rex)).wide = (rexPrefix rex).wide ∧
        (rexPrefix (movePrefix 3 rex)).rm = (rexPrefix rex).reg := by
  rcases h with rfl | rfl <;> decide

omit parts in
theorem rex2Prefix_moved {rex : BitVec 8} (h : rex = 0x48 ∨ rex = 0x4c) :
    (movePrefix 4 rex).getLsbD 7 = false ∧ (rex2Prefix (movePrefix 4 rex)).wide = (rex2Prefix rex).wide ∧
      (rex2Prefix (movePrefix 4 rex)).rm = (rex2Prefix rex).reg := by
  rcases h with rfl | rfl <;> decide

/-- The same behind a prefix, whose register bits move to `rm`. -/
theorem SlotParts.rexImmediate {form : ImmediateForm} (hform : form ∈ immediateForms) {instOffset : Nat}
    (hlength : p.length = 1 ∧ instOffset = 3 ∨ p.length = 2 ∧ instOffset = 4)
    (hrex : bytes (offset - 3) = 0x48 ∨ bytes (offset - 3) = 0x4c) (hb : bytes (offset - 2) = form.opcode)
    (addend value : BitVec 64) :
    RelaxedInsn (relaxedBytes (form.kind instOffset) bytes offset addend value) start insn
      (.immediate (value.setWidth 32)) insn.size := by
  have hoffset := parts.offset_eq
  have happly := ImmediateForm.apply hform instOffset bytes offset addend
  have hkind : ((form.kind instOffset).apply bytes offset addend).offset = offset := by rw [happly]; rfl
  have hbefore (i : Nat) (hi : i < offset) : relaxedBytes (form.kind instOffset) bytes offset addend value i =
      (rexToAbsolute instOffset form.newOpcode form.modRm bytes offset).bytes i := by
    rw [relaxedBytes_before (by rw [hkind]; exact hi), happly]
  have hfield := relaxedBytes_field (form.kind instOffset) bytes offset addend value
  rw [hkind] at hfield
  generalize relaxedBytes (form.kind instOffset) bytes offset addend value = bytes' at hbefore hfield ⊢
  have hmoved : bytes' (offset - 3) = movePrefix instOffset (bytes (offset - 3)) := by
    rw [hbefore _ (by omega)]
    exact X86.writeBytes_inside bytes (k := 0) (Nat.zero_lt_succ _)
  have hopcode : bytes' (offset - 2) = form.newOpcode := by
    rw [hbefore _ (by omega), show offset - 2 = offset - 3 + 1 by omega]
    exact X86.writeBytes_inside bytes (k := 1) (Nat.succ_lt_succ (Nat.zero_lt_succ _))
  have hmodRm : bytes' (offset - 1) = moveModRm (bytes (offset - 1)) form.modRm := by
    have hthird : offset - 1 = offset - 3 + 2 := by omega
    rw [hbefore _ (by omega)]
    exact (congrArg (rexToAbsolute instOffset form.newOpcode form.modRm bytes offset).bytes hthird).trans
      (X86.writeBytes_inside bytes (k := 2) (Nat.lt_succ_self 2))
  rcases hlength with ⟨h1, rfl⟩ | ⟨h2, rfl⟩
  · -- REX: the prefix is the byte in front of the opcode
    have hstart : offset - 3 = start := by omega
    rw [hstart] at hmoved hrex
    have hp : p = rexPrefix (bytes start) := (X86.decodePrefix_length parts.prefixAt).2.1 h1
    obtain ⟨h4, h67, hwide, hrm⟩ := rexPrefix_moved hrex
    rw [← hmoved] at h4 h67 hwide hrm
    exact parts.immediate_of hform hb (X86.decodePrefix_rex h4) h67 (by rw [hp]; rfl) (by rw [hp, hwide])
      (by rw [hp, hrm]) hopcode hmodRm hfield
  · -- REX2: it is the payload, behind the byte 0xd5
    have hstart : offset - 3 = start + 1 := by omega
    rw [hstart] at hmoved hrex
    have hcases : p = rex2Prefix (bytes (start + 1)) ∧ bytes start = 0xd5 :=
      (X86.decodePrefix_length parts.prefixAt).2.2 h2
    have hd5 : bytes' start = 0xd5 := by
      rw [hbefore _ (by omega), ← hcases.2]
      exact X86.writeBytes_outside bytes (.inl (by omega))
    obtain ⟨hmap, hwide, hrm⟩ := rex2Prefix_moved hrex
    rw [← hmoved] at hmap hwide hrm
    exact parts.immediate_of hform hb (X86.decodePrefix_rex2 hd5 hmap) (by rw [hd5]; decide) (by rw [hcases.1]; rfl)
      (by rw [hcases.1, hwide]) (by rw [hcases.1, hrm]) hopcode hmodRm hfield

/-- A direct call of six bytes, or a direct jump of five. -/
theorem SlotParts.call (hlength : p.length = 0) (hb : bytes (offset - 2) = 0xff) (hm : bytes (offset - 1) = 0x15)
    (addend value : BitVec 64) :
    RelaxedInsn (relaxedBytes .callIndirectToRelative bytes offset addend value) start insn
      (.address (value.setWidth 32)) insn.size := by
  have hoffset := parts.offset_eq
  obtain ⟨hreg, hop, -⟩ := parts.branch hb
  have hbefore (i : Nat) (hi : i < offset) : relaxedBytes .callIndirectToRelative bytes offset addend value i =
      writeBytes bytes (offset - 2) [0x67, 0xe8] i := relaxedBytes_before hi
  have h0 : relaxedBytes .callIndirectToRelative bytes offset addend value start = 0x67 := by
    rw [hbefore _ (by omega), show start = offset - 2 + 0 by omega]
    exact X86.writeBytes_inside bytes (Nat.zero_lt_succ _)
  have h1 : relaxedBytes .callIndirectToRelative bytes offset addend value (start + 1) = 0xe8 := by
    rw [hbefore _ (by omega), show start + 1 = offset - 2 + 1 by omega]
    exact X86.writeBytes_inside bytes (Nat.lt_succ_self _)
  have hfield : field32 (relaxedBytes .callIndirectToRelative bytes offset addend value) (start + 2) =
      value.setWidth 32 := by
    rw [show start + 2 = offset by omega]
    exact relaxedBytes_field .callIndirectToRelative bytes offset addend value
  refine ⟨?_, fun _ => rfl⟩
  rw [X86.decode_call h0 h1, hfield, ← hop hm, ← hreg, parts.size, hlength, ← parts.wide_of_empty hlength]

theorem SlotParts.jmp (hlength : p.length = 0) (hb : bytes (offset - 2) = 0xff) (hm : bytes (offset - 1) = 0x25)
    (addend value : BitVec 64) :
    RelaxedInsn (relaxedBytes .jmpIndirectToRelative bytes offset addend value) start insn
      (.address (value.setWidth 32)) 5 := by
  have hoffset := parts.offset_eq
  obtain ⟨hreg, -, hop⟩ := parts.branch hb
  have h0 : relaxedBytes .jmpIndirectToRelative bytes offset addend value start = 0xe9 := by
    rw [relaxedBytes_before (show start < offset - 1 by omega)]
    show writeBytes bytes (offset - 2) [0xe9, 0, 0, 0, 0, 0x90] start = 0xe9
    rw [show start = offset - 2 + 0 by omega]
    exact X86.writeBytes_inside bytes (Nat.zero_lt_succ _)
  have hfield : field32 (relaxedBytes .jmpIndirectToRelative bytes offset addend value) (start + 1) =
      value.setWidth 32 := by
    rw [show start + 1 = offset - 1 by omega]
    exact relaxedBytes_field .jmpIndirectToRelative bytes offset addend value
  refine ⟨?_, fun h => absurd (hop hm) h⟩
  rw [X86.decode_jmp h0, hfield, ← hop hm, ← hreg, ← parts.wide_of_empty hlength]

end

/-- Only the instruction is changed. -/
theorem GotChoice.frame {p : X86.Prefix} {final : Bool} {info : ByteKindInfo}
    (hchoice : GotChoice type bytes offset final kind info) (parts : SlotParts bytes start offset insn p)
    (hprefixed : ∀ n, type.prefixLength = some n → p.length = n) (addend value : BitVec 64) {i : Nat}
    (hi : i < start ∨ start + insn.size ≤ i) :
    relaxedBytes kind bytes offset addend value i = bytes i := by
  have hoffset := parts.offset_eq
  have hsize := parts.size
  have houtside (b : X86.Bytes) (at' : Nat) (new : List (BitVec 8)) (h : start ≤ at' ∧ at' + new.length ≤ offset + 4) :
      writeBytes b at' new i = b i := X86.writeBytes_outside b (by omega)
  cases hchoice with
  | @rexImmediate form instOffset hform htype =>
    have hlength : 1 ≤ p.length := by
      rcases htype with ⟨rfl, -⟩ | ⟨rfl, -⟩
      · exact le_of_eq (hprefixed 1 rfl).symm
      · rw [hprefixed 2 rfl]
        exact Nat.le_succ 1
    simp only [relaxedBytes, ImmediateForm.apply hform, rexToAbsolute]
    rw [houtside _ _ _ ⟨by omega, by simp⟩, houtside _ _ _ ⟨by omega, by simp; omega⟩]
  | immediate | lea | call | jmp =>
    simp only [relaxedBytes, X86RelaxationKind.apply]
    rw [houtside _ _ _ ⟨by omega, by simp⟩, houtside _ _ _ ⟨by omega, by simp; omega⟩]

/-! ## Values -/

variable {v : BitVec 64}

theorem signExtend_setWidth_of_toInt (h : -(2 ^ 31) ≤ v.toInt ∧ v.toInt < 2 ^ 31) :
    (v.setWidth 32).signExtend 64 = v := by
  apply BitVec.eq_of_toInt_eq
  rw [BitVec.toInt_signExtend_of_le (by decide), BitVec.toInt_setWidth]
  rw [BitVec.toInt_eq_toNat_cond] at h ⊢
  rw [Int.bmod_def]
  split at h <;> split <;> omega

theorem setWidth_signExtend_setWidth (v : BitVec 64) :
    ((v.setWidth 32).signExtend 64).setWidth 32 = v.setWidth 32 := by
  apply BitVec.eq_of_getLsbD_eq
  intro i hi
  rw [BitVec.getLsbD_setWidth, BitVec.getLsbD_signExtend, if_pos hi]
  simp [hi, show i < 64 by omega]

/-- An immediate of 32 bits stands for a value below 2^32 only if its sign is not extended. -/
theorem signExtend_setWidth_eq_iff (h : v.toNat < 2 ^ 32) :
    (v.setWidth 32).signExtend 64 = v ↔ v.toNat < 2 ^ 31 := by
  constructor
  · intro heq
    have hint := congrArg BitVec.toInt heq
    rw [BitVec.toInt_signExtend_of_le (by decide), BitVec.toInt_setWidth, BitVec.toInt_eq_toNat_cond,
      Int.bmod_def] at hint
    split at hint <;> split at hint <;> omega
  · intro hlt
    apply signExtend_setWidth_of_toInt
    rw [BitVec.toInt_eq_toNat_cond]
    split <;> omega

theorem abs32_verify (h : ByteKindInfo.abs32.verify v = true) : v.toNat < 2 ^ 32 := by
  simp only [ByteKindInfo.verify, ByteKindInfo.abs32, AllowedRange.contains, AllowedRange.fromBitSize, Bool.and_eq_true,
    decide_eq_true_eq] at h
  have h2 := h.2
  rw [BitVec.toInt_eq_toNat_cond] at h2
  simp at h2
  split at h2 <;> omega

theorem pc32_verify (h : ByteKindInfo.pc32.verify v = true) :
    -(2 ^ 31) ≤ v.toInt ∧ v.toInt < 2 ^ 31 := by
  simp only [ByteKindInfo.verify, ByteKindInfo.pc32, AllowedRange.contains, AllowedRange.fromBitSize, Bool.and_eq_true,
    decide_eq_true_eq] at h
  simpa using h.2

/-! ## The relaxed relocation -/

/-- `merged_symbol_resolution`: the resolution of a symbol with the flags of a reference to it. -/
def mergedSymbolResolution (resolution : GotResolution) (localFlags : ValueFlags) : GotResolution :=
  { resolution with flags := resolution.flags.merge localFlags }

/-- The relaxed code does the same as the instruction that reads the slot, in a program whose code is at `rip` and
whose slot holds `word`; the loader does not write to it. -/
structure SameEffect (bytes : X86.Bytes) (applied : AppliedRelocation) (start : Nat) (insn : Insn) (rip word : BitVec 64) :
    Prop where
  exec : ∃ insn', decode applied.bytes start = some insn' ∧
    ∀ (word' : BitVec 64) (s : X86.State), s.rip = rip → X86.exec word' insn' s = X86.exec word insn s
  frame : ∀ i, i < start ∨ start + insn.size ≤ i → applied.bytes i = bytes i
  final : applied.dynamic = none

/-- The instruction gets the value as an immediate. -/
def TakesImmediate (type : GotPcRelType) (insn : Insn) (flags : ValueFlags) (outputKind : OutputKind) : Prop :=
  type ≠ .gotpcrel ∧ insn.op ≠ .call ∧ insn.op ≠ .jmp ∧ hasFinalValue flags outputKind = true

instance (type : GotPcRelType) (insn : Insn) (flags : ValueFlags) (outputKind : OutputKind) :
    Decidable (TakesImmediate type insn flags outputKind) :=
  inferInstanceAs (Decidable (_ ∧ _ ∧ _ ∧ _))

/-- When the relaxation is right: an immediate, if the loader has nothing to write, the slot is not looked up to
something else and the sign of a 64-bit operand is not extended; an address, if the slot's value moves with the program,
or the program is where it was linked. -/
def RelaxationHolds (type : GotPcRelType) (insn : Insn) (resolution : GotResolution) (localFlags : ValueFlags)
    (outputKind : OutputKind) (sectionInfo : SectionInfo) (base found : BitVec 64) : Prop :=
  let flags := resolution.flags.merge localFlags
  let value := resolution.rawValue
  let slot := gotSlot outputKind resolution.flags value
  if TakesImmediate type insn flags outputKind then
    ¬(sectionInfo.isAlloc = true ∧ flags.isInterposable = true ∧ sectionInfo.isWritable = true) ∧
      match slot with
      | .dynamicSymbol => X86.sized insn.wide ((value.setWidth 32).signExtend 64) = X86.sized insn.wide found
      | _ => insn.wide = true → value.toNat < 2 ^ 31
  else
    match slot with
    | .address _     => True
    | .value _       => X86.seen insn.op insn.wide base = 0
    | .dynamicSymbol => X86.seen insn.op insn.wide (base + value) = X86.seen insn.op insn.wide found

@[simp] theorem isAbsolute_merge (f g : ValueFlags) : (f.merge g).isAbsolute = f.isAbsolute := by
  simp only [ValueFlags.merge, ValueFlags.isAbsolute]
  split <;> simp

@[simp] theorem isDynamic_merge (f g : ValueFlags) : (f.merge g).isDynamic = f.isDynamic := by
  simp only [ValueFlags.merge, ValueFlags.isDynamic]
  split <;> simp

@[simp] theorem isAddress_merge (f g : ValueFlags) : (f.merge g).isAddress = f.isAddress := by
  simp only [ValueFlags.merge, ValueFlags.isAddress]
  split <;> simp

/-- An instruction that takes an immediate does not see the slot moved. -/
theorem gotSlot_of_final {localFlags : ValueFlags} (value : BitVec 64)
    (h : hasFinalValue (flags.merge localFlags) outputKind = true) :
    gotSlot outputKind flags value = .dynamicSymbol ∨ gotSlot outputKind flags value = .value value := by
  simp only [hasFinalValue, isAbsolute_merge, isDynamic_merge, isAddress_merge] at h
  simp only [gotSlot]
  split
  · exact .inl rfl
  · right
    split
    next haddress =>
      simp [ValueFlags.isAddress, ValueFlags.isAbsolute] at h haddress
      simp_all
    · rfl

variable {resolution : GotResolution} {sectionInfo : SectionInfo}

/-- The value that is written for a symbol whose value is final. -/
theorem writeAbsoluteRelocation_of_final {out : DynamicOutput} {place : BitVec 64} {dynamic : Option DynamicRelocation}
    (hfinal : hasFinalValue resolution.flags out.outputKind = true) (hifunc : resolution.flags.isIfunc = false)
    (h : writeAbsoluteRelocation out resolution place 0 sectionInfo = some (value, dynamic)) :
    (dynamic = none ↔ ¬(sectionInfo.isAlloc = true ∧ resolution.flags.isInterposable = true ∧
      sectionInfo.isWritable = true)) ∧ (dynamic = none → value = resolution.rawValue) := by
  have hdynamic : resolution.flags.isDynamic = false := by
    simp [hasFinalValue, ValueFlags.isAddress, ValueFlags.isDynamic] at hfinal ⊢
    rcases hfinal with h | h
    · exact h.2
    · exact h.1.1.2
  have hrelative : (out.outputKind.isRelocatable && !resolution.flags.isAbsolute) = false := by
    simp [hasFinalValue, ValueFlags.isAddress, ValueFlags.isAbsolute] at hfinal ⊢
    rcases hfinal with h | h
    · exact fun _ => h.1
    · exact fun hr => absurd hr (by simp [h.2])
  simp only [writeAbsoluteRelocation, hdynamic, hifunc, hrelative, Bool.false_and, Bool.false_eq_true, if_false] at h
  split at h
  next halloc =>
    simp_all
  next halloc =>
    split at h
    next hwritten =>
      obtain ⟨index, -, hindex⟩ := Option.map_eq_some_iff.mp h
      obtain ⟨rfl, rfl⟩ := hindex
      simp_all
    next hwritten =>
      simp_all

variable {applied : AppliedRelocation}

theorem applyGotRelaxation_eq_some {out : DynamicOutput} {addend : BitVec 64} (hsize : relaxation.relInfo.byteSize = 4)
    (h : applyGotRelaxation out resolution sectionInfo relaxation bytes offset addend = some applied) :
    ∃ value dynamic, relaxation.relInfo.verify value = true ∧
      applied = ⟨relaxedBytes relaxation.kind bytes offset addend value, dynamic⟩ ∧
      let rewrite := relaxation.kind.apply bytes offset addend
      let place := sectionInfo.sectionAddress + BitVec.ofNat 64 rewrite.offset
      (relaxation.relInfo.kind = .absolute →
        writeAbsoluteRelocation out resolution place rewrite.addend sectionInfo = some (value, dynamic)) ∧
      (relaxation.relInfo.kind = .relative → value = resolution.rawValue + rewrite.addend - place ∧ dynamic = none) := by
  simp only [applyGotRelaxation, Option.bind_eq_bind, Option.bind_eq_some_iff, Prod.exists] at h
  obtain ⟨value, dynamic, hvalue, bytes', hwrite, happlied⟩ := h
  refine ⟨value, dynamic, ?_, ?_, ?_, ?_⟩
  · rw [ByteKindInfo.writeToBuffer] at hwrite
    split at hwrite
    next hverify => exact hverify
    next => simp at hwrite
  · rw [ByteKindInfo.writeToBuffer, hsize] at hwrite
    split at hwrite
    next => rw [← Option.some.inj happlied, ← Option.some.inj hwrite]; rfl
    next => simp at hwrite
  · intro hkind
    rw [hkind] at hvalue
    exact hvalue
  · intro hkind
    rw [hkind] at hvalue
    have hpair : (_, _) = (value, dynamic) := Option.some.inj hvalue
    exact ⟨(congrArg Prod.fst hpair).symm, (congrArg Prod.snd hpair).symm⟩

/-- An instruction with another operand has the same effect if its value looks the same. -/
theorem sameEffect_iff {size : Nat} {rip word : BitVec 64} {operand : X86.Operand}
    (hinsn : RelaxedInsn applied.bytes start insn operand size) (hmemory : ∃ d, insn.operand = .memory d)
    (hvalue : ∀ word', operand.value (rip + BitVec.ofNat 64 size) word' = value)
    (hframe : ∀ i, i < start ∨ start + insn.size ≤ i → applied.bytes i = bytes i) :
    SameEffect bytes applied start insn rip word ↔
      applied.dynamic = none ∧ X86.seen insn.op insn.wide value = X86.seen insn.op insn.wide word := by
  obtain ⟨d, hd⟩ := hmemory
  have hexec (word' : BitVec 64) :=
    @X86.exec_eq_iff insn { insn with operand := operand, size := size } rip word word' rfl rfl rfl hinsn.size
  have hword (next : BitVec 64) : insn.operand.value next word = word := by rw [hd]; rfl
  simp only [hvalue, hword] at hexec
  constructor
  · intro h
    obtain ⟨insn', hdecoded, hsame⟩ := h.exec
    rw [hinsn.decoded, Option.some.injEq] at hdecoded
    subst hdecoded
    exact ⟨h.final, (hexec 0).mp (hsame 0)⟩
  · rintro ⟨hfinal, hseen⟩
    exact ⟨⟨_, hinsn.decoded, fun word' => (hexec word').mpr hseen⟩, hframe, hfinal⟩

/-- The address that a displacement reaches is the symbol's, moved with the program. -/
theorem address_value {base sectionAddress rawValue : BitVec 64} {size : Nat} (hfield : start + size = offset + 4)
    (hverify : ByteKindInfo.pc32.verify
      (rawValue + (-4 : BitVec 64) - (sectionAddress + BitVec.ofNat 64 offset)) = true) (word' : BitVec 64) :
    (X86.Operand.address
        ((rawValue + (-4 : BitVec 64) - (sectionAddress + BitVec.ofNat 64 offset)).setWidth 32)).value
      (base + sectionAddress + BitVec.ofNat 64 start + BitVec.ofNat 64 size) word' = base + rawValue := by
  have hend : BitVec.ofNat 64 start + BitVec.ofNat 64 size = BitVec.ofNat 64 offset + 4 := by
    rw [← BitVec.ofNat_add, hfield, BitVec.ofNat_add]
    rfl
  rw [X86.Operand.value, signExtend_setWidth_of_toInt (pc32_verify hverify), add_assoc (base + sectionAddress), hend]
  ring

theorem seen_of_noBranch {op : Op} (hcall : op ≠ .call) (hjmp : op ≠ .jmp) (wide : Bool) (value : BitVec 64) :
    X86.seen op wide value = X86.sized wide value := by
  cases op with
  | mov | sub | cmp => rfl
  | call => exact absurd rfl hcall
  | jmp => exact absurd rfl hjmp

theorem sized_add_iff (wide : Bool) (a b : BitVec 64) : X86.sized wide (a + b) = X86.sized wide b ↔ X86.sized wide a = 0 := by
  have hcancel {w : Nat} (x y : BitVec w) : x + y = y ↔ x = 0 := by
    constructor
    · intro h
      have := congrArg (· - y) h
      simpa using this
    · rintro rfl
      exact BitVec.zero_add y
  cases wide with
  | true  => exact hcancel a b
  | false =>
    have hzero := X86.setWidth_inj (a.setWidth 32) 0
    simp only [X86.sized, Bool.false_eq_true, if_false, X86.setWidth_inj,
      BitVec.setWidth_add _ _ (show 32 ≤ 64 by decide), hcancel]
    exact hzero.symm

theorem seen_add_iff (op : Op) (wide : Bool) (a b : BitVec 64) :
    X86.seen op wide (a + b) = X86.seen op wide b ↔ X86.seen op wide a = 0 := by
  cases op with
  | mov | sub | cmp => exact sized_add_iff wide a b
  | call | jmp      => exact sized_add_iff true a b

section
variable {type : GotPcRelType} {bytes : X86.Bytes} {start : Nat} {insn : Insn} {out : DynamicOutput}
  {resolution : GotResolution} {localFlags : ValueFlags} {sectionInfo : SectionInfo} {bytes' : X86.Bytes}
  {value base found rip : BitVec 64}

/-- The relaxations to an immediate. -/
theorem immediate_sound_iff {dynamic : Option DynamicRelocation} {place : BitVec 64}
    (htakes : TakesImmediate type insn (resolution.flags.merge localFlags) out.outputKind)
    (hifunc : (resolution.flags.merge localFlags).isIfunc = false)
    (hmemory : ∃ d, insn.operand = .memory d)
    (hinsn : RelaxedInsn bytes' start insn (.immediate (value.setWidth 32)) insn.size)
    (hframe : ∀ i, i < start ∨ start + insn.size ≤ i → bytes' i = bytes i)
    (hverify : ByteKindInfo.abs32.verify value = true)
    (hwrite : writeAbsoluteRelocation out (mergedSymbolResolution resolution localFlags) place 0 sectionInfo =
      some (value, dynamic)) :
    SameEffect bytes ⟨bytes', dynamic⟩ start insn rip
        ((gotSlot out.outputKind resolution.flags resolution.rawValue).loaded base found) ↔
      RelaxationHolds type insn resolution localFlags out.outputKind sectionInfo base found := by
  obtain ⟨hdynamic, hvalue⟩ := @writeAbsoluteRelocation_of_final _ (mergedSymbolResolution resolution localFlags) _ _ _
    _ htakes.2.2.2 hifunc hwrite
  rw [sameEffect_iff hinsn hmemory (fun _ => rfl) hframe, RelaxationHolds, if_pos htakes]
  refine (and_congr_right fun hnone => ?_).trans (and_congr_left' hdynamic)
  have hraw : value = resolution.rawValue := hvalue hnone
  rw [seen_of_noBranch htakes.2.1 htakes.2.2.1, seen_of_noBranch htakes.2.1 htakes.2.2.1, hraw]
  rw [hraw] at hverify
  rcases gotSlot_of_final resolution.rawValue htakes.2.2.2 with hslot | hslot
  · rw [hslot]
    rfl
  · rw [hslot]
    cases hwide : insn.wide with
    | true  =>
      exact (signExtend_setWidth_eq_iff (abs32_verify hverify)).trans ⟨fun h _ => h, fun h => h rfl⟩
    | false =>
      refine ⟨fun _ h => absurd h Bool.false_ne_true, fun _ => ?_⟩
      exact congrArg (BitVec.setWidth 64) (setWidth_signExtend_setWidth resolution.rawValue)

theorem gotSlot_cases (outputKind : OutputKind) (definition : ValueFlags) (rawValue : BitVec 64) :
    gotSlot outputKind definition rawValue = .dynamicSymbol ∨ gotSlot outputKind definition rawValue = .address rawValue ∨
      gotSlot outputKind definition rawValue = .value rawValue := by
  simp only [gotSlot]
  split
  · exact .inl rfl
  · split
    · exact .inr (.inl rfl)
    · exact .inr (.inr rfl)

/-- The relaxations to an address. -/
theorem address_sound_iff {size : Nat}
    (hnot : ¬TakesImmediate type insn (resolution.flags.merge localFlags) out.outputKind)
    (hmemory : ∃ d, insn.operand = .memory d)
    (hinsn : RelaxedInsn bytes' start insn (.address (value.setWidth 32)) size)
    (hframe : ∀ i, i < start ∨ start + insn.size ≤ i → bytes' i = bytes i)
    (hvalue : ∀ word', (X86.Operand.address (value.setWidth 32)).value (rip + BitVec.ofNat 64 size) word' =
      base + resolution.rawValue) :
    SameEffect bytes ⟨bytes', none⟩ start insn rip
        ((gotSlot out.outputKind resolution.flags resolution.rawValue).loaded base found) ↔
      RelaxationHolds type insn resolution localFlags out.outputKind sectionInfo base found := by
  rw [sameEffect_iff hinsn hmemory hvalue hframe, RelaxationHolds, if_neg hnot]
  simp only [true_and]
  rcases gotSlot_cases out.outputKind resolution.flags resolution.rawValue with hslot | hslot | hslot
  · rw [hslot]
    rfl
  · simp [hslot, GotSlot.loaded]
  · simp only [hslot, GotSlot.loaded]
    exact seen_add_iff _ _ _ _

end

/-- A relaxed read of a GOT slot has the effect of the read exactly under `RelaxationHolds`, wherever the program is
loaded and whatever its loader finds. -/
theorem got_relaxation_sound_iff {type : GotPcRelType} {bytes : X86.Bytes} {start offset : Nat} {insn : Insn}
    {out : DynamicOutput} {resolution : GotResolution} {localFlags : ValueFlags} {sectionInfo : SectionInfo}
    {relaxation : X86Relaxation} {applied : AppliedRelocation} (hsite : ReadsSlot type bytes start offset insn)
    (hnew : newGotRelaxation type bytes offset (resolution.flags.merge localFlags) out.outputKind
      sectionInfo.execInstr = some relaxation)
    (happly : applyGotRelaxation out (mergedSymbolResolution resolution localFlags) sectionInfo relaxation bytes offset
      (-4) = some applied) (base found : BitVec 64) :
    SameEffect bytes applied start insn (base + sectionInfo.sectionAddress + BitVec.ofNat 64 start)
        ((gotSlot out.outputKind resolution.flags resolution.rawValue).loaded base found) ↔
      RelaxationHolds type insn resolution localFlags out.outputKind sectionInfo base found := by
  obtain ⟨p, parts⟩ := hsite.parts
  obtain ⟨hifunc, hchoice⟩ := newGotRelaxation_choice hnew
  have hprefixed (n : Nat) (hn : type.prefixLength = some n) : p.length = n := by
    have := hsite.prefixed n hn
    have := parts.size
    omega
  have hsize : relaxation.relInfo.byteSize = 4 := by
    generalize relaxation.kind = kind at hchoice
    generalize relaxation.relInfo = info at hchoice
    cases hchoice <;> rfl
  obtain ⟨value, dynamic, hverify, rfl, habsolute, hrelative⟩ := applyGotRelaxation_eq_some hsize happly
  have hframe (i : Nat) (hi : i < start ∨ start + insn.size ≤ i) :
      relaxedBytes relaxation.kind bytes offset (-4) value i = bytes i := hchoice.frame parts hprefixed (-4) value hi
  have hfield : start + insn.size = offset + 4 := hsite.field.symm
  generalize relaxation.kind = kind at hchoice hframe habsolute hrelative ⊢
  generalize relaxation.relInfo = info at hchoice hverify habsolute hrelative
  cases hchoice with
  | @rexImmediate form instOffset hform htype hrex hopcode hfinal =>
    have hlength : p.length = 1 ∧ instOffset = 3 ∨ p.length = 2 ∧ instOffset = 4 := by
      rcases htype with ⟨rfl, h⟩ | ⟨rfl, h⟩
      · exact .inl ⟨hprefixed 1 rfl, h⟩
      · exact .inr ⟨hprefixed 2 rfl, h⟩
    have hop := (parts.form hform hopcode).1
    have htakes : TakesImmediate type insn (resolution.flags.merge localFlags) out.outputKind := by
      refine ⟨?_, ?_, ?_, hfinal⟩
      · rcases htype with ⟨rfl, -⟩ | ⟨rfl, -⟩ <;> simp
      all_goals
        rw [hop]
        simp only [immediateForms, List.mem_cons, List.not_mem_nil, or_false] at hform
        rcases hform with rfl | rfl | rfl <;> simp
    have hwrite := habsolute rfl
    rw [ImmediateForm.apply hform] at hwrite
    exact immediate_sound_iff htakes hifunc hsite.memory (parts.rexImmediate hform hlength hrex hopcode (-4) value) hframe
      hverify hwrite
  | immediate htype hopcode hfinal =>
    have hlength : p.length = 0 := hprefixed 0 (by rw [htype]; rfl)
    have hop := (parts.mov hopcode).1
    have htakes : TakesImmediate type insn (resolution.flags.merge localFlags) out.outputKind :=
      ⟨by rw [htype]; simp, by rw [hop]; simp, by rw [hop]; simp, hfinal⟩
    exact immediate_sound_iff htakes hifunc hsite.memory (parts.immediate hlength hopcode (-4) value) hframe hverify
      (habsolute rfl)
  | lea hopcode hfinal =>
    obtain ⟨hvalue, rfl⟩ := hrelative rfl
    have hnot : ¬TakesImmediate type insn (resolution.flags.merge localFlags) out.outputKind :=
      fun h => Bool.false_ne_true ((hfinal h.1).symm.trans h.2.2.2)
    subst hvalue
    exact address_sound_iff hnot hsite.memory (parts.lea hopcode (-4) _) hframe fun word' =>
      address_value hfield hverify word'
  | call htype hopcode hmodRm =>
    obtain ⟨hvalue, rfl⟩ := hrelative rfl
    have hlength : p.length = 0 := hprefixed 0 (by rw [htype]; rfl)
    have hnot : ¬TakesImmediate type insn (resolution.flags.merge localFlags) out.outputKind :=
      fun h => h.2.1 ((parts.branch hopcode).2.1 hmodRm)
    subst hvalue
    exact address_sound_iff hnot hsite.memory (parts.call hlength hopcode hmodRm (-4) _) hframe fun word' =>
      address_value hfield hverify word'
  | jmp htype hopcode hmodRm =>
    obtain ⟨hvalue, rfl⟩ := hrelative rfl
    have hlength : p.length = 0 := hprefixed 0 (by rw [htype]; rfl)
    have hnot : ¬TakesImmediate type insn (resolution.flags.merge localFlags) out.outputKind :=
      fun h => h.2.2.1 ((parts.branch hopcode).2.2 hmodRm)
    have hoffset := parts.offset_eq
    subst hvalue
    -- the field is a byte earlier, and so is the end of the instruction
    exact address_sound_iff hnot hsite.memory (parts.jmp hlength hopcode hmodRm (-4) _) hframe fun word' =>
      address_value (show start + 5 = offset - 1 + 4 by omega) hverify word'

/-! ## A read into a 64-bit register -/

/-- `mov x@GOTPCREL(%rip), %rax` -/
def slotRead : X86.Bytes := fun i => ([0x48, 0x8b, 0x05] : List (BitVec 8)).getD i 0

def slotReadInsn : Insn := { op := .mov, reg := 0, wide := true, operand := .memory 0, size := 7 }

/-- A symbol of the executable itself. -/
def resolutionAt (rawValue : BitVec 64) : GotResolution :=
  { rawValue := rawValue, dynamicSymbolIndex := none, flags := .ofList [.nonInterposable] }

/-- An executable at a fixed address. -/
def fixedExecutable : DynamicOutput := { outputKind := .staticExecutable .nonRelocatable, hasRelr := false }

def fixedTextSection : SectionInfo := { sectionAddress := 0x401000, isAlloc := true, isWritable := false, execInstr := true }

theorem slotRead_reads : ReadsSlot .rexGotpcrelx slotRead 0 3 slotReadInsn :=
  ⟨by decide, ⟨0, rfl⟩, rfl, fun n hn => by cases hn; rfl⟩

def slotReadRelaxation : X86Relaxation := ⟨.rexMovIndirectToAbsolute 3, .abs32, true⟩

/-- Below 2^31 the register gets the address. -/
theorem got_relaxation_sound_low :
    ∃ applied, applyGotRelaxation fixedExecutable (mergedSymbolResolution (resolutionAt 0x402000) .empty) fixedTextSection
        slotReadRelaxation slotRead 3 (-4) = some applied ∧
      SameEffect slotRead applied 0 slotReadInsn 0x401000 0x402000 := by
  refine ⟨_, rfl, ?_⟩
  refine (@got_relaxation_sound_iff _ _ _ _ _ fixedExecutable (resolutionAt 0x402000) .empty fixedTextSection
    slotReadRelaxation _ slotRead_reads rfl rfl 0 0).mpr ?_
  exact ⟨by decide, fun _ => by decide⟩

/-- From there on the relocation is accepted, but the immediate is extended with its sign. -/
theorem got_relaxation_extends_sign :
    newGotRelaxation .rexGotpcrelx slotRead 3 ((resolutionAt 0x80000000).flags.merge .empty) fixedExecutable.outputKind
        fixedTextSection.execInstr = some slotReadRelaxation ∧
      ∃ applied, applyGotRelaxation fixedExecutable (mergedSymbolResolution (resolutionAt 0x80000000) .empty)
          fixedTextSection slotReadRelaxation slotRead 3 (-4) = some applied ∧
        ¬SameEffect slotRead applied 0 slotReadInsn 0x401000 0x80000000 := by
  refine ⟨rfl, _, rfl, fun h => ?_⟩
  obtain ⟨insn', hdecoded, hsame⟩ := h.exec
  have hinsn : insn' = { slotReadInsn with operand := .immediate 0x80000000 } :=
    Option.some.inj (hdecoded.symm.trans (by decide))
  let s : X86.State := ⟨0x401000, fun _ => 0, ⟨false, false, false, false⟩, fun _ => 0⟩
  have hrax := congrFun (congrArg X86.State.regs (hsame 0 s rfl)) 0
  rw [hinsn] at hrax
  exact absurd hrax (by decide)

end Reld
