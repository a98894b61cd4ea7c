import Mathlib.Data.Nat.Bitwise

/-!
# `Lib.X86` — moves, subtractions and branches of x86-64

The instructions that read a 64-bit word through a `rip`-relative operand, and the forms that take an immediate or an
address instead: `mov`, `sub`, `cmp`, `lea`, `call` and `jmp`, without a prefix or with a REX or REX2 prefix. An
instruction is decoded from bytes; what it does depends on its operation, its register, its width and the value of its
operand, so two instructions that agree on these do the same (`exec_congr`).
-/

namespace X86

/-! ## Bytes -/

abbrev Bytes := Nat → BitVec 8

/-- The bytes with new ones from an offset on. -/
def writeBytes (bytes : Bytes) (offset : Nat) (new : List (BitVec 8)) : Bytes :=
  fun i => if offset ≤ i ∧ i < offset + new.length then new.getD (i - offset) 0 else bytes i

variable {new : List (BitVec 8)}

theorem writeBytes_outside (bytes : Bytes) {offset i : Nat} (h : i < offset ∨ offset + new.length ≤ i) :
    writeBytes bytes offset new i = bytes i :=
  if_neg (by omega)

theorem writeBytes_inside (bytes : Bytes) {offset k : Nat} (h : k < new.length) :
    writeBytes bytes offset new (offset + k) = new.getD k 0 := by
  rw [writeBytes, if_pos (by omega), Nat.add_sub_cancel_left]

/-- The four bytes of a field, least significant first. -/
def field32 (bytes : Bytes) (offset : Nat) : BitVec 32 :=
  bytes (offset + 3) ++ bytes (offset + 2) ++ bytes (offset + 1) ++ bytes offset

/-- The low bytes of a value, least significant first. -/
def littleEndian (n : Nat) (value : BitVec 64) : List (BitVec 8) :=
  (List.range n).map fun i => value.extractLsb' (8 * i) 8

@[simp] theorem length_littleEndian (n : Nat) (value : BitVec 64) : (littleEndian n value).length = n := by
  simp [littleEndian]

theorem field32_writeBytes (bytes : Bytes) (offset : Nat) (value : BitVec 64) :
    field32 (writeBytes bytes offset (littleEndian 4 value)) offset = value.setWidth 32 := by
  have h0 : writeBytes bytes offset (littleEndian 4 value) offset = value.extractLsb' 0 8 :=
    writeBytes_inside bytes (k := 0) (by simp)
  have h1 : writeBytes bytes offset (littleEndian 4 value) (offset + 1) = value.extractLsb' 8 8 :=
    writeBytes_inside bytes (by simp)
  have h2 : writeBytes bytes offset (littleEndian 4 value) (offset + 2) = value.extractLsb' 16 8 :=
    writeBytes_inside bytes (by simp)
  have h3 : writeBytes bytes offset (littleEndian 4 value) (offset + 3) = value.extractLsb' 24 8 :=
    writeBytes_inside bytes (by simp)
  rw [field32, h0, h1, h2, h3]
  ext i hi
  simp only [BitVec.getElem_append, BitVec.getElem_extractLsb', BitVec.getElem_setWidth]
  split
  · rw [Nat.zero_add]
  · split
    · exact congrArg value.getLsbD (by omega)
    · split
      · exact congrArg value.getLsbD (by omega)
      · exact congrArg value.getLsbD (by omega)

/-! ## Decoding -/

inductive Op where
  | mov
  | sub
  | cmp
  | call
  | jmp
deriving DecidableEq, Repr

/-- The second operand, or the target of a branch. -/
inductive Operand where
  /-- a word of memory at a distance from the next instruction -/
  | memory (displacement : BitVec 32)
  | immediate (value : BitVec 32)
  /-- the address at a distance from the next instruction itself -/
  | address (displacement : BitVec 32)
deriving DecidableEq, Repr

/-- A decoded instruction. The register of a branch and its width are not used. -/
structure Insn where
  op : Op
  reg : BitVec 5
  wide : Bool
  operand : Operand
  size : Nat
deriving DecidableEq, Repr

/-- What a prefix adds to the instruction behind it: its length, the width, and the high bits of the register fields
`reg` and `rm` of ModRM. -/
structure Prefix where
  length : Nat
  wide : Bool
  reg : BitVec 2
  rm : BitVec 2
deriving DecidableEq, Repr

/-- The bits W, R and B of a REX prefix. -/
def rexPrefix (rex : BitVec 8) : Prefix :=
  { length := 1, wide := rex.getLsbD 3, reg := (rex.extractLsb' 2 1).setWidth 2, rm := (rex.extractLsb' 0 1).setWidth 2 }

/-- The bits W, R4, R3, B4 and B3 of the payload of a REX2 prefix. -/
def rex2Prefix (payload : BitVec 8) : Prefix :=
  { length := 2, wide := payload.getLsbD 3, reg := payload.extractLsb' 6 1 ++ payload.extractLsb' 2 1,
    rm := payload.extractLsb' 4 1 ++ payload.extractLsb' 0 1 }

/-- The prefix of the instruction at an offset; an escape to another opcode map is not decoded. -/
def decodePrefix (bytes : Bytes) (start : Nat) : Option Prefix :=
  if bytes start = 0xd5 then
    if (bytes (start + 1)).getLsbD 7 then none else some (rex2Prefix (bytes (start + 1)))
  else if (bytes start).extractLsb' 4 4 = 4 then some (rexPrefix (bytes start))
  else some { length := 0, wide := false, reg := 0, rm := 0 }

/-- ModRM with a `rip`-relative operand. -/
def isRipRelative (modRm : BitVec 8) : Bool := modRm &&& 0xc7 == 0x05

/-- ModRM with a register operand and the given extension of the opcode. -/
def isRegister (modRm : BitVec 8) (extension : BitVec 3) : Bool :=
  modRm.extractLsb' 6 2 == 3 && modRm.extractLsb' 3 3 == extension

def regField (p : Prefix) (modRm : BitVec 8) : BitVec 5 := p.reg ++ modRm.extractLsb' 3 3

def rmField (p : Prefix) (modRm : BitVec 8) : BitVec 5 := p.rm ++ modRm.extractLsb' 0 3

/-- The instruction behind a prefix, whose opcode is at an offset. -/
def decodeOpcode (bytes : Bytes) (p : Prefix) (opcode : Nat) : Option Insn :=
  let modRm := bytes (opcode + 1)
  let size := p.length + 6
  let field := field32 bytes (opcode + 2)
  let fromMemory (op : Op) : Insn :=
    { op := op, reg := regField p modRm, wide := p.wide, operand := .memory field, size := size }
  let withImmediate (op : Op) : Insn :=
    { op := op, reg := rmField p modRm, wide := p.wide, operand := .immediate field, size := size }
  if bytes opcode = 0x8b ∧ isRipRelative modRm then some (fromMemory .mov)
  else if bytes opcode = 0x2b ∧ isRipRelative modRm then some (fromMemory .sub)
  else if bytes opcode = 0x3b ∧ isRipRelative modRm then some (fromMemory .cmp)
  else if bytes opcode = 0x8d ∧ isRipRelative modRm then
    some { fromMemory .mov with operand := .address field }
  else if bytes opcode = 0xc7 ∧ isRegister modRm 0 then some (withImmediate .mov)
  else if bytes opcode = 0x81 ∧ isRegister modRm 5 then some (withImmediate .sub)
  else if bytes opcode = 0x81 ∧ isRegister modRm 7 then some (withImmediate .cmp)
  else if bytes opcode = 0xff ∧ modRm = 0x15 then some { fromMemory .call with reg := 0 }
  else if bytes opcode = 0xff ∧ modRm = 0x25 then some { fromMemory .jmp with reg := 0 }
  else if bytes opcode = 0xe9 then
    some { op := .jmp, reg := 0, wide := p.wide, operand := .address (field32 bytes (opcode + 1)),
           size := p.length + 5 }
  else none

/-- The instruction at an offset. The prefix 0x67 in front of a direct call has no effect. -/
def decode (bytes : Bytes) (start : Nat) : Option Insn :=
  if bytes start = 0x67 ∧ bytes (start + 1) = 0xe8 then
    some { op := .call, reg := 0, wide := false, operand := .address (field32 bytes (start + 2)), size := 6 }
  else (decodePrefix bytes start).bind fun p => decodeOpcode bytes p (start + p.length)

/-! ## Execution -/

structure Flags where
  zero : Bool
  carry : Bool
  sign : Bool
  overflow : Bool
deriving DecidableEq, Repr

/-- Registers, flags and the words of memory that are pushed. -/
structure State where
  rip : BitVec 64
  regs : BitVec 5 → BitVec 64
  flags : Flags
  memory : BitVec 64 → BitVec 64

def rsp : BitVec 5 := 4

def State.set (s : State) (register : BitVec 5) (value : BitVec 64) : State :=
  { s with regs := fun r => if r = register then value else s.regs r }

def State.push (s : State) (value : BitVec 64) : State :=
  let top := s.regs rsp - 8
  { s.set rsp top with memory := fun a => if a = top then value else s.memory a }

/-- The flags of a subtraction of words of some width. -/
def subFlags {w : Nat} (a b : BitVec w) : Flags :=
  { zero := a - b == 0#w, carry := a.ult b, sign := (a - b).msb,
    overflow := a.msb != b.msb && (a - b).msb != a.msb }

/-- A value as an operand of the width: the low 32 bits, extended with zeros, unless the width is 64. -/
def sized (wide : Bool) (value : BitVec 64) : BitVec 64 := if wide then value else (value.setWidth 32).setWidth 64

def flagsOf (wide : Bool) (a b : BitVec 64) : Flags :=
  if wide then subFlags a b else subFlags (a.setWidth 32) (b.setWidth 32)

/-- The value of an operand of an instruction that another one follows at `next`, with `word` in memory. -/
def Operand.value (next word : BitVec 64) : Operand → BitVec 64
  | .memory _ => word
  | .immediate value => value.signExtend 64
  | .address displacement => next + displacement.signExtend 64

/-- What an instruction does with the value of its operand. -/
def perform (op : Op) (reg : BitVec 5) (wide : Bool) (next value : BitVec 64) (s : State) : State :=
  let s' := { s with rip := next }
  match op with
  | .mov  => s'.set reg (sized wide value)
  | .sub  =>
    { s'.set reg (sized wide (s.regs reg - value)) with flags := flagsOf wide (s.regs reg) value }
  | .cmp  => { s' with flags := flagsOf wide (s.regs reg) value }
  | .call => { s'.push next with rip := value }
  | .jmp  => { s' with rip := value }

/-- An instruction at `s.rip`, with `word` in memory where it reads. -/
def exec (word : BitVec 64) (insn : Insn) (s : State) : State :=
  let next := s.rip + BitVec.ofNat 64 insn.size
  perform insn.op insn.reg insn.wide next (insn.operand.value next word) s

/-- The value of an operand as far as the instruction looks at it: a branch looks at all of it. -/
def seen (op : Op) (wide : Bool) (value : BitVec 64) : BitVec 64 :=
  match op with
  | .mov | .sub | .cmp => sized wide value
  | .call | .jmp       => value

variable {wide : Bool}

theorem sized_sub {a b b' : BitVec 64} (h : sized wide b = sized wide b') :
    sized wide (a - b) = sized wide (a - b') := by
  cases wide with
  | true  => exact congrArg (a - ·) h
  | false =>
    have h32 : b.setWidth 32 = b'.setWidth 32 := by
      have := congrArg (BitVec.setWidth 32) h
      simpa [sized] using this
    have hsub (x y : BitVec 64) : (x - y).setWidth 32 = x.setWidth 32 - y.setWidth 32 := by
      rw [BitVec.sub_eq_add_neg, BitVec.setWidth_add _ _ (by decide), BitVec.setWidth_neg_of_le (by decide),
        ← BitVec.sub_eq_add_neg]
    simp [sized, hsub, h32]

theorem flagsOf_congr {a b b' : BitVec 64} (h : sized wide b = sized wide b') :
    flagsOf wide a b = flagsOf wide a b' := by
  cases wide with
  | true  => exact congrArg (subFlags a) h
  | false =>
    have h32 : b.setWidth 32 = b'.setWidth 32 := by
      have := congrArg (BitVec.setWidth 32) h
      simpa [sized] using this
    simp [flagsOf, h32]

theorem setWidth_inj (x y : BitVec 32) : x.setWidth 64 = y.setWidth 64 ↔ x = y := by
  constructor
  · intro h
    have := congrArg (BitVec.setWidth 32) h
    simpa using this
  · exact congrArg _

theorem flagsOf_zero (wide : Bool) (a b : BitVec 64) :
    (flagsOf wide a b).zero = decide (sized wide a = sized wide b) := by
  have hsub {w : Nat} (x y : BitVec w) : (x - y == 0#w) = decide (x = y) := by
    rw [Bool.eq_iff_iff, beq_iff_eq, decide_eq_true_iff, BitVec.sub_eq_iff_eq_add, BitVec.zero_add]
  cases wide with
  | true  => simp only [flagsOf, subFlags, sized, if_true, hsub]
  | false => simp [flagsOf, subFlags, sized, hsub, setWidth_inj]

/-- An instruction does not tell values apart that it does not see apart. -/
theorem perform_congr {op : Op} {reg : BitVec 5} {next value value' : BitVec 64}
    (h : seen op wide value = seen op wide value') (s : State) :
    perform op reg wide next value s = perform op reg wide next value' s := by
  cases op with
  | mov  => simp only [perform]; rw [show sized wide value = sized wide value' from h]
  | sub  => simp only [perform]; rw [sized_sub h, flagsOf_congr h]
  | cmp  => simp only [perform]; rw [flagsOf_congr h]
  | call => rw [show value = value' from h]
  | jmp  => rw [show value = value' from h]

/-- It tells all others apart, in some state. -/
theorem seen_eq_of_perform {op : Op} {value value' : BitVec 64} (reg : BitVec 5) (next : BitVec 64)
    (h : ∀ s : State, perform op reg wide next value s = perform op reg wide next value' s) :
    seen op wide value = seen op wide value' := by
  -- a state with the first value in every register: `cmp` and `sub` then set the zero flag
  let s : State := ⟨0, fun _ => value, ⟨false, false, false, false⟩, fun _ => 0⟩
  have hs := h s
  cases op with
  | mov  => simpa [perform, State.set, seen] using congrFun (congrArg State.regs hs) reg
  | sub  | cmp  =>
    have hzero := congrArg (fun s => s.flags.zero) hs
    simpa [perform, flagsOf_zero, s, seen] using hzero
  | call => simpa [perform, seen] using congrArg State.rip hs
  | jmp  => simpa [perform, seen] using congrArg State.rip hs

/-- The instruction pointer before an instruction counts only through the operand and the next address. -/
theorem perform_rip (op : Op) (reg : BitVec 5) (wide : Bool) (next value rip : BitVec 64) (s : State) :
    perform op reg wide next value { s with rip := rip } = perform op reg wide next value s := by
  cases op <;> rfl

/-- Only a call keeps the address of the next instruction, and a jump does not continue there. -/
theorem perform_jmp_next {reg : BitVec 5} (next next' value : BitVec 64) (s : State) :
    perform .jmp reg wide next value s = perform .jmp reg wide next' value s := rfl

/-- Two instructions at the same place, alike but for their operands, do the same exactly if they see the same value. -/
theorem exec_eq_iff {insn insn' : Insn} {rip word word' : BitVec 64} (hop : insn'.op = insn.op)
    (hreg : insn'.reg = insn.reg) (hwide : insn'.wide = insn.wide) (hsize : insn.op ≠ .jmp → insn'.size = insn.size) :
    (∀ s : State, s.rip = rip → exec word' insn' s = exec word insn s) ↔
      seen insn.op insn.wide (insn'.operand.value (rip + BitVec.ofNat 64 insn'.size) word') =
        seen insn.op insn.wide (insn.operand.value (rip + BitVec.ofNat 64 insn.size) word) := by
  have hnext (value : BitVec 64) (s : State) :
      perform insn.op insn.reg insn.wide (rip + BitVec.ofNat 64 insn'.size) value s =
        perform insn.op insn.reg insn.wide (rip + BitVec.ofNat 64 insn.size) value s := by
    by_cases hj : insn.op = .jmp
    · rw [hj]; exact perform_jmp_next _ _ _ s
    · rw [hsize hj]
  constructor
  · intro h
    apply seen_eq_of_perform insn.reg (rip + BitVec.ofNat 64 insn.size)
    intro s
    have hs := h { s with rip := rip } rfl
    simp only [exec, hop, hreg, hwide, perform_rip] at hs
    rw [← hnext, hs]
  · intro h s hs
    simp only [exec, hop, hreg, hwide, hs]
    rw [hnext]
    exact perform_congr h s

/-! ## Instructions with a known form -/

variable {bytes : Bytes} {start : Nat} {p : Prefix}

theorem decode_eq (hp : decodePrefix bytes start = some p) (h67 : bytes start ≠ 0x67) :
    decode bytes start = decodeOpcode bytes p (start + p.length) := by
  rw [decode, if_neg (fun h => h67 h.1), hp, Option.bind_some]

/-- What `decodePrefix` finds, by the length of the prefix. -/
theorem decodePrefix_cases (hp : decodePrefix bytes start = some p) :
    (p = { length := 0, wide := false, reg := 0, rm := 0 } ∧ bytes start ≠ 0xd5 ∧ (bytes start).extractLsb' 4 4 ≠ 4) ∨
    (p = rexPrefix (bytes start) ∧ bytes start ≠ 0xd5 ∧ (bytes start).extractLsb' 4 4 = 4) ∨
    (p = rex2Prefix (bytes (start + 1)) ∧ bytes start = 0xd5 ∧ (bytes (start + 1)).getLsbD 7 = false) := by
  rw [decodePrefix] at hp
  split at hp
  next hd5 =>
    split at hp
    next => simp at hp
    next hmap => exact .inr (.inr ⟨(Option.some.inj hp).symm, hd5, by simpa using hmap⟩)
  next hd5 =>
    split at hp
    next hrex => exact .inr (.inl ⟨(Option.some.inj hp).symm, hd5, hrex⟩)
    next hrex => exact .inl ⟨(Option.some.inj hp).symm, hd5, hrex⟩

/-- The prefixes have different lengths. -/
theorem decodePrefix_length (hp : decodePrefix bytes start = some p) :
    (p.length = 0 → p = { length := 0, wide := false, reg := 0, rm := 0 }) ∧
    (p.length = 1 → p = rexPrefix (bytes start)) ∧
    (p.length = 2 → p = rex2Prefix (bytes (start + 1)) ∧ bytes start = 0xd5) := by
  rcases decodePrefix_cases hp with ⟨rfl, -⟩ | ⟨rfl, -⟩ | ⟨rfl, hd5, -⟩
  · exact ⟨fun _ => rfl, fun h => absurd h Nat.zero_ne_one, fun h => absurd h (Nat.zero_ne_add_one 1)⟩
  · exact ⟨fun h => absurd h Nat.one_ne_zero, fun _ => rfl, fun h => absurd h (Nat.succ_ne_succ_iff.mpr Nat.zero_ne_one)⟩
  · exact ⟨fun h => absurd h (Nat.succ_ne_zero 1), fun h => absurd h (Nat.succ_ne_succ_iff.mpr Nat.one_ne_zero),
      fun _ => ⟨rfl, hd5⟩⟩

theorem decodePrefix_none (hd5 : bytes start ≠ 0xd5) (hrex : (bytes start).extractLsb' 4 4 ≠ 4) :
    decodePrefix bytes start = some { length := 0, wide := false, reg := 0, rm := 0 } := by
  rw [decodePrefix, if_neg hd5, if_neg hrex]

theorem decodePrefix_rex (hrex : (bytes start).extractLsb' 4 4 = 4) :
    decodePrefix bytes start = some (rexPrefix (bytes start)) := by
  have hd5 : bytes start ≠ 0xd5 := by
    intro h
    rw [h] at hrex
    exact absurd hrex (by decide)
  rw [decodePrefix, if_neg hd5, if_pos hrex]

theorem decodePrefix_rex2 (hd5 : bytes start = 0xd5) (hmap : (bytes (start + 1)).getLsbD 7 = false) :
    decodePrefix bytes start = some (rex2Prefix (bytes (start + 1))) := by
  rw [decodePrefix, if_pos hd5, hmap, if_neg Bool.false_ne_true]

/-- A prefix is found again in bytes that agree on it, if the opcode behind an empty one is none. -/
theorem decodePrefix_congr {bytes' : Bytes} (hp : decodePrefix bytes start = some p)
    (hbefore : ∀ i, start ≤ i → i < start + p.length → bytes' i = bytes i)
    (hopcode : p.length = 0 → bytes' start ≠ 0xd5 ∧ (bytes' start).extractLsb' 4 4 ≠ 4) :
    decodePrefix bytes' start = some p := by
  rcases decodePrefix_cases hp with ⟨rfl, -⟩ | ⟨rfl, -, hrex⟩ | ⟨rfl, hd5, hmap⟩
  · exact decodePrefix_none (hopcode rfl).1 (hopcode rfl).2
  · have h0 : bytes' start = bytes start := hbefore start (le_refl _) (Nat.lt_add_one start)
    rw [← h0] at hrex ⊢
    exact decodePrefix_rex hrex
  · have h0 : bytes' start = bytes start := hbefore start (le_refl _) (Nat.lt_add_of_pos_right Nat.zero_lt_two)
    have h1 : bytes' (start + 1) = bytes (start + 1) := hbefore _ (Nat.le_add_right _ _) (Nat.lt_add_one (start + 1))
    rw [← h0] at hd5
    rw [← h1] at hmap ⊢
    exact decodePrefix_rex2 hd5 hmap

/-- The instructions that read memory. -/
theorem decode_memory {insn : Insn} {d : BitVec 32} (h : decode bytes start = some insn)
    (hm : insn.operand = .memory d) :
    ∃ p, decodePrefix bytes start = some p ∧ bytes start ≠ 0x67 ∧ insn.wide = p.wide ∧ insn.size = p.length + 6 ∧
      let opcode := bytes (start + p.length)
      let modRm := bytes (start + p.length + 1)
      ((∃ e ∈ [((0x8b : BitVec 8), Op.mov), (0x2b, Op.sub), (0x3b, Op.cmp)], opcode = e.1 ∧ insn.op = e.2) ∧
          isRipRelative modRm = true ∧ insn.reg = regField p modRm) ∨
      ((∃ e ∈ [((0x15 : BitVec 8), Op.call), (0x25, Op.jmp)], modRm = e.1 ∧ insn.op = e.2) ∧
          opcode = 0xff ∧ insn.reg = 0) := by
  rw [decode] at h
  split at h
  next => exact absurd hm (by rw [← Option.some.inj h]; simp)
  next h67 =>
    obtain ⟨p, hp, hop⟩ := Option.bind_eq_some_iff.mp h
    have hne : bytes start ≠ 0x67 := by
      intro he
      -- 0x67 is no prefix here, and no opcode either
      have hp0 : p = { length := 0, wide := false, reg := 0, rm := 0 } := by
        rcases decodePrefix_cases hp with ⟨hp0, -⟩ | ⟨-, -, hrex⟩ | ⟨-, hd5, -⟩
        · exact hp0
        · rw [he] at hrex; exact absurd hrex (by decide)
        · rw [he] at hd5; exact absurd hd5 (by decide)
      subst hp0
      simp [decodeOpcode, he] at hop
    refine ⟨p, hp, hne, ?_⟩
    simp only [decodeOpcode] at hop
    split_ifs at hop
    all_goals
      obtain rfl := Option.some.inj hop
      cases hm
    all_goals simp [*]

theorem decodeOpcode_lea {opcode : Nat} (h : bytes opcode = 0x8d) (hm : isRipRelative (bytes (opcode + 1)) = true) :
    decodeOpcode bytes p opcode =
      some { op := .mov, reg := regField p (bytes (opcode + 1)), wide := p.wide,
             operand := .address (field32 bytes (opcode + 2)), size := p.length + 6 } := by
  simp [decodeOpcode, h, hm]

/-- The operations with an immediate, and the extension of the opcode. -/
theorem decodeOpcode_immediate {opcode : Nat} (op : Op) (extension : BitVec 3) (hop : (bytes opcode, extension, op) ∈
      [((0xc7 : BitVec 8), (0 : BitVec 3), Op.mov), (0x81, 5, Op.sub), (0x81, 7, Op.cmp)])
    (hm : isRegister (bytes (opcode + 1)) extension = true) :
    decodeOpcode bytes p opcode =
      some { op := op, reg := rmField p (bytes (opcode + 1)), wide := p.wide,
             operand := .immediate (field32 bytes (opcode + 2)), size := p.length + 6 } := by
  have hdiff : ∀ m : BitVec 8, isRegister m 7 = true → isRegister m 5 = false := by decide
  simp only [List.mem_cons, Prod.mk.injEq, List.not_mem_nil, or_false] at hop
  rcases hop with ⟨hb, rfl, rfl⟩ | ⟨hb, rfl, rfl⟩ | ⟨hb, rfl, rfl⟩
  · have h0 : isRegister (bytes (opcode + 1)) 0#3 = true := hm
    simp [decodeOpcode, hb, h0]
  · have h5 : isRegister (bytes (opcode + 1)) 5#3 = true := hm
    simp [decodeOpcode, hb, h5]
  · have h5 : isRegister (bytes (opcode + 1)) 5#3 = false := hdiff _ hm
    have h7 : isRegister (bytes (opcode + 1)) 7#3 = true := hm
    simp [decodeOpcode, hb, h5, h7]

theorem decode_call (h : bytes start = 0x67) (h' : bytes (start + 1) = 0xe8) :
    decode bytes start =
      some { op := .call, reg := 0, wide := false, operand := .address (field32 bytes (start + 2)), size := 6 } := by
  rw [decode, if_pos ⟨h, h'⟩]

theorem decode_jmp (h : bytes start = 0xe9) :
    decode bytes start =
      some { op := .jmp, reg := 0, wide := false, operand := .address (field32 bytes (start + 1)), size := 5 } := by
  have hp : decodePrefix bytes start = some { length := 0, wide := false, reg := 0, rm := 0 } :=
    decodePrefix_none (by rw [h]; decide) (by rw [h]; decide)
  rw [decode_eq hp (by rw [h]; decide)]
  simp [decodeOpcode, h]

end X86
