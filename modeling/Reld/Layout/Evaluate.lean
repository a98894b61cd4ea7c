import Reld.Layout.ComputeLayout

/-!
# `Layout.Evaluate` — the values of expressions

`evaluate_expression` computes an assignment's value in 64-bit words, at the place of the assignment. Inside of an
output section `.` is the offset from the start of the section, and the address of the section is added to the
result once, unless a `SEGMENT_START` was evaluated on the way: a flag is passed through the whole evaluation for
this. `denote` is the value of an expression for a given `.`, without the flag.
-/

variable {e : Expression}

namespace Reld

/-- Why an expression has no value. -/
inductive EvalError where
  /-- Division or modulo by zero, with its message. -/
  | arithmetic (message : String)
  /-- "ALIGN(0) is invalid". -/
  | alignZero
  /-- "ADDR: section '…' not found", or the same of `LOADADDR`. -/
  | sectionNotFound (f : NameFunction) (name : Bytes)
  /-- "ORIGIN: memory region '…' not found", or the same of `LENGTH`. -/
  | regionNotFound (f : NameFunction) (name : Bytes)
  /-- "location counter index … out of range (len: …)". -/
  | counterOutOfRange (idx length : Nat)
  /-- "Symbol '…' referenced by … does not exist". -/
  | missingTarget (name : Bytes)
  /-- "Symbol '…' referenced by … has no resolution." -/
  | missingResolution (name : Bytes)
deriving DecidableEq

/-- What `evaluate_expression` reads. -/
structure EvalContext where
  outputSections : OutputSections
  sectionLayouts : OutputSectionId → OutputRecordLayout
  memoryRegions : Bytes → Option MemoryRegion := fun _ => none
  /-- `symbol_db.get_unversioned(..).is_some()` -/
  definesSymbol : Bytes → Bool := fun _ => false
  /-- `args.segment_start_override` -/
  segmentStartOverride : Bytes → Option UInt64 := fun _ => none
  sizeofHeaders : UInt64 := 0
  resolvedLocationCounters : List ResolvedLocationCounter := []
  /-- `symbol_resolution_callback` -/
  resolveSymbol : Bytes → Except EvalError UInt64

/-- `section_id_by_name` -/
def OutputSections.sectionIdByName (o : OutputSections) (sectionName : SectionName) : Option OutputSectionId :=
  (o.customByName sectionName).or ((List.range o.sectionInfos.length).find? fun id => o.name id = some sectionName)

namespace EvalContext

variable (ctx : EvalContext)

def memOffset (id : OutputSectionId) : UInt64 := .ofNat (ctx.sectionLayouts id).memOffset

def memSize (id : OutputSectionId) : UInt64 := .ofNat (ctx.sectionLayouts id).memSize

/-- `evaluate_location`; `SymbolLoc::None` is `none`. -/
def evaluateLocation : Option SymbolPlace → Except EvalError UInt64
  | some (.sectionStartRelative _) => .ok 0
  | some (.sectionEndRelative id) =>
    let primaryStart := ctx.memOffset (ctx.outputSections.primaryOutputSection id)
    .ok (ctx.memOffset id + ctx.memSize id - primaryStart)
  | some (.sectionEnd id) => .ok (ctx.memOffset id + ctx.memSize id)
  | some .firstSection => .ok 0
  | none => .ok 0
  | some (.locationCounter idx sectionId) =>
    match ctx.resolvedLocationCounters[idx]? with
    | none => .error (.counterOutOfRange idx ctx.resolvedLocationCounters.length)
    | some entry =>
      if sectionId.isNone then .ok (.ofNat entry.value) else .ok (.ofNat (entry.sectionOffset.getD 0))

/-- The functions of a name. -/
def evaluateName (f : NameFunction) (name : Bytes) : Except EvalError UInt64 :=
  match f with
  | .sizeof => .ok (((ctx.outputSections.sectionIdByName name).map ctx.memSize).getD 0)
  | .alignof =>
    .ok (((ctx.outputSections.sectionIdByName name).map fun id =>
      .ofNat (ctx.sectionLayouts id).alignment.value).getD 0)
  | .addr =>
    match ctx.outputSections.sectionIdByName name with
    | none => .error (.sectionNotFound f name)
    | some id => .ok (ctx.memOffset id)
  | .loadaddr =>
    match ctx.outputSections.sectionIdByName name with
    | none => .error (.sectionNotFound f name)
    | some id => .ok (.ofNat (ctx.sectionLayouts id).lmaOffset)
  | .origin =>
    match ctx.memoryRegions name with
    | none => .error (.regionNotFound f name)
    | some region => .ok (.ofNat region.origin)
  | .length =>
    match ctx.memoryRegions name with
    | none => .error (.regionNotFound f name)
    | some region => .ok (.ofNat region.length)
  | .defined => .ok (BinaryOp.ofBool (ctx.definesSymbol name))

/-- An operator on two values. -/
def apply (op : BinaryOp) (l r : UInt64) : Except EvalError UInt64 := (op.eval l r).mapError .arithmetic

/-- `ALIGN` at a location. -/
def alignTo (align location : UInt64) : UInt64 := (location + (align - 1)) &&& ~~~ (align - 1)

/-- `evaluate_expression_value` with `has_section_relative_offset`, which only `SEGMENT_START` changes. -/
def evaluateValue (loc : Option SymbolPlace) : Expression → Bool → Except EvalError (UInt64 × Bool)
  | .number n, flag => .ok (.ofNat n, flag)
  | .locationCounter, flag => do return (← ctx.evaluateLocation loc, flag)
  | .symbol name, flag => do return (← ctx.resolveSymbol name, flag)
  | .sizeofHeaders, flag => .ok (ctx.sizeofHeaders, flag)
  | .nameFunction f name, flag => do return (← ctx.evaluateName f name, flag)
  | .unary .align e, flag => do
      let (align, flag) ← evaluateValue loc e flag
      if align = 0 then .error .alignZero
      else return (alignTo align (← ctx.evaluateLocation loc), flag)
  | .unary .logicalNot e, flag => do
      let (v, flag) ← evaluateValue loc e flag
      return (BinaryOp.ofBool (v = 0), flag)
  | .unary .bitwiseNot e, flag => do
      let (v, flag) ← evaluateValue loc e flag
      return (~~~ v, flag)
  | .unary .negate e, flag => do
      let (v, flag) ← evaluateValue loc e flag
      return (0 - v, flag)
  -- The divisor is evaluated first.
  | .binary .divide l r, flag => do
      let (divisor, flag) ← evaluateValue loc r flag
      if divisor = 0 then .error (.arithmetic "Division by zero in linker script expression")
      else
        let (dividend, flag) ← evaluateValue loc l flag
        return (← apply .divide dividend divisor, flag)
  | .binary .modulo l r, flag => do
      let (divisor, flag) ← evaluateValue loc r flag
      if divisor = 0 then .error (.arithmetic "Modulo by zero in linker script expression")
      else
        let (dividend, flag) ← evaluateValue loc l flag
        return (← apply .modulo dividend divisor, flag)
  | .binary .logicalAnd l r, flag => do
      let (left, flag) ← evaluateValue loc l flag
      if left = 0 then return (0, flag)
      else
        let (right, flag) ← evaluateValue loc r flag
        return (BinaryOp.ofBool (right ≠ 0), flag)
  | .binary .logicalOr l r, flag => do
      let (left, flag) ← evaluateValue loc l flag
      if left ≠ 0 then return (1, flag)
      else
        let (right, flag) ← evaluateValue loc r flag
        return (BinaryOp.ofBool (right ≠ 0), flag)
  | .binary op l r, flag => do
      let (left, flag) ← evaluateValue loc l flag
      let (right, flag) ← evaluateValue loc r flag
      return (← apply op left right, flag)
  | .segmentStart name default, _ =>
    match ctx.segmentStartOverride name with
    | some value => .ok (value, false)
    | none => evaluateValue loc default false
  | .ternary condition yes no, flag => do
      let (c, flag) ← evaluateValue loc condition flag
      if c ≠ 0 then evaluateValue loc yes flag else evaluateValue loc no flag

/-- The section that a place is inside of. -/
def sectionOf : Option SymbolPlace → Option OutputSectionId
  | some (.sectionStartRelative id) => some id
  | some (.sectionEndRelative id) => some id
  | some (.locationCounter _ (some id)) => some id
  | _ => none

/-- What is added to a value that is relative to a section. -/
def sectionAddress (loc : Option SymbolPlace) : UInt64 :=
  match sectionOf loc with
  | some id => ctx.memOffset (ctx.outputSections.primaryOutputSection id)
  | none => 0

/-- `evaluate_expression` -/
def evaluateExpression (e : Expression) (loc : Option SymbolPlace) : Except EvalError UInt64 := do
  let (value, hasSectionRelativeOffset) ← ctx.evaluateValue loc e true
  return value + (if hasSectionRelativeOffset then ctx.sectionAddress loc else 0)

/-! ## Values for a given location -/

/-- The value of an expression if `.` is `dot`. -/
def denote (dot : Except EvalError UInt64) : Expression → Except EvalError UInt64
  | .number n => .ok (.ofNat n)
  | .locationCounter => dot
  | .symbol name => ctx.resolveSymbol name
  | .sizeofHeaders => .ok ctx.sizeofHeaders
  | .nameFunction f name => ctx.evaluateName f name
  | .unary .align e => do
      let align ← denote dot e
      if align = 0 then .error .alignZero
      else return alignTo align (← dot)
  | .unary .logicalNot e => do return BinaryOp.ofBool ((← denote dot e) = 0)
  | .unary .bitwiseNot e => do return ~~~ (← denote dot e)
  | .unary .negate e => do return 0 - (← denote dot e)
  | .binary .divide l r => do
      let divisor ← denote dot r
      if divisor = 0 then .error (.arithmetic "Division by zero in linker script expression")
      else apply .divide (← denote dot l) divisor
  | .binary .modulo l r => do
      let divisor ← denote dot r
      if divisor = 0 then .error (.arithmetic "Modulo by zero in linker script expression")
      else apply .modulo (← denote dot l) divisor
  | .binary .logicalAnd l r => do
      if (← denote dot l) = 0 then return 0
      else return BinaryOp.ofBool ((← denote dot r) ≠ 0)
  | .binary .logicalOr l r => do
      if (← denote dot l) ≠ 0 then return 1
      else return BinaryOp.ofBool ((← denote dot r) ≠ 0)
  | .binary op l r => do
      let left ← denote dot l
      apply op left (← denote dot r)
  | .segmentStart name default =>
    match ctx.segmentStartOverride name with
    | some value => .ok value
    | none => denote dot default
  | .ternary condition yes no => do
      if (← denote dot condition) ≠ 0 then denote dot yes else denote dot no

/-- Whether the value of an expression is not zero. -/
def isTrue (dot : Except EvalError UInt64) (e : Expression) : Bool :=
  match ctx.denote dot e with
  | .ok v => v ≠ 0
  | .error _ => false

/-- Whether a `SEGMENT_START` is evaluated on the way to the value of an expression. -/
def usesSegmentStart (dot : Except EvalError UInt64) : Expression → Bool
  | .segmentStart _ _ => true
  | .unary _ e => usesSegmentStart dot e
  | .binary .logicalAnd l r => usesSegmentStart dot l || (ctx.isTrue dot l && usesSegmentStart dot r)
  | .binary .logicalOr l r => usesSegmentStart dot l || (!ctx.isTrue dot l && usesSegmentStart dot r)
  | .binary _ l r => usesSegmentStart dot l || usesSegmentStart dot r
  | .ternary condition yes no =>
    usesSegmentStart dot condition ||
      (if ctx.isTrue dot condition then usesSegmentStart dot yes else usesSegmentStart dot no)
  | _ => false

/-! ## The flag -/

section Flag

variable {ctx : EvalContext} {loc : Option SymbolPlace}

/-- The value of an expression with the flag that its evaluation leaves. -/
def withFlag (ctx : EvalContext) (loc : Option SymbolPlace) (e : Expression) (flag : Bool) :
    Except EvalError (UInt64 × Bool) :=
  (ctx.denote (ctx.evaluateLocation loc) e).map fun v =>
    (v, flag && !ctx.usesSegmentStart (ctx.evaluateLocation loc) e)

theorem withFlag_error {err : EvalError} (h : ctx.denote (ctx.evaluateLocation loc) e = .error err) (flag : Bool) :
    ctx.withFlag loc e flag = .error err := by
  rw [withFlag, h]
  rfl

theorem withFlag_ok {v : UInt64} (h : ctx.denote (ctx.evaluateLocation loc) e = .ok v) (flag : Bool) :
    ctx.withFlag loc e flag = .ok (v, flag && !ctx.usesSegmentStart (ctx.evaluateLocation loc) e) := by
  rw [withFlag, h]
  rfl

/-- An operator of which both sides are evaluated, the left one first. -/
theorem withFlag_both {op : BinaryOp} {l r : Expression} (flag : Bool) :
    (do
      let (left, flag) ← ctx.withFlag loc l flag
      let (right, flag) ← ctx.withFlag loc r flag
      return (← apply op left right, flag)) =
    (do
      let left ← ctx.denote (ctx.evaluateLocation loc) l
      apply op left (← ctx.denote (ctx.evaluateLocation loc) r)).map fun v =>
        (v, flag && !(ctx.usesSegmentStart (ctx.evaluateLocation loc) l ||
          ctx.usesSegmentStart (ctx.evaluateLocation loc) r)) := by
  cases hl : ctx.denote (ctx.evaluateLocation loc) l with
  | error err =>
    rw [withFlag_error hl]
    rfl
  | ok left =>
    rw [withFlag_ok hl]
    simp only [bind, Except.bind]
    cases hr : ctx.denote (ctx.evaluateLocation loc) r with
    | error err =>
      rw [withFlag_error hr]
      rfl
    | ok right =>
      rw [withFlag_ok hr]
      simp only
      cases apply op left right with
      | error => rfl
      | ok v => simp [Except.map, pure, Except.pure, Bool.and_assoc]

/-- An operator with a divisor, which is evaluated first. -/
theorem withFlag_divisor {op : BinaryOp} {message : String} {l r : Expression} (flag : Bool) :
    (do
      let (divisor, flag) ← ctx.withFlag loc r flag
      if divisor = 0 then .error (.arithmetic message)
      else
        let (dividend, flag) ← ctx.withFlag loc l flag
        return (← apply op dividend divisor, flag)) =
    (do
      let divisor ← ctx.denote (ctx.evaluateLocation loc) r
      if divisor = 0 then .error (.arithmetic message)
      else apply op (← ctx.denote (ctx.evaluateLocation loc) l) divisor).map fun v =>
        (v, flag && !(ctx.usesSegmentStart (ctx.evaluateLocation loc) l ||
          ctx.usesSegmentStart (ctx.evaluateLocation loc) r)) := by
  cases hr : ctx.denote (ctx.evaluateLocation loc) r with
  | error err =>
    rw [withFlag_error hr]
    rfl
  | ok divisor =>
    rw [withFlag_ok hr]
    simp only [bind, Except.bind]
    by_cases hzero : divisor = 0
    · rw [if_pos hzero, if_pos hzero]
      rfl
    · rw [if_neg hzero, if_neg hzero]
      cases hl : ctx.denote (ctx.evaluateLocation loc) l with
      | error err =>
        rw [withFlag_error hl]
        rfl
      | ok dividend =>
        rw [withFlag_ok hl]
        simp only
        cases apply op dividend divisor with
        | error => rfl
        | ok v => simp [Except.map, pure, Except.pure, Bool.and_comm, Bool.and_left_comm]

/-- **What the evaluation computes**: the value at the location, and whether no `SEGMENT_START` was on the way. -/
theorem evaluateValue_eq (e : Expression) (flag : Bool) : ctx.evaluateValue loc e flag = ctx.withFlag loc e flag := by
  induction e generalizing flag with
  | number n => simp [EvalContext.evaluateValue, withFlag, EvalContext.denote, EvalContext.usesSegmentStart, Except.map]
  | symbol name =>
    unfold EvalContext.evaluateValue withFlag EvalContext.denote EvalContext.usesSegmentStart
    cases ctx.resolveSymbol name <;> simp [Except.map, bind, Except.bind, pure, Except.pure]
  | locationCounter =>
    unfold EvalContext.evaluateValue withFlag EvalContext.denote EvalContext.usesSegmentStart
    cases ctx.evaluateLocation loc <;> simp [Except.map, bind, Except.bind, pure, Except.pure]
  | sizeofHeaders =>
    simp [EvalContext.evaluateValue, withFlag, EvalContext.denote, EvalContext.usesSegmentStart, Except.map]
  | nameFunction f name =>
    unfold EvalContext.evaluateValue withFlag EvalContext.denote EvalContext.usesSegmentStart
    cases ctx.evaluateName f name <;> simp [Except.map, bind, Except.bind, pure, Except.pure]
  | unary op e ih =>
    cases hvalue : ctx.denote (ctx.evaluateLocation loc) e with
    | error err =>
      cases op
      all_goals
        simp only [EvalContext.evaluateValue, ih, withFlag, EvalContext.denote, hvalue]
        rfl
    | ok v =>
      cases op
      case align =>
        simp only [EvalContext.evaluateValue, ih, withFlag_ok hvalue]
        simp only [withFlag, EvalContext.denote, hvalue, EvalContext.usesSegmentStart, bind, Except.bind]
        by_cases hzero : v = 0
        · rw [if_pos hzero, if_pos hzero]
          rfl
        · rw [if_neg hzero, if_neg hzero]
          -- `ALIGN` reads the location once more.
          cases ctx.evaluateLocation loc <;> rfl
      all_goals
        simp only [EvalContext.evaluateValue, ih, withFlag, EvalContext.denote, hvalue, EvalContext.usesSegmentStart]
        rfl
  | binary op l r ihl ihr =>
    cases op
    case divide | modulo =>
      simp only [EvalContext.evaluateValue, ihl, ihr]
      exact withFlag_divisor flag
    case logicalAnd | logicalOr =>
      cases hl : ctx.denote (ctx.evaluateLocation loc) l with
      | error err =>
        simp only [EvalContext.evaluateValue, ihl, withFlag_error hl]
        simp only [withFlag, EvalContext.denote, hl]
        rfl
      | ok left =>
        simp only [EvalContext.evaluateValue, ihl, ihr, withFlag_ok hl]
        simp only [withFlag, EvalContext.denote, hl, EvalContext.usesSegmentStart, isTrue, bind, Except.bind]
        -- For one value of the left side the right one is evaluated as well.
        by_cases hzero : left = 0 <;> cases ctx.denote (ctx.evaluateLocation loc) r <;>
          simp [hzero, Except.map, pure, Except.pure, Bool.and_assoc]
    all_goals
      simp only [EvalContext.evaluateValue, ihl, ihr]
      exact withFlag_both flag
  | segmentStart name default ih =>
    unfold EvalContext.evaluateValue withFlag EvalContext.denote EvalContext.usesSegmentStart
    cases ctx.segmentStartOverride name with
    | some value => simp [Except.map]
    | none =>
      rw [ih]
      simp [withFlag]
  | ternary condition yes no ihc ihy ihn =>
    cases hc : ctx.denote (ctx.evaluateLocation loc) condition with
    | error err =>
      simp only [EvalContext.evaluateValue, ihc, withFlag_error hc]
      simp only [withFlag, EvalContext.denote, hc]
      rfl
    | ok c =>
      simp only [EvalContext.evaluateValue, ihc, ihy, ihn, withFlag_ok hc]
      simp only [withFlag, EvalContext.denote, hc, EvalContext.usesSegmentStart, isTrue, bind, Except.bind]
      by_cases hzero : c = 0
      · simp [hzero, Bool.and_assoc]
      · simp [hzero, Bool.and_assoc]

/-- The value of an expression at a place. -/
theorem evaluateExpression_eq (e : Expression) :
    ctx.evaluateExpression e loc = (ctx.denote (ctx.evaluateLocation loc) e).map fun v =>
      v + (if ctx.usesSegmentStart (ctx.evaluateLocation loc) e then 0 else ctx.sectionAddress loc) := by
  unfold evaluateExpression
  rw [evaluateValue_eq]
  cases h : ctx.denote (ctx.evaluateLocation loc) e with
  | error err =>
    rw [withFlag_error h]
    rfl
  | ok v =>
    rw [withFlag_ok h]
    cases ctx.usesSegmentStart (ctx.evaluateLocation loc) e <;> rfl

end Flag

end EvalContext

end Reld

/-!
# Assignments inside of an output section

Inside of an output section `.` and numbers count from the start of the section: `. * 2` is twice the offset, put
behind the start of the section. For an expression in which `.` is moved by what does not depend on it, this is the
same as counting from address 0 (`evaluateExpression_of_moves`).
-/

namespace Reld

namespace Expression

/-- Whether an expression refers to an address that does not count from the start of a section. -/
def isAddress : Expression → Bool
  | .symbol _ => true
  | .nameFunction .addr _ => true
  | .nameFunction .loadaddr _ => true
  | .nameFunction .origin _ => true
  | _ => false

/-- An address is mentioned somewhere in the expression. -/
def mentionsAddress (e : Expression) : Bool := e.visitExpressions.any isAddress

/-- Neither `.` nor `SEGMENT_START` is part of the expression. -/
def isFixed : Expression → Bool
  | .locationCounter => false
  | .unary .align _ => false
  | .unary _ e => e.isFixed
  | .binary _ l r => l.isFixed && r.isFixed
  | .segmentStart _ _ => false
  | .ternary c y n => c.isFixed && y.isFixed && n.isFixed
  | _ => true

/-- The expression is `.`, moved by what does not depend on it. -/
inductive Moves : Expression → Prop
  | dot : Moves .locationCounter
  | addLeft {l r : Expression} (hl : Moves l) (hr : r.isFixed = true) : Moves (.binary .add l r)
  | addRight {l r : Expression} (hl : l.isFixed = true) (hr : Moves r) : Moves (.binary .add l r)
  | subtract {l r : Expression} (hl : Moves l) (hr : r.isFixed = true) : Moves (.binary .subtract l r)
  | ternary {c y n : Expression} (hc : c.isFixed = true) (hy : Moves y) (hn : Moves n) : Moves (.ternary c y n)

end Expression

namespace EvalContext

variable {ctx : EvalContext} {loc : Option SymbolPlace}

/-- The address that `.` stands for. -/
def absoluteLocation (ctx : EvalContext) (loc : Option SymbolPlace) : Except EvalError UInt64 :=
  (ctx.evaluateLocation loc).map (· + ctx.sectionAddress loc)

/-- A fixed expression has one value wherever it stands. -/
theorem denote_of_isFixed (h : e.isFixed = true) (dot dot' : Except EvalError UInt64) :
    ctx.denote dot e = ctx.denote dot' e := by
  induction e with
  | number | symbol | sizeofHeaders | nameFunction => rfl
  | locationCounter | segmentStart => cases h
  | unary op e ih =>
    cases op
    case align => cases h
    all_goals
      unfold EvalContext.denote
      rw [ih h]
  | binary op l r ihl ihr =>
    obtain ⟨hl, hr⟩ := Bool.and_eq_true_iff.1 h
    cases op
    all_goals
      unfold EvalContext.denote
      rw [ihl hl, ihr hr]
  | ternary c y n ihc ihy ihn =>
    obtain ⟨hcy, hn⟩ := Bool.and_eq_true_iff.1 h
    obtain ⟨hc, hy⟩ := Bool.and_eq_true_iff.1 hcy
    unfold EvalContext.denote
    rw [ihc hc, ihy hy, ihn hn]

theorem usesSegmentStart_of_isFixed (h : e.isFixed = true) (dot : Except EvalError UInt64) :
    ctx.usesSegmentStart dot e = false := by
  induction e with
  | number | symbol | sizeofHeaders | nameFunction => rfl
  | locationCounter | segmentStart => cases h
  | unary op e ih =>
    cases op
    case align => cases h
    all_goals exact ih h
  | binary op l r ihl ihr =>
    rw [Expression.isFixed, Bool.and_eq_true] at h
    cases op <;> simp [EvalContext.usesSegmentStart, ihl h.1, ihr h.2]
  | ternary c y n ihc ihy ihn =>
    rw [Expression.isFixed, Bool.and_eq_true, Bool.and_eq_true] at h
    simp [EvalContext.usesSegmentStart, ihc h.1.1, ihy h.1.2, ihn h.2]

theorem usesSegmentStart_of_moves (h : e.Moves) (dot : Except EvalError UInt64) :
    ctx.usesSegmentStart dot e = false := by
  induction h with
  | dot => rfl
  | addLeft hl hr ih | subtract hl hr ih => simp [EvalContext.usesSegmentStart, ih, usesSegmentStart_of_isFixed hr]
  | addRight hl hr ih => simp [EvalContext.usesSegmentStart, ih, usesSegmentStart_of_isFixed hl]
  | ternary hc hy hn ihy ihn =>
    simp [EvalContext.usesSegmentStart, ihy, ihn, usesSegmentStart_of_isFixed hc]

/-- Moving `.` moves the value. -/
theorem denote_of_moves (h : e.Moves) (dot : Except EvalError UInt64) (offset : UInt64) :
    ctx.denote (dot.map (· + offset)) e = (ctx.denote dot e).map (· + offset) := by
  induction h with
  | dot => rfl
  | @addLeft l r hl hr ih =>
    unfold EvalContext.denote
    rw [ih, denote_of_isFixed hr (dot.map (· + offset)) dot]
    cases ctx.denote dot l with
    | error => rfl
    | ok left =>
      cases ctx.denote dot r with
      | error => rfl
      | ok right =>
        have hsum : left + offset + right = left + right + offset := by grind
        exact congrArg Except.ok hsum
  | @addRight l r hl hr ih =>
    unfold EvalContext.denote
    rw [ih, denote_of_isFixed hl (dot.map (· + offset)) dot]
    cases ctx.denote dot l with
    | error => rfl
    | ok left =>
      cases ctx.denote dot r with
      | error => rfl
      | ok right =>
        have hsum : left + (right + offset) = left + right + offset := by grind
        exact congrArg Except.ok hsum
  | @subtract l r hl hr ih =>
    unfold EvalContext.denote
    rw [ih, denote_of_isFixed hr (dot.map (· + offset)) dot]
    cases ctx.denote dot l with
    | error => rfl
    | ok left =>
      cases ctx.denote dot r with
      | error => rfl
      | ok right =>
        have hdifference : left + offset - right = left - right + offset := by grind
        exact congrArg Except.ok hdifference
  | @ternary c y n hc hy hn ihy ihn =>
    unfold EvalContext.denote
    rw [ihy, ihn, denote_of_isFixed hc (dot.map (· + offset)) dot]
    cases ctx.denote dot c with
    | error => rfl
    | ok value =>
      simp only [bind, Except.bind]
      split <;> rfl

/-- **What moves with `.` has its absolute value.** -/
theorem evaluateExpression_of_moves (h : e.Moves) :
    ctx.evaluateExpression e loc = ctx.denote (ctx.absoluteLocation loc) e := by
  rw [evaluateExpression_eq, absoluteLocation, denote_of_moves h, usesSegmentStart_of_moves h]
  rfl

/-- **Assignments inside of an output section**: what moves with `.` has its absolute value, and what mentions no
    address counts from the start of the section, unless it uses `SEGMENT_START`. -/
theorem evaluateExpression_inSection (ctx : EvalContext) {loc : Option SymbolPlace} {id : OutputSectionId}
    (hloc : sectionOf loc = some id) (e : Expression) :
    (e.Moves → ctx.evaluateExpression e loc = ctx.denote (ctx.absoluteLocation loc) e) ∧
      (e.mentionsAddress = false → ctx.evaluateExpression e loc =
        (ctx.denote (ctx.evaluateLocation loc) e).map fun v =>
          v + (if ctx.usesSegmentStart (ctx.evaluateLocation loc) e then 0
            else ctx.memOffset (ctx.outputSections.primaryOutputSection id))) := by
  refine ⟨evaluateExpression_of_moves, fun _ => ?_⟩
  have haddress : ctx.sectionAddress loc = ctx.memOffset (ctx.outputSections.primaryOutputSection id) := by
    rw [sectionAddress, hloc]
  rw [evaluateExpression_eq, haddress]

end EvalContext

/-! ## Twice the offset -/

/-- `.text` at `0x600000`, with a location counter that was set to 16 inside of it. -/
def textContext : EvalContext where
  outputSections := .withBaseAddress (.staticExecutable .nonRelocatable)
  sectionLayouts := fun id => if id = textSection then { memOffset := 0x600000 } else {}
  resolvedLocationCounters := [⟨0x600010, some 0x10⟩]
  resolveSymbol := fun name => .error (.missingTarget name)

/-- Behind the assignment to `.` in `.text`. -/
def insideText : Option SymbolPlace := some (.locationCounter 0 (some textSection))

theorem evaluateExpression_inSection_text :
    textContext.evaluateExpression (.binary .add .locationCounter (.number 4)) insideText =
        textContext.denote (textContext.absoluteLocation insideText) (.binary .add .locationCounter (.number 4)) ∧
      textContext.evaluateExpression (.binary .add .locationCounter (.number 4)) insideText = .ok 0x600014 := by
  have hloc : EvalContext.sectionOf insideText = some textSection := rfl
  obtain ⟨hmoves, hrelative⟩ := EvalContext.evaluateExpression_inSection textContext hloc
    (.binary .add .locationCounter (.number 4))
  exact ⟨hmoves (.addLeft .dot rfl), (hrelative rfl).trans rfl⟩

/-- `. * 2` is 32 bytes behind the start of `.text`, not twice the address. -/
theorem double_counts_from_section :
    textContext.evaluateExpression (.binary .multiply .locationCounter (.number 2)) insideText = .ok 0x600020 ∧
      textContext.denote (textContext.absoluteLocation insideText) (.binary .multiply .locationCounter (.number 2)) =
        .ok 0xc00020 := by
  refine ⟨?_, ?_⟩ <;> rfl

end Reld
