import Reld.Elf.Symbol

/-!
# `LinkerScript.Expression` — expressions of linker scripts and `--defsym`

Symbol resolution needs the shape only: `visitExpressions` lists the subexpressions in the order in
which the callback of `visit_expressions` sees them, and the symbols among them are the redirect targets.
Program headers have constant expressions, which `evaluateConst` computes in 64-bit words.
-/

namespace Reld

/-- The binary operators and functions of two arguments. -/
inductive BinaryOp where
  | add | subtract | multiply | divide | modulo
  | lessThan | greaterThan | lessEqual | greaterEqual | equal | notEqual
  | min | max
  | bitwiseAnd | bitwiseOr | bitwiseXor
  | leftShift | rightShift
  | logicalAnd | logicalOr
deriving DecidableEq

/-- The operators and functions of one expression. -/
inductive UnaryOp where
  | align | logicalNot | bitwiseNot | negate
deriving DecidableEq

/-- The functions of a section or memory region name. -/
inductive NameFunction where
  | sizeof | alignof | origin | length | addr | loadaddr | defined
deriving DecidableEq

/-- `Expression`. -/
inductive Expression where
  | number (value : Nat)
  | symbol (name : Bytes)
  | locationCounter
  | sizeofHeaders
  | nameFunction (f : NameFunction) (name : Bytes)
  | unary (op : UnaryOp) (e : Expression)
  | binary (op : BinaryOp) (l r : Expression)
  | segmentStart (name : Bytes) (default : Expression)
  | ternary (condition yes no : Expression)

namespace Expression

/-- `visit_expressions` with a callback that always goes on. -/
def visitExpressions : Expression → List Expression
  | e@(.unary _ e₁) => e :: e₁.visitExpressions
  | e@(.binary _ l r) => e :: (l.visitExpressions ++ r.visitExpressions)
  | e@(.segmentStart _ d) => e :: d.visitExpressions
  | e@(.ternary c y n) => e :: (c.visitExpressions ++ y.visitExpressions ++ n.visitExpressions)
  | e => [e]

/-- The symbols among the visited expressions. -/
def targets (e : Expression) : List Bytes :=
  e.visitExpressions.filterMap fun
    | .symbol name => some name
    | _ => none

end Expression

example : (Expression.binary .add (.symbol [1]) (.unary .negate (.symbol [2]))).targets = [[1], [2]] := by
  decide

/-! ## Constant expressions -/

namespace BinaryOp

/-- `u64::from(bool)`. -/
def ofBool (b : Bool) : UInt64 := if b then 1 else 0

/-- The operator on two 64-bit values; division by zero has no value. -/
def eval (op : BinaryOp) (l r : UInt64) : Except String UInt64 :=
  match op with
  | .add => .ok (l + r)
  | .subtract => .ok (l - r)
  | .multiply => .ok (l * r)
  | .divide =>
    if r = 0 then .error "Division by zero in linker script expression"
    else .ok (l.toInt64 / r.toInt64).toUInt64
  | .modulo =>
    if r = 0 then .error "Modulo by zero in linker script expression"
    else .ok (l.toInt64 % r.toInt64).toUInt64
  | .lessThan => .ok (ofBool (l < r))
  | .greaterThan => .ok (ofBool (l > r))
  | .lessEqual => .ok (ofBool (l ≤ r))
  | .greaterEqual => .ok (ofBool (l ≥ r))
  | .equal => .ok (ofBool (l = r))
  | .notEqual => .ok (ofBool (l ≠ r))
  | .min => .ok (if l ≤ r then l else r)
  | .max => .ok (if l ≤ r then r else l)
  | .bitwiseAnd => .ok (l &&& r)
  | .bitwiseOr => .ok (l ||| r)
  | .bitwiseXor => .ok (l ^^^ r)
  | .leftShift => .ok (l <<< r)
  | .rightShift => .ok (l >>> r)
  | .logicalAnd => .ok (ofBool (l ≠ 0 ∧ r ≠ 0))
  | .logicalOr => .ok (ofBool (l ≠ 0 ∨ r ≠ 0))

end BinaryOp

/-- `evaluate_const`. The source reads the divisor first, so an expression with two errors reports the
    divisor's, and the operands of `&&` and `||` lazily. -/
def evaluateConst : Expression → Except String UInt64
  | .number n => .ok (UInt64.ofNat n)
  | .binary .divide l r => do
      let divisor ← evaluateConst r
      if divisor = 0 then .error "Division by zero in linker script expression"
      else BinaryOp.divide.eval (← evaluateConst l) divisor
  | .binary .modulo l r => do
      let divisor ← evaluateConst r
      if divisor = 0 then .error "Modulo by zero in linker script expression"
      else BinaryOp.modulo.eval (← evaluateConst l) divisor
  | .binary .logicalAnd l r => do
      if (← evaluateConst l) = 0 then .ok 0
      else BinaryOp.logicalAnd.eval 1 (← evaluateConst r)
  | .binary .logicalOr l r => do
      if (← evaluateConst l) ≠ 0 then .ok 1
      else BinaryOp.logicalOr.eval 0 (← evaluateConst r)
  | .binary op l r => do
      let left ← evaluateConst l
      op.eval left (← evaluateConst r)
  | .unary .logicalNot e => do .ok (BinaryOp.ofBool ((← evaluateConst e) = 0))
  | .unary .bitwiseNot e => do .ok (~~~ (← evaluateConst e))
  | .unary .negate e => do .ok (0 - (← evaluateConst e))
  | .ternary condition yes no => do
      if (← evaluateConst condition) ≠ 0 then evaluateConst yes else evaluateConst no
  | _ => .error "Expected constant expression"

end Reld
