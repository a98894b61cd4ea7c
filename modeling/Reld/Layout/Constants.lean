import Reld.Layout.Evaluate

/-!
# `Layout.Constants` — constant expressions

`evaluate_const` is a second evaluator, for the expressions of program headers, which are read before there is a
layout. Wherever it has a value, `evaluate_expression` without a symbol location has the same one, and where it
rejects an expression of literals and operators, so does `evaluate_expression`. `Mirrors` is this for two
computations.
-/

namespace Reld

/-- Whether an expression is built of literals and operators only. -/
def Expression.isArithmetic : Expression → Bool
  | .number _ => true
  | .unary op e => decide (op ≠ .align) && e.isArithmetic
  | .binary _ l r => l.isArithmetic && r.isArithmetic
  | .ternary condition yes no => condition.isArithmetic && yes.isArithmetic && no.isArithmetic
  | _ => false

/-- A value of the first computation is one of the second, and so is an error of it if `rejects` holds. -/
def Mirrors (rejects : Prop) (c : Except String UInt64) (x : Except EvalError UInt64) : Prop :=
  match c with
  | .ok v => x = .ok v
  | .error message => rejects → x = .error (.arithmetic message)

namespace Mirrors

variable {p q : Prop} {c : Except String UInt64} {x : Except EvalError UInt64}

theorem mono (hpq : p → q) (h : Mirrors q c x) : Mirrors p c x := by
  cases c with
  | ok v => exact h
  | error message => exact fun hp => h (hpq hp)

/-- Sequencing: the first computations follow one another, and so does what is done with each value. -/
theorem bind {f : UInt64 → Except String UInt64} {g : UInt64 → Except EvalError UInt64} (h : Mirrors p c x)
    (hf : ∀ v, Mirrors p (f v) (g v)) : Mirrors p (c >>= f) (x >>= g) := by
  cases c with
  | ok v =>
    have hx : x = .ok v := h
    rw [hx]
    exact hf v
  | error message =>
    intro hp
    rw [h hp]
    rfl

theorem apply (op : BinaryOp) (l r : UInt64) : Mirrors p (op.eval l r) (EvalContext.apply op l r) := by
  unfold EvalContext.apply
  cases op.eval l r with
  | ok v => exact rfl
  | error message => exact fun _ => rfl

end Mirrors

/-- **The two evaluators**, one constructor after the other, whatever the value of `.` is. -/
theorem denote_follows (ctx : EvalContext) (dot : Except EvalError UInt64) (e : Expression) :
    Mirrors (e.isArithmetic = true) (evaluateConst e) (ctx.denote dot e) := by
  induction e with
  | number n => exact rfl
  | symbol name => exact fun h => absurd h Bool.false_ne_true
  | locationCounter => exact fun h => absurd h Bool.false_ne_true
  | sizeofHeaders => exact fun h => absurd h Bool.false_ne_true
  | nameFunction f name => exact fun h => absurd h Bool.false_ne_true
  | segmentStart name default ih => exact fun h => absurd h Bool.false_ne_true
  | unary op e ih =>
    cases op with
    -- `ALIGN` is no constant expression
    | align => exact fun h => absurd h Bool.false_ne_true
    | logicalNot => exact ih.bind fun v => rfl
    | bitwiseNot => exact ih.bind fun v => rfl
    | negate => exact ih.bind fun v => rfl
  | binary op l r ihl ihr =>
    have ihl := ihl.mono (p := (Expression.binary op l r).isArithmetic = true)
      (fun h => (Bool.and_eq_true_iff.mp h).1)
    have ihr := ihr.mono (p := (Expression.binary op l r).isArithmetic = true)
      (fun h => (Bool.and_eq_true_iff.mp h).2)
    cases op
    case divide =>
      refine ihr.bind fun divisor => ?_
      by_cases hzero : divisor = 0
      · rw [if_pos hzero, if_pos hzero]
        exact fun _ => rfl
      · rw [if_neg hzero, if_neg hzero]
        exact ihl.bind fun dividend => .apply .divide dividend divisor
    case modulo =>
      refine ihr.bind fun divisor => ?_
      by_cases hzero : divisor = 0
      · rw [if_pos hzero, if_pos hzero]
        exact fun _ => rfl
      · rw [if_neg hzero, if_neg hzero]
        exact ihl.bind fun dividend => .apply .modulo dividend divisor
    case logicalAnd =>
      -- the right side is evaluated only if the left one is not zero
      refine ihl.bind fun left => ?_
      by_cases hzero : left = 0
      · rw [if_pos hzero, if_pos hzero]
        exact rfl
      · rw [if_neg hzero, if_neg hzero]
        refine ihr.bind fun right => ?_
        simp [Mirrors, BinaryOp.eval, pure, Except.pure]
    case logicalOr =>
      refine ihl.bind fun left => ?_
      by_cases hzero : left = 0
      · rw [if_neg (not_not.mpr hzero), if_neg (not_not.mpr hzero)]
        refine ihr.bind fun right => ?_
        simp [Mirrors, BinaryOp.eval, pure, Except.pure]
      · rw [if_pos hzero, if_pos hzero]
        exact rfl
    all_goals
      exact ihl.bind fun left => ihr.bind fun right => .apply _ left right
  | ternary condition yes no ihc ihy ihn =>
    have hparts : (Expression.ternary condition yes no).isArithmetic = true →
        (condition.isArithmetic = true ∧ yes.isArithmetic = true) ∧ no.isArithmetic = true :=
      fun h => ⟨Bool.and_eq_true_iff.mp (Bool.and_eq_true_iff.mp h).1, (Bool.and_eq_true_iff.mp h).2⟩
    refine (ihc.mono fun h => (hparts h).1.1).bind fun c => ?_
    by_cases hc : c ≠ 0
    · rw [if_pos hc, if_pos hc]
      exact ihy.mono fun h => (hparts h).1.2
    · rw [if_neg hc, if_neg hc]
      exact ihn.mono fun h => (hparts h).2

/-- Without a symbol location nothing is added to the value. -/
theorem evaluateExpression_none (ctx : EvalContext) (e : Expression) :
    ctx.evaluateExpression e none = ctx.denote (.ok 0) e := by
  unfold EvalContext.evaluateExpression
  rw [EvalContext.evaluateValue_eq, EvalContext.withFlag]
  have hzero : ctx.sectionAddress none = 0 := rfl
  cases h : ctx.denote (ctx.evaluateLocation none) e with
  | error err => exact h.symm
  | ok v =>
    refine Eq.trans ?_ h.symm
    simp [hzero, Except.map, bind, Except.bind, pure, Except.pure]

/-- **Constant expressions evaluate alike**: a value of `evaluate_const` is the value of `evaluate_expression` in
    every context, and of an expression of literals and operators an error is one as well. -/
theorem evaluateExpression_of_evaluateConst (e : Expression) :
    (∀ v, evaluateConst e = .ok v → ∀ ctx : EvalContext, ctx.evaluateExpression e none = .ok v) ∧
    (e.isArithmetic = true → ∀ message, evaluateConst e = .error message →
      ∀ ctx : EvalContext, ctx.evaluateExpression e none = .error (.arithmetic message)) := by
  refine ⟨?_, ?_⟩
  · intro v hv ctx
    have h := denote_follows ctx (.ok 0) e
    rw [hv] at h
    rw [evaluateExpression_none]
    exact h
  · intro harith message herror ctx
    have h := denote_follows ctx (.ok 0) e
    rw [herror] at h
    rw [evaluateExpression_none]
    exact h harith

end Reld
