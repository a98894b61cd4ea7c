import Reld.LinkerScript.ParseExpression
import Mathlib.Tactic.IntervalCases

/-!
# `LinkerScript.RoundTrip` — an expression is read back from its text

Each level of the parser reads what is printed for it (`Reads`), whatever follows, as long as no operator follows
that the level would take (`Follows`). The levels build on each other: `leftAssoc_reads` goes along the left spine
of an expression, and what is in parentheses or in a call is shorter, which is the induction of
`parseExpressionBounded_reads`.
-/

variable {op : BinaryOp} {ctx : Nat}

namespace Reld

open Parsers ParseExpression Expression

/-! ## Bytes -/

/-- What the text of an expression starts with. -/
def startsOperand (b : UInt8) : Bool := isIdentByte b || b == 40 || b == 33 || b == 126 || b == 45

theorem isBlankByte_iff {b : UInt8} : isBlankByte b = true ↔ b = 32 ∨ b = 9 ∨ b = 13 ∨ b = 10 := by
  simp [isBlankByte, or_assoc]

theorem isIdentByte_of_blank {b : UInt8} (h : isBlankByte b = true) : isIdentByte b = false := by
  rcases isBlankByte_iff.mp h with rfl | rfl | rfl | rfl <;> decide

theorem isBlankByte_of_startsOperand {b : UInt8} (h : startsOperand b = true) : isBlankByte b = false := by
  by_contra hblank
  rw [Bool.not_eq_false] at hblank
  rcases isBlankByte_iff.mp hblank with rfl | rfl | rfl | rfl <;> exact absurd h (by decide)

variable {gap t u rest lead : Bytes} {b : UInt8}

theorem multispace0_append (hgap : ∀ b ∈ gap, isBlankByte b = true) (t : Bytes) :
    multispace0 (gap ++ t) = multispace0 t := List.dropWhile_append_of_pos hgap

theorem multispace0_cons (h : isBlankByte b = false) (t : Bytes) : multispace0 (b :: t) = b :: t :=
  List.dropWhile_cons_of_neg (by rw [h]; decide)

theorem multispace0_gap_cons (hgap : ∀ b ∈ gap, isBlankByte b = true) (h : isBlankByte b = false) (t : Bytes) :
    multispace0 (gap ++ b :: t) = b :: t := by
  rw [multispace0_append hgap, multispace0_cons h]

theorem multispace0_idem (t : Bytes) : multispace0 (multispace0 t) = multispace0 t := by
  induction t with
  | nil => rfl
  | cons b t ih =>
    cases hb : isBlankByte b with
    | true => rw [show multispace0 (b :: t) = multispace0 t from List.dropWhile_cons_of_pos hb, ih]
    | false => rw [multispace0_cons hb, multispace0_cons hb]

/-! ## Operators -/

/-- The operators of a level. -/
def opAt : Nat → Parser UInt8 BinaryOp
  | 1 => logicalOrOp
  | 2 => logicalAndOp
  | 3 => comparisonOp
  | 4 => bitwiseOrOp
  | 5 => bitwiseXorOp
  | 6 => bitwiseAndOp
  | 7 => shiftOp
  | 8 => additiveOp
  | 9 => multiplicativeOp
  | _ => fun _ => none

/-- What the operators of a level start with. -/
def firstBytes : Nat → List UInt8
  | 1 => [124]
  | 2 => [38]
  | 3 => [60, 62, 61, 33]
  | 4 => [124]
  | 5 => [94]
  | 6 => [38]
  | 7 => [60, 62]
  | 8 => [43, 45]
  | 9 => [42, 47, 37]
  | _ => []

/-- A level has no operator that starts with another byte. -/
theorem opAt_of_head {m : Nat} (h : ∀ b ∈ u.head?, b ∉ firstBytes m) : opAt m u = none := by
  cases u with
  | nil =>
    unfold opAt
    split <;> rfl
  | cons b u =>
    have hb := h b rfl
    unfold firstBytes at hb
    unfold opAt
    split
    all_goals
      simp only [List.mem_cons, List.not_mem_nil, not_or, not_false_eq_true, or_false] at hb
      simp [logicalOrOp, logicalAndOp, comparisonOp, bitwiseOrOp, bitwiseXorOp, bitwiseAndOp, shiftOp, additiveOp,
        multiplicativeOp, alt, bytesOf, symbolNot, hb, eq_comm]

/-- A byte that does not make a longer operator of the one before it. -/
def endsOperator (b : UInt8) : Bool := b != 61 && b != 60 && b != 62 && b != 124 && b != 38

/-- An operator is read at its level. -/
theorem opAt_text {level : Nat} (hlevel : scriptLevel op = some level) (hu : ∀ b ∈ u.head?, endsOperator b = true) :
    opAt level (op.text ++ u) = some (op, u) := by
  have hnext : ∀ c, endsOperator c = false → u.head? ≠ some c := by
    intro c hc hhead
    rw [hu c hhead] at hc
    cases hc
  cases op <;> cases hlevel
  case lessThan | greaterThan =>
    cases u with
    | nil => rfl
    | cons c u =>
      have hc : c ≠ 61 := fun h => hnext 61 rfl (by rw [h]; rfl)
      simp [opAt, comparisonOp, alt, bytesOf, BinaryOp.text, Ne.symm hc]
  case bitwiseOr => exact symbolNot_cons (hnext 124 rfl)
  case bitwiseAnd => exact symbolNot_cons (hnext 38 rfl)
  all_goals simp [opAt, alt, bytesOf, BinaryOp.text, logicalOrOp, logicalAndOp, comparisonOp, bitwiseXorOp, shiftOp,
    additiveOp, multiplicativeOp]

/-- An operator starts like one of a tighter level only if it is `||`, `&&` or an ordering. -/
theorem shares_first {level : Nat} (hlevel : scriptLevel op = some level) :
    ∀ m < 10, level < m → (∀ b ∈ op.text.take 1, b ∉ firstBytes m) ∨ (op = .logicalOr ∧ m = 4) ∨
      (op = .logicalAnd ∧ m = 6) ∨ (op ∈ [.lessEqual, .greaterEqual, .lessThan, .greaterThan] ∧ m = 7) := by
  intro m hm hlt
  cases op <;> cases hlevel <;> interval_cases m <;> simp [firstBytes, BinaryOp.text, bytesOf]

/-- An operator is not read at a level that binds more tightly. -/
theorem opAt_tighter {level m : Nat} (hlevel : scriptLevel op = some level) (hu : ∀ b ∈ u.head?, endsOperator b = true)
    (hm : level < m) : opAt m (op.text ++ u) = none := by
  rcases Nat.lt_or_ge m 10 with hten | hten
  · obtain hfirst | ⟨rfl, rfl⟩ | ⟨rfl, rfl⟩ | ⟨hop, rfl⟩ := shares_first hlevel m hten hm
    · refine opAt_of_head (fun b hb => hfirst b ?_)
      have hne : op.text ≠ [] := by cases op <;> decide
      rw [List.head?_append_of_ne_nil _ hne] at hb
      obtain ⟨t, ht⟩ := List.head?_eq_some_iff.mp hb
      rw [ht]
      exact List.mem_cons_self
    · -- the second byte of the operator is the one that must not follow
      rfl
    · rfl
    · simp only [List.mem_cons, List.not_mem_nil, or_false] at hop
      rcases hop with rfl | rfl | rfl | rfl
      · rfl
      · rfl
      · cases u with
        | nil => rfl
        | cons c u =>
          have hc : c ≠ 60 := by
            rintro rfl
            exact absurd (hu 60 rfl) (by decide)
          simp [opAt, shiftOp, alt, bytesOf, BinaryOp.text, Ne.symm hc]
      · cases u with
        | nil => rfl
        | cons c u =>
          have hc : c ≠ 62 := by
            rintro rfl
            exact absurd (hu 62 rfl) (by decide)
          simp [opAt, shiftOp, alt, bytesOf, BinaryOp.text, Ne.symm hc]
  · refine opAt_of_head (fun b _ hmem => ?_)
    unfold firstBytes at hmem
    split at hmem
    all_goals first | omega | exact absurd hmem List.not_mem_nil

/-! ## What follows a text -/

/-- What may follow the text of an expression that a level reads: no further byte of a name, no call, and no
    operator that the level, or a tighter one, would take. -/
structure Follows (level : Nat) (rest : Bytes) : Prop where
  ident : ∀ b ∈ rest.head?, isIdentByte b = false
  call : ∀ b ∈ (multispace0 rest).head?, b ≠ 40
  question : level = 0 → ∀ b ∈ (multispace0 rest).head?, b ≠ 63
  stops : ∀ m, level ≤ m → opAt m (multispace0 rest) = none

theorem Follows.mono {l m : Nat} (h : Follows l rest) (hlm : l ≤ m) : Follows m rest where
  ident := h.ident
  call := h.call
  question hm := h.question (Nat.le_zero.mp (hm ▸ hlm))
  stops k hk := h.stops k (Nat.le_trans hlm hk)

/-- The end of the text. -/
theorem Follows.nil (level : Nat) : Follows level [] where
  ident b hb := by cases hb
  call b hb := by cases hb
  question _ b hb := by cases hb
  stops m _ := opAt_of_head (fun b hb => by cases hb)

/-- What closes an expression: `)`, `,`, `:`, and after a condition `?`. -/
def closes (b : UInt8) : Bool := b == 41 || b == 44 || b == 58 || b == 63

theorem notMem_firstBytes_of_closes {b : UInt8} (h : closes b = true) (m : Nat) : b ∉ firstBytes m := by
  have hb : b = 41 ∨ b = 44 ∨ b = 58 ∨ b = 63 := by simpa [closes, or_assoc] using h
  unfold firstBytes
  split
  all_goals rcases hb with rfl | rfl | rfl | rfl <;> decide

theorem head?_gap_append (hgap : ∀ b ∈ gap, isBlankByte b = true) {c : UInt8} (hc : isIdentByte c = false) :
    ∀ b ∈ (gap ++ c :: t).head?, isIdentByte b = false := by
  intro b hb
  cases gap with
  | nil =>
    obtain rfl : c = b := Option.some.inj hb
    exact hc
  | cons d gap =>
    obtain rfl : d = b := Option.some.inj hb
    exact isIdentByte_of_blank (hgap d List.mem_cons_self)

theorem Follows.closing {level : Nat} (hgap : ∀ b ∈ gap, isBlankByte b = true) {c : UInt8} (hc : closes c = true)
    (hlevel : c = 63 → level ≠ 0) (t : Bytes) : Follows level (gap ++ c :: t) := by
  have hcases : c = 41 ∨ c = 44 ∨ c = 58 ∨ c = 63 := by simpa [closes, or_assoc] using hc
  have hblank : isBlankByte c = false := by
    rcases hcases with rfl | rfl | rfl | rfl <;> decide
  have hident : isIdentByte c = false := by
    rcases hcases with rfl | rfl | rfl | rfl <;> decide
  have hspace : multispace0 (gap ++ c :: t) = c :: t := multispace0_gap_cons hgap hblank t
  refine ⟨head?_gap_append hgap hident, ?_, ?_, ?_⟩
  · rw [hspace]
    intro b hb
    obtain rfl : c = b := Option.some.inj hb
    rcases hcases with rfl | rfl | rfl | rfl <;> decide
  · rw [hspace]
    intro hzero b hb
    obtain rfl : c = b := Option.some.inj hb
    exact fun h => hlevel h hzero
  · rw [hspace]
    intro m _
    refine opAt_of_head (fun b hb => ?_)
    obtain rfl : c = b := Option.some.inj hb
    exact notMem_firstBytes_of_closes hc m

/-! ## How a text starts -/

/-- The text starts with an operand. -/
def StartsOperand (t : Bytes) : Prop := ∃ b u, t = b :: u ∧ startsOperand b = true

theorem StartsOperand.append (h : StartsOperand t) (u : Bytes) : StartsOperand (t ++ u) := by
  obtain ⟨b, v, rfl, hb⟩ := h
  exact ⟨b, v ++ u, rfl, hb⟩

theorem isDigitByte_ofNat {c : Char} (h : c.isDigit = true) : isDigitByte (UInt8.ofNat c.toNat) = true := by
  have hrange : 48 ≤ c.toNat ∧ c.toNat ≤ 57 := by
    simpa [Char.isDigit, UInt32.le_iff_toNat_le] using h
  unfold isDigitByte
  rw [Bool.and_eq_true, decide_eq_true_iff, decide_eq_true_iff, UInt8.le_iff_toNat_le, UInt8.le_iff_toNat_le,
    UInt8.toNat_ofNat', Nat.mod_eq_of_lt (show c.toNat < 2 ^ 8 by omega)]
  exact hrange

theorem decimal_digits (n : Nat) : ∀ b ∈ decimal n, isDigitByte b = true := by
  intro b hb
  obtain ⟨c, hc, rfl⟩ := List.mem_map.mp hb
  exact isDigitByte_ofNat (Nat.isDigit_of_mem_toDigits (by decide) (by decide) hc)

theorem decimal_ne_nil (n : Nat) : decimal n ≠ [] := by
  unfold decimal
  rw [Ne, List.map_eq_nil_iff]
  exact Nat.toDigits_ne_nil

theorem isIdentByte_of_digit (h : isDigitByte b = true) : isIdentByte b = true := by
  unfold isIdentByte
  rw [h, Bool.or_true, Bool.true_or, Bool.true_or]

theorem isDigitByte_of_startsIdent (h : startsIdent b = true) : isDigitByte b = false := by
  simp only [startsIdent, isAlphabetic, isDigitByte, Bool.or_eq_true, Bool.and_eq_true, Bool.and_eq_false_iff,
    decide_eq_true_iff, decide_eq_false_iff_not, beq_iff_eq, UInt8.le_iff_toNat_le, ← UInt8.toNat_inj] at h ⊢
  simp only [UInt8.reduceToNat] at h ⊢
  omega

theorem startsOperand_of_ident (h : isIdentByte b = true) : startsOperand b = true := by
  unfold startsOperand
  rw [h]
  rfl

theorem startsOperand_of_all (hne : t ≠ []) (h : ∀ b ∈ t, isIdentByte b = true) : StartsOperand t := by
  obtain ⟨b, u, rfl⟩ := List.exists_cons_of_ne_nil hne
  exact ⟨b, u, rfl, startsOperand_of_ident (h b List.mem_cons_self)⟩

theorem startsOperand_wrap (gap : Bytes) (needed : Bool) (h : StartsOperand t) : StartsOperand (wrap gap needed t) := by
  cases needed with
  | true => exact ⟨40, _, rfl, rfl⟩
  | false => exact h

theorem Expression.IsName.ne_nil (h : IsName t) : t ≠ [] := by
  rintro rfl
  obtain ⟨b, hb, -⟩ := h.2
  cases hb

/-- The text of an expression starts with an operand. -/
theorem startsOperand_textAt (gap : Bytes) (ctx : Nat) {e : Expression} (h : e.Denotable) :
    StartsOperand (e.textAt scriptPrecedence gap ctx) := by
  induction e generalizing ctx with
  | number n => exact startsOperand_of_all (decimal_ne_nil n) (fun b hb => isIdentByte_of_digit (decimal_digits n b hb))
  | symbol name => exact startsOperand_of_all h.1.ne_nil h.1.1
  | locationCounter => exact ⟨46, [], rfl, rfl⟩
  | sizeofHeaders => exact ⟨83, _, rfl, rfl⟩
  | nameFunction f name => cases f <;> exact ⟨_, _, rfl, rfl⟩
  | unary op e =>
    cases op with
    | align => exact ⟨65, _, rfl, rfl⟩
    | logicalNot => exact startsOperand_wrap gap _ ⟨33, _, rfl, rfl⟩
    | bitwiseNot => exact startsOperand_wrap gap _ ⟨126, _, rfl, rfl⟩
    | negate => exact startsOperand_wrap gap _ ⟨45, _, rfl, rfl⟩
  | binary op l r ihl _ =>
    unfold textAt
    split
    · refine startsOperand_wrap gap _ ?_
      exact (((ihl _ h.1).append _).append _).append _ |>.append _
    · rename_i hnone
      cases op <;> cases hnone <;> exact ⟨77, _, rfl, rfl⟩
  | segmentStart name d _ => exact ⟨83, _, rfl, rfl⟩
  | ternary c y n ihc _ _ =>
    refine startsOperand_wrap gap _ ?_
    exact ((((((((ihc _ h.1).append _).append _).append _).append _).append _).append _).append _).append _

/-- An operator with an operand behind it: no tighter level takes it, and it is no part of a name. -/
theorem Follows.operator {level : Nat} (hlevel : scriptLevel op = some level) (hgap : ∀ b ∈ gap, isBlankByte b = true)
    (hu : ∀ b ∈ u.head?, endsOperator b = true) :
    Follows (level + 1) (gap ++ op.text ++ u) ∧ multispace0 (gap ++ op.text ++ u) = op.text ++ u := by
  obtain ⟨c, v, htext, hident, hblank, hcall⟩ : ∃ c v, op.text = c :: v ∧ isIdentByte c = false ∧
      isBlankByte c = false ∧ c ≠ 40 := by
    cases op <;> cases hlevel <;> exact ⟨_, _, rfl, by decide, by decide, by decide⟩
  have hspace : multispace0 (gap ++ op.text ++ u) = op.text ++ u := by
    rw [List.append_assoc, htext, List.cons_append, multispace0_gap_cons hgap hblank]
  refine ⟨⟨?_, ?_, ?_, ?_⟩, hspace⟩
  · rw [List.append_assoc, htext, List.cons_append]
    exact head?_gap_append hgap hident
  · rw [hspace, htext]
    intro b hb
    obtain rfl : c = b := Option.some.inj hb
    exact hcall
  · intro h
    exact absurd h (Nat.succ_ne_zero level)
  · rw [hspace]
    intro m hm
    exact opAt_tighter hlevel hu hm

/-- What comes after an operator: a gap and an operand. -/
theorem endsOperator_gap (hgap : ∀ b ∈ gap, isBlankByte b = true) (ht : StartsOperand t) :
    ∀ b ∈ (gap ++ t).head?, endsOperator b = true := by
  intro b hb
  cases gap with
  | nil =>
    obtain ⟨c, v, rfl, hc⟩ := ht
    obtain rfl : c = b := Option.some.inj hb
    by_contra hends
    have hcases : c = 61 ∨ c = 60 ∨ c = 62 ∨ c = 124 ∨ c = 38 := by
      simpa [endsOperator, or_iff_not_imp_left] using hends
    rcases hcases with rfl | rfl | rfl | rfl | rfl <;> exact absurd hc (by decide)
  | cons d gap =>
    obtain rfl : d = b := Option.some.inj hb
    rcases isBlankByte_iff.mp (hgap d List.mem_cons_self) with rfl | rfl | rfl | rfl <;> decide

/-! ## Levels -/

theorem wrap_false (t : Bytes) : wrap gap false t = t := rfl

/-- The text of an expression is in parentheses where the place asks for more than it has. -/
theorem textAt_eq (e : Expression) (hctx : ctx ≤ 11) : e.textAt scriptPrecedence gap ctx =
      wrap gap (e.level scriptPrecedence < ctx) (e.textAt scriptPrecedence gap 0) := by
  have htop : wrap gap (decide (11 < ctx)) = id := by
    rw [decide_eq_false (Nat.not_lt.mpr hctx)]
    rfl
  have hbottom : ∀ n, wrap gap (decide (n < 0)) = id := by
    intro n
    rfl
  cases e with
  | unary op e =>
    cases op with
    | align => exact (congrFun htop _).symm
    | logicalNot | bitwiseNot | negate => exact congrArg (wrap gap (10 < ctx)) (congrFun (hbottom 10) _).symm
  | binary op l r =>
    rw [level_binary, textAt, textAt]
    cases scriptPrecedence.level op with
    | none => exact (congrFun htop _).symm
    | some level => exact congrArg (wrap gap (level < ctx)) (congrFun (hbottom level) _).symm
  | ternary c y n => exact congrArg (wrap gap (0 < ctx)) (congrFun (hbottom 0) _).symm
  | _ => exact (congrFun htop _).symm

theorem textAt_of_le {e : Expression} (h : ctx ≤ e.level scriptPrecedence) (hctx : ctx ≤ 11) :
    e.textAt scriptPrecedence gap ctx = e.textAt scriptPrecedence gap 0 := by
  rw [textAt_eq e hctx, decide_eq_false (Nat.not_lt.mpr h)]
  rfl

theorem textAt_of_lt {e : Expression} (h : e.level scriptPrecedence < ctx) (hctx : ctx ≤ 11) :
    e.textAt scriptPrecedence gap ctx = parens gap (e.textAt scriptPrecedence gap 0) := by
  rw [textAt_eq e hctx, decide_eq_true h]
  rfl

/-- One level up, only the expressions of the level itself change. -/
theorem textAt_succ {e : Expression} (h : e.level scriptPrecedence ≠ ctx) (hctx : ctx + 1 ≤ 11) :
    e.textAt scriptPrecedence gap ctx = e.textAt scriptPrecedence gap (ctx + 1) := by
  rcases Nat.lt_or_ge (e.level scriptPrecedence) ctx with hlt | hge
  · rw [textAt_of_lt hlt (by omega), textAt_of_lt (by omega) hctx]
  · rw [textAt_of_le hge (by omega), textAt_of_le (by omega) hctx]

/-- An operator expression at its own level. -/
theorem textAt_binary {level : Nat} (hlevel : scriptLevel op = some level) (l r : Expression) :
    (binary op l r).textAt scriptPrecedence gap level =
      l.textAt scriptPrecedence gap (scriptPrecedence.leftMin op) ++
        (gap ++ op.text ++ (gap ++ r.textAt scriptPrecedence gap (level + 1))) := by
  have hlevel' : scriptPrecedence.level op = some level := hlevel
  rw [textAt, hlevel']
  simp [wrap_false]

variable (gap) in
/-- The parser reads what is printed for a level, up to blanks after it, when the text is shorter than `bound`. -/
def Reads (bound level : Nat) (parser : Parser UInt8 Expression) : Prop :=
  ∀ e : Expression, e.Denotable → (e.textAt scriptPrecedence gap level).length < bound →
    ∀ lead rest : Bytes, (∀ b ∈ lead, isBlankByte b = true) → Follows level rest →
      ∃ rest', parser (lead ++ e.textAt scriptPrecedence gap level ++ rest) = some (e, rest') ∧
        multispace0 rest' = multispace0 rest

variable (gap) in
/-- The parser also takes the blanks. -/
def ReadsAll (bound level : Nat) (parser : Parser UInt8 Expression) : Prop :=
  ∀ e : Expression, e.Denotable → (e.textAt scriptPrecedence gap level).length < bound →
    ∀ lead rest : Bytes, (∀ b ∈ lead, isBlankByte b = true) → Follows level rest →
      parser (lead ++ e.textAt scriptPrecedence gap level ++ rest) = some (e, multispace0 rest)

theorem ReadsAll.reads {bound level : Nat} {parser : Parser UInt8 Expression} (h : ReadsAll gap bound level parser) :
    Reads gap bound level parser := by
  intro e he hlength lead rest hlead hrest
  exact ⟨_, h e he hlength lead rest hlead hrest, multispace0_idem rest⟩

/-! ## Operators that group to the left -/

theorem length_multispace0_le (t : Bytes) : (multispace0 t).length ≤ t.length :=
  (List.dropWhile_suffix isBlankByte).length_le

section LeftAssoc

variable {bound level : Nat} {operand : Parser UInt8 Expression}

/-- The loop goes along the left spine of the expression, and has it all when the text is read. -/
theorem leftAssoc_spine (hgap : ∀ b ∈ gap, isBlankByte b = true) (hpos : 0 < level) (hlevel : level ≤ 9)
    (hchain : ∀ op, scriptLevel op = some level → scriptPrecedence.leftMin op = level)
    (hoperand : Reads gap bound (level + 1) operand) {e : Expression} (he : e.Denotable)
    (hlength : (e.textAt scriptPrecedence gap level).length < bound) {lead : Bytes}
    (hlead : ∀ b ∈ lead, isBlankByte b = true) {rest : Bytes} (hrest : Follows (level + 1) rest) :
    ∃ k, (multispace0 rest).length ≤ k ∧
      leftAssoc multispace0 operand (opAt level) Expression.binary (lead ++ e.textAt scriptPrecedence gap level ++ rest) =
        leftAssocLoop multispace0 operand (opAt level) Expression.binary k e (multispace0 rest) := by
  -- an expression of another level is a single operand
  have hsingle : ∀ e : Expression, e.Denotable → (e.textAt scriptPrecedence gap level).length < bound →
      e.level scriptPrecedence ≠ level → ∀ rest, Follows (level + 1) rest →
      ∃ k, (multispace0 rest).length ≤ k ∧
        leftAssoc multispace0 operand (opAt level) Expression.binary (lead ++ e.textAt scriptPrecedence gap level ++ rest) =
          leftAssocLoop multispace0 operand (opAt level) Expression.binary k e (multispace0 rest) := by
    intro e he hlength hother rest hrest
    rw [textAt_succ hother (by omega)] at hlength ⊢
    obtain ⟨rest', hread, hblank⟩ := hoperand e he hlength lead rest hlead hrest
    refine ⟨(multispace0 rest).length, Nat.le_refl _, ?_⟩
    unfold leftAssoc
    rw [hread]
    show leftAssocLoop _ _ _ _ (multispace0 rest').length e (multispace0 rest') = _
    rw [hblank]
  induction e generalizing rest with
  | binary op l r ihl _ =>
    by_cases hop : scriptLevel op = some level
    · rw [textAt_binary hop, hchain op hop] at hlength ⊢
      simp only [List.length_append] at hlength
      have hr : StartsOperand (r.textAt scriptPrecedence gap (level + 1) ++ rest) :=
        (startsOperand_textAt gap _ he.2).append rest
      obtain ⟨hfollows, hspace⟩ := Follows.operator hop hgap (endsOperator_gap hgap hr)
      obtain ⟨k, hk, hleft⟩ := ihl he.1 (by omega) hfollows
      rw [hspace, List.length_append] at hk
      have hne : 0 < op.text.length := by cases op <;> decide
      obtain ⟨k, rfl⟩ : ∃ k', k = k' + 1 := ⟨k - 1, by omega⟩
      obtain ⟨rest', hread, hblank⟩ := hoperand r he.2 (by omega) [] rest (fun b hb => by cases hb) hrest
      refine ⟨k, ?_, ?_⟩
      · have hle := length_multispace0_le rest
        simp only [List.length_append] at hk
        omega
      · have hskip : multispace0 (gap ++ (r.textAt scriptPrecedence gap (level + 1) ++ rest)) =
            [] ++ r.textAt scriptPrecedence gap (level + 1) ++ rest := by
          obtain ⟨b, v, hv, hb⟩ := hr
          rw [hv, multispace0_gap_cons hgap (isBlankByte_of_startsOperand hb), List.nil_append, hv]
        have hstep : ∀ left, leftAssocLoop multispace0 operand (opAt level) Expression.binary (k + 1) left
            (op.text ++ (gap ++ (r.textAt scriptPrecedence gap (level + 1) ++ rest))) =
            leftAssocLoop multispace0 operand (opAt level) Expression.binary k (.binary op left r) (multispace0 rest) := by
          intro left
          rw [leftAssocLoop_step (opAt_text hop (endsOperator_gap hgap hr)) (hskip ▸ hread), hblank]
        rw [hspace, hstep] at hleft
        simpa only [List.append_assoc] using hleft
    · refine hsingle _ he hlength ?_ rest hrest
      intro h
      rw [level_binary] at h
      cases hop' : scriptPrecedence.level op with
      | none =>
        rw [hop'] at h
        have h : 11 = level := h
        omega
      | some m =>
        rw [hop'] at h
        exact hop (h ▸ hop')
  | unary op e => exact hsingle _ he hlength (by cases op <;> (simp only [Expression.level, scriptPrecedence]; omega)) rest hrest
  | ternary c y n => exact hsingle _ he hlength (by simp only [Expression.level]; omega) rest hrest
  | _ => exact hsingle _ he hlength (by simp only [Expression.level, scriptPrecedence]; omega) rest hrest

/-- A level whose operators group to the left. -/
theorem leftAssoc_readsAll (hgap : ∀ b ∈ gap, isBlankByte b = true) (hpos : 0 < level) (hlevel : level ≤ 9)
    (hchain : ∀ op, scriptLevel op = some level → scriptPrecedence.leftMin op = level)
    (hoperand : Reads gap bound (level + 1) operand) :
    ReadsAll gap bound level (leftAssoc multispace0 operand (opAt level) Expression.binary) := by
  intro e he hlength lead rest hlead hrest
  obtain ⟨k, -, hspine⟩ := leftAssoc_spine hgap hpos hlevel hchain hoperand he hlength hlead
    (hrest.mono (Nat.le_succ level))
  rw [hspine]
  exact leftAssocLoop_stop (hrest.stops level (Nat.le_refl level))

end LeftAssoc

/-! ## Primary expressions -/

section Primary

variable {numbers : NumberParsers} {expression : Parser UInt8 Expression} {n : Nat} {name : Bytes}

theorem parseIdent_append (hname : IsName name) (hrest : ∀ b ∈ rest.head?, isIdentByte b = false) :
    parseIdent (name ++ rest) = some (name, rest) := by
  obtain ⟨b, hb, hstart⟩ := hname.2
  unfold parseIdent
  rw [takeWhile1_append hname.ne_nil hname.1 hrest]
  show (if (name.head?.map startsIdent).getD false = true then some (name, rest) else none) = _
  rw [show name.head? = some b from hb, Option.map_some, Option.getD_some, if_pos hstart]

/-- What starts like an identifier is neither in parentheses nor a number. -/
theorem parsePrimary_ident (hlead : ∀ b ∈ lead, isBlankByte b = true) (hname : IsName name) (t : Bytes) :
    parsePrimary numbers expression (lead ++ (name ++ t)) = parseIdentifierOrFunction expression (name ++ t) := by
  obtain ⟨b, hb, hstart⟩ := hname.2
  obtain ⟨u, rfl⟩ := List.head?_eq_some_iff.mp hb
  have hident : isIdentByte b = true := hname.1 b List.mem_cons_self
  have hblank : isBlankByte b = false := isBlankByte_of_startsOperand (startsOperand_of_ident hident)
  have hparen : b ≠ 40 := by
    rintro rfl
    exact absurd hstart (by decide)
  have hdigit : isDigitByte b = false := isDigitByte_of_startsIdent hstart
  have hdrop : multispace0 (lead ++ ((b :: u) ++ t)) = b :: (u ++ t) := multispace0_gap_cons hlead hblank (u ++ t)
  have hopen : parseParentheses expression (b :: (u ++ t)) = none := by
    unfold parseParentheses
    rw [show bytesOf "(" = [40] from rfl, tag_cons_cons, if_neg (Ne.symm hparen)]
    rfl
  have hnumber : parseNumberWithSuffix numbers (b :: (u ++ t)) = none := by
    have hzero : b ≠ 48 := by
      rintro rfl
      cases hdigit
    have hhex : alt [tag (bytesOf "0x") (), tag (bytesOf "0X") ()] (b :: (u ++ t)) = none := by
      show alt [tag [48, 120] (), tag [48, 88] ()] _ = none
      rw [alt_cons_of_none (tag_of_head_ne (Ne.symm hzero)), alt_cons_of_none (tag_of_head_ne (Ne.symm hzero)), alt_nil]
    unfold parseNumberWithSuffix
    simp only
    rw [alt_cons_of_none (by rw [hhex]; rfl), alt_cons_of_none (numbers.decUint_other _ ?_), alt_nil]
    · rfl
    · intro c hc
      obtain rfl : b = c := Option.some.inj hc
      exact hdigit
  unfold parsePrimary
  rw [hdrop, alt_cons_of_none hopen, alt_cons_of_none hnumber]
  cases hident' : parseIdentifierOrFunction expression (b :: (u ++ t)) with
  | none => rw [alt_cons_of_none hident', alt_nil]; exact hident'.symm
  | some r => rw [alt_cons_of_some hident']; exact hident'.symm

/-- A number. -/
theorem parsePrimary_number (hlead : ∀ b ∈ lead, isBlankByte b = true) {value : Nat} (hvalue : value < 2 ^ 64)
    (hrest : ∀ b ∈ rest.head?, isIdentByte b = false) :
    parsePrimary numbers expression (lead ++ decimal value ++ rest) = some (.number value, rest) := by
  have hdigit : ∀ b ∈ rest.head?, isDigitByte b = false := by
    intro b hb
    by_contra h
    rw [Bool.not_eq_false] at h
    have hident := hrest b hb
    rw [isIdentByte_of_digit h] at hident
    cases hident
  obtain ⟨b, u, hdecimal⟩ := List.exists_cons_of_ne_nil (decimal_ne_nil value)
  have hall := decimal_digits value
  rw [hdecimal] at hall
  have hb : isDigitByte b = true := hall b List.mem_cons_self
  have hblank : isBlankByte b = false :=
    isBlankByte_of_startsOperand (startsOperand_of_ident (isIdentByte_of_digit hb))
  have hdrop : multispace0 (lead ++ decimal value ++ rest) = decimal value ++ rest := by
    rw [List.append_assoc, hdecimal, List.cons_append, multispace0_gap_cons hlead hblank]
  have hopen : parseParentheses expression (decimal value ++ rest) = none := by
    have hparen : b ≠ 40 := by
      rintro rfl
      cases hb
    unfold parseParentheses
    rw [hdecimal, List.cons_append, show bytesOf "(" = [40] from rfl, tag_cons_cons, if_neg (Ne.symm hparen)]
    rfl
  have hhex : ∀ c : UInt8, isIdentByte c = true → isDigitByte c = false →
      tag [48, c] () (decimal value ++ rest) = none := by
    -- what follows the first digit is a digit, or no byte of a name
    intro c hc hletter
    rw [hdecimal, List.cons_append, tag_cons_cons]
    split
    · cases u with
      | cons d u =>
        have hd : c ≠ d := by
          rintro rfl
          rw [hall c (List.mem_cons_of_mem b List.mem_cons_self)] at hletter
          cases hletter
        rw [List.cons_append, tag_cons_cons, if_neg hd]
      | nil =>
        cases rest with
        | nil => rfl
        | cons d rest =>
          have hd : c ≠ d := by
            rintro rfl
            rw [hrest c rfl] at hc
            cases hc
          rw [List.nil_append, tag_cons_cons, if_neg hd]
    · rfl
  have hbase : ∀ hex : Parser UInt8 Nat, hex (decimal value ++ rest) = none →
      alt [hex, numbers.decUint] (decimal value ++ rest) = some (value, rest) := by
    intro hex hnone
    rw [alt_cons_of_none hnone, alt_cons_of_some (numbers.decUint_decimal value hvalue rest hdigit)]
  have hnumber : parseNumberWithSuffix numbers (decimal value ++ rest) = some (.number value, rest) := by
    unfold parseNumberWithSuffix
    simp only
    rw [hbase _ (by
      show (alt [tag [48, 120] (), tag [48, 88] ()] _).bind _ = none
      rw [alt_cons_of_none (hhex 120 rfl rfl), alt_cons_of_none (hhex 88 rfl rfl), alt_nil]
      rfl)]
    cases rest with
    | nil => rfl
    | cons d rest =>
      have hsuffix : suffixFactor d = none := by
        have hd := hrest d rfl
        unfold suffixFactor
        rw [if_neg, if_neg]
        · rintro (rfl | rfl) <;> cases hd
        · rintro (rfl | rfl) <;> cases hd
      dsimp only [bind, Option.bind]
      rw [hsuffix]
  unfold parsePrimary
  rw [hdrop, alt_cons_of_none hopen, alt_cons_of_some hnumber]

/-- A name that is not a call. -/
theorem parseIdentifierOrFunction_name (hname : IsName name) (hdot : name ≠ bytesOf ".") (hrest : Follows 11 rest) :
    parseIdentifierOrFunction expression (name ++ rest) =
      if name = bytesOf "SIZEOF_HEADERS" then some (.sizeofHeaders, multispace0 rest)
      else some (.symbol name, multispace0 rest) := by
  unfold parseIdentifierOrFunction
  rw [parseIdent_append hname hrest.ident]
  show (if name = bytesOf "." then _ else _) = _
  rw [if_neg hdot]
  have hcall : tag (bytesOf "(") () (multispace0 rest) = none := by
    cases h : multispace0 rest with
    | nil => rfl
    | cons b t => exact tag_of_head_ne (Ne.symm (hrest.call b (by rw [h]; rfl)))
  rw [hcall]

/-- A call, up to its opening parenthesis. -/
theorem parseIdentifierOrFunction_call (hgap : ∀ b ∈ gap, isBlankByte b = true) (hname : IsName name)
    (hdot : name ≠ bytesOf ".") (t : Bytes) :
    parseIdentifierOrFunction expression (name ++ (gap ++ (bytesOf "(" ++ t))) =
      parseCall expression name (multispace0 t) := by
  have hnext : ∀ b ∈ (gap ++ (bytesOf "(" ++ t)).head?, isIdentByte b = false :=
    head?_gap_append (c := 40) hgap rfl
  have hspace : multispace0 (gap ++ (bytesOf "(" ++ t)) = bytesOf "(" ++ t := multispace0_gap_cons (b := 40) hgap rfl t
  unfold parseIdentifierOrFunction
  rw [parseIdent_append hname hnext]
  show (if name = bytesOf "." then _ else _) = _
  rw [if_neg hdot]
  rw [hspace, tag_append]

/-! ### Calls -/

/-- What is known of the expressions inside another one: they are shorter. -/
theorem parseExpressionThen_reads (hgap : ∀ b ∈ gap, isBlankByte b = true) (hexpr : ReadsAll gap n 0 expression)
    {e : Expression} (he : e.Denotable) (hlength : (e.text scriptPrecedence gap).length < n) {c : UInt8}
    (hc : closes c = true) (hquestion : c ≠ 63) (t : Bytes) :
    parseExpressionThen expression [c] (e.text scriptPrecedence gap ++ (gap ++ ([c] ++ t))) = some (e, t) := by
  have hblank : isBlankByte c = false := by
    have hcases : c = 41 ∨ c = 44 ∨ c = 58 ∨ c = 63 := by simpa [closes, or_assoc] using hc
    rcases hcases with rfl | rfl | rfl | rfl <;> decide
  have hspace : multispace0 (gap ++ ([c] ++ t)) = [c] ++ t := multispace0_gap_cons hgap hblank t
  have hread := hexpr e he hlength [] (gap ++ ([c] ++ t)) (fun b hb => by cases hb)
    (Follows.closing hgap hc (fun h => absurd h hquestion) t)
  rw [List.nil_append, hspace] at hread
  unfold parseExpressionThen Expression.text
  rw [hread]
  show (tag [c] () (multispace0 ([c] ++ t))).bind _ = _
  rw [show multispace0 ([c] ++ t) = [c] ++ t from multispace0_cons hblank t, tag_append]
  rfl

/-- The blanks in front of an expression. -/
theorem multispace0_text (hgap : ∀ b ∈ gap, isBlankByte b = true) {e : Expression} (he : e.Denotable) (t : Bytes) :
    multispace0 (gap ++ (e.text scriptPrecedence gap ++ t)) = e.text scriptPrecedence gap ++ t := by
  obtain ⟨b, u, hu, hb⟩ := (startsOperand_textAt gap 0 he).append t
  unfold Expression.text
  rw [hu, multispace0_gap_cons hgap (isBlankByte_of_startsOperand hb)]

theorem parseCall_name (hgap : ∀ b ∈ gap, isBlankByte b = true) (f : NameFunction) (hname : IsName name) (t : Bytes) :
    parseCall expression f.text (multispace0 (gap ++ (name ++ (gap ++ (bytesOf ")" ++ t))))) =
      some (.nameFunction f name, t) := by
  obtain ⟨b, hb, hstart⟩ := hname.2
  obtain ⟨u, rfl⟩ := List.head?_eq_some_iff.mp hb
  have hblank : isBlankByte b = false :=
    isBlankByte_of_startsOperand (startsOperand_of_ident (hname.1 b List.mem_cons_self))
  have hspace : multispace0 (gap ++ ((b :: u) ++ (gap ++ (bytesOf ")" ++ t)))) = (b :: u) ++ (gap ++ (bytesOf ")" ++ t)) :=
    multispace0_gap_cons hgap hblank _
  have hnext : ∀ d ∈ (gap ++ (bytesOf ")" ++ t)).head?, isIdentByte d = false := head?_gap_append (c := 41) hgap rfl
  have harg : parseFunctionArg ((b :: u) ++ (gap ++ (bytesOf ")" ++ t))) = some (b :: u, t) := by
    unfold parseFunctionArg
    rw [show multispace0 ((b :: u) ++ (gap ++ (bytesOf ")" ++ t))) = (b :: u) ++ (gap ++ (bytesOf ")" ++ t)) from
      multispace0_cons hblank _, parseIdent_append hname hnext]
    show (tag (bytesOf ")") () (multispace0 (gap ++ (bytesOf ")" ++ t)))).bind _ = _
    rw [show multispace0 (gap ++ (bytesOf ")" ++ t)) = bytesOf ")" ++ t from multispace0_gap_cons (b := 41) hgap rfl t,
      tag_append]
    rfl
  unfold parseCall
  rw [show nameFunctionOf f.text = some f by cases f <;> decide]
  show (parseFunctionArg _).bind _ = _
  rw [hspace, harg]
  rfl

theorem parseCall_align (hgap : ∀ b ∈ gap, isBlankByte b = true) (hexpr : ReadsAll gap n 0 expression)
    {e : Expression} (he : e.Denotable) (hlength : (e.text scriptPrecedence gap).length < n) (t : Bytes) :
    parseCall expression (bytesOf "ALIGN")
        (multispace0 (gap ++ (e.text scriptPrecedence gap ++ (gap ++ (bytesOf ")" ++ t))))) =
      some (.unary .align e, t) := by
  rw [multispace0_text hgap he]
  show (parseExpressionThen expression [41] _).bind _ = _
  rw [show bytesOf ")" = [41] from rfl, parseExpressionThen_reads hgap hexpr he hlength rfl (by decide)]
  rfl

/-- `MIN` and `MAX`. -/
theorem parseTwoArgs_reads (hgap : ∀ b ∈ gap, isBlankByte b = true) (hexpr : ReadsAll gap n 0 expression)
    {l r : Expression} (hl : l.Denotable) (hr : r.Denotable) (hll : (l.text scriptPrecedence gap).length < n)
    (hrl : (r.text scriptPrecedence gap).length < n) (op : BinaryOp) (t : Bytes) :
    parseTwoArgs expression op (l.text scriptPrecedence gap ++
        (gap ++ (bytesOf "," ++ (gap ++ (r.text scriptPrecedence gap ++ (gap ++ (bytesOf ")" ++ t))))))) =
      some (.binary op l r, t) := by
  unfold parseTwoArgs
  rw [show bytesOf "," = [44] from rfl, show bytesOf ")" = [41] from rfl,
    parseExpressionThen_reads hgap hexpr hl hll rfl (by decide)]
  show (parseExpressionThen expression [41] (multispace0 _)).bind _ = _
  rw [multispace0_text hgap hr, parseExpressionThen_reads hgap hexpr hr hrl rfl (by decide)]
  rfl

theorem parseSegmentStart_reads (hgap : ∀ b ∈ gap, isBlankByte b = true) (hexpr : ReadsAll gap n 0 expression)
    (hne : name ≠ []) (hname : ∀ b ∈ name, b ≠ 34) {d : Expression} (hd : d.Denotable)
    (hlength : (d.text scriptPrecedence gap).length < n) (t : Bytes) :
    parseSegmentStart expression (bytesOf "\"" ++ (name ++ (bytesOf "\"" ++
        (gap ++ (bytesOf "," ++ (gap ++ (d.text scriptPrecedence gap ++ (gap ++ (bytesOf ")" ++ t))))))))) =
      some (.segmentStart name d, t) := by
  have hquote : ∀ u : Bytes, multispace0 (bytesOf "\"" ++ u) = bytesOf "\"" ++ u := fun u => multispace0_cons (b := 34) rfl u
  have hcomma : ∀ u : Bytes, multispace0 (gap ++ (bytesOf "," ++ u)) = bytesOf "," ++ u := fun u =>
    multispace0_gap_cons (b := 44) hgap rfl u
  have hrun : ∀ u : Bytes, takeWhile1 (fun b : UInt8 => b != 34) (name ++ (bytesOf "\"" ++ u)) =
      some (name, bytesOf "\"" ++ u) := by
    intro u
    refine takeWhile1_append hne (fun b hb => bne_iff_ne.mpr (hname b hb)) ?_
    intro b hb
    obtain rfl : (34 : UInt8) = b := Option.some.inj hb
    rfl
  unfold parseSegmentStart
  rw [hquote, tag_append]
  show (takeWhile1 _ _).bind _ = _
  rw [hrun, Option.bind_some]
  simp only [tag_append, Option.bind_eq_bind, Option.bind_some]
  show (tag (bytesOf ",") () (multispace0 _)).bind _ = _
  rw [hcomma, tag_append]
  show (parseExpressionThen expression [41] (multispace0 _)).bind _ = _
  rw [multispace0_text hgap hd, show bytesOf ")" = [41] from rfl,
    parseExpressionThen_reads hgap hexpr hd hlength rfl (by decide)]
  rfl

/-! ### All of them -/

/-- An expression in parentheses. -/
theorem parsePrimary_parens (hgap : ∀ b ∈ gap, isBlankByte b = true) (hexpr : ReadsAll gap n 0 expression)
    (hlead : ∀ b ∈ lead, isBlankByte b = true) {e : Expression} (he : e.Denotable)
    (hlength : (e.text scriptPrecedence gap).length < n) (t : Bytes) :
    parsePrimary numbers expression (lead ++ parens gap (e.text scriptPrecedence gap) ++ t) = some (e, t) := by
  have htext : lead ++ parens gap (e.text scriptPrecedence gap) ++ t =
      lead ++ (bytesOf "(" ++ (gap ++ e.text scriptPrecedence gap ++ (gap ++ (bytesOf ")" ++ t)))) := by
    simp [parens]
  have hspace : multispace0 (gap ++ (bytesOf ")" ++ t)) = bytesOf ")" ++ t := multispace0_gap_cons (b := 41) hgap rfl t
  have hread := hexpr e he hlength gap (gap ++ (bytesOf ")" ++ t)) hgap (Follows.closing (c := 41) hgap rfl (by decide) t)
  rw [hspace] at hread
  have hopen : parseParentheses expression
      (bytesOf "(" ++ (gap ++ e.text scriptPrecedence gap ++ (gap ++ (bytesOf ")" ++ t)))) = some (e, t) := by
    unfold parseParentheses
    show (expression (gap ++ e.textAt scriptPrecedence gap 0 ++ (gap ++ (bytesOf ")" ++ t)))).bind _ = _
    rw [hread, Option.bind_some]
    rfl
  unfold parsePrimary
  rw [htext, show ∀ u : Bytes, multispace0 (lead ++ (bytesOf "(" ++ u)) = bytesOf "(" ++ u from
    fun u => multispace0_gap_cons (b := 40) hlead rfl u, alt_cons_of_some hopen]

/-- A call, up to its arguments. -/
theorem parsePrimary_call (hgap : ∀ b ∈ gap, isBlankByte b = true) (hlead : ∀ b ∈ lead, isBlankByte b = true)
    (hname : IsName name) (hdot : name ≠ bytesOf ".") (args t : Bytes) :
    parsePrimary numbers expression (lead ++ (name ++ gap ++ parens gap args) ++ t) =
      parseCall expression name (multispace0 (gap ++ (args ++ (gap ++ (bytesOf ")" ++ t))))) := by
  have htext : lead ++ (name ++ gap ++ parens gap args) ++ t =
      lead ++ (name ++ (gap ++ (bytesOf "(" ++ (gap ++ (args ++ (gap ++ (bytesOf ")" ++ t))))))) := by
    simp [parens]
  rw [htext, parsePrimary_ident hlead hname, parseIdentifierOrFunction_call hgap hname hdot]

theorem parsePrimary_locationCounter (hlead : ∀ b ∈ lead, isBlankByte b = true)
    (hrest : ∀ b ∈ rest.head?, isIdentByte b = false) :
    parsePrimary numbers expression (lead ++ bytesOf "." ++ rest) = some (.locationCounter, rest) := by
  have hname : IsName (bytesOf ".") := by decide
  rw [List.append_assoc, parsePrimary_ident hlead hname]
  unfold parseIdentifierOrFunction
  rw [parseIdent_append hname hrest]
  rfl

/-- `MIN` and `MAX` with their arguments. -/
theorem parsePrimary_twoArgs (hgap : ∀ b ∈ gap, isBlankByte b = true) (hexpr : ReadsAll gap n 0 expression)
    (hlead : ∀ b ∈ lead, isBlankByte b = true) (hop : scriptLevel op = none) {l r : Expression} (hl : l.Denotable)
    (hr : r.Denotable) (hll : (l.text scriptPrecedence gap).length < n) (hrl : (r.text scriptPrecedence gap).length < n)
    (t : Bytes) :
    parsePrimary numbers expression (lead ++ (op.text ++ gap ++ parens gap (l.text scriptPrecedence gap ++ gap ++
        bytesOf "," ++ gap ++ r.text scriptPrecedence gap)) ++ t) = some (.binary op l r, t) := by
  have hname : IsName op.text ∧ op.text ≠ bytesOf "." := by
    cases op <;> cases hop <;> exact ⟨by decide, by decide⟩
  have hcall : ∀ u, parseCall expression op.text u = parseTwoArgs expression op u := by
    intro u
    cases op <;> cases hop <;> rfl
  rw [parsePrimary_call hgap hlead hname.1 hname.2, hcall]
  simp only [List.append_assoc]
  rw [multispace0_text hgap hl, parseTwoArgs_reads hgap hexpr hl hr hll hrl]

theorem parsePrimary_segmentStart (hgap : ∀ b ∈ gap, isBlankByte b = true) (hexpr : ReadsAll gap n 0 expression)
    (hlead : ∀ b ∈ lead, isBlankByte b = true) (hne : name ≠ []) (hname : ∀ b ∈ name, b ≠ 34) {d : Expression}
    (hd : d.Denotable) (hlength : (d.text scriptPrecedence gap).length < n) (t : Bytes) :
    parsePrimary numbers expression (lead ++ (bytesOf "SEGMENT_START" ++ gap ++ parens gap (bytesOf "\"" ++ name ++
        bytesOf "\"" ++ gap ++ bytesOf "," ++ gap ++ d.text scriptPrecedence gap)) ++ t) =
      some (.segmentStart name d, t) := by
  have hquote : ∀ u : Bytes, multispace0 (gap ++ (bytesOf "\"" ++ u)) = bytesOf "\"" ++ u := fun u =>
    multispace0_gap_cons (b := 34) hgap rfl u
  rw [parsePrimary_call hgap hlead (by decide) (by decide)]
  simp only [List.append_assoc]
  rw [hquote]
  exact parseSegmentStart_reads hgap hexpr hne hname hd hlength t

/-- `parse_primary` reads every expression, in parentheses if it has to be. -/
theorem parsePrimary_reads (hgap : ∀ b ∈ gap, isBlankByte b = true) (hexpr : ReadsAll gap n 0 expression) :
    Reads gap (n + 1) 11 (parsePrimary numbers expression) := by
  intro e he hlength lead rest hlead hrest
  rcases Nat.lt_or_ge (e.level scriptPrecedence) 11 with hlt | hge
  · rw [textAt_of_lt hlt (Nat.le_refl 11)] at hlength ⊢
    refine ⟨rest, parsePrimary_parens hgap hexpr hlead he ?_ rest, rfl⟩
    simp only [parens, List.length_append] at hlength
    have hparen : (bytesOf "(").length = 1 := rfl
    unfold Expression.text
    omega
  · -- atoms and calls stand without parentheses; what is in a call is shorter than the call
    have hparen : (bytesOf "(").length = 1 := rfl
    cases e with
    | number value => exact ⟨rest, parsePrimary_number hlead he hrest.ident, rfl⟩
    | symbol name =>
      refine ⟨multispace0 rest, ?_, multispace0_idem rest⟩
      rw [textAt, List.append_assoc, parsePrimary_ident hlead he.1,
        parseIdentifierOrFunction_name he.1 he.2.1 hrest, if_neg he.2.2]
    | locationCounter => exact ⟨rest, parsePrimary_locationCounter hlead hrest.ident, rfl⟩
    | sizeofHeaders =>
      refine ⟨multispace0 rest, ?_, multispace0_idem rest⟩
      have hname : IsName (bytesOf "SIZEOF_HEADERS") := by decide
      rw [textAt, List.append_assoc, parsePrimary_ident hlead hname,
        parseIdentifierOrFunction_name hname (by decide) hrest, if_pos rfl]
    | nameFunction f name =>
      have hname : IsName f.text ∧ f.text ≠ bytesOf "." := by
        cases f <;> exact ⟨by decide, by decide⟩
      refine ⟨rest, ?_, rfl⟩
      rw [textAt, parsePrimary_call hgap hlead hname.1 hname.2, parseCall_name hgap f he]
    | unary op e =>
      cases op with
      | align =>
        simp only [textAt, parens, List.length_append] at hlength
        refine ⟨rest, ?_, rfl⟩
        rw [textAt, show UnaryOp.align.text = bytesOf "ALIGN" from rfl,
          parsePrimary_call hgap hlead (by decide) (by decide)]
        exact parseCall_align (e := e) hgap hexpr he (by unfold Expression.text; omega) rest
      | logicalNot | bitwiseNot | negate => exact absurd hge (Nat.not_le.mpr (show 10 < 11 by decide))
    | binary op l r =>
      cases hop : scriptLevel op with
      | none =>
        have hop' : scriptPrecedence.level op = none := hop
        rw [textAt, hop'] at hlength ⊢
        simp only [parens, List.length_append] at hlength
        exact ⟨rest, parsePrimary_twoArgs hgap hexpr hlead hop he.1 he.2 (by unfold Expression.text; omega)
          (by unfold Expression.text; omega) rest, rfl⟩
      | some level =>
        have hop' : scriptPrecedence.level op = some level := hop
        have hle : level ≤ 9 := by
          cases op <;> cases hop <;> decide
        rw [level_binary, hop', Option.getD_some] at hge
        omega
    | segmentStart name d =>
      rw [textAt] at hlength ⊢
      simp only [parens, List.length_append] at hlength
      exact ⟨rest, parsePrimary_segmentStart hgap hexpr hlead he.1 he.2.1 he.2.2 (by unfold Expression.text; omega) rest,
        rfl⟩
    | ternary c y n => exact absurd hge (Nat.not_le.mpr (show 0 < 11 by decide))

/-! ## Unary operators -/

/-- The text of an expression that is not a unary operator's starts with a name, a number or a parenthesis. -/
theorem textAt_head {e : Expression} (he : e.Denotable) (h : e.level scriptPrecedence ≠ 10) :
    ∃ b u, e.textAt scriptPrecedence gap 10 = b :: u ∧ (isIdentByte b = true ∨ b = 40) := by
  have hall : ∀ t : Bytes, t ≠ [] → (∀ b ∈ t, isIdentByte b = true) →
      ∃ b u, t = b :: u ∧ (isIdentByte b = true ∨ b = 40) := by
    intro t hne ht
    obtain ⟨b, u, rfl⟩ := List.exists_cons_of_ne_nil hne
    exact ⟨b, u, rfl, .inl (ht b List.mem_cons_self)⟩
  rcases Nat.lt_or_ge (e.level scriptPrecedence) 10 with hlt | hge
  · rw [textAt_of_lt hlt (by decide)]
    exact ⟨40, _, rfl, .inr rfl⟩
  · cases e with
    | number value => exact hall _ (decimal_ne_nil value) (fun b hb => isIdentByte_of_digit (decimal_digits value b hb))
    | symbol name => exact hall _ he.1.ne_nil he.1.1
    | locationCounter => exact ⟨46, _, rfl, .inl rfl⟩
    | sizeofHeaders => exact ⟨83, _, rfl, .inl rfl⟩
    | nameFunction f name => cases f <;> exact ⟨_, _, rfl, .inl rfl⟩
    | unary op e =>
      cases op with
      | align => exact ⟨65, _, rfl, .inl rfl⟩
      | logicalNot => exact absurd rfl h
      | bitwiseNot => exact absurd rfl h
      | negate => exact absurd rfl h
    | binary op l r =>
      cases hop : scriptLevel op with
      | none =>
        cases op <;> cases hop <;> exact ⟨77, _, rfl, .inl rfl⟩
      | some level =>
        rw [level_binary, show scriptPrecedence.level op = some level from hop, Option.getD_some] at hge
        have hle : level ≤ 9 := by
          cases op <;> cases hop <;> decide
        omega
    | segmentStart name d => exact ⟨83, _, rfl, .inl rfl⟩
    | ternary c y n => exact absurd hge (Nat.not_le.mpr (show 0 < 10 by decide))

theorem unaryOp_other (h : isIdentByte b = true ∨ b = 40) : unaryOp (b :: t) = none := by
  have hne : ∀ c, isIdentByte c = false → c ≠ 40 → c ≠ b := by
    rintro c hc hparen rfl
    rcases h with h | h
    · rw [hc] at h
      cases h
    · exact hparen h
  show alt [symbolNot 33 61 _, tag [126] _, tag [45] _] (b :: t) = none
  rw [alt_cons_of_none (symbolNot_of_ne (Ne.symm (hne 33 rfl (by decide)))),
    alt_cons_of_none (tag_of_head_ne (hne 126 rfl (by decide))),
    alt_cons_of_none (tag_of_head_ne (hne 45 rfl (by decide))), alt_nil]

theorem unaryOp_text {op : UnaryOp} (hop : op ≠ .align) (ht : ∀ b ∈ t.head?, endsOperator b = true) :
    unaryOp (op.text ++ t) = some (op, t) := by
  cases op with
  | align => exact absurd rfl hop
  | logicalNot =>
    have hnext : t.head? ≠ some 61 := fun h => absurd (ht 61 h) (by decide)
    exact alt_cons_of_some (symbolNot_cons hnext)
  | bitwiseNot => rfl
  | negate => rfl

theorem textAt_unary {op : UnaryOp} (hop : op ≠ .align) (e : Expression) :
    (unary op e).textAt scriptPrecedence gap 10 = op.text ++ (gap ++ e.textAt scriptPrecedence gap 10) := by
  cases op with
  | align => exact absurd rfl hop
  | logicalNot => rfl
  | bitwiseNot => rfl
  | negate => rfl

/-- Without an operator in front an expression is a primary one. -/
theorem parseUnaryBounded_primary (hprimary : Reads gap (n + 1) 11 (parsePrimary numbers expression)) {e : Expression}
    (he : e.Denotable) (hlevel : e.level scriptPrecedence ≠ 10)
    (hlength : (e.textAt scriptPrecedence gap 10).length < n + 1) {k : Nat}
    (hk : (e.textAt scriptPrecedence gap 10).length ≤ k) (hlead : ∀ b ∈ lead, isBlankByte b = true)
    (hrest : Follows 10 rest) :
    ∃ rest', parseUnaryBounded numbers expression k (lead ++ e.textAt scriptPrecedence gap 10 ++ rest) =
      some (e, rest') ∧ multispace0 rest' = multispace0 rest := by
  obtain ⟨b, u, htext, hb⟩ := @textAt_head gap e he hlevel
  have hblank : isBlankByte b = false := by
    rcases hb with hb | rfl
    · exact isBlankByte_of_startsOperand (startsOperand_of_ident hb)
    · rfl
  have hspace : multispace0 (lead ++ e.textAt scriptPrecedence gap 10 ++ rest) =
      [] ++ e.textAt scriptPrecedence gap 11 ++ rest := by
    rw [← textAt_succ hlevel (by decide), htext, List.append_assoc, List.cons_append,
      multispace0_gap_cons hlead hblank]
    rfl
  have hnone : unaryOp ([] ++ e.textAt scriptPrecedence gap 11 ++ rest) = none := by
    rw [← textAt_succ hlevel (by decide), htext]
    exact unaryOp_other hb
  obtain ⟨k, rfl⟩ : ∃ k', k = k' + 1 := by
    rw [htext, List.length_cons] at hk
    exact ⟨k - 1, by omega⟩
  rw [parseUnaryBounded, hspace, hnone]
  rw [textAt_succ hlevel (by decide)] at hlength
  exact hprimary e he hlength [] rest (fun b hb => by cases hb) (hrest.mono (by decide))

/-- The operators in front of an expression are read one by one; each has a byte of its own. -/
theorem parseUnaryBounded_reads (hgap : ∀ b ∈ gap, isBlankByte b = true)
    (hprimary : Reads gap (n + 1) 11 (parsePrimary numbers expression)) {e : Expression} (he : e.Denotable)
    (hlength : (e.textAt scriptPrecedence gap 10).length < n + 1) {k : Nat}
    (hk : (e.textAt scriptPrecedence gap 10).length ≤ k) (hlead : ∀ b ∈ lead, isBlankByte b = true)
    (hrest : Follows 10 rest) :
    ∃ rest', parseUnaryBounded numbers expression k (lead ++ e.textAt scriptPrecedence gap 10 ++ rest) =
      some (e, rest') ∧ multispace0 rest' = multispace0 rest := by
  induction e generalizing k lead with
  | unary op e ih =>
    by_cases hop : op = .align
    · have hlevel : (unary op e).level scriptPrecedence ≠ 10 := by
        rw [hop]
        exact (show (11 : Nat) ≠ 10 by decide)
      exact parseUnaryBounded_primary hprimary he hlevel hlength hk hlead hrest
    · rw [textAt_unary hop] at hlength hk ⊢
      simp only [List.length_append] at hlength hk
      have hstart : StartsOperand (e.textAt scriptPrecedence gap 10 ++ rest) :=
        (startsOperand_textAt (e := e) gap _ he).append rest
      obtain ⟨c, hc, hblank⟩ : ∃ c, op.text = [c] ∧ isBlankByte c = false := by
        cases op with
        | align => exact absurd rfl hop
        | logicalNot => exact ⟨33, rfl, rfl⟩
        | bitwiseNot => exact ⟨126, rfl, rfl⟩
        | negate => exact ⟨45, rfl, rfl⟩
      have hspace : multispace0 (lead ++ (op.text ++ (gap ++ e.textAt scriptPrecedence gap 10)) ++ rest) =
          op.text ++ (gap ++ (e.textAt scriptPrecedence gap 10 ++ rest)) := by
        simp only [hc, List.append_assoc]
        exact multispace0_gap_cons hlead hblank _
      have hone : op.text.length = 1 := by rw [hc]; rfl
      obtain ⟨k, rfl⟩ : ∃ k', k = k' + 1 := ⟨k - 1, by omega⟩
      obtain ⟨rest', hread, hrest'⟩ := ih (k := k) he (by omega) (by omega) hgap
      refine ⟨rest', ?_, hrest'⟩
      rw [parseUnaryBounded, hspace, unaryOp_text hop (endsOperator_gap hgap hstart)]
      show (parseUnaryBounded numbers expression k (gap ++ (e.textAt scriptPrecedence gap 10 ++ rest))).bind _ = _
      rw [← List.append_assoc, hread]
      rfl
  | binary op l r =>
    have hlevel : (binary op l r).level scriptPrecedence ≠ 10 := by
      rw [level_binary]
      cases op <;> decide
    exact parseUnaryBounded_primary hprimary he hlevel hlength hk hlead hrest
  | ternary c y n =>
    exact parseUnaryBounded_primary hprimary he (show (0 : Nat) ≠ 10 by decide) hlength hk hlead hrest
  | _ => exact parseUnaryBounded_primary hprimary he (show (11 : Nat) ≠ 10 by decide) hlength hk hlead hrest

/-- `parse_unary` reads every expression of its level. -/
theorem parseUnary_reads (hgap : ∀ b ∈ gap, isBlankByte b = true)
    (hprimary : Reads gap (n + 1) 11 (parsePrimary numbers expression)) :
    Reads gap (n + 1) 10 (parseUnary numbers expression) := by
  intro e he hlength lead rest hlead hrest
  refine parseUnaryBounded_reads hgap hprimary he hlength ?_ hlead hrest
  simp only [List.length_append]
  omega

/-! ## The levels of the operators -/

theorem leftMin_eq {level : Nat} (hlevel : level ≠ 3) (hop : scriptLevel op = some level) :
    scriptPrecedence.leftMin op = level := by
  show (if scriptLevel op = some 3 then 4 else (scriptLevel op).getD 0) = level
  rw [hop, if_neg (fun h => hlevel (Option.some.inj h)), Option.getD_some]

/-- The levels between the unary operators and the comparisons. -/
theorem parseBitwiseOr_reads (hgap : ∀ b ∈ gap, isBlankByte b = true)
    (hunary : Reads gap (n + 1) 10 (parseUnary numbers expression)) :
    ReadsAll gap (n + 1) 4 (parseBitwiseOr numbers expression) := by
  have hmultiplicative : ReadsAll gap (n + 1) 9 (parseMultiplicative numbers expression) :=
    leftAssoc_readsAll hgap (by decide) (by decide) (fun _ => leftMin_eq (by decide)) hunary
  have hadditive : ReadsAll gap (n + 1) 8 (parseAdditive numbers expression) :=
    leftAssoc_readsAll hgap (by decide) (by decide) (fun _ => leftMin_eq (by decide)) hmultiplicative.reads
  have hshift : ReadsAll gap (n + 1) 7 (parseShift numbers expression) :=
    leftAssoc_readsAll hgap (by decide) (by decide) (fun _ => leftMin_eq (by decide)) hadditive.reads
  have hand : ReadsAll gap (n + 1) 6 (parseBitwiseAnd numbers expression) :=
    leftAssoc_readsAll hgap (by decide) (by decide) (fun _ => leftMin_eq (by decide)) hshift.reads
  have hxor : ReadsAll gap (n + 1) 5 (parseBitwiseXor numbers expression) :=
    leftAssoc_readsAll hgap (by decide) (by decide) (fun _ => leftMin_eq (by decide)) hand.reads
  exact leftAssoc_readsAll hgap (by decide) (by decide) (fun _ => leftMin_eq (by decide)) hxor.reads

theorem level_eq_some {e : Expression} {level : Nat} (h : e.level scriptPrecedence = level) (hpos : 0 < level)
    (hle : level ≤ 9) : ∃ op l r, e = .binary op l r ∧ scriptLevel op = some level := by
  cases e with
  | binary op l r =>
    rw [level_binary] at h
    cases hop : scriptPrecedence.level op with
    | none =>
      rw [hop] at h
      have h : 11 = level := h
      omega
    | some m =>
      rw [hop] at h
      exact ⟨op, l, r, rfl, hop.trans (congrArg some h)⟩
  | unary op e =>
    have hten : 10 ≤ (unary op e).level scriptPrecedence := by
      cases op with
      | align => exact (show 10 ≤ 11 by decide)
      | logicalNot => exact Nat.le_refl 10
      | bitwiseNot => exact Nat.le_refl 10
      | negate => exact Nat.le_refl 10
    omega
  | ternary c y n =>
    have h : 0 = level := h
    omega
  | _ =>
    have h : 11 = level := h
    omega

/-- One comparison at most: its operands bind more tightly. -/
theorem parseComparison_reads (hgap : ∀ b ∈ gap, isBlankByte b = true)
    (hor : ReadsAll gap (n + 1) 4 (parseBitwiseOr numbers expression)) :
    ReadsAll gap (n + 1) 3 (parseComparison numbers expression) := by
  intro e he hlength lead rest hlead hrest
  by_cases hlevel : e.level scriptPrecedence = 3
  · obtain ⟨op, l, r, rfl, hop⟩ := level_eq_some hlevel (by decide) (by decide)
    have hleft : scriptPrecedence.leftMin op = 4 := if_pos hop
    rw [textAt_binary hop, hleft, show 3 + 1 = 4 from rfl] at hlength ⊢
    simp only [List.length_append] at hlength
    have hr : StartsOperand (r.textAt scriptPrecedence gap 4 ++ rest) := (startsOperand_textAt gap _ he.2).append rest
    obtain ⟨hfollows, hspace⟩ := Follows.operator hop hgap (endsOperator_gap hgap hr)
    have hreadLeft := hor l he.1 (by omega) lead _ hlead hfollows
    have hreadRight := hor r he.2 (by omega) [] rest (fun b hb => by cases hb) (hrest.mono (by decide))
    have hskip : multispace0 (gap ++ (r.textAt scriptPrecedence gap 4 ++ rest)) =
        [] ++ r.textAt scriptPrecedence gap 4 ++ rest := by
      obtain ⟨b, v, hv, hb⟩ := hr
      rw [hv, multispace0_gap_cons hgap (isBlankByte_of_startsOperand hb), List.nil_append, hv]
    have htext : lead ++ (l.textAt scriptPrecedence gap 4 ++ (gap ++ op.text ++ (gap ++
        r.textAt scriptPrecedence gap 4))) ++ rest = lead ++ l.textAt scriptPrecedence gap 4 ++
        (gap ++ op.text ++ (gap ++ (r.textAt scriptPrecedence gap 4 ++ rest))) := by
      simp
    have hcomparison : comparisonOp (op.text ++ (gap ++ (r.textAt scriptPrecedence gap 4 ++ rest))) =
        some (op, gap ++ (r.textAt scriptPrecedence gap 4 ++ rest)) := opAt_text hop (endsOperator_gap hgap hr)
    have hidem : multispace0 (op.text ++ (gap ++ (r.textAt scriptPrecedence gap 4 ++ rest))) =
        op.text ++ (gap ++ (r.textAt scriptPrecedence gap 4 ++ rest)) := by
      rw [← hspace, multispace0_idem]
    unfold parseComparison
    rw [htext, hreadLeft, hspace, Option.bind_eq_bind, Option.bind_some]
    simp only [hidem, hcomparison, hskip, hreadRight, Option.bind_some, multispace0_idem]
  · rw [textAt_succ hlevel (by decide)] at hlength ⊢
    have hread := hor e he hlength lead rest hlead (hrest.mono (by decide))
    have hnone : comparisonOp (multispace0 rest) = none := hrest.stops 3 (Nat.le_refl 3)
    unfold parseComparison
    rw [hread, Option.bind_eq_bind, Option.bind_some]
    simp only [multispace0_idem, hnone]

/-- The levels above the comparisons. -/
theorem parseLogicalOr_reads (hgap : ∀ b ∈ gap, isBlankByte b = true)
    (hcomparison : ReadsAll gap (n + 1) 3 (parseComparison numbers expression)) :
    ReadsAll gap (n + 1) 1 (parseLogicalOr numbers expression) := by
  have hand : ReadsAll gap (n + 1) 2 (parseLogicalAnd numbers expression) :=
    leftAssoc_readsAll hgap (by decide) (by decide) (fun _ => leftMin_eq (by decide)) hcomparison.reads
  exact leftAssoc_readsAll hgap (by decide) (by decide) (fun _ => leftMin_eq (by decide)) hand.reads

/-- The condition is read by the level below, the branches from the top. -/
theorem parseTernary_reads (hgap : ∀ b ∈ gap, isBlankByte b = true) (hexpr : ReadsAll gap n 0 expression)
    (hor : ReadsAll gap (n + 1) 1 (parseLogicalOr numbers expression)) :
    ReadsAll gap (n + 1) 0 (parseTernary numbers expression) := by
  intro e he hlength lead rest hlead hrest
  by_cases hlevel : e.level scriptPrecedence = 0
  · obtain ⟨c, y, m, rfl⟩ : ∃ c y m, e = .ternary c y m := by
      cases e with
      | ternary c y m => exact ⟨c, y, m, rfl⟩
      | unary op e => cases op <;> cases hlevel
      | binary op l r => cases op <;> cases hlevel
      | _ => cases hlevel
    obtain ⟨hc, hy, hm⟩ := he
    have htext : (ternary c y m).textAt scriptPrecedence gap 0 =
        c.textAt scriptPrecedence gap 1 ++ (gap ++ (63 :: (gap ++ (y.text scriptPrecedence gap ++ (gap ++ ([58] ++
          (gap ++ m.text scriptPrecedence gap))))))) := by
      rw [textAt]
      simp only [Nat.lt_irrefl, decide_false, wrap_false, List.append_assoc]
      rfl
    rw [htext] at hlength ⊢
    simp only [List.length_append, List.length_cons] at hlength
    have hreadCondition : parseLogicalOr numbers expression (lead ++ c.textAt scriptPrecedence gap 1 ++ (gap ++
        63 :: (gap ++ (y.text scriptPrecedence gap ++ (gap ++ ([58] ++ (gap ++ (m.text scriptPrecedence gap ++ rest)))))))) =
        some (c, 63 :: (gap ++ (y.text scriptPrecedence gap ++ (gap ++ ([58] ++ (gap ++
          (m.text scriptPrecedence gap ++ rest))))))) := by
      rw [hor c hc (by omega) lead _ hlead (Follows.closing hgap rfl (fun _ => by decide) _),
        multispace0_gap_cons hgap rfl]
    have hreadYes := parseExpressionThen_reads hgap hexpr hy (by omega) (c := 58) rfl (by decide)
      (gap ++ (m.text scriptPrecedence gap ++ rest))
    have hreadNo := hexpr m hm (by unfold Expression.text at hlength; omega) [] rest (fun b hb => by cases hb) hrest
    have hassoc : lead ++ (c.textAt scriptPrecedence gap 1 ++ (gap ++ (63 :: (gap ++ (y.text scriptPrecedence gap ++ (gap ++
        ([58] ++ (gap ++ m.text scriptPrecedence gap)))))))) ++ rest = lead ++ c.textAt scriptPrecedence gap 1 ++ (gap ++
        63 :: (gap ++ (y.text scriptPrecedence gap ++ (gap ++ ([58] ++ (gap ++ (m.text scriptPrecedence gap ++ rest))))))) := by
      simp
    unfold parseTernary
    rw [hassoc, hreadCondition, Option.bind_eq_bind, Option.bind_some]
    show (parseExpressionThen expression [58] (multispace0 (gap ++ (y.text scriptPrecedence gap ++ _)))).bind _ = _
    rw [multispace0_text hgap hy, hreadYes, Option.bind_some]
    show (expression (multispace0 (gap ++ (m.text scriptPrecedence gap ++ rest)))).bind _ = _
    rw [multispace0_text hgap hm, show m.text scriptPrecedence gap ++ rest = [] ++ m.textAt scriptPrecedence gap 0 ++ rest
      from rfl, hreadNo, Option.bind_some]
    show some (ternary c y m, multispace0 (multispace0 rest)) = _
    rw [multispace0_idem]
  · rw [textAt_succ hlevel (by decide)] at hlength ⊢
    have hread := hor e he hlength lead rest hlead (hrest.mono (by decide))
    have hnone : tag (bytesOf "?") () (multispace0 rest) = none := by
      cases h : multispace0 rest with
      | nil => rfl
      | cons b t => exact tag_of_head_ne (Ne.symm (hrest.question rfl b (by rw [h]; rfl)))
    unfold parseTernary
    rw [hread, Option.bind_eq_bind, Option.bind_some]
    simp only [multispace0_idem, hnone]

/-- All levels, when the expressions inside are read. -/
theorem parseExpressionBounded_reads (hgap : ∀ b ∈ gap, isBlankByte b = true) (n : Nat) :
    ReadsAll gap n 0 (parseExpressionBounded numbers n) := by
  induction n with
  | zero =>
    intro e _ hlength
    exact absurd hlength (Nat.not_lt_zero _)
  | succ n ih =>
    have hprimary : Reads gap (n + 1) 11 (parsePrimary numbers (parseExpressionBounded numbers n)) :=
      parsePrimary_reads hgap ih
    have hcomparison : ReadsAll gap (n + 1) 3 (parseComparison numbers (parseExpressionBounded numbers n)) :=
      parseComparison_reads hgap (parseBitwiseOr_reads hgap (parseUnary_reads hgap hprimary))
    exact parseTernary_reads hgap ih (parseLogicalOr_reads hgap hcomparison)

/-- The text of an expression, with nothing behind it. -/
theorem parseExpression_of_text (hgap : ∀ b ∈ gap, isBlankByte b = true) {e : Expression} (he : e.Denotable) {t : Bytes}
    (ht : t = e.text scriptPrecedence gap) : parseExpression numbers t = some (e, []) := by
  subst ht
  have hread := @parseExpressionBounded_reads gap numbers hgap ((e.text scriptPrecedence gap).length + 1) e he
    (Nat.lt_succ_self _) [] [] (fun b hb => by cases hb) (Follows.nil 0)
  rw [List.nil_append, List.append_nil] at hread
  exact hread

end Primary

/-! ## Numbers in ASCII -/

def isHexByte (b : UInt8) : Bool := isDigitByte b || (65 ≤ b && b ≤ 70) || (97 ≤ b && b ≤ 102)

def hexDigit (b : UInt8) : Nat :=
  if isDigitByte b then b.toNat - 48 else if b ≤ 70 then b.toNat - 55 else b.toNat - 87

/-- The value of decimal digits. -/
def decimalValue (digits : Bytes) : Nat := digits.foldl (fun acc b => 10 * acc + (b.toNat - 48)) 0

/-- The longest run of digits that fits in 64 bits; a zero in front is the whole number. -/
def asciiDecUint : Parser UInt8 Nat := fun input =>
  match input with
  | 48 :: rest => some (0, rest)
  | _ => do
      let (digits, rest) ← takeWhile1 isDigitByte input
      if decimalValue digits < 2 ^ 64 then some (decimalValue digits, rest) else none

/-- Up to sixteen hexadecimal digits. -/
def asciiHexUint : Parser UInt8 Nat := fun input => do
  let (digits, rest) ← takeWhile1 isHexByte input
  if digits.length ≤ 16 then some (digits.foldl (fun acc b => 16 * acc + hexDigit b) 0, rest) else none

theorem decimalValue_decimal (n : Nat) : decimalValue (decimal n) = n := by
  have hfold : ∀ (l : List Char) (acc : Nat), (∀ c ∈ l, c.isDigit = true) →
      (l.map (fun c => UInt8.ofNat c.toNat)).foldl (fun acc b => 10 * acc + (b.toNat - 48)) acc =
        Nat.ofDigitChars 10 l acc := by
    intro l
    induction l with
    | nil => exact fun _ _ => rfl
    | cons c l ih =>
      intro acc hl
      have hc : c.toNat < 256 := by
        have hdigit := hl c List.mem_cons_self
        have hrange : 48 ≤ c.toNat ∧ c.toNat ≤ 57 := by
          simpa [Char.isDigit, UInt32.le_iff_toNat_le] using hdigit
        omega
      rw [List.map_cons, List.foldl_cons, UInt8.toNat_ofNat', Nat.mod_eq_of_lt hc,
        ih _ (fun d hd => hl d (List.mem_cons_of_mem c hd)), Nat.ofDigitChars_cons]
      rfl
  unfold decimalValue decimal
  rw [hfold _ 0 (fun c hc => Nat.isDigit_of_mem_toDigits (by decide) (by decide) hc), Nat.ofDigitChars_ten_toDigits]

/-- A number other than zero does not start with a zero. -/
theorem head?_toDigits (n : Nat) (hn : 0 < n) : (Nat.toDigits 10 n).head? ≠ some '0' := by
  induction n using Nat.strongRecOn with
  | ind n ih =>
    rcases Nat.lt_or_ge n 10 with hlt | hge
    · have hdigit : ∀ n < 10, 0 < n → [n.digitChar].head? ≠ some '0' := by decide
      rw [Nat.toDigits_of_lt_base hlt]
      exact hdigit n hlt hn
    · rw [Nat.toDigits_of_base_le (by decide) hge, List.head?_append_of_ne_nil _ Nat.toDigits_ne_nil]
      exact ih (n / 10) (by omega) (by omega)

theorem asciiDecUint_decimal {n : Nat} (hn : n < 2 ^ 64) {rest : Bytes} (hrest : ∀ b ∈ rest.head?, isDigitByte b = false) :
    asciiDecUint (decimal n ++ rest) = some (n, rest) := by
  rcases Nat.eq_zero_or_pos n with rfl | hpos
  · rfl
  · obtain ⟨c, cs, hcs⟩ := List.exists_cons_of_ne_nil (Nat.toDigits_ne_nil (n := n) (b := 10))
    have hdigit : c.isDigit = true :=
      Nat.isDigit_of_mem_toDigits (n := n) (b := 10) (by decide) (by decide) (by rw [hcs]; exact List.mem_cons_self)
    have hzero : UInt8.ofNat c.toNat ≠ 48 := by
      intro h
      have hrange : 48 ≤ c.toNat ∧ c.toNat ≤ 57 := by
        simpa [Char.isDigit, UInt32.le_iff_toNat_le] using hdigit
      have hnat : c.toNat = 48 := by
        have h := congrArg UInt8.toNat h
        rw [UInt8.toNat_ofNat', Nat.mod_eq_of_lt (by omega)] at h
        exact h
      have hc : c = '0' := Char.toNat_inj.mp hnat
      exact head?_toDigits n hpos (by rw [hcs, hc]; rfl)
    have hread : asciiDecUint (decimal n ++ rest) = (takeWhile1 isDigitByte (decimal n ++ rest)).bind (fun r =>
        if decimalValue r.1 < 2 ^ 64 then some (decimalValue r.1, r.2) else none) := by
      have hcons : decimal n ++ rest = UInt8.ofNat c.toNat :: (cs.map (fun c => UInt8.ofNat c.toNat) ++ rest) := by
        unfold decimal
        rw [hcs]
        rfl
      rw [hcons]
      unfold asciiDecUint
      split
      · rename_i h
        exact absurd (List.cons.inj h).1 hzero
      · rfl
    rw [hread, takeWhile1_append (decimal_ne_nil n) (decimal_digits n) hrest, Option.bind_some, decimalValue_decimal,
      if_pos hn]

theorem asciiDecUint_other {input : Bytes} (h : ∀ b ∈ input.head?, isDigitByte b = false) : asciiDecUint input = none := by
  unfold asciiDecUint
  split
  · exact absurd (h 48 rfl) (by decide)
  · cases input with
    | nil => rfl
    | cons b input =>
      have hb : isDigitByte b = false := h b rfl
      have hnone : takeWhile1 isDigitByte (b :: input) = none := by
        unfold takeWhile1
        rw [List.takeWhile_cons_of_neg (by rw [hb]; decide)]
        rfl
      rw [hnone]
      rfl

/-- Numbers as they are written in ASCII. -/
def asciiNumbers : NumberParsers where
  decUint := asciiDecUint
  hexUint := asciiHexUint
  decUint_decimal _ hn _ hrest := asciiDecUint_decimal hn hrest
  decUint_other _ h := asciiDecUint_other h

/-! ## The round trip -/

/-- An expression is read back from its text, whatever blanks are between its tokens. -/
theorem parseExpression_text (numbers : NumberParsers) (hgap : ∀ b ∈ gap, isBlankByte b = true) {e : Expression}
    (he : e.Denotable) : parseExpression numbers (e.text scriptPrecedence gap) = some (e, []) :=
  parseExpression_of_text hgap he rfl

/-- `(a | b == !c) ? -(1 + 2) * 3 : MIN(., SIZEOF(.t))`, with blanks. -/
theorem parseExpression_text_ternary :
    parseExpression asciiNumbers
        ((Expression.ternary (.binary .equal (.binary .bitwiseOr (.symbol (bytesOf "a")) (.symbol (bytesOf "b")))
            (.unary .logicalNot (.symbol (bytesOf "c"))))
          (.binary .multiply (.unary .negate (.binary .add (.number 1) (.number 2))) (.number 3))
          (.binary .min .locationCounter (.nameFunction .sizeof (bytesOf ".t")))).text scriptPrecedence (bytesOf " ")) =
      some (.ternary (.binary .equal (.binary .bitwiseOr (.symbol (bytesOf "a")) (.symbol (bytesOf "b")))
            (.unary .logicalNot (.symbol (bytesOf "c"))))
          (.binary .multiply (.unary .negate (.binary .add (.number 1) (.number 2))) (.number 3))
          (.binary .min .locationCounter (.nameFunction .sizeof (bytesOf ".t"))), []) :=
  parseExpression_text asciiNumbers (by simp [bytesOf, isBlankByte]) (by
    simp only [Expression.Denotable]
    decide)

/-- With the precedence of C, `1 | (2 == 3)` needs no parentheses, and is read as `(1 | 2) == 3`. -/
theorem parseExpression_cPrecedence :
    (Expression.binary .bitwiseOr (.number 1) (.binary .equal (.number 2) (.number 3))).Denotable ∧
      parseExpression asciiNumbers
          ((Expression.binary .bitwiseOr (.number 1) (.binary .equal (.number 2) (.number 3))).text cPrecedence []) =
        some (.binary .equal (.binary .bitwiseOr (.number 1) (.number 2)) (.number 3), []) ∧
      Expression.binary .equal (.binary .bitwiseOr (.number 1) (.number 2)) (.number 3) ≠
        .binary .bitwiseOr (.number 1) (.binary .equal (.number 2) (.number 3)) := by
  refine ⟨by simp only [Expression.Denotable]; decide, ?_, by simp⟩
  refine @parseExpression_of_text [] asciiNumbers (fun b hb => by cases hb) _ ?_ _ ?_
  · simp only [Expression.Denotable]
    decide
  · decide

end Reld
