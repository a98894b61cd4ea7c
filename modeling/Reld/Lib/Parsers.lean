import Mathlib.Data.List.Basic

/-!
# `Lib.Parsers` — parsers that read the front of a list

A parser returns what it read and what is left, or fails. A parser that fails leaves nothing behind, so that the
next alternative starts where it did. `leftAssoc` reads operands with operators between them, and groups them to
the left; `leftAssocLoop_step` and `leftAssocLoop_stop` are the two ways its loop can go.
-/

universe u v w

namespace Parsers

variable {β : Type u} {α : Type v} {o : Type w}

abbrev Parser (β : Type u) (α : Type v) := List β → Option (α × List β)

/-- The given symbols. -/
def tag [DecidableEq β] (t : List β) (a : α) : Parser β α := fun input =>
  if t.isPrefixOf input then some (a, input.drop t.length) else none

/-- A symbol that another one must not follow. -/
def symbolNot [DecidableEq β] (c next : β) (a : α) : Parser β α
  | [] => none
  | b :: rest => if b = c ∧ rest.head? ≠ some next then some (a, rest) else none

/-- The first parser that does not fail. -/
def alt (parsers : List (Parser β α)) : Parser β α := fun input => parsers.findSome? (fun p => p input)

/-- The longest front of symbols that satisfy `p`, which must not be empty. -/
def takeWhile1 (p : β → Bool) : Parser β (List β) := fun input =>
  let front := input.takeWhile p
  if front = [] then none else some (front, input.dropWhile p)

/-- More operands, while there are operators. The number bounds the operators that there can be. -/
def leftAssocLoop (skip : List β → List β) (operand : Parser β α) (op : Parser β o) (combine : o → α → α → α) :
    Nat → α → Parser β α
  | 0, left, input => some (left, input)
  | k + 1, left, input =>
    match op input with
    | none => some (left, input)
    | some (operator, rest) => do
        let (right, rest) ← operand (skip rest)
        leftAssocLoop skip operand op combine k (combine operator left right) (skip rest)

/-- Operands with operators between them, grouped to the left. -/
def leftAssoc (skip : List β → List β) (operand : Parser β α) (op : Parser β o) (combine : o → α → α → α) :
    Parser β α := fun input => do
  let (left, rest) ← operand input
  leftAssocLoop skip operand op combine (skip rest).length left (skip rest)

/-! ## Reading the parsers -/

section Basic

variable [DecidableEq β] {t input : List β} {a : α} {b c next : β}

@[simp] theorem tag_append (t input : List β) (a : α) : tag t a (t ++ input) = some (a, input) := by
  unfold tag
  rw [if_pos (List.isPrefixOf_iff_prefix.mpr (List.prefix_append t input)), List.drop_left]

@[simp] theorem tag_nil_left (input : List β) (a : α) : tag [] a input = some (a, input) := rfl

@[simp] theorem tag_cons_nil (b : β) (t : List β) (a : α) : tag (b :: t) a [] = none := rfl

@[simp] theorem tag_cons_cons (b c : β) (t input : List β) (a : α) :
    tag (b :: t) a (c :: input) = if b = c then tag t a input else none := by
  unfold tag
  rw [List.isPrefixOf_cons_cons, List.length_cons, List.drop_succ_cons]
  by_cases h : b = c
  · rw [if_pos h, h, beq_self_eq_true, Bool.true_and]
  · rw [if_neg h, beq_false_of_ne h, Bool.false_and, if_neg Bool.false_ne_true]

/-- Another first symbol. -/
theorem tag_of_head_ne (h : b ≠ c) : tag (b :: t) a (c :: input) = none := by
  rw [tag_cons_cons, if_neg h]

@[simp] theorem symbolNot_nil : symbolNot c next a ([] : List β) = none := rfl

theorem symbolNot_cons (h : input.head? ≠ some next) : symbolNot c next a (c :: input) = some (a, input) :=
  if_pos ⟨rfl, h⟩

theorem symbolNot_of_ne (h : b ≠ c) : symbolNot c next a (b :: input) = none := if_neg (fun hb => h hb.1)

end Basic

@[simp] theorem alt_nil (input : List β) : alt ([] : List (Parser β α)) input = none := rfl

theorem alt_cons_of_none {p : Parser β α} {ps : List (Parser β α)} {input : List β} (h : p input = none) :
    alt (p :: ps) input = alt ps input := List.findSome?_cons_of_isNone (by rw [h]; rfl)

theorem alt_cons_of_some {p : Parser β α} {ps : List (Parser β α)} {input : List β} {r : α × List β}
    (h : p input = some r) : alt (p :: ps) input = some r := by
  unfold alt
  rw [List.findSome?_cons, h]

theorem takeWhile1_append {p : β → Bool} {front rest : List β} (hne : front ≠ []) (hfront : ∀ b ∈ front, p b = true)
    (hrest : ∀ b ∈ rest.head?, p b = false) : takeWhile1 p (front ++ rest) = some (front, rest) := by
  have htail : rest.takeWhile p = [] ∧ rest.dropWhile p = rest := by
    cases rest with
    | nil => exact ⟨rfl, rfl⟩
    | cons b rest =>
      have hb : p b = false := hrest b rfl
      exact ⟨List.takeWhile_cons_of_neg (by rw [hb]; decide), List.dropWhile_cons_of_neg (by rw [hb]; decide)⟩
  unfold takeWhile1
  rw [List.takeWhile_append_of_pos hfront, List.dropWhile_append_of_pos hfront, htail.1, htail.2, List.append_nil,
    if_neg hne]

variable {skip : List β → List β} {operand : Parser β α} {op : Parser β o} {combine : o → α → α → α} {k : Nat}
  {left right : α} {operator : o} {input rest rest' : List β}

/-- There is no further operator. -/
theorem leftAssocLoop_stop (h : op input = none) :
    leftAssocLoop skip operand op combine k left input = some (left, input) := by
  cases k with
  | zero => rfl
  | succ k =>
    rw [leftAssocLoop, h]

/-- There is an operator with an operand. -/
theorem leftAssocLoop_step (hop : op input = some (operator, rest)) (hright : operand (skip rest) = some (right, rest')) :
    leftAssocLoop skip operand op combine (k + 1) left input =
      leftAssocLoop skip operand op combine k (combine operator left right) (skip rest') := by
  rw [leftAssocLoop, hop]
  simp only [hright]
  rfl

end Parsers
