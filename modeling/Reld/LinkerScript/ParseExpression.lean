import Reld.Lib.Parsers
import Reld.LinkerScript.Expression

/-!
# `LinkerScript.ParseExpression` — the parser of script expressions

One function for each level of precedence, from the ternary operator down to numbers, names and function calls. A
level reads operands of the next one with its own operators between them. An expression in parentheses, or in a
function call, starts again at the top; the parameter `expression` of the levels stands for that, and
`parseExpression` closes the knot with a bound on the nesting that the length of the text gives.

The parsers that read the digits of a number come from a library. `NumberParsers` says what of them is used.
-/

namespace Reld

open Parsers

/-- The decimal digits of a number. -/
def decimal (n : Nat) : Bytes := (Nat.toDigits 10 n).map (fun c => UInt8.ofNat c.toNat)

/-! ## Bytes -/

def isDigitByte (b : UInt8) : Bool := 48 ≤ b && b ≤ 57

def isAlphabetic (b : UInt8) : Bool := (65 ≤ b && b ≤ 90) || (97 ≤ b && b ≤ 122)

/-- A byte of an identifier: alphanumeric, `_` or `.`. -/
def isIdentByte (b : UInt8) : Bool := isAlphabetic b || isDigitByte b || b == 95 || b == 46

/-- What an identifier starts with. -/
def startsIdent (b : UInt8) : Bool := isAlphabetic b || b == 95 || b == 46

/-- Blank, tab and the ends of lines. -/
def isBlankByte (b : UInt8) : Bool := b == 32 || b == 9 || b == 13 || b == 10

/-- `multispace0`. -/
def multispace0 (input : Bytes) : Bytes := input.dropWhile isBlankByte

/-- `dec_uint` and `hex_uint`, for 64 bits. -/
structure NumberParsers where
  decUint : Parser UInt8 Nat
  hexUint : Parser UInt8 Nat
  /-- The digits of a number are read as that number. -/
  decUint_decimal : ∀ n < 2 ^ 64, ∀ rest : Bytes, (∀ b ∈ rest.head?, isDigitByte b = false) →
    decUint (decimal n ++ rest) = some (n, rest)
  /-- There is no number without a digit. -/
  decUint_other : ∀ input : Bytes, (∀ b ∈ input.head?, isDigitByte b = false) → decUint input = none

namespace ParseExpression

variable (numbers : NumberParsers) (expression : Parser UInt8 Expression)

/-! ## Primary expressions -/

/-- The factor of a suffix: `K` is 1024, `M` its square. -/
def suffixFactor (b : UInt8) : Option Nat :=
  if b = 75 ∨ b = 107 then some 1024 else if b = 77 ∨ b = 109 then some (1024 * 1024) else none

/-- `parse_number_with_suffix`. -/
def parseNumberWithSuffix : Parser UInt8 Expression := fun input => do
  let hex : Parser UInt8 Nat := fun input => do
    let (_, rest) ← alt [tag (bytesOf "0x") (), tag (bytesOf "0X") ()] input
    numbers.hexUint rest
  let (baseNumber, rest) ← alt [hex, numbers.decUint] input
  match rest with
  | [] => some (.number baseNumber, [])
  | b :: rest' =>
    match suffixFactor b with
    | some factor => some (.number (baseNumber * factor % 2 ^ 64), rest')
    | none => some (.number baseNumber, rest)

/-- A nonempty run of the bytes of an identifier that starts like one. -/
def parseIdent : Parser UInt8 Bytes := fun input => do
  let (ident, rest) ← takeWhile1 isIdentByte input
  if (ident.head?.map startsIdent).getD false then some (ident, rest) else none

/-- `parse_function_arg`: a name, and the closing parenthesis. -/
def parseFunctionArg : Parser UInt8 Bytes := fun input => do
  let (arg, rest) ← parseIdent (multispace0 input)
  let (_, rest) ← tag (bytesOf ")") () (multispace0 rest)
  some (arg, rest)

/-- The functions of one name. -/
def nameFunctionOf (ident : Bytes) : Option NameFunction :=
  if ident = bytesOf "SIZEOF" then some .sizeof
  else if ident = bytesOf "ALIGNOF" then some .alignof
  else if ident = bytesOf "ADDR" then some .addr
  else if ident = bytesOf "ORIGIN" then some .origin
  else if ident = bytesOf "LENGTH" then some .length
  else if ident = bytesOf "LOADADDR" then some .loadaddr
  else if ident = bytesOf "DEFINED" then some .defined
  else none

/-- An expression, and a byte after it. -/
def parseExpressionThen (close : Bytes) : Parser UInt8 Expression := fun input => do
  let (e, rest) ← expression input
  let (_, rest) ← tag close () (multispace0 rest)
  some (e, rest)

/-- `MIN` and `MAX`: two expressions separated by a comma. -/
def parseTwoArgs (op : BinaryOp) : Parser UInt8 Expression := fun input => do
  let (first, rest) ← parseExpressionThen expression (bytesOf ",") input
  let (second, rest) ← parseExpressionThen expression (bytesOf ")") (multispace0 rest)
  some (.binary op first second, rest)

/-- `SEGMENT_START`: a quoted name and an expression. The model keeps the name; `SegmentName` is a function of
    it. -/
def parseSegmentStart : Parser UInt8 Expression := fun input => do
  let (_, rest) ← tag (bytesOf "\"") () (multispace0 input)
  let (name, rest) ← takeWhile1 (fun b => b != 34) rest
  let (_, rest) ← tag (bytesOf "\"") () rest
  let (_, rest) ← tag (bytesOf ",") () (multispace0 rest)
  let (default, rest) ← parseExpressionThen expression (bytesOf ")") (multispace0 rest)
  some (.segmentStart name default, rest)

/-- The call of a function, after its opening parenthesis. -/
def parseCall (ident : Bytes) : Parser UInt8 Expression := fun input =>
  match nameFunctionOf ident with
  | some f => do
      let (arg, rest) ← parseFunctionArg input
      some (.nameFunction f arg, rest)
  | none =>
    if ident = bytesOf "ALIGN" then do
      let (arg, rest) ← parseExpressionThen expression (bytesOf ")") input
      some (.unary .align arg, rest)
    else if ident = bytesOf "MIN" then parseTwoArgs expression .min input
    else if ident = bytesOf "MAX" then parseTwoArgs expression .max input
    else if ident = bytesOf "SEGMENT_START" then parseSegmentStart expression input
    else none

/-- `parse_identifier_or_function`. -/
def parseIdentifierOrFunction : Parser UInt8 Expression := fun input => do
  let (ident, rest) ← parseIdent input
  -- Special case: if it's just '.', it's the location counter
  if ident = bytesOf "." then some (.locationCounter, rest)
  else
    let rest := multispace0 rest
    match tag (bytesOf "(") () rest with
    | some (_, rest) => parseCall expression ident (multispace0 rest)
    | none =>
      if ident = bytesOf "SIZEOF_HEADERS" then some (.sizeofHeaders, rest) else some (.symbol ident, rest)

/-- An expression in parentheses. -/
def parseParentheses : Parser UInt8 Expression := fun input => do
  let (_, rest) ← tag (bytesOf "(") () input
  let (e, rest) ← expression rest
  let (_, rest) ← tag (bytesOf ")") () rest
  some (e, rest)

/-- `parse_primary`. -/
def parsePrimary : Parser UInt8 Expression := fun input =>
  alt [parseParentheses expression, parseNumberWithSuffix numbers, parseIdentifierOrFunction expression]
    (multispace0 input)

/-! ## Operators -/

/-- `!`, but not `!=`; `~`; `-`. -/
def unaryOp : Parser UInt8 UnaryOp :=
  alt [symbolNot 33 61 .logicalNot, tag (bytesOf "~") .bitwiseNot, tag (bytesOf "-") .negate]

/-- `parse_unary`, with a bound on the number of operators. -/
def parseUnaryBounded : Nat → Parser UInt8 Expression
  | 0, input => parsePrimary numbers expression input
  | k + 1, input =>
    match unaryOp (multispace0 input) with
    | some (op, rest) => do
        let (operand, rest) ← parseUnaryBounded k rest
        some (.unary op operand, rest)
    | none => parsePrimary numbers expression (multispace0 input)

/-- `parse_unary`. -/
def parseUnary : Parser UInt8 Expression := fun input =>
  parseUnaryBounded numbers expression input.length input

def multiplicativeOp : Parser UInt8 BinaryOp :=
  alt [tag (bytesOf "*") .multiply, tag (bytesOf "/") .divide, tag (bytesOf "%") .modulo]

/-- `parse_multiplicative`. -/
def parseMultiplicative : Parser UInt8 Expression :=
  leftAssoc multispace0 (parseUnary numbers expression) multiplicativeOp Expression.binary

def additiveOp : Parser UInt8 BinaryOp := alt [tag (bytesOf "+") .add, tag (bytesOf "-") .subtract]

/-- `parse_additive`. -/
def parseAdditive : Parser UInt8 Expression :=
  leftAssoc multispace0 (parseMultiplicative numbers expression) additiveOp Expression.binary

def shiftOp : Parser UInt8 BinaryOp := alt [tag (bytesOf "<<") .leftShift, tag (bytesOf ">>") .rightShift]

/-- `parse_shift`. -/
def parseShift : Parser UInt8 Expression :=
  leftAssoc multispace0 (parseAdditive numbers expression) shiftOp Expression.binary

/-- `&`, but not `&&`. -/
def bitwiseAndOp : Parser UInt8 BinaryOp := symbolNot 38 38 .bitwiseAnd

/-- `parse_bitwise_and`. -/
def parseBitwiseAnd : Parser UInt8 Expression :=
  leftAssoc multispace0 (parseShift numbers expression) bitwiseAndOp Expression.binary

def bitwiseXorOp : Parser UInt8 BinaryOp := tag (bytesOf "^") .bitwiseXor

/-- `parse_bitwise_xor`. -/
def parseBitwiseXor : Parser UInt8 Expression :=
  leftAssoc multispace0 (parseBitwiseAnd numbers expression) bitwiseXorOp Expression.binary

/-- `|`, but not `||`. -/
def bitwiseOrOp : Parser UInt8 BinaryOp := symbolNot 124 124 .bitwiseOr

/-- `parse_bitwise_or`. -/
def parseBitwiseOr : Parser UInt8 Expression :=
  leftAssoc multispace0 (parseBitwiseXor numbers expression) bitwiseOrOp Expression.binary

def comparisonOp : Parser UInt8 BinaryOp :=
  alt [tag (bytesOf "<=") .lessEqual, tag (bytesOf ">=") .greaterEqual, tag (bytesOf "==") .equal,
    tag (bytesOf "!=") .notEqual, tag (bytesOf "<") .lessThan, tag (bytesOf ">") .greaterThan]

/-- `parse_comparison`: one comparison at most. -/
def parseComparison : Parser UInt8 Expression := fun input => do
  let (left, rest) ← parseBitwiseOr numbers expression input
  match comparisonOp (multispace0 rest) with
  | some (op, rest) => do
      let (right, rest) ← parseBitwiseOr numbers expression (multispace0 rest)
      some (.binary op left right, multispace0 rest)
  | none => some (left, multispace0 rest)

def logicalAndOp : Parser UInt8 BinaryOp := tag (bytesOf "&&") .logicalAnd

/-- `parse_logical_and`. -/
def parseLogicalAnd : Parser UInt8 Expression :=
  leftAssoc multispace0 (parseComparison numbers expression) logicalAndOp Expression.binary

def logicalOrOp : Parser UInt8 BinaryOp := tag (bytesOf "||") .logicalOr

/-- `parse_logical_or`. -/
def parseLogicalOr : Parser UInt8 Expression :=
  leftAssoc multispace0 (parseLogicalAnd numbers expression) logicalOrOp Expression.binary

/-- `parse_ternary`. -/
def parseTernary : Parser UInt8 Expression := fun input => do
  let (left, rest) ← parseLogicalOr numbers expression input
  match tag (bytesOf "?") () (multispace0 rest) with
  | some (_, rest) => do
      let (yes, rest) ← parseExpressionThen expression (bytesOf ":") (multispace0 rest)
      let (no, rest) ← expression (multispace0 rest)
      some (.ternary left yes no, multispace0 rest)
  | none => some (left, multispace0 rest)

/-- `parse_expression`, with a bound on the nesting. -/
def parseExpressionBounded : Nat → Parser UInt8 Expression
  | 0, _ => none
  | n + 1, input => parseTernary numbers (parseExpressionBounded n) input

end ParseExpression

/-- `parse_expression`. Each expression inside another one is shorter. -/
def parseExpression (numbers : NumberParsers) : Parser UInt8 Expression := fun input =>
  ParseExpression.parseExpressionBounded numbers (input.length + 1) input

end Reld

/-!
# The text of an expression

An expression is printed with parentheses where an operand binds less tightly than its place asks for. How tightly
the operators bind is a table: `cPrecedence` is that of C, `scriptPrecedence` that of the scripts, where the bitwise
operators bind more tightly than the comparisons. `Denotable` says which expressions the grammar has a text for.
-/

namespace Reld

/-- How tightly the infix operators bind, from 1; those that are functions have no level. -/
structure Precedence where
  level : BinaryOp → Option Nat
  /-- How tightly the left operand has to bind. -/
  leftMin : BinaryOp → Nat
  /-- The level of the unary operators, above all the others. -/
  unary : Nat

/-- The levels of C. Operators of one level group to the left. -/
def cLevel : BinaryOp → Option Nat
  | .logicalOr => some 1
  | .logicalAnd => some 2
  | .bitwiseOr => some 3
  | .bitwiseXor => some 4
  | .bitwiseAnd => some 5
  | .equal | .notEqual => some 6
  | .lessThan | .greaterThan | .lessEqual | .greaterEqual => some 7
  | .leftShift | .rightShift => some 8
  | .add | .subtract => some 9
  | .multiply | .divide | .modulo => some 10
  | .min | .max => none

def cPrecedence : Precedence where
  level := cLevel
  leftMin op := (cLevel op).getD 0
  unary := 11

/-- The levels of the scripts: all comparisons share one, below the bitwise operators. -/
def scriptLevel : BinaryOp → Option Nat
  | .logicalOr => some 1
  | .logicalAnd => some 2
  | .equal | .notEqual | .lessThan | .greaterThan | .lessEqual | .greaterEqual => some 3
  | .bitwiseOr => some 4
  | .bitwiseXor => some 5
  | .bitwiseAnd => some 6
  | .leftShift | .rightShift => some 7
  | .add | .subtract => some 8
  | .multiply | .divide | .modulo => some 9
  | .min | .max => none

/-- A comparison is no operand of a comparison without parentheses. -/
def scriptPrecedence : Precedence where
  level := scriptLevel
  leftMin op := if scriptLevel op = some 3 then 4 else (scriptLevel op).getD 0
  unary := 10

/-! ## Tokens -/

/-- The text of an operator or function of two arguments. -/
def BinaryOp.text : BinaryOp → Bytes
  | .add => bytesOf "+"
  | .subtract => bytesOf "-"
  | .multiply => bytesOf "*"
  | .divide => bytesOf "/"
  | .modulo => bytesOf "%"
  | .lessThan => bytesOf "<"
  | .greaterThan => bytesOf ">"
  | .lessEqual => bytesOf "<="
  | .greaterEqual => bytesOf ">="
  | .equal => bytesOf "=="
  | .notEqual => bytesOf "!="
  | .min => bytesOf "MIN"
  | .max => bytesOf "MAX"
  | .bitwiseAnd => bytesOf "&"
  | .bitwiseOr => bytesOf "|"
  | .bitwiseXor => bytesOf "^"
  | .leftShift => bytesOf "<<"
  | .rightShift => bytesOf ">>"
  | .logicalAnd => bytesOf "&&"
  | .logicalOr => bytesOf "||"

def UnaryOp.text : UnaryOp → Bytes
  | .align => bytesOf "ALIGN"
  | .logicalNot => bytesOf "!"
  | .bitwiseNot => bytesOf "~"
  | .negate => bytesOf "-"

def NameFunction.text : NameFunction → Bytes
  | .sizeof => bytesOf "SIZEOF"
  | .alignof => bytesOf "ALIGNOF"
  | .origin => bytesOf "ORIGIN"
  | .length => bytesOf "LENGTH"
  | .addr => bytesOf "ADDR"
  | .loadaddr => bytesOf "LOADADDR"
  | .defined => bytesOf "DEFINED"

/-! ## Printing -/

namespace Expression

variable (p : Precedence) (gap : Bytes)

/-- How tightly an expression binds: atoms and calls more than any operator, the ternary operator least. -/
def level : Expression → Nat
  | .binary op _ _ => (p.level op).getD (p.unary + 1)
  | .unary .align _ => p.unary + 1
  | .unary _ _ => p.unary
  | .ternary _ _ _ => 0
  | _ => p.unary + 1

@[simp] theorem level_binary (op : BinaryOp) (l r : Expression) :
    (binary op l r).level p = (p.level op).getD (p.unary + 1) := rfl

/-- An opening parenthesis, the text, and a closing one. -/
def parens (gap text : Bytes) : Bytes := bytesOf "(" ++ gap ++ text ++ gap ++ bytesOf ")"

/-- The text in parentheses if it has to be. -/
def wrap (gap : Bytes) (needed : Bool) (text : Bytes) : Bytes := if needed then parens gap text else text

/-- The text of an expression where an expression of level `ctx` is asked for, with `gap` between the tokens. -/
def textAt (ctx : Nat) : Expression → Bytes
  | .number n => decimal n
  | .symbol name => name
  | .locationCounter => bytesOf "."
  | .sizeofHeaders => bytesOf "SIZEOF_HEADERS"
  | .nameFunction f name => f.text ++ gap ++ parens gap name
  | .unary op e =>
    match op with
    | .align => UnaryOp.align.text ++ gap ++ parens gap (textAt 0 e)
    | op => wrap gap (p.unary < ctx) (op.text ++ gap ++ textAt p.unary e)
  | .binary op l r =>
    match p.level op with
    | some level =>
      wrap gap (level < ctx)
        (textAt (p.leftMin op) l ++ gap ++ op.text ++ gap ++ textAt (level + 1) r)
    | none => op.text ++ gap ++ parens gap (textAt 0 l ++ gap ++ bytesOf "," ++ gap ++ textAt 0 r)
  | .segmentStart name d =>
    bytesOf "SEGMENT_START" ++ gap ++
      parens gap (bytesOf "\"" ++ name ++ bytesOf "\"" ++ gap ++ bytesOf "," ++ gap ++ textAt 0 d)
  | .ternary c y n =>
    wrap gap (0 < ctx)
      (textAt 1 c ++ gap ++ bytesOf "?" ++ gap ++ textAt 0 y ++ gap ++ bytesOf ":" ++ gap ++ textAt 0 n)

/-- The text of an expression. -/
def text (e : Expression) : Bytes := e.textAt p gap 0

/-! ## What there is a text for -/

/-- A name of the scripts. -/
def IsName (name : Bytes) : Prop :=
  (∀ b ∈ name, isIdentByte b = true) ∧ ∃ b ∈ name.head?, startsIdent b = true

instance (name : Bytes) : Decidable (IsName name) :=
  @instDecidableAnd (∀ b ∈ name, isIdentByte b = true) (∃ b ∈ name.head?, startsIdent b = true)
    (List.decidableBAll _ _) inferInstance

/-- The expressions that the grammar can denote: numbers have 64 bits, names are identifiers, and the two that
    mean something else are no symbols. -/
def Denotable : Expression → Prop
  | .number n => n < 2 ^ 64
  | .symbol name => IsName name ∧ name ≠ bytesOf "." ∧ name ≠ bytesOf "SIZEOF_HEADERS"
  | .locationCounter => True
  | .sizeofHeaders => True
  | .nameFunction _ name => IsName name
  | .unary _ e => e.Denotable
  | .binary _ l r => l.Denotable ∧ r.Denotable
  | .segmentStart name d => name ≠ [] ∧ (∀ b ∈ name, b ≠ 34) ∧ d.Denotable
  | .ternary c y n => c.Denotable ∧ y.Denotable ∧ n.Denotable

end Expression

end Reld
