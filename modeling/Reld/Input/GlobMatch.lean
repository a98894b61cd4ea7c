import Reld.Elf.Symbol

/-!
# `Input.GlobMatch` — patterns of section, file and symbol names

A pattern without wildcards stands for one name, if need be after its escapes are undone; the others are compiled
by the `glob` crate, which is a parameter: `Glob`.
-/

namespace Reld

/-- The `glob` crate: `Pattern::new` and `Pattern::matches`. -/
structure Glob (Pattern : Type*) where
  new : String → Option Pattern
  accepts : Pattern → String → Bool

/-- `str::from_utf8` -/
def fromUtf8 (bytes : Bytes) : Option String := String.fromUTF8? (ByteArray.mk bytes.toArray)

def star : UInt8 := 42
def questionMark : UInt8 := 63
def openBracket : UInt8 := 91
def backslash : UInt8 := 92
def closeBracket : UInt8 := 93

/-- `GlobPatternType` -/
inductive GlobPatternType where
  | exact
  | escapedExact
  | star
  | nonStar
deriving DecidableEq

/-- The loop of `analyze_glob_pattern`, from the type that has been found so far. -/
def analyzeFrom (found : GlobPatternType) : Bytes → GlobPatternType
  | [] => found
  | c :: rest =>
    if c = backslash then
      -- An escape does not undo a glob that was found before it.
      let found := if found = .exact then .escapedExact else found
      match rest with
      | [] => found
      | _ :: rest => analyzeFrom found rest
    else if c = star then .star
    else if c = openBracket ∨ c = closeBracket ∨ c = questionMark then analyzeFrom .nonStar rest
    else analyzeFrom found rest

/-- `analyze_glob_pattern`; the loop ends in `Exact` on what the fast path takes. -/
def analyzeGlobPattern (pattern : Bytes) : GlobPatternType := analyzeFrom .exact pattern

/-- `unescape_pattern` -/
def unescapePattern : Bytes → Bytes
  | [] => []
  | [c] => [c]
  | c :: next :: rest =>
    if c = backslash then next :: unescapePattern rest else c :: unescapePattern (next :: rest)

variable {Pattern : Type*}

/-- `replace("[^", "[!")` -/
def replaceNegation : List Char → List Char
  | '[' :: '^' :: rest => '[' :: '!' :: replaceNegation rest
  | c :: rest => c :: replaceNegation rest
  | [] => []

/-- `compile_glob_pattern` -/
def compileGlobPattern (glob : Glob Pattern) (token : Bytes) : Except String Pattern :=
  match fromUtf8 token with
  | none => .error "Invalid UTF-8 string"
  | some pattern =>
    match glob.new (String.ofList (replaceNegation pattern.toList)) with
    | none => .error "Invalid Glob Pattern"
    | some compiled => .ok compiled

/-- Whether a compiled pattern accepts a name; no pattern accepts what is not UTF-8. -/
def acceptsBytes (glob : Glob Pattern) (pattern : Pattern) (name : Bytes) : Bool :=
  match fromUtf8 name with
  | some nameStr => glob.accepts pattern nameStr
  | none => false

/-- Matching of patterns whose only wildcard is `*`. -/
def starAccepts : List Char → List Char → Bool
  | [], s => s.isEmpty
  | '*' :: pattern, s => s.tails.any (starAccepts pattern ·)
  | c :: pattern, d :: s => c = d && starAccepts pattern s
  | _ :: _, [] => false

/-- A glob crate for such patterns. -/
def starGlob : Glob (List Char) := ⟨fun pattern => some pattern.toList, fun pattern s => starAccepts pattern s.toList⟩

end Reld
