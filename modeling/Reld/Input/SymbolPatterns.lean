import Reld.Input.VersionScript
import Reld.Lib.Encodings
import Reld.Lib.ShellPatterns

/-!
# `Input.SymbolPatterns` — what a symbol pattern matches

`parse_matcher` classifies a pattern: only where it has no wildcards are its escapes undone; a pattern with wildcards
goes to the `glob` crate, which knows no escapes, with each `[^` replaced by `[!`. Where that is what `fnmatch` reads
(`Faithful`), the matcher accepts the names that `fnmatch` accepts.
-/

namespace Reld.VersionScripts

open ShellPatterns

variable {Pattern : Type*}

/-! ## From a pattern to an answer -/

/-- `VersionScriptError`, for patterns. -/
inductive VersionScriptError where
  | invalidUtf8String
  | invalidGlobPattern
deriving DecidableEq

def quotationMark : UInt8 := 34

/-- `strip_prefix` and `strip_suffix` of quotation marks. -/
def unquote : Bytes → Option Bytes
  | [] => none
  | c :: rest => if c = quotationMark ∧ rest.getLast? = some quotationMark then some rest.dropLast else none

/-- `parse_matcher` from the trimmed token on. -/
def matcherOf (glob : Glob Pattern) (token : Bytes) : Except VersionScriptError (SymbolMatcher Pattern) :=
  match unquote token with
  | some unquoted => .ok (.exact unquoted)
  | none =>
    if token = [star] then .ok .matchesAll
    -- The escapes of a pattern with wildcards stay in it: `glob::Pattern` gets the token as it is.
    else
      let createPattern := (compileGlobPattern glob token).mapError fun e =>
        if e = "Invalid UTF-8 string" then .invalidUtf8String else .invalidGlobPattern
      match analyzeGlobPattern token with
      | .exact        => .ok (.exact token)
      | .escapedExact => .ok (.escapedExact token)
      | .star         => createPattern.map .starGlob
      | .nonStar      => createPattern.map .nonstarGlob

/-- `ExportList::contains` -/
def exportListContains (l : Lookup Pattern) (rules : MatchRules Pattern) (name : Bytes) : Option Bool := do
  if ← rules.general.matchesExact l name false then
    return true
  else if ← rules.cxx.matchesExact l name true then
    return true
  else if ← rules.matchesGlob l name true then
    return true
  else if ← rules.matchesGlob l name false then
    return true
  else
    return rules.general.matchesAll || rules.cxx.matchesAll

/-- What an export list with this pattern only says about a name. -/
def SymbolMatcher.matchesName (l : Lookup Pattern) (m : SymbolMatcher Pattern) (name : Bytes) : Option Bool :=
  exportListContains l (({} : MatchRules Pattern).push (.single m)) name

theorem matchesName_eq (l : Lookup Pattern) (m : SymbolMatcher Pattern) (name : Bytes) :
    m.matchesName l name =
      match m with
      | .exact exact => some (decide (name = exact))
      | .escapedExact escaped => some (decide (name = unescapePattern escaped))
      | .starGlob glob | .nonstarGlob glob => (getNameString name).map (l.glob.accepts glob)
      | .matchesAll => some true := by
  unfold SymbolMatcher.matchesName exportListContains MatchRules.matchesGlob BasicMatchRules.matchesExact
    BasicMatchRules.matchesGlob askIfAny
  cases m with
  | exact exact => by_cases h : name = exact <;> simp [MatchRules.push, BasicMatchRules.push, h]
  | escapedExact escaped =>
    by_cases h : name = unescapePattern escaped <;> simp [MatchRules.push, BasicMatchRules.push, h]
  | starGlob glob | nonstarGlob glob =>
    cases h : getNameString name with
    | none      => simp [MatchRules.push, BasicMatchRules.push]
    | some text => cases hglob : l.glob.accepts glob text <;> simp [MatchRules.push, BasicMatchRules.push, hglob]
  | matchesAll => rfl

/-! ## Two readings of a pattern -/

/-- What the `glob` crate reads: no escapes, and `^` does not negate a bracket. -/
def readByGlob (pattern : List Char) : List Piece := pieces (quote (· == '^') pattern)

/-- Two stars in a row are at the end only; elsewhere the `glob` crate takes them for directories, or rejects them. -/
def StarsApart (ps : List Piece) : Prop := ∀ front behind, ps = front ++ .run :: .run :: behind → behind = []

/-- The documented behaviour of the `glob` crate on the patterns that it accepts. -/
structure Usual (glob : Glob Pattern) : Prop where
  accepts_eq : ∀ {pattern compiled}, glob.new pattern = some compiled → StarsApart (readByGlob pattern.toList) →
    ∀ name, glob.accepts compiled name = accepts (readByGlob pattern.toList) name.toList

/-- Every bracket is closed, and in it a `[` is not followed by `^`, nor by what makes a character class. -/
inductive Regular : List Char → Prop where
  | nil : Regular []
  | plain {c : Char} {pattern : List Char} (hc : c ≠ '[') (h : Regular pattern) : Regular (c :: pattern)
  | bracket {sign items rest : List Char} {first : Char} (hsign : sign = [] ∨ sign = ['!'] ∨ sign = ['^'])
      (hfirst : sign = [] → first ≠ '!' ∧ first ≠ '^') (hitems : ']' ∉ items)
      (hinner : ∀ c ∈ ['^', ':', '.', '='], ¬['[', c] <:+: first :: items) (h : Regular rest) :
      Regular ('[' :: sign ++ (first :: items ++ ']' :: rest))

theorem replaceNegation_cons {c : Char} {pattern : List Char} (h : c = '[' → pattern.head? ≠ some '^') :
    replaceNegation (c :: pattern) = c :: replaceNegation pattern := by
  rw [replaceNegation]
  rintro rest rfl rfl
  exact h rfl rfl

theorem replaceNegation_items {items rest : List Char} (h : ¬['[', '^'] <:+: items) :
    replaceNegation (items ++ ']' :: rest) = items ++ ']' :: replaceNegation rest := by
  induction items with
  | nil =>
    have hclose : ']' ≠ '[' := by decide
    exact replaceNegation_cons fun h => absurd h hclose
  | cons c items ih =>
    rw [List.cons_append, replaceNegation_cons, ih fun hin => h (hin.trans (List.suffix_cons c items).isInfix)]
    · rfl
    · rintro rfl hhead
      cases items with
      | nil => simp at hhead
      | cons d items =>
        obtain rfl := Option.some.inj hhead
        exact h ⟨[], items, rfl⟩

/-- **On regular patterns the crate reads what was meant.** -/
theorem readByGlob_replaceNegation {pattern : List Char} (h : Regular pattern) :
    readByGlob (replaceNegation pattern) = pieces (quote (fun _ => false) pattern) := by
  unfold readByGlob
  induction h with
  | nil => rfl
  | @plain c pattern hc h ih =>
    rw [replaceNegation_cons (fun heq => absurd heq hc), quote_cons, quote_cons]
    by_cases hcaret : c = '^'
    · -- quoted by the one reading only, and literal in both
      subst hcaret
      rw [pieces_plain (by decide), pieces_plain (by decide), ih]
    · rw [beq_eq_false_iff_ne.mpr hcaret]
      exact pieces_cons_congr (fun heq => hc (congrArg Prod.fst heq)) ih
  | @bracket sign items rest first hsign hfirst hitems hinner h ih =>
    have hcaret : ¬['[', '^'] <:+: first :: items := hinner '^' List.mem_cons_self
    have hset : setOf (quote (· == '^') (first :: items)) = setOf (quote (fun _ => false) (first :: items)) :=
      funext (setOf_quote rfl rfl _)
    have hclose : ((']' : Char) == '^') = false := rfl
    rcases hsign with rfl | hsign
    · -- no sign: the replacement does not touch the bracket
      obtain ⟨hbang, hcar⟩ := hfirst rfl
      have hneg : ∀ b, negated [(first, b)] = false := by
        simp [negated, hbang, hcar]
      have hhead : (first :: items ++ ']' :: rest).head? ≠ some '^' := fun heq => hcar (Option.some.inj heq)
      rw [List.singleton_append, replaceNegation_cons fun _ => hhead, replaceNegation_items hcaret]
      have hbyGlob : pieces (quote (· == '^') ('[' :: (first :: items ++ ']' :: replaceNegation rest))) = _ :=
        pieces_bracket (bracket_quote hclose hitems (hneg _) _)
      have hmeant : pieces (quote (fun _ => false) ('[' :: (first :: items ++ ']' :: rest))) = _ :=
        pieces_bracket (@bracket_quote (fun _ => false) rfl _ hitems _ (hneg _) rest)
      rw [hbyGlob, hmeant, hset, ih]
    · -- both signs are read as `!`
      have hreplace : replaceNegation ('[' :: sign ++ (first :: items ++ ']' :: rest)) =
          '[' :: '!' :: (first :: items ++ ']' :: replaceNegation rest) := by
        rcases hsign with rfl | rfl
        · rw [List.cons_append, List.singleton_append, replaceNegation_cons fun _ => by simp,
            replaceNegation_cons fun h => absurd h (by decide), replaceNegation_items hcaret]
        · rw [List.cons_append, List.singleton_append, replaceNegation, replaceNegation_items hcaret]
      have hmeant : bracket (quote (fun _ => false) (sign ++ (first :: items ++ ']' :: rest))) =
          some (fun c => setOf (quote (fun _ => false) (first :: items)) c != true, quote (fun _ => false) rest) := by
        rcases hsign with rfl | rfl
        · exact bracket_quote_negated rfl hitems rfl first rest
        · exact bracket_quote_negated rfl hitems rfl first rest
      have hbyGlob : pieces (quote (· == '^') ('[' :: '!' :: (first :: items ++ ']' :: replaceNegation rest))) = _ :=
        pieces_bracket (bracket_quote_negated hclose hitems rfl first _)
      have hmeant : pieces (quote (fun _ => false) ('[' :: sign ++ (first :: items ++ ']' :: rest))) = _ :=
        pieces_bracket hmeant
      rw [hreplace, hbyGlob, hmeant, hset, ih]

/-! ## Escapes in bytes -/

theorem fromUtf8_eq_some {bytes : Bytes} {text : String} :
    fromUtf8 bytes = some text ↔ bytes = Utf8.encode text.toList := by
  have hbytes : text.toByteArray = (Utf8.encode text.toList).toByteArray := String.utf8Encode_toList.symm
  unfold fromUtf8 String.fromUTF8?
  constructor
  · intro h
    split_ifs at h with hvalid
    have hdata := congrArg (fun t : String => t.toByteArray.data.toList) (Option.some.inj h)
    simpa [String.fromUTF8, hbytes] using hdata
  · rintro rfl
    have hmk : ByteArray.mk (Utf8.encode text.toList).toArray = text.toByteArray := by
      rw [hbytes]
      ext1
      simp
    rw [dif_pos (hmk ▸ text.isValidUTF8), Option.some.injEq, ← String.toByteArray_inj]
    exact hmk

variable {bytes rest : Bytes} {found : GlobPatternType}

theorem ofNat_toNat_ne {c d : Char} (hc : c.toNat < 128) (hd : d.toNat < 128) (h : c ≠ d) :
    UInt8.ofNat c.toNat ≠ UInt8.ofNat d.toNat := by
  intro heq
  have hnat := congrArg UInt8.toNat heq
  rw [UInt8.toNat_ofNat_of_lt' (Nat.lt_trans hc (by decide)),
    UInt8.toNat_ofNat_of_lt' (Nat.lt_trans hd (by decide))] at hnat
  exact h (Char.toNat_inj.mp hnat)

theorem analyzeFrom_high (h : ∀ b ∈ bytes, 0x80 ≤ b) : analyzeFrom found (bytes ++ rest) = analyzeFrom found rest := by
  induction bytes with
  | nil => rfl
  | cons b bytes ih =>
    have hb : 0x80 ≤ b := h b List.mem_cons_self
    have hne : ∀ c : UInt8, c < 0x80 → b ≠ c := fun c hc heq => absurd hc (UInt8.not_lt.mpr (heq ▸ hb))
    rw [List.cons_append, analyzeFrom, if_neg (hne _ (by decide)), if_neg (hne _ (by decide)), if_neg,
      ih fun b hb => h b (List.mem_cons_of_mem _ hb)]
    rintro (heq | heq | heq)
    · exact hne _ (by decide) heq
    · exact hne _ (by decide) heq
    · exact hne _ (by decide) heq

theorem unescapePattern_cons {b : UInt8} (h : b ≠ backslash) :
    unescapePattern (b :: rest) = b :: unescapePattern rest := by
  cases rest with
  | nil => rfl
  | cons c rest => rw [unescapePattern, if_neg h]

theorem unescapePattern_high (h : ∀ b ∈ bytes, 0x80 ≤ b) :
    unescapePattern (bytes ++ rest) = bytes ++ unescapePattern rest := by
  induction bytes with
  | nil => rfl
  | cons b bytes ih =>
    have hne : b ≠ backslash := fun heq => absurd (h b List.mem_cons_self) (heq ▸ by decide)
    rw [List.cons_append, unescapePattern_cons hne, ih fun b hb => h b (List.mem_cons_of_mem _ hb), List.cons_append]

/-- An escape takes the first byte of a character, which brings the others with it. -/
theorem encode_cons_high (c : Char) (pattern : List Char) :
    ∃ b bytes, Utf8.encode (c :: pattern) = b :: (bytes ++ Utf8.encode pattern) ∧
      String.utf8EncodeChar c = b :: bytes ∧ ∀ b ∈ bytes, 0x80 ≤ b := by
  rw [Utf8.encode_cons]
  rcases Utf8.utf8EncodeChar_cases c with ⟨_, h⟩ | h
  · rw [h]
    exact ⟨_, [], rfl, rfl, fun _ h => absurd h List.not_mem_nil⟩
  · obtain ⟨b, bytes, hbytes⟩ := List.exists_cons_of_ne_nil (@String.utf8EncodeChar_ne_nil c)
    rw [hbytes] at h ⊢
    exact ⟨b, bytes, rfl, rfl, fun b hb => h b (List.mem_cons_of_mem _ hb)⟩

/-- Without its escapes a text is a text. -/
theorem unescapePattern_encode (pattern : List Char) :
    ∃ text, unescapePattern (Utf8.encode pattern) = Utf8.encode text ∧
      ∀ q, unescaped pattern = some q → text = q.map Prod.fst := by
  fun_induction unescaped pattern with
  | case1 =>
    refine ⟨[], rfl, ?_⟩
    rintro q ⟨⟩
    rfl
  | case2 => exact ⟨['\\'], rfl, fun q h => absurd h (by simp)⟩
  | case3 c p ih =>
    obtain ⟨text, hbytes, htext⟩ := ih
    obtain ⟨b, bytes, hencode, hc, hhigh⟩ := encode_cons_high c p
    refine ⟨c :: text, ?_, ?_⟩
    · have hback : Utf8.encode ('\\' :: c :: p) = backslash :: Utf8.encode (c :: p) := rfl
      rw [hback, hencode, unescapePattern, if_pos rfl, unescapePattern_high hhigh, hbytes, Utf8.encode_cons, hc,
        List.cons_append]
    · intro q hq
      obtain ⟨q', hq', rfl⟩ := Option.map_eq_some_iff.mp hq
      rw [htext q' hq', List.map_cons]
  | case4 c p hlone hescape ih =>
    obtain ⟨text, hbytes, htext⟩ := ih
    refine ⟨c :: text, ?_, ?_⟩
    · rw [Utf8.encode_cons, Utf8.encode_cons, ← hbytes]
      rcases Utf8.utf8EncodeChar_cases c with ⟨hsmall, h⟩ | h
      · rw [h, List.singleton_append, List.singleton_append]
        refine unescapePattern_cons (@ofNat_toNat_ne c '\\' hsmall (by decide) ?_)
        rintro rfl
        cases p with
        | nil      => exact hlone rfl rfl
        | cons d p => exact hescape d p rfl rfl
      · exact unescapePattern_high h
    · intro q hq
      obtain ⟨q', hq', rfl⟩ := Option.map_eq_some_iff.mp hq
      rw [htext q' hq', List.map_cons]

/-- A wildcard that was found is not forgotten. -/
theorem found_of_analyzeFrom (h : analyzeFrom found bytes = .exact ∨ analyzeFrom found bytes = .escapedExact) :
    found = .exact ∨ found = .escapedExact := by
  have hescape : ∀ {found : GlobPatternType}, (if found = .exact then GlobPatternType.escapedExact else found) = .exact ∨
      (if found = .exact then GlobPatternType.escapedExact else found) = .escapedExact →
      found = .exact ∨ found = .escapedExact := by
    intro found
    cases found <;> decide
  fun_induction analyzeFrom found bytes with
  | case1 => exact h
  | case2 => exact hescape h
  | case3 _ _ _ _ ih => exact hescape (ih h)
  | case4 => rcases h with h | h <;> cases h
  | case5 _ _ _ _ _ _ ih => rcases ih h with h | h <;> cases h
  | case6 _ _ _ _ _ _ ih => exact ih h

/-- A pattern that is classified as exact has no escapes. -/
theorem exact_of_analyzeFrom (h : analyzeFrom found bytes = .exact) : found = .exact ∧ unescapePattern bytes = bytes := by
  have hescape : ∀ {found : GlobPatternType},
      (if found = .exact then GlobPatternType.escapedExact else found) ≠ .exact := by
    intro found
    cases found <;> decide
  fun_induction analyzeFrom found bytes with
  | case1 => exact ⟨h, rfl⟩
  | case2 => exact absurd h hescape
  | case3 _ _ _ _ ih => exact absurd (ih h).1 hescape
  | case4 => cases h
  | case5 _ _ _ _ _ _ ih => cases (ih h).1
  | case6 _ c _ hc _ _ ih => exact ⟨(ih h).1, (unescapePattern_cons hc).trans (congrArg _ (ih h).2)⟩

/-- Without wildcards that are not escaped, all characters stand for themselves. -/
theorem plain_of_analyzeFrom {pattern : List Char} {q : List (Char × Bool)} (hq : unescaped pattern = some q)
    (h : analyzeFrom found (Utf8.encode pattern) = .exact ∨ analyzeFrom found (Utf8.encode pattern) = .escapedExact) :
    ∀ s ∈ q, Plain s := by
  fun_induction unescaped pattern generalizing found q with
  | case1 =>
    cases hq
    exact fun s hs => absurd hs List.not_mem_nil
  | case2 => cases hq
  | case3 c p ih =>
    obtain ⟨q', hq', rfl⟩ := Option.map_eq_some_iff.mp hq
    obtain ⟨b, bytes, hencode, hc, hhigh⟩ := encode_cons_high c p
    have hback : Utf8.encode ('\\' :: c :: p) = backslash :: b :: (bytes ++ Utf8.encode p) := congrArg _ hencode
    rw [hback, analyzeFrom, if_pos rfl] at h
    simp only [analyzeFrom_high hhigh] at h
    refine List.forall_mem_cons.mpr ⟨?_, ih hq' h⟩
    simp [Plain]
  | case4 c p hlone hescape ih =>
    obtain ⟨q', hq', rfl⟩ := Option.map_eq_some_iff.mp hq
    rw [Utf8.encode_cons] at h
    rcases Utf8.utf8EncodeChar_cases c with ⟨hsmall, hc⟩ | hhigh
    · -- one byte, which is looked at
      have hback : UInt8.ofNat c.toNat ≠ backslash := by
        refine @ofNat_toNat_ne c '\\' hsmall (by decide) ?_
        rintro rfl
        cases p with
        | nil      => exact hlone rfl rfl
        | cons d p => exact hescape d p rfl rfl
      rw [hc, List.singleton_append, analyzeFrom, if_neg hback] at h
      split_ifs at h with hstar hother
      · rcases h with h | h <;> cases h
      · rcases found_of_analyzeFrom h with h | h <;> cases h
      · refine List.forall_mem_cons.mpr ⟨⟨?_, ?_, ?_⟩, ih hq' h⟩
        · rintro ⟨⟩
          exact hstar rfl
        · rintro ⟨⟩
          exact hother (.inr (.inr rfl))
        · rintro ⟨⟩
          exact hother (.inl rfl)
    · -- several bytes, none of them special
      rw [analyzeFrom_high hhigh] at h
      refine List.forall_mem_cons.mpr ⟨⟨?_, ?_, ?_⟩, ih hq' h⟩
      · rintro ⟨⟩
        exact absurd (hhigh star (by decide)) (by decide)
      · rintro ⟨⟩
        exact absurd (hhigh questionMark (by decide)) (by decide)
      · rintro ⟨⟩
        exact absurd (hhigh openBracket (by decide)) (by decide)

/-! ## Faithful patterns -/

/-- What `fnmatch` says about a name. A pattern that is not text is an error, and matches nothing. -/
def fnmatchToken (token : Bytes) (name : String) : Bool := (fromUtf8 token).any fun text => fnmatch text.toList name.toList

/-- `fnmatch` and the matcher of a token read the same. -/
def Faithful (token : Bytes) : Prop :=
  match fromUtf8 token with
  | none => fromUtf8 (unescapePattern token) = none
  | some text =>
    unescaped text.toList ≠ none ∧
      ((analyzeGlobPattern token = .exact ∨ analyzeGlobPattern token = .escapedExact) ∨
        '\\' ∉ text.toList ∧ Regular text.toList ∧ StarsApart (pieces (quote (fun _ => false) text.toList)))

/-- No brackets, and two stars in a row at the end only. -/
def Bracketless (token : Bytes) : Prop :=
  ∀ text, fromUtf8 token = some text → '[' ∉ text.toList ∧ StarsApart (readByGlob text.toList)

/-- The matcher says what `fnmatch` says, about every name that is text. -/
def MatchesAsFnmatch (l : Lookup Pattern) (token : Bytes) (m : SymbolMatcher Pattern) : Prop :=
  ∀ name text, fromUtf8 name = some text → m.matchesName l name = some (fnmatchToken token text)

variable {l : Lookup Pattern} {token : Bytes} {m : SymbolMatcher Pattern}

/-- A pattern that is accepted is text, and accepted by the crate. -/
theorem compileGlobPattern_ok {glob : Glob Pattern} {describe : String → VersionScriptError}
    {matcher : Pattern → SymbolMatcher Pattern}
    (h : ((compileGlobPattern glob token).mapError describe).map matcher = .ok m) :
    ∃ text compiled, fromUtf8 token = some text ∧
      glob.new (String.ofList (replaceNegation text.toList)) = some compiled ∧ m = matcher compiled := by
  unfold compileGlobPattern at h
  split at h
  · cases h
  · rename_i text htext
    split at h
    · cases h
    · rename_i compiled hnew
      cases h
      exact ⟨text, compiled, htext, hnew, rfl⟩

/-- An answer comes from a comparison with the name or from a glob. -/
theorem matchesName_of_matcherOf (hunquoted : unquote token = none) (hm : matcherOf l.glob token = .ok m) :
    (token = [star] ∧ ∀ name, m.matchesName l name = some true) ∨
      ((analyzeGlobPattern token = .exact ∨ analyzeGlobPattern token = .escapedExact) ∧
        ∀ name, m.matchesName l name = some (decide (name = unescapePattern token))) ∨
      ∃ text compiled, fromUtf8 token = some text ∧
        l.glob.new (String.ofList (replaceNegation text.toList)) = some compiled ∧
        ¬(analyzeGlobPattern token = .exact ∨ analyzeGlobPattern token = .escapedExact) ∧
        ∀ name, m.matchesName l name = (getNameString name).map (l.glob.accepts compiled) := by
  unfold matcherOf at hm
  rw [hunquoted] at hm
  by_cases hstar : token = [star]
  · rw [if_pos hstar] at hm
    cases hm
    exact .inl ⟨hstar, fun name => matchesName_eq l _ name⟩
  · rw [if_neg hstar] at hm
    cases hkind : analyzeGlobPattern token with
    | exact =>
      rw [hkind] at hm
      cases hm
      refine .inr (.inl ⟨.inl rfl, fun name => ?_⟩)
      rw [matchesName_eq, (exact_of_analyzeFrom hkind).2]
    | escapedExact =>
      rw [hkind] at hm
      cases hm
      exact .inr (.inl ⟨.inr rfl, fun name => matchesName_eq l _ name⟩)
    | star | nonStar =>
      rw [hkind] at hm
      obtain ⟨text, compiled, htext, hnew, rfl⟩ := compileGlobPattern_ok hm
      exact .inr (.inr ⟨text, compiled, htext, hnew, by simp, fun name => matchesName_eq l _ name⟩)

theorem fnmatchToken_eq {text : String} (h : fromUtf8 token = some text) (name : String) :
    fnmatchToken token name = fnmatch text.toList name.toList := by
  rw [fnmatchToken, h]
  rfl

theorem fnmatch_eq {pattern : List Char} {q : List (Char × Bool)} (h : unescaped pattern = some q) (name : List Char) :
    fnmatch pattern name = accepts (pieces q) name := by
  rw [fnmatch, h]
  rfl

theorem fnmatch_star (name : List Char) : fnmatch ['*'] name = true := by
  rw [fnmatch_eq rfl, pieces_star, pieces_nil, accepts, List.any_eq_true]
  exact ⟨[], (List.mem_tails _ _).mpr (List.nil_suffix), rfl⟩

/-- **On faithful patterns the matcher is `fnmatch`.** -/
theorem matchesAsFnmatch_of_faithful (hglob : Usual l.glob) (hunquoted : unquote token = none)
    (hm : matcherOf l.glob token = .ok m) (h : Faithful token) : MatchesAsFnmatch l token m := by
  intro name text hname
  rcases matchesName_of_matcherOf hunquoted hm with ⟨rfl, hmatch⟩ | ⟨hkind, hmatch⟩ | ⟨pattern, compiled, hpattern, hnew,
    hkind, hmatch⟩
  · rw [hmatch, @fnmatchToken_eq [star] "*" rfl]
    exact congrArg some (fnmatch_star _).symm
  · rw [hmatch]
    cases hpattern : fromUtf8 token with
    | none =>
      have hne : name ≠ unescapePattern token := by
        rintro rfl
        rw [Faithful, hpattern] at h
        cases h.symm.trans hname
      rw [decide_eq_false hne, fnmatchToken, hpattern]
      rfl
    | some pattern =>
      rw [Faithful, hpattern] at h
      obtain ⟨q, hq⟩ := Option.ne_none_iff_exists'.mp h.1
      obtain ⟨stripped, hbytes, hstripped⟩ := unescapePattern_encode pattern.toList
      rw [fnmatchToken_eq hpattern, fnmatch_eq hq]
      rw [fromUtf8_eq_some] at hpattern hname
      rw [analyzeGlobPattern, hpattern] at hkind
      rw [accepts_plain (plain_of_analyzeFrom hq hkind), hname, hpattern, hbytes, ← hstripped q hq]
      exact congrArg some (decide_eq_decide.mpr Utf8.encode_inj)
  · have hregular := h
    rw [Faithful, hpattern] at hregular
    obtain ⟨hback, hregular, hapart⟩ := hregular.2.resolve_left hkind
    have hread := readByGlob_replaceNegation hregular
    rw [hmatch, getNameString, hname, Option.map_some, fnmatchToken_eq hpattern, fnmatch_eq (unescaped_of_notMem hback)]
    rw [← hread] at hapart
    rw [hglob.accepts_eq hnew (by rwa [String.toList_ofList]), String.toList_ofList, hread]

theorem regular_of_notMem {pattern : List Char} (h : '[' ∉ pattern) :
    Regular pattern ∧ replaceNegation pattern = pattern := by
  induction pattern with
  | nil => exact ⟨.nil, rfl⟩
  | cons c pattern ih =>
    rw [List.mem_cons, not_or] at h
    obtain ⟨hregular, hreplace⟩ := ih h.2
    exact ⟨.plain (Ne.symm h.1) hregular, by rw [replaceNegation_cons fun heq => absurd heq (Ne.symm h.1), hreplace]⟩

theorem faithful_of_bracketless {pattern : String} (hpattern : fromUtf8 token = some pattern) (h : Bracketless token)
    (hback : '\\' ∉ pattern.toList) : Faithful token := by
  obtain ⟨hopen, hapart⟩ := h pattern hpattern
  obtain ⟨hregular, hreplace⟩ := regular_of_notMem hopen
  have hread := readByGlob_replaceNegation hregular
  rw [hreplace] at hread
  rw [Faithful, hpattern]
  exact ⟨by simp [unescaped_of_notMem hback], .inr ⟨hback, hregular, hread ▸ hapart⟩⟩

/-- The crate does not read an escape as `fnmatch` does: a name with no more backslashes than it has to have tells them
    apart. -/
theorem exists_accepts_ne_fnmatch {pattern : List Char} (hopen : '[' ∉ pattern) (hback : '\\' ∈ pattern) :
    ∃ name, accepts (readByGlob pattern) name ≠ fnmatch pattern name := by
  have hquote : ('[', false) ∉ quote (· == '^') pattern := by
    intro h
    obtain ⟨c, hc, heq⟩ := List.mem_map.mp h
    cases (Prod.ext_iff.mp heq).1
    exact hopen hc
  cases hq : unescaped pattern with
  | none =>
    refine ⟨shortest (quote (· == '^') pattern), ?_⟩
    rw [readByGlob, accepts_shortest hquote, fnmatch, hq]
    simp
  | some q =>
    -- each escape costs the crate a backslash that the shortest name of `fnmatch` does not have
    refine ⟨shortest q, fun heq => ?_⟩
    rw [fnmatch_eq hq, accepts_shortest fun h => hopen (mem_of_unescaped hq h)] at heq
    have hle := count_le_of_accepts hquote (show '\\' ≠ '*' by decide) (show '\\' ≠ '?' by decide) heq
    have hfst : (quote (· == '^') pattern).map Prod.fst = pattern := by simp [quote, Function.comp_def]
    rw [hfst] at hle
    have hlt := (count_shortest_le hq).2 hback
    omega

/-- **Without brackets the matcher is `fnmatch` on faithful patterns only.** -/
theorem faithful_of_matchesAsFnmatch (hglob : Usual l.glob) (hunquoted : unquote token = none)
    (hm : matcherOf l.glob token = .ok m) (hbracketless : Bracketless token) (h : MatchesAsFnmatch l token m) :
    Faithful token := by
  rcases matchesName_of_matcherOf hunquoted hm with ⟨rfl, _⟩ | ⟨hkind, hmatch⟩ | ⟨pattern, compiled, hpattern, hnew,
    hkind, hmatch⟩
  · exact @faithful_of_bracketless [star] "*" rfl hbracketless (by decide)
  · cases hpattern : fromUtf8 token with
    | none =>
      rw [Faithful, hpattern]
      refine Option.eq_none_iff_forall_ne_some.mpr fun text htext => ?_
      have hname := h _ text htext
      rw [hmatch, decide_eq_true rfl, fnmatchToken, hpattern] at hname
      cases hname
    | some pattern =>
      rw [Faithful, hpattern]
      refine ⟨fun hnone => ?_, .inl hkind⟩
      obtain ⟨stripped, hbytes, -⟩ := unescapePattern_encode pattern.toList
      rw [← fromUtf8_eq_some.mp hpattern] at hbytes
      have htext : fromUtf8 (unescapePattern token) = some (String.ofList stripped) := by
        rw [fromUtf8_eq_some, hbytes, String.toList_ofList]
      have hname := h _ _ htext
      rw [hmatch, decide_eq_true rfl, fnmatchToken_eq hpattern, fnmatch, hnone] at hname
      cases hname
  · by_cases hback : '\\' ∈ pattern.toList
    · -- one name is enough
      obtain ⟨hopen, hapart⟩ := hbracketless pattern hpattern
      rw [(regular_of_notMem hopen).2] at hnew
      obtain ⟨name, hne⟩ := exists_accepts_ne_fnmatch hopen hback
      have htext : fromUtf8 (Utf8.encode name) = some (String.ofList name) := by
        rw [fromUtf8_eq_some, String.toList_ofList]
      have hname := h _ _ htext
      rw [hmatch, getNameString, htext, Option.map_some, fnmatchToken_eq hpattern,
        hglob.accepts_eq hnew (by rwa [String.toList_ofList]), String.toList_ofList, String.toList_ofList] at hname
      exact absurd (Option.some.inj hname) hne
    · exact faithful_of_bracketless hpattern hbracketless hback

/-- **The matcher of a pattern is `fnmatch` on faithful patterns**, and without brackets on no others. -/
theorem matcherOf_fnmatch (l : Lookup Pattern) (hglob : Usual l.glob) (token : Bytes) (m : SymbolMatcher Pattern)
    (hunquoted : unquote token = none) (hm : matcherOf l.glob token = .ok m) :
    (Faithful token → MatchesAsFnmatch l token m) ∧
      (Bracketless token → (MatchesAsFnmatch l token m ↔ Faithful token)) :=
  have hfaithful := matchesAsFnmatch_of_faithful hglob hunquoted hm
  ⟨hfaithful, fun hbracketless => ⟨faithful_of_matchesAsFnmatch hglob hunquoted hm hbracketless, hfaithful⟩⟩

/-- A glob crate that reads all patterns as usual, and no demangler. -/
def usualLookup : Lookup (List Piece) where
  glob := ⟨fun pattern => some (readByGlob pattern.toList), fun ps name => accepts ps name.toList⟩
  demangle := fun _ => none

theorem usual_usualLookup : Usual usualLookup.glob := by
  refine ⟨fun h _ name => ?_⟩
  cases h
  rfl

theorem matcherOf_fnmatch_prefix :
    MatchesAsFnmatch usualLookup (bytesOf "f*") (.starGlob (readByGlob "f*".toList)) := by
  refine (matcherOf_fnmatch usualLookup usual_usualLookup (bytesOf "f*") _ rfl rfl).1 ?_
  have htext : fromUtf8 (bytesOf "f*") = some "f*" := rfl
  refine ⟨by decide, .inr ⟨by decide, .plain (by decide) (.plain (by decide) .nil), fun front behind h => ?_⟩⟩
  have hpieces : pieces (quote (fun _ => false) ['f', '*']) = [.one (· == 'f'), .run] := by
    rw [quote_cons, quote_cons, quote_nil, pieces_plain (by decide), pieces_star, pieces_nil]
  have hlength := congrArg List.length (hpieces.symm.trans h)
  simp only [List.length_append, List.length_cons, List.length_nil] at hlength
  exact List.eq_nil_of_length_eq_zero (by omega)

/-- `a\*b*` is for the names that start with `a*b`, and does not match `a*bc`. -/
theorem escaped_star_not_matched :
    ¬∀ (token : Bytes) (m : SymbolMatcher (List Piece)), unquote token = none →
      matcherOf usualLookup.glob token = .ok m → MatchesAsFnmatch usualLookup token m := by
  intro h
  have hmatch := h (bytesOf "a\\*b*") (.starGlob (readByGlob "a\\*b*".toList)) rfl rfl (bytesOf "a*bc") "a*bc" rfl
  have hcode : pieces [('a', false), ('\\', false), ('*', false), ('b', false), ('*', false)] =
      [.one (· == 'a'), .one (· == '\\'), .run, .one (· == 'b'), .run] := by
    simp (disch := decide) only [pieces_plain, pieces_star, pieces_nil]
  have hspec : pieces [('a', false), ('*', true), ('b', false), ('*', false)] =
      [.one (· == 'a'), .one (· == '*'), .one (· == 'b'), .run] := by
    simp (disch := decide) only [pieces_plain, pieces_star, pieces_nil]
  have hfalse : accepts (readByGlob "a\\*b*".toList) "a*bc".toList = false :=
    (congrArg (accepts · "a*bc".toList) hcode).trans rfl
  have htrue : fnmatchToken (bytesOf "a\\*b*") "a*bc" = true :=
    (congrArg (accepts · "a*bc".toList) hspec).trans rfl
  have hname : getNameString (bytesOf "a*bc") = some "a*bc" := rfl
  rw [matchesName_eq, hname, htrue] at hmatch
  exact absurd (hfalse.symm.trans (Option.some.inj hmatch)) Bool.false_ne_true

end Reld.VersionScripts
