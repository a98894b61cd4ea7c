import Reld.Input.GlobMatch

/-!
# `Input.VersionScript` — which symbols a version script makes local

A version script lists patterns of global and of local symbols. `RegularVersionScript` looks for the pattern that
decides about a name: exact patterns first, then globs without a `*`, then globs with one, then `*` itself. A body
that is `rustLike` has exact names only under `global:` and `*` under `local:`, and is kept as the list of its
global names. What the regular script says about such a body is `isLocal_ofBody`.

The demangler is a parameter. `none` is the panic for a name that has to be in UTF-8 and is not.
-/

variable {global : List Bytes}

namespace Reld.VersionScripts

variable {Pattern : Type*}

/-! ## Patterns -/

/-- `SymbolMatcher` -/
inductive SymbolMatcher (Pattern : Type*) where
  | exact (name : Bytes)
  | escapedExact (name : Bytes)
  | starGlob (pattern : Pattern)
  | nonstarGlob (pattern : Pattern)
  | matchesAll

/-- `ParsedSymbolMatcher` -/
inductive ParsedSymbolMatcher (Pattern : Type*) where
  | single (matcher : SymbolMatcher Pattern)
  | multiple (matchers : List (SymbolMatcher Pattern))
  | cxxMatchers (matchers : List (SymbolMatcher Pattern))

/-- `BasicMatchRules` -/
structure BasicMatchRules (Pattern : Type*) where
  exact : List Bytes := []
  escapedExact : List Bytes := []
  starGlobs : List Pattern := []
  nonstarGlobs : List Pattern := []
  matchesAll : Bool := false

/-- `BasicMatchRules::push` -/
def BasicMatchRules.push (r : BasicMatchRules Pattern) : SymbolMatcher Pattern → BasicMatchRules Pattern
  | .matchesAll => { r with matchesAll := true }
  | .starGlob glob => { r with starGlobs := r.starGlobs ++ [glob] }
  | .nonstarGlob glob => { r with nonstarGlobs := r.nonstarGlobs ++ [glob] }
  | .exact name => { r with exact := r.exact.insert name }
  | .escapedExact escaped => { r with escapedExact := r.escapedExact.insert (unescapePattern escaped) }

/-- `MatchRules` -/
structure MatchRules (Pattern : Type*) where
  general : BasicMatchRules Pattern := {}
  cxx : BasicMatchRules Pattern := {}

/-- `MatchRules::push` -/
def MatchRules.push (r : MatchRules Pattern) : ParsedSymbolMatcher Pattern → MatchRules Pattern
  | .single single => { r with general := r.general.push single }
  | .multiple matchers => { r with general := matchers.foldl .push r.general }
  | .cxxMatchers matchers => { r with cxx := matchers.foldl .push r.cxx }

/-- `VersionBody` -/
structure VersionBody (Pattern : Type*) where
  globals : MatchRules Pattern := {}
  locals : MatchRules Pattern := {}

/-- `Version` -/
structure Version (Pattern : Type*) where
  name : Bytes := []
  parentIndex : Option Nat := none
  versionBody : VersionBody Pattern := {}

/-- `RegularVersionScript` -/
structure RegularVersionScript (Pattern : Type*) where
  versions : List (Version Pattern) := []
  versionNameMapping : List (Bytes × Nat) := []

/-- `VersionRuleSection` -/
inductive VersionRuleSection where
  | global
  | local_
deriving DecidableEq

/-! ## Names -/

/-- What a name is looked up with: the `glob` crate and the demangler. -/
structure Lookup (Pattern : Type*) where
  glob : Glob Pattern
  demangle : String → Option String

/-- The bytes of a string. -/
def bytesOfString (s : String) : Bytes := s.toUTF8.data.toList

/-- `get_name_string`; a name that is not UTF-8 ends the link. -/
def getNameString (name : Bytes) : Option String := fromUtf8 name

/-- `get_demangled_name`; a name that is not mangled stands for itself. -/
def Lookup.getDemangledName (l : Lookup Pattern) (name : Bytes) : Option String :=
  (getNameString name).map fun s => (l.demangle s).getD s

/-- Asks about a name, which is only looked at if there is a pattern to compare it with. -/
def askIfAny {α β : Type*} (patterns : List α) (name : Option β) (accepts : β → Bool) : Option Bool :=
  if patterns.isEmpty then some false else name.map accepts

/-- `BasicMatchRules::matches_exact` -/
def BasicMatchRules.matchesExact (l : Lookup Pattern) (r : BasicMatchRules Pattern) (name : Bytes) (mangled : Bool) :
    Option Bool := do
  let symbolBytes := if mangled then (l.getDemangledName name).map bytesOfString else some name
  if ← askIfAny r.exact symbolBytes (· ∈ r.exact) then
    return true
  else
    askIfAny r.escapedExact symbolBytes (· ∈ r.escapedExact)

/-- `BasicMatchRules::matches_glob` -/
def BasicMatchRules.matchesGlob (l : Lookup Pattern) (r : BasicMatchRules Pattern) (name : Bytes)
    (nonStar mangled : Bool) : Option Bool :=
  let globs := if nonStar then r.nonstarGlobs else r.starGlobs
  let symbolName := if mangled then l.getDemangledName name else getNameString name
  askIfAny globs symbolName fun symbolName => globs.any fun pattern => l.glob.accepts pattern symbolName

/-! ## The pattern that decides -/

/-- The first result of a loop. -/
def firstResult {α β : Type*} (f : α → Option (Option β)) : List α → Option (Option β)
  | [] => some none
  | a :: rest => do
      match ← f a with
      | some b => return some b
      | none => firstResult f rest

/-- The first pass: exact patterns. -/
def exactIn (l : Lookup Pattern) (name : Bytes) (version : Nat × Version Pattern) :
    Option (Option (Nat × VersionRuleSection)) := do
  let body := version.2.versionBody
  if ← body.globals.general.matchesExact l name false then
    return some (version.1, .global)
  else if ← body.locals.general.matchesExact l name false then
    return some (version.1, .local_)
  else if ← body.globals.cxx.matchesExact l name true then
    return some (version.1, .global)
  else if ← body.locals.cxx.matchesExact l name true then
    return some (version.1, .local_)
  else
    return none

/-- Whether a glob of the rules matches, the C++ ones last. -/
def MatchRules.matchesGlob (l : Lookup Pattern) (r : MatchRules Pattern) (name : Bytes) (nonStar : Bool) :
    Option Bool := do
  if ← r.general.matchesGlob l name nonStar false then
    return true
  else
    r.cxx.matchesGlob l name nonStar true

/-- The second pass: globs, those with a `*` or those without. -/
def globIn (l : Lookup Pattern) (name : Bytes) (nonStar : Bool) (version : Nat × Version Pattern) :
    Option (Option (Nat × VersionRuleSection)) := do
  let body := version.2.versionBody
  if ← body.globals.matchesGlob l name nonStar then
    return some (version.1, .global)
  else if ← body.locals.matchesGlob l name nonStar then
    return some (version.1, .local_)
  else
    return none

/-- The third pass: `*`. -/
def allIn (version : Nat × Version Pattern) : Option (Option (Nat × VersionRuleSection)) :=
  let body := version.2.versionBody
  if body.globals.general.matchesAll || body.globals.cxx.matchesAll then some (some (version.1, .global))
  else if body.locals.general.matchesAll || body.locals.cxx.matchesAll then some (some (version.1, .local_))
  else some none

namespace RegularVersionScript

/-- The versions with their indexes. -/
def enumerated (s : RegularVersionScript Pattern) : List (Nat × Version Pattern) :=
  s.versions.mapIdx fun i version => (i, version)

/-- `find_match` -/
def findMatch (l : Lookup Pattern) (s : RegularVersionScript Pattern) (name : Bytes) :
    Option (Option (Nat × VersionRuleSection)) := do
  match ← firstResult (exactIn l name) s.enumerated with
  | some found => return some found
  | none =>
    -- From here on the last version wins.
    match ← firstResult (globIn l name true) s.enumerated.reverse with
    | some found => return some found
    | none =>
      match ← firstResult (globIn l name false) s.enumerated.reverse with
      | some found => return some found
      | none => firstResult allIn s.enumerated.reverse

/-- `is_local` -/
def isLocal (l : Lookup Pattern) (s : RegularVersionScript Pattern) (name : Bytes) : Option Bool :=
  (s.findMatch l name).map fun found => found.any fun rule => rule.2 = .local_

end RegularVersionScript

/-! ## Bodies of Rust -/

/-- `RawVersionBody` -/
structure RawVersionBody (Pattern : Type*) where
  globals : List (ParsedSymbolMatcher Pattern) := []
  locals : List (ParsedSymbolMatcher Pattern) := []

namespace RawVersionBody

/-- `rust_like` -/
def rustLike (body : RawVersionBody Pattern) : Bool :=
  body.locals.any (fun matcher => matcher matches .single .matchesAll) &&
    body.globals.all fun matcher => matcher matches .single (.exact _)

/-- The exact name of a matcher. -/
def exactName : ParsedSymbolMatcher Pattern → Option Bytes
  | .single (.exact name) => some name
  | _ => none

/-- `RustVersionScript::try_from`: the global names, all of which are exact. -/
def toRust (body : RawVersionBody Pattern) : Option (List Bytes) :=
  if body.rustLike then some (body.globals.filterMap exactName) else none

/-- `VersionBody::from` -/
def toVersionBody (body : RawVersionBody Pattern) : VersionBody Pattern :=
  { globals := body.globals.foldl .push {}, locals := body.locals.foldl .push {} }

/-- The regular script that `VersionScript::from` makes of a body that is not for Rust. -/
def toRegular (body : RawVersionBody Pattern) : RegularVersionScript Pattern :=
  { versions := [{ versionBody := body.toVersionBody }] }

end RawVersionBody

/-! ## What the regular script says about a body of Rust -/

section Rust

variable {l : Lookup Pattern} {name : Bytes}

/-- Rules that the UTF-8 text of a name is needed for, beyond its bytes. -/
def MatchRules.NeedsString (r : MatchRules Pattern) : Prop :=
  r.cxx.exact ≠ [] ∨ r.cxx.escapedExact ≠ [] ∨ r.general.nonstarGlobs ≠ [] ∨ r.cxx.nonstarGlobs ≠ [] ∨
    r.general.starGlobs ≠ [] ∨ r.cxx.starGlobs ≠ []

/-- The rules decide about the name without a panic: it is UTF-8, or listed as it is, or no rule asks. -/
def MatchRules.Readable (r : MatchRules Pattern) (name : Bytes) : Prop :=
  (getNameString name).isSome = true ∨ name ∈ r.general.exact ∨ name ∈ r.general.escapedExact ∨ ¬ r.NeedsString

section Ask

variable {α β : Type*} {patterns : List α} {text : Option β} {accepts : β → Bool}

theorem askIfAny_some (x : β) : ∃ b, askIfAny patterns (some x) accepts = some b := by
  unfold askIfAny
  cases patterns.isEmpty with
  | true => exact ⟨false, rfl⟩
  | false => exact ⟨accepts x, rfl⟩

/-- Without a text, an answer means that nothing was asked. -/
theorem askIfAny_none : askIfAny patterns (none : Option β) accepts = if patterns = [] then some false else none := by
  cases patterns <;> rfl

end Ask

theorem BasicMatchRules.matchesExact_plain (r : BasicMatchRules Pattern) :
    r.matchesExact l name false = some (decide (name ∈ r.exact ∨ name ∈ r.escapedExact)) := by
  have hask (set : List Bytes) : askIfAny set (some name) (fun b => decide (b ∈ set)) = some (decide (name ∈ set)) := by
    cases set <;> simp [askIfAny]
  unfold BasicMatchRules.matchesExact
  simp only [Bool.false_eq_true, if_false, hask, Option.bind_eq_bind, Option.bind_some]
  by_cases h : name ∈ r.exact <;> simp [h]

/-- Rules with exact names only do not ask for the text. -/
theorem BasicMatchRules.matchesExact_nil (mangled : Bool) :
    ({} : BasicMatchRules Pattern).matchesExact l name mangled = some false := rfl

/-- Questions in a row; the first that is answered with yes ends them, and so does a panic. -/
def asks : List (Option Bool) → Option Bool
  | [] => some true
  | ask :: rest => do if ← ask then return true else asks rest

theorem asks_eq_some {questions : List (Option Bool)} (h : ∀ ask ∈ questions, ask ≠ none) : asks questions = some true := by
  induction questions with
  | nil => rfl
  | cons ask rest ih =>
    obtain ⟨b, rfl⟩ := Option.ne_none_iff_exists'.1 (h ask (List.mem_cons_self ..))
    cases b with
    | true => rfl
    | false => exact ih fun ask' hask => h ask' (List.mem_cons_of_mem _ hask)

/-- No row of questions ends in a no. -/
theorem eq_true_of_asks {questions : List (Option Bool)} {answer : Bool} (h : asks questions = some answer) :
    answer = true := by
  induction questions with
  | nil => exact (Option.some.inj h).symm
  | cons ask rest ih =>
    rcases ask with _ | _ | _
    · cases h
    · exact ih h
    · exact (Option.some.inj h).symm

/-- A question that is only answered if nothing is asked. -/
theorem asks_unread {p : Prop} [Decidable p] {rest : List (Option Bool)} :
    asks ((if p then some false else none) :: rest) = some true ↔ p ∧ asks rest = some true := by
  by_cases hp : p <;> simp [asks, hp]

/-- A question that is two in a row. -/
theorem asks_pair (first second : Option Bool) (rest : List (Option Bool)) :
    asks ((do if ← first then return true else second) :: rest) = asks (first :: second :: rest) := by
  rcases first with _ | _ | _ <;> rfl

theorem asks_congr (first : Option Bool) {rest rest' : List (Option Bool)} (h : asks rest = asks rest') :
    asks (first :: rest) = asks (first :: rest') := by
  rw [asks, asks, h]

/-- What the local rules are asked once the bytes of the name have not decided. -/
def MatchRules.questions (l : Lookup Pattern) (r : MatchRules Pattern) (name : Bytes) : List (Option Bool) :=
  let demangled := l.getDemangledName name
  let accepted (globs : List Pattern) (s : String) : Bool := globs.any fun pattern => l.glob.accepts pattern s
  [ askIfAny r.cxx.exact (demangled.map bytesOfString) (· ∈ r.cxx.exact),
    askIfAny r.cxx.escapedExact (demangled.map bytesOfString) (· ∈ r.cxx.escapedExact),
    askIfAny r.general.nonstarGlobs (getNameString name) (accepted r.general.nonstarGlobs),
    askIfAny r.cxx.nonstarGlobs demangled (accepted r.cxx.nonstarGlobs),
    askIfAny r.general.starGlobs (getNameString name) (accepted r.general.starGlobs),
    askIfAny r.cxx.starGlobs demangled (accepted r.cxx.starGlobs) ]

/-- A name that is listed is global. -/
theorem isLocal_of_global {locals : MatchRules Pattern} {names : List Bytes} (hname : name ∈ names) :
    (⟨[⟨[], none, ⟨⟨{ exact := names }, {}⟩, locals⟩⟩], []⟩ : RegularVersionScript Pattern).isLocal l name =
      some false := by
  unfold RegularVersionScript.isLocal RegularVersionScript.findMatch RegularVersionScript.enumerated
  simp [firstResult, exactIn, BasicMatchRules.matchesExact_plain, hname]

/-- The local rules of a script without a global rule for the name. -/
theorem isLocal_of_not_global {locals : MatchRules Pattern} {names : List Bytes} (hall : locals.general.matchesAll = true)
    (hname : name ∉ names) :
    (⟨[⟨[], none, ⟨⟨{ exact := names }, {}⟩, locals⟩⟩], []⟩ : RegularVersionScript Pattern).isLocal l name =
      if name ∈ locals.general.exact ∨ name ∈ locals.general.escapedExact then some true
      else asks (locals.questions l name) := by
  have hglobs (nonStar mangled : Bool) (exact : List Bytes) :
      ({ exact := exact } : BasicMatchRules Pattern).matchesGlob l name nonStar mangled = some false := by
    cases nonStar <;> rfl
  have hglobals (nonStar : Bool) :
      (⟨{ exact := names }, {}⟩ : MatchRules Pattern).matchesGlob l name nonStar = some false := by
    simp [MatchRules.matchesGlob, hglobs]
  unfold RegularVersionScript.isLocal RegularVersionScript.findMatch RegularVersionScript.enumerated
  simp only [List.mapIdx_cons, List.mapIdx_nil, List.reverse_singleton, firstResult, exactIn, globIn, allIn,
    BasicMatchRules.matchesExact_plain, BasicMatchRules.matchesExact_nil, hglobals, hname, hall, List.not_mem_nil, or_self,
    decide_false, Option.bind_eq_bind, Option.bind_some, Bool.false_eq_true, if_false, Bool.or_self, Bool.true_or, if_true]
  by_cases hlocal : name ∈ locals.general.exact ∨ name ∈ locals.general.escapedExact
  · simp [hlocal]
  · have hquestions : asks (locals.questions l name) =
        asks [locals.cxx.matchesExact l name true, locals.matchesGlob l name true, locals.matchesGlob l name false] := by
      refine ((asks_pair _ _ _).trans ?_).symm
      apply asks_congr
      apply asks_congr
      refine (asks_pair _ _ _).trans ?_
      apply asks_congr
      apply asks_congr
      exact asks_pair _ _ _
    simp only [hlocal, decide_false, Bool.false_eq_true, if_false]
    rw [hquestions]
    generalize locals.cxx.matchesExact l name true = exact
    generalize locals.matchesGlob l name true = nonStar
    generalize locals.matchesGlob l name false = star
    rcases exact with _ | _ | _
    · rfl
    · rcases nonStar with _ | _ | _
      · rfl
      · rcases star with _ | _ | _ <;> rfl
      · rfl
    · rfl

/-- The questions have answers exactly if the text is there or nothing is asked. -/
theorem asks_questions {locals : MatchRules Pattern} (hexact : name ∉ locals.general.exact)
    (hescaped : name ∉ locals.general.escapedExact) :
    asks (locals.questions l name) = some true ↔ locals.Readable name := by
  unfold MatchRules.Readable
  simp only [hexact, hescaped, false_or]
  cases htext : getNameString name with
  | some s =>
    refine iff_of_true (asks_eq_some ?_) (Or.inl rfl)
    intro ask hask
    have hdemangled : l.getDemangledName name = some ((l.demangle s).getD s) := by
      rw [Lookup.getDemangledName, htext, Option.map_some]
    simp only [MatchRules.questions, hdemangled, htext, Option.map_some, List.mem_cons, List.not_mem_nil, or_false] at hask
    rw [Option.ne_none_iff_exists']
    rcases hask with rfl | rfl | rfl | rfl | rfl | rfl <;> exact askIfAny_some _
  | none =>
    have hdemangled : l.getDemangledName name = none := by rw [Lookup.getDemangledName, htext, Option.map_none]
    simp only [MatchRules.questions, hdemangled, htext, Option.map_none, askIfAny_none, asks_unread,
      Option.isSome_none, Bool.false_eq_true, false_or, MatchRules.NeedsString, not_or, not_not]
    simp [asks]

theorem isMatchesAll_iff {matcher : ParsedSymbolMatcher Pattern} :
    (matcher matches .single .matchesAll) = true ↔ matcher = .single .matchesAll := by
  rcases matcher with (_ | _ | _ | _ | _) | _ | _ <;> simp

theorem isExact_iff {matcher : ParsedSymbolMatcher Pattern} :
    (matcher matches .single (.exact _)) = true ↔ ∃ name, matcher = .single (.exact name) := by
  rcases matcher with (_ | _ | _ | _ | _) | _ | _ <;> simp

/-- The rules that the global names of a body for Rust make. -/
theorem foldl_push_exact {globals : List (ParsedSymbolMatcher Pattern)}
    (h : ∀ matcher ∈ globals, ∃ name, matcher = .single (.exact name)) (names : List Bytes) :
    ∃ names', globals.foldl MatchRules.push ⟨{ exact := names }, {}⟩ = ⟨{ exact := names' }, {}⟩ ∧
      ∀ name, name ∈ names' ↔ name ∈ names ∨ name ∈ globals.filterMap RawVersionBody.exactName := by
  induction globals generalizing names with
  | nil => exact ⟨names, rfl, fun name => by simp⟩
  | cons matcher globals ih =>
    obtain ⟨first, rfl⟩ := h matcher (List.mem_cons_self ..)
    obtain ⟨names', hfold, hmem⟩ := ih (fun m hm => h m (List.mem_cons_of_mem _ hm)) (names.insert first)
    refine ⟨names', hfold, fun name => ?_⟩
    have hnames : (ParsedSymbolMatcher.single (.exact first) :: globals).filterMap RawVersionBody.exactName =
        first :: globals.filterMap RawVersionBody.exactName := rfl
    rw [hmem, List.mem_insert_iff, hnames, List.mem_cons]
    tauto

/-- Pushing keeps `*`. -/
theorem matchesAll_push {r : MatchRules Pattern} (h : r.general.matchesAll = true)
    (matcher : ParsedSymbolMatcher Pattern) : (r.push matcher).general.matchesAll = true := by
  have hone (basic : BasicMatchRules Pattern) (hall : basic.matchesAll = true) (m : SymbolMatcher Pattern) :
      (basic.push m).matchesAll = true := by
    cases m <;> first | exact hall | rfl
  cases matcher with
  | single m => exact hone r.general h m
  | multiple matchers =>
    exact List.foldlRecOn (motive := fun basic => basic.matchesAll = true) matchers _ h fun basic hall m _ => hone basic hall m
  | cxxMatchers matchers => exact h

/-- A body with `*` among its local patterns has the rule. -/
theorem matchesAll_foldl_push {locals : List (ParsedSymbolMatcher Pattern)} (r : MatchRules Pattern)
    (h : r.general.matchesAll = true ∨ .single .matchesAll ∈ locals) :
    (locals.foldl MatchRules.push r).general.matchesAll = true := by
  induction locals generalizing r with
  | nil => simpa using h
  | cons matcher locals ih =>
    apply ih
    rcases h with h | h
    · exact Or.inl (matchesAll_push h matcher)
    · rcases List.mem_cons.1 h with rfl | h
      · exact Or.inl rfl
      · exact Or.inr h

/-- The regular script of a body for Rust: exact global names and `*` under `local:`. -/
theorem toRegular_of_toRust {body : RawVersionBody Pattern} (h : body.toRust = some global) :
    ∃ names, body.toRegular = ⟨[⟨[], none, ⟨⟨{ exact := names }, {}⟩, body.toVersionBody.locals⟩⟩], []⟩ ∧
      body.toVersionBody.locals.general.matchesAll = true ∧ ∀ name, name ∈ names ↔ name ∈ global := by
  unfold RawVersionBody.toRust at h
  split at h
  case isFalse => cases h
  case isTrue hrust =>
    cases h
    unfold RawVersionBody.rustLike at hrust
    rw [Bool.and_eq_true, List.any_eq_true, List.all_eq_true] at hrust
    obtain ⟨⟨all, hall, hstar⟩, hexact⟩ := hrust
    rw [isMatchesAll_iff.1 hstar] at hall
    obtain ⟨names, hglobals, hnames⟩ := foldl_push_exact (fun matcher hmem => isExact_iff.1 (hexact matcher hmem)) []
    refine ⟨names, ?_, matchesAll_foldl_push _ (Or.inr hall), fun name => ?_⟩
    · unfold RawVersionBody.toRegular RawVersionBody.toVersionBody
      rw [hglobals]
    · rw [hnames, or_iff_right (List.not_mem_nil)]

/-- **A body for Rust makes local what it does not list**, if the regular script can decide at all. -/
theorem isLocal_toRegular {body : RawVersionBody Pattern} (h : body.toRust = some global) :
    body.toRegular.isLocal l name = some (decide (name ∉ global)) ↔
      name ∈ global ∨ body.toVersionBody.locals.Readable name := by
  obtain ⟨names, hscript, hall, hnames⟩ := toRegular_of_toRust h
  rw [hscript]
  simp only [← hnames]
  by_cases hname : name ∈ names
  · refine iff_of_true ?_ (Or.inl hname)
    rw [isLocal_of_global hname]
    simp [hname]
  · rw [isLocal_of_not_global hall hname]
    simp only [hname, not_false_eq_true, decide_true, false_or]
    split
    case isTrue hlocal =>
      refine iff_of_true rfl ?_
      rcases hlocal with h | h
      · exact Or.inr (Or.inl h)
      · exact Or.inr (Or.inr (Or.inl h))
    case isFalse hlocal =>
      rw [not_or] at hlocal
      exact asks_questions hlocal.1 hlocal.2

/-- The regular script has no other answer for a body for Rust. -/
theorem eq_of_isLocal_toRegular {body : RawVersionBody Pattern} (h : body.toRust = some global) {answer : Bool}
    (hanswer : body.toRegular.isLocal l name = some answer) : answer = decide (name ∉ global) := by
  obtain ⟨names, hscript, hall, hnames⟩ := toRegular_of_toRust h
  rw [hscript] at hanswer
  simp only [← hnames]
  by_cases hname : name ∈ names
  · rw [isLocal_of_global hname] at hanswer
    simpa [hname] using hanswer.symm
  · rw [isLocal_of_not_global hall hname] at hanswer
    simp only [hname, not_false_eq_true, decide_true]
    split at hanswer
    case isTrue => exact (Option.some.inj hanswer).symm
    case isFalse => exact eq_true_of_asks hanswer

end Rust

end Reld.VersionScripts
