import Reld.Input.GlobMatch
import Reld.Layout.OutputSections
import Reld.Lib.HashTable

/-!
# `Layout.SectionRules` — which rule places an input section

The rules of a linker script, or the built-in ones, are ordered: a section goes where the first rule says that
`matches` it. `SectionRules` files them in a hash table under the hash of the first four bytes of their **key**,
and `lookup` searches under the hash of the first four bytes of the section name. A rule is so found only for
the names whose hash is that of its key. `LooksUpFirst` says when the lookup answers as the first match would.

The `glob` crate is a parameter, `Glob`; so is the hash of four bytes.
-/

namespace Reld.LayoutRules

variable {Pattern : Type*}

/-! ## Rules -/

/-- `SectionOutputInfo` of the layout rules. -/
structure SectionOutputInfo where
  sectionId : OutputSectionId
  mustKeep : Bool
  sorted : Bool
deriving DecidableEq

/-- `SectionOutputInfo::regular` -/
def SectionOutputInfo.regular (id : OutputSectionId) : SectionOutputInfo := ⟨id, false, false⟩

/-- `SectionRuleOutcome` -/
inductive SectionRuleOutcome where
  | «section» (info : SectionOutputInfo)
  | discard
  | custom
  | ehFrame
  | noteGnuProperty
  | noteGnuStack
  | debug
  | debugIndex
  | riscVAttribute
  | sortedSection (info : SectionOutputInfo)
deriving DecidableEq

/-- `SectionNameMatcher` -/
inductive SectionNameMatcher (Pattern : Type*) where
  | exact (name : Bytes)
  | startsWith (front : Bytes)
  | glob (key : Bytes) (pattern : Pattern)

/-- `prefix_bytes`: what the hash of a rule is computed from. -/
def SectionNameMatcher.prefixBytes : SectionNameMatcher Pattern → Bytes
  | .exact n => n
  | .startsWith n => n
  | .glob n _ => n

/-- `SectionRule` -/
structure SectionRule (Pattern : Type*) where
  nameMatcher : SectionNameMatcher Pattern
  inputFilePattern : Option Pattern
  outcome : SectionRuleOutcome

namespace SectionRule

/-- How `SectionRule::new` reads a pattern. A glob is filed under the whole pattern, wildcards included. -/
def nameMatcherOf (glob : Glob Pattern) (pattern : Bytes) : Except String (SectionNameMatcher Pattern) :=
  match analyzeGlobPattern pattern with
  | .exact => .ok (.exact pattern)
  | .escapedExact => .ok (.exact (unescapePattern pattern))
  | .star | .nonStar => (compileGlobPattern glob pattern).map (.glob pattern)

/-- `SectionRule::new` -/
def new (glob : Glob Pattern) (pattern : Bytes) (inputFilePattern : Option Bytes) (outcome : SectionRuleOutcome) :
    Except String (SectionRule Pattern) := do
  let compiledFilePattern ← inputFilePattern.mapM (compileGlobPattern glob)
  let nameMatcher ← nameMatcherOf glob pattern
  return ⟨nameMatcher, compiledFilePattern, outcome⟩

/-- Whether the name of the section matches. -/
def sectionMatches (glob : Glob Pattern) (r : SectionRule Pattern) (sectionName : Bytes) : Bool :=
  match r.nameMatcher with
  | .exact name => sectionName = name
  | .startsWith front => front.isPrefixOf sectionName
  | .glob _ pattern => acceptsBytes glob pattern sectionName

/-- `SectionRule::matches` -/
def isMatch (glob : Glob Pattern) (r : SectionRule Pattern) (sectionName : Bytes) (fileName : Option Bytes) : Bool :=
  if ¬ r.sectionMatches glob sectionName then false
  else
    match r.inputFilePattern with
    -- A rule without a file pattern takes all files, also one without a name.
    | none => true
    | some pattern =>
      match fileName with
      | none => false
      | some name => acceptsBytes glob pattern name

end SectionRule

/-! ## Lookup -/

/-- What the lookup asks a section header, `SectionHeader`. -/
structure SectionHeader where
  shouldExclude : Bool
  isDependentLibraries : Bool
  isAlloc : Bool
  isProgBits : Bool
  isNoBits : Bool
  isExecutable : Bool
  isTls : Bool
  isWritable : Bool

/-- The sections of a platform that sections without a name go to. -/
structure PlatformSections where
  text : Option OutputSectionId
  tdata : Option OutputSectionId
  data : Option OutputSectionId
  rodata : Option OutputSectionId
  tbss : Option OutputSectionId
  bss : Option OutputSectionId

/-- `regular_section_or_discard` -/
def regularSectionOrDiscard (sectionId : Option OutputSectionId) : SectionRuleOutcome :=
  sectionId.elim .discard fun id => .section (.regular id)

/-- `unnamed_section_output` -/
def unnamedSectionOutput (p : PlatformSections) (header : SectionHeader) : SectionRuleOutcome :=
  if ¬ header.isAlloc then .discard
  else if header.isProgBits then
    if header.isExecutable then regularSectionOrDiscard p.text
    else if header.isTls then regularSectionOrDiscard p.tdata
    else if header.isWritable then regularSectionOrDiscard p.data
    else regularSectionOrDiscard p.rodata
  else if header.isNoBits then
    if header.isTls then regularSectionOrDiscard p.tbss else regularSectionOrDiscard p.bss
  else .discard

/-- The first four bytes of a name, with zeros behind a shorter one. -/
def firstFour (name : Bytes) : Bytes := (name.take 4).rightpad 4 0

/-- `section_name_prefix_hash` -/
def sectionNamePrefixHash (hashBytes : Bytes → UInt64) (name : Bytes) : Option UInt64 :=
  if name.isEmpty then none else some (hashBytes (firstFour name))

/-- The hash that a rule is filed under. -/
def SectionRule.hash (hashBytes : Bytes → UInt64) (r : SectionRule Pattern) : UInt64 :=
  (sectionNamePrefixHash hashBytes r.nameMatcher.prefixBytes).getD 0

/-- `SectionRules` -/
structure SectionRules (Pattern : Type*) where
  rules : HashTable UInt64 (SectionRule Pattern)

namespace SectionRules

/-- `SectionRules::from_rules` -/
def fromRules (hashBytes : Bytes → UInt64) (rules : List (SectionRule Pattern)) : SectionRules Pattern :=
  ⟨.ofList (·.hash hashBytes) rules⟩

/-- What `find` returns for the hash of the name, if it has one. -/
def findRule (glob : Glob Pattern) (hashBytes : Bytes → UInt64) (s : SectionRules Pattern) (sectionName : Bytes)
    (fileName : Option Bytes) : Option (SectionRule Pattern) :=
  (sectionNamePrefixHash hashBytes sectionName).bind fun hash =>
    s.rules.find hash (·.isMatch glob sectionName fileName)

/-- `SectionRules::lookup` -/
def lookup (p : PlatformSections) (glob : Glob Pattern) (hashBytes : Bytes → UInt64) (s : SectionRules Pattern)
    (sectionName : Bytes) (fileName : Option Bytes) (header : SectionHeader) : SectionRuleOutcome :=
  if header.shouldExclude then .discard
  else if header.isDependentLibraries then .discard
  else
    match s.findRule glob hashBytes sectionName fileName with
    | some rule => rule.outcome
    | none => if sectionName.isEmpty then unnamedSectionOutput p header else .custom

end SectionRules

/-! ## The first match -/

/-- A section that is discarded whatever the rules say. -/
def SectionHeader.isDiscarded (header : SectionHeader) : Bool := header.shouldExclude || header.isDependentLibraries

/-- The outcome without a rule. -/
def defaultOutcome (p : PlatformSections) (sectionName : Bytes) (header : SectionHeader) : SectionRuleOutcome :=
  if header.isDiscarded then .discard
  else if sectionName.isEmpty then unnamedSectionOutput p header
  else .custom

/-- The first rule of the list that matches. -/
def firstMatch (glob : Glob Pattern) (rules : List (SectionRule Pattern)) (sectionName : Bytes)
    (fileName : Option Bytes) : Option (SectionRule Pattern) :=
  rules.find? (·.isMatch glob sectionName fileName)

/-- What the list of rules means: the outcome of the first that matches, else the default one. -/
def firstOutcome (p : PlatformSections) (glob : Glob Pattern) (rules : List (SectionRule Pattern))
    (sectionName : Bytes) (fileName : Option Bytes) (header : SectionHeader) : SectionRuleOutcome :=
  ((firstMatch glob rules sectionName fileName).map (·.outcome)).getD (defaultOutcome p sectionName header)

/-- The rule is filed where a section of this name is looked up. -/
def SectionRule.filedUnder (hashBytes : Bytes → UInt64) (r : SectionRule Pattern) (sectionName : Bytes) : Bool :=
  sectionNamePrefixHash hashBytes sectionName = some (r.hash hashBytes)

/-- The first matching rule of those that are filed under the name. -/
def firstFiled (glob : Glob Pattern) (hashBytes : Bytes → UInt64) (rules : List (SectionRule Pattern))
    (sectionName : Bytes) (fileName : Option Bytes) : Option (SectionRule Pattern) :=
  rules.find? fun r => r.filedUnder hashBytes sectionName && r.isMatch glob sectionName fileName

/-- When the lookup answers as the first match: the first rule that matches is filed under the name, or does not
    say anything else than what decides in its place. -/
inductive LooksUpFirst (p : PlatformSections) (glob : Glob Pattern) (hashBytes : Bytes → UInt64)
    (rules : List (SectionRule Pattern)) (sectionName : Bytes) (fileName : Option Bytes) (header : SectionHeader) :
    Prop where
  | noMatch (hfirst : firstMatch glob rules sectionName fileName = none)
  | filed (rule : SectionRule Pattern) (hfirst : firstMatch glob rules sectionName fileName = some rule)
      (hheader : header.isDiscarded = false) (hfiled : rule.filedUnder hashBytes sectionName = true)
  | discarded (rule : SectionRule Pattern) (hfirst : firstMatch glob rules sectionName fileName = some rule)
      (hheader : header.isDiscarded = true) (houtcome : rule.outcome = .discard)
  | replaced (rule other : SectionRule Pattern) (hfirst : firstMatch glob rules sectionName fileName = some rule)
      (hheader : header.isDiscarded = false)
      (hother : firstFiled glob hashBytes rules sectionName fileName = some other)
      (houtcome : rule.outcome = other.outcome)
  | defaulted (rule : SectionRule Pattern) (hfirst : firstMatch glob rules sectionName fileName = some rule)
      (hheader : header.isDiscarded = false)
      (hother : firstFiled glob hashBytes rules sectionName fileName = none)
      (houtcome : rule.outcome = defaultOutcome p sectionName header)

section Lookup

variable {p : PlatformSections} {glob : Glob Pattern} {hashBytes : Bytes → UInt64} {rules : List (SectionRule Pattern)}
  {sectionName : Bytes} {fileName : Option Bytes} {header : SectionHeader}

/-- The table finds the first matching rule among those filed under the name. -/
theorem findRule_fromRules :
    (SectionRules.fromRules hashBytes rules).findRule glob hashBytes sectionName fileName =
      firstFiled glob hashBytes rules sectionName fileName := by
  unfold SectionRules.findRule SectionRules.fromRules firstFiled SectionRule.filedUnder
  cases hhash : sectionNamePrefixHash hashBytes sectionName with
  | none => exact (List.find?_eq_none.2 fun _ _ => by simp).symm
  | some hash =>
    rw [Option.bind_some, HashTable.find_ofList]
    simp [eq_comm]

/-- The lookup: what a discarded section gets, else the outcome of the first filed match, else the default. -/
theorem lookup_fromRules :
    (SectionRules.fromRules hashBytes rules).lookup p glob hashBytes sectionName fileName header =
      if header.isDiscarded then .discard
      else ((firstFiled glob hashBytes rules sectionName fileName).map (·.outcome)).getD
        (defaultOutcome p sectionName header) := by
  unfold SectionRules.lookup defaultOutcome SectionHeader.isDiscarded
  rw [findRule_fromRules]
  cases header.shouldExclude with
  | true => simp
  | false =>
    cases header.isDependentLibraries with
    | true => simp
    | false => cases firstFiled glob hashBytes rules sectionName fileName <;> simp

/-- **The lookup of a section is that of the first matching rule exactly if `LooksUpFirst`.** -/
theorem lookup_eq_firstOutcome_iff :
    (SectionRules.fromRules hashBytes rules).lookup p glob hashBytes sectionName fileName header =
        firstOutcome p glob rules sectionName fileName header ↔
      LooksUpFirst p glob hashBytes rules sectionName fileName header := by
  rw [lookup_fromRules]
  unfold firstOutcome
  cases hfirst : firstMatch glob rules sectionName fileName with
  | none =>
    -- No rule matches, so none of the filed ones does.
    have hnone : firstFiled glob hashBytes rules sectionName fileName = none := find?_filed_eq_none hfirst
    refine iff_of_true ?_ (.noMatch hfirst)
    rw [hnone]
    cases hheader : header.isDiscarded <;> simp [defaultOutcome, hheader]
  | some rule =>
    cases hheader : header.isDiscarded with
    | true =>
      constructor
      · intro h
        exact .discarded rule hfirst hheader h.symm
      · intro h
        cases h <;> simp_all
    | false =>
      simp only [Bool.false_eq_true, if_false, Option.map_some, Option.getD_some]
      constructor
      · intro h
        cases hother : firstFiled glob hashBytes rules sectionName fileName with
        | none =>
          rw [hother] at h
          exact .defaulted rule hfirst hheader hother h.symm
        | some other =>
          rw [hother] at h
          exact .replaced rule other hfirst hheader hother h.symm
      · intro h
        cases h with
        | noMatch hnone => simp [hfirst] at hnone
        | filed rule' hfirst' _ hfiled =>
          cases hfirst.symm.trans hfirst'
          have hfound : firstFiled glob hashBytes rules sectionName fileName = some rule := find?_filed hfirst hfiled
          rw [hfound, Option.map_some, Option.getD_some]
        | discarded _ _ hdiscarded => simp [hheader] at hdiscarded
        | replaced rule' other hfirst' _ hother houtcome =>
          cases hfirst.symm.trans hfirst'
          rw [hother, Option.map_some, Option.getD_some, houtcome]
        | defaulted rule' hfirst' _ hother houtcome =>
          cases hfirst.symm.trans hfirst'
          rw [hother, houtcome]
          rfl

end Lookup

/-! ## A wildcard in the key -/

/-- The bytes as the digits of a number. -/
def numberOfBytes (bytes : Bytes) : UInt64 := bytes.foldl (fun n b => n * 256 + b.toUInt64) 0

/-- An ordinary section with code. -/
def codeHeader : SectionHeader := ⟨false, false, true, true, false, true, false, false⟩

/-- The ELF sections for sections without a name. -/
def elfSections : PlatformSections := ⟨some textSection, some 42, some dataSection, some 34, some 43, some bssSection⟩

/-- A rule for `.t*` is filed under the hash of `.t*` and is not found for `.text`, which it matches. -/
theorem glob_not_found : ∃ rule : SectionRule (List Char),
    SectionRule.new starGlob (bytesOf ".t*") none (.section (.regular textSection)) = .ok rule ∧
      firstOutcome elfSections starGlob [rule] (bytesOf ".text") none codeHeader = .section (.regular textSection) ∧
      (SectionRules.fromRules numberOfBytes [rule]).lookup elfSections starGlob numberOfBytes (bytesOf ".text") none
        codeHeader = .custom := by
  refine ⟨⟨.glob (bytesOf ".t*") ".t*".toList, none, .section (.regular textSection)⟩, ?_, ?_, ?_⟩
  · rfl
  · decide +kernel
  · decide +kernel

end Reld.LayoutRules
