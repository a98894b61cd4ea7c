import Reld.Input.VersionScript

/-!
# `Input.FindMatch` — the version that decides about a name

`find_match` goes over the versions four times: forwards for exact patterns, then backwards for globs without a `*`,
for globs with one and for `*` itself. `Prescribes` is the rule that such passes follow, for any sequence of kinds of
patterns, and `findMatch_prescribes` says which one it is. The rule that globs with and without a `*` are one kind, and
that a version's exact patterns are too, is another one (`findMatch_not_cited`).
-/

namespace Reld.VersionScripts

variable {Pattern : Type*}

/-! ## What a version says about a name -/

/-- Whether one of the exact names is the name, or what it stands for in C++. -/
def BasicMatchRules.hasExact (l : Lookup Pattern) (name : Bytes) (mangled : Bool) (r : BasicMatchRules Pattern) :
    Bool :=
  (if mangled then (l.getDemangledName name).map bytesOfString else some name).any fun b =>
    r.exact.contains b || r.escapedExact.contains b

/-- Whether one of the globs, those with a `*` or those without, matches the name. -/
def BasicMatchRules.hasGlob (l : Lookup Pattern) (name : Bytes) (nonStar mangled : Bool)
    (r : BasicMatchRules Pattern) : Bool :=
  (if mangled then l.getDemangledName name else getNameString name).any fun text =>
    (if nonStar then r.nonstarGlobs else r.starGlobs).any fun pattern => l.glob.accepts pattern text

def MatchRules.hasGlob (l : Lookup Pattern) (name : Bytes) (nonStar : Bool) (r : MatchRules Pattern) : Bool :=
  r.general.hasGlob l name nonStar false || r.cxx.hasGlob l name nonStar true

/-- The section of a version whose rules have a property, the global ones first. -/
def Version.sectionOf (has : MatchRules Pattern → Bool) (version : Version Pattern) : Option VersionRuleSection :=
  if has version.versionBody.globals then some .global
  else if has version.versionBody.locals then some .local_
  else none

/-- The section with an exact pattern; C++ names come after all others. -/
def exactSection (l : Lookup Pattern) (name : Bytes) (version : Version Pattern) : Option VersionRuleSection :=
  (version.sectionOf fun r => r.general.hasExact l name false).or
    (version.sectionOf fun r => r.cxx.hasExact l name true)

def globSection (l : Lookup Pattern) (name : Bytes) (nonStar : Bool) (version : Version Pattern) :
    Option VersionRuleSection :=
  version.sectionOf fun r => r.hasGlob l name nonStar

def allSection (version : Version Pattern) : Option VersionRuleSection :=
  version.sectionOf fun r => r.general.matchesAll || r.cxx.matchesAll

/-! ## Rules of precedence -/

namespace RegularVersionScript

variable (s : RegularVersionScript Pattern) (ruleOf : Version Pattern → Option VersionRuleSection)

/-- Version `i` is the first one that says something, and it says `found`. -/
def FirstWith (i : Nat) (found : VersionRuleSection) : Prop :=
  (∃ v, s.versions[i]? = some v ∧ ruleOf v = some found) ∧ ∀ j v, s.versions[j]? = some v → j < i → ruleOf v = none

/-- Version `i` is the last one that says something. -/
def LastWith (i : Nat) (found : VersionRuleSection) : Prop :=
  (∃ v, s.versions[i]? = some v ∧ ruleOf v = some found) ∧ ∀ j v, s.versions[j]? = some v → i < j → ruleOf v = none

def NoneWith : Prop := ∀ v ∈ s.versions, ruleOf v = none

/-- The last version with a pattern of the first kind of which there is one. -/
def LastOf : List (Version Pattern → Option VersionRuleSection) → Option (Nat × VersionRuleSection) → Prop
  | [], found => found = none
  | ruleOf :: kinds, found =>
    (∃ rule, found = some rule ∧ s.LastWith ruleOf rule.1 rule.2) ∨ (s.NoneWith ruleOf ∧ LastOf kinds found)

/-- The first version with an exact pattern, and if there is none the last version with a wildcard, the kinds of
    wildcards one after the other. -/
def Prescribes (wildcards : List (Version Pattern → Option VersionRuleSection))
    (found : Option (Nat × VersionRuleSection)) : Prop :=
  (∃ rule, found = some rule ∧ s.FirstWith ruleOf rule.1 rule.2) ∨ (s.NoneWith ruleOf ∧ s.LastOf wildcards found)

end RegularVersionScript

/-! ## Questions that may panic -/

/-- What was asked has the answer, or panicked because the name is not UTF-8. -/
def Agrees {α : Type*} (text : Option String) (asked : Option α) (answer : α) : Prop :=
  asked = some answer ∨ (asked = none ∧ text = none)

section Agrees

variable {text : Option String} {α β : Type}

theorem Agrees.bind {asked : Option α} {answer : α} {f : α → Option β} {b : β} (h : Agrees text asked answer)
    (hf : Agrees text (f answer) b) : Agrees text (asked >>= f) b := by
  rcases h with rfl | ⟨rfl, htext⟩
  · exact hf
  · exact Or.inr ⟨rfl, htext⟩

/-- One question after the other, until one is answered with yes. -/
theorem Agrees.orElse {first second : Option Bool} {a b : Bool} (h : Agrees text first a) (h' : Agrees text second b) :
    Agrees text (do if ← first then return true else second) (a || b) := by
  refine h.bind ?_
  cases a with
  | true => exact Or.inl rfl
  | false => exact h'

/-- One pass after the other, until one finds something. -/
theorem Agrees.orNext {first : Option (Option α)} {next : Option α → Option (Option α)} {a b : Option α}
    (h : Agrees text first a) (hfound : ∀ found, next (some found) = some (some found))
    (h' : Agrees text (next none) b) : Agrees text (first >>= next) (a.or b) := by
  refine h.bind ?_
  cases a with
  | some found => exact Or.inl (hfound found)
  | none => exact h'

/-- A pass that asks about the global rules first. -/
theorem Agrees.sectionOf {asked asked' : Option Bool} {a b : Bool} {next : Option (Option β)} {found : Option β}
    {global local_ : β} (h : Agrees text asked a) (h' : Agrees text asked' b) (hnext : Agrees text next found) :
    Agrees text (do if ← asked then return some global else if ← asked' then return some local_ else next)
      ((if a then some global else if b then some local_ else none).or found) := by
  refine h.bind ?_
  cases a with
  | true => exact Or.inl rfl
  | false =>
    refine h'.bind ?_
    cases b with
    | true => exact Or.inl rfl
    | false => exact hnext

theorem agrees_askIfAny {Pattern : Type*} {patterns : List Pattern} {subject : Option β} {accepts : β → Bool}
    (htext : subject = none → text = none) (hempty : patterns = [] → ∀ x, accepts x = false) :
    Agrees text (askIfAny patterns subject accepts) (subject.any accepts) := by
  cases patterns with
  | nil =>
    cases subject with
    | none => exact Or.inl rfl
    | some x => exact Or.inl (congrArg some (hempty rfl x).symm)
  | cons p patterns =>
    cases subject with
    | none => exact Or.inr ⟨rfl, htext rfl⟩
    | some x => exact Or.inl rfl

theorem agrees_firstResult {Version : Type*} {f : Version → Option (Option β)} {g : Version → Option β} (h : ∀ a, Agrees text (f a) (g a))
    (xs : List Version) : Agrees text (firstResult f xs) (xs.findSome? g) := by
  induction xs with
  | nil => exact Or.inl rfl
  | cons a xs ih =>
    refine (h a).bind ?_
    rw [List.findSome?_cons]
    cases g a with
    | none => exact ih
    | some b => exact Or.inl rfl

end Agrees

section Passes

variable (l : Lookup Pattern) (name : Bytes)

theorem getDemangledName_none (h : l.getDemangledName name = none) : getNameString name = none :=
  Option.map_eq_none_iff.mp h

theorem agrees_matchesExact (r : BasicMatchRules Pattern) (mangled : Bool) :
    Agrees (getNameString name) (r.matchesExact l name mangled) (r.hasExact l name mangled) := by
  have hsubject : (if mangled then (l.getDemangledName name).map bytesOfString else some name) = none →
      getNameString name = none := by
    cases mangled with
    | true => exact fun h => getDemangledName_none l name (Option.map_eq_none_iff.mp h)
    | false => exact fun h => nomatch h
  have hask (set : List Bytes) : Agrees (getNameString name)
      (askIfAny set (if mangled then (l.getDemangledName name).map bytesOfString else some name) (· ∈ set))
      ((if mangled then (l.getDemangledName name).map bytesOfString else some name).any (· ∈ set)) :=
    agrees_askIfAny hsubject (fun h x => by simp [h])
  have hboth := (hask r.exact).orElse (hask r.escapedExact)
  unfold BasicMatchRules.hasExact
  have hany : (if mangled then (l.getDemangledName name).map bytesOfString else some name).any
      (fun b => r.exact.contains b || r.escapedExact.contains b) =
      ((if mangled then (l.getDemangledName name).map bytesOfString else some name).any (fun b => decide (b ∈ r.exact)) ||
        (if mangled then (l.getDemangledName name).map bytesOfString else some name).any
          (fun b => decide (b ∈ r.escapedExact))) := by
    cases (if mangled then (l.getDemangledName name).map bytesOfString else some name) with
    | none => rfl
    | some b => simp
  rw [hany]
  exact hboth

theorem agrees_matchesGlob (r : BasicMatchRules Pattern) (nonStar mangled : Bool) :
    Agrees (getNameString name) (r.matchesGlob l name nonStar mangled) (r.hasGlob l name nonStar mangled) := by
  refine agrees_askIfAny ?_ (fun h x => by rw [h]; rfl)
  cases mangled with
  | true => exact getDemangledName_none l name
  | false => exact id

theorem agrees_exactIn (version : Nat × Version Pattern) :
    Agrees (getNameString name) (exactIn l name version)
      ((exactSection l name version.2).map fun found => (version.1, found)) := by
  have h : Agrees (getNameString name) (exactIn l name version) _ :=
    (agrees_matchesExact l name version.2.versionBody.globals.general false).sectionOf
      (agrees_matchesExact l name version.2.versionBody.locals.general false)
      ((agrees_matchesExact l name version.2.versionBody.globals.cxx true).sectionOf
        (agrees_matchesExact l name version.2.versionBody.locals.cxx true) (Or.inl rfl))
  convert h using 1
  unfold exactSection Version.sectionOf
  split_ifs <;> rfl

theorem agrees_hasGlob (r : MatchRules Pattern) (nonStar : Bool) :
    Agrees (getNameString name) (r.matchesGlob l name nonStar) (r.hasGlob l name nonStar) :=
  (agrees_matchesGlob l name r.general nonStar false).orElse (agrees_matchesGlob l name r.cxx nonStar true)

theorem agrees_globIn (nonStar : Bool) (version : Nat × Version Pattern) :
    Agrees (getNameString name) (globIn l name nonStar version)
      ((globSection l name nonStar version.2).map fun found => (version.1, found)) := by
  have h : Agrees (getNameString name) (globIn l name nonStar version) _ :=
    (agrees_hasGlob l name version.2.versionBody.globals nonStar).sectionOf
      (agrees_hasGlob l name version.2.versionBody.locals nonStar) (Or.inl rfl)
  convert h using 1
  unfold globSection Version.sectionOf
  split_ifs <;> rfl

theorem allIn_eq (version : Nat × Version Pattern) :
    allIn version = some ((allSection version.2).map fun found => (version.1, found)) := by
  unfold allIn allSection Version.sectionOf
  simp only
  split_ifs <;> rfl

end Passes

/-! ## The four passes -/

namespace RegularVersionScript

variable {s : RegularVersionScript Pattern} {ruleOf : Version Pattern → Option VersionRuleSection}

/-- A version in its place. -/
theorem enumerated_split {front behind : List (Nat × Version Pattern)} {version : Nat × Version Pattern}
    (h : s.enumerated = front ++ version :: behind) :
    s.versions[version.1]? = some version.2 ∧
    (∀ j v, s.versions[j]? = some v → j < version.1 → (j, v) ∈ front) ∧
    ∀ j v, s.versions[j]? = some v → version.1 < j → (j, v) ∈ behind := by
  have hget (j : Nat) : (front ++ version :: behind)[j]? = (s.versions[j]?).map fun v => (j, v) := by
    rw [← h, enumerated, List.getElem?_mapIdx]
  have hplace := hget front.length
  rw [List.getElem?_append_right (Nat.le_refl _), Nat.sub_self] at hplace
  obtain ⟨v, hv, hversion⟩ := Option.map_eq_some_iff.mp hplace.symm
  obtain rfl : (front.length, v) = version := hversion
  refine ⟨hv, fun j w hw hj => ?_, fun j w hw hj => ?_⟩
  · have := hget j
    rw [List.getElem?_append_left hj, hw] at this
    exact List.mem_of_getElem? this
  · have := hget j
    rw [List.getElem?_append_right (Nat.le_of_lt hj), hw] at this
    obtain ⟨k, hk⟩ := Nat.exists_eq_succ_of_ne_zero (Nat.sub_ne_zero_of_lt hj)
    rw [hk, List.getElem?_cons_succ] at this
    exact List.mem_of_getElem? this

theorem noneWith_of_findSome? {versions : List (Nat × Version Pattern)} (hperm : s.enumerated ⊆ versions)
    (h : versions.findSome? (fun version => (ruleOf version.2).map fun found => (version.1, found)) = none) :
    s.NoneWith ruleOf := by
  intro v hv
  obtain ⟨i, hi⟩ := List.getElem?_of_mem hv
  have hmem : (i, v) ∈ s.enumerated := by
    have hget : s.enumerated[i]? = some (i, v) := by
      rw [enumerated, List.getElem?_mapIdx, hi]
      rfl
    exact List.mem_of_getElem? hget
  exact Option.map_eq_none_iff.mp (List.findSome?_eq_none_iff.mp h (i, v) (hperm hmem))

theorem firstWith_of_findSome? {rule : Nat × VersionRuleSection}
    (h : s.enumerated.findSome? (fun version => (ruleOf version.2).map fun found => (version.1, found)) = some rule) :
    s.FirstWith ruleOf rule.1 rule.2 := by
  obtain ⟨front, version, behind, hsplit, hsays, hnone⟩ := List.findSome?_eq_some_iff.mp h
  obtain ⟨hversion, hfront, _⟩ := enumerated_split hsplit
  obtain ⟨found, hfound, rfl⟩ := Option.map_eq_some_iff.mp hsays
  exact ⟨⟨_, hversion, hfound⟩, fun j v hv hj => Option.map_eq_none_iff.mp (hnone _ (hfront j v hv hj))⟩

theorem lastWith_of_findSome? {rule : Nat × VersionRuleSection}
    (h : s.enumerated.reverse.findSome? (fun version => (ruleOf version.2).map fun found => (version.1, found))
      = some rule) : s.LastWith ruleOf rule.1 rule.2 := by
  obtain ⟨behind, version, front, hsplit, hsays, hnone⟩ := List.findSome?_eq_some_iff.mp h
  have hsplit' : s.enumerated = front.reverse ++ version :: behind.reverse := by
    rw [← List.reverse_reverse s.enumerated, hsplit]
    simp
  obtain ⟨hversion, _, hbehind⟩ := enumerated_split hsplit'
  obtain ⟨found, hfound, rfl⟩ := Option.map_eq_some_iff.mp hsays
  exact ⟨⟨_, hversion, hfound⟩, fun j v hv hj =>
    Option.map_eq_none_iff.mp (hnone _ (List.mem_reverse.mp (hbehind j v hv hj)))⟩

/-- One of the backward passes, and what comes after it. -/
theorem lastOf_step {kinds : List (Version Pattern → Option VersionRuleSection)}
    {next : Option (Nat × VersionRuleSection)} (hnext : s.LastOf kinds next) :
    s.LastOf (ruleOf :: kinds)
      ((s.enumerated.reverse.findSome? fun version => (ruleOf version.2).map fun found => (version.1, found)).or next) := by
  cases h : s.enumerated.reverse.findSome? fun version => (ruleOf version.2).map fun found => (version.1, found) with
  | none => exact Or.inr ⟨noneWith_of_findSome? (fun v hv => List.mem_reverse.mpr hv) h, hnext⟩
  | some rule => exact Or.inl ⟨rule, rfl, lastWith_of_findSome? h⟩

/-- **What `find_match` finds** is what the first exact pattern says, and if there is none the last glob without a `*`,
    then the last one with a `*`, then the last `*`. It panics at no name that is UTF-8. -/
theorem findMatch_prescribes (l : Lookup Pattern) (s : RegularVersionScript Pattern) (name : Bytes) :
    (∀ found, s.findMatch l name = some found →
      s.Prescribes (exactSection l name) [globSection l name true, globSection l name false, allSection] found) ∧
    (s.findMatch l name = none → getNameString name = none) := by
  -- the four passes, each as if no question could panic
  have hpasses : Agrees (getNameString name) (s.findMatch l name)
      ((s.enumerated.findSome? fun v => (exactSection l name v.2).map fun found => (v.1, found)).or
        ((s.enumerated.reverse.findSome? fun v => (globSection l name true v.2).map fun found => (v.1, found)).or
          ((s.enumerated.reverse.findSome? fun v => (globSection l name false v.2).map fun found => (v.1, found)).or
            ((s.enumerated.reverse.findSome? fun v => (allSection v.2).map fun found => (v.1, found)).or none)))) := by
    refine (agrees_firstResult (agrees_exactIn l name) _).orNext (fun _ => rfl) ?_
    refine (agrees_firstResult (agrees_globIn l name true) _).orNext (fun _ => rfl) ?_
    refine (agrees_firstResult (agrees_globIn l name false) _).orNext (fun _ => rfl) ?_
    rw [Option.or_none]
    exact agrees_firstResult (fun v => Or.inl (allIn_eq v)) _
  rcases hpasses with h | ⟨h, htext⟩
  · refine ⟨fun found hfound => ?_, fun hnone => absurd (h.symm.trans hnone) (Option.some_ne_none _)⟩
    obtain rfl := Option.some.inj (h.symm.trans hfound)
    have hlast : s.LastOf [globSection l name true, globSection l name false, allSection] _ :=
      lastOf_step (lastOf_step (lastOf_step (show s.LastOf [] none from rfl)))
    cases hexact : s.enumerated.findSome? fun v => (exactSection l name v.2).map fun found => (v.1, found) with
    | none => exact Or.inr ⟨noneWith_of_findSome? (fun v hv => hv) hexact, hlast⟩
    | some rule => exact Or.inl ⟨rule, rfl, firstWith_of_findSome? hexact⟩
  · exact ⟨fun found hfound => absurd (hfound.symm.trans h) (Option.some_ne_none _), fun _ => htext⟩

end RegularVersionScript

/-! ## Two other rules -/

/-- Matching of patterns whose wildcards are `*` and `?`. -/
def wildcardAccepts : List Char → List Char → Bool
  | [], s => s.isEmpty
  | '*' :: pattern, s => s.tails.any (wildcardAccepts pattern ·)
  | '?' :: pattern, _ :: s => wildcardAccepts pattern s
  | c :: pattern, d :: s => c = d && wildcardAccepts pattern s
  | _ :: _, [] => false

/-- A glob crate for such patterns, and a demangler for one name. -/
def wildcardLookup : Lookup (List Char) where
  glob := ⟨fun pattern => some pattern.toList, fun pattern s => wildcardAccepts pattern s.toList⟩
  demangle := fun s => if s = "_Z3foo" then some "foo" else none

/-- `fo?` in one version and `f*` in a later one. -/
def overlappingGlobs : RegularVersionScript (List Char) where
  versions :=
    [ { versionBody := { globals := ({} : MatchRules _).push (.single (.nonstarGlob "fo?".toList)) } },
      { versionBody := { globals := ({} : MatchRules _).push (.single (.starGlob "f*".toList)) } } ]

/-- A C++ name and the mangled one, in one version. -/
def mangledAndLocal : RegularVersionScript (List Char) where
  versions :=
    [ { versionBody :=
          { globals := ({} : MatchRules _).push (.cxxMatchers [.exact (bytesOf "foo")])
            locals := ({} : MatchRules _).push (.single (.exact (bytesOf "_Z3foo"))) } } ]

/-- A rule with one kind of wildcards besides `*`, and with global patterns before local ones whatever kind they are
    of, is another one. -/
theorem findMatch_not_cited :
    (analyzeGlobPattern (bytesOf "fo?") = .nonStar ∧ analyzeGlobPattern (bytesOf "f*") = .star ∧
      overlappingGlobs.findMatch wildcardLookup (bytesOf "foo") = some (some (0, .global)) ∧
      ¬overlappingGlobs.Prescribes (exactSection wildcardLookup (bytesOf "foo"))
        [Version.sectionOf fun r =>
            r.hasGlob wildcardLookup (bytesOf "foo") true || r.hasGlob wildcardLookup (bytesOf "foo") false,
          allSection] (some (0, .global))) ∧
    (mangledAndLocal.findMatch wildcardLookup (bytesOf "_Z3foo") = some (some (0, .local_)) ∧
      ¬∃ wildcards, mangledAndLocal.Prescribes
        (Version.sectionOf fun r => r.general.hasExact wildcardLookup (bytesOf "_Z3foo") false ||
          r.cxx.hasExact wildcardLookup (bytesOf "_Z3foo") true) wildcards (some (0, .local_))) := by
  refine ⟨⟨by decide, by decide, by decide +kernel, ?_⟩, by decide +kernel, ?_⟩
  · -- `f*` is in a later version
    rintro (⟨rule, hrule, ⟨⟨v, hv, hsays⟩, _⟩⟩ | ⟨_, (⟨rule, hrule, ⟨_, hlast⟩⟩ | ⟨hnone, _⟩)⟩)
    · obtain rfl := Option.some.inj hrule
      obtain rfl := Option.some.inj hv
      exact absurd hsays (by decide +kernel)
    · obtain rfl := Option.some.inj hrule
      exact absurd (hlast 1 _ rfl Nat.zero_lt_one) (by decide +kernel)
    · exact absurd (hnone _ List.mem_cons_self) (by decide +kernel)
  · -- the C++ name is global
    rintro ⟨wildcards, (⟨rule, hrule, ⟨⟨v, hv, hsays⟩, _⟩⟩ | ⟨hnone, _⟩)⟩
    · obtain rfl := Option.some.inj hrule
      obtain rfl := Option.some.inj hv
      exact absurd hsays (by decide +kernel)
    · exact absurd (hnone _ List.mem_cons_self) (by decide +kernel)

end Reld.VersionScripts
