import Mathlib.Data.List.Basic
import Mathlib.Algebra.Group.Nat.Defs

/-!
# `Elf.Symbol` — symbols: names and versions, flags, entries

A symbol name in an ELF file may carry a version: `foo@1.1` or `foo@@2.0`, where the double `@` marks the
default version, which can also be referred to without one. The database keeps versioned and unversioned
names in separate maps, so a lookup key is one or the other.
-/

namespace Reld

/-- A byte string of the input. -/
abbrev Bytes := List UInt8

/-- The bytes of an ASCII literal. -/
def bytesOf (s : String) : Bytes := s.toList.map (fun c => UInt8.ofNat c.toNat)

/-- The byte `@`. -/
def atSign : UInt8 := 64

/-- A symbol name as read from a file. -/
structure RawSymbolName where
  name : Bytes
  versionName : Option Bytes
  /-- Whether the symbol can be referred to without a version. -/
  isDefault : Bool
deriving DecidableEq

/-- `RawSymbolName::parse`: split at the first `@`. -/
def RawSymbolName.parse (nameBytes : Bytes) : RawSymbolName :=
  let name := nameBytes.takeWhile (· ≠ atSign)
  match nameBytes.dropWhile (· ≠ atSign) with
  | [] => { name := nameBytes, versionName := none, isDefault := true }
  | _ :: rest =>
    if rest.head? = some atSign then
      { name := name, versionName := some rest.tail, isDefault := true }
    else { name := name, versionName := some rest, isDefault := false }

/-- A name to look up. -/
inductive PreHashedSymbolName where
  | unversioned (name : Bytes)
  | versioned (name : Bytes) (version : Bytes)
deriving DecidableEq

/-- `PreHashedSymbolName::from_raw`. -/
def PreHashedSymbolName.fromRaw (nameInfo : RawSymbolName) : PreHashedSymbolName :=
  match nameInfo.versionName with
  | some version => .versioned nameInfo.name version
  | none => .unversioned nameInfo.name

example : RawSymbolName.parse (bytesOf "foo@@2") = ⟨bytesOf "foo", some (bytesOf "2"), true⟩ := by decide

end Reld

/-!
# `ValueFlags`

The flags of a symbol, as a set. The link phases modelled here only ever add flags, with one exception
(the Rust version script), so the lemmas are about membership after `union` and `remove`.
-/

namespace Reld

/-- The bits of `ValueFlags`. -/
inductive Flag where
  | absolute
  | dynamic
  | ifunc
  | nonInterposable
  | downgradeToLocal
  | function
  | direct
  | got
  | plt
  | gotTlsModule
  | gotTlsOffset
  | gotTlsDescriptor
  | exportDynamic
  | copyRelocation
  | ifuncGotForAddress
  | hasRangeLimitedRel
  | hasNonIrRef
deriving DecidableEq, Repr

/-- A set of flags. -/
def ValueFlags := Flag → Bool

namespace ValueFlags

def empty : ValueFlags := fun _ => false

/-- The set with the flags of `l`. -/
def ofList (l : List Flag) : ValueFlags := fun x => decide (x ∈ l)

def contains (f : ValueFlags) (x : Flag) : Bool := f x

def union (f g : ValueFlags) : ValueFlags := fun x => f x || g x

def remove (f g : ValueFlags) : ValueFlags := fun x => f x && !g x

@[simp] theorem contains_empty (x : Flag) : empty.contains x = false := rfl

@[simp] theorem contains_ofList (l : List Flag) (x : Flag) : (ofList l).contains x = decide (x ∈ l) := rfl

@[simp] theorem contains_union (f g : ValueFlags) (x : Flag) :
    (f.union g).contains x = (f.contains x || g.contains x) := rfl

@[simp] theorem contains_remove (f g : ValueFlags) (x : Flag) :
    (f.remove g).contains x = (f.contains x && !g.contains x) := rfl

/-- The flags of a definition, seen from a reference with flags of its own. -/
def merge (f other : ValueFlags) : ValueFlags :=
  if other.contains .nonInterposable then f.union (ofList [.nonInterposable]) else f

def isDynamic (f : ValueFlags) : Bool := f.contains .dynamic
def isIfunc (f : ValueFlags) : Bool := f.contains .ifunc
def isAbsolute (f : ValueFlags) : Bool := f.contains .absolute
def isInterposable (f : ValueFlags) : Bool := !f.contains .nonInterposable
def needsExportDynamic (f : ValueFlags) : Bool := f.contains .exportDynamic
def isDowngradedToLocal (f : ValueFlags) : Bool := f.contains .downgradeToLocal
def needsGot (f : ValueFlags) : Bool := f.contains .got
def needsPlt (f : ValueFlags) : Bool := f.contains .plt
def needsCopyRelocation (f : ValueFlags) : Bool := f.contains .copyRelocation
def needsGotTlsOffset (f : ValueFlags) : Bool := f.contains .gotTlsOffset
def needsGotTlsModule (f : ValueFlags) : Bool := f.contains .gotTlsModule
def needsGotTlsDescriptor (f : ValueFlags) : Bool := f.contains .gotTlsDescriptor

/-- `has_resolution`: whether any of the `resolution_flags` is there. -/
def hasResolution (f : ValueFlags) : Bool :=
  [.direct, .got, .plt, .gotTlsModule, .gotTlsOffset, .gotTlsDescriptor, .exportDynamic, .copyRelocation,
    .ifuncGotForAddress].any f.contains

/-- An address that is known when linking. -/
def isAddress (f : ValueFlags) : Bool := !f.contains .ifunc && !f.contains .dynamic && !f.contains .absolute

end ValueFlags

end Reld

/-!
# Symbol table entries

What the linker reads of an ELF symbol, and the binding strength that alternative selection compares.
-/

namespace Reld

/-- `Visibility`, in its order. -/
inductive Visibility where
  | default
  | «protected»
  | hidden
deriving DecidableEq

namespace Visibility

/-- The position in the derived order. -/
def rank : Visibility → Nat
  | .default => 0
  | .«protected» => 1
  | .hidden => 2

/-- The derived `Ord::max`. -/
def max (a b : Visibility) : Visibility := if a.rank ≤ b.rank then b else a

end Visibility

/-- The `st_other` visibility of a symbol. -/
inductive StVisibility where
  | stvDefault
  | stvInternal
  | stvHidden
  | stvProtected
deriving DecidableEq

/-- `convert_elf_visibility`. -/
def convertElfVisibility : StVisibility → Visibility
  | .stvProtected => .«protected»
  | .stvHidden => .hidden
  | _ => .default

/-- The `st_bind` values that are told apart. -/
inductive StBind where
  | stbLocal
  | stbGlobal
  | stbWeak
  | stbGnuUnique
deriving DecidableEq

/-- The `st_type` values that are told apart. -/
inductive StType where
  | func
  | gnuIfunc
  | tls
  | other
deriving DecidableEq

/-- The `st_shndx` of a symbol. -/
inductive Shndx where
  | undef
  | abs
  | common
  | section (index : Nat)
  /-- An index from `SHN_LORESERVE` on without a meaning of its own. -/
  | reserved (value : Nat)
deriving DecidableEq

/-- A symbol table entry. `name` is `none` where the string table cannot be read at its offset. -/
structure SymtabEntry where
  name : Option Bytes
  bind : StBind := .stbGlobal
  type : StType := .other
  visibility : StVisibility := .stvDefault
  shndx : Shndx := .section 1
  value : Nat := 0
  size : Nat := 0
deriving DecidableEq

namespace SymtabEntry

def isUndefined (s : SymtabEntry) : Bool := s.shndx = .undef
def isAbsolute (s : SymtabEntry) : Bool := s.shndx = .abs
def isLocal (s : SymtabEntry) : Bool := s.bind = .stbLocal
def isWeak (s : SymtabEntry) : Bool := s.bind = .stbWeak
def isGnuUnique (s : SymtabEntry) : Bool := s.bind = .stbGnuUnique
def isFunc (s : SymtabEntry) : Bool := s.type = .func
def isIfunc (s : SymtabEntry) : Bool := s.type = .gnuIfunc
def isTls (s : SymtabEntry) : Bool := s.type = .tls
def isHidden (s : SymtabEntry) : Bool := s.visibility = .stvHidden
def isInterposable (s : SymtabEntry) : Bool := s.visibility = .stvDefault

/-- `Alignment::new` accepts the powers of two up to `2 ^ 16`. -/
def isAlignment (raw : Nat) : Bool := (List.range 17).any (fun e => raw = 2 ^ e)

/-- `as_common().is_some()`: the value of a common symbol is its alignment. -/
def isCommon (s : SymtabEntry) : Bool := s.shndx = .common && isAlignment s.value

end SymtabEntry

/-- `SymbolStrength`. -/
inductive SymbolStrength where
  | undefined
  | weak
  | gnuUnique
  | strong
  | common (size : Nat)
deriving DecidableEq

/-- `SymbolStrength::of`. -/
def SymbolStrength.of (s : SymtabEntry) : SymbolStrength :=
  if s.isWeak then .weak
  else if s.isCommon then .common s.size
  else if s.isGnuUnique then .gnuUnique
  else .strong

theorem SymbolStrength.of_ne_undefined (s : SymtabEntry) : SymbolStrength.of s ≠ .undefined := by
  unfold SymbolStrength.of
  split_ifs <;> simp

end Reld

/-!
# `SymbolPrioritySelector`

Candidates are considered one after another, and the best one is the first strong definition, or else the
first of the largest common definitions, or else the first weak or unique one.
-/

namespace Reld

/-- `SymbolId`: the index of a symbol over all files. The symbol 0 is the undefined symbol. -/
abbrev SymbolId := Nat

/-- `SymbolPrioritySelector`. -/
structure SymbolPrioritySelector where
  firstStrong : Option SymbolId
  maxCommon : Option (Nat × SymbolId)
  firstWeak : Option SymbolId
deriving DecidableEq

namespace SymbolPrioritySelector

def new : SymbolPrioritySelector := { firstStrong := none, maxCommon := none, firstWeak := none }

/-- Consider a candidate symbol with the given strength. -/
def consider (s : SymbolPrioritySelector) (id : SymbolId) : SymbolStrength → SymbolPrioritySelector
  | .strong => if s.firstStrong.isNone then { s with firstStrong := some id } else s
  | .weak => if s.firstWeak.isNone then { s with firstWeak := some id } else s
  | .gnuUnique => if s.firstWeak.isNone then { s with firstWeak := some id } else s
  | .common size =>
    match s.maxCommon with
    | some (prevSize, _) => if size ≤ prevSize then s else { s with maxCommon := some (size, id) }
    | none => { s with maxCommon := some (size, id) }
  | .undefined => s

/-- The best candidate: strong, then common, then weak. -/
def best (s : SymbolPrioritySelector) : Option SymbolId :=
  (s.firstStrong.or (s.maxCommon.map Prod.snd)).or s.firstWeak

/-- Whether a symbol is in one of the slots. -/
def Holds (s : SymbolPrioritySelector) (c : SymbolId) : Prop :=
  s.firstStrong = some c ∨ (∃ size, s.maxCommon = some (size, c)) ∨ s.firstWeak = some c

theorem not_holds_new (c : SymbolId) : ¬new.Holds c := by
  rintro (h | ⟨_, h⟩ | h) <;> exact absurd h (by simp [new])

theorem holds_of_best {s : SymbolPrioritySelector} {c : SymbolId} (h : s.best = some c) : s.Holds c := by
  rcases Option.or_eq_some_iff.mp h with h | ⟨_, h⟩
  · rcases Option.or_eq_some_iff.mp h with h | ⟨_, h⟩
    · exact Or.inl h
    · obtain ⟨⟨size, _⟩, hslot, rfl⟩ := Option.map_eq_some_iff.mp h
      exact Or.inr (Or.inl ⟨size, hslot⟩)
  · exact Or.inr (Or.inr h)

/-- A new candidate can only replace what a slot holds by itself. -/
theorem holds_consider {s : SymbolPrioritySelector} {id c : SymbolId} {strength : SymbolStrength}
    (h : (s.consider id strength).Holds c) : s.Holds c ∨ c = id := by
  cases strength with
  | undefined => exact Or.inl h
  | strong =>
    simp only [consider] at h
    split_ifs at h
    · rcases h with h | h
      · exact Or.inr (Option.some.inj h).symm
      · exact Or.inl (Or.inr h)
    · exact Or.inl h
  | common size =>
    have hnew : Holds { s with maxCommon := some (size, id) } c → s.Holds c ∨ c = id := by
      rintro (h | ⟨_, h⟩ | h)
      · exact Or.inl (Or.inl h)
      · exact Or.inr (Prod.mk.inj (Option.some.inj h)).2.symm
      · exact Or.inl (Or.inr (Or.inr h))
    simp only [consider] at h
    split at h
    · split_ifs at h
      · exact Or.inl h
      · exact hnew h
    · exact hnew h
  | _ =>
    simp only [consider] at h
    split_ifs at h
    · rcases h with h | h | h
      · exact Or.inl (Or.inl h)
      · exact Or.inl (Or.inr (Or.inl h))
      · exact Or.inr (Option.some.inj h).symm
    · exact Or.inl h

end SymbolPrioritySelector

end Reld
