import Mathlib.Data.List.Sort
import Mathlib.Data.List.TakeWhile
import Reld.Lib.Interning
import Reld.Lib.Encodings
import Reld.Lib.Traverse
import Reld.Elf.Symbol

/-!
# `Elf.RiscVAttributes` — `.riscv.attributes`

The attributes of the inputs are parsed, merged, and written into one section, whose size is known before.
`RiscVAttributes.read_back` says that the section has this size, and that its attributes are the merged ones when
it is parsed again.
-/

variable {a : RiscVAttribute} {n : Nat} {arch : RiscVArch}

namespace Reld

open LittleEndian

/-! ## Attributes -/

/-- `RiscVArch`: the extensions with their versions. -/
structure RiscVArch where
  map : IndexMap (List Char) (Nat × Nat)
deriving DecidableEq

/-- `RiscVAttribute` -/
inductive RiscVAttribute where
  | stackAlign (align : Nat)
  | arch (arch : RiscVArch)
  | unalignedAccess (access : Bool)
  | privilegedSpecMajor (version : Nat)
  | privilegedSpecMinor (version : Nat)
  | privilegedSpecRevision (version : Nat)
deriving DecidableEq

def tagRiscVWholeFile : Nat := 1
def tagRiscVStackAlign : Nat := 4
def tagRiscVArch : Nat := 5
def tagRiscVUnalignedAccess : Nat := 6
def tagRiscVPrivSpec : Nat := 8
def tagRiscVPrivSpecMinor : Nat := 10
def tagRiscVPrivSpecRevision : Nat := 12
def tagRiscVAtomicAbi : Nat := 14
def tagRiscVX3RegUsage : Nat := 16

/-- `RISCV_ATTRIBUTE_VENDOR_NAME` -/
def riscVAttributeVendorName : List Char := ['r', 'i', 's', 'c', 'v']

/-- `{arch}{major}p{minor}` -/
def archComponent (e : List Char × (Nat × Nat)) : List Char :=
  e.1 ++ Nat.toDigits 10 e.2.1 ++ 'p' :: Nat.toDigits 10 e.2.2

/-- `to_attribute_string` -/
def RiscVArch.toAttributeString (arch : RiscVArch) : List Char :=
  ['_'].intercalate (arch.map.entries.map archComponent)

/-! ## Parsing -/

/-- Why a section is not understood. -/
inductive RiscVAttributesError where
  /-- "Header must start with 'A'" -/
  | header
  /-- "Not enough bytes to read u32" -/
  | size
  /-- "Cannot read vendor string" -/
  | vendor
  /-- "Unsupported vendor subsection" -/
  | unsupportedVendor (vendor : List Char)
  /-- "Cannot read tag of subsection" -/
  | subsectionTag
  /-- "Whole file tag expected" -/
  | wholeFileTag
  /-- "Cannot read tag of sub-subsection" -/
  | tag
  /-- "Cannot read" the value of a tag. -/
  | value (tag : Nat)
  /-- "Cannot parse minor" -/
  | minor
  /-- "Cannot parse 'p' separator" -/
  | separatorMissing
  /-- "Separator expected" -/
  | separator
  /-- "Cannot parse major" -/
  | major
  /-- A version that is no digit. -/
  | digit (c : Char)
  /-- "TAG_RISCV_ATOMIC_ABI is not supported yet" -/
  | atomicAbi
  /-- "TAG_RISCV_X3_REG_USAGE is not supported yet" -/
  | x3RegUsage
  /-- "Unsupported tag" -/
  | unsupportedTag (tag : Nat)
deriving DecidableEq

abbrev RiscVAttributesResult (α : Type) := Except RiscVAttributesError α

/-- `read_u32` -/
def readU32 (content : Bytes) : RiscVAttributesResult (Nat × Bytes) :=
  if 4 ≤ content.length then .ok (leNat (content.take 4), content.drop 4) else .error .size

/-- `read_string`: up to the first zero byte, as characters. -/
def readString (content : Bytes) (e : RiscVAttributesError) : RiscVAttributesResult (List Char × Bytes) :=
  match content.dropWhile (· ≠ 0) with
  | []        => .error e
  | _ :: rest => .ok (Utf8.decodeLossy (content.takeWhile (· ≠ 0)), rest)

/-- `read_uleb128` -/
def readUleb128 (leb : Leb128) (content : Bytes) (e : RiscVAttributesError) :
    RiscVAttributesResult (Nat × Bytes) :=
  match leb.read content with
  | some result => .ok result
  | none        => .error e

/-- `parse` of a single character. -/
def parseDigit (c : Char) : RiscVAttributesResult Nat :=
  if '0' ≤ c ∧ c ≤ '9' then .ok (c.toNat - '0'.toNat) else .error (.digit c)

/-- A component of an arch string, read from its end. -/
def parseArchComponent (part : List Char) : RiscVAttributesResult (List Char × (Nat × Nat)) :=
  match part.reverse with
  | [] => .error .minor
  | [_] => .error .separatorMissing
  | minor :: p :: it =>
    if p = 'p' then
      match it with
      | []            => .error .major
      | major :: name => do
        let majorVersion ← parseDigit major
        let minorVersion ← parseDigit minor
        return (name.reverse, (majorVersion, minorVersion))
    else .error .separator

/-- The components of an arch string. -/
def parseArch (arch : List Char) : RiscVAttributesResult RiscVArch := do
  let components ← (arch.splitOn '_').mapM parseArchComponent
  return ⟨IndexMap.ofList components⟩

/-- An attribute that is a number. -/
def readNumber (leb : Leb128) (tag : Nat) (make : Nat → RiscVAttribute) (content : Bytes) :
    RiscVAttributesResult (RiscVAttribute × Bytes) := do
  let (value, content) ← readUleb128 leb content (.value tag)
  return (make value, content)

/-- The arch string. -/
def readArch (tag : Nat) (content : Bytes) : RiscVAttributesResult (RiscVAttribute × Bytes) := do
  let (s, content) ← readString content (.value tag)
  let arch ← parseArch s
  return (.arch arch, content)

/-- A tag whose value is read, and that is not supported. -/
def readUnsupported (leb : Leb128) (tag : Nat) (e : RiscVAttributesError) (content : Bytes) :
    RiscVAttributesResult (RiscVAttribute × Bytes) := do
  let _ ← readUleb128 leb content (.value tag)
  throw e

/-- One turn of the loop in `process_riscv_attributes`. -/
def readAttribute (leb : Leb128) (content : Bytes) : RiscVAttributesResult (RiscVAttribute × Bytes) := do
  let (tag, content) ← readUleb128 leb content .tag
  if tag = tagRiscVStackAlign then readNumber leb tag .stackAlign content
  else if tag = tagRiscVArch then readArch tag content
  else if tag = tagRiscVUnalignedAccess then
    readNumber leb tag (fun access => .unalignedAccess (decide (0 < access))) content
  else if tag = tagRiscVPrivSpec then readNumber leb tag .privilegedSpecMajor content
  else if tag = tagRiscVPrivSpecMinor then readNumber leb tag .privilegedSpecMinor content
  else if tag = tagRiscVPrivSpecRevision then readNumber leb tag .privilegedSpecRevision content
  else if tag = tagRiscVAtomicAbi then readUnsupported leb tag .atomicAbi content
  else if tag = tagRiscVX3RegUsage then readUnsupported leb tag .x3RegUsage content
  else throw (.unsupportedTag tag)

/-- The loop of `process_riscv_attributes`, `n` turns at most: each turn reads a byte at least. -/
def readAttributes (leb : Leb128) : Nat → Bytes → RiscVAttributesResult (List RiscVAttribute)
  | _, [] => .ok []
  | 0, _ :: _ => .error .tag
  | n + 1, b :: bytes => do
    let (attr, content) ← readAttribute leb (b :: bytes)
    let attrs ← readAttributes leb n content
    return attr :: attrs

/-- What stands in front of the attributes: one subsection with one sub-subsection, whose sizes are not looked at. -/
def readAttributesHeader (leb : Leb128) : Bytes → RiscVAttributesResult Bytes
  | [] => throw .header
  | b :: content =>
    if b = 65 then do
      let (_, content) ← readU32 content
      let (vendor, content) ← readString content .vendor
      if vendor = riscVAttributeVendorName then
        let (tag, content) ← readUleb128 leb content .subsectionTag
        if tag = tagRiscVWholeFile then
          let (_, content) ← readU32 content
          return content
        else throw .wholeFileTag
      else throw (.unsupportedVendor vendor)
    else throw .header

/-- `process_riscv_attributes` -/
def processRiscVAttributes (leb : Leb128) (content : Bytes) : RiscVAttributesResult (List RiscVAttribute) := do
  let content ← readAttributesHeader leb content
  readAttributes leb content.length content

/-- The attributes of an object, which may have no such section. -/
def objectAttributes (leb : Leb128) : Option Bytes → RiscVAttributesResult (List RiscVAttribute)
  | none => .ok []
  | some content => processRiscVAttributes leb content

/-! ## Merging -/

/-- The greater one of two versions. -/
def maxVersion (v v' : Nat × Nat) : Nat × Nat :=
  if v.1 < v'.1 ∨ (v.1 = v'.1 ∧ v.2 ≤ v'.2) then v' else v

/-- `RISCV_CONFLICTING_EXT_PAIRS` -/
def riscVConflictingExtPairs : List (List Char × List Char) :=
  [(['f'], ['z', 'f', 'i', 'n', 'x']), (['d'], ['z', 'd', 'i', 'n', 'x']), (['q'], ['z', 'q', 'i', 'n', 'x']),
    (['z', 'f', 'h'], ['z', 'h', 'i', 'n', 'x']),
    (['z', 'f', 'h', 'm', 'i', 'n'], ['z', 'h', 'i', 'n', 'x', 'm', 'i', 'n'])]

/-- `verify_riscv_ext_conflicts`: the pairs that are both there. -/
def riscVExtConflicts (components : IndexMap (List Char) (Nat × Nat)) : List (List Char × List Char) :=
  riscVConflictingExtPairs.filter (fun p => components.containsKey p.1 && components.containsKey p.2)

namespace RiscVAttribute

def arch? : RiscVAttribute → Option RiscVArch
  | .arch a => some a
  | _ => none

def stackAlign? : RiscVAttribute → Option Nat
  | .stackAlign align => some align
  | _ => none

def unalignedAccess? : RiscVAttribute → Option Bool
  | .unalignedAccess access => some access
  | _ => none

def privilegedSpecMajor? : RiscVAttribute → Option Nat
  | .privilegedSpecMajor version => some version
  | _ => none

def privilegedSpecMinor? : RiscVAttribute → Option Nat
  | .privilegedSpecMinor version => some version
  | _ => none

def privilegedSpecRevision? : RiscVAttribute → Option Nat
  | .privilegedSpecRevision version => some version
  | _ => none

end RiscVAttribute

/-- All attributes of the objects, those of the objects with most attributes first. -/
def sortedAttributes (states : List (List RiscVAttribute)) : List RiscVAttribute :=
  (states.insertionSort (fun a b => a.length ≤ b.length)).reverse.flatten

/-- The extensions of all objects, each with its greatest version. -/
def mergedComponents (attrs : List RiscVAttribute) : IndexMap (List Char) (Nat × Nat) :=
  ((attrs.filterMap RiscVAttribute.arch?).flatMap (fun arch => arch.map.entries)).foldl
    (IndexMap.insertWith maxVersion) .empty

/-- `RiscVAttributes` -/
structure RiscVAttributes where
  attributes : List RiscVAttribute
  sectionSize : Nat

section

variable (leb : Leb128)

/-- The size of an attribute. -/
def attributeSize : RiscVAttribute → Nat
  | .stackAlign align => leb.size tagRiscVStackAlign + leb.size align
  | .arch arch => leb.size tagRiscVArch + (Utf8.encode arch.toAttributeString).length + 1
  | .unalignedAccess _ => leb.size tagRiscVUnalignedAccess + 1
  | .privilegedSpecMajor version => leb.size tagRiscVPrivSpec + leb.size version
  | .privilegedSpecMinor version => leb.size tagRiscVPrivSpecMinor + leb.size version
  | .privilegedSpecRevision version => leb.size tagRiscVPrivSpecRevision + leb.size version

/-- `riscv_attributes_section_size` -/
def riscVAttributesSectionSize (attrs : List RiscVAttribute) : Nat :=
  if attrs = [] then 0
  else 1 + 4 + leb.size tagRiscVWholeFile + 4 + (Utf8.encode riscVAttributeVendorName).length + 1 +
    (attrs.map (attributeSize leb)).sum

/-- The arch string of the output, and the greatest value of each other attribute. -/
def mergedAttributes (attrs : List RiscVAttribute) (components : IndexMap (List Char) (Nat × Nat)) :
    List RiscVAttribute :=
  (if components.entries = [] then [] else [.arch ⟨components⟩]) ++
    ((attrs.filterMap RiscVAttribute.stackAlign?).max?.map .stackAlign).toList ++
    ((attrs.filterMap RiscVAttribute.unalignedAccess?).max?.map .unalignedAccess).toList ++
    ((attrs.filterMap RiscVAttribute.privilegedSpecMajor?).max?.map .privilegedSpecMajor).toList ++
    ((attrs.filterMap RiscVAttribute.privilegedSpecMinor?).max?.map .privilegedSpecMinor).toList ++
    ((attrs.filterMap RiscVAttribute.privilegedSpecRevision?).max?.map .privilegedSpecRevision).toList

/-- `merge_riscv_attributes`, which fails with the pairs of extensions that conflict. -/
def mergeRiscVAttributes (states : List (List RiscVAttribute)) :
    Except (List (List Char × List Char)) RiscVAttributes :=
  let attrs := sortedAttributes states
  let components := mergedComponents attrs
  if riscVExtConflicts components = [] then
    let merged := mergedAttributes attrs components
    .ok { attributes := merged, sectionSize := riscVAttributesSectionSize leb merged }
  else .error (riscVExtConflicts components)

/-! ## Writing -/

/-- The bytes of an attribute. -/
def writeAttribute : RiscVAttribute → Bytes
  | .stackAlign align => leb.write tagRiscVStackAlign ++ leb.write align
  | .arch arch => leb.write tagRiscVArch ++ (Utf8.encode arch.toAttributeString ++ [0])
  | .unalignedAccess access => leb.write tagRiscVUnalignedAccess ++ leb.write access.toNat
  | .privilegedSpecMajor version => leb.write tagRiscVPrivSpec ++ leb.write version
  | .privilegedSpecMinor version => leb.write tagRiscVPrivSpecMinor ++ leb.write version
  | .privilegedSpecRevision version => leb.write tagRiscVPrivSpecRevision ++ leb.write version

/-- `write_riscv_attributes`. The sizes are numbers of 32 bits, as in a release build. -/
def writeRiscVAttributes (merged : RiscVAttributes) : Bytes :=
  let length := BitVec.ofNat 32 merged.sectionSize
  [65] ++ (leBytes 4 (length - 1).toNat ++ (Utf8.encode riscVAttributeVendorName ++ [0] ++
    (leb.write tagRiscVWholeFile ++
      (leBytes 4 (length - 1 - 4 - BitVec.ofNat 32 (Utf8.encode riscVAttributeVendorName).length - 1).toNat ++
        merged.attributes.flatMap (writeAttribute leb)))))

/-- The section of the output, if there is one. -/
def outputRiscVAttributes (merged : RiscVAttributes) : Option Bytes :=
  if merged.sectionSize ≠ 0 then some (writeRiscVAttributes leb merged) else none

end

/-! ## Reading back -/

/-- An extension whose name and versions are read back: the name keeps apart from what is around it, and a version
is a digit. -/
structure ComponentReadable (e : List Char × (Nat × Nat)) : Prop where
  underscore : '_' ∉ e.1
  nul : '\x00' ∉ e.1
  major : e.2.1 < 10
  minor : e.2.2 < 10

/-- What parsed attributes are like. -/
def RiscVAttribute.Readable : RiscVAttribute → Prop
  | .stackAlign n | .privilegedSpecMajor n | .privilegedSpecMinor n | .privilegedSpecRevision n => n < 2 ^ 64
  | .unalignedAccess _ => True
  | .arch a => a.map.entries ≠ [] ∧ ∀ e ∈ a.map.entries, ComponentReadable e

/-! ### Parsed attributes -/

variable {s : List Char}

theorem notMem_of_mem_splitOn {a : Char} :
    ∀ part ∈ s.splitOn a, a ∉ part ∧ ∀ c ∈ part, c ∈ s := by
  induction s with
  | nil => simp
  | cons c s ih =>
    intro part hpart
    rw [List.splitOn_cons_eq_if_modifyHead] at hpart
    split_ifs at hpart with hc
    · rcases List.mem_cons.mp hpart with rfl | hpart
      · simp
      · exact ⟨(ih part hpart).1, fun c hc => List.mem_cons_of_mem _ ((ih part hpart).2 c hc)⟩
    · obtain ⟨first, rest, hsplit⟩ := List.exists_cons_of_ne_nil (List.splitOn_ne_nil a s)
      rw [hsplit] at hpart ih
      rcases List.mem_cons.mp hpart with rfl | hpart
      · obtain ⟨hno, hmem⟩ := ih first List.mem_cons_self
        have hne : a ≠ c := fun heq => hc (by simp [heq])
        exact ⟨by simp [hno, hne], by simpa using fun c hc => Or.inr (hmem c hc)⟩
      · obtain ⟨hno, hmem⟩ := ih part (List.mem_cons_of_mem _ hpart)
        exact ⟨hno, fun c hc => List.mem_cons_of_mem _ (hmem c hc)⟩

theorem lt_ten_of_parseDigit {c : Char} (h : parseDigit c = .ok n) : n < 10 := by
  unfold parseDigit at h
  split_ifs at h with hc
  obtain rfl := Except.ok.inj h
  have hle : c.toNat ≤ '9'.toNat := hc.2
  have hnine : '9'.toNat = 57 := rfl
  have hzero : '0'.toNat = 48 := rfl
  omega

theorem parseArchComponent_readable {part : List Char} {e : List Char × (Nat × Nat)}
    (h : parseArchComponent part = .ok e) (hunderscore : '_' ∉ part) (hnul : '\x00' ∉ part) :
    ComponentReadable e := by
  unfold parseArchComponent at h
  rw [← List.mem_reverse] at hunderscore hnul
  split at h
  · exact absurd h (by simp)
  · exact absurd h (by simp)
  · rename_i minor p it hreverse
    split_ifs at h with hp
    split at h
    · exact absurd h (by simp)
    · rename_i major name
      rw [hreverse] at hunderscore hnul
      obtain ⟨majorVersion, hmajor, h⟩ := Traverse.bind_eq_ok.mp h
      obtain ⟨minorVersion, hminor, h⟩ := Traverse.bind_eq_ok.mp h
      obtain rfl := Except.ok.inj h
      refine ⟨?_, ?_, lt_ten_of_parseDigit hmajor, lt_ten_of_parseDigit hminor⟩
      · intro hmem
        exact hunderscore (by simp [List.mem_reverse.mp hmem])
      · intro hmem
        exact hnul (by simp [List.mem_reverse.mp hmem])

theorem parseArch_readable (h : parseArch s = .ok arch) (hnul : '\x00' ∉ s) : (RiscVAttribute.arch arch).Readable := by
  obtain ⟨components, hcomponents, harch⟩ := Traverse.bind_eq_ok.mp h
  obtain rfl := Except.ok.inj harch
  have hreadable : ∀ e ∈ components, ComponentReadable e := by
    intro e he
    obtain ⟨part, hpart, hparse⟩ := Traverse.exists_of_mem_mapM_ok hcomponents he
    obtain ⟨hunderscore, hmem⟩ := notMem_of_mem_splitOn part hpart
    exact parseArchComponent_readable hparse hunderscore (fun h => hnul (hmem _ h))
  refine ⟨?_, IndexMap.forall_foldl_insertWith (fun k v v' _ hv' => hv') hreadable
    (fun e he => absurd he List.not_mem_nil)⟩
  -- a string has a component at least
  cases hcases : components with
  | nil =>
    have hlength := (Traverse.mapM_eq_ok.mp hcomponents).length_eq
    rw [hcases, List.length_nil] at hlength
    exact absurd (List.eq_nil_of_length_eq_zero hlength) (List.splitOn_ne_nil _ _)
  | cons e rest =>
    have hkey : e.1 ∈ (IndexMap.ofList (e :: rest)).entries.map Prod.fst :=
      IndexMap.mem_keys_foldl_insertWith.mpr (Or.inr (by simp))
    intro hnil
    rw [hnil] at hkey
    exact absurd hkey List.not_mem_nil

variable {content rest : Bytes} {e : RiscVAttributesError}

theorem readString_nul (h : readString content e = .ok (s, rest)) : '\x00' ∉ s ∧ rest.length < content.length := by
  unfold readString at h
  split at h
  · exact absurd h (by simp)
  · rename_i b bytes hdrop
    obtain ⟨rfl, rfl⟩ := Prod.mk.inj (Except.ok.inj h)
    refine ⟨Utf8.nul_notMem_decodeLossy (fun hzero => ?_), ?_⟩
    · have := List.mem_takeWhile_imp hzero
      simp at this
    · have hlength := congrArg List.length (List.takeWhile_append_dropWhile (p := (· ≠ 0)) (l := content))
      rw [hdrop, List.length_append, List.length_cons] at hlength
      omega

variable {leb : Leb128}

theorem readUleb128_lt (h : readUleb128 leb content e = .ok (n, rest)) : n < 2 ^ 64 := by
  unfold readUleb128 at h
  split at h
  · rename_i result hread
    obtain rfl := Except.ok.inj h
    exact leb.read_lt hread
  · exact absurd h (by simp)

variable {attr : RiscVAttribute}

theorem readNumber_readable {tag : Nat} {make : Nat → RiscVAttribute} (hmake : ∀ n < 2 ^ 64, (make n).Readable)
    (h : readNumber leb tag make content = .ok (attr, rest)) : attr.Readable := by
  obtain ⟨⟨n, content⟩, hvalue, h⟩ := Traverse.bind_eq_ok.mp h
  obtain ⟨rfl, rfl⟩ := Prod.mk.inj (Except.ok.inj h)
  exact hmake n (readUleb128_lt hvalue)

theorem readArch_readable {tag : Nat} (h : readArch tag content = .ok (attr, rest)) : attr.Readable := by
  obtain ⟨⟨s, content⟩, hstring, h⟩ := Traverse.bind_eq_ok.mp h
  obtain ⟨arch, harch, h⟩ := Traverse.bind_eq_ok.mp h
  obtain ⟨rfl, rfl⟩ := Prod.mk.inj (Except.ok.inj h)
  exact parseArch_readable harch (readString_nul hstring).1

theorem readUnsupported_ne_ok {tag : Nat} {result : RiscVAttribute × Bytes} :
    readUnsupported leb tag e content ≠ .ok result := by
  intro h
  obtain ⟨_, _, h⟩ := Traverse.bind_eq_ok.mp h
  exact absurd h (by simp [throw, throwThe, MonadExceptOf.throw])

theorem readAttribute_readable (h : readAttribute leb content = .ok (attr, rest)) : attr.Readable := by
  obtain ⟨⟨tag, content⟩, _, h⟩ := Traverse.bind_eq_ok.mp h
  dsimp only at h
  split_ifs at h
  · refine readNumber_readable ?_ h
    exact fun n hn => hn
  · exact readArch_readable h
  · refine readNumber_readable ?_ h
    exact fun n _ => trivial
  · refine readNumber_readable ?_ h
    exact fun n hn => hn
  · refine readNumber_readable ?_ h
    exact fun n hn => hn
  · refine readNumber_readable ?_ h
    exact fun n hn => hn
  · exact absurd h readUnsupported_ne_ok
  · exact absurd h readUnsupported_ne_ok

theorem readAttributes_readable :
    ∀ {content : Bytes} {attrs : List RiscVAttribute}, readAttributes leb n content = .ok attrs →
      ∀ a ∈ attrs, a.Readable := by
  induction n with
  | zero =>
    intro content attrs h
    cases content with
    | nil => obtain rfl := Except.ok.inj h; exact fun a ha => absurd ha List.not_mem_nil
    | cons b bytes => exact absurd h (by simp [readAttributes])
  | succ n ih =>
    intro content attrs h
    cases content with
    | nil => obtain rfl := Except.ok.inj h; exact fun a ha => absurd ha List.not_mem_nil
    | cons b bytes =>
      obtain ⟨⟨attr, content⟩, hattr, h⟩ := Traverse.bind_eq_ok.mp h
      obtain ⟨attrs', hattrs, h⟩ := Traverse.bind_eq_ok.mp h
      obtain rfl := Except.ok.inj h
      exact List.forall_mem_cons.mpr ⟨readAttribute_readable hattr, ih hattrs⟩

variable {attrs : List RiscVAttribute}

/-- **Parsed attributes** are readable. -/
theorem objectAttributes_readable {content : Option Bytes} (h : objectAttributes leb content = .ok attrs) :
    ∀ a ∈ attrs, a.Readable := by
  cases content with
  | none => obtain rfl := Except.ok.inj h; exact fun a ha => absurd ha List.not_mem_nil
  | some content =>
    obtain ⟨rest, _, h⟩ := Traverse.bind_eq_ok.mp h
    exact readAttributes_readable h

/-! ### Merged attributes -/

variable {states : List (List RiscVAttribute)}

theorem mem_sortedAttributes : a ∈ sortedAttributes states ↔ ∃ attrs ∈ states, a ∈ attrs := by
  unfold sortedAttributes
  simp

theorem maxVersion_eq (v v' : Nat × Nat) : maxVersion v v' = v ∨ maxVersion v v' = v' := by
  unfold maxVersion
  split_ifs
  · exact Or.inr rfl
  · exact Or.inl rfl

/-- The greatest of some numbers of attributes is that of an attribute. -/
theorem mem_of_max? {β : Type} [Max β] [Std.MaxEqOr β] {get : RiscVAttribute → Option β} {make : β → RiscVAttribute}
    (hget : ∀ a x, get a = some x → a = make x) (h : a ∈ ((attrs.filterMap get).max?.map make).toList) : a ∈ attrs := by
  obtain ⟨x, hx, rfl⟩ := Option.map_eq_some_iff.mp (Option.mem_toList.mp h)
  obtain ⟨a, ha, hax⟩ := List.mem_filterMap.mp (List.max?_mem hx)
  exact hget a x hax ▸ ha

theorem mergedAttributes_readable {components : IndexMap (List Char) (Nat × Nat)} (hattrs : ∀ a ∈ attrs, a.Readable)
    (hcomponents : ∀ e ∈ components.entries, ComponentReadable e) :
    ∀ a ∈ mergedAttributes attrs components, a.Readable := by
  intro a ha
  unfold mergedAttributes at ha
  simp only [List.mem_append] at ha
  rcases ha with ((((ha | ha) | ha) | ha) | ha) | ha
  · split_ifs at ha with hempty
    · exact absurd ha List.not_mem_nil
    · obtain rfl := List.mem_singleton.mp ha
      exact ⟨hempty, hcomponents⟩
  · refine hattrs a (mem_of_max? (fun b x hget => ?_) ha)
    cases b <;> simp_all [RiscVAttribute.stackAlign?]
  · obtain ⟨access, _, rfl⟩ := Option.map_eq_some_iff.mp (Option.mem_toList.mp ha)
    trivial
  · refine hattrs a (mem_of_max? (fun b x hget => ?_) ha)
    cases b <;> simp_all [RiscVAttribute.privilegedSpecMajor?]
  · refine hattrs a (mem_of_max? (fun b x hget => ?_) ha)
    cases b <;> simp_all [RiscVAttribute.privilegedSpecMinor?]
  · refine hattrs a (mem_of_max? (fun b x hget => ?_) ha)
    cases b <;> simp_all [RiscVAttribute.privilegedSpecRevision?]

/-- **Merged attributes** are readable where those of all objects are. -/
theorem mergeRiscVAttributes_readable {merged : RiscVAttributes} (hstates : ∀ attrs ∈ states, ∀ a ∈ attrs, a.Readable)
    (h : mergeRiscVAttributes leb states = .ok merged) :
    (∀ a ∈ merged.attributes, a.Readable) ∧ merged.sectionSize = riscVAttributesSectionSize leb merged.attributes := by
  have hreadable : ∀ a ∈ sortedAttributes states, a.Readable := by
    intro a ha
    obtain ⟨attrs, hattrs, ha⟩ := mem_sortedAttributes.mp ha
    exact hstates attrs hattrs a ha
  have hcomponents : ∀ e ∈ (mergedComponents (sortedAttributes states)).entries, ComponentReadable e := by
    refine IndexMap.forall_foldl_insertWith ?_ ?_ (fun e he => absurd he List.not_mem_nil)
    · -- the name stays, and the version is one of the two
      intro name v v' hv hv'
      rcases maxVersion_eq v v' with heq | heq <;> rw [heq]
      · exact hv
      · exact hv'
    · intro e he
      obtain ⟨arch, harch, he⟩ := List.mem_flatMap.mp he
      obtain ⟨a, ha, hget⟩ := List.mem_filterMap.mp harch
      cases a with
      | arch a =>
        obtain rfl := Option.some.inj hget
        exact (hreadable _ ha).2 e he
      | _ => exact absurd hget (by simp [RiscVAttribute.arch?])
  unfold mergeRiscVAttributes at h
  dsimp only at h
  split_ifs at h
  obtain rfl := Except.ok.inj h
  exact ⟨mergedAttributes_readable hreadable hcomponents, rfl⟩

/-! ### Written attributes -/

section

variable {leb : Leb128}

/-- **Sizes.** The bytes of an attribute have the size that is counted for it. -/
theorem length_writeAttribute (h : a.Readable) : (writeAttribute leb a).length = attributeSize leb a := by
  cases a with
  | arch arch =>
    simp only [writeAttribute, attributeSize, List.length_append, leb.length_write tagRiscVArch (by decide),
      List.length_singleton, Nat.add_assoc]
  | unalignedAccess access =>
    have hsmall : access.toNat < 128 := by cases access <;> decide
    simp only [writeAttribute, attributeSize, List.length_append,
      leb.length_write tagRiscVUnalignedAccess (by decide), leb.length_write access.toNat (by omega),
      leb.size_small _ hsmall]
  | _ =>
    simp only [writeAttribute, attributeSize, List.length_append]
    rw [leb.length_write _ (by decide), leb.length_write _ h]

variable {attrs : List RiscVAttribute}

theorem length_flatMap_writeAttribute (h : ∀ a ∈ attrs, a.Readable) :
    (attrs.flatMap (writeAttribute leb)).length = (attrs.map (attributeSize leb)).sum := by
  rw [List.length_flatMap]
  exact congrArg List.sum (List.map_congr_left (fun a ha => length_writeAttribute (h a ha)))

theorem length_writeRiscVAttributes {merged : RiscVAttributes} (hreadable : ∀ a ∈ merged.attributes, a.Readable)
    (hne : merged.attributes ≠ []) :
    (writeRiscVAttributes leb merged).length = riscVAttributesSectionSize leb merged.attributes := by
  unfold writeRiscVAttributes riscVAttributesSectionSize
  simp only [if_neg hne, List.length_append, length_leBytes, List.length_singleton,
    leb.length_write tagRiscVWholeFile (by decide), length_flatMap_writeAttribute hreadable]
  omega

/-! ### Parsing what has been written -/

theorem readU32_leBytes (n : Nat) (rest : Bytes) :
    ∃ v, readU32 (leBytes 4 n ++ rest) = .ok (v, rest) := by
  have hlength : 4 ≤ (leBytes 4 n ++ rest).length := by
    rw [List.length_append, length_leBytes]
    omega
  have hdrop : (leBytes 4 n ++ rest).drop 4 = rest := by
    exact List.drop_left' (length_leBytes 4 n)
  unfold readU32
  exact ⟨_, rfl⟩

theorem readString_encode {s : List Char} (h : '\x00' ∉ s) (rest : Bytes) (e : RiscVAttributesError) :
    readString (Utf8.encode s ++ [0] ++ rest) e = .ok (s, rest) := by
  have hzero : ∀ b ∈ Utf8.encode s, decide (b ≠ 0) = true := by
    intro b hb
    simp only [ne_eq, decide_not, Bool.not_eq_true', decide_eq_false_iff_not]
    rintro rfl
    exact Utf8.zero_notMem_encode h hb
  unfold readString
  rw [List.append_assoc, List.dropWhile_append_of_pos hzero, List.takeWhile_append_of_pos hzero,
    List.singleton_append, List.dropWhile_cons_of_neg (by simp), List.takeWhile_cons_of_neg (by simp),
    List.append_nil, Utf8.decodeLossy_encode]

theorem readUleb128_write (h : n < 2 ^ 64) (rest : Bytes) (e : RiscVAttributesError) :
    readUleb128 leb (leb.write n ++ rest) e = .ok (n, rest) := by
  unfold readUleb128
  rw [leb.read_write n h]

theorem parseDigit_digitChar (h : n < 10) : parseDigit (Nat.digitChar n) = .ok n := by
  have hall : ∀ n < 10, parseDigit (Nat.digitChar n) = .ok n := by decide
  exact hall n h

variable {e : List Char × (Nat × Nat)}

/-- A component of a readable arch string is read back from its end. -/
theorem parseArchComponent_archComponent (h : ComponentReadable e) :
    parseArchComponent (archComponent e) = .ok e := by
  have hreverse : (archComponent e).reverse
      = Nat.digitChar e.2.2 :: 'p' :: Nat.digitChar e.2.1 :: e.1.reverse := by
    unfold archComponent
    rw [Nat.toDigits_of_lt_base h.major, Nat.toDigits_of_lt_base h.minor]
    simp
  unfold parseArchComponent
  rw [hreverse]
  simp only [if_true, parseDigit_digitChar h.major, parseDigit_digitChar h.minor, bind, Except.bind, pure,
    Except.pure, List.reverse_reverse]

theorem notMem_archComponent (h : ComponentReadable e) :
    '_' ∉ archComponent e ∧ '\x00' ∉ archComponent e := by
  have hdigit : ∀ n < 10, Nat.digitChar n ≠ '_' ∧ Nat.digitChar n ≠ '\x00' := by decide
  unfold archComponent
  rw [Nat.toDigits_of_lt_base h.major, Nat.toDigits_of_lt_base h.minor]
  have hmajor := hdigit _ h.major
  have hminor := hdigit _ h.minor
  constructor
  · simp [h.underscore, hmajor.1.symm, hminor.1.symm]
  · simp [h.nul, hmajor.2.symm, hminor.2.symm]

/-- **The arch string is read back**: its components are those of the map, in their order. -/
theorem parseArch_toAttributeString (h : (RiscVAttribute.arch arch).Readable) :
    parseArch arch.toAttributeString = .ok arch := by
  obtain ⟨hne, hreadable⟩ := h
  have hsplit : arch.toAttributeString.splitOn '_' = arch.map.entries.map archComponent := by
    apply List.splitOn_intercalate
    · intro part hpart
      obtain ⟨e, he, rfl⟩ := List.mem_map.mp hpart
      exact (notMem_archComponent (hreadable e he)).1
    · simpa using hne
  have hparse : (arch.map.entries.map archComponent).mapM parseArchComponent = .ok arch.map.entries := by
    rw [Traverse.mapM_eq_ok, List.forall₂_map_left_iff, List.forall₂_same]
    exact fun e he => parseArchComponent_archComponent (hreadable e he)
  unfold parseArch
  rw [hsplit, hparse]
  show Except.ok (RiscVArch.mk (IndexMap.ofList arch.map.entries)) = .ok arch
  rw [IndexMap.ofList_entries]

theorem nul_notMem_toAttributeString (h : (RiscVAttribute.arch arch).Readable) : '\x00' ∉ arch.toAttributeString := by
  have hjoin : ∀ parts : List (List Char), (∀ part ∈ parts, '\x00' ∉ part) → '\x00' ∉ ['_'].intercalate parts := by
    intro parts
    induction parts with
    | nil => simp
    | cons part parts ih =>
      intro hparts
      obtain ⟨hpart, hparts⟩ := List.forall_mem_cons.mp hparts
      by_cases hnil : parts = []
      · rw [hnil, List.intercalate_singleton]
        exact hpart
      · rw [List.intercalate_cons_of_ne_nil hnil, List.mem_append, List.mem_append, not_or, not_or]
        exact ⟨⟨hpart, by decide⟩, ih hparts⟩
  refine hjoin _ (fun part hpart => ?_)
  obtain ⟨e, he, rfl⟩ := List.mem_map.mp hpart
  exact (notMem_archComponent (h.2 e he)).2

theorem readNumber_write {tag n : Nat} {make : Nat → RiscVAttribute} (h : n < 2 ^ 64) (rest : Bytes) :
    readNumber leb tag make (leb.write n ++ rest) = .ok (make n, rest) := by
  unfold readNumber
  rw [readUleb128_write h]
  rfl

/-- **An attribute is read back.** -/
theorem readAttribute_writeAttribute (h : a.Readable) (rest : Bytes) :
    readAttribute leb (writeAttribute leb a ++ rest) = .ok (a, rest) := by
  have htag : ∀ tag < 128, ∀ rest', readUleb128 leb (leb.write tag ++ rest') .tag = .ok (tag, rest') :=
    fun tag ht rest' => readUleb128_write (by omega) rest' _
  unfold readAttribute
  cases a with
  | arch arch =>
    have hread : readArch tagRiscVArch (Utf8.encode arch.toAttributeString ++ [0] ++ rest) = .ok (.arch arch, rest) := by
      unfold readArch
      rw [readString_encode (nul_notMem_toAttributeString h)]
      simp only [bind, Except.bind, parseArch_toAttributeString h]
      rfl
    rw [writeAttribute, List.append_assoc, htag tagRiscVArch (by decide)]
    exact hread
  | unalignedAccess access =>
    have hread : readNumber leb tagRiscVUnalignedAccess (fun access => .unalignedAccess (decide (0 < access)))
        (leb.write access.toNat ++ rest) = .ok (.unalignedAccess access, rest) := by
      rw [readNumber_write (by cases access <;> decide)]
      cases access <;> rfl
    rw [writeAttribute, List.append_assoc, htag tagRiscVUnalignedAccess (by decide)]
    exact hread
  | stackAlign align =>
    rw [writeAttribute, List.append_assoc, htag tagRiscVStackAlign (by decide)]
    exact readNumber_write h rest
  | privilegedSpecMajor version =>
    rw [writeAttribute, List.append_assoc, htag tagRiscVPrivSpec (by decide)]
    exact readNumber_write h rest
  | privilegedSpecMinor version =>
    rw [writeAttribute, List.append_assoc, htag tagRiscVPrivSpecMinor (by decide)]
    exact readNumber_write h rest
  | privilegedSpecRevision version =>
    rw [writeAttribute, List.append_assoc, htag tagRiscVPrivSpecRevision (by decide)]
    exact readNumber_write h rest

theorem length_writeAttribute_pos (a : RiscVAttribute) : 0 < (writeAttribute leb a).length := by
  cases a <;> rw [writeAttribute, List.length_append] <;>
    exact Nat.lt_of_lt_of_le (leb.length_write_pos (by decide)) (Nat.le_add_right _ _)

theorem readAttributes_writeAttributes (h : ∀ a ∈ attrs, a.Readable) :
    ∀ n, (attrs.flatMap (writeAttribute leb)).length ≤ n →
      readAttributes leb n (attrs.flatMap (writeAttribute leb)) = .ok attrs := by
  induction attrs with
  | nil => intro n _; cases n <;> rfl
  | cons a attrs ih =>
    intro n hn
    obtain ⟨ha, hattrs⟩ := List.forall_mem_cons.mp h
    have hread : readAttribute leb (writeAttribute leb a ++ attrs.flatMap (writeAttribute leb))
        = .ok (a, attrs.flatMap (writeAttribute leb)) := readAttribute_writeAttribute ha _
    have hpos : 0 < (writeAttribute leb a).length := length_writeAttribute_pos a
    rw [List.flatMap_cons] at hn ⊢
    rw [List.length_append] at hn
    cases n with
    | zero   => omega
    | succ n =>
      cases hbytes : writeAttribute leb a ++ attrs.flatMap (writeAttribute leb) with
      | nil =>
        have hlength := congrArg List.length hbytes
        rw [List.length_append, List.length_nil] at hlength
        omega
      | cons b bytes =>
        rw [readAttributes, ← hbytes, hread]
        simp only [bind, Except.bind, ih hattrs n (by omega)]
        rfl

theorem readAttributesHeader_write (size size' : Nat) (rest : Bytes) :
    readAttributesHeader leb ([65] ++ (leBytes 4 size ++ (Utf8.encode riscVAttributeVendorName ++ [0] ++
      (leb.write tagRiscVWholeFile ++ (leBytes 4 size' ++ rest))))) = .ok rest := by
  obtain ⟨v, hsize⟩ := readU32_leBytes size
    (Utf8.encode riscVAttributeVendorName ++ [0] ++ (leb.write tagRiscVWholeFile ++ (leBytes 4 size' ++ rest)))
  obtain ⟨v', hsize'⟩ := readU32_leBytes size' rest
  have hvendor := readString_encode (s := riscVAttributeVendorName) (by decide)
    (leb.write tagRiscVWholeFile ++ (leBytes 4 size' ++ rest)) .vendor
  have htag : readUleb128 leb (leb.write tagRiscVWholeFile ++ (leBytes 4 size' ++ rest)) .subsectionTag
      = .ok (tagRiscVWholeFile, leBytes 4 size' ++ rest) := readUleb128_write (by decide) _ _
  simp only [List.singleton_append, readAttributesHeader, if_true, hsize, hvendor, htag, hsize', bind, Except.bind,
    pure, Except.pure]

/-- **Reading back.** The section of the output has the size that was reserved for it, and its attributes are the
merged ones. -/
theorem RiscVAttributes.read_back {contents : List (Option Bytes)} {states : List (List RiscVAttribute)}
    {merged : RiscVAttributes} (hparsed : contents.mapM (objectAttributes leb) = .ok states)
    (hmerged : mergeRiscVAttributes leb states = .ok merged) :
    ((outputRiscVAttributes leb merged).getD []).length = merged.sectionSize ∧
      (merged.attributes ≠ [] →
        processRiscVAttributes leb (writeRiscVAttributes leb merged) = .ok merged.attributes) ∧
      objectAttributes leb (outputRiscVAttributes leb merged) = .ok merged.attributes := by
  have hstates : ∀ attrs ∈ states, ∀ a ∈ attrs, a.Readable := by
    intro attrs hattrs
    obtain ⟨content, _, hcontent⟩ := Traverse.exists_of_mem_mapM_ok hparsed hattrs
    exact objectAttributes_readable hcontent
  obtain ⟨hreadable, hsize⟩ := mergeRiscVAttributes_readable hstates hmerged
  have hprocess : processRiscVAttributes leb (writeRiscVAttributes leb merged) = .ok merged.attributes := by
    have hheader : readAttributesHeader leb (writeRiscVAttributes leb merged)
        = .ok (merged.attributes.flatMap (writeAttribute leb)) := readAttributesHeader_write _ _ _
    unfold processRiscVAttributes
    rw [hheader]
    exact readAttributes_writeAttributes hreadable _ (Nat.le_refl _)
  by_cases hnil : merged.attributes = []
  · -- there is no section
    have hzero : merged.sectionSize = 0 := by rw [hsize, hnil]; rfl
    have hnone : outputRiscVAttributes leb merged = none := if_neg (by simpa using hzero)
    rw [hnone, hnil, hzero]
    exact ⟨rfl, fun h => absurd rfl h, rfl⟩
  · have hlength : (writeRiscVAttributes leb merged).length = riscVAttributesSectionSize leb merged.attributes :=
      length_writeRiscVAttributes hreadable hnil
    have hpos : merged.sectionSize ≠ 0 := by
      rw [hsize, ← hlength]
      simp [writeRiscVAttributes]
    have hsome : outputRiscVAttributes leb merged = some (writeRiscVAttributes leb merged) := if_pos hpos
    rw [hsome]
    exact ⟨hlength.trans hsize.symm, fun _ => hprocess, hprocess⟩

end

/-- Sections of two objects: `i2p1_m2p0` with a stack alignment of 16, and `i2p0_zicsr2p0`. -/
def exampleRiscVSections : List (Option Bytes) :=
  [some ([65, 0, 0, 0, 0, 114, 105, 115, 99, 118, 0, 1, 0, 0, 0, 0, 4, 16, 5] ++ bytesOf "i2p1_m2p0" ++ [0]),
    none,
    some ([65, 0, 0, 0, 0, 114, 105, 115, 99, 118, 0, 1, 0, 0, 0, 0, 5] ++ bytesOf "i2p0_zicsr2p0" ++ [0])]

/-- Their attributes when merged. -/
def exampleRiscVAttributes : RiscVAttributes where
  attributes := [.arch ⟨⟨[(['i'], (2, 1)), (['m'], (2, 0)), (['z', 'i', 'c', 's', 'r'], (2, 0))], by decide⟩⟩,
    .stackAlign 16]
  sectionSize := 38

theorem RiscVAttributes.read_back_example :
    objectAttributes .standard (outputRiscVAttributes .standard exampleRiscVAttributes)
      = .ok exampleRiscVAttributes.attributes :=
  (@RiscVAttributes.read_back .standard exampleRiscVSections
    [[.stackAlign 16, .arch ⟨⟨[(['i'], (2, 1)), (['m'], (2, 0))], by decide⟩⟩], [],
      [.arch ⟨⟨[(['i'], (2, 0)), (['z', 'i', 'c', 's', 'r'], (2, 0))], by decide⟩⟩]]
    exampleRiscVAttributes (by decide) (by rfl)).2.2

end Reld
