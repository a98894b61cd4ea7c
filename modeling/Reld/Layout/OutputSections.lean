import Mathlib.Data.List.GetD
import Reld.Db.SymbolDb
import Reld.Lib.Multiples

/-!
# `Layout.OutputSections` — the table of output sections

The built-in sections have fixed ids, from 0; a linker script and the input sections without a rule add
custom sections after them. A **secondary** section is a part of a primary one with its own place in the
order. `customByName` finds the section that a name stands for once a script or an input section has used it.

Alignments, regions and fill values play no part in the order of the sections and are left out.
-/

namespace Reld

/-- `OutputSectionId`: an index into the table. -/
abbrev OutputSectionId := Nat

/-- `SectionName`. -/
abbrev SectionName := Bytes

/-! ## Attributes -/

/-- `SectionAttributes`: the ELF flags and the type of a section. -/
structure SectionAttributes where
  flags : Nat := 0
  ty : Nat := 0
deriving DecidableEq

def shfWrite : Nat := 0x1
def shfAlloc : Nat := 0x2
def shfExecinstr : Nat := 0x4
def shfTls : Nat := 0x400
def shtNobits : Nat := 8

namespace SectionAttributes

def isAlloc (a : SectionAttributes) : Bool := a.flags &&& shfAlloc ≠ 0

def isWritable (a : SectionAttributes) : Bool := a.flags &&& shfWrite ≠ 0

def isExecutable (a : SectionAttributes) : Bool := a.flags &&& shfExecinstr ≠ 0

def isTls (a : SectionAttributes) : Bool := a.flags &&& shfTls ≠ 0

def isNoBits (a : SectionAttributes) : Bool := a.ty = shtNobits

end SectionAttributes

/-! ## Sections -/

/-- `SectionKind`. -/
inductive SectionKind where
  | primary (name : SectionName)
  | secondary (primary : OutputSectionId)
deriving DecidableEq

/-- `SectionLocationInfo`: the location counters set before the section, end exclusive, and its address. -/
structure SectionLocationInfo where
  locationCounters : Nat × Nat
  location : Option Expression

/-- `SectionOutputInfo`; the secondary order is the priority of `SecondaryOrder::InitFini`. -/
structure SectionOutputInfo where
  kind : SectionKind
  sectionAttributes : SectionAttributes := {}
  locationInfo : Option SectionLocationInfo := none
  secondaryOrder : Option Nat := none
  phdrs : List Bytes := []

/-! ## Built-in sections -/

def fileHeader : OutputSectionId := 1
def programHeaders : OutputSectionId := 2
def sectionHeaders : OutputSectionId := 3
def riscvAttributes : OutputSectionId := 28
def initArray : OutputSectionId := 35
def finiArray : OutputSectionId := 36
def textSection : OutputSectionId := 38
def dataSection : OutputSectionId := 41
def bssSection : OutputSectionId := 44

/-- `regular_section_base`: the sections before it have a single part. -/
def regularSectionBase : OutputSectionId := 34

/-- `num_built_in_sections`. -/
def numBuiltInSections : Nat := 49

/-- A built-in primary section. -/
def primarySection (name : String) (ty flags : Nat) : SectionOutputInfo :=
  { kind := .primary (bytesOf name), sectionAttributes := { flags := flags, ty := ty } }

/-- A built-in secondary section. -/
def secondarySection (primary : OutputSectionId) : SectionOutputInfo := { kind := .secondary primary }

/-- `SECTION_DEFINITIONS`, in the order of the ids. -/
def builtInSectionInfos : List SectionOutputInfo :=
  [ primarySection "" 0 0,                                        -- unmapped
    primarySection "" 0 shfAlloc,                                 -- file header
    primarySection ".phdr" 0 shfAlloc,
    primarySection ".shdr" 0 shfAlloc,
    primarySection ".shstrtab" 3 0,
    primarySection ".strtab" 3 0,
    primarySection ".got" 1 (shfWrite + shfAlloc),
    secondarySection 6,                                           -- `GOT_RELR`
    primarySection ".plt.got" 1 (shfAlloc + shfExecinstr),
    primarySection ".rela.plt" 4 (shfAlloc + 0x40),
    primarySection ".eh_frame" 1 shfAlloc,
    primarySection ".eh_frame_hdr" 1 shfAlloc,
    primarySection ".sframe" 0x6ffffff4 shfAlloc,
    primarySection ".dynamic" 6 (shfAlloc + shfWrite),
    primarySection ".hash" 5 shfAlloc,
    primarySection ".gnu.hash" 0x6ffffff6 shfAlloc,
    primarySection ".dynsym" 11 shfAlloc,
    primarySection ".dynstr" 3 shfAlloc,
    primarySection ".interp" 1 shfAlloc,
    primarySection ".gnu.version" 0x6fffffff shfAlloc,
    primarySection ".gnu.version_d" 0x6ffffffd shfAlloc,
    primarySection ".gnu.version_r" 0x6ffffffe shfAlloc,
    primarySection ".note.gnu.property" 7 shfAlloc,
    primarySection ".note.gnu.build-id" 7 shfAlloc,
    primarySection ".symtab" 2 0,
    secondarySection 24,                                          -- `SYMTAB_GLOBAL`
    primarySection ".rela.dyn" 4 shfAlloc,
    secondarySection 26,                                          -- `RELA_DYN_GENERAL`
    primarySection ".riscv.attributes" 0x70000003 0,
    primarySection ".relro_padding" shtNobits (shfAlloc + shfWrite),
    primarySection ".relr.dyn" 19 shfAlloc,
    primarySection ".symtab_shndx" 18 0,
    secondarySection 31,                                          -- `SYMTAB_SHNDX_GLOBAL`
    primarySection ".gdb_index" 1 0,
    -- The regular sections start here.
    primarySection ".rodata" 1 shfAlloc,
    primarySection ".init_array" 14 (shfAlloc + shfWrite),
    primarySection ".fini_array" 15 (shfAlloc + shfWrite),
    primarySection ".preinit_array" 16 (shfAlloc + shfWrite),
    primarySection ".text" 1 (shfAlloc + shfExecinstr),
    primarySection ".init" 1 (shfAlloc + shfExecinstr),
    primarySection ".fini" 1 (shfAlloc + shfExecinstr),
    primarySection ".data" 1 (shfAlloc + shfWrite),
    primarySection ".tdata" 1 (shfWrite + shfAlloc + shfTls),
    primarySection ".tbss" shtNobits (shfWrite + shfAlloc + shfTls),
    primarySection ".bss" shtNobits (shfAlloc + shfWrite),
    primarySection ".comment" 1 0x30,
    primarySection ".gcc_except_table" 1 shfAlloc,
    primarySection ".note.ABI-tag" 7 shfAlloc,
    primarySection ".data.rel.ro" 1 (shfAlloc + shfWrite) ]

/-! ## The table -/

/-- `OutputSections`. -/
structure OutputSections where
  sectionInfos : List SectionOutputInfo
  customByName : SectionName → Option OutputSectionId
  initFiniByPriority : OutputSectionId × Nat → Option OutputSectionId
  outputKind : OutputKind

/-- `is_partial_object`. -/
def OutputKind.isPartialObject : OutputKind → Bool
  | .relocatable => true
  | _ => false

namespace OutputSections

/-- `with_base_address`. -/
def withBaseAddress (outputKind : OutputKind) : OutputSections :=
  { sectionInfos := builtInSectionInfos
    customByName := fun _ => none
    initFiniByPriority := fun _ => none
    outputKind := outputKind }

/-- `section_infos.get`. -/
def info (o : OutputSections) (id : OutputSectionId) : SectionOutputInfo :=
  o.sectionInfos.getD id (primarySection "" 0 0)

/-- `name`: secondary sections have none. -/
def name (o : OutputSections) (id : OutputSectionId) : Option SectionName :=
  match (o.info id).kind with
  | .primary name => some name
  | .secondary _ => none

/-- `merge_target`. -/
def mergeTarget (o : OutputSections) (id : OutputSectionId) : Option OutputSectionId :=
  match (o.info id).kind with
  | .primary _ => none
  | .secondary primary => some primary

/-- `primary_output_section`. -/
def primaryOutputSection (o : OutputSections) (id : OutputSectionId) : OutputSectionId :=
  (o.mergeTarget id).getD id

/-- `section_infos.get_mut` with an update. -/
def modifyInfo (o : OutputSections) (id : OutputSectionId) (f : SectionOutputInfo → SectionOutputInfo) :
    OutputSections :=
  { o with sectionInfos := o.sectionInfos.modify id f }

/-- What `add_named_section` changes in a section that exists already. -/
def redeclare (locationInfo : Option SectionLocationInfo) (phdrs : List Bytes) (info : SectionOutputInfo) :
    SectionOutputInfo :=
  { info with
    locationInfo := if locationInfo.isSome then locationInfo else info.locationInfo
    phdrs := if phdrs = [] then info.phdrs else phdrs }

/-- The built-in single-part section of a name; a partial object has none. -/
def resolvedId (o : OutputSections) (sectionName : SectionName) : Option OutputSectionId :=
  if o.outputKind.isPartialObject then none
  else (List.range regularSectionBase).find? (fun id => o.name id = some sectionName)

/-- `add_named_section`. -/
def addNamedSection (o : OutputSections) (sectionName : SectionName)
    (locationInfo : Option SectionLocationInfo) (phdrs : List Bytes) : OutputSections × OutputSectionId :=
  match o.customByName sectionName with
  | some id => (o.modifyInfo id (redeclare locationInfo phdrs), id)
  | none =>
    match o.resolvedId sectionName with
    | some id =>
      ({ o.modifyInfo id (redeclare locationInfo phdrs) with
         customByName := Function.update o.customByName sectionName (some id) }, id)
    | none =>
      let id := o.sectionInfos.length
      ({ o with
         sectionInfos := o.sectionInfos ++
           [{ kind := .primary sectionName, locationInfo := locationInfo, phdrs := phdrs }]
         customByName := Function.update o.customByName sectionName (some id) }, id)

/-- `add_secondary_section`. -/
def addSecondarySection (o : OutputSections) (primary : OutputSectionId) (secondaryOrder : Option Nat)
    (locationInfo : Option SectionLocationInfo) : OutputSections × OutputSectionId :=
  let primaryInfo := o.info primary
  ({ o with
     sectionInfos := o.sectionInfos ++
       [{ kind := .secondary primary
          sectionAttributes := primaryInfo.sectionAttributes
          locationInfo := if locationInfo.isSome then locationInfo else primaryInfo.locationInfo
          secondaryOrder := secondaryOrder }] }, o.sectionInfos.length)

/-- `get_or_create_init_fini_secondary`. -/
def getOrCreateInitFiniSecondary (o : OutputSections) (primary : OutputSectionId) (priority : Nat) :
    OutputSections :=
  match o.initFiniByPriority (primary, priority) with
  | some _ => o
  | none =>
    let (added, id) := o.addSecondarySection primary (some priority) none
    { added with initFiniByPriority := Function.update o.initFiniByPriority (primary, priority) (some id) }

/-! ### Reading an updated table -/

theorem info_modifyInfo (o : OutputSections) (id i : OutputSectionId) (f : SectionOutputInfo → SectionOutputInfo)
    (h : id < o.sectionInfos.length) :
    (o.modifyInfo id f).info i = if i = id then f (o.info i) else o.info i := by
  unfold info modifyInfo
  by_cases hi : i = id
  · subst hi
    simp [List.getD_eq_getElem?_getD, h]
  · rw [if_neg hi]
    simp [List.getD_eq_getElem?_getD, Ne.symm hi]

/-- Appending a section leaves the others as they were. -/
theorem info_append (o : OutputSections) (info' : SectionOutputInfo) (i : OutputSectionId)
    (hi : i ≠ o.sectionInfos.length) :
    { o with sectionInfos := o.sectionInfos ++ [info'] }.info i = o.info i := by
  unfold info
  show (o.sectionInfos ++ [info']).getD i _ = _
  rcases Nat.lt_or_gt_of_ne hi with h | h
  · rw [List.getD_append _ _ _ _ h]
  · rw [List.getD_eq_default _ _ (by simp; omega), List.getD_eq_default _ _ (by omega)]

theorem info_append_self (o : OutputSections) (info' : SectionOutputInfo) :
    { o with sectionInfos := o.sectionInfos ++ [info'] }.info o.sectionInfos.length = info' := by
  unfold info
  simp [List.getD_eq_getElem?_getD]

theorem info_of_length_le (o : OutputSections) (i : OutputSectionId) (hi : o.sectionInfos.length ≤ i) :
    o.info i = primarySection "" 0 0 := List.getD_eq_default _ _ hi

theorem length_modifyInfo (o : OutputSections) (id : OutputSectionId)
    (f : SectionOutputInfo → SectionOutputInfo) :
    (o.modifyInfo id f).sectionInfos.length = o.sectionInfos.length := List.length_modify ..

end OutputSections

end Reld

/-!
# The parts of output sections

An output section consists of parts. The sections before the regular ones have a single part; a regular or a
custom section has one part for each alignment, the largest alignment first. A part is named here by its
section and its index there. `PartMap` gives each part a value: densely for the built-in sections, and for the
custom sections only where a value was set.
-/

variable {id : OutputSectionId}

namespace Reld

/-! ## Alignments -/

/-- `Alignment`: the exponent of a power of two. -/
abbrev Alignment := Nat

namespace Alignment

/-- `value`. -/
def value (a : Alignment) : Nat := 2 ^ a

/-- `align_up`. -/
def alignUp (a : Alignment) (v : Nat) : Nat := nextMultipleOf v a.value

/-- `align_modulo`: from `align_up(offset)` on, the first position with the residue of `refOffset`. -/
def alignModulo (a : Alignment) (refOffset offset : Nat) : Nat :=
  let offset := a.alignUp offset
  if offset % a.value = refOffset % a.value then offset
  else
    let adjustment := refOffset % a.value + a.value - offset % a.value
    offset + (if a.value < adjustment then adjustment - a.value else adjustment)

theorem value_pos (a : Alignment) : 0 < a.value := Nat.two_pow_pos a

theorem le_alignUp (a : Alignment) (v : Nat) : v ≤ a.alignUp v := le_nextMultipleOf v a.value_pos

theorem alignUp_eq_self_iff {a : Alignment} {v : Nat} : a.alignUp v = v ↔ a.value ∣ v :=
  nextMultipleOf_eq_self_iff a.value_pos

theorem value_dvd_alignUp (a : Alignment) (v : Nat) : a.value ∣ a.alignUp v := dvd_nextMultipleOf v a.value

theorem value_dvd {a b : Alignment} (h : a ≤ b) : a.value ∣ b.value := Nat.pow_dvd_pow 2 h

theorem le_alignModulo (a : Alignment) (refOffset offset : Nat) : offset ≤ a.alignModulo refOffset offset := by
  have h := a.le_alignUp offset
  unfold alignModulo
  simp only
  split <;> omega

/-- A smaller alignment keeps two offsets in step. -/
theorem alignUp_mod {a b : Alignment} (h : a ≤ b) {p q : Nat} (hpq : p % b.value = q % b.value) :
    a.alignUp p % b.value = a.alignUp q % b.value := nextMultipleOf_mod a.value_pos (value_dvd h) hpq

/-- `align_modulo` puts an offset in step with the other one. -/
theorem alignModulo_mod (a : Alignment) (refOffset offset : Nat) :
    a.alignModulo refOffset offset % a.value = refOffset % a.value := by
  have hzero : a.alignUp offset % a.value = 0 := Nat.mod_eq_zero_of_dvd (a.value_dvd_alignUp offset)
  unfold alignModulo
  simp only
  split
  · assumption
  · rename_i hne
    have hlt : a.value < refOffset % a.value + a.value - a.alignUp offset % a.value := by omega
    have hsub : refOffset % a.value + a.value - a.alignUp offset % a.value - a.value = refOffset % a.value := by omega
    rw [if_pos hlt, hsub, Nat.add_mod, hzero, Nat.zero_add, Nat.mod_mod, Nat.mod_mod]

end Alignment

/-! ## Parts -/

/-- `NUM_ALIGNMENTS`. -/
def numAlignments : Nat := 17

/-- The size of `part_id_range`. -/
def numParts (id : OutputSectionId) : Nat := if id < regularSectionBase then 1 else numAlignments

/-- `init` and `fini`. -/
def initSection : OutputSectionId := 39
def finiSection : OutputSectionId := 40

/-- `should_pack`: `PACKED_SECTION_IDS`. -/
def shouldPack (id : OutputSectionId) : Bool := id = initSection || id = finiSection

/-- `PartId::alignment`, given the minimum alignment of each section. -/
def partAlignment (minAlignment : OutputSectionId → Alignment) (id : OutputSectionId) (part : Nat) : Alignment :=
  if id < regularSectionBase then minAlignment id else numAlignments - 1 - part

/-- `part_id_with_alignment`. -/
def partWithAlignment (a : Alignment) : Nat := numAlignments - 1 - a

/-- `Section::capacity`: what an input section of a part takes up. -/
def capacity (minAlignment : OutputSectionId → Alignment) (id : OutputSectionId) (part size : Nat) : Nat :=
  if shouldPack id then size else (partAlignment minAlignment id part).alignUp size

/-- The alignments of the parts fall. -/
theorem partAlignment_anti {minAlignment : OutputSectionId → Alignment} {i j : Nat} (h : i ≤ j) :
    partAlignment minAlignment id j ≤ partAlignment minAlignment id i := by
  unfold partAlignment
  split
  · exact Nat.le_refl _
  · exact Nat.sub_le_sub_left h _

/-! ## Maps -/

/-- `OutputSectionPartMap`. -/
structure PartMap (α : Type) where
  parts : OutputSectionId → Nat → α
  sparse : OutputSectionId → Nat → Option α := fun _ _ => none

namespace PartMap

variable {α : Type}

/-- The entry of a part, if there is one. -/
def entry (m : PartMap α) (id : OutputSectionId) (part : Nat) : Option α :=
  if id < numBuiltInSections then some (m.parts id part) else m.sparse id part

/-- `in_range` for the parts of a section: the entries, by index. -/
def inRange (m : PartMap α) (id : OutputSectionId) : List (Nat × α) :=
  (List.range (numParts id)).filterMap fun part => (m.entry id part).map fun v => (part, v)

/-- `get`. -/
def get (m : PartMap Nat) (id : OutputSectionId) (part : Nat) : Nat := (m.entry id part).getD 0

/-- `new_part_map`. -/
def new : PartMap Nat := { parts := fun _ _ => 0 }

/-- `merge`. -/
def merge (m rhs : PartMap Nat) : PartMap Nat :=
  { parts := fun id part => m.parts id part + rhs.parts id part
    sparse := fun id part =>
      match rhs.sparse id part with
      | some right => some ((m.sparse id part).getD 0 + right)
      | none => m.sparse id part }

/-- `map`. -/
def map {β : Type} (m : PartMap α) (cb : OutputSectionId → α → β) : PartMap β :=
  { parts := fun id part => cb id (m.parts id part)
    sparse := fun id part => (m.sparse id part).map (cb id) }

/-- `max_alignment`: the alignment of the first part that is not empty, and at least that of the section. -/
def maxAlignment (m : PartMap Nat) (minAlignment : OutputSectionId → Alignment) (id : OutputSectionId) :
    Alignment :=
  max (((m.inRange id).find? (fun p => p.2 ≠ 0)).elim 0 (fun p => partAlignment minAlignment id p.1))
    (minAlignment id)

theorem mem_inRange {m : PartMap α} {part : Nat} {v : α} :
    (part, v) ∈ m.inRange id ↔ part < numParts id ∧ m.entry id part = some v := by
  simp only [inRange, List.mem_filterMap, List.mem_range, Option.map_eq_some_iff, Prod.mk.injEq]
  constructor
  · rintro ⟨p, hp, v', hv, rfl, rfl⟩
    exact ⟨hp, hv⟩
  · rintro ⟨hp, hv⟩
    exact ⟨part, hp, v, hv, rfl, rfl⟩

/-- The entries of a section come by increasing index. -/
theorem pairwise_inRange (m : PartMap α) (id : OutputSectionId) : (m.inRange id).Pairwise (·.1 < ·.1) := by
  unfold inRange
  rw [List.pairwise_filterMap]
  refine List.pairwise_lt_range.imp fun {i j} hij => ?_
  simp only [Option.map_eq_some_iff, forall_exists_index, and_imp]
  rintro _ _ _ rfl _ _ _ rfl
  exact hij

theorem get_merge (m rhs : PartMap Nat) (id : OutputSectionId) (part : Nat) :
    (m.merge rhs).get id part = m.get id part + rhs.get id part := by
  unfold get entry merge
  split
  · rfl
  · cases h : rhs.sparse id part <;> simp [h]

/-- A part of a merged map has an entry when one of the two maps has one. -/
theorem entry_merge_isSome (m rhs : PartMap Nat) (id : OutputSectionId) (part : Nat) :
    ((m.merge rhs).entry id part).isSome ↔ (m.entry id part).isSome ∨ (rhs.entry id part).isSome := by
  unfold entry merge
  split
  · simp
  · cases h : rhs.sparse id part <;> simp [h]

theorem get_eq_of_entry {m : PartMap Nat} {part v : Nat} (h : m.entry id part = some v) : m.get id part = v := by
  unfold get
  rw [h]
  rfl

end PartMap

/-- The sizes of all groups together (`compute_total_section_part_sizes`). -/
def totalSizes (groups : List (PartMap Nat)) : PartMap Nat := groups.foldl PartMap.merge PartMap.new

theorem get_foldl_merge (groups : List (PartMap Nat)) (m : PartMap Nat) (id : OutputSectionId) (part : Nat) :
    (groups.foldl PartMap.merge m).get id part = m.get id part + (groups.map (·.get id part)).sum := by
  induction groups generalizing m with
  | nil => simp
  | cons g groups ih =>
    rw [List.foldl_cons, ih, PartMap.get_merge, List.map_cons, List.sum_cons, Nat.add_assoc]

/-- The size of a part is the sum over the groups. -/
theorem get_totalSizes (groups : List (PartMap Nat)) (id : OutputSectionId) (part : Nat) :
    (totalSizes groups).get id part = (groups.map (·.get id part)).sum := by
  have h : PartMap.new.get id part = 0 := by
    unfold PartMap.get PartMap.entry PartMap.new
    split <;> rfl
  rw [totalSizes, get_foldl_merge, h, Nat.zero_add]

end Reld
