import Reld.Relax.Deltas
import Reld.Layout.Buffers

/-!
# `Relax.SymbolAddresses` — two computations of the address of a symbol

Between two passes `compute_section_and_symbol_addresses` walks the files of every group, hands out the addresses
of the loaded sections and gives each canonical symbol the address of its section plus its value. After the last
pass `create_symbol_resolution` gives the address that is written: there the value goes through the deltas of the
section first. So the two agree exactly for the symbols that no deleted byte precedes (`symbol_address_eq_iff`).
-/

namespace Reld

/-- A symbol of an object, as the two computations read it. -/
structure DefinedSymbol where
  /-- `symbol_section`; `none` is an error. -/
  symbolSection : Option (Option Nat)
  value : BitVec 64
  isAbsolute : Bool := false
  /-- `as_common`: the part of the output and the size. -/
  common : Option ((OutputSectionId × Nat) × Nat) := none

/-- `SectionSlot`, as far as the addresses depend on it. -/
inductive AddressedSlot where
  | loaded (size : Nat)
  | loadedDebugInfo (size : Nat)
  | other

/-- `ObjectLayoutState`. -/
structure AddressedObject where
  /-- The slots with their `section_part_id`. -/
  sections : List (AddressedSlot × OutputSectionId × Nat)
  ehFrameSize : Nat := 0
  /-- The start of `symbol_id_range`. -/
  firstSymbol : Nat
  /-- The symbols of the range; `none` is an index that cannot be read. -/
  symbols : List (Option DefinedSymbol)
  /-- `section_relax_deltas.get`. -/
  deltas : Nat → Option SectionRelaxDeltas := fun _ => none

/-- `FileLayoutState`. -/
inductive AddressedFile where
  | object (obj : AddressedObject)
  | other

def AddressedFile.object? : AddressedFile → Option AddressedObject
  | .object obj => some obj
  | .other      => none

/-- The groups, each with its `mem_sizes`. The symbol ids of a later object are above those of an earlier one. -/
structure AddressedGroups where
  groups : List (PartMap Nat × List AddressedFile)
  idsAscend : ((groups.flatMap (·.2)).filterMap AddressedFile.object?).Pairwise fun o p =>
    o.firstSymbol + o.symbols.length ≤ p.firstSymbol

/-- `symbol_definitions` of the `SymbolDb`. -/
structure Definitions where
  symbolDefinitions : Nat → Nat

def Definitions.definition (db : Definitions) (id : Nat) : Nat := db.symbolDefinitions (db.symbolDefinitions id)

def Definitions.isCanonical (db : Definitions) (id : Nat) : Bool := db.symbolDefinitions id == id

/-! ## Before a pass -/

namespace SymbolAddresses

section

variable (minAlignment : OutputSectionId → Alignment) (db : Definitions)

/-- The running offset of each part. -/
abbrev Offsets := OutputSectionId → Nat → Nat

/-- `*offsets.get_mut(part_id) += size`. -/
def advance (offsets : Offsets) (id : OutputSectionId) (part size : Nat) : Offsets :=
  fun id' part' => if id' = id ∧ part' = part then offsets id' part' + size else offsets id' part'

/-- The addresses of the sections of an object; 0 for those that get none. -/
def sectionAddresses : List (AddressedSlot × OutputSectionId × Nat) → Offsets → List Nat × Offsets
  | [], offsets => ([], offsets)
  | (.loaded size, id, part) :: rest, offsets =>
    let r := sectionAddresses rest (advance offsets id part (capacity minAlignment id part size))
    (offsets id part :: r.1, r.2)
  | (.loadedDebugInfo size, id, part) :: rest, offsets =>
    let r := sectionAddresses rest (advance offsets id part (capacity minAlignment id part size))
    (0 :: r.1, r.2)
  | (.other, _, _) :: rest, offsets =>
    let r := sectionAddresses rest offsets
    (0 :: r.1, r.2)

/-- `.eh_frame` -/
def ehFrameSection : OutputSectionId := 10

/-- `compute_object_addresses`. -/
def computeObjectAddresses (obj : AddressedObject) (offsets : Offsets) : Offsets :=
  advance offsets ehFrameSection 0 obj.ehFrameSize

/-- What is stored for a canonical symbol. A section at address 0 counts as one without an address. -/
def symbolStore (addresses : List Nat) (sym : DefinedSymbol) : Option (BitVec 64) :=
  match sym.symbolSection with
  | some (some section_) =>
    let secAddr := (addresses[section_]?).getD 0
    if secAddr = 0 then none else some (BitVec.ofNat 64 secAddr + sym.value)
  | some none => if sym.isAbsolute then some sym.value else none
  | none => none

/-- The stores for the symbols of an object from an id on. -/
def symbolStores (addresses : List Nat) : List (Option DefinedSymbol) → Nat → List (Nat × BitVec 64)
  | [], _ => []
  | sym :: rest, id =>
    ((sym.bind fun sym => if db.definition id = id then symbolStore addresses sym else none).map (id, ·)).toList ++
      symbolStores addresses rest (id + 1)

/-- The files of a group: the addresses of the sections of each and the stores for its symbols. -/
def walkFiles : List AddressedFile → Offsets → List (List Nat × List (Nat × BitVec 64))
  | [], _ => []
  | .object obj :: files, offsets =>
    let r := sectionAddresses minAlignment obj.sections offsets
    (r.1, symbolStores db r.1 obj.symbols obj.firstSymbol) :: walkFiles files (computeObjectAddresses obj r.2)
  | .other :: files, offsets => ([], []) :: walkFiles files offsets

/-- The walks over all groups. -/
def walkGroups (layout : LayoutState) (groups : List (PartMap Nat × List AddressedFile)) :
    List (List (List Nat × List (Nat × BitVec 64))) :=
  let startingOffsets := startOffsetsByGroup (groups.map (·.1)) fun id part => (layout.recordOf id part).memOffset
  List.zipWith (fun group offsets => walkFiles minAlignment db group.2 offsets) groups startingOffsets

/-- `SYMBOL_ADDRESS_UNRESOLVED`. -/
def unresolved : BitVec 64 := BitVec.allOnes 64

/-- `compute_section_and_symbol_addresses`: the addresses of the sections, by group and file, and those of the
    symbols. -/
def computeSectionAndSymbolAddresses (layout : LayoutState) (groups : List (PartMap Nat × List AddressedFile)) :
    List (List (List Nat)) × (Nat → BitVec 64) :=
  let walks := walkGroups minAlignment db layout groups
  (walks.map fun files => files.map (·.1),
    (walks.flatten.flatMap (·.2)).foldl (fun addresses store => Function.update addresses store.1 store.2)
      fun _ => unresolved)

end

/-! ## After the last pass -/

/-- `SectionResolution`. -/
structure SectionResolution where
  rawAddress : BitVec 64

/-- `address`: all ones say that the section has none. -/
def SectionResolution.address (r : SectionResolution) : Option (BitVec 64) :=
  if r.rawAddress = BitVec.allOnes 64 then none else some r.rawAddress

/-- `opt_input_to_output`. -/
def optInputToOutput (deltas : Option SectionRelaxDeltas) (inputOffset : BitVec 64) : BitVec 64 :=
  match deltas with
  | some d => BitVec.ofNat 64 (d.inputToOutputOffset inputOffset.toNat)
  | none   => inputOffset

/-- What `create_symbol_resolution` reads besides the object. -/
structure ResolutionResources where
  db : Definitions
  /-- `has_resolution` of the flags of a symbol. -/
  hasResolution : Nat → Bool
  /-- `get_merged_string_output_address` -/
  mergedStringAddress : Nat → Option (BitVec 64)
  isMappingSymbol : Nat → Bool

/-- `create_symbol_resolution`: the raw value, if the symbol gets a resolution; the outer `none` is an error. -/
def createSymbolResolution (res : ResolutionResources) (resolutions : List SectionResolution)
    (memoryOffsets : Offsets) (obj : AddressedObject) (index : Nat) (sym : DefinedSymbol) :
    Option (Option (BitVec 64)) :=
  let id := obj.firstSymbol + index
  if !res.hasResolution id || !res.db.isCanonical id then some none
  else sym.symbolSection.bind fun
    | some section_ => (resolutions[section_]?).bind fun resolution =>
      match resolution.address with
      | some sectionAddress => some (some (optInputToOutput (obj.deltas section_) sym.value + sectionAddress))
      | none =>
        match res.mergedStringAddress id with
        | some x => some (some x)
        | none   => if res.isMappingSymbol id then some none else none
    | none =>
      match sym.common with
      | some ((id, part), _) => some (some (BitVec.ofNat 64 (memoryOffsets id part)))
      | none                 => some (some sym.value)

/-! ## The stores -/

section

variable {minAlignment : OutputSectionId → Alignment} {db : Definitions}

theorem mem_symbolStores {addresses : List Nat} {sym : DefinedSymbol} {v : BitVec 64}
    {symbols : List (Option DefinedSymbol)} {i first : Nat} (hsym : symbols[i]? = some (some sym))
    (hdef : db.definition (first + i) = first + i) (hv : symbolStore addresses sym = some v) :
    (first + i, v) ∈ symbolStores db addresses symbols first := by
  induction symbols generalizing i first with
  | nil => cases hsym
  | cons s symbols ih =>
    rw [symbolStores, List.mem_append]
    cases i with
    | zero =>
      rw [List.getElem?_cons_zero, Option.some.injEq] at hsym
      subst hsym
      left
      rw [Nat.add_zero] at hdef ⊢
      simp [hdef, hv]
    | succ i =>
      right
      have hnext : first + (i + 1) = first + 1 + i := by omega
      rw [hnext] at hdef ⊢
      exact ih (by rwa [List.getElem?_cons_succ] at hsym) hdef

/-- The ids of the stores ascend within the range of the object. -/
theorem symbolStores_ids (addresses : List Nat) (symbols : List (Option DefinedSymbol)) (first : Nat) :
    (∀ s ∈ symbolStores db addresses symbols first, first ≤ s.1 ∧ s.1 < first + symbols.length) ∧
      (symbolStores db addresses symbols first).Pairwise (·.1 < ·.1) := by
  induction symbols generalizing first with
  | nil => exact ⟨fun _ h => absurd h List.not_mem_nil, List.Pairwise.nil⟩
  | cons sym symbols ih =>
    obtain ⟨hids, hpairwise⟩ := ih (first + 1)
    rw [symbolStores, List.length_cons]
    -- at most one store is for this symbol, and it has the first id
    have hhead : ∀ s ∈ ((sym.bind fun sym => if db.definition first = first then symbolStore addresses sym
        else none).map (first, ·)).toList, s.1 = first := by
      intro s hs
      obtain ⟨v, -, rfl⟩ := Option.map_eq_some_iff.1 (Option.mem_toList.1 hs)
      rfl
    constructor
    · intro s hs
      rcases List.mem_append.1 hs with hs | hs
      · have := hhead s hs
        omega
      · have := hids s hs
        omega
    · refine List.pairwise_append.2 ⟨?_, hpairwise, ?_⟩
      · cases (sym.bind fun sym => if db.definition first = first then symbolStore addresses sym else none) with
        | none => exact List.Pairwise.nil
        | some v => exact List.pairwise_singleton _ _
      · intro s hs t ht
        rw [hhead s hs]
        exact (hids t ht).1

/-- The stores of a file are for its own symbols. -/
structure Own (file : AddressedFile) (walk : List Nat × List (Nat × BitVec 64)) : Prop where
  pairwise : walk.2.Pairwise (·.1 < ·.1)
  inRange : ∀ s ∈ walk.2, ∃ obj, file = .object obj ∧ obj.firstSymbol ≤ s.1 ∧
    s.1 < obj.firstSymbol + obj.symbols.length

theorem walkFiles_own (files : List AddressedFile) (offsets : Offsets) :
    List.Forall₂ Own files (walkFiles minAlignment db files offsets) := by
  induction files generalizing offsets with
  | nil => exact .nil
  | cons file files ih =>
    cases file with
    | object obj =>
      refine .cons ⟨(symbolStores_ids _ _ _).2, ?_⟩ (ih _)
      intro s hs
      exact ⟨obj, rfl, (symbolStores_ids _ _ _).1 s hs⟩
    | other => exact .cons ⟨.nil, fun _ h => absurd h List.not_mem_nil⟩ (ih _)

variable {files : List AddressedFile} {walks : List (List Nat × List (Nat × BitVec 64))}

theorem stores_inRange (h : List.Forall₂ Own files walks) {s : Nat × BitVec 64} (hs : s ∈ walks.flatMap (·.2)) :
    ∃ obj ∈ files.filterMap AddressedFile.object?, obj.firstSymbol ≤ s.1 := by
  induction h with
  | nil => cases hs
  | @cons file walk files walks hown hrest ih =>
    rw [List.flatMap_cons, List.mem_append] at hs
    rcases hs with hs | hs
    · obtain ⟨obj, rfl, hle, -⟩ := hown.inRange s hs
      exact ⟨obj, List.mem_cons_self, hle⟩
    · obtain ⟨obj, hobj, hle⟩ := ih hs
      exact ⟨obj, ((List.sublist_cons_self file files).filterMap _).subset hobj, hle⟩

theorem pairwise_stores (h : List.Forall₂ Own files walks)
    (hids : (files.filterMap AddressedFile.object?).Pairwise fun o p =>
      o.firstSymbol + o.symbols.length ≤ p.firstSymbol) :
    (walks.flatMap (·.2)).Pairwise (·.1 < ·.1) := by
  induction h with
  | nil => exact .nil
  | @cons file walk files walks hown hrest ih =>
    have hpairwise : (walks.flatMap (·.2)).Pairwise (·.1 < ·.1) :=
      ih (hids.sublist ((List.sublist_cons_self file files).filterMap _))
    refine List.pairwise_append.2 ⟨hown.pairwise, hpairwise, ?_⟩
    -- a later store is for a later object
    intro s hs t ht
    obtain ⟨obj, rfl, -, hlt⟩ := hown.inRange s hs
    obtain ⟨obj', hobj', hle⟩ := stores_inRange hrest ht
    have := (List.pairwise_cons.1 hids).1 obj' hobj'
    omega

/-- A store is found again when no other has its id. -/
theorem foldl_update_of_mem {stores : List (Nat × BitVec 64)} {id : Nat} {v : BitVec 64}
    (hstores : stores.Pairwise (·.1 < ·.1)) (hmem : (id, v) ∈ stores) (addresses : Nat → BitVec 64) :
    stores.foldl (fun addresses store => Function.update addresses store.1 store.2) addresses id = v := by
  induction stores using List.reverseRecOn with
  | nil => cases hmem
  | append_singleton stores store ih =>
    obtain ⟨hfront, -, hlast⟩ := List.pairwise_append.1 hstores
    rw [List.foldl_append, List.foldl_cons, List.foldl_nil]
    rcases List.mem_append.1 hmem with hmem | hmem
    · have hlt : id < store.1 := hlast _ hmem store List.mem_cons_self
      rw [Function.update_of_ne (Nat.ne_of_lt hlt)]
      exact ih hfront hmem
    · obtain rfl := List.mem_singleton.1 hmem
      exact Function.update_self ..

/-! ## The walk that reaches an object -/

variable {layout : LayoutState} {obj : AddressedObject}

theorem getElem?_walkFiles (minAlignment : OutputSectionId → Alignment) (db : Definitions) {f : Nat}
    (hfile : files[f]? = some (.object obj)) (offsets : Offsets) :
    ∃ addresses, (walkFiles minAlignment db files offsets)[f]? =
      some (addresses, symbolStores db addresses obj.symbols obj.firstSymbol) := by
  induction files generalizing f offsets with
  | nil => cases hfile
  | cons file files ih =>
    cases f with
    | zero =>
      obtain rfl := Option.some.inj hfile
      exact ⟨_, rfl⟩
    | succ f =>
      cases file with
      | object _ => exact ih hfile _
      | other => exact ih hfile _

theorem length_startOffsetsByGroup (sizes : List (PartMap Nat)) (offsets : Offsets) :
    (startOffsetsByGroup sizes offsets).length = sizes.length := by
  induction sizes generalizing offsets with
  | nil => rfl
  | cons size sizes ih => exact congrArg (· + 1) (ih _)

variable {groups : List (PartMap Nat × List AddressedFile)}

theorem walkGroups_own (layout : LayoutState) (groups : List (PartMap Nat × List AddressedFile)) :
    List.Forall₂ Own (groups.flatMap (·.2)) (walkGroups minAlignment db layout groups).flatten := by
  unfold walkGroups
  generalize (fun id part => (layout.recordOf id part).memOffset) = offsets
  induction groups generalizing offsets with
  | nil => exact .nil
  | cons group groups ih =>
    exact List.rel_append (walkFiles_own group.2 _) (ih _)

theorem getElem?_walkGroups (minAlignment : OutputSectionId → Alignment) (db : Definitions) (layout : LayoutState) {g f : Nat}
    (hfile : (groups[g]?).bind (·.2[f]?) = some (.object obj)) :
    ∃ walks addresses, (walkGroups minAlignment db layout groups)[g]? = some walks ∧
      walks[f]? = some (addresses, symbolStores db addresses obj.symbols obj.firstSymbol) := by
  obtain ⟨group, hgroup, hfile⟩ := Option.bind_eq_some_iff.1 hfile
  obtain ⟨hlt, -⟩ := List.getElem?_eq_some_iff.1 hgroup
  have hlength : g < (startOffsetsByGroup (groups.map (·.1))
      fun id part => (layout.recordOf id part).memOffset).length := by
    rwa [length_startOffsetsByGroup, List.length_map]
  obtain ⟨addresses, haddresses⟩ := getElem?_walkFiles minAlignment db hfile
    (startOffsetsByGroup (groups.map (·.1)) fun id part => (layout.recordOf id part).memOffset)[g]
  refine ⟨_, addresses, ?_, haddresses⟩
  rw [walkGroups, List.getElem?_zipWith, hgroup, List.getElem?_eq_getElem hlength]

/-- What is stored for a canonical symbol is what the passes read. -/
theorem address_of_symbolStore (minAlignment : OutputSectionId → Alignment) (layout : LayoutState) (groups : AddressedGroups)
    {g f i : Nat} {sym : DefinedSymbol} (hfile : (groups.groups[g]?).bind (·.2[f]?) = some (.object obj)) (hsym : obj.symbols[i]? = some (some sym))
    (hdef : db.definition (obj.firstSymbol + i) = obj.firstSymbol + i) :
    ∃ addresses,
      ((computeSectionAndSymbolAddresses minAlignment db layout groups.groups).1[g]?).bind (·[f]?) = some addresses ∧
      ∀ v, symbolStore addresses sym = some v →
        (computeSectionAndSymbolAddresses minAlignment db layout groups.groups).2 (obj.firstSymbol + i) = v := by
  obtain ⟨walks, addresses, hwalks, hwalk⟩ :=
    getElem?_walkGroups minAlignment db layout hfile
  refine ⟨addresses, ?_, ?_⟩
  · simp [computeSectionAndSymbolAddresses, hwalks, hwalk]
  · intro v hv
    apply foldl_update_of_mem (pairwise_stores (walkGroups_own layout groups.groups) groups.idsAscend)
    have hmem := mem_symbolStores hsym hdef hv
    exact List.mem_flatMap.2 ⟨_, List.mem_flatten.2 ⟨walks, List.mem_of_getElem? hwalks, List.mem_of_getElem? hwalk⟩, hmem⟩

theorem optInputToOutput_eq_iff {deltas : Option SectionRelaxDeltas} {value : BitVec 64}
    (hdeltas : ∀ d ∈ deltas, d.Accumulated) :
    optInputToOutput deltas value = value ↔
      ∀ d ∈ deltas, ∀ e ∈ d, e.inputOffset < value.toNat → e.bytesDeleted = 0 := by
  cases deltas with
  | none => exact ⟨fun _ _ h => (by cases h), fun _ => rfl⟩
  | some d =>
    have hd := hdeltas d rfl
    have hiff : optInputToOutput (some d) value = value ↔ d.deletedBefore value.toNat = 0 := by
      have hzero : value.toNat = 0 → d.deletedBefore value.toNat = 0 := by
        intro h
        rw [hd.deletedBefore_eq_zero_iff, h]
        exact fun e _ hlt => absurd hlt (Nat.not_lt_zero _)
      rw [optInputToOutput, ← BitVec.toNat_inj, BitVec.toNat_ofNat, SectionRelaxDeltas.inputToOutputOffset]
      omega
    rw [hiff, hd.deletedBefore_eq_zero_iff]
    constructor
    · rintro h _ ⟨⟩
      exact h
    · intro h
      exact h d rfl

end

/-- **The two addresses of a symbol are the same exactly when no byte is deleted in front of it.** -/
theorem symbol_address_eq_iff (groups : AddressedGroups) (layout : LayoutState)
    (minAlignment : OutputSectionId → Alignment) (res : ResolutionResources) (resolutions : List SectionResolution)
    (memoryOffsets : Offsets) {g f i s a : Nat} {obj : AddressedObject} {sym : DefinedSymbol}
    (hfile : (groups.groups[g]?).bind (·.2[f]?) = some (.object obj)) (hsym : obj.symbols[i]? = some (some sym))
    (hsection : sym.symbolSection = some (some s))
    (hcanonical : res.db.isCanonical (obj.firstSymbol + i) = true)
    (hresolution : res.hasResolution (obj.firstSymbol + i) = true)
    (haddress : (((computeSectionAndSymbolAddresses minAlignment res.db layout groups.groups).1[g]?).bind
      (·[f]?)).bind (·[s]?) = some a) (ha : a ≠ 0)
    (hsame : (resolutions[s]?).bind SectionResolution.address = some (BitVec.ofNat 64 a))
    (hdeltas : ∀ d ∈ obj.deltas s, d.Accumulated) :
    createSymbolResolution res resolutions memoryOffsets obj i sym =
        some (some ((computeSectionAndSymbolAddresses minAlignment res.db layout groups.groups).2
          (obj.firstSymbol + i))) ↔
      ∀ d ∈ obj.deltas s, ∀ e ∈ d, e.inputOffset < sym.value.toNat → e.bytesDeleted = 0 := by
  have hdefinition : res.db.definition (obj.firstSymbol + i) = obj.firstSymbol + i := by
    rw [Definitions.isCanonical, beq_iff_eq] at hcanonical
    rw [Definitions.definition, hcanonical, hcanonical]
  obtain ⟨addresses, haddresses, hstored⟩ :=
    address_of_symbolStore minAlignment layout groups hfile hsym hdefinition
  rw [haddresses, Option.bind_some] at haddress
  have hbefore := hstored (BitVec.ofNat 64 a + sym.value) (by
    simp only [symbolStore, hsection, haddress, Option.getD_some, if_neg ha])
  obtain ⟨resolution, hget, haddr⟩ := Option.bind_eq_some_iff.1 hsame
  have hafter : createSymbolResolution res resolutions memoryOffsets obj i sym =
      some (some (optInputToOutput (obj.deltas s) sym.value + BitVec.ofNat 64 a)) := by
    simp only [createSymbolResolution, hresolution, hcanonical, hsection, hget, haddr, Bool.not_true, Bool.or_false,
      Bool.false_eq_true, if_false, Option.bind_some]
  rw [hbefore, hafter, Option.some.injEq, Option.some.injEq, BitVec.add_comm (BitVec.ofNat 64 a), BitVec.add_left_inj]
  exact optInputToOutput_eq_iff hdeltas

/-- A section with three instructions, the first of which lost its last four bytes, and a symbol at an offset. -/
def callThen (value : BitVec 64) : AddressedObject :=
  { sections := [(.loaded 12, textSection, 15)]
    firstSymbol := 1
    symbols := [some { symbolSection := some (some 0), value }]
    deltas := fun _ => some (.new [(4, 4)]) }

/-- The section is at `0x1000`. -/
def atPage : LayoutState :=
  { memOffset := 0, lmaOffset := 0, memoryRegions := fun _ => none
    records := fun id => if id = textSection then [(15, { memOffset := 0x1000 })] else [] }

def callResources : ResolutionResources :=
  { db := { symbolDefinitions := id }, hasResolution := fun _ => true, mergedStringAddress := fun _ => none
    isMappingSymbol := fun _ => false }

def callGroups (value : BitVec 64) : AddressedGroups :=
  { groups := [(PartMap.new, [.object (callThen value)])], idsAscend := List.pairwise_singleton _ _ }

/-- A symbol at the deletion itself: nothing is deleted in front of it. -/
theorem symbol_address_at_deletion :
    createSymbolResolution callResources [⟨0x1000⟩] (fun _ _ => 0) (callThen 4) 0
        { symbolSection := some (some 0), value := 4 } =
      some (some ((computeSectionAndSymbolAddresses (fun _ => 0) callResources.db atPage (callGroups 4).groups).2 1)) := by
  refine (symbol_address_eq_iff (callGroups 4) atPage (fun _ => 0) callResources [⟨0x1000⟩] (fun _ _ => 0)
    (g := 0) (f := 0) (i := 0) (s := 0) (a := 0x1000) rfl rfl rfl rfl rfl rfl (by decide) rfl ?_).2 ?_
  · rintro d ⟨⟩
    exact .ofRaw (List.pairwise_singleton _ _)
  · rintro d ⟨⟩ e he hlt
    obtain rfl := List.mem_singleton.1 he
    exact absurd hlt (by decide)

/-- A symbol behind the deletion: `0x1008` while sections are relaxed, `0x1004` in the output. -/
theorem symbol_address_behind_deletion :
    ¬ ∀ (groups : AddressedGroups) (layout : LayoutState) (minAlignment : OutputSectionId → Alignment)
      (res : ResolutionResources) (resolutions : List SectionResolution) (memoryOffsets : Offsets) (g f i s a : Nat)
      (obj : AddressedObject) (sym : DefinedSymbol),
      (groups.groups[g]?).bind (·.2[f]?) = some (.object obj) → obj.symbols[i]? = some (some sym) →
      sym.symbolSection = some (some s) → res.db.isCanonical (obj.firstSymbol + i) = true →
      res.hasResolution (obj.firstSymbol + i) = true →
      (((computeSectionAndSymbolAddresses minAlignment res.db layout groups.groups).1[g]?).bind
        (·[f]?)).bind (·[s]?) = some a → a ≠ 0 →
      (resolutions[s]?).bind SectionResolution.address = some (BitVec.ofNat 64 a) →
      (∀ d ∈ obj.deltas s, d.Accumulated) →
      createSymbolResolution res resolutions memoryOffsets obj i sym =
        some (some ((computeSectionAndSymbolAddresses minAlignment res.db layout groups.groups).2
          (obj.firstSymbol + i))) := by
  intro h
  have hsame := h (callGroups 8) atPage (fun _ => 0) callResources [⟨0x1000⟩] (fun _ _ => 0) 0 0 0 0 0x1000 (callThen 8)
    { symbolSection := some (some 0), value := 8 } rfl rfl rfl rfl rfl rfl (by decide) rfl (by
      rintro d ⟨⟩
      exact .ofRaw (List.pairwise_singleton _ _))
  have hbefore : (computeSectionAndSymbolAddresses (fun _ => 0) callResources.db atPage (callGroups 8).groups).2 1 =
      0x1008 := rfl
  have hafter : createSymbolResolution callResources [⟨0x1000⟩] (fun _ _ => 0) (callThen 8) 0
      { symbolSection := some (some 0), value := 8 } = some (some 0x1004) := rfl
  exact absurd (Option.some.inj (Option.some.inj hsame)) (by decide)

end SymbolAddresses

end Reld
