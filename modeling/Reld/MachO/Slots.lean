import Reld.Lib.Numbering
import Reld.Lib.Traverse
import Reld.MachO.ChainedFixups

/-!
# `MachO.Slots` — the entries of `__got` and `__stubs`

Three passes deal with the same entries: `allocate_resolution` counts them, `create_resolution` hands them out, and the
writer fills those of the imported symbols. The first one counts dynamic symbols only, the second one looks at what a
symbol needs, and a symbol with a stub gets a slot as well. They agree if every symbol that needs an entry is dynamic and
needs a slot, and if these are the imported symbols (`slots_sound_iff`).
-/

variable {imported : List ImportedEntries} {entrySize : Nat}

namespace Reld.MachO

open Numbering

/-! ## Reserving and handing out -/

/-- `PLT_ENTRY_SIZE` -/
def pltEntrySize : Nat := 12

/-- The parts `GOT` and `PLT_GOT` of a map by parts: sizes, or the next address in each. -/
structure SlotMap where
  got : Nat
  plt : Nat
deriving DecidableEq, Repr

/-- `allocate_resolution` -/
def allocateResolution (flags : ValueFlags) (memSizes : SlotMap) : SlotMap :=
  let memSizes :=
    if flags.isDynamic && flags.needsPlt then { memSizes with plt := memSizes.plt + pltEntrySize } else memSizes
  if flags.isDynamic && flags.needsGot then { memSizes with got := memSizes.got + gotEntrySize } else memSizes

/-- `allocate_got`. Sections are never at address zero. -/
def SlotMap.allocateGot (memoryOffsets : SlotMap) : Nat × SlotMap :=
  (memoryOffsets.got, { memoryOffsets with got := memoryOffsets.got + gotEntrySize })

/-- `allocate_plt` -/
def SlotMap.allocatePlt (memoryOffsets : SlotMap) : Nat × SlotMap :=
  (memoryOffsets.plt, { memoryOffsets with plt := memoryOffsets.plt + pltEntrySize })

/-- `Resolution`, with its `ResolutionExt`. -/
structure Resolution where
  rawValue : Nat
  flags : ValueFlags
  gotAddress : Option Nat
  pltAddress : Option Nat

/-- `create_resolution` -/
def createResolution (flags : ValueFlags) (rawValue : Nat) (memoryOffsets : SlotMap) : Resolution × SlotMap :=
  if flags.needsPlt then
    let plt := memoryOffsets.allocatePlt
    let got := plt.2.allocateGot
    (⟨plt.1, flags, some got.1, some plt.1⟩, got.2)
  else if flags.needsGot then
    let got := memoryOffsets.allocateGot
    (⟨got.1, flags, some got.1, none⟩, got.2)
  else (⟨rawValue, flags, none, none⟩, memoryOffsets)

/-- A symbol with a resolution: its flags, and the value of its definition. -/
structure SymbolValue where
  flags : ValueFlags
  rawValue : Nat

/-- What all symbols reserve. -/
def memSizes (symbols : List SymbolValue) : SlotMap := symbols.foldl (fun sizes s => allocateResolution s.flags sizes) ⟨0, 0⟩

/-- The resolutions of all symbols. -/
def createResolutions : SlotMap → List SymbolValue → List Resolution
  | _, [] => []
  | memoryOffsets, s :: symbols =>
    let created := createResolution s.flags s.rawValue memoryOffsets
    created.1 :: createResolutions created.2 symbols

/-! ## Writing -/

/-- `ImportedSymbolWithResolution`, with both of its entries. -/
structure ImportedEntries where
  symbolId : Nat
  gotAddress : Nat
  pltAddress : Option Nat
deriving DecidableEq, Repr

/-- `create_layout_ext`: the imported symbols sorted by their slots; `none` is the error for one without a slot. -/
def importedEntries (resolutions : List Resolution) (importedSymbols : List Nat) : Option (List ImportedEntries) :=
  (importedSymbols.mapM fun symbolId => (resolutions[symbolId]?).bind fun resolution =>
    resolution.gotAddress.map fun gotAddress => ⟨symbolId, gotAddress, resolution.pltAddress⟩).map
  fun imported => imported.mergeSort fun a b => a.gotAddress ≤ b.gotAddress

/-- Where an entry is in the bytes of its section; `none` if it is in front of them, or not inside. -/
def entryOffset (memOffset size entrySize address : Nat) : Option Nat :=
  if memOffset ≤ address ∧ address - memOffset + entrySize ≤ size then some (address - memOffset) else none

/-- The check of `write_plt_entry`: the slot is less than 4 GiB behind the page of the stub. -/
def stubReaches (gotAddress pltAddress : Nat) : Bool := (gotAddress + 2 ^ 64 - pltAddress / 4096 * 4096) % 2 ^ 64 < 2 ^ 32

/-- `write_got_entries`: the offsets that are written, in order. -/
def writeGotEntries (start sizes : SlotMap) (imported : List ImportedEntries) : Option (List Nat) :=
  imported.mapM fun s => entryOffset start.got sizes.got gotEntrySize s.gotAddress

/-- The imported symbols with a stub, with both addresses. -/
def stubsOf (imported : List ImportedEntries) : List (Nat × Nat) :=
  imported.filterMap fun s => s.pltAddress.map fun stubAddress => (s.gotAddress, stubAddress)

/-- `write_plt_entries`: the offsets that are written, in order. -/
def writePltEntries (start sizes : SlotMap) (imported : List ImportedEntries) : Option (List Nat) :=
  (stubsOf imported).mapM fun s =>
    (entryOffset start.plt sizes.plt pltEntrySize s.2).filter fun _ => stubReaches s.1 s.2

/-! ## What the passes agree on -/

section Spec

variable (start : SlotMap) (symbols : List SymbolValue) (importedSymbols : List Nat)

def gotAddresses : List Nat := (createResolutions start symbols).filterMap (·.gotAddress)

def pltAddresses : List Nat := (createResolutions start symbols).filterMap (·.pltAddress)

/-- The entries that were reserved. -/
def reservedEntries (size entrySize : Nat) : List Nat := (List.range (size / entrySize)).map (entrySize * ·)

/-- The sizes are those of the entries that are handed out, which are distinct and in their sections, and the writer
fills each reserved entry once. -/
structure SlotsSound : Prop where
  gotSize : (memSizes symbols).got = gotEntrySize * (gotAddresses start symbols).length
  pltSize : (memSizes symbols).plt = pltEntrySize * (pltAddresses start symbols).length
  gotDistinct : (gotAddresses start symbols).Nodup
  pltDistinct : (pltAddresses start symbols).Nodup
  gotInside : ∀ a ∈ gotAddresses start symbols, start.got ≤ a ∧ a + gotEntrySize ≤ start.got + (memSizes symbols).got
  pltInside : ∀ a ∈ pltAddresses start symbols, start.plt ≤ a ∧ a + pltEntrySize ≤ start.plt + (memSizes symbols).plt
  written : ∃ imported gotWrites pltWrites,
    importedEntries (createResolutions start symbols) importedSymbols = some imported ∧
      writeGotEntries start (memSizes symbols) imported = some gotWrites ∧
      writePltEntries start (memSizes symbols) imported = some pltWrites ∧
      gotWrites.Perm (reservedEntries (memSizes symbols).got gotEntrySize) ∧
      pltWrites.Perm (reservedEntries (memSizes symbols).plt pltEntrySize)

/-- Whether a symbol gets a slot, and whether it gets a stub. -/
def usesSlot (flags : ValueFlags) : Bool := flags.needsPlt || flags.needsGot

def slotted : List Bool := symbols.map fun s => usesSlot s.flags

def stubbed : List Bool := symbols.map fun s => s.flags.needsPlt

/-- The slot, and the stub, of the `i`-th symbol. -/
def slotAt (i : Nat) : Nat := start.got + gotEntrySize * rank (slotted symbols) i

def stubAt (i : Nat) : Nat := start.plt + pltEntrySize * rank (stubbed symbols) i

/-- The resolution of the `i`-th symbol. -/
def resolutionAt (i : Nat) (s : SymbolValue) : Resolution where
  rawValue :=
    if s.flags.needsPlt then stubAt start symbols i
    else if s.flags.needsGot then slotAt start symbols i
    else s.rawValue
  flags := s.flags
  gotAddress := if usesSlot s.flags then some (slotAt start symbols i) else none
  pltAddress := if s.flags.needsPlt then some (stubAt start symbols i) else none

end Spec

variable {start : SlotMap} {symbols : List SymbolValue} {importedSymbols : List Nat} {i : Nat}

/-! ### Resolutions -/

theorem createResolution_snd (flags : ValueFlags) (rawValue : Nat) (memoryOffsets : SlotMap) :
    (createResolution flags rawValue memoryOffsets).2 =
      ⟨memoryOffsets.got + gotEntrySize * (if usesSlot flags then 1 else 0),
        memoryOffsets.plt + pltEntrySize * (if flags.needsPlt then 1 else 0)⟩ := by
  unfold createResolution usesSlot
  cases flags.needsPlt <;> cases flags.needsGot <;> rfl

/-- The entries of a symbol are behind those of the symbols in front of it. -/
theorem createResolutions_getElem? (start : SlotMap) (symbols : List SymbolValue) (i : Nat) :
    (createResolutions start symbols)[i]? = (symbols[i]?).map (resolutionAt start symbols i) := by
  induction symbols generalizing start i with
  | nil => rfl
  | cons s symbols ih =>
    cases i with
    | zero =>
      rw [createResolutions, List.getElem?_cons_zero, List.getElem?_cons_zero, Option.map_some]
      unfold createResolution resolutionAt usesSlot
      cases s.flags.needsPlt <;> cases s.flags.needsGot <;> rfl
    | succ i =>
      have hslot : slotAt (createResolution s.flags s.rawValue start).2 symbols i = slotAt start (s :: symbols) (i + 1) := by
        rw [createResolution_snd, slotAt, slotAt, slotted, slotted, List.map_cons, rank_cons_succ, Nat.mul_add]
        dsimp only
        omega
      have hstub : stubAt (createResolution s.flags s.rawValue start).2 symbols i = stubAt start (s :: symbols) (i + 1) := by
        rw [createResolution_snd, stubAt, stubAt, stubbed, stubbed, List.map_cons, rank_cons_succ, Nat.mul_add]
        dsimp only
        omega
      rw [createResolutions, List.getElem?_cons_succ, List.getElem?_cons_succ, ih]
      congr 1
      funext x
      rw [resolutionAt, resolutionAt, hslot, hstub]

theorem length_createResolutions (start : SlotMap) (symbols : List SymbolValue) :
    (createResolutions start symbols).length = symbols.length := by
  induction symbols generalizing start with
  | nil => rfl
  | cons s symbols ih => exact congrArg (· + 1) (ih _)

theorem gotAddresses_eq (start : SlotMap) (symbols : List SymbolValue) :
    gotAddresses start symbols =
      (List.range ((slotted symbols).count true)).map fun k => start.got + gotEntrySize * k := by
  refine filterMap_eq (by rw [length_createResolutions, slotted, List.length_map]) fun i r hr => ?_
  rw [createResolutions_getElem?] at hr
  obtain ⟨s, hs, rfl⟩ := Option.map_eq_some_iff.1 hr
  simp only [slotted, List.getElem?_map, hs, Option.map_some, Option.some_inj]
  rfl

theorem pltAddresses_eq (start : SlotMap) (symbols : List SymbolValue) :
    pltAddresses start symbols =
      (List.range ((stubbed symbols).count true)).map fun k => start.plt + pltEntrySize * k := by
  refine filterMap_eq (by rw [length_createResolutions, stubbed, List.length_map]) fun i r hr => ?_
  rw [createResolutions_getElem?] at hr
  obtain ⟨s, hs, rfl⟩ := Option.map_eq_some_iff.1 hr
  simp only [stubbed, List.getElem?_map, hs, Option.map_some, Option.some_inj]
  rfl

/-! ### Sizes -/

theorem memSizes_eq (symbols : List SymbolValue) :
    memSizes symbols = ⟨gotEntrySize * symbols.countP fun s => s.flags.isDynamic && s.flags.needsGot,
      pltEntrySize * symbols.countP fun s => s.flags.isDynamic && s.flags.needsPlt⟩ := by
  have hgeneral (sizes : SlotMap) : symbols.foldl (fun sizes s => allocateResolution s.flags sizes) sizes =
      ⟨sizes.got + gotEntrySize * symbols.countP fun s => s.flags.isDynamic && s.flags.needsGot,
        sizes.plt + pltEntrySize * symbols.countP fun s => s.flags.isDynamic && s.flags.needsPlt⟩ := by
    induction symbols generalizing sizes with
    | nil => rfl
    | cons s symbols ih =>
      rw [List.foldl_cons, ih, List.countP_cons, List.countP_cons, allocateResolution]
      cases s.flags.isDynamic && s.flags.needsGot <;> cases s.flags.isDynamic && s.flags.needsPlt <;>
        simp [Nat.mul_add, Nat.add_comm, Nat.add_left_comm, Nat.add_assoc]
  rw [memSizes, hgeneral]
  simp

/-- If what one test takes the other one takes as well, they count the same exactly if they take the same. -/
theorem countP_eq_iff {α : Type} {p q : α → Bool} {l : List α} (h : ∀ a ∈ l, p a = true → q a = true) :
    l.countP p = l.countP q ↔ ∀ a ∈ l, q a = true → p a = true := by
  have hp : l.countP p = (l.filter q).countP p := by
    rw [List.countP_filter]
    refine List.countP_congr fun a ha => ?_
    rw [Bool.and_eq_true]
    exact ⟨fun hpa => ⟨hpa, h a ha hpa⟩, And.left⟩
  rw [hp, List.countP_eq_length_filter (p := q), List.countP_eq_length]
  simp

/-- Every symbol that gets a slot is dynamic and asks for one. -/
def Counted (symbols : List SymbolValue) : Prop :=
  ∀ s ∈ symbols, usesSlot s.flags = true → s.flags.isDynamic = true ∧ s.flags.needsGot = true

theorem count_map {f : SymbolValue → Bool} (symbols : List SymbolValue) :
    (symbols.map f).count true = symbols.countP f := by
  rw [List.count, List.countP_map]
  exact List.countP_congr fun s _ => by simp

theorem gotSize_iff (symbols : List SymbolValue) :
    (memSizes symbols).got = gotEntrySize * (slotted symbols).count true ↔ Counted symbols := by
  rw [memSizes_eq, slotted, count_map, Nat.mul_right_inj (by decide), countP_eq_iff]
  · simp [Counted]
  · intro s _ h
    rw [usesSlot, (Bool.and_eq_true_iff.1 h).2, Bool.or_true]

theorem Counted.pltSize (h : Counted symbols) :
    (memSizes symbols).plt = pltEntrySize * (stubbed symbols).count true := by
  rw [memSizes_eq, stubbed, count_map]
  refine congrArg (pltEntrySize * ·) ((countP_eq_iff fun s _ hs => (Bool.and_eq_true_iff.1 hs).2).2 fun s hs hplt => ?_)
  rw [hplt, Bool.and_true]
  exact (h s hs (by rw [usesSlot, hplt, Bool.true_or])).1

/-! ### Written entries -/

/-- What the writer reads of an imported symbol. -/
def entriesOf (start : SlotMap) (symbols : List SymbolValue) (i : Nat) : ImportedEntries where
  symbolId := i
  gotAddress := slotAt start symbols i
  pltAddress := if (stubbed symbols)[i]? = some true then some (stubAt start symbols i) else none

theorem importedEntries_eq_some : importedEntries (createResolutions start symbols) importedSymbols = some imported ↔
      (∀ i ∈ importedSymbols, (slotted symbols)[i]? = some true) ∧
        imported = (importedSymbols.map (entriesOf start symbols)).mergeSort fun a b => a.gotAddress ≤ b.gotAddress := by
  have hentries (i : Nat) : ((createResolutions start symbols)[i]?.bind fun resolution =>
      resolution.gotAddress.map fun gotAddress => ImportedEntries.mk i gotAddress resolution.pltAddress) =
        if (slotted symbols)[i]? = some true then some (entriesOf start symbols i) else none := by
    rw [createResolutions_getElem?, slotted, List.getElem?_map]
    unfold entriesOf
    rw [stubbed, List.getElem?_map]
    cases symbols[i]? with
    | none => rfl
    | some s =>
      simp only [Option.map_some, Option.bind_some, resolutionAt, Option.some_inj]
      cases usesSlot s.flags <;> rfl
  rw [importedEntries, Option.map_eq_some_iff]
  simp only [hentries, Traverse.mapM_ite_eq_some]
  constructor
  · rintro ⟨found, ⟨hall, rfl⟩, rfl⟩
    exact ⟨hall, rfl⟩
  · rintro ⟨hall, rfl⟩
    exact ⟨_, ⟨hall, rfl⟩, rfl⟩

/-- An entry that has been reserved is written at its place. -/
theorem entryOffset_reserved {memOffset entrySize count k : Nat} (h : k < count) :
    entryOffset memOffset (entrySize * count) entrySize (memOffset + entrySize * k) = some (entrySize * k) := by
  have hend : entrySize * k + entrySize ≤ entrySize * count := by
    exact Nat.mul_le_mul_left _ h
  rw [entryOffset, Nat.add_sub_cancel_left, if_pos ⟨Nat.le_add_right _ _, hend⟩]

theorem reservedEntries_mul (hpos : 0 < entrySize) (count : Nat) :
    reservedEntries (entrySize * count) entrySize = (List.range count).map (entrySize * ·) := by
  rw [reservedEntries, Nat.mul_div_cancel_left _ hpos]

/-- The entries of chosen symbols are the reserved ones exactly if the symbols are all that were chosen. -/
theorem perm_reservedEntries_iff (hpos : 0 < entrySize) {flags : List Bool} {l : List Nat}
    (h : ∀ i ∈ l, flags[i]? = some true) :
    (l.map fun i => entrySize * rank flags i).Perm (reservedEntries (entrySize * flags.count true) entrySize) ↔
      l.Perm (chosen flags) := by
  have hmap : (l.map fun i => entrySize * rank flags i) = (l.map (rank flags)).map (entrySize * ·) := by
    rw [List.map_map]
    rfl
  rw [reservedEntries_mul hpos, hmap, List.map_perm_map_iff fun a b hab => Nat.eq_of_mul_eq_mul_left hpos hab,
    perm_chosen_iff h]

/-- Every stub is in reach of its slot. -/
def StubsReach (start : SlotMap) (symbols : List SymbolValue) : Prop :=
  ∀ i, (stubbed symbols)[i]? = some true → stubReaches (slotAt start symbols i) (stubAt start symbols i) = true

theorem slotted_of_stubbed (h : (stubbed symbols)[i]? = some true) : (slotted symbols)[i]? = some true := by
  rw [stubbed, List.getElem?_map, Option.map_eq_some_iff] at h
  obtain ⟨s, hs, hplt⟩ := h
  rw [slotted, List.getElem?_map, hs, Option.map_some, usesSlot, hplt, Bool.true_or]

/-- The slots are written exactly once if the imported symbols are those that have one. -/
theorem gotWrites_iff (hall : ∀ i ∈ importedSymbols, (slotted symbols)[i]? = some true) {sizes : SlotMap}
    (hsize : sizes.got = gotEntrySize * (slotted symbols).count true)
    (himported : imported.Perm (importedSymbols.map (entriesOf start symbols))) :
    (∃ writes, writeGotEntries start sizes imported = some writes ∧
        writes.Perm (reservedEntries sizes.got gotEntrySize)) ↔ importedSymbols.Perm (chosen (slotted symbols)) := by
  have hwrites : writeGotEntries start sizes imported = some (imported.map fun s => s.gotAddress - start.got) := by
    rw [writeGotEntries, Traverse.mapM_eq_some, List.map_map]
    refine List.map_congr_left fun s hs => ?_
    obtain ⟨i, hi, rfl⟩ := List.mem_map.1 (himported.mem_iff.1 hs)
    rw [hsize, entriesOf, slotAt, entryOffset_reserved (rank_lt_count (hall i hi))]
    simp
  have hperm : (imported.map fun s => s.gotAddress - start.got).Perm
      (importedSymbols.map fun i => gotEntrySize * rank (slotted symbols) i) := by
    refine (himported.map _).trans (List.Perm.of_eq ?_)
    rw [List.map_map]
    exact List.map_congr_left fun i _ => Nat.add_sub_cancel_left _ _
  rw [hwrites, ← perm_reservedEntries_iff (by decide : 0 < gotEntrySize) hall, ← hsize]
  constructor
  · rintro ⟨_, ⟨⟩, h⟩
    exact hperm.symm.trans h
  · exact fun h => ⟨_, rfl, hperm.trans h⟩

theorem stubsOf_entriesOf (importedSymbols : List Nat) :
    stubsOf (importedSymbols.map (entriesOf start symbols)) =
      (importedSymbols.filter fun i => (stubbed symbols)[i]? = some true).map fun i =>
        (slotAt start symbols i, stubAt start symbols i) := by
  induction importedSymbols with
  | nil => rfl
  | cons i importedSymbols ih =>
    by_cases hi : (stubbed symbols)[i]? = some true
    · rw [List.filter_cons_of_pos (by simpa using hi), List.map_cons, List.map_cons, ← ih, stubsOf,
        List.filterMap_cons_some (b := (slotAt start symbols i, stubAt start symbols i)) (by rw [entriesOf, if_pos hi]; rfl)]
      rfl
    · rw [List.filter_cons_of_neg (by simpa using hi), List.map_cons, ← ih, stubsOf,
        List.filterMap_cons_none (by rw [entriesOf, if_neg hi]; rfl)]
      rfl

theorem filter_chosen_slotted (symbols : List SymbolValue) :
    ((chosen (slotted symbols)).filter fun i => (stubbed symbols)[i]? = some true) = chosen (stubbed symbols) := by
  rw [chosen, chosen, List.filter_filter, slotted, List.length_map, ← List.length_map (f := fun s => s.flags.needsPlt),
    ← stubbed, ← slotted]
  refine List.filter_congr fun i _ => ?_
  by_cases hi : (stubbed symbols)[i]? = some true
  · rw [slotted_of_stubbed hi, hi]
    rfl
  · have hnone : (stubbed symbols)[i]?.getD false = false := by
      rw [Bool.eq_false_iff]
      intro h
      cases hb : (stubbed symbols)[i]? with
      | none => rw [hb] at h; cases h
      | some b => rw [hb] at h hi; exact hi (congrArg some h)
    rw [hnone, decide_eq_false hi, Bool.false_and]

/-- The stubs are then written exactly once if each reaches its slot. -/
theorem pltWrites_iff (hchosen : importedSymbols.Perm (chosen (slotted symbols))) {sizes : SlotMap}
    (hsize : sizes.plt = pltEntrySize * (stubbed symbols).count true)
    (himported : imported.Perm (importedSymbols.map (entriesOf start symbols))) :
    (∃ writes, writePltEntries start sizes imported = some writes ∧
        writes.Perm (reservedEntries sizes.plt pltEntrySize)) ↔ StubsReach start symbols := by
  have hstubs : (stubsOf imported).Perm ((chosen (stubbed symbols)).map fun i =>
      (slotAt start symbols i, stubAt start symbols i)) := by
    refine (himported.filterMap _).trans ?_
    rw [← filter_chosen_slotted, ← stubsOf, stubsOf_entriesOf]
    exact (hchosen.filter _).map _
  have hwrites (writes : List Nat) : writePltEntries start sizes imported = some writes ↔
      (∀ s ∈ stubsOf imported, stubReaches s.1 s.2 = true) ∧ writes = (stubsOf imported).map fun s => s.2 - start.plt := by
    rw [← Traverse.mapM_ite_eq_some, writePltEntries, Traverse.mapM_eq_some, Traverse.mapM_eq_some,
      List.map_congr_left fun s hs => ?_]
    obtain ⟨i, hi, rfl⟩ := List.mem_map.1 (hstubs.mem_iff.1 hs)
    rw [hsize, stubAt, entryOffset_reserved (rank_lt_count (mem_chosen.1 hi)), Option.filter_some, Nat.add_sub_cancel_left]
  have hreach : (∀ s ∈ stubsOf imported, stubReaches s.1 s.2 = true) ↔ StubsReach start symbols := by
    simp only [hstubs.mem_iff, List.forall_mem_map, mem_chosen]
    rfl
  have hperm : ((stubsOf imported).map fun s => s.2 - start.plt).Perm (reservedEntries sizes.plt pltEntrySize) := by
    refine (hstubs.map _).trans ?_
    rw [hsize, List.map_map]
    refine List.Perm.trans (List.Perm.of_eq ?_)
      ((perm_reservedEntries_iff (by decide : 0 < pltEntrySize) fun i hi => mem_chosen.1 hi).2 (List.Perm.refl _))
    exact List.map_congr_left fun i _ => Nat.add_sub_cancel_left _ _
  simp only [hwrites, hreach]
  constructor
  · rintro ⟨_, ⟨h, -⟩, -⟩
    exact h
  · exact fun h => ⟨_, ⟨h, rfl⟩, hperm⟩

/-! ### All of it -/

/-- Consecutive entries are distinct, and inside of a size that counts them. -/
theorem entries_distinct (hpos : 0 < entrySize) (first count : Nat) :
    ((List.range count).map fun k => first + entrySize * k).Nodup :=
  List.nodup_range.map fun _ _ h => Nat.eq_of_mul_eq_mul_left hpos (Nat.add_left_cancel h)

theorem entries_inside {entrySize first count a : Nat}
    (h : a ∈ (List.range count).map fun k => first + entrySize * k) :
    first ≤ a ∧ a + entrySize ≤ first + entrySize * count := by
  obtain ⟨k, hk, rfl⟩ := List.mem_map.1 h
  refine ⟨Nat.le_add_right _ _, ?_⟩
  rw [Nat.add_assoc, ← Nat.mul_succ]
  exact Nat.add_le_add_left (Nat.mul_le_mul_left _ (List.mem_range.1 hk)) _

/-- **The passes agree exactly if each symbol that needs an entry is dynamic and needs a slot, the imported symbols are
these, each once, and the stubs reach their slots.** -/
theorem slots_sound_iff (start : SlotMap) (symbols : List SymbolValue) (importedSymbols : List Nat) :
    SlotsSound start symbols importedSymbols ↔
      Counted symbols ∧ importedSymbols.Perm (chosen (slotted symbols)) ∧ StubsReach start symbols := by
  have hgot : (gotAddresses start symbols).length = (slotted symbols).count true := by
    rw [gotAddresses_eq, List.length_map, List.length_range]
  have hplt : (pltAddresses start symbols).length = (stubbed symbols).count true := by
    rw [pltAddresses_eq, List.length_map, List.length_range]
  constructor
  · intro h
    have hcounted : Counted symbols := (gotSize_iff symbols).1 (hgot ▸ h.gotSize)
    obtain ⟨imported, gotWrites, pltWrites, himported, hgotWrites, hpltWrites, hgotPerm, hpltPerm⟩ := h.written
    obtain ⟨hall, rfl⟩ := importedEntries_eq_some.1 himported
    have hsorted := List.mergeSort_perm (importedSymbols.map (entriesOf start symbols))
      fun a b => a.gotAddress ≤ b.gotAddress
    have hchosen := (gotWrites_iff hall (hgot ▸ h.gotSize) hsorted).1 ⟨gotWrites, hgotWrites, hgotPerm⟩
    exact ⟨hcounted, hchosen, (pltWrites_iff hchosen hcounted.pltSize hsorted).1 ⟨pltWrites, hpltWrites, hpltPerm⟩⟩
  · rintro ⟨hcounted, hchosen, hreach⟩
    have hgotSize := (gotSize_iff symbols).2 hcounted
    have hall : ∀ i ∈ importedSymbols, (slotted symbols)[i]? = some true := fun i hi =>
      mem_chosen.1 (hchosen.mem_iff.1 hi)
    have hsorted := List.mergeSort_perm (importedSymbols.map (entriesOf start symbols))
      fun a b => a.gotAddress ≤ b.gotAddress
    obtain ⟨gotWrites, hgotWrites, hgotPerm⟩ := (gotWrites_iff hall hgotSize hsorted).2 hchosen
    obtain ⟨pltWrites, hpltWrites, hpltPerm⟩ := (pltWrites_iff hchosen hcounted.pltSize hsorted).2 hreach
    exact {
      gotSize := by rw [hgot, hgotSize]
      pltSize := by rw [hplt, hcounted.pltSize]
      gotDistinct := gotAddresses_eq start symbols ▸ entries_distinct (by decide) _ _
      pltDistinct := pltAddresses_eq start symbols ▸ entries_distinct (by decide) _ _
      gotInside := fun a ha => hgotSize ▸ entries_inside (gotAddresses_eq start symbols ▸ ha)
      pltInside := fun a ha => hcounted.pltSize ▸ entries_inside (pltAddresses_eq start symbols ▸ ha)
      written := ⟨_, gotWrites, pltWrites, importedEntries_eq_some.2 ⟨hall, rfl⟩, hgotWrites, hpltWrites, hgotPerm,
        hpltPerm⟩ }

/-- A symbol that an object defines and loads through `__got`: a slot is handed out that was not reserved. -/
theorem local_slot_not_reserved :
    ¬SlotsSound ⟨0x100004000, 0x100000460⟩ [⟨.ofList [.got], 0x100000400⟩] [] := by
  intro h
  have hsize := h.gotSize
  revert hsize
  decide

end Reld.MachO
