import Reld.MachO.ReadBack

/-!
# `MachO.Binds` — what the loader binds

The loader goes over the slots one after the other, if the chain starts at the first slot and stays in one page. Each
slot is bound to its import, if the ordinal and the place of the name fit into the import and the name has no null
character of its own.
-/

namespace Reld.MachO

open Records LittleEndian Traverse

/-! ## Strings -/

theorem cString_cons (byte : UInt8) (bytes : Bytes) :
    LoadedImage.cString (byte :: bytes) =
      if byte = 0 then some [] else (LoadedImage.cString bytes).map (byte :: ·) := by
  rw [LoadedImage.cString, List.findIdx?_cons]
  by_cases hbyte : byte = 0
  · rw [if_pos hbyte, hbyte]
    rfl
  · rw [if_neg hbyte, if_neg (by simpa using hbyte), LoadedImage.cString, Option.map_map, Option.map_map]
    rfl

/-- A string is read if it has no null character but the one behind it. -/
theorem cString_eq_some {bytes name : Bytes} :
    LoadedImage.cString bytes = some name ↔ 0 ∉ name ∧ name ++ [0] <+: bytes := by
  induction bytes generalizing name with
  | nil =>
    refine ⟨fun h => (by cases h), fun h => ?_⟩
    exact absurd (List.prefix_nil.1 h.2) (by simp)
  | cons byte bytes ih =>
    rw [cString_cons]
    cases name with
    | nil =>
      by_cases hbyte : byte = 0
      · simp [hbyte]
      · simp [hbyte, Ne.symm hbyte]
    | cons c name =>
      rw [List.cons_append, List.cons_prefix_cons, List.mem_cons, not_or, and_and_and_comm]
      by_cases hbyte : byte = 0
      · rw [if_pos hbyte, hbyte]
        refine ⟨fun h => (by cases h), fun h => absurd h.1.2.symm h.1.1⟩
      · rw [if_neg hbyte, ← ih, Option.map_eq_some_iff]
        constructor
        · rintro ⟨found, hfound, heq⟩
          obtain ⟨rfl, rfl⟩ := List.cons.inj heq
          exact ⟨⟨Ne.symm hbyte, rfl⟩, hfound⟩
        · rintro ⟨⟨-, rfl⟩, hfound⟩
          exact ⟨name, hfound, rfl⟩

theorem cString_append {bytes rest : Bytes} (h : 0 ∈ bytes) :
    LoadedImage.cString (bytes ++ rest) = LoadedImage.cString bytes := by
  induction bytes with
  | nil => cases h
  | cons byte bytes ih =>
    rw [List.cons_append, cString_cons, cString_cons]
    by_cases hbyte : byte = 0
    · rw [if_pos hbyte, if_pos hbyte]
    · rw [if_neg hbyte, if_neg hbyte, ih ((List.mem_cons.1 h).resolve_left (Ne.symm hbyte))]

/-! ## Imports with slots -/

/-- Imported symbols that are given slots one after the other. The files list them in some order. -/
structure Linked where
  layout : Layout
  symbols : List ImportedSymbol
  listed : List ImportedSymbolWithResolution
  perm : listed.Perm (allocateGot layout.gotMemOffset symbols)
  sorted : layout.importedSymbols = createLayoutExt listed

/-- The names, each with its null character. -/
def namesOf (symbols : List ImportedSymbol) : Bytes := symbols.flatMap fun symbol => symbol.name ++ [0]

/-- What a slot is for: the symbol with its name, in its library. -/
def Layout.binding (layout : Layout) (s : ImportedSymbolWithResolution) : Fixup :=
  ⟨s.gotAddress, .bind (layout.importedLibraries.idxOf s.symbol.fileId + 1 : Nat) false s.symbol.name 0⟩

namespace Linked

/-- The slots, each with its import. -/
def bindings (linked : Linked) : List Fixup :=
  (allocateGot linked.layout.gotMemOffset linked.symbols).map linked.layout.binding

/-- The file that the loader sees. -/
def image (linked : Linked) (out : Bytes × Bytes) : LoadedImage := ⟨out.1, out.2, linked.layout.gotMemOffset⟩

/-- What the table can say: a place in the file is the place in memory, one page is enough for the slots, the ordinals
are not negative, and the names are at places that fit into an import. -/
structure Fits (linked : Linked) : Prop where
  place : machoStartMemAddress + linked.layout.segmentFileOffset.toNat = linked.layout.gotMemOffset
  page : 8 * linked.symbols.length ≤ machoPageAlignment
  library : ∀ symbol ∈ linked.symbols, linked.layout.importedLibraries.idxOf symbol.fileId + 1 ≤ 0xF0
  name : ∀ i symbol, linked.symbols[i]? = some symbol → 0 ∉ symbol.name ∧
    symbol.name ++ [0] <+: (namesOf linked.symbols).drop ((namesOf (linked.symbols.take i)).length % 2 ^ 23)

end Linked

variable {linked : Linked} {out : Bytes × Bytes} {image : LoadedImage}

theorem Linked.importedSymbols_eq (linked : Linked) :
    linked.layout.importedSymbols = allocateGot linked.layout.gotMemOffset linked.symbols :=
  linked.sorted.trans (createLayoutExt_eq linked.perm)

theorem stringPool_allocateGot (memOffset : Nat) (symbols : List ImportedSymbol) :
    stringPool (allocateGot memOffset symbols) = namesOf symbols := by
  induction symbols generalizing memOffset with
  | nil => rfl
  | cons symbol symbols ih =>
    exact congrArg _ (ih _)

theorem take_allocateGot (memOffset : Nat) (symbols : List ImportedSymbol) (i : Nat) :
    (allocateGot memOffset symbols).take i = allocateGot memOffset (symbols.take i) := by
  induction symbols generalizing memOffset i with
  | nil => simp [allocateGot]
  | cons symbol symbols ih =>
    cases i with
    | zero => rfl
    | succ i => rw [List.take_succ_cons, allocateGot, allocateGot, List.take_succ_cons, ih]

variable {symbols : List ImportedSymbol}

/-- Behind each place in the names there is a null character. -/
theorem zero_mem_drop {offset : Nat} (h : offset < (namesOf symbols).length) :
    0 ∈ (namesOf symbols).drop offset := by
  rcases List.eq_nil_or_concat symbols with rfl | ⟨init, last, rfl⟩
  · cases h
  · have hnames : namesOf (init.concat last) = (namesOf init ++ last.name) ++ [0] := by
      simp [namesOf]
    rw [hnames] at h ⊢
    rw [List.drop_append_of_le_length (by rw [List.length_append, List.length_singleton] at h; omega)]
    exact List.mem_append_right _ (List.mem_singleton_self 0)

variable {i : Nat}

theorem length_namesOf_take_lt (hi : i < symbols.length) :
    (namesOf (symbols.take i)).length < (namesOf symbols).length := by
  have hsplit : namesOf symbols = namesOf (symbols.take i) ++ namesOf (symbols.drop i) := by
    rw [namesOf, namesOf, namesOf, ← List.flatMap_append, List.take_append_drop]
  have hsome : 0 < (namesOf (symbols.drop i)).length := by
    rw [List.drop_eq_getElem_cons hi, namesOf, List.flatMap_cons, List.length_append, List.length_append,
      List.length_singleton]
    omega
  rw [hsplit, List.length_append]
  omega

theorem signedOrdinal_eq {libOrdinal : Nat} : LoadedImage.signedOrdinal libOrdinal = (libOrdinal : Int) ↔ libOrdinal ≤ 0xF0 := by
  unfold LoadedImage.signedOrdinal
  split <;> omega

/-! ## What is written -/

/-- What the loader reads of a file with imports. -/
structure Linked.ReadBack (linked : Linked) (image : LoadedImage) : Prop where
  count : linked.symbols.length < 4096
  slot : ∀ i < linked.symbols.length,
    image.read64 (linked.layout.gotMemOffset + 8 * i) = some (gotEntry linked.symbols.length i)
  chain : image.fixups =
    image.walkChain (machoStartMemAddress + linked.layout.segmentFileOffset.toNat) machoPageAlignment 0
  found : ∀ i symbol, linked.symbols[i]? = some symbol → image.importAt i =
    (LoadedImage.cString
      ((namesOf linked.symbols).drop ((namesOf (linked.symbols.take i)).length % 2 ^ 23))).map fun name =>
        (LoadedImage.signedOrdinal (linked.layout.importedLibraries.idxOf symbol.fileId + 1), false, name)

variable {got : Bytes}

theorem read64_slot {got' : Bytes} (h : writeSlots linked.layout.gotMemOffset linked.symbols.length 0
      (allocateGot linked.layout.gotMemOffset linked.symbols) got = some got') (hi : i < linked.symbols.length)
    (table : Bytes) :
    (linked.image (table, got')).read64 (linked.layout.gotMemOffset + 8 * i) =
      some (gotEntry linked.symbols.length i % 256 ^ 8) := by
  have hzero : ([] : Bytes).length = 8 * 0 := rfl
  obtain ⟨-, hgot⟩ := writeSlots_eq hzero (Nat.zero_le _) h
  have hfield : (slotFields linked.symbols.length 0 linked.symbols.length)[i]? =
      some (8, gotEntry linked.symbols.length i) := by
    rw [slotFields, List.getElem?_map, List.getElem?_range' hi]
    simp [gotEntrySize]
  have hwidth : width ((slotFields linked.symbols.length 0 linked.symbols.length).take i) = 8 * i := by
    rw [slotFields, ← List.map_take, List.take_range'_of_length_ge (Nat.le_of_lt hi)]
    exact width_slotFields _ _ _
  rw [LoadedImage.read64, Linked.image, if_pos (Nat.le_add_right _ _), Nat.add_sub_cancel_left, hgot, List.nil_append, ← hwidth]
  exact read_encode hfield _

theorem Linked.readBack (h : linked.layout.write got = some out) (hsome : linked.symbols ≠ []) :
    linked.ReadBack (linked.image out) := by
  obtain ⟨table, got', htable, hgot, rfl⟩ := Option.map₂_eq_some_iff.1 h
  have himports : linked.layout.importedSymbols ≠ [] := by
    rw [linked.importedSymbols_eq, ← List.length_pos_iff, length_allocateGot, List.length_pos_iff]
    exact hsome
  obtain ⟨segmentCount, index, ordinals, padding, hplace, hcount, hordinals, hbytes⟩ :=
    writeChainedFixupTable_some htable himports
  have hlength : linked.layout.importedSymbols.length = linked.symbols.length := by
    rw [linked.importedSymbols_eq, length_allocateGot]
  rw [Layout.writeGotEntries, hlength, linked.importedSymbols_eq] at hgot
  refine ⟨hlength ▸ hcount, fun i hi => ?_, ?_, fun i symbol hsymbol => ?_⟩
  · -- a slot is less than `2 ^ 64`
    rw [read64_slot hgot hi, gotEntry_eq _ (by omega)]
    have hnext := nextStride_lt linked.symbols.length i
    congr 1
    omega
  · have hchain : (linked.image (table, got')).fixups = _ := fixups_eq_walkChain hplace hbytes
    rwa [Nat.mod_eq_of_lt linked.layout.segmentFileOffset.isLt] at hchain
  · have hi : i < linked.symbols.length := (List.getElem?_eq_some_iff.1 hsymbol).1
    have hslot : linked.layout.importedSymbols[i]? = some ⟨symbol, linked.layout.gotMemOffset + 8 * i⟩ := by
      rw [linked.importedSymbols_eq, getElem?_allocateGot, hsymbol, Option.map_some]
    obtain ⟨libOrdinal, hordinal⟩ : ∃ libOrdinal, ordinals[i]? = some libOrdinal := by
      have hall := congrArg List.length (mapM_eq_some.1 hordinals)
      rw [List.length_map, List.length_map, hlength] at hall
      exact ⟨_, List.getElem?_eq_getElem (hall ▸ hi)⟩
    have hof := getElem?_of_mapM hordinals hslot
    rw [hordinal] at hof
    obtain ⟨hbyte, rfl⟩ := ordinal_lt hof
    have hall := congrArg List.length (mapM_eq_some.1 hordinals)
    rw [List.length_map, List.length_map] at hall
    have himport : (linked.image (table, got')).importAt i = _ :=
      importAt_eq hplace hbytes hcount hall.symm hordinal hbyte
    rw [himport, linked.importedSymbols_eq, take_allocateGot, stringPool_allocateGot, stringPool_allocateGot]
    have hinside : (namesOf (linked.symbols.take i)).length % 2 ^ 23 < (namesOf linked.symbols).length :=
      Nat.lt_of_le_of_lt (Nat.mod_le _ _) (length_namesOf_take_lt hi)
    rw [List.drop_append_of_le_length (Nat.le_of_lt hinside), cString_append (zero_mem_drop hinside)]

/-! ## When the writer succeeds -/

theorem writeSlots_isSome {memOffset count : Nat} (h : 8 * (i + symbols.length) ≤ got.length) :
    (writeSlots memOffset count i (allocateGot (memOffset + 8 * i) symbols) got).isSome := by
  induction symbols generalizing i got with
  | nil => rfl
  | cons symbol symbols ih =>
    rw [List.length_cons] at h
    rw [allocateGot, writeSlots, if_pos ⟨Nat.le_add_right _ _, by rw [gotEntrySize]; simp only; omega⟩]
    refine ih (i := i + 1) ?_
    rw [length_overwrite (by rw [length_leBytes, gotEntrySize]; simp only; omega)]
    omega

theorem length_stringPool (symbols : List ImportedSymbolWithResolution) :
    4 * symbols.length + (stringPool symbols).length = (symbols.map fun s => 4 + s.symbol.name.length + 1).sum := by
  induction symbols with
  | nil => rfl
  | cons s symbols ih =>
    rw [List.map_cons, List.sum_cons, ← ih, stringPool, List.flatMap_cons, List.length_append, List.length_append,
      List.length_singleton, List.length_cons, stringPool]
    omega

/-- The table is large enough. -/
theorem fillTable_isSome {segmentCount index fileOffset : Nat} {ordinals : List Nat}
    {symbols : List ImportedSymbolWithResolution} (hplace : IsPlace segmentCount index)
    (hlength : ordinals.length = symbols.length) :
    (fillTable (finaliseSizesEpilogue symbols)
      (Records.encode (tableFront segmentCount index symbols.length fileOffset ++ importFields ordinals symbols) ++
        stringPool symbols)).isSome := by
  have hround : chainedFixupTableBaseSize + (symbols.map fun s => 4 + s.symbol.name.length + 1).sum ≤
      finaliseSizesEpilogue symbols :=
    Nat.le_trans (Nat.le_add_right _ _) (le_nextMultipleOf _ (by decide))
  have hbase : chainedFixupTableBaseSize = 78 := rfl
  have hpool := length_stringPool symbols
  unfold fillTable
  rw [if_pos, Option.isSome_some]
  rw [List.length_append, length_encode, width_append, width_tableFront hplace, width_importFields hlength]
  rcases hplace with ⟨rfl, -⟩ | ⟨rfl, -⟩ <;> omega

theorem writeChainedFixupTable_isSome {layout : Layout} (hsome : layout.importedSymbols ≠ [])
    (hcount : layout.importedSymbols.length < 4096)
    (hordinal : ∀ s ∈ layout.importedSymbols, (layout.ordinal s.symbol.fileId).isSome) :
    layout.writeChainedFixupTable.isSome := by
  obtain ⟨segmentCount, index, hplace, hlength, hindex⟩ := activeSegments_some hsome
  have hfew : ¬segmentCount > maxSegmentCount := by
    rcases hplace with ⟨rfl, -⟩ | ⟨rfl, -⟩ <;> decide
  obtain ⟨ordinals, hordinals⟩ := mapM_isSome hordinal
  have hall := congrArg List.length (mapM_eq_some.1 hordinals)
  rw [List.length_map, List.length_map] at hall
  simp only [Layout.writeChainedFixupTable, hlength, hindex]
  rw [if_neg hfew, if_pos (show _ < machoPageAlignment / 4 from hcount), hordinals, Option.bind_some]
  exact fillTable_isSome hplace hall.symm

/-- The writer succeeds if the libraries have ordinals, and the assertion holds. -/
theorem Linked.write_isSome (linked : Linked) (hsome : linked.symbols ≠ []) (hcount : linked.symbols.length < 4096)
    (hordinal : ∀ symbol ∈ linked.symbols, (linked.layout.ordinal symbol.fileId).isSome)
    (hgot : 8 * linked.symbols.length ≤ got.length) : (linked.layout.write got).isSome := by
  have himports := linked.importedSymbols_eq
  have htable : linked.layout.writeChainedFixupTable.isSome := by
    refine writeChainedFixupTable_isSome ?_ (by rwa [himports, length_allocateGot]) fun s hs => ?_
    · rw [himports, ← List.length_pos_iff, length_allocateGot, List.length_pos_iff]
      exact hsome
    · rw [himports] at hs
      obtain ⟨i, hi⟩ := List.mem_iff_getElem?.1 hs
      rw [getElem?_allocateGot] at hi
      obtain ⟨symbol, hsymbol, rfl⟩ := Option.map_eq_some_iff.1 hi
      exact hordinal symbol (List.mem_of_getElem? hsymbol)
  have hslots : (linked.layout.writeGotEntries got).isSome := by
    rw [Layout.writeGotEntries, himports]
    exact writeSlots_isSome (i := 0) (by rwa [Nat.zero_add])
  obtain ⟨table, htable⟩ := Option.isSome_iff_exists.1 htable
  obtain ⟨got', hgot'⟩ := Option.isSome_iff_exists.1 hslots
  rw [Layout.write, htable, hgot']
  rfl

/-! ## What is visited -/

theorem fixupAt_address {address value : Nat} {fixup : Fixup} (h : image.fixupAt address value = some fixup) :
    fixup.address = address := by
  unfold LoadedImage.fixupAt at h
  split at h
  · obtain ⟨found, -, rfl⟩ := Option.map_eq_some_iff.1 h
    rfl
  · cases h
    rfl

/-- A chain goes up from where it starts. -/
theorem walkChain_ascending {page pageSize offset : Nat} {visited : List Fixup}
    (h : image.walkChain page pageSize offset = some visited) :
    (visited.head?.map (·.address)) = some (page + offset) ∧ visited.Pairwise fun a b => a.address < b.address := by
  fun_induction LoadedImage.walkChain image page pageSize offset generalizing visited with
  | case1 offset hinside ih =>
    obtain ⟨value, -, h⟩ := Option.bind_eq_some_iff.1 h
    obtain ⟨fixup, hfixup, h⟩ := Option.bind_eq_some_iff.1 h
    have haddress := fixupAt_address hfixup
    split at h
    next =>
      cases h
      exact ⟨congrArg some haddress, List.pairwise_singleton _ _⟩
    next hnext =>
      obtain ⟨rest, hrest, rfl⟩ := Option.map_eq_some_iff.1 h
      obtain ⟨hhead, hpairwise⟩ := ih value hnext hrest
      refine ⟨congrArg some haddress, List.pairwise_cons.2 ⟨fun later hlater => ?_, hpairwise⟩⟩
      cases rest with
      | nil => cases hlater
      | cons first rest =>
        have hfirst : first.address = page + (offset + 4 * (value / 2 ^ 51 % 2 ^ 12)) := Option.some.inj hhead
        rcases List.mem_cons.1 hlater with rfl | hlater
        · omega
        · have := (List.pairwise_cons.1 hpairwise).1 later hlater
          omega
  | case2 => cases h

theorem bindings_ascending (linked : Linked) : linked.bindings.Pairwise fun a b => a.address < b.address :=
  List.pairwise_map.2 (allocateGot_ascending _ _)

/-- In its order, what is visited is what was to be bound, if it is at all. -/
theorem eq_bindings_of_perm {page pageSize : Nat} {visited : List Fixup}
    (h : image.walkChain page pageSize 0 = some visited) (hperm : visited.Perm linked.bindings) : visited = linked.bindings :=
  hperm.eq_of_pairwise (fun _ _ _ _ hab hba => absurd hab (Nat.lt_asymm hba)) (walkChain_ascending h).2
    (bindings_ascending linked)

variable {symbol : ImportedSymbol}

/-- **A slot is bound to its import if its ordinal is not negative and its name is found.** -/
theorem Linked.ReadBack.bound_iff (h : linked.ReadBack image) (hsymbol : linked.symbols[i]? = some symbol)
    (address : Nat) :
    image.fixupAt address (gotEntry linked.symbols.length i) = some (linked.layout.binding ⟨symbol, address⟩) ↔
      linked.layout.importedLibraries.idxOf symbol.fileId + 1 ≤ 0xF0 ∧ 0 ∉ symbol.name ∧
        symbol.name ++ [0] <+: (namesOf linked.symbols).drop ((namesOf (linked.symbols.take i)).length % 2 ^ 23) := by
  have hi : i < linked.symbols.length := (List.getElem?_eq_some_iff.1 hsymbol).1
  have hcount := h.count
  rw [fixupAt_gotEntry (by omega), h.found i symbol hsymbol, ← cString_eq_some, ← signedOrdinal_eq, Option.map_map,
    Option.map_eq_some_iff]
  constructor
  · rintro ⟨name, hname, heq⟩
    simp only [Function.comp_apply, Layout.binding, Fixup.mk.injEq, FixupTarget.bind.injEq, true_and, and_true] at heq
    exact ⟨heq.1, heq.2 ▸ hname⟩
  · rintro ⟨hordinal, hname⟩
    refine ⟨symbol.name, hname, ?_⟩
    simp [Layout.binding, hordinal]

theorem getElem?_bindings (hsymbol : linked.symbols[i]? = some symbol) :
    linked.bindings[i]? = some (linked.layout.binding ⟨symbol, linked.layout.gotMemOffset + 8 * i⟩) := by
  rw [Linked.bindings, List.getElem?_map, getElem?_allocateGot, hsymbol]
  rfl

/-- Where the chain starts at the first slot, and stays in its page, it goes over all slots. -/
theorem Linked.ReadBack.fixups_eq (h : linked.ReadBack image) (hsome : linked.symbols ≠ [])
    (hplace : machoStartMemAddress + linked.layout.segmentFileOffset.toNat = linked.layout.gotMemOffset)
    (hpage : 8 * linked.symbols.length ≤ machoPageAlignment) :
    image.fixups = (List.range' 0 linked.symbols.length).mapM fun i =>
      image.fixupAt (linked.layout.gotMemOffset + 8 * i) (gotEntry linked.symbols.length i) := by
  have hcount := h.count
  obtain ⟨n, hn⟩ : ∃ n, linked.symbols.length = n + 1 := Nat.exists_eq_add_one.2 (List.length_pos_iff.2 hsome)
  have hwalk := walkChain_slots h.slot (by omega) hpage (i := 0) (n := n) (by omega)
  rwa [h.chain, hplace, hn] at *

/-- **The slots are bound as they should be if all fits.** -/
theorem Linked.ReadBack.fixups_iff (h : linked.ReadBack image) (hsome : linked.symbols ≠ []) :
    image.fixups = some linked.bindings ↔ linked.Fits := by
  have hcount := h.count
  obtain ⟨n, hn⟩ : ∃ n, linked.symbols.length = n + 1 := Nat.exists_eq_add_one.2 (List.length_pos_iff.2 hsome)
  constructor
  · intro hfixups
    have hwalk := hfixups
    rw [h.chain] at hwalk
    have hplace : machoStartMemAddress + linked.layout.segmentFileOffset.toNat = linked.layout.gotMemOffset := by
      have hhead := (walkChain_ascending hwalk).1
      rw [List.head?_eq_getElem?, getElem?_bindings (List.getElem?_eq_getElem (by omega : 0 < linked.symbols.length))] at hhead
      exact (Option.some.inj hhead).symm
    have hpage : 8 * linked.symbols.length ≤ machoPageAlignment := by
      by_contra hleaves
      have hnone := walkChain_leaves h.slot (by omega) (Nat.lt_of_not_le hleaves) (i := 0) (n := n) (by omega)
      rw [hplace, hnone] at hwalk
      cases hwalk
    rw [h.fixups_eq hsome hplace hpage] at hfixups
    have hbound : ∀ i symbol, linked.symbols[i]? = some symbol →
        image.fixupAt (linked.layout.gotMemOffset + 8 * i) (gotEntry linked.symbols.length i) =
          some (linked.layout.binding ⟨symbol, linked.layout.gotMemOffset + 8 * i⟩) := by
      intro i symbol hsymbol
      have hrange : (List.range' 0 linked.symbols.length)[i]? = some i := by
        rw [List.getElem?_range' (List.getElem?_eq_some_iff.1 hsymbol).1, Nat.one_mul, Nat.zero_add]
      have hat := getElem?_of_mapM hfixups hrange
      rwa [getElem?_bindings hsymbol] at hat
    have hfits : ∀ i symbol, linked.symbols[i]? = some symbol → _ := fun i symbol hsymbol =>
      (h.bound_iff hsymbol _).1 (hbound i symbol hsymbol)
    refine ⟨hplace, hpage, fun symbol hmem => ?_, fun i symbol hsymbol => (hfits i symbol hsymbol).2⟩
    obtain ⟨i, hsymbol⟩ := List.mem_iff_getElem?.1 hmem
    exact (hfits i symbol hsymbol).1
  · intro hfits
    rw [h.fixups_eq hsome hfits.place hfits.page, mapM_eq_some]
    refine List.ext_getElem? fun i => ?_
    rw [List.getElem?_map, List.getElem?_map]
    cases hsymbol : linked.symbols[i]? with
    | none =>
      have hi : linked.symbols.length ≤ i := List.getElem?_eq_none_iff.1 hsymbol
      rw [List.getElem?_eq_none (by rwa [List.length_range']), List.getElem?_eq_none (by
        rwa [Linked.bindings, List.length_map, length_allocateGot])]
      rfl
    | some symbol =>
      have hi : i < linked.symbols.length := (List.getElem?_eq_some_iff.1 hsymbol).1
      rw [List.getElem?_range' hi, getElem?_bindings hsymbol, Nat.one_mul, Nat.zero_add, Option.map_some, Option.map_some,
        (h.bound_iff hsymbol _).2 ⟨hfits.library symbol (List.mem_of_getElem? hsymbol), hfits.name i symbol hsymbol⟩]

/-! ## Without imports -/

/-- A file without imports has no chain. -/
theorem fixups_eq_nil {segmentCount : Nat} (hcount : segmentCount = 3 ∨ segmentCount = 4) (padding : Nat)
    (htable : image.table = Records.encode (tableHeader segmentCount 0 ++ startsInImage segmentCount none) ++
      List.replicate padding 0) : image.fixups = some [] := by
  have hread {k w v offset : Nat} (h : (tableHeader segmentCount 0 ++ startsInImage segmentCount none)[k]? = some (w, v))
      (hoffset : ((List.replicate (7 + segmentCount + 1) 4).take k).sum = offset) :
      Records.read image.table offset w = some (v % 256 ^ w) := by
    have hwidths : (tableHeader segmentCount 0 ++ startsInImage segmentCount none).map (·.1) =
        List.replicate (7 + segmentCount + 1) 4 := by
      rcases hcount with rfl | rfl <;> rfl
    have hfront : Records.read (Records.encode (tableHeader segmentCount 0 ++ startsInImage segmentCount none ++ []) ++
        List.replicate padding 0) offset w = some (v % 256 ^ w) := read_front hwidths h hoffset
    rwa [List.append_nil, ← htable] at hfront
  have hversion : Records.read image.table 0 4 = some 0 := hread (k := 0) rfl rfl
  have hstarts : Records.read image.table 4 4 = some 28 := hread (k := 1) rfl rfl
  have hsegments : Records.read image.table 28 4 = some segmentCount := by
    rcases hcount with rfl | rfl <;> exact hread (k := 7) rfl rfl
  have hstart : ∀ segment < segmentCount, Records.read image.table (28 + 4 + 4 * segment) 4 = some 0 := by
    intro segment hsegment
    rcases hcount with rfl | rfl <;> interval_cases segment
    · exact hread (k := 8) rfl rfl
    · exact hread (k := 9) rfl rfl
    · exact hread (k := 10) rfl rfl
    · exact hread (k := 8) rfl rfl
    · exact hread (k := 9) rfl rfl
    · exact hread (k := 10) rfl rfl
    · exact hread (k := 11) rfl rfl
  rw [LoadedImage.fixups, hversion, hstarts]
  simp only [Option.bind_some, hsegments, if_true]
  refine flatten_mapM_nil fun segment hsegment => ?_
  rw [hstart segment (List.mem_range.1 hsegment), Option.bind_some, if_pos rfl]

theorem fixups_write_nil (h : linked.layout.write got = some out) (hnone : linked.symbols = []) :
    (linked.image out).fixups = some linked.bindings := by
  obtain ⟨table, got', htable, -, rfl⟩ := Option.map₂_eq_some_iff.1 h
  have himports : linked.layout.importedSymbols = [] := by
    rw [linked.importedSymbols_eq, hnone, allocateGot]
  obtain ⟨segmentCount, hcount, hlength, hindex⟩ := activeSegments_nil himports
  have hfew : ¬segmentCount > maxSegmentCount := by
    unfold maxSegmentCount
    omega
  simp only [Layout.writeChainedFixupTable, hlength, hindex] at htable
  rw [if_neg hfew, himports] at htable
  obtain ⟨padding, hbytes⟩ := fillTable_eq htable
  rw [Linked.bindings, hnone]
  exact fixups_eq_nil hcount padding hbytes

/-! ## The imports of a file -/

/-- A chain that starts at the first slot, of a page that is too small for the slots, is not valid. -/
theorem Linked.ReadBack.fixups_eq_none (h : linked.ReadBack image)
    (hplace : machoStartMemAddress + linked.layout.segmentFileOffset.toNat = linked.layout.gotMemOffset)
    (hpage : machoPageAlignment < 8 * linked.symbols.length) : image.fixups = none := by
  have hcount := h.count
  obtain ⟨n, hn⟩ : ∃ n, linked.symbols.length = n + 1 := Nat.exists_eq_add_one.2 (by omega)
  rw [h.chain, hplace]
  exact walkChain_leaves h.slot (by omega) hpage (i := 0) (n := n) (by omega)

/-- **The loader visits each slot once, and nothing else, and binds it to its import: exactly if there are no imports
or all of them fit.** -/
theorem slots_bound_iff (linked : Linked) (got : Bytes) {out : Bytes × Bytes} (h : linked.layout.write got = some out) :
    (∃ visited, (linked.image out).fixups = some visited ∧ visited.Perm linked.bindings) ↔
      linked.symbols = [] ∨ linked.Fits := by
  by_cases hnone : linked.symbols = []
  · exact iff_of_true ⟨_, fixups_write_nil h hnone, List.Perm.refl _⟩ (.inl hnone)
  · have hread := Linked.readBack h hnone
    rw [or_iff_right hnone, ← hread.fixups_iff hnone]
    refine ⟨fun ⟨visited, hvisited, hperm⟩ => ?_, fun hvisited => ⟨_, hvisited, List.Perm.refl _⟩⟩
    rw [hvisited, eq_bindings_of_perm (hread.chain ▸ hvisited) hperm]

/-- Two symbols of one library. The files list them the other way round. -/
def twoImports : Linked where
  layout := {
    keepData := false
    importedLibraries := [⟨0, 1⟩]
    importedSymbols := allocateGot 0x100004000 [⟨[97], ⟨0, 1⟩⟩, ⟨[98, 99], ⟨0, 1⟩⟩]
    gotMemOffset := 0x100004000
    segmentFileOffset := 0x4000 }
  symbols := [⟨[97], ⟨0, 1⟩⟩, ⟨[98, 99], ⟨0, 1⟩⟩]
  listed := [⟨⟨[98, 99], ⟨0, 1⟩⟩, 0x100004008⟩, ⟨⟨[97], ⟨0, 1⟩⟩, 0x100004000⟩]
  perm := List.Perm.swap _ _ []
  sorted := (createLayoutExt_eq (List.Perm.swap _ _ [])).symm

theorem slots_bound_two : ∃ out, twoImports.layout.write (List.replicate 16 0) = some out ∧
    ∃ visited, (twoImports.image out).fixups = some visited ∧ visited.Perm twoImports.bindings := by
  obtain ⟨out, hout⟩ : ∃ out, twoImports.layout.write (List.replicate 16 0) = some out :=
    Option.isSome_iff_exists.1 (by decide)
  refine ⟨out, hout, (slots_bound_iff twoImports _ hout).2 (.inr ⟨by decide, by decide, by decide, ?_⟩)⟩
  rintro (_ | _ | i) symbol hsymbol
  · cases hsymbol
    decide
  · cases hsymbol
    decide
  · cases hsymbol

/-- A file with one library, the `__got` of which is at the start of its second page. -/
def ofSymbols (symbols : List ImportedSymbol) : Linked where
  layout := {
    keepData := false
    importedLibraries := [⟨0, 1⟩]
    importedSymbols := allocateGot 0x100004000 symbols
    gotMemOffset := 0x100004000
    segmentFileOffset := 0x4000 }
  symbols := symbols
  listed := allocateGot 0x100004000 symbols
  perm := List.Perm.refl _
  sorted := (createLayoutExt_eq (List.Perm.refl _)).symm

/-- Where the slots are more than a page, and the assertion, which counts slots of four bytes, holds, the writer
succeeds, but the chain goes into the next page. -/
theorem chain_leaves_page (hpage : 2048 < symbols.length) (hassert : symbols.length < 4096)
    (hlibrary : ∀ symbol ∈ symbols, symbol.fileId = ⟨0, 1⟩) :
    ∃ out, (ofSymbols symbols).layout.write (List.replicate (8 * symbols.length) 0) = some out ∧
      ((ofSymbols symbols).image out).fixups = none := by
  have hsome : (ofSymbols symbols).symbols ≠ [] := List.length_pos_iff.1 (Nat.zero_lt_of_lt hpage)
  obtain ⟨out, hout⟩ : ∃ out, (ofSymbols symbols).layout.write (List.replicate (8 * symbols.length) 0) = some out := by
    refine Option.isSome_iff_exists.1 ((ofSymbols symbols).write_isSome hsome hassert (fun symbol hsymbol => ?_) ?_)
    · rw [hlibrary symbol hsymbol]
      rfl
    · rw [List.length_replicate]
      rfl
  have hplace : machoStartMemAddress + (0x4000 : BitVec 64).toNat = 0x100004000 := by decide
  refine ⟨out, hout, (Linked.readBack hout hsome).fixups_eq_none hplace ?_⟩
  have hlength : (ofSymbols symbols).symbols.length = symbols.length := rfl
  rw [hlength, machoPageAlignment]
  omega

/-- The imports of one library with the names `a`, `aa` and so on. -/
def manyImports (n : Nat) : List ImportedSymbol := (List.range n).map fun i => ⟨List.replicate (i + 1) 97, ⟨0, 1⟩⟩

theorem length_manyImports (n : Nat) : (manyImports n).length = n := by
  rw [manyImports, List.length_map, List.length_range]

theorem chain_leaves_page_2049 : ∃ out,
    (ofSymbols (manyImports 2049)).layout.write (List.replicate (8 * (manyImports 2049).length) 0) = some out ∧
      ¬∃ visited, ((ofSymbols (manyImports 2049)).image out).fixups = some visited ∧
        visited.Perm (ofSymbols (manyImports 2049)).bindings := by
  have hlength := length_manyImports 2049
  have hlibrary : ∀ symbol ∈ manyImports 2049, symbol.fileId = ⟨0, 1⟩ := by
    intro symbol hsymbol
    obtain ⟨i, -, rfl⟩ := List.mem_map.1 hsymbol
    rfl
  obtain ⟨out, hout, hnone⟩ := chain_leaves_page (by rw [hlength]; decide) (by rw [hlength]; decide) hlibrary
  refine ⟨out, hout, ?_⟩
  rintro ⟨visited, hvisited, -⟩
  rw [hnone] at hvisited
  cases hvisited

end Reld.MachO
