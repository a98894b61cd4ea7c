import Mathlib.Tactic.IntervalCases
import Reld.Lib.Traverse
import Reld.MachO.ChainedFixups

/-!
# `MachO.ReadBack` — what the loader reads of what was written

The symbols come back in the order of their slots. A chain that stays in its page goes from slot to slot, the table
leads to that one chain, and an import is read as it was written, but for the upper bits of the place of its name.
-/

namespace Reld.MachO

open Records LittleEndian Traverse

/-! ## The symbols -/

variable {memOffset : Nat} {symbols : List ImportedSymbol}

@[simp] theorem length_allocateGot (memOffset : Nat) (symbols : List ImportedSymbol) :
    (allocateGot memOffset symbols).length = symbols.length := by
  induction symbols generalizing memOffset with
  | nil => rfl
  | cons symbol symbols ih => rw [allocateGot, List.length_cons, ih, List.length_cons]

variable {s : ImportedSymbolWithResolution}

theorem gotAddress_ge (h : s ∈ allocateGot memOffset symbols) :
    memOffset ≤ s.gotAddress := by
  induction symbols generalizing memOffset with
  | nil => cases h
  | cons symbol symbols ih =>
    rw [allocateGot, List.mem_cons] at h
    rcases h with rfl | h
    · exact Nat.le_refl _
    · exact Nat.le_trans (Nat.le_add_right _ _) (ih h)

theorem allocateGot_ascending (memOffset : Nat) (symbols : List ImportedSymbol) :
    (allocateGot memOffset symbols).Pairwise fun a b => a.gotAddress < b.gotAddress := by
  induction symbols generalizing memOffset with
  | nil => exact List.Pairwise.nil
  | cons symbol symbols ih =>
    refine List.pairwise_cons.2 ⟨fun s hs => ?_, ih _⟩
    exact Nat.lt_of_lt_of_le (Nat.lt_add_of_pos_right (by decide)) (gotAddress_ge hs)

/-- A slot has one symbol. -/
theorem eq_of_gotAddress {t : ImportedSymbolWithResolution} (hs : s ∈ allocateGot memOffset symbols)
    (ht : t ∈ allocateGot memOffset symbols) (h : s.gotAddress = t.gotAddress) : s = t := by
  have hnodup : ((allocateGot memOffset symbols).map (·.gotAddress)).Nodup :=
    List.pairwise_map.2 ((allocateGot_ascending memOffset symbols).imp Nat.ne_of_lt)
  exact List.inj_on_of_nodup_map hnodup hs ht h

/-- Sorted by their slots, the symbols are as they were given them. -/
theorem createLayoutExt_eq {listed : List ImportedSymbolWithResolution} (h : listed.Perm (allocateGot memOffset symbols)) :
    createLayoutExt listed = allocateGot memOffset symbols := by
  have hperm : (createLayoutExt listed).Perm (allocateGot memOffset symbols) := (List.mergeSort_perm _ _).trans h
  refine hperm.eq_of_pairwise (fun s t hs ht hst hts => ?_)
    (List.pairwise_mergeSort' (fun s t : ImportedSymbolWithResolution => s.gotAddress ≤ t.gotAddress) listed)
    ((allocateGot_ascending _ _).imp Nat.le_of_lt)
  exact eq_of_gotAddress (hperm.mem_iff.1 hs) ht (Nat.le_antisymm hst hts)

theorem getElem?_allocateGot (memOffset : Nat) (symbols : List ImportedSymbol) (i : Nat) :
    (allocateGot memOffset symbols)[i]? = symbols[i]?.map fun symbol => ⟨symbol, memOffset + 8 * i⟩ := by
  induction symbols generalizing memOffset i with
  | nil => rfl
  | cons symbol symbols ih =>
    cases i with
    | zero => rfl
    | succ i =>
      rw [allocateGot, List.getElem?_cons_succ, ih, List.getElem?_cons_succ, gotEntrySize]
      simp only [Nat.mul_succ, Nat.add_assoc, Nat.add_comm]

/-! ## The slots -/

/-- The slots of a chain with `count` slots, from the `i`-th on. -/
def slotFields (count i n : Nat) : List Field := (List.range' i n).map fun j => (gotEntrySize, gotEntry count j)

theorem width_slotFields (count i n : Nat) : width (slotFields count i n) = 8 * n := by
  induction n generalizing i with
  | zero => rfl
  | succ n ih =>
    have hcons : slotFields count i (n + 1) = (gotEntrySize, gotEntry count i) :: slotFields count (i + 1) n := rfl
    rw [hcons, width_cons, ih, gotEntrySize]
    omega

/-- A slot is overwritten behind those that are written. -/
theorem overwrite_slot {front : Bytes} {offset : Nat} (hfront : front.length = offset) (got : Bytes) (value : Nat) :
    overwrite (front ++ got.drop offset) offset (leBytes gotEntrySize value) =
      front ++ leBytes gotEntrySize value ++ got.drop (offset + 8) := by
  unfold overwrite
  rw [length_leBytes, gotEntrySize, List.take_left' hfront, List.drop_append, List.drop_eq_nil_of_le (by omega),
    List.nil_append, List.drop_drop, hfront]
  congr 2
  omega

variable {i : Nat}

theorem writeSlots_eq {count : Nat} {front got got' : Bytes} (hfront : front.length = 8 * i) (hi : 8 * i ≤ got.length)
    (h : writeSlots memOffset count i (allocateGot (memOffset + 8 * i) symbols) (front ++ got.drop (8 * i)) = some got') :
    8 * (i + symbols.length) ≤ got.length ∧
      got' = front ++ Records.encode (slotFields count i symbols.length) ++ got.drop (8 * (i + symbols.length)) := by
  induction symbols generalizing i front with
  | nil =>
    cases h
    exact ⟨hi, by rw [List.length_nil, slotFields]; simp⟩
  | cons symbol symbols ih =>
    have hcons : slotFields count i (symbols.length + 1) =
        (gotEntrySize, gotEntry count i) :: slotFields count (i + 1) symbols.length := rfl
    rw [allocateGot, writeSlots] at h
    split at h
    next hroom =>
      rw [List.length_append, List.length_drop, hfront] at hroom
      have hslot : 8 * i + 8 ≤ got.length := by
        have hend := hroom.2
        simp only [gotEntrySize, Nat.add_sub_cancel_left] at hend
        omega
      simp only [Nat.add_sub_cancel_left, overwrite_slot hfront] at h
      obtain ⟨hlen, hgot⟩ := @ih (i + 1) (front ++ leBytes gotEntrySize (gotEntry count i))
        (by rw [List.length_append, length_leBytes, hfront, gotEntrySize]; omega) (by omega) h
      rw [List.length_cons, hcons, encode_cons]
      refine ⟨by omega, ?_⟩
      rw [hgot, List.append_assoc front, show i + 1 + symbols.length = i + (symbols.length + 1) by omega]
    next => cases h

/-- The distance to the next slot, in strides. -/
def nextStride (count i : Nat) : Nat := if i = count - 1 then 0 else 2

theorem nextStride_lt (count i : Nat) : nextStride count i < 2 ^ 12 := by
  unfold nextStride
  split <;> decide

theorem gotEntry_eq (count : Nat) (hi : i < 2 ^ 24) :
    gotEntry count i = 2 ^ 63 + nextStride count i * 2 ^ 51 + i := by
  have hnext := nextStride_lt count i
  have hupper : (1 <<< 63 ||| nextStride count i <<< 51 : Nat) = 2 ^ 63 + nextStride count i * 2 ^ 51 := by
    rw [← Nat.shiftLeft_add_eq_or_of_lt (by rw [Nat.shiftLeft_eq]; omega), Nat.shiftLeft_eq, Nat.shiftLeft_eq, Nat.one_mul]
  have hall : ((2 ^ 12 + nextStride count i) <<< 51 ||| i : Nat) = (2 ^ 12 + nextStride count i) * 2 ^ 51 + i := by
    rw [← Nat.shiftLeft_add_eq_or_of_lt (by omega), Nat.shiftLeft_eq]
  have hshift : 2 ^ 63 + nextStride count i * 2 ^ 51 = (2 ^ 12 + nextStride count i) <<< 51 := by
    omega
  calc gotEntry count i = (1 <<< 63 ||| nextStride count i <<< 51) ||| i := rfl
    _ = (2 ^ 12 + nextStride count i) <<< 51 ||| i := by rw [hupper, hshift]
    _ = 2 ^ 63 + nextStride count i * 2 ^ 51 + i := by rw [hall]; omega

/-! ## The chain -/

variable {image : LoadedImage} {page pageSize count : Nat}

theorem fixupAt_gotEntry (hi : i < 2 ^ 24) (address : Nat) :
    image.fixupAt address (gotEntry count i) =
      (image.importAt i).map fun found => ⟨address, .bind found.1 found.2.1 found.2.2 0⟩ := by
  have hnext := nextStride_lt count i
  have hbind : (2 ^ 63 + nextStride count i * 2 ^ 51 + i).testBit 63 = true := by
    rw [Nat.testBit_eq_decide_div_mod_eq, decide_eq_true_iff]
    omega
  rw [gotEntry_eq count hi, LoadedImage.fixupAt, if_pos hbind,
    show (2 ^ 63 + nextStride count i * 2 ^ 51 + i) % 2 ^ 24 = i by omega,
    show (2 ^ 63 + nextStride count i * 2 ^ 51 + i) / 2 ^ 24 % 2 ^ 8 = 0 by omega]

theorem next_gotEntry (hi : i < 2 ^ 24) : gotEntry count i / 2 ^ 51 % 2 ^ 12 = nextStride count i := by
  have hnext := nextStride_lt count i
  rw [gotEntry_eq count hi]
  omega

/-- A chain that stays in its page goes over all slots. -/
theorem walkChain_slots (hread : ∀ i < count, image.read64 (page + 8 * i) = some (gotEntry count i))
    (hcount : count < 2 ^ 24) (hfit : 8 * count ≤ pageSize) {n : Nat} (hn : i + (n + 1) = count) :
    image.walkChain page pageSize (8 * i) =
      (List.range' i (n + 1)).mapM fun j => image.fixupAt (page + 8 * j) (gotEntry count j) := by
  induction n generalizing i with
  | zero =>
    rw [LoadedImage.walkChain, dif_pos (by omega), hread i (by omega), Option.bind_some]
    simp only [next_gotEntry (show i < 2 ^ 24 by omega), nextStride, if_pos (show i = count - 1 by omega)]
    rfl
  | succ n ih =>
    rw [LoadedImage.walkChain, dif_pos (by omega), hread i (by omega), Option.bind_some]
    simp only [next_gotEntry (show i < 2 ^ 24 by omega), nextStride, if_neg (show i ≠ count - 1 by omega)]
    rw [List.range'_succ, List.mapM_cons, ← ih (i := i + 1) (by omega), show 8 * (i + 1) = 8 * i + 4 * 2 by omega]
    simp only [Option.map_eq_bind]
    rfl

/-- A chain that leaves its page is not valid. -/
theorem walkChain_leaves (hread : ∀ i < count, image.read64 (page + 8 * i) = some (gotEntry count i))
    (hcount : count < 2 ^ 24) (hpage : pageSize < 8 * count) {n : Nat} (hn : i + (n + 1) = count) :
    image.walkChain page pageSize (8 * i) = none := by
  induction n generalizing i with
  | zero => rw [LoadedImage.walkChain, dif_neg (by omega)]
  | succ n ih =>
    rw [LoadedImage.walkChain]
    split
    · rw [hread i (by omega), Option.bind_some]
      simp only [next_gotEntry (show i < 2 ^ 24 by omega), nextStride, if_neg (show i ≠ count - 1 by omega)]
      have hrest := ih (i := i + 1) (by omega)
      rw [show 8 * (i + 1) = 8 * i + 4 * 2 by omega] at hrest
      simp [hrest]
    · rfl

/-! ## The table -/

variable {layout : Layout} {table : Bytes}

/-- The two places of the segment with the slots: behind the text, or behind the data. -/
def IsPlace (segmentCount index : Nat) : Prop := segmentCount = 4 ∧ index = 1 ∨ segmentCount = 5 ∧ index = 2

theorem activeSegments_some (hsome : layout.importedSymbols ≠ []) :
    ∃ segmentCount index, IsPlace segmentCount index ∧ layout.activeSegments.length + 1 = segmentCount ∧
      layout.activeSegments.findIdx? (· == .dataConstSections) = some index := by
  have hconst : layout.importedSymbols.isEmpty = false := by
    rw [List.isEmpty_eq_false_iff]
    exact hsome
  cases hkeep : layout.keepData
  · have hactive : layout.activeSegments = [.text, .dataConstSections, .linkeditSections] := by
      simp [Layout.activeSegments, programSegmentDefs, Layout.isKept, hkeep, hconst]
    rw [hactive]
    exact ⟨4, 1, .inl ⟨rfl, rfl⟩, rfl, rfl⟩
  · have hactive : layout.activeSegments = [.text, .dataSections, .dataConstSections, .linkeditSections] := by
      simp [Layout.activeSegments, programSegmentDefs, Layout.isKept, hkeep, hconst]
    rw [hactive]
    exact ⟨5, 2, .inr ⟨rfl, rfl⟩, rfl, rfl⟩

theorem activeSegments_nil (hnone : layout.importedSymbols = []) :
    ∃ segmentCount, (segmentCount = 3 ∨ segmentCount = 4) ∧ layout.activeSegments.length + 1 = segmentCount ∧
      layout.activeSegments.findIdx? (· == .dataConstSections) = none := by
  cases hkeep : layout.keepData
  · have hactive : layout.activeSegments = [.text, .linkeditSections] := by
      simp [Layout.activeSegments, programSegmentDefs, Layout.isKept, hkeep, hnone]
    rw [hactive]
    exact ⟨3, .inl rfl, rfl, rfl⟩
  · have hactive : layout.activeSegments = [.text, .dataSections, .linkeditSections] := by
      simp [Layout.activeSegments, programSegmentDefs, Layout.isKept, hkeep, hnone]
    rw [hactive]
    exact ⟨4, .inr rfl, rfl, rfl⟩

/-- The numbers of a table in front of the imports. -/
def tableFront (segmentCount index importsCount fileOffset : Nat) : List Field :=
  tableHeader segmentCount importsCount ++ startsInImage segmentCount (some index) ++ startsInSegment fileOffset

/-- The numbers of the imports. -/
def importFields (ordinals : List Nat) (symbols : List ImportedSymbolWithResolution) : List Field :=
  (List.zipWith chainedImport ordinals (symbolOffsets 0 symbols)).map fun value => (4, value)

theorem fillTable_eq {size : Nat} {bytes : Bytes} (h : fillTable size bytes = some table) :
    ∃ padding, table = bytes ++ List.replicate padding 0 := by
  unfold fillTable at h
  split at h
  · exact ⟨_, (Option.some.inj h).symm⟩
  · cases h

theorem writeChainedFixupTable_some (h : layout.writeChainedFixupTable = some table) (hsome : layout.importedSymbols ≠ []) :
    ∃ segmentCount index ordinals padding, IsPlace segmentCount index ∧ layout.importedSymbols.length < 4096 ∧
      (layout.importedSymbols.mapM fun s => layout.ordinal s.symbol.fileId) = some ordinals ∧
      table = Records.encode
        (tableFront segmentCount index layout.importedSymbols.length layout.segmentFileOffset.toNat ++
          importFields ordinals layout.importedSymbols) ++
        (stringPool layout.importedSymbols ++ List.replicate padding 0) := by
  obtain ⟨segmentCount, index, hplace, hlength, hindex⟩ := activeSegments_some hsome
  simp only [Layout.writeChainedFixupTable, hlength, hindex] at h
  have hcount : ¬segmentCount > maxSegmentCount := by
    rcases hplace with ⟨rfl, -⟩ | ⟨rfl, -⟩ <;> decide
  rw [if_neg hcount] at h
  split at h
  next hassert =>
    obtain ⟨ordinals, hordinals, hfill⟩ := Option.bind_eq_some_iff.1 h
    obtain ⟨padding, rfl⟩ := fillTable_eq hfill
    refine ⟨segmentCount, index, ordinals, padding, hplace, hassert, hordinals, ?_⟩
    rw [List.append_assoc]
    rfl
  next => cases h

/-! ## What is read of it -/

/-- The widths of the fields of a table with segments. -/
def frontWidths (segmentCount : Nat) : List Nat :=
  List.replicate 7 4 ++ List.replicate (segmentCount + 1) 4 ++ [4, 2, 2, 8, 4, 2, 2]

variable {segmentCount index : Nat}

theorem map_tableFront (hplace : IsPlace segmentCount index) (importsCount fileOffset : Nat) :
    (tableFront segmentCount index importsCount fileOffset).map (·.1) = frontWidths segmentCount := by
  rcases hplace with ⟨rfl, rfl⟩ | ⟨rfl, rfl⟩ <;> rfl

theorem width_tableFront (hplace : IsPlace segmentCount index) (importsCount fileOffset : Nat) :
    width (tableFront segmentCount index importsCount fileOffset) = 28 + 4 * (segmentCount + 1) + 24 := by
  rw [width, map_tableFront hplace]
  rcases hplace with ⟨rfl, -⟩ | ⟨rfl, -⟩ <;> rfl

variable {rest : Bytes}

theorem read_front {front behind : List Field} {widths : List Nat} {k w v offset : Nat}
    (hwidths : front.map (·.1) = widths) (h : front[k]? = some (w, v)) (hoffset : (widths.take k).sum = offset) :
    Records.read (Records.encode (front ++ behind) ++ rest) offset w = some (v % 256 ^ w) := by
  have hwidth : width ((front ++ behind).take k) = offset := by
    have hk : k ≤ front.length := Nat.le_of_lt (List.getElem?_eq_some_iff.1 h).1
    rw [List.take_append_of_le_length hk, width, List.map_take, hwidths, hoffset]
  rw [← hwidth]
  exact read_encode (by rw [List.getElem?_append_left (List.getElem?_eq_some_iff.1 h).1, h]) _

/-- The one chain is that of the first page of the segment. -/
theorem fixups_eq_walkChain {importsCount fileOffset : Nat} {imports : List Field} (hplace : IsPlace segmentCount index)
    (htable : image.table = Records.encode (tableFront segmentCount index importsCount fileOffset ++ imports) ++ rest) :
    image.fixups = image.walkChain (machoStartMemAddress + fileOffset % 2 ^ 64) machoPageAlignment 0 := by
  have hread {k w v offset : Nat} (h : (tableFront segmentCount index importsCount fileOffset)[k]? = some (w, v))
      (hoffset : ((frontWidths segmentCount).take k).sum = offset) :
      Records.read image.table offset w = some (v % 256 ^ w) := by
    rw [htable]
    exact read_front (map_tableFront hplace _ _) h hoffset
  have hversion : Records.read image.table 0 4 = some 0 := hread (k := 0) rfl rfl
  have hstarts : Records.read image.table 4 4 = some 28 := hread (k := 1) rfl rfl
  have hcount : Records.read image.table 28 4 = some segmentCount := by
    rcases hplace with ⟨rfl, rfl⟩ | ⟨rfl, rfl⟩ <;> exact hread (k := 7) rfl rfl
  have hstart : ∀ segment < segmentCount, Records.read image.table (28 + 4 + 4 * segment) 4 =
      some (if segment = index + 1 then 4 * (segmentCount + 1) else 0) := by
    intro segment hsegment
    rcases hplace with ⟨rfl, rfl⟩ | ⟨rfl, rfl⟩ <;> interval_cases segment
    · exact hread (k := 8) rfl rfl
    · exact hread (k := 9) rfl rfl
    · exact hread (k := 10) rfl rfl
    · exact hread (k := 11) rfl rfl
    · exact hread (k := 8) rfl rfl
    · exact hread (k := 9) rfl rfl
    · exact hread (k := 10) rfl rfl
    · exact hread (k := 11) rfl rfl
    · exact hread (k := 12) rfl rfl
  have hpageSize : Records.read image.table (28 + 4 * (segmentCount + 1) + 4) 2 = some machoPageAlignment := by
    rcases hplace with ⟨rfl, rfl⟩ | ⟨rfl, rfl⟩
    · exact hread (k := 13) rfl rfl
    · exact hread (k := 14) rfl rfl
  have hformat : Records.read image.table (28 + 4 * (segmentCount + 1) + 6) 2 = some 6 := by
    rcases hplace with ⟨rfl, rfl⟩ | ⟨rfl, rfl⟩
    · exact hread (k := 14) rfl rfl
    · exact hread (k := 15) rfl rfl
  have hoffset : Records.read image.table (28 + 4 * (segmentCount + 1) + 8) 8 = some (fileOffset % 2 ^ 64) := by
    rcases hplace with ⟨rfl, rfl⟩ | ⟨rfl, rfl⟩
    · exact hread (k := 15) rfl rfl
    · exact hread (k := 16) rfl rfl
  have hpages : Records.read image.table (28 + 4 * (segmentCount + 1) + 20) 2 = some 1 := by
    rcases hplace with ⟨rfl, rfl⟩ | ⟨rfl, rfl⟩
    · exact hread (k := 17) rfl rfl
    · exact hread (k := 18) rfl rfl
  have hfirst : Records.read image.table (28 + 4 * (segmentCount + 1) + 22 + 2 * 0) 2 = some 0 := by
    rcases hplace with ⟨rfl, rfl⟩ | ⟨rfl, rfl⟩
    · exact hread (k := 18) rfl rfl
    · exact hread (k := 19) rfl rfl
  have hinfo : image.segmentFixups (28 + 4 * (segmentCount + 1)) =
      image.walkChain (machoStartMemAddress + fileOffset % 2 ^ 64) machoPageAlignment 0 := by
    rw [LoadedImage.segmentFixups, hpageSize, hformat, hoffset, hpages]
    refine flatten_mapM_single (k := 0) List.nodup_range (by decide) fun page hpage => ?_
    rw [List.mem_range.1 hpage |> Nat.lt_one_iff.1, if_pos rfl, LoadedImage.pageFixups, hfirst, Option.bind_some,
      if_neg (by decide), Nat.zero_mul, Nat.add_zero]
  have hindex : index + 1 ∈ List.range segmentCount := by
    rcases hplace with ⟨rfl, rfl⟩ | ⟨rfl, rfl⟩ <;> decide
  rw [LoadedImage.fixups, hversion, hstarts]
  simp only [Option.bind_some, hcount, if_true]
  refine flatten_mapM_single List.nodup_range hindex fun segment hsegment => ?_
  rw [hstart segment (List.mem_range.1 hsegment), Option.bind_some]
  by_cases hat : segment = index + 1
  · rw [if_pos hat, if_neg (by omega), if_pos hat, hinfo]
  · rw [if_neg hat, if_pos rfl, if_neg hat]

/-! ## The imports -/

theorem symbolOffsets_eq (strOffset : Nat) (symbols : List ImportedSymbolWithResolution) :
    symbolOffsets strOffset symbols =
      (List.range symbols.length).map fun i => strOffset + (stringPool (symbols.take i)).length := by
  induction symbols generalizing strOffset with
  | nil => rfl
  | cons s symbols ih =>
    rw [symbolOffsets, ih, List.length_cons, List.range_succ_eq_map, List.map_cons, List.map_map]
    congr 1
    refine List.map_congr_left fun i _ => ?_
    simp only [Function.comp_apply, Nat.succ_eq_add_one, List.take_succ_cons, stringPool, List.flatMap_cons,
      List.length_append, List.length_singleton]
    omega

variable {libOrdinal : Nat}

/-- An import is its ordinal, and above that what fits of the offset. -/
theorem chainedImport_eq (hordinal : libOrdinal < 256) (symbolOffset : Nat) :
    chainedImport libOrdinal symbolOffset % 256 ^ 4 = symbolOffset % 2 ^ 23 * 2 ^ 9 + libOrdinal := by
  have hor : libOrdinal ||| (symbolOffset % 2 ^ 32) <<< 9 = (symbolOffset % 2 ^ 32) <<< 9 + libOrdinal := by
    rw [Nat.or_comm, Nat.shiftLeft_add_eq_or_of_lt (by omega)]
  rw [chainedImport, hor, Nat.shiftLeft_eq]
  omega

theorem ordinal_lt {fileId : FileId} (h : layout.ordinal fileId = some libOrdinal) :
    libOrdinal < 256 ∧ libOrdinal = layout.importedLibraries.idxOf fileId + 1 := by
  obtain ⟨index, hindex, hbyte⟩ := Option.bind_eq_some_iff.1 h
  have hfound : layout.importedLibraries.idxOf fileId = index := (List.findIdx?_eq_some_iff_findIdx_eq.1 hindex).2
  split at hbyte
  next hlt =>
    cases hbyte
    exact ⟨hlt, by rw [hfound]⟩
  next => cases hbyte

variable {ordinals : List Nat}

theorem width_importFields {symbols : List ImportedSymbolWithResolution} (hlength : ordinals.length = symbols.length) :
    width (importFields ordinals symbols) = 4 * symbols.length := by
  rw [importFields, width_map_const (fun value => value), List.length_zipWith, symbolOffsets_eq, List.length_map,
    List.length_range, hlength, Nat.min_self]

theorem getElem?_importFields {symbols : List ImportedSymbolWithResolution} (hi : ordinals[i]? = some libOrdinal)
    (hlt : i < symbols.length) :
    (importFields ordinals symbols)[i]? = some (4, chainedImport libOrdinal (stringPool (symbols.take i)).length) := by
  rw [importFields, symbolOffsets_eq, List.getElem?_map, List.getElem?_zipWith, hi, List.getElem?_map,
    List.getElem?_range hlt]
  simp

theorem width_take_importFields {symbols : List ImportedSymbolWithResolution}
    (hlength : ordinals.length = symbols.length) (hlt : i < symbols.length) :
    width ((importFields ordinals symbols).take i) = 4 * i := by
  rw [importFields, ← List.map_take, width_map_const (fun value => value), List.length_take, List.length_zipWith,
    symbolOffsets_eq, List.length_map, List.length_range, hlength, Nat.min_self, Nat.min_eq_left (Nat.le_of_lt hlt)]

/-- **An import is read as it was written, but for the upper bits of the place of its name.** -/
theorem importAt_eq {fileOffset : Nat} {symbols : List ImportedSymbolWithResolution}
    (hplace : IsPlace segmentCount index) (htable : image.table = Records.encode
      (tableFront segmentCount index symbols.length fileOffset ++ importFields ordinals symbols) ++
      rest) (hcount : symbols.length < 4096) (hlength : ordinals.length = symbols.length)
    (hi : ordinals[i]? = some libOrdinal) (hordinal : libOrdinal < 256) :
    image.importAt i =
      (LoadedImage.cString (rest.drop ((stringPool (symbols.take i)).length % 2 ^ 23))).map fun name =>
        (LoadedImage.signedOrdinal libOrdinal, false, name) := by
  have hread {k w v offset : Nat} (h : (tableFront segmentCount index symbols.length fileOffset)[k]? = some (w, v))
      (hoffset : ((frontWidths segmentCount).take k).sum = offset) :
      Records.read image.table offset w = some (v % 256 ^ w) := by
    rw [htable]
    exact read_front (map_tableFront hplace _ _) h hoffset
  have himports : Records.read image.table 8 4 = some (28 + 4 * (segmentCount + 1) + 24) := by
    rcases hplace with ⟨rfl, rfl⟩ | ⟨rfl, rfl⟩ <;> exact hread (k := 2) rfl rfl
  have hsymbols : Records.read image.table 12 4 =
      some ((28 + 4 * (segmentCount + 1) + 24 + 4 * symbols.length) % 256 ^ 4) := by
    rcases hplace with ⟨rfl, rfl⟩ | ⟨rfl, rfl⟩ <;> exact hread (k := 3) rfl rfl
  have himportsCount : Records.read image.table 16 4 = some (symbols.length % 256 ^ 4) := hread (k := 4) rfl rfl
  have hformat : Records.read image.table 20 4 = some 1 := hread (k := 5) rfl rfl
  have hsymbolsOffset : (28 + 4 * (segmentCount + 1) + 24 + 4 * symbols.length) % 256 ^ 4 =
      28 + 4 * (segmentCount + 1) + 24 + 4 * symbols.length := by
    rcases hplace with ⟨rfl, -⟩ | ⟨rfl, -⟩ <;> omega
  have hfront := width_tableFront hplace symbols.length fileOffset
  have hlt : i < symbols.length := hlength ▸ (List.getElem?_eq_some_iff.1 hi).1
  have hraw : Records.read image.table (28 + 4 * (segmentCount + 1) + 24 + 4 * i) 4 =
      some ((stringPool (symbols.take i)).length % 2 ^ 23 * 2 ^ 9 + libOrdinal) := by
    rw [← chainedImport_eq hordinal, htable, encode_append, List.append_assoc, ← hfront, ← length_encode, read_behind,
      ← width_take_importFields hlength hlt]
    exact read_encode (getElem?_importFields hi hlt) _
  have hstring : image.table.drop (28 + 4 * (segmentCount + 1) + 24 + 4 * symbols.length +
      (stringPool (symbols.take i)).length % 2 ^ 23) = rest.drop ((stringPool (symbols.take i)).length % 2 ^ 23) := by
    rw [htable, ← List.drop_drop]
    congr 1
    refine List.drop_left' ?_
    rw [length_encode, width_append, hfront, width_importFields hlength]
  have hbit : ((stringPool (symbols.take i)).length % 2 ^ 23 * 2 ^ 9 + libOrdinal).testBit 8 = false := by
    rw [Nat.testBit_eq_decide_div_mod_eq, decide_eq_false_iff_not]
    omega
  rw [LoadedImage.importAt, himports, hsymbols, himportsCount, hformat]
  simp only [Option.bind_some]
  rw [if_pos ⟨trivial, by omega⟩, hraw, Option.bind_some, hsymbolsOffset,
    show ((stringPool (symbols.take i)).length % 2 ^ 23 * 2 ^ 9 + libOrdinal) / 2 ^ 9 =
      (stringPool (symbols.take i)).length % 2 ^ 23 by omega, hstring, hbit,
    show ((stringPool (symbols.take i)).length % 2 ^ 23 * 2 ^ 9 + libOrdinal) % 2 ^ 8 = libOrdinal by omega]

end Reld.MachO
