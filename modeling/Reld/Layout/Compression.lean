import Reld.Layout.OutputBuffers

/-!
# `Layout.Compression` — the layout after debug sections were compressed

Debug sections are compressed once the layout is complete. `update_allocation_sizes` gives each of them a
single part with the compressed size, and `update_file_offset` walks the output order again to lay the file out
anew. That second walk aligns at the start of a section only; it knows neither the alignments of parts nor
location counters nor the starts of segments, and it fails when one of the segments that it compares is no
longer where it was.
-/

namespace Reld

/-- `SegmentLayout`. -/
structure SegmentLayout where
  id : ProgramSegmentId
  sizes : OutputRecordLayout

/-- What compression reads and changes of a `GroupLayout`. -/
structure GroupLayout where
  fileSizes : PartMap Nat
  /-- One of the files is the epilogue. -/
  hasEpilogue : Bool

/-- What compression reads and changes of the `Layout`. -/
structure Layout where
  outputSections : OutputSections
  outputOrder : List OrderEvent
  segments : List SegmentLayout
  sectionPartLayouts : OutputSectionId → List (Nat × OutputRecordLayout)
  sectionLayouts : OutputSectionId → OutputRecordLayout
  mergedSectionLayouts : OutputSectionId → OutputRecordLayout
  groupLayouts : List GroupLayout

/-- The record of a part, if the map has one: `get_mut` adds a default one. -/
def partLayout (records : List (Nat × OutputRecordLayout)) (part : Nat) : OutputRecordLayout :=
  (records.lookup part).getD {}

namespace PartMap

/-- `get_mut` with a value for all parts of a section. -/
def setAll (m : PartMap Nat) (id : OutputSectionId) (value : Nat → Nat) : PartMap Nat :=
  { parts := fun i part => if i = id then value part else m.parts i part
    sparse := fun i part => if i = id then some (value part) else m.sparse i part }

end PartMap

/-- The parts of a compressed section: one of the least alignment holds all bytes. -/
def compressedFileSize (size part : Nat) : Nat := if part = partWithAlignment 0 then size else 0

/-- What compressing one section changes in a group: its parts are empty, and the epilogue writes the
compressed section. -/
def GroupLayout.compress (id : OutputSectionId) (size : Nat) (g : GroupLayout) : GroupLayout :=
  { g with fileSizes := g.fileSizes.setAll id fun part =>
      if g.hasEpilogue then compressedFileSize size part else 0 }

/-- `update_allocation_sizes` for the compressed sections, which are different ones, with their sizes. -/
def updateAllocationSizes (compressed : List (OutputSectionId × Nat)) (l : Layout) : Layout :=
  { l with
    sectionPartLayouts := fun id =>
      match compressed.lookup id with
      | none => l.sectionPartLayouts id
      | some size => (List.range (numParts id)).map fun part =>
        (part, { partLayout (l.sectionPartLayouts id) part with fileSize := compressedFileSize size part })
    sectionLayouts := fun id =>
      match compressed.lookup id with
      | none => l.sectionLayouts id
      | some size => { l.sectionLayouts id with memSize := size }
    mergedSectionLayouts := fun id =>
      match compressed.lookup id with
      | none => l.mergedSectionLayouts id
      | some size => { l.mergedSectionLayouts id with memSize := size }
    groupLayouts := l.groupLayouts.map fun g => compressed.foldl (fun g c => g.compress c.1 c.2) g }

/-! ## File offsets -/

/-- The loop over the parts of a section: each is put where the last one ended. -/
def moveParts (records : List (Nat × OutputRecordLayout)) :
    Nat → List Nat → List (Nat × OutputRecordLayout) × Nat
  | fileOffset, [] => ([], fileOffset)
  | fileOffset, part :: parts =>
    let r := partLayout records part
    let rest := moveParts records (fileOffset + r.fileSize) parts
    ((part, { r with fileOffset }) :: rest.1, rest.2)

/-- The state of `update_file_offset`. -/
structure OffsetState where
  fileOffset : Nat := 0
  /-- The segments that are still to be compared. -/
  segments : List SegmentLayout
  layout : Layout

/-- `OrderEvent::Section`. -/
def moveSection (id : OutputSectionId) (s : OffsetState) : OffsetState :=
  let l := s.layout
  let section_ := l.sectionLayouts id
  let fileOffset := section_.alignment.alignUp s.fileOffset
  let target := l.outputSections.primaryOutputSection id
  let merged := l.mergedSectionLayouts target
  let mergedOffset := if target = id then fileOffset else merged.fileOffset
  let moved := moveParts (l.sectionPartLayouts id) fileOffset (List.range (numParts id))
  { s with
    fileOffset := moved.2
    layout := { l with
      sectionPartLayouts := Function.update l.sectionPartLayouts id moved.1
      sectionLayouts := Function.update l.sectionLayouts id
        { section_ with fileOffset, fileSize := moved.2 - fileOffset }
      mergedSectionLayouts := Function.update l.mergedSectionLayouts target
        { merged with fileOffset := mergedOffset, fileSize := moved.2 - mergedOffset } } }

/-- One event of the second walk; `none` is "Segment moved due to debug info compression". -/
def offsetEvent (s : OffsetState) : OrderEvent → Option OffsetState
  | .segmentStart id =>
    match s.segments with
    | [] => some s
    | segment :: segments =>
      if segment.id = id then
        if segment.sizes.fileOffset = s.fileOffset then some { s with segments } else none
      else some s
  | .outputSection id => some (moveSection id s)
  | _ => some s

def offsetEvents : List OrderEvent → OffsetState → Option OffsetState
  | [], s => some s
  | event :: events, s => (offsetEvent s event).bind (offsetEvents events)

/-- `update_file_offset`. -/
def updateFileOffset (l : Layout) : Option Layout :=
  (offsetEvents l.outputOrder { segments := l.segments, layout := l }).map (·.layout)

/-- What compression does to a layout. -/
def compressLayout (compressed : List (OutputSectionId × Nat)) (l : Layout) : Option Layout :=
  updateFileOffset (updateAllocationSizes compressed l)

/-! ## One section -/

section

variable {records : List (Nat × OutputRecordLayout)}

/-- The bytes of the given parts. -/
def partBytes (records : List (Nat × OutputRecordLayout)) (parts : List Nat) : Nat :=
  (parts.map fun part => (partLayout records part).fileSize).sum

theorem moveParts_snd (records : List (Nat × OutputRecordLayout)) (p : Nat) (parts : List Nat) :
    (moveParts records p parts).2 = p + partBytes records parts := by
  induction parts generalizing p with
  | nil => rfl
  | cons part parts ih => simp [moveParts, ih, partBytes, Nat.add_assoc]

theorem moveParts_map_fst (records : List (Nat × OutputRecordLayout)) (p : Nat) (parts : List Nat) :
    (moveParts records p parts).1.map (·.1) = parts := by
  induction parts generalizing p with
  | nil => rfl
  | cons part parts ih => simp [moveParts, ih]

end

end Reld

/-!
# When compression leaves the program alone

Compressing debug sections must not move anything that is loaded, since program headers and addresses are not
computed again. The second walk packs the sections, so it finds an allocated section where it was only when
the first walk left no gap in front of it but that of its alignment, and the same holds of its parts (`Tight`).
Location counters, the starts of segments, `NOBITS` sections and packed sections make such gaps.
-/

namespace Reld

/-! ## Parts as the second walk sees them -/

section

variable {records : List (Nat × OutputRecordLayout)} {q : Nat × OutputRecordLayout}

/-- The offset of a part that was moved: behind the bytes of the parts with smaller indexes. -/
theorem partLayout_moveParts_range' {p a n k : Nat} (hak : a ≤ k) (hkn : k < a + n) :
    partLayout (moveParts records p (List.range' a n)).1 k =
      { partLayout records k with fileOffset := p + partBytes records (List.range' a (k - a)) } := by
  induction n generalizing p a with
  | zero => omega
  | succ n ih =>
    rw [List.range'_succ]
    by_cases ha : k = a
    · subst ha
      simp [moveParts, partLayout, partBytes]
    · have htail : partLayout (moveParts records p (a :: List.range' (a + 1) n)).1 k =
          partLayout (moveParts records (p + (partLayout records a).fileSize) (List.range' (a + 1) n)).1 k := by
        simp only [partLayout, moveParts, List.lookup_cons, beq_eq_false_iff_ne.mpr ha]
      have hrange : List.range' a (k - a) = a :: List.range' (a + 1) (k - (a + 1)) := by
        rw [show k - a = (k - (a + 1)) + 1 by omega, List.range'_succ]
      rw [htail, ih (by omega) (by omega), hrange, partBytes, partBytes, List.map_cons, List.sum_cons,
        Nat.add_assoc]

theorem partLayout_moveParts_range {p n k : Nat} (hk : k < n) :
    partLayout (moveParts records p (List.range n)).1 k =
      { partLayout records k with fileOffset := p + partBytes records (List.range k) } := by
  rw [List.range_eq_range', partLayout_moveParts_range' (Nat.zero_le k) (by omega), List.range_eq_range']
  rfl

theorem partLayout_eq (hkeys : (records.map (·.1)).Nodup) (hq : q ∈ records) : partLayout records q.1 = q.2 := by
  unfold partLayout
  rw [lookup_of_mem hkeys hq]
  rfl

/-- Among the indexes below `n` each occurs once. -/
theorem sum_range_single (n a v : Nat) :
    ((List.range n).map fun k => if k = a then v else 0).sum = if a < n then v else 0 := by
  induction n with
  | zero => rfl
  | succ n ih =>
    rw [List.range_succ, List.map_append, List.sum_append, ih]
    by_cases ha : n = a
    · simp [ha]
    · simp only [List.map_cons, List.map_nil, List.sum_singleton, if_neg ha, Nat.add_zero]
      exact if_congr (by omega) rfl rfl

/-- The bytes of the first parts are those of their records. -/
theorem partBytes_eq_filter (hkeys : (records.map (·.1)).Nodup) (n : Nat) :
    partBytes records (List.range n) = ((records.filter (fun q => q.1 < n)).map (·.2.fileSize)).sum := by
  induction records with
  | nil =>
    refine List.sum_eq_zero_iff_forall_eq_nat.mpr fun x hx => ?_
    obtain ⟨k, -, rfl⟩ := List.mem_map.mp hx
    rfl
  | cons q records ih =>
    obtain ⟨a, r⟩ := q
    rw [List.map_cons, List.nodup_cons] at hkeys
    -- A part is looked up in the rest unless it is the one of the first record.
    have hcons : ∀ k, (partLayout ((a, r) :: records) k).fileSize =
        (if k = a then r.fileSize else 0) + (partLayout records k).fileSize := by
      intro k
      unfold partLayout
      by_cases hk : k = a
      · subst hk
        have hnone : records.lookup k = none := List.lookup_eq_none_iff.mpr fun x hx => by
          rw [bne_iff_ne]
          exact fun heq => hkeys.1 (heq ▸ List.mem_map.mpr ⟨x, hx, rfl⟩)
        simp [hnone]
      · simp [List.lookup_cons, beq_eq_false_iff_ne.mpr hk, hk]
    have hsum : partBytes ((a, r) :: records) (List.range n) =
        (if a < n then r.fileSize else 0) + partBytes records (List.range n) := by
      unfold partBytes
      simp only [hcons]
      rw [List.sum_map_add, sum_range_single]
    rw [hsum, ih hkeys.2]
    by_cases hn : a < n
    · rw [if_pos hn, List.filter_cons_of_pos (by simpa using hn), List.map_cons, List.sum_cons]
    · rw [if_neg hn, List.filter_cons_of_neg (by simpa using hn), Nat.zero_add]

/-- With increasing indexes, the bytes in front of a part are those of the records in front of its record. -/
theorem partBytes_before {l r : List (Nat × OutputRecordLayout)} (h : (l ++ q :: r).Pairwise (·.1 < ·.1)) :
    partBytes (l ++ q :: r) (List.range q.1) = (l.map (·.2.fileSize)).sum := by
  have hkeys : ((l ++ q :: r).map (·.1)).Nodup := List.pairwise_map.mpr (h.imp Nat.ne_of_lt)
  obtain ⟨-, hr, hl⟩ := List.pairwise_append.mp h
  rw [List.pairwise_cons] at hr
  have hbefore : l.filter (fun x => decide (x.1 < q.1)) = l := List.filter_eq_self.mpr fun x hx =>
    decide_eq_true (hl x hx q (List.mem_cons_self ..))
  have hbehind : (q :: r).filter (fun x => decide (x.1 < q.1)) = [] := by
    rw [List.filter_eq_nil_iff]
    intro x hx
    rcases List.mem_cons.mp hx with rfl | hx
    · simp
    · have := hr.1 x hx
      simp only [decide_eq_true_eq]
      omega
  rw [partBytes_eq_filter hkeys, List.filter_append, hbefore, hbehind, List.append_nil]

/-- All parts together have the bytes of all records. -/
theorem partBytes_all {n : Nat} (hkeys : (records.map (·.1)).Nodup) (hn : ∀ q ∈ records, q.1 < n) :
    partBytes records (List.range n) = (records.map (·.2.fileSize)).sum := by
  rw [partBytes_eq_filter hkeys, List.filter_eq_self.mpr fun q hq => decide_eq_true (hn q hq)]

/-- The records lie packed from `p` on when each lies behind the bytes in front of it. -/
theorem packed_iff_partBytes (h : records.Pairwise (·.1 < ·.1)) (p : Nat) :
    Blocks.packed p (records.map (·.2.fileSize)) = records.map (·.2.fileOffset) ↔
      ∀ q ∈ records, q.2.fileOffset = p + partBytes records (List.range q.1) := by
  have hplace : ∀ k (hk : k < records.length),
      (Blocks.packed p (records.map (·.2.fileSize))).get ⟨k, by simpa using hk⟩ =
        p + partBytes records (List.range records[k].1) := by
    intro k hk
    have hsplit : records = records.take k ++ records[k] :: records.drop (k + 1) := by
      rw [← List.drop_eq_getElem_cons hk, List.take_append_drop]
    have hbefore := partBytes_before (hsplit ▸ h)
    rw [← hsplit] at hbefore
    rw [List.get_eq_getElem, Blocks.packed_getElem, hbefore, ← List.map_take]
  constructor
  · intro heq q hq
    obtain ⟨k, hk, rfl⟩ := List.getElem_of_mem hq
    rw [← hplace k hk]
    simp [heq]
  · intro hall
    refine List.ext_getElem (by simp) fun k hk hk' => ?_
    rw [List.length_map] at hk'
    rw [List.getElem_map]
    exact (hplace k hk').trans (hall _ (List.getElem_mem hk')).symm

end

/-! ## The second walk -/

namespace Layout

/-- The bytes that the parts of a section take in the file. -/
def newSize (l : Layout) (id : OutputSectionId) : Nat :=
  partBytes (l.sectionPartLayouts id) (List.range (numParts id))

/-- The two layouts differ in file offsets only, as far as the second walk reads them. -/
def SameSizes (l l' : Layout) : Prop :=
  ∀ id, (l'.sectionLayouts id).alignment = (l.sectionLayouts id).alignment ∧
    ∀ k < numParts id, (partLayout (l'.sectionPartLayouts id) k).fileSize =
      (partLayout (l.sectionPartLayouts id) k).fileSize

theorem SameSizes.refl (l : Layout) : SameSizes l l := fun _ => ⟨rfl, fun _ _ => rfl⟩

theorem SameSizes.partBytes {l l' : Layout} (h : SameSizes l l') (id : OutputSectionId) {n : Nat}
    (hn : n ≤ numParts id) : partBytes (l'.sectionPartLayouts id) (List.range n) =
      Reld.partBytes (l.sectionPartLayouts id) (List.range n) := by
  unfold Reld.partBytes
  congr 1
  refine List.map_congr_left fun k hk => ?_
  exact (h id).2 k (Nat.lt_of_lt_of_le (List.mem_range.mp hk) hn)

theorem SameSizes.newSize {l l' : Layout} (h : SameSizes l l') (id : OutputSectionId) :
    l'.newSize id = l.newSize id := h.partBytes id (Nat.le_refl _)

end Layout

/-- A section of the walk from the file offset `p` on. -/
structure SectionMoved (l l' : Layout) (id : OutputSectionId) (p : Nat) : Prop where
  fileOffset : (l'.sectionLayouts id).fileOffset = (l.sectionLayouts id).alignment.alignUp p
  fileSize : (l'.sectionLayouts id).fileSize = l.newSize id
  parts : ∀ k < numParts id, (partLayout (l'.sectionPartLayouts id) k).fileOffset =
    (l.sectionLayouts id).alignment.alignUp p + partBytes (l.sectionPartLayouts id) (List.range k)
  sum : ((l'.sectionPartLayouts id).map (·.2.fileSize)).sum = l.newSize id

variable {l : Layout} {s s' : OffsetState} {id : OutputSectionId} {events : List OrderEvent}
  {isAlloc : OutputSectionId → Bool}

theorem moveSection_sameSizes (h : l.SameSizes s.layout) : l.SameSizes (moveSection id s).layout := by
  intro i
  unfold moveSection
  simp only
  by_cases hi : i = id
  · subst hi
    rw [Function.update_self, Function.update_self]
    refine ⟨(h i).1, fun k hk => ?_⟩
    rw [partLayout_moveParts_range hk]
    exact (h i).2 k hk
  · rw [Function.update_of_ne hi, Function.update_of_ne hi]
    exact h i

theorem moveSection_fileOffset (id : OutputSectionId) (h : l.SameSizes s.layout) :
    (moveSection id s).fileOffset = (l.sectionLayouts id).alignment.alignUp s.fileOffset + l.newSize id := by
  unfold moveSection
  simp only
  rw [moveParts_snd, (h id).1]
  exact congrArg _ (h.newSize id)

theorem moveSection_moved (id : OutputSectionId) (h : l.SameSizes s.layout) :
    SectionMoved l (moveSection id s).layout id s.fileOffset := by
  have hbytes := moveParts_snd (s.layout.sectionPartLayouts id)
    ((l.sectionLayouts id).alignment.alignUp s.fileOffset) (List.range (numParts id))
  have hnew : partBytes (s.layout.sectionPartLayouts id) (List.range (numParts id)) = l.newSize id :=
    h.newSize id
  have hrecords : (moveSection id s).layout.sectionPartLayouts id =
      (moveParts (s.layout.sectionPartLayouts id) ((l.sectionLayouts id).alignment.alignUp s.fileOffset)
        (List.range (numParts id))).1 := by
    unfold moveSection
    simp [(h id).1]
  refine ⟨?_, ?_, fun k hk => ?_, ?_⟩
  · unfold moveSection
    simp [(h id).1]
  · unfold moveSection
    simp only [Function.update_self, (h id).1]
    rw [hbytes, hnew, Nat.add_sub_cancel_left]
  · rw [hrecords, partLayout_moveParts_range hk]
    exact congrArg _ (h.partBytes id (Nat.le_of_lt hk))
  · have hkeys := moveParts_map_fst (s.layout.sectionPartLayouts id)
      ((l.sectionLayouts id).alignment.alignUp s.fileOffset) (List.range (numParts id))
    rw [hrecords]
    generalize hm : (moveParts (s.layout.sectionPartLayouts id)
      ((l.sectionLayouts id).alignment.alignUp s.fileOffset) (List.range (numParts id))).1 = moved at hkeys
    have hnodup : (moved.map (·.1)).Nodup := hkeys ▸ List.nodup_range
    have hlt : ∀ q ∈ moved, q.1 < numParts id := fun q hq =>
      List.mem_range.mp (hkeys ▸ List.mem_map.mpr ⟨q, hq, rfl⟩)
    rw [← partBytes_all hnodup hlt, ← hnew]
    unfold partBytes
    congr 1
    refine List.map_congr_left fun k hk => ?_
    rw [← hm, partLayout_moveParts_range (List.mem_range.mp hk)]

theorem moveSection_of_ne {i : OutputSectionId} (hi : i ≠ id) :
    (moveSection id s).layout.sectionLayouts i = s.layout.sectionLayouts i ∧
      (moveSection id s).layout.sectionPartLayouts i = s.layout.sectionPartLayouts i := by
  unfold moveSection
  exact ⟨Function.update_of_ne hi _ _, Function.update_of_ne hi _ _⟩

/-- The events that move nothing. -/
theorem offsetEvent_of_not_section {e : OrderEvent} (he : ∀ id, e ≠ .outputSection id)
    (h : offsetEvent s e = some s') : s'.layout = s.layout ∧ s'.fileOffset = s.fileOffset := by
  unfold offsetEvent at h
  cases e with
  | outputSection id => exact absurd rfl (he id)
  | segmentStart id =>
    simp only at h
    split at h
    · exact Option.some.inj h ▸ ⟨rfl, rfl⟩
    · split at h
      · split at h
        · exact Option.some.inj h ▸ ⟨rfl, rfl⟩
        · cases h
      · exact Option.some.inj h ▸ ⟨rfl, rfl⟩
  | _ => exact Option.some.inj h ▸ ⟨rfl, rfl⟩

/-- What a run of the walk leaves: sections that it reached lie behind its start, the others as before. -/
structure Walked (l : Layout) (events : List OrderEvent) (s s' : OffsetState) : Prop where
  same : l.SameSizes s'.layout
  offset : s.fileOffset ≤ s'.fileOffset
  moved : ∀ id ∈ orderedIds events, ∃ p, SectionMoved l s'.layout id p ∧ s.fileOffset ≤ p ∧
    (s'.layout.sectionLayouts id).fileEnd ≤ s'.fileOffset
  skipped : ∀ id, id ∉ orderedIds events →
    s'.layout.sectionLayouts id = s.layout.sectionLayouts id ∧
      s'.layout.sectionPartLayouts id = s.layout.sectionPartLayouts id

theorem offsetEvents_walked (h : offsetEvents events s = some s') (hs : l.SameSizes s.layout) :
    Walked l events s s' := by
  induction events generalizing s with
  | nil =>
    rw [← Option.some.inj h]
    exact ⟨hs, Nat.le_refl _, fun id hid => absurd hid List.not_mem_nil, fun _ _ => ⟨rfl, rfl⟩⟩
  | cons e events ih =>
    obtain ⟨s₁, he, h⟩ := Option.bind_eq_some_iff.mp h
    rcases section_or_other e with ⟨id, rfl⟩ | hother
    · obtain rfl := Option.some.inj he
      obtain ⟨hsame, hoff, hmoved, hskipped⟩ := ih h (moveSection_sameSizes hs)
      have hend := moveSection_fileOffset id hs
      have hle := Alignment.le_alignUp (l.sectionLayouts id).alignment s.fileOffset
      refine ⟨hsame, by omega, fun i hi => ?_, fun i hi => ?_⟩
      · by_cases hmem : i ∈ orderedIds events
        · obtain ⟨p, hp, hle', hstop⟩ := hmoved i hmem
          exact ⟨p, hp, by omega, hstop⟩
        · -- The last visit of the section.
          obtain rfl := (List.mem_cons.mp hi).resolve_right hmem
          obtain ⟨hsec, hparts⟩ := hskipped i hmem
          have hnow := moveSection_moved i hs
          refine ⟨s.fileOffset, ⟨?_, ?_, ?_, ?_⟩, Nat.le_refl _, ?_⟩
          · rw [hsec]; exact hnow.fileOffset
          · rw [hsec]; exact hnow.fileSize
          · rw [hparts]; exact hnow.parts
          · rw [hparts]; exact hnow.sum
          · rw [hsec, OutputRecordLayout.fileEnd, hnow.fileOffset, hnow.fileSize, ← hend]
            exact hoff
      · rw [orderedIds_cons_section, List.mem_cons, not_or] at hi
        obtain ⟨hsec, hparts⟩ := hskipped i hi.2
        obtain ⟨hsec', hparts'⟩ := moveSection_of_ne (s := s) hi.1
        exact ⟨hsec.trans hsec', hparts.trans hparts'⟩
    · obtain ⟨hlayout, hoffset⟩ := offsetEvent_of_not_section hother he
      obtain ⟨hsame, hoff, hmoved, hskipped⟩ := ih h (hlayout ▸ hs)
      rw [hoffset] at hoff hmoved
      rw [hlayout] at hskipped
      have hids := orderedIds_cons_other hother events
      exact ⟨hsame, hoff, fun i hi => hmoved i (hids ▸ hi), fun i hi => hskipped i (hids ▸ hi)⟩

/-! ## What stays -/

/-- The section and its parts are where they were, with the bytes that they had. -/
structure SectionKept (l l' : Layout) (id : OutputSectionId) : Prop where
  fileOffset : (l'.sectionLayouts id).fileOffset = (l.sectionLayouts id).fileOffset
  fileSize : (l'.sectionLayouts id).fileSize = (l.sectionLayouts id).fileSize
  parts : ∀ q ∈ l.sectionPartLayouts id,
    (partLayout (l'.sectionPartLayouts id) q.1).fileOffset = q.2.fileOffset ∧
      (partLayout (l'.sectionPartLayouts id) q.1).fileSize = q.2.fileSize

/-- The parts of a section follow each other without gaps and fill it. -/
structure PartsTight (l : Layout) (id : OutputSectionId) : Prop where
  size : l.newSize id = (l.sectionLayouts id).fileSize
  parts : ∀ q ∈ l.sectionPartLayouts id,
    q.2.fileOffset = (l.sectionLayouts id).fileOffset + partBytes (l.sectionPartLayouts id) (List.range q.1)

/-- The sections of the order lie tight behind `pos`. An allocated section is at the first multiple of its
alignment behind what is in front of it, and what follows it counts from its end; so do the segments that are
compared. The other sections, and a section that comes again later, only count with alignment and size. -/
def Tight (isAlloc : OutputSectionId → Bool) (sections : OutputSectionId → OutputRecordLayout)
    (size : OutputSectionId → Nat) : Nat → List SegmentLayout → List OrderEvent → Prop
  | _, _, [] => True
  | pos, segments, .segmentStart id :: events =>
    match segments with
    | [] => Tight isAlloc sections size pos [] events
    | segment :: rest =>
      if segment.id = id then segment.sizes.fileOffset = pos ∧ Tight isAlloc sections size pos rest events
      else Tight isAlloc sections size pos (segment :: rest) events
  | pos, segments, .outputSection id :: events =>
    if isAlloc id ∧ id ∉ orderedIds events then
      (sections id).fileOffset = (sections id).alignment.alignUp pos ∧
        Tight isAlloc sections size (sections id).fileEnd segments events
    else Tight isAlloc sections size ((sections id).alignment.alignUp pos + size id) segments events
  | pos, segments, .segmentEnd _ :: events => Tight isAlloc sections size pos segments events
  | pos, segments, .setLocation _ _ _ :: events => Tight isAlloc sections size pos segments events
  | pos, segments, .setLocationRelative _ _ _ _ :: events => Tight isAlloc sections size pos segments events
  | pos, segments, .setSectionAddress _ :: events => Tight isAlloc sections size pos segments events

instance decidableTight (isAlloc : OutputSectionId → Bool) (sections : OutputSectionId → OutputRecordLayout)
    (size : OutputSectionId → Nat) : ∀ (pos : Nat) (segments : List SegmentLayout) (events : List OrderEvent),
      Decidable (Tight isAlloc sections size pos segments events)
  | _, _, [] => inferInstanceAs (Decidable True)
  | pos, [], .segmentStart _ :: events => decidableTight isAlloc sections size pos [] events
  | pos, segment :: rest, .segmentStart id :: events =>
    have := decidableTight isAlloc sections size pos rest events
    have := decidableTight isAlloc sections size pos (segment :: rest) events
    inferInstanceAs (Decidable (if segment.id = id then
      segment.sizes.fileOffset = pos ∧ Tight isAlloc sections size pos rest events
      else Tight isAlloc sections size pos (segment :: rest) events))
  | pos, segments, .outputSection id :: events =>
    have := decidableTight isAlloc sections size (sections id).fileEnd segments events
    have := decidableTight isAlloc sections size ((sections id).alignment.alignUp pos + size id) segments events
    inferInstanceAs (Decidable (if isAlloc id ∧ id ∉ orderedIds events then
      (sections id).fileOffset = (sections id).alignment.alignUp pos ∧
        Tight isAlloc sections size (sections id).fileEnd segments events
      else Tight isAlloc sections size ((sections id).alignment.alignUp pos + size id) segments events))
  | pos, segments, .segmentEnd _ :: events => decidableTight isAlloc sections size pos segments events
  | pos, segments, .setLocation _ _ _ :: events => decidableTight isAlloc sections size pos segments events
  | pos, segments, .setLocationRelative _ _ _ _ :: events =>
    decidableTight isAlloc sections size pos segments events
  | pos, segments, .setSectionAddress _ :: events => decidableTight isAlloc sections size pos segments events

/-- Only the places of the sections matter, their file sizes and their alignments. -/
theorem tight_congr {sections sections' : OutputSectionId → OutputRecordLayout} {size : OutputSectionId → Nat}
    (h : ∀ id, (sections' id).fileOffset = (sections id).fileOffset ∧
      (sections' id).fileSize = (sections id).fileSize ∧ (sections' id).alignment = (sections id).alignment)
    {pos : Nat} {segments : List SegmentLayout} :
    Tight isAlloc sections' size pos segments events ↔ Tight isAlloc sections size pos segments events := by
  induction events generalizing pos segments with
  | nil => exact Iff.rfl
  | cons e events ih =>
    cases e with
    | segmentStart g =>
      unfold Tight
      cases segments with
      | nil => exact ih
      | cons segment rest =>
        simp only
        split
        · exact and_congr_right fun _ => ih
        · exact ih
    | outputSection id =>
      obtain ⟨hoff, hsize, halign⟩ := h id
      unfold Tight
      rw [OutputRecordLayout.fileEnd, OutputRecordLayout.fileEnd, hoff, hsize, halign]
      split
      · exact and_congr_right fun _ => ih
      · exact ih
    | segmentEnd g => exact ih
    | setLocation e loc i => exact ih
    | setLocationRelative e id loc i => exact ih
    | setSectionAddress e => exact ih

/-- The records of a section come by increasing index and name its parts. -/
def WellKeyed (l : Layout) (id : OutputSectionId) : Prop :=
  (l.sectionPartLayouts id).Pairwise (·.1 < ·.1) ∧ ∀ q ∈ l.sectionPartLayouts id, q.1 < numParts id

theorem SectionMoved.kept_iff {l' : Layout} {p : Nat} (h : SectionMoved l l' id p) (hsame : l.SameSizes l')
    (hkeys : WellKeyed l id) :
    SectionKept l l' id ↔
      (l.sectionLayouts id).fileOffset = (l.sectionLayouts id).alignment.alignUp p ∧ PartsTight l id := by
  have hnodup : ((l.sectionPartLayouts id).map (·.1)).Nodup :=
    List.pairwise_map.mpr (hkeys.1.imp Nat.ne_of_lt)
  constructor
  · rintro ⟨hoff, hsize, hparts⟩
    have hstart : (l.sectionLayouts id).fileOffset = (l.sectionLayouts id).alignment.alignUp p :=
      hoff.symm.trans h.fileOffset
    refine ⟨hstart, h.fileSize.symm.trans hsize, fun q hq => ?_⟩
    rw [← (hparts q hq).1, h.parts q.1 (hkeys.2 q hq), hstart]
  · rintro ⟨hoff, hsize, hparts⟩
    refine ⟨h.fileOffset.trans hoff.symm, h.fileSize.trans hsize, fun q hq => ⟨?_, ?_⟩⟩
    · rw [h.parts q.1 (hkeys.2 q hq), hparts q hq, hoff]
    · rw [(hsame id).2 q.1 (hkeys.2 q hq), partLayout_eq hnodup hq]

/-- **The second walk** goes through and keeps the allocated sections exactly when they lie tight. -/
theorem kept_iff_tight (hkeys : ∀ id, isAlloc id → WellKeyed l id) (hs : l.SameSizes s.layout) :
    (∃ s', offsetEvents events s = some s' ∧
        ∀ id ∈ orderedIds events, isAlloc id → SectionKept l s'.layout id) ↔
      Tight isAlloc l.sectionLayouts l.newSize s.fileOffset s.segments events ∧
        ∀ id ∈ orderedIds events, isAlloc id → PartsTight l id := by
  induction events generalizing s with
  | nil => exact ⟨fun _ => ⟨trivial, fun _ h => absurd h List.not_mem_nil⟩,
      fun _ => ⟨s, rfl, fun _ h => absurd h List.not_mem_nil⟩⟩
  | cons e events ih =>
    cases e with
    | segmentStart g =>
      unfold offsetEvents offsetEvent Tight
      cases hseg : s.segments with
      | nil =>
        simp only [Option.bind_some]
        rw [← hseg]
        exact ih hs
      | cons segment rest =>
        simp only
        by_cases hg : segment.id = g
        · rw [if_pos hg, if_pos hg]
          by_cases hpos : segment.sizes.fileOffset = s.fileOffset
          · rw [if_pos hpos, Option.bind_some]
            have := @ih { s with segments := rest } hs
            rw [and_assoc]
            exact this.trans ⟨fun h => ⟨hpos, h⟩, fun h => h.2⟩
          · rw [if_neg hpos]
            exact ⟨fun ⟨_, h, _⟩ => absurd h (by simp), fun h => absurd h.1.1 hpos⟩
        · rw [if_neg hg, if_neg hg, Option.bind_some, ← hseg]
          exact ih hs
    | outputSection id =>
      have hmoved := moveSection_moved id hs
      have hend := moveSection_fileOffset id hs
      have hnext := @ih (moveSection id s) (moveSection_sameSizes hs)
      have hsegments : (moveSection id s).segments = s.segments := rfl
      rw [hend, hsegments] at hnext
      unfold offsetEvents offsetEvent Tight
      by_cases hlast : isAlloc id ∧ id ∉ orderedIds events
      · -- The section is reached for the last time, so it keeps the place it gets now.
        rw [if_pos hlast]
        have hnow : ∀ s', offsetEvents events (moveSection id s) = some s' →
            (SectionKept l s'.layout id ↔
              (l.sectionLayouts id).fileOffset = (l.sectionLayouts id).alignment.alignUp s.fileOffset ∧
                PartsTight l id) := by
          intro s' hs'
          have hw := offsetEvents_walked hs' (moveSection_sameSizes hs)
          obtain ⟨hsec, hparts⟩ := hw.skipped id hlast.2
          refine SectionMoved.kept_iff ⟨?_, ?_, ?_, ?_⟩ hw.same (hkeys id hlast.1)
          · rw [hsec]; exact hmoved.fileOffset
          · rw [hsec]; exact hmoved.fileSize
          · rw [hparts]; exact hmoved.parts
          · rw [hparts]; exact hmoved.sum
        have hfileEnd : (l.sectionLayouts id).fileOffset =
              (l.sectionLayouts id).alignment.alignUp s.fileOffset → PartsTight l id →
            (l.sectionLayouts id).fileEnd =
              (l.sectionLayouts id).alignment.alignUp s.fileOffset + l.newSize id := by
          intro hoff hparts
          rw [OutputRecordLayout.fileEnd, hoff, hparts.size]
        constructor
        · rintro ⟨s', hs', hkept⟩
          obtain ⟨hoff, hparts⟩ := (hnow s' hs').mp (hkept id (List.mem_cons_self ..) hlast.1)
          obtain ⟨htight, hrest⟩ := hnext.mp ⟨s', hs', fun i hi => hkept i (List.mem_cons_of_mem _ hi)⟩
          refine ⟨⟨hoff, hfileEnd hoff hparts ▸ htight⟩, fun i hi => ?_⟩
          rcases List.mem_cons.mp hi with rfl | hi
          · exact fun _ => hparts
          · exact hrest i hi
        · rintro ⟨⟨hoff, htight⟩, hparts⟩
          have hid := hparts id (List.mem_cons_self ..) hlast.1
          obtain ⟨s', hs', hkept⟩ := hnext.mpr ⟨hfileEnd hoff hid ▸ htight,
            fun i hi => hparts i (List.mem_cons_of_mem _ hi)⟩
          refine ⟨s', hs', fun i hi => ?_⟩
          rcases List.mem_cons.mp hi with rfl | hi
          · exact fun _ => (hnow s' hs').mpr ⟨hoff, hid⟩
          · exact hkept i hi
      · rw [if_neg hlast]
        have hmem : ∀ i, i ∈ orderedIds (.outputSection id :: events) → isAlloc i →
            i ∈ orderedIds events := by
          intro i hi halloc
          rcases List.mem_cons.mp hi with rfl | hi
          · by_contra hnot
            exact hlast ⟨halloc, hnot⟩
          · exact hi
        constructor
        · rintro ⟨s', hs', hkept⟩
          obtain ⟨htight, hrest⟩ := hnext.mp ⟨s', hs', fun i hi => hkept i (List.mem_cons_of_mem _ hi)⟩
          exact ⟨htight, fun i hi halloc => hrest i (hmem i hi halloc) halloc⟩
        · rintro ⟨htight, hparts⟩
          obtain ⟨s', hs', hkept⟩ := hnext.mpr ⟨htight, fun i hi => hparts i (List.mem_cons_of_mem _ hi)⟩
          exact ⟨s', hs', fun i hi halloc => hkept i (hmem i hi halloc) halloc⟩
    | segmentEnd g => exact ih hs
    | setLocation e loc i => exact ih hs
    | setLocationRelative e id loc i => exact ih hs
    | setSectionAddress e => exact ih hs

end Reld
