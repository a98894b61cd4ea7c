import Reld.Layout.Compression

/-!
# `Layout.CompressedFile` — the file after compression, for every layout

The layouts are those of `compute_layout_sections`. What the second walk always gives: the sections of the
order lie in the file in the order of their last mentions, without overlap, each with the bytes of its parts.
What it does not give by itself is that the program stays in place; `compression_keeps_program_iff` says when.
-/

namespace Reld

open LayoutContext

/-! ## The order of the sections in the file -/

variable {l : Layout} {s s' : OffsetState}

theorem offsetEvents_append (evs₁ evs₂ : List OrderEvent) (s : OffsetState) :
    offsetEvents (evs₁ ++ evs₂) s = (offsetEvents evs₁ s).bind (offsetEvents evs₂) := by
  induction evs₁ generalizing s with
  | nil => rfl
  | cons e evs₁ ih =>
    rw [List.cons_append, offsetEvents, offsetEvents, Option.bind_assoc]
    exact congrArg _ (funext fun s => ih s)

/-- A section of the order has a last mention. -/
theorem exists_last_mention {events : List OrderEvent} {id : OutputSectionId} (h : id ∈ orderedIds events) :
    ∃ evs₁ evs₂, events = evs₁ ++ .outputSection id :: evs₂ ∧ id ∉ orderedIds evs₂ := by
  induction events with
  | nil => cases h
  | cons e events ih =>
    by_cases hmem : id ∈ orderedIds events
    · obtain ⟨evs₁, evs₂, rfl, hlast⟩ := ih hmem
      exact ⟨e :: evs₁, evs₂, rfl, hlast⟩
    · rcases section_or_other e with ⟨i, rfl⟩ | hother
      · obtain rfl := (List.mem_cons.mp h).resolve_right hmem
        exact ⟨[], events, rfl, hmem⟩
      · exact absurd (orderedIds_cons_other hother events ▸ h) hmem

/-- No allocated section comes behind the last mention of one that is not, unless the latter is empty. -/
def ProgramFirst (isAlloc : OutputSectionId → Bool) (size : OutputSectionId → Nat) :
    List OutputSectionId → Prop
  | [] => True
  | i :: ids => (isAlloc i ∨ i ∈ ids ∨ size i = 0 ∨ ∀ j ∈ ids, ¬isAlloc j) ∧ ProgramFirst isAlloc size ids

instance decidableProgramFirst (isAlloc : OutputSectionId → Bool) (size : OutputSectionId → Nat) :
    ∀ ids : List OutputSectionId, Decidable (ProgramFirst isAlloc size ids)
  | [] => inferInstanceAs (Decidable True)
  | i :: ids =>
    have := decidableProgramFirst isAlloc size ids
    inferInstanceAs (Decidable ((isAlloc i ∨ i ∈ ids ∨ size i = 0 ∨ ∀ j ∈ ids, ¬isAlloc j) ∧
      ProgramFirst isAlloc size ids))

/-- The same, mention by mention. -/
theorem programFirst_iff {isAlloc : OutputSectionId → Bool} {size : OutputSectionId → Nat}
    {events : List OrderEvent} :
    ProgramFirst isAlloc size (orderedIds events) ↔
      ∀ evs₁ evs₂ i, events = evs₁ ++ .outputSection i :: evs₂ →
        isAlloc i ∨ i ∈ orderedIds evs₂ ∨ size i = 0 ∨ ∀ j ∈ orderedIds evs₂, ¬isAlloc j := by
  induction events with
  | nil => exact ⟨fun _ evs₁ evs₂ i h => absurd h (by simp), fun _ => trivial⟩
  | cons e events ih =>
    have hsplit : ∀ evs₁ evs₂ i, e :: events = evs₁ ++ .outputSection i :: evs₂ →
        (e = .outputSection i ∧ events = evs₂) ∨ ∃ evs₁', events = evs₁' ++ .outputSection i :: evs₂ := by
      intro evs₁ evs₂ i h
      cases evs₁ with
      | nil => exact .inl (List.cons.inj h)
      | cons e' evs₁ => exact .inr ⟨evs₁, (List.cons.inj h).2⟩
    have htail : ∀ evs₁ evs₂ i, events = evs₁ ++ .outputSection i :: evs₂ →
        e :: events = (e :: evs₁) ++ .outputSection i :: evs₂ := fun evs₁ evs₂ i h => congrArg (e :: ·) h
    rcases section_or_other e with ⟨k, rfl⟩ | hother
    · rw [orderedIds_cons_section, ProgramFirst, ih]
      constructor
      · rintro ⟨hk, hrest⟩ evs₁ evs₂ i h
        rcases hsplit evs₁ evs₂ i h with ⟨he, rfl⟩ | ⟨evs₁', h'⟩
        · exact OrderEvent.outputSection.inj he ▸ hk
        · exact hrest evs₁' evs₂ i h'
      · intro h
        exact ⟨h [] events k rfl, fun evs₁ evs₂ i h' => h _ evs₂ i (htail evs₁ evs₂ i h')⟩
    · rw [orderedIds_cons_other hother, ih]
      constructor
      · intro hrest evs₁ evs₂ i h
        rcases hsplit evs₁ evs₂ i h with ⟨he, -⟩ | ⟨evs₁', h'⟩
        · exact absurd he (hother i)
        · exact hrest evs₁' evs₂ i h'
      · exact fun h evs₁ evs₂ i h' => h _ evs₂ i (htail evs₁ evs₂ i h')

/-- Sections come in the file in the order of their last mentions. -/
theorem walked_order {evs₁ evs₂ : List OrderEvent} {i j : OutputSectionId}
    (h : offsetEvents (evs₁ ++ .outputSection i :: evs₂) s = some s') (hs : l.SameSizes s.layout)
    (hlast : i ∉ orderedIds evs₂) (hij : j ≠ i) (hj : j ∈ orderedIds (evs₁ ++ .outputSection i :: evs₂)) :
    if j ∈ orderedIds evs₂ then
      (s'.layout.sectionLayouts i).fileEnd ≤ (s'.layout.sectionLayouts j).fileOffset
    else (s'.layout.sectionLayouts j).fileEnd ≤ (s'.layout.sectionLayouts i).fileOffset := by
  rw [offsetEvents_append] at h
  obtain ⟨s₁, h₁, h₂⟩ := Option.bind_eq_some_iff.mp h
  have hw₁ := offsetEvents_walked h₁ hs
  have hw₂ := offsetEvents_walked (s := moveSection i s₁) h₂ (moveSection_sameSizes hw₁.same)
  have hmoved := moveSection_moved i hw₁.same
  have hend := moveSection_fileOffset i hw₁.same
  obtain ⟨hsec, -⟩ := hw₂.skipped i hlast
  split
  · rename_i hmem
    obtain ⟨p, hp, hle, -⟩ := hw₂.moved j hmem
    have := Alignment.le_alignUp (l.sectionLayouts j).alignment p
    rw [hsec, OutputRecordLayout.fileEnd, hmoved.fileOffset, hmoved.fileSize, hp.fileOffset]
    omega
  · rename_i hmem
    have hj₁ : j ∈ orderedIds evs₁ := by
      rw [orderedIds_append] at hj
      rcases List.mem_append.mp hj with hj | hj
      · exact hj
      · exact absurd ((List.mem_cons.mp hj).resolve_left hij) hmem
    obtain ⟨-, -, -, hstop⟩ := hw₁.moved j hj₁
    have := Alignment.le_alignUp (l.sectionLayouts i).alignment s₁.fileOffset
    rw [(hw₂.skipped j hmem).1, (moveSection_of_ne hij).1, hsec, hmoved.fileOffset]
    omega

/-! ## Layouts -/

/-- The layout that `compute_layout` hands to the compression. -/
def LayoutContext.toLayout (ctx : LayoutContext) (layout : LayoutState) (segments : List SegmentLayout)
    (mergedSectionLayouts : OutputSectionId → OutputRecordLayout) (groupLayouts : List GroupLayout) : Layout where
  outputSections := ctx.outputSections
  outputOrder := ctx.outputOrder
  segments := segments
  sectionPartLayouts := layout.records
  sectionLayouts := layout.sectionLayouts
  mergedSectionLayouts := mergedSectionLayouts
  groupLayouts := groupLayouts

/-- The sections that `maybe_compress_debug_sections` selects. -/
def isDebugSection (ctx : LayoutContext) (layout : LayoutState) (id : OutputSectionId) : Bool :=
  (ctx.outputSections.name id).any (fun name => (bytesOf ".debug_").isPrefixOf name) &&
    0 < (layout.sectionLayouts id).fileSize && !(ctx.outputSections.info id).sectionAttributes.isAlloc

/-- A set of compressed sections with their sizes. The sections with a single part are built in, and none of
them has such a name. -/
structure CompressedSections (ctx : LayoutContext) (layout : LayoutState)
    (compressed : List (OutputSectionId × Nat)) : Prop where
  nodup : (compressed.map (·.1)).Nodup
  debug : ∀ c ∈ compressed, isDebugSection ctx layout c.1
  regular : ∀ c ∈ compressed, regularSectionBase ≤ c.1

/-- The bytes of a section in the file once the debug sections are compressed. -/
def sizeAfter (compressed : List (OutputSectionId × Nat)) (layout : LayoutState) (id : OutputSectionId) : Nat :=
  (compressed.lookup id).getD (takenBytes layout.records id)

/-- What compression promises: what is allocated stays, the other sections follow it without overlap, and
every section has the bytes of its parts. -/
structure ProgramKept (ctx : LayoutContext) (l l' : Layout) : Prop where
  kept : ∀ id, ctx.targetIsAlloc id → SectionKept l l' id
  disjoint : ∀ i j, ¬ctx.targetIsAlloc i → ¬ctx.targetIsAlloc j → i ≠ j →
    (l'.sectionLayouts i).fileEnd ≤ (l'.sectionLayouts j).fileOffset ∨
      (l'.sectionLayouts j).fileEnd ≤ (l'.sectionLayouts i).fileOffset
  behind : ∀ i j, ¬ctx.targetIsAlloc i → ctx.targetIsAlloc j → 0 < (l'.sectionLayouts i).fileSize →
    (l'.sectionLayouts j).fileEnd ≤ (l'.sectionLayouts i).fileOffset
  sums : ∀ id, ((l'.sectionPartLayouts id).map (·.2.fileSize)).sum = (l'.sectionLayouts id).fileSize

/-- What the second walk relies on. -/
structure CompressionFits (ctx : LayoutContext) (layout : LayoutState) (segments : List SegmentLayout)
    (compressed : List (OutputSectionId × Nat)) : Prop where
  /-- Nothing but its alignment separates an allocated section from what is in front of it. -/
  tight : Tight ctx.targetIsAlloc layout.sectionLayouts (sizeAfter compressed layout) 0 segments
    ctx.outputOrder
  /-- The sizes before each part of an allocated section are a multiple of the part's alignment. -/
  divides : ∀ id ∈ orderedIds ctx.outputOrder, ctx.targetIsAlloc id → ctx.targetHasData id →
    Blocks.Divides 0 (ctx.partBlocks id)
  /-- No allocated section comes behind one that is not, unless the latter is empty. -/
  first : ProgramFirst ctx.targetIsAlloc (sizeAfter compressed layout) (orderedIds ctx.outputOrder)

section

variable {ctx : LayoutContext} {layout : LayoutState} {segments : List SegmentLayout}
  {merged : OutputSectionId → OutputRecordLayout} {groups : List GroupLayout}
  {compressed : List (OutputSectionId × Nat)} {id : OutputSectionId}

theorem lt_numParts_of_visited {p : Nat × Nat} (h : p ∈ ctx.visitedParts id) : p.1 < numParts id := by
  unfold visitedParts at h
  split at h
  · obtain rfl := List.mem_singleton.mp h
    unfold numParts
    split
    · exact Nat.one_pos
    · exact Nat.succ_pos _
  · exact (PartMap.mem_inRange.mp h).1

theorem wellKeyed_of_filePlaced (h : FilePlaced ctx (orderedIds ctx.outputOrder) layout) (id : OutputSectionId) :
    (layout.records id).Pairwise (·.1 < ·.1) ∧ ∀ q ∈ layout.records id, q.1 < numParts id := by
  by_cases hid : id ∈ orderedIds ctx.outputOrder
  · obtain ⟨-, p, stop, hsec⟩ := h.placed id hid
    have hkeys := hsec.parts.map_fst
    refine ⟨?_, fun q hq => ?_⟩
    · have hmap : ((layout.records id).map (·.1)).Pairwise (· < ·) := by
        rw [hkeys]
        exact List.pairwise_map.mpr (pairwise_visitedParts ctx id)
      exact List.pairwise_map.mp hmap
    · have hmem : q.1 ∈ (ctx.visitedParts id).map (·.1) := hkeys ▸ List.mem_map.mpr ⟨q, hq, rfl⟩
      obtain ⟨p, hp, heq⟩ := List.mem_map.mp hmem
      exact heq ▸ lt_numParts_of_visited hp
  · rw [(h.untouched id hid).1]
    exact ⟨List.Pairwise.nil, fun _ h => absurd h List.not_mem_nil⟩

theorem nodup_records (h : FilePlaced ctx (orderedIds ctx.outputOrder) layout) (id : OutputSectionId) :
    ((layout.records id).map (·.1)).Nodup :=
  List.pairwise_map.mpr ((wellKeyed_of_filePlaced h id).1.imp Nat.ne_of_lt)

/-- What it means to be a debug section: its own target, with bytes, and not allocated. -/
theorem debugSection_spec (h : isDebugSection ctx layout id) :
    ctx.outputSections.primaryOutputSection id = id ∧ ctx.targetIsAlloc id = false ∧
      0 < (layout.sectionLayouts id).fileSize := by
  unfold isDebugSection at h
  simp only [Bool.and_eq_true, decide_eq_true_eq, Bool.not_eq_true'] at h
  obtain ⟨⟨hname, hsize⟩, halloc⟩ := h
  have htarget : ctx.outputSections.primaryOutputSection id = id := by
    unfold OutputSections.name at hname
    unfold OutputSections.primaryOutputSection OutputSections.mergeTarget
    cases hkind : (ctx.outputSections.info id).kind with
    | primary name => rfl
    | secondary primary => simp [hkind] at hname
  exact ⟨htarget, by rw [targetIsAlloc, htarget, halloc], hsize⟩

/-- A compressed section is not allocated and belongs to no other section. -/
theorem not_alloc_of_compressed (h : CompressedSections ctx layout compressed) {size : Nat}
    (hid : compressed.lookup id = some size) : ¬ctx.targetIsAlloc id ∧ regularSectionBase ≤ id ∧
      0 < (layout.sectionLayouts id).fileSize := by
  have hmem : (id, size) ∈ compressed := by
    obtain ⟨l₁, l₂, heq, -⟩ := List.lookup_eq_some_iff.mp hid
    rw [heq]
    exact List.mem_append_right _ (List.mem_cons_self ..)
  obtain ⟨-, halloc, hsize⟩ := debugSection_spec (h.debug _ hmem)
  refine ⟨?_, h.regular _ hmem, hsize⟩
  rw [halloc]
  exact Bool.false_ne_true

theorem lookup_none_of_alloc (h : CompressedSections ctx layout compressed) (halloc : ctx.targetIsAlloc id) :
    compressed.lookup id = none := by
  cases hlookup : compressed.lookup id with
  | none => rfl
  | some size => exact absurd halloc (not_alloc_of_compressed h hlookup).1

/-- The first phase changes sizes in memory and the parts of compressed sections. -/
theorem updateAllocationSizes_sections (compressed : List (OutputSectionId × Nat)) (l : Layout)
    (id : OutputSectionId) :
    ((updateAllocationSizes compressed l).sectionLayouts id).fileOffset = (l.sectionLayouts id).fileOffset ∧
      ((updateAllocationSizes compressed l).sectionLayouts id).fileSize = (l.sectionLayouts id).fileSize ∧
      ((updateAllocationSizes compressed l).sectionLayouts id).alignment = (l.sectionLayouts id).alignment := by
  unfold updateAllocationSizes
  simp only
  cases compressed.lookup id <;> exact ⟨rfl, rfl, rfl⟩

theorem updateAllocationSizes_parts (l : Layout) (hid : compressed.lookup id = none) :
    (updateAllocationSizes compressed l).sectionPartLayouts id = l.sectionPartLayouts id := by
  unfold updateAllocationSizes
  simp only [hid]

/-- After the first phase a section has its compressed size, or that of its records. -/
theorem newSize_updateAllocationSizes (h : FilePlaced ctx (orderedIds ctx.outputOrder) layout)
    (hset : CompressedSections ctx layout compressed) (id : OutputSectionId) :
    (updateAllocationSizes compressed (ctx.toLayout layout segments merged groups)).newSize id =
      sizeAfter compressed layout id := by
  unfold Layout.newSize sizeAfter
  cases hid : compressed.lookup id with
  | none =>
    rw [updateAllocationSizes_parts _ hid]
    exact partBytes_all (nodup_records h id) (wellKeyed_of_filePlaced h id).2
  | some size =>
    have hregular := (not_alloc_of_compressed hset hid).2.1
    have hparts : partWithAlignment 0 < numParts id := by
      unfold numParts
      rw [if_neg (Nat.not_lt.mpr hregular)]
      decide
    unfold updateAllocationSizes
    simp only [hid]
    rw [partBytes_all (by simp [Function.comp_def, List.nodup_range]) (by simp)]
    simp only [List.map_map, Function.comp_def, compressedFileSize]
    rw [sum_range_single, if_pos hparts]
    rfl

/-- The parts of an allocated section are tight when their sizes suit their alignments. -/
theorem partsTight_iff (h : FilePlaced ctx (orderedIds ctx.outputOrder) layout)
    (hset : CompressedSections ctx layout compressed) (hid : id ∈ orderedIds ctx.outputOrder)
    (halloc : ctx.targetIsAlloc id) :
    PartsTight (updateAllocationSizes compressed (ctx.toLayout layout segments merged groups)) id ↔
      (ctx.targetHasData id → Blocks.Divides 0 (ctx.partBlocks id)) := by
  obtain ⟨-, p, stop, hsec⟩ := h.placed id hid
  have hnone := lookup_none_of_alloc hset halloc
  have hrecords := updateAllocationSizes_parts (ctx.toLayout layout segments merged groups) hnone
  obtain ⟨hoff, hsize, -⟩ := updateAllocationSizes_sections compressed
    (ctx.toLayout layout segments merged groups) id
  have hnew := @newSize_updateAllocationSizes ctx layout segments merged groups compressed h hset id
  have hsizeAfter : sizeAfter compressed layout id = takenBytes layout.records id := by
    rw [sizeAfter, hnone]
    rfl
  have hpacked := packed_iff_partBytes (wellKeyed_of_filePlaced h id).1 (layout.sectionLayouts id).fileOffset
  rw [← hsec.packed_iff, hpacked]
  constructor
  · rintro ⟨-, hparts⟩ q hq
    have := hparts q (hrecords ▸ hq)
    rwa [hrecords, hoff] at this
  · intro hparts
    refine ⟨?_, fun q hq => ?_⟩
    · rw [hnew, hsizeAfter, hsize]
      exact hsec.sum_eq (hpacked.mpr hparts)
    · rw [hrecords] at hq ⊢
      rw [hoff]
      exact hparts q hq

/-- What the walk leaves of a section that it does not reach. -/
theorem walked_untouched {s' : OffsetState} (h : FilePlaced ctx (orderedIds ctx.outputOrder) layout)
    (hset : CompressedSections ctx layout compressed)
    (hw : Walked (updateAllocationSizes compressed (ctx.toLayout layout segments merged groups))
      ctx.outputOrder ⟨0, segments, updateAllocationSizes compressed (ctx.toLayout layout segments merged groups)⟩
      s') (hid : id ∉ orderedIds ctx.outputOrder) :
    s'.layout.sectionLayouts id = {} ∧ s'.layout.sectionPartLayouts id = [] := by
  obtain ⟨hrecords, hlayout⟩ := h.untouched id hid
  have hnone : compressed.lookup id = none := by
    cases hlookup : compressed.lookup id with
    | none => rfl
    | some size =>
      have := (not_alloc_of_compressed hset hlookup).2.2
      rw [hlayout] at this
      exact absurd this (Nat.lt_irrefl 0)
  obtain ⟨hsec, hparts⟩ := hw.skipped id hid
  rw [hsec, hparts, updateAllocationSizes_parts _ hnone]
  unfold updateAllocationSizes
  simp only [hnone]
  exact ⟨hlayout, hrecords⟩

/-- **Compression and the program.** For every layout and every set of compressed debug sections, the new
offsets are found and leave the program where it was exactly when the program lies tight in the file and in
front of the other sections. -/
theorem compression_keeps_program_iff (h : ctx.computeLayoutSections = .ok layout)
    (hset : CompressedSections ctx layout compressed) :
    (∃ l', compressLayout compressed (ctx.toLayout layout segments merged groups) = some l' ∧
        ProgramKept ctx (ctx.toLayout layout segments merged groups) l') ↔
      CompressionFits ctx layout segments compressed := by
  have hfp := computeLayoutSections_filePlaced h
  set l₀ := ctx.toLayout layout segments merged groups with hl₀
  set l := updateAllocationSizes compressed l₀ with hl
  set s : OffsetState := ⟨0, segments, l⟩ with hs
  have hsections := fun id => updateAllocationSizes_sections compressed l₀ id
  have hparts : ∀ id, ctx.targetIsAlloc id → l.sectionPartLayouts id = l₀.sectionPartLayouts id :=
    fun id halloc => updateAllocationSizes_parts l₀ (lookup_none_of_alloc hset halloc)
  have hsize : l.newSize = sizeAfter compressed layout := funext (newSize_updateAllocationSizes hfp hset)
  have hkeys : ∀ id, ctx.targetIsAlloc id → WellKeyed l id := fun id halloc => by
    unfold WellKeyed
    rw [hparts id halloc]
    exact wellKeyed_of_filePlaced hfp id
  have hkept : ∀ l' id, ctx.targetIsAlloc id → (SectionKept l l' id ↔ SectionKept l₀ l' id) := by
    intro l' id halloc
    obtain ⟨hoff, hsz, -⟩ := hsections id
    constructor
    · rintro ⟨h₁, h₂, h₃⟩
      exact ⟨h₁.trans hoff, h₂.trans hsz, hparts id halloc ▸ h₃⟩
    · rintro ⟨h₁, h₂, h₃⟩
      exact ⟨h₁.trans hoff.symm, h₂.trans hsz.symm, (hparts id halloc).symm ▸ h₃⟩
  -- The second walk reads no more of the sections than the first phase leaves unchanged.
  have htight : Tight ctx.targetIsAlloc l.sectionLayouts l.newSize 0 segments ctx.outputOrder ↔
      Tight ctx.targetIsAlloc layout.sectionLayouts (sizeAfter compressed layout) 0 segments
        ctx.outputOrder := by
    rw [hsize]
    exact tight_congr fun id => hsections id
  have hwalk := @kept_iff_tight l s ctx.outputOrder ctx.targetIsAlloc hkeys (Layout.SameSizes.refl l)
  constructor
  · rintro ⟨l', hl', hk⟩
    obtain ⟨s', hs', rfl⟩ := Option.map_eq_some_iff.mp hl'
    have hs' : offsetEvents ctx.outputOrder s = some s' := hs'
    have hw := offsetEvents_walked hs' (Layout.SameSizes.refl l)
    obtain ⟨ht, hp⟩ := hwalk.mp ⟨s', hs', fun id _ halloc => (hkept _ id halloc).mpr (hk.kept id halloc)⟩
    refine ⟨htight.mp ht, fun id hid halloc => (partsTight_iff hfp hset hid halloc).mp (hp id hid halloc), ?_⟩
    refine programFirst_iff.mpr fun evs₁ evs₂ i heq => ?_
    by_contra hnot
    push Not at hnot
    obtain ⟨hi, hlast, hne, j, hj, halloc⟩ := hnot
    have hmem : ∀ k ∈ i :: orderedIds evs₂, k ∈ orderedIds ctx.outputOrder := fun k hk => by
      rw [heq, orderedIds_append]
      exact List.mem_append_right _ hk
    have hij : j ≠ i := fun h => hi (h ▸ halloc)
    -- The allocated section would lie behind the other one, which has bytes.
    have horder := walked_order (heq ▸ hs') (Layout.SameSizes.refl l) hlast hij
      (heq ▸ hmem j (List.mem_cons_of_mem _ hj))
    rw [if_pos hj] at horder
    obtain ⟨p, hmoved, -, -⟩ := hw.moved i (hmem i (List.mem_cons_self ..))
    have hbytes : 0 < (s'.layout.sectionLayouts i).fileSize := by
      rw [hmoved.fileSize, hsize]
      exact Nat.pos_of_ne_zero hne
    have hbehind := hk.behind i j hi halloc hbytes
    unfold OutputRecordLayout.fileEnd at horder hbehind
    omega
  · rintro ⟨ht, hd, hfirst⟩
    obtain ⟨s', hs', hk⟩ := hwalk.mpr ⟨htight.mpr ht, fun id hid halloc =>
      (partsTight_iff hfp hset hid halloc).mpr (hd id hid halloc)⟩
    have hw := offsetEvents_walked hs' (Layout.SameSizes.refl l)
    have hout : ∀ id, id ∉ orderedIds ctx.outputOrder →
        s'.layout.sectionLayouts id = {} ∧ s'.layout.sectionPartLayouts id = [] :=
      fun id hid => walked_untouched hfp hset hw hid
    refine ⟨s'.layout, ?_, ?_, ?_, ?_, ?_⟩
    · show (offsetEvents ctx.outputOrder s).map (·.layout) = _
      rw [hs']
      rfl
    · intro id halloc
      by_cases hid : id ∈ orderedIds ctx.outputOrder
      · exact (hkept _ id halloc).mp (hk id hid halloc)
      · obtain ⟨hrecords, hlayout⟩ := hfp.untouched id hid
        obtain ⟨hsec, hparts'⟩ := hout id hid
        refine ⟨?_, ?_, ?_⟩
        · rw [hsec, hl₀]; exact congrArg _ hlayout.symm
        · rw [hsec, hl₀]; exact congrArg _ hlayout.symm
        · intro q hq
          have hq : q ∈ layout.records id := hq
          rw [hrecords] at hq
          exact absurd hq List.not_mem_nil
    · intro i j hi hj hij
      by_cases himem : i ∈ orderedIds ctx.outputOrder
      · by_cases hjmem : j ∈ orderedIds ctx.outputOrder
        · obtain ⟨evs₁, evs₂, heq, hil⟩ := exists_last_mention himem
          have horder := walked_order (heq ▸ hs') (Layout.SameSizes.refl l) hil (Ne.symm hij) (heq ▸ hjmem)
          split at horder
          · exact .inl horder
          · exact .inr horder
        · rw [(hout j hjmem).1]
          exact .inr (Nat.zero_le _)
      · rw [(hout i himem).1]
        exact .inl (Nat.zero_le _)
    · intro i j hi hj hbytes
      by_cases hjmem : j ∈ orderedIds ctx.outputOrder
      · have himem : i ∈ orderedIds ctx.outputOrder := by
          by_contra hnot
          rw [(hout i hnot).1] at hbytes
          exact absurd hbytes (Nat.lt_irrefl 0)
        obtain ⟨evs₁, evs₂, heq, hil⟩ := exists_last_mention himem
        obtain ⟨p, hmoved, -, -⟩ := hw.moved i himem
        have hne : sizeAfter compressed layout i ≠ 0 := by
          rw [hmoved.fileSize, hsize] at hbytes
          omega
        have hij : j ≠ i := fun h => hi (h ▸ hj)
        have horder := walked_order (heq ▸ hs') (Layout.SameSizes.refl l) hil hij (heq ▸ hjmem)
        have hnone : ∀ j ∈ orderedIds evs₂, ¬ctx.targetIsAlloc j :=
          (((programFirst_iff.mp hfirst evs₁ evs₂ i heq).resolve_left hi).resolve_left hil).resolve_left hne
        rwa [if_neg (fun hmem => hnone j hmem hj)] at horder
      · rw [(hout j hjmem).1]
        exact Nat.zero_le _
    · intro id
      by_cases hid : id ∈ orderedIds ctx.outputOrder
      · obtain ⟨p, hmoved, -, -⟩ := hw.moved id hid
        rw [hmoved.sum, hmoved.fileSize]
      · obtain ⟨hsec, hparts'⟩ := hout id hid
        rw [hsec, hparts']
        rfl

end

/-- The first custom section. -/
def debugInfo : OutputSectionId := 49

/-- A debug section of 100 bytes behind a program with `n` bytes of `.tdata` and a `.tbss` of alignment 64. -/
def tlsLink (n : Nat) : LayoutContext where
  outputSections :=
    let o := OutputSections.withBaseAddress (.staticExecutable .nonRelocatable)
    { o with sectionInfos := o.sectionInfos ++ [primarySection ".debug_info" 1 0] }
  minAlignment := fun _ => 0
  baseAddress := .number 0x400000
  isLoadSegment := fun _ => true
  loadableSegmentAlignment := 12
  outputOrder := [.segmentStart 0, .outputSection fileHeader, .outputSection 42, .outputSection 43,
    .outputSection dataSection, .segmentEnd 0, .outputSection debugInfo]
  groupSizes :=
    [{ parts := fun id part =>
        if id = fileHeader then 64
        else if id = 42 ∧ part = partWithAlignment 0 then n
        else if id = 43 ∧ part = partWithAlignment 6 then 64
        else if id = dataSection ∧ part = partWithAlignment 2 then 4
        else 0
       sparse := fun id part => if id = debugInfo ∧ part = partWithAlignment 0 then some 100 else none }]
  evaluate := fun e _ _ _ _ =>
    match e with
    | .number v => .ok v
    | _ => .error "not a number"

/-- The load segment starts with the file. -/
def loadSegment : SegmentLayout := { id := 0, sizes := {} }

theorem tlsLink_fits : ∃ layout, (tlsLink 64).computeLayoutSections = .ok layout ∧
    CompressedSections (tlsLink 64) layout [(debugInfo, 60)] ∧
    CompressionFits (tlsLink 64) layout [loadSegment] [(debugInfo, 60)] :=
  ⟨_, rfl, ⟨by decide, by decide +kernel, by decide⟩, ⟨by decide +kernel, by decide +kernel, by decide +kernel⟩⟩

/-- With 64 bytes of `.tdata` everything stays. -/
theorem compression_keeps_program_tls : ∃ layout, (tlsLink 64).computeLayoutSections = .ok layout ∧
    ∃ l', compressLayout [(debugInfo, 60)]
        ((tlsLink 64).toLayout layout [loadSegment] layout.sectionLayouts []) = some l' ∧
      ProgramKept (tlsLink 64) ((tlsLink 64).toLayout layout [loadSegment] layout.sectionLayouts []) l' := by
  obtain ⟨layout, h, hset, hfit⟩ := tlsLink_fits
  exact ⟨layout, h, (compression_keeps_program_iff h hset).mpr hfit⟩

theorem tlsLink_moves : ∃ layout, (tlsLink 5).computeLayoutSections = .ok layout ∧
    CompressedSections (tlsLink 5) layout [(debugInfo, 60)] ∧
    (layout.sectionLayouts dataSection).fileOffset = 72 ∧
    (compressLayout [(debugInfo, 60)] ((tlsLink 5).toLayout layout [loadSegment] layout.sectionLayouts [])).map
      (fun l' => (l'.sectionLayouts dataSection).fileOffset) = some 128 :=
  ⟨_, rfl, ⟨by decide, by decide +kernel, by decide⟩, by decide +kernel, by decide +kernel⟩

/-- With five bytes `.data` was at 72, and compressing `.debug_info` puts it at 128. -/
theorem compression_moves_program_tls : ∃ layout, (tlsLink 5).computeLayoutSections = .ok layout ∧
    CompressedSections (tlsLink 5) layout [(debugInfo, 60)] ∧
    ¬ ∃ l', compressLayout [(debugInfo, 60)]
        ((tlsLink 5).toLayout layout [loadSegment] layout.sectionLayouts []) = some l' ∧
      ProgramKept (tlsLink 5) ((tlsLink 5).toLayout layout [loadSegment] layout.sectionLayouts []) l' := by
  obtain ⟨layout, h, hset, hbefore, hafter⟩ := tlsLink_moves
  refine ⟨layout, h, hset, fun ⟨l', hl', hkept⟩ => ?_⟩
  have halloc : (tlsLink 5).targetIsAlloc dataSection = true := by decide
  have hoff : (l'.sectionLayouts dataSection).fileOffset = 72 :=
    ((hkept.kept dataSection halloc).fileOffset).trans hbefore
  rw [hl', Option.map_some, hoff] at hafter
  exact absurd hafter (by decide)

end Reld
