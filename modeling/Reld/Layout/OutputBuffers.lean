import Reld.Layout.FilePlaces

/-!
# `Layout.OutputBuffers` — where the buffers of parts and groups lie

A part is written to the bytes that the splitting of the output hands out for it, and its address comes from
its record. The records move each part up to its alignment; the splitting takes the parts of a section one
behind the other. Sizes are rounded up when they are counted, except in packed sections, so there the two can
differ. `output_buffers_in_place_iff` says when every buffer lies where the layout says.
-/

namespace Reld

open LayoutContext

/-! ## Sections -/

/-- Allocations that follow each other are cut out of the file at their offsets. -/
theorem splitSections_spec (o : OutputSections) {total : Nat} {l : List SectionAllocation} {s : SplitState}
    (hl : l.Pairwise (fun a b => a.stop ≤ b.offset)) (hids : (l.map (·.id)).Nodup)
    (hs : ∀ a ∈ l, s.offset ≤ a.offset) (hdata : s.data = ⟨s.offset, total - s.offset⟩)
    (htotal : ∀ a ∈ l, a.stop ≤ total) :
    ∃ s', splitSections o l s = some s' ∧ (∀ a ∈ l, s'.sectionData a.id = ⟨a.offset, a.size⟩) ∧
      ∀ i ∉ l.map (·.id), s'.sectionData i = s.sectionData i := by
  induction l generalizing s with
  | nil => exact ⟨s, rfl, by simp, fun _ _ => rfl⟩
  | cons a l ih =>
    rw [List.pairwise_cons] at hl
    rw [List.map_cons, List.nodup_cons] at hids
    have hle := hs a (List.mem_cons_self ..)
    have hstop : a.offset + a.size ≤ total := htotal a (List.mem_cons_self ..)
    have hpadding : a.offset - s.offset ≤ s.data.length := by
      rw [hdata]
      show a.offset - s.offset ≤ total - s.offset
      omega
    obtain ⟨s₁, hstep, hoff, hdat, hsec⟩ : ∃ s₁, splitStep o a s = some s₁ ∧ s₁.offset = a.offset + a.size ∧
        s₁.data = ⟨a.offset + a.size, total - (a.offset + a.size)⟩ ∧
        s₁.sectionData = Function.update s.sectionData a.id ⟨a.offset, a.size⟩ := by
      have hstart : s.data.start + (a.offset - s.offset) = a.offset := by
        rw [hdata]
        show s.offset + (a.offset - s.offset) = a.offset
        omega
      have hlength : s.data.length - (a.offset - s.offset) = total - a.offset := by
        rw [hdata]
        show total - s.offset - (a.offset - s.offset) = total - a.offset
        omega
      unfold splitStep
      rw [if_neg (by omega), Slice.splitOff_eq hpadding, Option.bind_some, hstart, hlength,
        Slice.splitOff_eq (show a.size ≤ total - a.offset by omega)]
      refine ⟨_, rfl, rfl, ?_, rfl⟩
      show (⟨a.offset + a.size, total - a.offset - a.size⟩ : Slice) = _
      rw [Nat.sub_sub]
    obtain ⟨s', hrun, hmem, hout⟩ := @ih s₁ hl.2 hids.2
      (fun b hb => by rw [hoff]; exact hl.1 b hb) (by rw [hdat, hoff])
      (fun b hb => htotal b (List.mem_cons_of_mem _ hb))
    refine ⟨s', by rw [splitSections, hstep, Option.bind_some, hrun], ?_, ?_⟩
    · intro b hb
      rcases List.mem_cons.mp hb with rfl | hb
      · rw [hout _ hids.1, hsec, Function.update_self]
      · exact hmem b hb
    · intro i hi
      rw [List.map_cons, List.mem_cons, not_or] at hi
      rw [hout i hi.2, hsec, Function.update_of_ne hi.1]

variable {id : OutputSectionId}

theorem le_computeTotalFileSize (o : OutputSections) (layouts : OutputSectionId → OutputRecordLayout)
    (hid : id < o.sectionInfos.length) : (layouts id).fileEnd ≤ computeTotalFileSize o layouts := by
  have hfold : ∀ (l : List OutputSectionId) (m : Nat),
      m ≤ l.foldl (fun size id => max size (layouts id).fileEnd) m ∧
        ∀ i ∈ l, (layouts i).fileEnd ≤ l.foldl (fun size id => max size (layouts id).fileEnd) m := by
    intro l
    induction l with
    | nil => intro m; exact ⟨Nat.le_refl _, fun i hi => absurd hi List.not_mem_nil⟩
    | cons a l ih =>
      intro m
      obtain ⟨hm, hl⟩ := ih (max m (layouts a).fileEnd)
      refine ⟨Nat.le_trans (Nat.le_max_left _ _) hm, fun i hi => ?_⟩
      rcases List.mem_cons.mp hi with rfl | hi
      · exact Nat.le_trans (Nat.le_max_right _ _) hm
      · exact hl i hi
  exact (hfold _ 0).2 id (List.mem_range.mpr hid)

/-- File ranges that do not overlap are cut out of the file. -/
theorem splitOutputIntoSections_spec {o : OutputSections} {layouts : OutputSectionId → OutputRecordLayout}
    (hdisjoint : ∀ i j, i ≠ j → (layouts i).fileEnd ≤ (layouts j).fileOffset ∨
      (layouts j).fileEnd ≤ (layouts i).fileOffset) :
    ∃ sections, splitOutputIntoSections o layouts ⟨0, computeTotalFileSize o layouts⟩ = some sections ∧
      ∀ id < o.sectionInfos.length, sections.1 id = ⟨(layouts id).fileOffset, (layouts id).fileSize⟩ := by
  have hperm := List.perm_insertionSort SectionAllocation.le (sectionAllocations o layouts)
  have hsorted : ((sectionAllocations o layouts).insertionSort SectionAllocation.le).Pairwise
      SectionAllocation.le := by
    have : Std.Total SectionAllocation.le := ⟨fun a b => by unfold SectionAllocation.le; omega⟩
    have : IsTrans SectionAllocation SectionAllocation.le :=
      ⟨fun a b c hab hbc => by unfold SectionAllocation.le at *; omega⟩
    exact List.pairwise_insertionSort _ _
  generalize hl : (sectionAllocations o layouts).insertionSort SectionAllocation.le = l at hperm hsorted
  -- The allocations are those of different sections, so of two of them one ends before the other starts.
  have hmem : ∀ a ∈ l, a.id < o.sectionInfos.length ∧
      a = { id := a.id, offset := (layouts a.id).fileOffset, size := (layouts a.id).fileSize } := by
    intro a ha
    obtain ⟨id, hid, rfl⟩ := List.mem_map.mp (hperm.mem_iff.mp ha)
    exact ⟨List.mem_range.mp hid, rfl⟩
  have hids : (l.map (·.id)).Nodup := by
    have hp := hperm.map (·.id)
    rw [hp.nodup_iff, sectionAllocations, List.map_map]
    exact (List.map_id _).symm ▸ List.nodup_range
  have hpair : l.Pairwise (fun a b => a.stop ≤ b.offset) := by
    have hne : l.Pairwise (fun a b => a.id ≠ b.id) := List.pairwise_map.mp hids
    refine (hsorted.and hne).imp_of_mem fun {a b} ha hb hab => ?_
    obtain ⟨hle, hid⟩ := hab
    have hd := hdisjoint a.id b.id hid
    obtain ⟨-, ha'⟩ := hmem a ha
    obtain ⟨-, hb'⟩ := hmem b hb
    rw [ha', hb'] at hle ⊢
    unfold SectionAllocation.le SectionAllocation.stop at hle
    unfold SectionAllocation.stop
    unfold OutputRecordLayout.fileEnd at hd
    simp only at hle ⊢
    omega
  obtain ⟨s', hrun, hcut, -⟩ := splitSections_spec o (s := { data := ⟨0, computeTotalFileSize o layouts⟩ })
    hpair hids (fun a _ => Nat.zero_le _) rfl (fun a ha => by
      obtain ⟨hid, ha'⟩ := hmem a ha
      rw [ha']
      exact le_computeTotalFileSize o layouts hid)
  refine ⟨(s'.sectionData, s'.paddingSlices), by rw [splitOutputIntoSections, hl, hrun]; rfl, ?_⟩
  intro id hid
  have hin : { id, offset := (layouts id).fileOffset, size := (layouts id).fileSize } ∈ l :=
    hperm.mem_iff.mpr (List.mem_map.mpr ⟨id, List.mem_range.mpr hid, rfl⟩)
  exact hcut _ hin

/-! ## Parts -/

/-- A list of pairs with distinct keys is a table. -/
theorem lookup_of_mem {α : Type} {l : List (Nat × α)} (hkeys : (l.map (·.1)).Nodup) {k : Nat} {v : α}
    (h : (k, v) ∈ l) : l.lookup k = some v := by
  induction l with
  | nil => cases h
  | cons x l ih =>
    rw [List.map_cons, List.nodup_cons] at hkeys
    rcases List.mem_cons.mp h with rfl | h
    · exact List.lookup_cons_self
    · have hne : k ≠ x.1 := fun heq => hkeys.1 (heq ▸ List.mem_map.mpr ⟨_, h, rfl⟩)
      rw [List.lookup_cons, beq_eq_false_iff_ne.mpr hne]
      exact ih hkeys.2 h

section

variable {records : OutputSectionId → List (Nat × OutputRecordLayout)} {ids : List OutputSectionId}

/-- The bytes that one visit takes from a section. -/
def takenBytes (records : OutputSectionId → List (Nat × OutputRecordLayout)) (id : OutputSectionId) : Nat :=
  ((records id).map (·.2.fileSize)).sum

/-- The part buffers of a section whose visit starts at `p`. -/
def partSlices (records : List (Nat × OutputRecordLayout)) (p : Nat) : List (Nat × Slice) :=
  (records.map (·.1)).zip (List.zipWith Slice.mk (Blocks.packed p (records.map (·.2.fileSize)))
    (records.map (·.2.fileSize)))

theorem splitSectionByAlignment_eq {b : PartBuffers} (h : takenBytes records id ≤ (b.sections id).length) :
    splitSectionByAlignment records id b = some
      { sections := Function.update b.sections id
          ⟨(b.sections id).start + takenBytes records id, (b.sections id).length - takenBytes records id⟩
        parts := Function.update b.parts id fun part =>
          ((partSlices (records id) (b.sections id).start).lookup part).getD (b.parts id part) } := by
  unfold splitSectionByAlignment
  rw [Slice.cut_eq h]
  rfl

/-- The cuts succeed when every section has enough bytes for all its visits. A section that is visited `n`
times hands out the buffers of the last visit, which starts behind those of the others. -/
theorem splitSectionsByAlignment_spec {b : PartBuffers}
    (h : ∀ id, ids.count id * takenBytes records id ≤ (b.sections id).length) :
    ∃ b', splitSectionsByAlignment records ids b = some b' ∧ ∀ id,
      (id ∉ ids → b'.parts id = b.parts id) ∧
      (id ∈ ids → ∃ old : Nat → Slice, b'.parts id = fun part =>
        ((partSlices (records id) ((b.sections id).start + (ids.count id - 1) * takenBytes records id)).lookup
          part).getD (old part)) ∧
      (∀ part, part ∉ (records id).map (·.1) → b'.parts id part = b.parts id part) := by
  induction ids generalizing b with
  | nil => exact ⟨b, rfl, fun id => ⟨fun _ => rfl, fun h => absurd h List.not_mem_nil, fun _ _ => rfl⟩⟩
  | cons a ids ih =>
    have hcount : (a :: ids).count a = ids.count a + 1 := List.count_cons_self
    have ha : takenBytes records a ≤ (b.sections a).length := by
      have := h a
      rw [hcount, Nat.add_mul, Nat.one_mul] at this
      exact Nat.le_trans (Nat.le_add_left _ _) this
    have hstep := splitSectionByAlignment_eq ha
    set b₁ : PartBuffers :=
      { sections := Function.update b.sections a
          ⟨(b.sections a).start + takenBytes records a, (b.sections a).length - takenBytes records a⟩
        parts := Function.update b.parts a fun part =>
          ((partSlices (records a) (b.sections a).start).lookup part).getD (b.parts a part) } with hb₁
    have hrest : ∀ id, ids.count id * takenBytes records id ≤ (b₁.sections id).length := by
      intro id
      have := h id
      by_cases hid : id = a
      · subst hid
        rw [hcount, Nat.add_mul, Nat.one_mul] at this
        simp only [hb₁, Function.update_self]
        omega
      · rw [List.count_cons_of_ne (Ne.symm hid)] at this
        simpa only [hb₁, Function.update_of_ne hid] using this
    obtain ⟨b', hrun, hspec⟩ := ih hrest
    refine ⟨b', by rw [splitSectionsByAlignment, hstep, Option.bind_some, hrun], fun id => ?_⟩
    obtain ⟨hout, hin, hkeys⟩ := hspec id
    by_cases hid : id = a
    · subst hid
      refine ⟨fun h => absurd (List.mem_cons_self ..) h, fun _ => ?_, fun part hpart => ?_⟩
      · by_cases hmem : id ∈ ids
        · -- Visited again: the later visits start behind the bytes of this one.
          obtain ⟨old, heq⟩ := hin hmem
          have hpos : 0 < ids.count id := List.count_pos_iff.mpr hmem
          refine ⟨old, ?_⟩
          rw [heq]
          simp only [hb₁, Function.update_self, hcount]
          obtain ⟨n, hn⟩ : ∃ n, ids.count id = n + 1 := ⟨ids.count id - 1, by omega⟩
          rw [hn, Nat.add_sub_cancel, Nat.add_sub_cancel, Nat.add_mul, Nat.one_mul,
            Nat.add_comm (n * _), Nat.add_assoc]
        · refine ⟨b.parts id, ?_⟩
          rw [hout hmem, hcount, List.count_eq_zero_of_not_mem hmem, Nat.zero_add, Nat.sub_self, Nat.zero_mul,
            Nat.add_zero]
          simp [hb₁]
      · rw [hkeys part hpart]
        simp only [hb₁, Function.update_self]
        have hnone : (partSlices (records id) (b.sections id).start).lookup part = none := by
          refine List.lookup_eq_none_iff.mpr fun x hx => ?_
          rw [bne_iff_ne]
          rintro rfl
          exact hpart (List.of_mem_zip hx).1
        rw [hnone]
        rfl
    · have hparts : b₁.parts id = b.parts id := by simp only [hb₁, Function.update_of_ne hid]
      have hsections : b₁.sections id = b.sections id := by simp only [hb₁, Function.update_of_ne hid]
      rw [hparts] at hout hkeys
      rw [hsections] at hin
      rw [List.mem_cons, not_or, List.count_cons_of_ne (Ne.symm hid)]
      exact ⟨fun h => hout h.2, fun h => hin (h.resolve_left hid), hkeys⟩

/-- Conversely the cuts need the bytes. -/
theorem le_of_splitSectionsByAlignment {b b' : PartBuffers} (h : splitSectionsByAlignment records ids b = some b')
    (id : OutputSectionId) : ids.count id * takenBytes records id ≤ (b.sections id).length := by
  induction ids generalizing b with
  | nil => simp
  | cons a ids ih =>
    obtain ⟨b₁, hstep, h⟩ := Option.bind_eq_some_iff.mp h
    by_cases ha : takenBytes records a ≤ (b.sections a).length
    · rw [splitSectionByAlignment_eq ha] at hstep
      have := ih h
      rw [← Option.some.inj hstep] at this
      by_cases hid : id = a
      · subst hid
        simp only [Function.update_self] at this
        rw [List.count_cons_self, Nat.add_mul, Nat.one_mul]
        omega
      · rw [List.count_cons_of_ne (Ne.symm hid)]
        simpa only [Function.update_of_ne hid] using this
    · unfold splitSectionByAlignment at hstep
      rw [Slice.cut_eq_none (Nat.lt_of_not_le ha)] at hstep
      cases hstep

end

/-! ## Groups -/

/-- The groups take their bytes from each part in turn. -/
theorem splitOutputByGroup_spec {n : Nat} {fileSizes : List (PartMap Nat)}
    {buffers : OutputSectionId → Nat → Slice}
    (h : ∀ id < n, ∀ part < numParts id,
      (fileSizes.map (·.get id part)).sum ≤ (buffers id part).length) :
    ∃ gs, splitOutputByGroup n fileSizes buffers = some gs ∧ gs.length = fileSizes.length ∧
      ∀ (i : Nat) (hi : i < gs.length) (hi' : i < fileSizes.length) (id : OutputSectionId) (part : Nat),
        gs[i] id part = ⟨(buffers id part).start + ((fileSizes.take i).map (·.get id part)).sum,
          fileSizes[i].get id part⟩ := by
  induction fileSizes generalizing buffers with
  | nil => exact ⟨[], rfl, rfl, fun i hi => absurd hi (Nat.not_lt_zero i)⟩
  | cons sizes fileSizes ih =>
    have hfits : Fits n buffers sizes := fun id hid part hpart =>
      Nat.le_trans (Nat.le_add_right _ _) (h id hid part hpart)
    obtain ⟨gs, hrun, hlen, hgs⟩ := @ih (fun id part =>
        ⟨(buffers id part).start + sizes.get id part, (buffers id part).length - sizes.get id part⟩)
      (fun id hid part hpart => by
        have := h id hid part hpart
        rw [List.map_cons, List.sum_cons] at this
        show _ ≤ (buffers id part).length - sizes.get id part
        omega)
    refine ⟨(fun id part => ⟨(buffers id part).start, sizes.get id part⟩) :: gs, ?_, by simp [hlen], ?_⟩
    · rw [splitOutputByGroup, takeMut, if_pos hfits, Option.bind_some, hrun]
      rfl
    · intro i hi hi' id part
      cases i with
      | zero => simp
      | succ i =>
        simp only [List.getElem_cons_succ, List.take_succ_cons, List.map_cons, List.sum_cons]
        rw [hgs i (by simpa using hi) (by simpa using hi') id part, Nat.add_assoc]

theorem le_of_splitOutputByGroup {n : Nat} {fileSizes : List (PartMap Nat)} {buffers : OutputSectionId → Nat → Slice}
    {gs : List (OutputSectionId → Nat → Slice)} (h : splitOutputByGroup n fileSizes buffers = some gs) (hid : id < n)
    {part : Nat} (hpart : part < numParts id) : (fileSizes.map (·.get id part)).sum ≤ (buffers id part).length := by
  induction fileSizes generalizing buffers gs with
  | nil => exact Nat.zero_le _
  | cons sizes fileSizes ih =>
    obtain ⟨taken, htaken, h⟩ := Option.bind_eq_some_iff.mp h
    obtain ⟨gs', hgs', -⟩ := Option.map_eq_some_iff.mp h
    unfold takeMut at htaken
    split at htaken
    · rename_i hfits
      have := ih hgs'
      rw [← Option.some.inj htaken] at this
      have hle := hfits id hid part hpart
      rw [List.map_cons, List.sum_cons]
      simp only at this
      omega
    · cases htaken

theorem length_startOffsetsByGroup (groups : List (PartMap Nat)) (m : OutputSectionId → Nat → Nat) :
    (startOffsetsByGroup groups m).length = groups.length := by
  induction groups generalizing m with
  | nil => rfl
  | cons g groups ih => simp [startOffsetsByGroup, ih]

/-- The groups follow each other in memory too. -/
theorem startOffsetsByGroup_getElem (groups : List (PartMap Nat)) (m : OutputSectionId → Nat → Nat) (i : Nat)
    (hi : i < (startOffsetsByGroup groups m).length) (id : OutputSectionId) (part : Nat) :
    (startOffsetsByGroup groups m)[i] id part = m id part + ((groups.take i).map (·.get id part)).sum := by
  induction groups generalizing m i with
  | nil => exact absurd hi (Nat.not_lt_zero i)
  | cons g groups ih =>
    cases i with
    | zero => exact (Nat.add_zero _).symm
    | succ i =>
      rw [List.take_succ_cons, List.map_cons, List.sum_cons, ← Nat.add_assoc]
      exact ih (fun id part => m id part + g.get id part) i (Nat.lt_of_succ_lt_succ hi)

theorem get_computeFileSizes (o : OutputSections) (g : PartMap Nat) (id : OutputSectionId) (part : Nat) :
    (computeFileSizes o g).get id part = if o.hasDataInFile id then g.get id part else 0 := by
  unfold computeFileSizes PartMap.get PartMap.entry PartMap.map
  split
  · rfl
  · cases h : g.sparse id part <;> simp [h]

/-- What the groups write of a part: everything, or nothing where the section has no data. -/
theorem sum_computeFileSizes (o : OutputSections) (groups : List (PartMap Nat)) (id : OutputSectionId)
    (part : Nat) :
    ((groups.map (computeFileSizes o)).map (·.get id part)).sum =
      if o.hasDataInFile id then (groups.map (·.get id part)).sum else 0 := by
  induction groups with
  | nil => simp
  | cons g groups ih =>
    rw [List.map_cons, List.map_cons, List.sum_cons, ih, get_computeFileSizes]
    split <;> simp

end Reld

/-!
# When every buffer lies where the layout says

The records of a section come from the running file offset, aligned before each part; the buffers of its parts
come from the section's bytes, one behind the other. So the two agree when the sizes before each part are
multiples of its alignment (`SectionPlaced.packed_iff`). The sizes of input sections are rounded up to the
alignment of their part, which makes them so, but `.init` and `.fini` are packed: there a part can end
anywhere, and the next part's bytes are then written in front of its addresses.
-/

namespace Reld

variable {p stop : Nat} {sec : OutputRecordLayout}

namespace LayoutContext

variable {ctx : LayoutContext} {id : OutputSectionId} {records : List (Nat × OutputRecordLayout)}
  {parts : List (Nat × Nat)}

/-! ## The parts of a section -/

theorem pairwise_visitedParts (ctx : LayoutContext) (id : OutputSectionId) :
    (ctx.visitedParts id).Pairwise (·.1 < ·.1) := by
  unfold visitedParts
  split
  · exact List.pairwise_singleton _ _
  · exact PartMap.pairwise_inRange _ _

theorem PartsPlaced.map_fst (h : PartsPlaced ctx id p parts records stop) : records.map (·.1) = parts.map (·.1) := by
  induction h with
  | nil p => rfl
  | cons head tail ih => rw [List.map_cons, List.map_cons, ih]

/-- Without data in the file nothing is aligned. -/
theorem PartsPlaced.packed (h : PartsPlaced ctx id p parts records stop) (hdata : ctx.targetHasData id = false) :
    Blocks.packed p (records.map (·.2.fileSize)) = records.map (·.2.fileOffset) := by
  induction h with
  | nil p => rfl
  | cons head tail ih =>
    have hoff := head.fileOffset
    rw [hdata] at hoff
    rw [List.map_cons, List.map_cons, Blocks.packed, ← ih]
    simp [OutputRecordLayout.fileEnd, hoff]

/-- With data every part is moved up to its alignment. -/
theorem PartsPlaced.aligned (h : PartsPlaced ctx id p parts records stop) (hdata : ctx.targetHasData id = true) :
    Blocks.aligned p (records.map fun q => (q.2.alignment.value, q.2.fileSize)) =
      records.map (·.2.fileOffset) := by
  induction h with
  | nil p => rfl
  | cons head tail ih =>
    have hoff := head.fileOffset
    rw [hdata, if_pos rfl, ← head.alignment] at hoff
    rw [List.map_cons, List.map_cons, Blocks.aligned, ← ih]
    simp only [OutputRecordLayout.fileEnd, hoff]
    rfl

/-- The parts of a section as blocks: their alignments, capped, and their sizes. -/
def partBlocks (ctx : LayoutContext) (id : OutputSectionId) : List (Nat × Nat) :=
  (ctx.visitedParts id).map fun p => ((ctx.cappedAlignment id p.1).value, p.2)

/-- The blocks that the records show. The padding of RELRO has another size, but a single part. -/
theorem PartsPlaced.divides_iff (h : PartsPlaced ctx id p (ctx.visitedParts id) records stop)
    (hdata : ctx.targetHasData id = true) :
    Blocks.Divides 0 (records.map fun q => (q.2.alignment.value, q.2.fileSize)) ↔
      Blocks.Divides 0 (ctx.partBlocks id) := by
  by_cases hid : id = relroPadding
  · have hlen : (ctx.visitedParts id).length ≤ 1 := by
      have hparts : numParts relroPadding = 1 := rfl
      rw [hid]
      unfold visitedParts
      split
      · exact Nat.le_refl _
      · unfold PartMap.inRange
        exact Nat.le_trans (List.length_filterMap_le _ _) (by rw [List.length_range, hparts])
    unfold partBlocks
    generalize ctx.visitedParts id = parts at h hlen
    cases h with
    | nil => exact Iff.rfl
    | cons head tail =>
      obtain rfl := List.eq_nil_of_length_eq_zero (Nat.le_zero.mp (Nat.le_of_succ_le_succ hlen))
      cases tail
      simp [Blocks.Divides]
  · have hblocks : (records.map fun q => (q.2.alignment.value, q.2.fileSize)) = ctx.partBlocks id := by
      unfold partBlocks
      generalize ctx.visitedParts id = parts at h
      induction h with
      | nil p => rfl
      | cons head tail ih =>
        have hsize := head.fileSize
        rw [hdata, Bool.not_true, Bool.and_false, if_neg Bool.false_ne_true, head.memSize hid] at hsize
        rw [List.map_cons, List.map_cons, ih, head.alignment, hsize]
    rw [hblocks]

theorem PartsPlaced.map_alignment (h : PartsPlaced ctx id p parts records stop) :
    records.map (·.2.alignment) = parts.map (fun q => ctx.cappedAlignment id q.1) := by
  induction h with
  | nil p => rfl
  | cons head tail ih => rw [List.map_cons, List.map_cons, ih, head.alignment]

/-- The alignments of the parts fall along a section, also when they are capped. -/
theorem PartsPlaced.alignment_falls (h : PartsPlaced ctx id p (ctx.visitedParts id) records stop) :
    (records.map (·.2.alignment)).Pairwise (fun a b => b ≤ a) := by
  rw [h.map_alignment, List.pairwise_map]
  refine (pairwise_visitedParts ctx id).imp fun {q r} hqr => ?_
  have hle := @partAlignment_anti id ctx.minAlignment _ _ (Nat.le_of_lt hqr)
  exact Nat.le_min.mpr ⟨Nat.le_trans (Nat.min_le_left _ _) hle, Nat.min_le_right _ _⟩

/-- **Parts in place.** The parts of a section, taken one behind the other from its start, lie where their
records say exactly when the sizes before each part suit its alignment. -/
theorem SectionPlaced.packed_iff (h : SectionPlaced ctx id p stop records sec) :
    Blocks.packed sec.fileOffset (records.map (·.2.fileSize)) = records.map (·.2.fileOffset) ↔
      (ctx.targetHasData id = true → Blocks.Divides 0 (ctx.partBlocks id)) := by
  cases hdata : ctx.targetHasData id with
  | false =>
    have hpacked := h.parts.packed hdata
    have hstart : p = sec.fileOffset := by
      have := h.start
      rw [← List.head?_map, ← hpacked] at this
      cases records with
      | nil => simp [Blocks.packed] at this
      | cons q records => simpa [Blocks.packed] using this
    rw [← hstart, hpacked]
    simp
  | true =>
    have haligned := h.parts.aligned hdata
    have hfall := h.parts.alignment_falls
    rw [← h.parts.divides_iff hdata, eq_comm, ← haligned]
    cases records with
    | nil => simpa using h.start
    | cons q records =>
      rw [List.map_cons, List.pairwise_cons] at hfall
      -- The section starts where its first part was moved to.
      have hstart : nextMultipleOf p q.2.alignment.value = sec.fileOffset := by
        rw [(List.cons.inj haligned).1]
        simpa using h.start
      have hiff := @Blocks.aligned_eq_packed_iff p (q.2.alignment.value, q.2.fileSize)
        (records.map fun q => (q.2.alignment.value, q.2.fileSize)) (Alignment.value_pos _)
        (fun x hx => by
          obtain ⟨r, -, rfl⟩ := List.mem_map.mp hx
          exact Alignment.value_pos _)
        (fun x hx => by
          obtain ⟨r, hr, rfl⟩ := List.mem_map.mp hx
          exact Alignment.value_dvd (hfall.1 _ (List.mem_map.mpr ⟨r, hr, rfl⟩)))
      rw [hstart] at hiff
      simpa [Function.comp_def] using hiff

/-- The parts need no more bytes than their section has. -/
theorem PartsPlaced.sum_le (h : PartsPlaced ctx id p parts records stop) :
    p + (records.map (·.2.fileSize)).sum ≤ stop := by
  induction h with
  | nil p => exact Nat.le_refl _
  | @cons p stop part parts r records head tail ih =>
    have hle := head.le
    rw [List.map_cons, List.sum_cons]
    unfold OutputRecordLayout.fileEnd at ih
    simp only at ih ⊢
    omega

theorem SectionPlaced.sum_le (h : SectionPlaced ctx id p stop records sec) :
    (records.map (·.2.fileSize)).sum ≤ sec.fileSize := by
  obtain ⟨hparts, hstart, hstop, -⟩ := h
  generalize ctx.visitedParts id = parts at hparts
  cases hparts with
  | nil => simp at hstart
  | cons head tail =>
    have hle := tail.sum_le
    have hoff := Option.some.inj hstart
    rw [List.map_cons, List.sum_cons]
    unfold OutputRecordLayout.fileEnd at hle hstop
    simp only at hoff ⊢
    omega

/-- Parts that lie packed end where the section ends. -/
theorem PartsPlaced.stop_eq {p q stop : Nat} (h : PartsPlaced ctx id p parts records stop) (hne : records ≠ [])
    (hpacked : Blocks.packed q (records.map (·.2.fileSize)) = records.map (·.2.fileOffset)) :
    q + (records.map (·.2.fileSize)).sum = stop := by
  induction h generalizing q with
  | nil p => exact absurd rfl hne
  | @cons p stop part parts r records head tail ih =>
    obtain ⟨hfirst, hrest⟩ := List.cons.inj hpacked
    rw [List.map_cons, List.sum_cons, ← Nat.add_assoc]
    by_cases hnil : records = []
    · subst hnil
      cases tail
      simp only [List.map_nil, List.sum_nil, Nat.add_zero, OutputRecordLayout.fileEnd]
      exact congrArg (· + _) hfirst
    · exact ih hnil hrest

theorem SectionPlaced.sum_eq (h : SectionPlaced ctx id p stop records sec)
    (hpacked : Blocks.packed sec.fileOffset (records.map (·.2.fileSize)) = records.map (·.2.fileOffset)) :
    (records.map (·.2.fileSize)).sum = sec.fileSize := by
  have hne : records ≠ [] := by
    rintro rfl
    simpa using h.start
  have hend := h.parts.stop_eq hne hpacked
  have hstop := h.stop
  unfold OutputRecordLayout.fileEnd at hstop
  omega

theorem SectionPlaced.nodup_keys (h : SectionPlaced ctx id p stop records sec) : (records.map (·.1)).Nodup := by
  rw [h.parts.map_fst]
  exact List.pairwise_map.mpr ((pairwise_visitedParts ctx id).imp Nat.ne_of_lt)

end LayoutContext

/-! ## Slices and records -/

section

variable {records : List (Nat × OutputRecordLayout)}

theorem length_partSlices (start : Nat) : (partSlices records start).length = records.length := by
  simp [partSlices]

theorem partSlices_getElem (start k : Nat) (hk : k < records.length) :
    (partSlices records start).get ⟨k, by rw [length_partSlices]; exact hk⟩ =
      (records[k].1, ⟨(Blocks.packed start (records.map (·.2.fileSize))).get ⟨k, by simpa using hk⟩,
        records[k].2.fileSize⟩) := by
  simp [partSlices]

/-- The buffer that is found for the part of a record. -/
theorem lookup_partSlices (hkeys : (records.map (·.1)).Nodup) (start k : Nat) (hk : k < records.length) :
    (partSlices records start).lookup records[k].1 =
      some ⟨(Blocks.packed start (records.map (·.2.fileSize))).get ⟨k, by simpa using hk⟩,
        records[k].2.fileSize⟩ := by
  have hfst : (partSlices records start).map (·.1) = records.map (·.1) := by
    unfold partSlices
    rw [List.map_fst_zip]
    simp
  refine lookup_of_mem (hfst ▸ hkeys) ?_
  rw [← partSlices_getElem start k hk]
  exact List.getElem_mem _

/-- The buffers lie where the records say when the packed places are the recorded ones. -/
theorem partSlices_iff (hkeys : (records.map (·.1)).Nodup) (start : Nat) (old : Nat → Slice) :
    (∀ q ∈ records, ((partSlices records start).lookup q.1).getD (old q.1) =
        ⟨q.2.fileOffset, q.2.fileSize⟩) ↔
      Blocks.packed start (records.map (·.2.fileSize)) = records.map (·.2.fileOffset) := by
  constructor
  · intro h
    refine List.ext_getElem (by simp) fun k hk hk' => ?_
    rw [List.length_map] at hk'
    have := h records[k] (List.getElem_mem hk')
    rw [lookup_partSlices hkeys start k hk', Option.getD_some] at this
    rw [List.getElem_map]
    exact congrArg Slice.start this
  · intro h q hq
    obtain ⟨k, hk, rfl⟩ := List.getElem_of_mem hq
    rw [lookup_partSlices hkeys start k hk, Option.getD_some]
    simp [h]

theorem length_lookup_partSlices (hkeys : (records.map (·.1)).Nodup) (start : Nat) (old : Slice)
    {q : Nat × OutputRecordLayout} (hq : q ∈ records) :
    (((partSlices records start).lookup q.1).getD old).length = q.2.fileSize := by
  obtain ⟨k, hk, rfl⟩ := List.getElem_of_mem hq
  rw [lookup_partSlices hkeys start k hk]
  rfl

end

/-! ## The whole file -/

/-- Every buffer lies where the layout says: those of the parts at their records, and those that the groups
write as far behind as their memory addresses are. -/
structure BuffersInPlace (ctx : LayoutContext) (layout : LayoutState) (b : OutputBuffers) : Prop where
  parts : ∀ id ∈ orderedIds ctx.outputOrder, ∀ q ∈ layout.records id,
    b.parts id q.1 = ⟨q.2.fileOffset, q.2.fileSize⟩
  groups : ∀ (i : Nat) (g : PartMap Nat), ctx.groupSizes[i]? = some g → ∃ starts buffers,
    (groupStarts ctx layout)[i]? = some starts ∧ b.groups[i]? = some buffers ∧
      ∀ id ∈ orderedIds ctx.outputOrder, ctx.outputSections.hasDataInFile id → ∀ q ∈ layout.records id,
        buffers id q.1 = ⟨q.2.fileOffset + (starts id q.1 - q.2.memOffset), g.get id q.1⟩

/-- What the splitting relies on. -/
structure BuffersFit (ctx : LayoutContext) (layout : LayoutState) : Prop where
  /-- The sizes before each part are a multiple of its alignment. -/
  divides : ∀ id ∈ orderedIds ctx.outputOrder, ctx.targetHasData id → Blocks.Divides 0 (ctx.partBlocks id)
  /-- What the groups write was laid out with room in the file. -/
  covered : ∀ id < ctx.outputSections.sectionInfos.length, ctx.outputSections.hasDataInFile id →
    ∀ part < numParts id, ctx.sizes.get id part ≤ (layout.recordOf id part).fileSize
  /-- A section that the order has twice is empty. -/
  once : ∀ id, 1 < (orderedIds ctx.outputOrder).count id → ∀ q ∈ layout.records id, q.2.fileSize = 0

section

variable {ctx : LayoutContext} {layout : LayoutState} {id : OutputSectionId}

open LayoutContext

theorem recordOf_eq_default {part : Nat} (h : part ∉ (layout.records id).map (·.1)) :
    layout.recordOf id part = {} := by
  unfold LayoutState.recordOf
  rw [List.lookup_eq_none_iff.mpr fun x hx => ?_]
  · rfl
  · rw [bne_iff_ne]
    rintro rfl
    exact h (List.mem_map.mpr ⟨x, hx, rfl⟩)

theorem recordOf_eq (hkeys : ((layout.records id).map (·.1)).Nodup) {q : Nat × OutputRecordLayout}
    (hq : q ∈ layout.records id) : layout.recordOf id q.1 = q.2 := by
  unfold LayoutState.recordOf
  rw [lookup_of_mem hkeys hq]
  rfl

/-- The second cut of a layout: where the buffers of the parts lie, and how long they are. -/
theorem splitBuffersByAlignment_spec (hfp : FilePlaced ctx (orderedIds ctx.outputOrder) layout)
    {sections : OutputSectionId → Slice}
    (hsections : ∀ id < ctx.outputSections.sectionInfos.length,
      sections id = ⟨(layout.sectionLayouts id).fileOffset, (layout.sectionLayouts id).fileSize⟩)
    (hcount : ∀ id ∈ orderedIds ctx.outputOrder,
      (orderedIds ctx.outputOrder).count id * takenBytes layout.records id ≤
        (layout.sectionLayouts id).fileSize) :
    ∃ parts, splitBuffersByAlignment layout.records ctx.outputOrder sections = some parts ∧
      (∀ id ∈ orderedIds ctx.outputOrder, ∃ old : Nat → Slice, parts id = fun part =>
        ((partSlices (layout.records id) ((layout.sectionLayouts id).fileOffset +
          ((orderedIds ctx.outputOrder).count id - 1) * takenBytes layout.records id)).lookup part).getD
            (old part)) ∧
      ∀ id part, (parts id part).length = (layout.recordOf id part).fileSize := by
  obtain ⟨b', hrun, hspec⟩ := @splitSectionsByAlignment_spec layout.records (orderedIds ctx.outputOrder)
    { sections := sections } (fun id => by
      by_cases hid : id ∈ orderedIds ctx.outputOrder
      · show _ ≤ (sections id).length
        rw [hsections id (hfp.placed id hid).1]
        exact hcount id hid
      · rw [List.count_eq_zero_of_not_mem hid, Nat.zero_mul]
        exact Nat.zero_le _)
  have hin : ∀ id ∈ orderedIds ctx.outputOrder, ∃ old : Nat → Slice, b'.parts id = fun part =>
      ((partSlices (layout.records id) ((layout.sectionLayouts id).fileOffset +
        ((orderedIds ctx.outputOrder).count id - 1) * takenBytes layout.records id)).lookup part).getD
          (old part) := by
    intro id hid
    have hmem := (hspec id).2.1 hid
    simp only at hmem
    rwa [hsections id (hfp.placed id hid).1] at hmem
  refine ⟨b'.parts, by rw [splitBuffersByAlignment, hrun]; rfl, hin, fun id part => ?_⟩
  by_cases hpart : part ∈ (layout.records id).map (·.1)
  · obtain ⟨q, hq, rfl⟩ := List.mem_map.mp hpart
    have hid : id ∈ orderedIds ctx.outputOrder := by
      by_contra hid
      rw [(hfp.untouched id hid).1] at hq
      exact List.not_mem_nil hq
    obtain ⟨-, p, stop, hsec⟩ := hfp.placed id hid
    obtain ⟨old, hold⟩ := hin id hid
    rw [hold, recordOf_eq hsec.nodup_keys hq]
    exact length_lookup_partSlices hsec.nodup_keys _ _ hq
  · rw [(hspec id).2.2 part hpart, recordOf_eq_default hpart]

/-- Only a section without bytes can be visited again and still start where it did. -/
theorem packed_start_iff (hsec : SectionPlaced ctx id p stop (layout.records id) sec) (n : Nat) :
    Blocks.packed (sec.fileOffset + n * takenBytes layout.records id)
        ((layout.records id).map (·.2.fileSize)) = (layout.records id).map (·.2.fileOffset) ↔
      n * takenBytes layout.records id = 0 ∧
        (ctx.targetHasData id = true → Blocks.Divides 0 (ctx.partBlocks id)) := by
  constructor
  · intro h
    have hzero : n * takenBytes layout.records id = 0 := by
      have hstart := hsec.start
      generalize layout.records id = records at h hstart
      cases records with
      | nil => simp at hstart
      | cons q records =>
        rw [List.map_cons, List.map_cons, Blocks.packed] at h
        have hfirst := (List.cons.inj h).1
        have hoff : q.2.fileOffset = sec.fileOffset := Option.some.inj hstart
        omega
    rw [hzero, Nat.add_zero] at h
    exact ⟨hzero, hsec.packed_iff.mp h⟩
  · rintro ⟨hzero, hdvd⟩
    rw [hzero, Nat.add_zero]
    exact hsec.packed_iff.mpr hdvd

/-- **The buffers of the output.** For every layout, the output file can be split, and each part and each group
gets the bytes at the places of its record, exactly when the sizes of the parts suit their alignments. -/
theorem output_buffers_in_place_iff (h : ctx.computeLayoutSections = .ok layout) :
    (∃ b, splitOutput ctx layout = some b ∧ BuffersInPlace ctx layout b) ↔ BuffersFit ctx layout := by
  have hfp := computeLayoutSections_filePlaced h
  obtain ⟨sections, hsections, hsec⟩ := splitOutputIntoSections_spec hfp.disjoint
  have hsum := sum_computeFileSizes ctx.outputSections ctx.groupSizes
  constructor
  · rintro ⟨b, hb, hin⟩
    rw [splitOutput, hsections, Option.bind_some] at hb
    obtain ⟨parts, hparts, hb⟩ := Option.bind_eq_some_iff.mp hb
    obtain ⟨groups, hgroups, rfl⟩ := Option.map_eq_some_iff.mp hb
    obtain ⟨b', hrun, rfl⟩ := Option.map_eq_some_iff.mp hparts
    have hcount : ∀ id ∈ orderedIds ctx.outputOrder,
        (orderedIds ctx.outputOrder).count id * takenBytes layout.records id ≤
          (layout.sectionLayouts id).fileSize := fun id hid => by
      have := le_of_splitSectionsByAlignment hrun id
      simp only at this
      rwa [hsec id (hfp.placed id hid).1] at this
    obtain ⟨parts, hparts', hpos, hlen⟩ := splitBuffersByAlignment_spec hfp hsec hcount
    obtain rfl : b'.parts = parts := Option.some.inj (hparts.symm.trans hparts')
    -- In place, the packed places of a section's parts are the recorded ones.
    have hplace : ∀ id ∈ orderedIds ctx.outputOrder,
        ((orderedIds ctx.outputOrder).count id - 1) * takenBytes layout.records id = 0 ∧
          (ctx.targetHasData id = true → Blocks.Divides 0 (ctx.partBlocks id)) := by
      intro id hid
      obtain ⟨-, p, stop, hplaced⟩ := hfp.placed id hid
      obtain ⟨old, hold⟩ := hpos id hid
      refine (packed_start_iff hplaced _).mp ((partSlices_iff hplaced.nodup_keys _ old).mp fun q hq => ?_)
      have := hin.parts id hid q hq
      simpa only [hold] using this
    refine ⟨fun id hid => (hplace id hid).2, fun id hid hdata part hpart => ?_, fun id hid q hq => ?_⟩
    · have hle := le_of_splitOutputByGroup hgroups hid hpart
      rw [hsum, if_pos hdata, hlen] at hle
      rw [sizes, get_totalSizes]
      exact hle
    · have hmem : id ∈ orderedIds ctx.outputOrder := List.count_pos_iff.mp (by omega)
      have htaken : takenBytes layout.records id = 0 :=
        (Nat.mul_eq_zero.mp (hplace id hmem).1).resolve_left (by omega)
      exact List.sum_eq_zero_iff_forall_eq_nat.mp htaken _ (List.mem_map.mpr ⟨q, hq, rfl⟩)
  · intro hfit
    -- One visit fits into a section; several are only made of sections without bytes.
    have htaken : ∀ id, 1 < (orderedIds ctx.outputOrder).count id → takenBytes layout.records id = 0 :=
      fun id hid => List.sum_eq_zero_iff_forall_eq_nat.mpr fun x hx => by
        obtain ⟨q, hq, rfl⟩ := List.mem_map.mp hx
        exact hfit.once id hid q hq
    have hagain : ∀ id, ((orderedIds ctx.outputOrder).count id - 1) * takenBytes layout.records id = 0 :=
      fun id => by
        by_cases hid : 1 < (orderedIds ctx.outputOrder).count id
        · rw [htaken id hid, Nat.mul_zero]
        · rw [Nat.sub_eq_zero_of_le (Nat.le_of_not_lt hid), Nat.zero_mul]
    have hcount : ∀ id ∈ orderedIds ctx.outputOrder,
        (orderedIds ctx.outputOrder).count id * takenBytes layout.records id ≤
          (layout.sectionLayouts id).fileSize := fun id hid => by
      obtain ⟨-, p, stop, hplaced⟩ := hfp.placed id hid
      have hpos := List.count_pos_iff.mpr hid
      by_cases hone : 1 < (orderedIds ctx.outputOrder).count id
      · rw [htaken id hone, Nat.mul_zero]
        exact Nat.zero_le _
      · have hcount : (orderedIds ctx.outputOrder).count id = 1 := by omega
        rw [hcount, Nat.one_mul]
        exact hplaced.sum_le
    obtain ⟨parts, hparts, hpos, hlen⟩ := splitBuffersByAlignment_spec hfp hsec hcount
    have hpartsIn : ∀ id ∈ orderedIds ctx.outputOrder, ∀ q ∈ layout.records id,
        parts id q.1 = ⟨q.2.fileOffset, q.2.fileSize⟩ := by
      intro id hid
      obtain ⟨-, p, stop, hplaced⟩ := hfp.placed id hid
      obtain ⟨old, hold⟩ := hpos id hid
      rw [hold]
      exact (partSlices_iff hplaced.nodup_keys _ old).mpr
        ((packed_start_iff hplaced _).mpr ⟨hagain id, hfit.divides id hid⟩)
    obtain ⟨gs, hgs, hgsLen, hgsSpec⟩ := @splitOutputByGroup_spec ctx.outputSections.sectionInfos.length
      (ctx.groupSizes.map (computeFileSizes ctx.outputSections)) parts (fun id hid part hpart => by
        rw [hsum, hlen]
        split
        · rename_i hdata
          rw [← get_totalSizes]
          exact hfit.covered id hid hdata part hpart
        · exact Nat.zero_le _)
    refine ⟨⟨parts, gs⟩, ?_, hpartsIn, fun i g hg => ?_⟩
    · rw [splitOutput, hsections, Option.bind_some, hparts, Option.bind_some, hgs]
      rfl
    · obtain ⟨hi, hgi⟩ := List.getElem?_eq_some_iff.mp hg
      rw [List.length_map] at hgsLen
      have hi' : i < gs.length := hgsLen ▸ hi
      have hi'' : i < (groupStarts ctx layout).length := by
        rw [groupStarts, length_startOffsetsByGroup]
        exact hi
      refine ⟨_, _, List.getElem?_eq_getElem hi'', List.getElem?_eq_getElem hi', fun id hid hdata q hq => ?_⟩
      obtain ⟨-, p, stop, hplaced⟩ := hfp.placed id hid
      -- The groups before take as many bytes of the file as of memory.
      have hbefore := sum_computeFileSizes ctx.outputSections (ctx.groupSizes.take i) id q.1
      rw [if_pos hdata] at hbefore
      have hstart : (groupStarts ctx layout)[i] id q.1 = _ := startOffsetsByGroup_getElem _ _ i _ id q.1
      rw [hgsSpec i hi' (by simpa using hi) id q.1, hpartsIn id hid q hq, hstart,
        recordOf_eq hplaced.nodup_keys hq, Nat.add_sub_cancel_left, ← List.map_take, hbefore, List.getElem_map,
        hgi, get_computeFileSizes, if_pos hdata]

end

/-- A link of two inputs with `.init` sections: `n` bytes with alignment 16 and four bytes with alignment 4. -/
def initLink (n : Nat) : LayoutContext where
  outputSections := OutputSections.withBaseAddress (.staticExecutable .nonRelocatable)
  minAlignment := fun _ => 0
  baseAddress := .number 0x400000
  isLoadSegment := fun _ => true
  loadableSegmentAlignment := 12
  outputOrder := [.segmentStart 0, .outputSection fileHeader, .outputSection initSection, .segmentEnd 0]
  groupSizes :=
    [{ parts := fun id part =>
        if id = fileHeader then 64
        else if id = initSection ∧ part = partWithAlignment 4 then capacity (fun _ => 0) id part n
        else if id = initSection ∧ part = partWithAlignment 2 then capacity (fun _ => 0) id part 4
        else 0 }]
  evaluate := fun e _ _ _ _ =>
    match e with
    | .number v => .ok v
    | _ => .error "not a number"

/-- With eight bytes every size suits the alignments. -/
theorem initLink_fits : ∃ layout, (initLink 8).computeLayoutSections = .ok layout ∧
    BuffersFit (initLink 8) layout := by
  refine ⟨_, rfl, ⟨by decide +kernel, by decide +kernel, fun id hid => ?_⟩⟩
  have hone : (orderedIds (initLink 8).outputOrder).count id ≤ 1 :=
    List.nodup_iff_count_le_one.mp (by decide) id
  exact absurd hid (Nat.not_lt.mpr hone)

theorem output_buffers_in_place_init : ∃ layout, (initLink 8).computeLayoutSections = .ok layout ∧
    ∃ b, splitOutput (initLink 8) layout = some b ∧ BuffersInPlace (initLink 8) layout b := by
  obtain ⟨layout, h, hfit⟩ := initLink_fits
  exact ⟨layout, h, (output_buffers_in_place_iff h).mpr hfit⟩

/-- With five bytes the record of the second input is at 72, and its buffer starts at 69. -/
theorem initLink_buffer : ∃ layout, (initLink 5).computeLayoutSections = .ok layout ∧
    (partWithAlignment 2, ⟨4, 4, 2, 72, 0x400048, 0x400048⟩) ∈ layout.records initSection ∧
    (splitOutput (initLink 5) layout).map (fun b => b.parts initSection (partWithAlignment 2)) =
      some ⟨69, 4⟩ :=
  ⟨_, rfl, by decide +kernel, by decide +kernel⟩

theorem output_buffers_out_of_place_init : ∃ layout, (initLink 5).computeLayoutSections = .ok layout ∧
    ¬ ∃ b, splitOutput (initLink 5) layout = some b ∧ BuffersInPlace (initLink 5) layout b := by
  obtain ⟨layout, h, hrecord, hbuffer⟩ := initLink_buffer
  refine ⟨layout, h, fun ⟨b, hb, hin⟩ => ?_⟩
  rw [hb, Option.map_some, hin.parts initSection (by decide) _ hrecord] at hbuffer
  exact absurd hbuffer (by decide)

end Reld
