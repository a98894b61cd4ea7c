import Reld.Lib.Traverse
import Reld.Layout.Buffers

/-!
# `Layout.FilePlaces` — where a layout puts sections in the file

The walk over the output order never moves the file offset back, and it writes only to the records of the
section that it is at. So the file ranges of different sections never overlap, and the parts of a section
follow each other from the first record on. Every event is read once here: all but sections only move offsets
(`layoutEvent_moves`), and a section appends `PartsPlaced` records (`placeSection_spec`).
-/

namespace Reld

namespace LayoutState

/-- Offsets moved forward, the records are as they were. -/
structure Moves (s s' : LayoutState) : Prop where
  offset : s.fileOffset ≤ s'.fileOffset
  records : s'.records = s.records
  layouts : s'.sectionLayouts = s.sectionLayouts

namespace Moves

variable {s s' s'' : LayoutState}

theorem refl (s : LayoutState) : Moves s s := ⟨Nat.le_refl _, rfl, rfl⟩

theorem trans (h : Moves s s') (h' : Moves s' s'') : Moves s s'' :=
  ⟨Nat.le_trans h.offset h'.offset, h'.records.trans h.records, h'.layouts.trans h.layouts⟩

end Moves

end LayoutState

/-- The same but for the load address. -/
structure OutputRecordLayout.SamePlace (r r' : OutputRecordLayout) : Prop where
  fileSize : r.fileSize = r'.fileSize
  memSize : r.memSize = r'.memSize
  alignment : r.alignment = r'.alignment
  fileOffset : r.fileOffset = r'.fileOffset
  memOffset : r.memOffset = r'.memOffset

theorem OutputRecordLayout.SamePlace.rfl (r : OutputRecordLayout) (lma : Nat) :
    SamePlace { r with lmaOffset := lma } r := ⟨.refl _, .refl _, .refl _, .refl _, .refl _⟩

theorem OutputRecordLayout.SamePlace.trans {r r' r'' : OutputRecordLayout} (h : r.SamePlace r') (h' : r'.SamePlace r'') :
    r.SamePlace r'' :=
  ⟨h.fileSize.trans h'.fileSize, h.memSize.trans h'.memSize, h.alignment.trans h'.alignment,
    h.fileOffset.trans h'.fileOffset, h.memOffset.trans h'.memOffset⟩

open LayoutState

namespace LayoutContext

variable {ctx : LayoutContext} {id : OutputSectionId} {s s' : LayoutState} {part : Nat × Nat}
  {records : List (Nat × OutputRecordLayout)} {parts : List (Nat × Nat)} {r : OutputRecordLayout}

/-! ## Events that place nothing -/

theorem startSegment_moves (segment : ProgramSegmentId) (s : LayoutState) :
    Moves s (ctx.startSegment segment s) := by
  unfold startSegment
  split
  · exact ⟨Alignment.le_alignModulo _ _ _, rfl, rfl⟩
  · exact ⟨Nat.le_refl _, rfl, rfl⟩

theorem visitTls_moves (ctx : LayoutContext) (id : OutputSectionId) (s : LayoutState) : Moves s (ctx.visitTls id s) := by
  unfold visitTls
  simp only
  split <;> exact ⟨Nat.le_refl _, rfl, rfl⟩

theorem enterRegion_moves (region : Option MemoryRegion) (s : LayoutState) : Moves s (enterRegion region s) := by
  cases region <;> exact ⟨Nat.le_refl _, rfl, rfl⟩

theorem applyLocation_moves {region : Option MemoryRegion} {location : Option Nat}
    (h : ctx.applyLocation id region location s = .ok s') : Moves s s' := by
  unfold applyLocation at h
  cases location with
  | none => exact Except.ok.inj h ▸ Moves.refl s
  | some offset =>
    simp only at h
    split at h
    · cases h
    · split at h
      · split at h
        · cases h
        · -- The file follows the location counter.
          rw [← Except.ok.inj h]
          exact ⟨Nat.le_add_right _ _, rfl, rfl⟩
      · rw [← Except.ok.inj h]
        exact ⟨Nat.le_refl _, rfl, rfl⟩

theorem enterSection_moves (h : ctx.enterSection id s = .ok s') : Moves s s' := by
  obtain ⟨region, -, h⟩ := Traverse.bind_eq_ok.mp h
  obtain ⟨s₁, h₁, h⟩ := Traverse.bind_eq_ok.mp h
  rw [← Except.ok.inj h]
  have hpending : Moves s { s with pendingLocation := none } := ⟨Nat.le_refl _, rfl, rfl⟩
  have htls := visitTls_moves ctx id { s with pendingLocation := none }
  have h₂ := hpending.trans (htls.trans ((enterRegion_moves region _).trans (applyLocation_moves h₁)))
  exact ⟨h₂.offset, h₂.records, h₂.layouts⟩

theorem leaveSection_moves (h : ctx.leaveSection id s = .ok s') : Moves s s' ∧ s'.fileOffset = s.fileOffset := by
  unfold leaveSection at h
  split at h
  · exact Except.ok.inj h ▸ ⟨Moves.refl s, rfl⟩
  · split at h
    · exact Except.ok.inj h ▸ ⟨Moves.refl s, rfl⟩
    · split at h
      · cases h
      · rw [← Except.ok.inj h]
        exact ⟨⟨Nat.le_refl _, rfl, rfl⟩, rfl⟩

/-- All events but sections. -/
theorem layoutEvent_moves {event : OrderEvent} (hevent : ∀ id, event ≠ .outputSection id)
    (h : ctx.layoutEvent s event = .ok s') : Moves s s' := by
  cases event with
  | outputSection id => exact absurd rfl (hevent id)
  | segmentEnd id => exact Except.ok.inj h ▸ Moves.refl s
  | segmentStart id =>
    rw [← Except.ok.inj h]
    split
    · exact startSegment_moves id s
    · exact Moves.refl s
  | setLocation expr loc idx | setLocationRelative expr id loc idx | setSectionAddress expr =>
    obtain ⟨value, -, h⟩ := Traverse.bind_eq_ok.mp h
    exact Except.ok.inj h ▸ ⟨Nat.le_refl _, rfl, rfl⟩

/-! ## Parts -/

/-- What the record of a part says when the file offset was `p`. -/
structure PartPlaced (ctx : LayoutContext) (id : OutputSectionId) (part : Nat × Nat) (p : Nat)
    (r : OutputRecordLayout) : Prop where
  alignment : r.alignment = ctx.cappedAlignment id part.1
  fileOffset : r.fileOffset = if ctx.targetHasData id then (ctx.cappedAlignment id part.1).alignUp p else p
  fileSize : r.fileSize = if ctx.targetIsAlloc id && !ctx.targetHasData id then 0 else r.memSize
  memSize : id ≠ relroPadding → r.memSize = part.2

theorem PartPlaced.le {p : Nat} (h : PartPlaced ctx id part p r) : p ≤ r.fileOffset := by
  rw [h.fileOffset]
  split
  · exact Alignment.le_alignUp _ _
  · exact Nat.le_refl _

theorem partRecord_placed (ctx : LayoutContext) (id : OutputSectionId) (part : Nat × Nat) (s : LayoutState) :
    PartPlaced ctx id part s.fileOffset (ctx.partRecord id part.1 part.2 s) := by
  have hmem : ∀ h : id ≠ relroPadding, ctx.partMemSize id part.2 s = part.2 := fun h => if_neg h
  unfold partRecord
  simp only
  split
  · rename_i halloc
    rcases hdata : ctx.targetHasData id <;> split <;> exact ⟨rfl, rfl, by simp [halloc, hdata], hmem⟩
  · rename_i halloc
    exact ⟨rfl, rfl, by simp [halloc], hmem⟩

theorem advance_eq (ctx : LayoutContext) (id : OutputSectionId) (r : OutputRecordLayout) (s : LayoutState) :
    (ctx.advance id r s).fileOffset = r.fileEnd ∧ (ctx.advance id r s).records = s.records ∧
      (ctx.advance id r s).sectionLayouts = s.sectionLayouts := by
  unfold advance
  split
  · split <;> exact ⟨rfl, rfl, rfl⟩
  · exact ⟨rfl, rfl, rfl⟩

/-- One round of the loop. `AT` changes load addresses only. -/
theorem placePart_eq {isFirstPart : Bool} (h : ctx.placePart id isFirstPart part s = .ok s') :
    ∃ r sec lma, r.SamePlace (ctx.partRecord id part.1 part.2 s) ∧
      sec.SamePlace (layoutSectionFromPartLayouts r (s.sectionLayouts id) (ctx.minAlignment id) isFirstPart) ∧
      s' = { ctx.advance id r s with
        lmaOffset := lma
        records := Function.update s.records id ((if isFirstPart then [] else s.records id) ++ [(part.1, r)])
        sectionLayouts := Function.update s.sectionLayouts id sec } := by
  unfold placePart at h
  generalize hr : ctx.partRecord id part.1 part.2 s = r at h
  obtain ⟨-, hrec, hlay⟩ := advance_eq ctx id r s
  cases hat : ctx.atLocation id with
  | none =>
    rw [hat] at h
    refine ⟨r, layoutSectionFromPartLayouts r (s.sectionLayouts id) (ctx.minAlignment id) isFirstPart,
      (ctx.advance id r s).lmaOffset, .rfl r r.lmaOffset, .rfl _ (layoutSectionFromPartLayouts r (s.sectionLayouts id)
        (ctx.minAlignment id) isFirstPart).lmaOffset, ?_⟩
    rw [← Except.ok.inj h, storeRecord, hrec, hlay]
    cases isFirstPart <;> rfl
  | some expr =>
    rw [hat] at h
    obtain ⟨lma, -, h⟩ := Traverse.bind_eq_ok.mp h
    refine ⟨{ r with lmaOffset := lma }, { layoutSectionFromPartLayouts r (s.sectionLayouts id)
      (ctx.minAlignment id) isFirstPart with lmaOffset := lma }, lma, .rfl r lma, ?_, ?_⟩
    · cases isFirstPart <;> exact ⟨.refl _, .refl _, .refl _, .refl _, .refl _⟩
    · have hlast : ((if isFirstPart then [(part.1, r)] else s.records id ++ [(part.1, r)]).modify
          ((if isFirstPart then [(part.1, r)] else s.records id ++ [(part.1, r)]).length - 1)
          fun p => (p.1, { p.2 with lmaOffset := lma })) =
          (if isFirstPart then [] else s.records id) ++ [(part.1, { r with lmaOffset := lma })] := by
        cases isFirstPart
        · simp [Arranged.modify_length_append]
        · rfl
      rw [← Except.ok.inj h]
      simp only [setLma, storeRecord, hrec, hlay, Function.update_self, Function.update_idem, hlast]
      unfold advance
      split
      · split <;> rfl
      · rfl

theorem PartPlaced.of_samePlace (hr : r.SamePlace (ctx.partRecord id part.1 part.2 s)) :
    PartPlaced ctx id part s.fileOffset r := by
  have hrec := partRecord_placed ctx id part s
  refine ⟨hr.alignment.trans hrec.alignment, hr.fileOffset.trans hrec.fileOffset, ?_,
    fun hid => hr.memSize.trans (hrec.memSize hid)⟩
  rw [hr.memSize]
  exact hr.fileSize.trans hrec.fileSize

/-- One round of the loop appends a record. -/
theorem placePart_spec {isFirstPart : Bool} (h : ctx.placePart id isFirstPart part s = .ok s') :
    ∃ r sec, PartPlaced ctx id part s.fileOffset r ∧ s'.fileOffset = r.fileEnd ∧
      s'.records = Function.update s.records id
        ((if isFirstPart then [] else s.records id) ++ [(part.1, r)]) ∧
      s'.sectionLayouts = Function.update s.sectionLayouts id sec ∧
      sec.SamePlace (layoutSectionFromPartLayouts r (s.sectionLayouts id) (ctx.minAlignment id) isFirstPart) := by
  obtain ⟨r, sec, lma, hr, hsec, rfl⟩ := placePart_eq h
  exact ⟨r, sec, .of_samePlace hr, (advance_eq ctx id r s).1, rfl, rfl, hsec⟩

/-- Records that follow each other in the file from `p` on, up to `stop`. -/
inductive PartsPlaced (ctx : LayoutContext) (id : OutputSectionId) :
    Nat → List (Nat × Nat) → List (Nat × OutputRecordLayout) → Nat → Prop
  | nil (p : Nat) : PartsPlaced ctx id p [] [] p
  | cons {p stop : Nat} {part : Nat × Nat} {parts : List (Nat × Nat)} {r : OutputRecordLayout}
      {records : List (Nat × OutputRecordLayout)} (head : PartPlaced ctx id part p r)
      (tail : PartsPlaced ctx id r.fileEnd parts records stop) :
      PartsPlaced ctx id p (part :: parts) ((part.1, r) :: records) stop

theorem PartsPlaced.le {p stop : Nat} (h : PartsPlaced ctx id p parts records stop) : p ≤ stop := by
  induction h with
  | nil p => exact Nat.le_refl _
  | cons head tail ih => exact Nat.le_trans head.le (Nat.le_trans (Nat.le_add_right _ _) ih)

/-- The alignment of a section grows by those of its parts that are not empty. -/
def growAlignment (a : Alignment) (q : Nat × OutputRecordLayout) : Alignment :=
  if 0 < q.2.memSize then max a q.2.alignment else a

/-- The loop behind the first part: the section keeps its start and reaches the current offset. -/
theorem placeParts_rest (h : ctx.placeParts id false parts s = .ok s')
    (hstart : (s.sectionLayouts id).fileOffset ≤ s.fileOffset) (hstop : (s.sectionLayouts id).fileEnd = s.fileOffset) :
    ∃ rs sec, PartsPlaced ctx id s.fileOffset parts rs s'.fileOffset ∧
      s'.records = Function.update s.records id (s.records id ++ rs) ∧
      s'.sectionLayouts = Function.update s.sectionLayouts id sec ∧
      sec.fileOffset = (s.sectionLayouts id).fileOffset ∧ sec.fileEnd = s'.fileOffset ∧
      sec.alignment = rs.foldl growAlignment (s.sectionLayouts id).alignment := by
  induction parts generalizing s with
  | nil =>
    rw [← Except.ok.inj h]
    exact ⟨[], s.sectionLayouts id, .nil _, by simp, by simp, rfl, hstop, rfl⟩
  | cons part parts ih =>
    obtain ⟨s₁, h₁, h⟩ := Traverse.bind_eq_ok.mp h
    obtain ⟨r, sec, hr, hoff, hrec, hlay, hsec⟩ := placePart_spec h₁
    have hle := hr.le
    -- The part starts behind the section's end so far, so the section only grows at its end.
    have hsecOff : sec.fileOffset = (s.sectionLayouts id).fileOffset :=
      hsec.fileOffset.trans (Nat.min_eq_left (Nat.le_trans hstart hle))
    have hsecEnd : sec.fileEnd = r.fileEnd := by
      have hsize := hsec.fileSize
      simp only [layoutSectionFromPartLayouts, Bool.false_eq_true, if_false] at hsize
      unfold OutputRecordLayout.fileEnd at hstop hsize ⊢
      omega
    have hsecAlign : sec.alignment = growAlignment (s.sectionLayouts id).alignment (part.1, r) := hsec.alignment
    have hcur : s₁.sectionLayouts id = sec := by rw [hlay, Function.update_self]
    obtain ⟨rs, sec', hrs, hrec', hlay', hoff', hend', halign'⟩ := ih h
      (by rw [hcur, hsecOff, hoff]; unfold OutputRecordLayout.fileEnd; omega)
      (by rw [hcur, hsecEnd, hoff])
    refine ⟨(part.1, r) :: rs, sec', .cons hr (hoff ▸ hrs), ?_, ?_, ?_, hend', ?_⟩
    · rw [hrec', hrec, Function.update_self, Function.update_idem]
      simp
    · rw [hlay', hlay, Function.update_idem]
    · rw [hoff', hcur, hsecOff]
    · rw [halign', hcur, hsecAlign, List.foldl_cons]

/-- The records of a section and its layout, when the file offset behind it is `stop`. -/
structure SectionPlaced (ctx : LayoutContext) (id : OutputSectionId) (p stop : Nat)
    (records : List (Nat × OutputRecordLayout)) (sec : OutputRecordLayout) : Prop where
  parts : PartsPlaced ctx id p (ctx.visitedParts id) records stop
  start : records.head?.map (·.2.fileOffset) = some sec.fileOffset
  stop : sec.fileEnd = stop
  alignment : sec.alignment = records.foldl growAlignment (ctx.minAlignment id)

theorem visitedParts_ne_nil (ctx : LayoutContext) (id : OutputSectionId) : ctx.visitedParts id ≠ [] := by
  unfold visitedParts
  split
  · exact List.cons_ne_nil _ _
  · assumption

/-- The three steps of a section event. -/
theorem placeSection_steps (h : ctx.placeSection id s = .ok s') :
    id < ctx.outputSections.sectionInfos.length ∧ ∃ s₁ s₂, ctx.enterSection id s = .ok s₁ ∧
      ctx.placeParts id true (ctx.visitedParts id) s₁ = .ok s₂ ∧ ctx.leaveSection id s₂ = .ok s' := by
  unfold placeSection at h
  split at h
  case isTrue => cases h
  case isFalse hid =>
    obtain ⟨s₁, h₁, h⟩ := Traverse.bind_eq_ok.mp h
    obtain ⟨s₂, h₂, h₃⟩ := Traverse.bind_eq_ok.mp h
    exact ⟨Nat.lt_of_not_le hid, s₁, s₂, h₁, h₂, h₃⟩

/-- **A section event** lays the section out from the current file offset on and moves there. -/
theorem placeSection_spec (h : ctx.placeSection id s = .ok s') :
    id < ctx.outputSections.sectionInfos.length ∧ ∃ p records sec, s.fileOffset ≤ p ∧
      SectionPlaced ctx id p s'.fileOffset records sec ∧
      s'.records = Function.update s.records id records ∧
      s'.sectionLayouts = Function.update s.sectionLayouts id sec := by
  obtain ⟨hid, s₁, s₂, h₁, h₂, h₃⟩ := placeSection_steps h
  refine ⟨hid, ?_⟩
  have hin := enterSection_moves h₁
  obtain ⟨hout, hoffOut⟩ := leaveSection_moves h₃
  obtain ⟨part, parts, hparts⟩ := List.exists_cons_of_ne_nil (visitedParts_ne_nil ctx id)
  rw [hparts] at h₂
  obtain ⟨s₃, hfirst, hrest⟩ := Traverse.bind_eq_ok.mp h₂
  obtain ⟨r, sec, hr, hoff, hrec, hlay, hsec⟩ := placePart_spec hfirst
  -- The first part starts the layout of the section anew.
  have hsecOff : sec.fileOffset = r.fileOffset := hsec.fileOffset
  have hsecEnd : sec.fileEnd = r.fileEnd := by
    have hsize : sec.fileSize = r.fileSize := hsec.fileSize
    unfold OutputRecordLayout.fileEnd
    rw [hsecOff, hsize]
  have hsecAlign : sec.alignment = growAlignment (ctx.minAlignment id) (part.1, r) := hsec.alignment
  have hcur : s₃.sectionLayouts id = sec := by rw [hlay, Function.update_self]
  obtain ⟨rs, sec', hrs, hrec', hlay', hoff', hend', halign'⟩ := placeParts_rest hrest
    (by rw [hcur, hsecOff, hoff]; exact Nat.le_add_right _ _) (by rw [hcur, hsecEnd, hoff])
  refine ⟨s₁.fileOffset, (part.1, r) :: rs, sec', hin.offset, ⟨?_, ?_, ?_, ?_⟩, ?_, ?_⟩
  · rw [hparts, hoffOut]
    exact .cons hr (hoff ▸ hrs)
  · rw [hoff', hcur, hsecOff]
    rfl
  · rw [hend', hoffOut]
  · rw [halign', hcur, hsecAlign, List.foldl_cons]
  · rw [hout.records, hrec', hrec, hin.records, Function.update_self, Function.update_idem]
    rfl
  · rw [hout.layouts, hlay', hlay, hin.layouts, Function.update_idem]

/-- A placed section starts no earlier than the offset that it was placed behind. -/
theorem SectionPlaced.le_start {p stop : Nat} {sec : OutputRecordLayout} (h : SectionPlaced ctx id p stop records sec) :
    p ≤ sec.fileOffset := by
  obtain ⟨hparts, hstart, -, -⟩ := h
  generalize ctx.visitedParts id = parts at hparts
  cases hparts with
  | nil => simp at hstart
  | cons head tail =>
    exact Option.some.inj hstart ▸ head.le

/-! ## The walk -/

theorem layoutEvents_eq_foldlM (es : List OrderEvent) (s : LayoutState) :
    ctx.layoutEvents es s = es.foldlM ctx.layoutEvent s := by
  induction es generalizing s with
  | nil => rfl
  | cons e es ih => exact congrArg (ctx.layoutEvent s e >>= ·) (funext ih)

/-- What each event keeps holds behind all of them. -/
theorem layoutEvents_induct {I : List OrderEvent → LayoutState → Prop} (done : List OrderEvent) {es : List OrderEvent}
    (hstep : ∀ done e s s', e ∈ es → I done s → ctx.layoutEvent s e = .ok s' → I (done ++ [e]) s') (h : I done s)
    (hs : ctx.layoutEvents es s = .ok s') : I (done ++ es) s' :=
  Traverse.foldlM_ok_induct done hstep h (layoutEvents_eq_foldlM es s ▸ hs)

/-- What holds after the sections `done` were reached. -/
structure FilePlaced (ctx : LayoutContext) (done : List OutputSectionId) (s : LayoutState) : Prop where
  ends : ∀ id, (s.sectionLayouts id).fileEnd ≤ s.fileOffset
  disjoint : ∀ i j, i ≠ j → (s.sectionLayouts i).fileEnd ≤ (s.sectionLayouts j).fileOffset ∨
    (s.sectionLayouts j).fileEnd ≤ (s.sectionLayouts i).fileOffset
  placed : ∀ id ∈ done, id < ctx.outputSections.sectionInfos.length ∧
    ∃ p stop, SectionPlaced ctx id p stop (s.records id) (s.sectionLayouts id)
  untouched : ∀ id, id ∉ done → s.records id = [] ∧ s.sectionLayouts id = {}

namespace FilePlaced

variable {done : List OutputSectionId}

theorem moves (h : FilePlaced ctx done s) (hm : Moves s s') : FilePlaced ctx done s' := by
  refine ⟨?_, ?_, ?_, ?_⟩
  · intro id
    rw [hm.layouts]
    exact Nat.le_trans (h.ends id) hm.offset
  · rw [hm.layouts]
    exact h.disjoint
  · rw [hm.layouts, hm.records]
    exact h.placed
  · rw [hm.layouts, hm.records]
    exact h.untouched

/-- A section behind the others: what was placed before ends where the section starts, or earlier. -/
theorem place (h : FilePlaced ctx done s) (hs : ctx.placeSection id s = .ok s') :
    FilePlaced ctx (done ++ [id]) s' := by
  obtain ⟨hid, p, records, sec, hp, hsec, hrec, hlay⟩ := placeSection_spec hs
  have hle : s.fileOffset ≤ s'.fileOffset := Nat.le_trans hp hsec.parts.le
  have hbefore : ∀ j, (s.sectionLayouts j).fileEnd ≤ sec.fileOffset := fun j =>
    Nat.le_trans (h.ends j) (Nat.le_trans hp hsec.le_start)
  have hself : s'.sectionLayouts id = sec := by rw [hlay, Function.update_self]
  have hother : ∀ j, j ≠ id → s'.sectionLayouts j = s.sectionLayouts j := fun j hj => by
    rw [hlay, Function.update_of_ne hj]
  have hrecSelf : s'.records id = records := by rw [hrec, Function.update_self]
  have hrecOther : ∀ j, j ≠ id → s'.records j = s.records j := fun j hj => by
    rw [hrec, Function.update_of_ne hj]
  refine ⟨?_, ?_, ?_, ?_⟩
  · intro j
    by_cases hj : j = id
    · rw [hj, hself, hsec.stop]
    · rw [hother j hj]
      exact Nat.le_trans (h.ends j) hle
  · intro i j hij
    by_cases hi : i = id
    · have hj : j ≠ id := fun hj => hij (hi.trans hj.symm)
      rw [hi, hself, hother j hj]
      exact .inr (hbefore j)
    · by_cases hj : j = id
      · rw [hj, hself, hother i hi]
        exact .inl (hbefore i)
      · rw [hother i hi, hother j hj]
        exact h.disjoint i j hij
  · intro j hj
    by_cases hjid : j = id
    · rw [hjid, hself, hrecSelf]
      exact ⟨hid, p, s'.fileOffset, hsec⟩
    · rw [hother j hjid, hrecOther j hjid]
      refine h.placed j ?_
      rcases List.mem_append.mp hj with hj | hj
      · exact hj
      · exact absurd (List.mem_singleton.mp hj) hjid
  · intro j hj
    simp only [List.mem_append, List.mem_singleton, not_or] at hj
    rw [hother j hj.2, hrecOther j hj.2]
    exact h.untouched j hj.1

theorem event (h : FilePlaced ctx done s) {e : OrderEvent} (he : ctx.layoutEvent s e = .ok s') :
    FilePlaced ctx (done ++ orderedIds [e]) s' := by
  obtain ⟨id, rfl⟩ | hne := section_or_other e
  · exact h.place he
  · rw [orderedIds_cons_other hne, show orderedIds [] = [] from rfl, List.append_nil]
    exact h.moves (layoutEvent_moves hne he)

end FilePlaced

/-- **The layout in the file.** The sections of the order are laid out, their file ranges do not overlap. -/
theorem computeLayoutSections_filePlaced {layout : LayoutState} (h : ctx.computeLayoutSections = .ok layout) :
    FilePlaced ctx (orderedIds ctx.outputOrder) layout := by
  obtain ⟨s, hs, h⟩ := Traverse.bind_eq_ok.mp h
  obtain ⟨base, -, hs⟩ := Traverse.bind_eq_ok.mp hs
  have hstart : FilePlaced ctx [] s := by
    rw [← Except.ok.inj hs]
    exact ⟨fun _ => Nat.le_refl _, fun _ _ _ => .inl (Nat.le_refl _), fun _ h => absurd h (List.not_mem_nil),
      fun _ _ => ⟨rfl, rfl⟩⟩
  exact layoutEvents_induct (I := fun es s => FilePlaced ctx (orderedIds es) s) []
    (fun es e s s' _ hs he => orderedIds_append es [e] ▸ hs.event he) hstart h

end LayoutContext

end Reld
