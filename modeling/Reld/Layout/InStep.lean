import Reld.Layout.MemoryPlaces

/-!
# `Layout.InStep` — file offsets and addresses of a load segment

A load segment starts with the file offset and the address in step: they leave the same rest when they are divided by
the segment's alignment. A section with data moves both by as much, and its parts are aligned to no more than the
segment, so they stay in step. What moves only one of them is a section without data (but for `.tbss`, behind which
the address is put back), a memory region, and a section that is not allocated. `KeepsStep` leaves these out.
-/

namespace Reld

namespace LayoutContext

variable {ctx : LayoutContext} {id : OutputSectionId} {s s' : LayoutState} {a : Alignment}

/-! ## The alignment of a segment -/

/-- The alignment that a load segment starts with. -/
def segmentAlignment (ctx : LayoutContext) (segment : ProgramSegmentId) : Alignment :=
  (ctx.computeSegmentAlignments segment).getD ctx.loadableSegmentAlignment

section SegmentAlignments

variable {segment : ProgramSegmentId} {x : Alignment} {t : SegmentAlignments}

theorem segmentAlignmentStep_le (h : t.alignments segment = some x) (e : OrderEvent) :
    ∃ y, (ctx.segmentAlignmentStep t e).alignments segment = some y ∧ x ≤ y := by
  cases e with
  | segmentStart other =>
    unfold segmentAlignmentStep
    simp only
    split
    · by_cases hother : segment = other
      · refine ⟨x, ?_, Nat.le_refl x⟩
        rw [hother] at h ⊢
        simp [h]
      · exact ⟨x, (Function.update_of_ne hother _ _).trans h, Nat.le_refl x⟩
    · exact ⟨x, h, Nat.le_refl x⟩
  | outputSection id =>
    unfold segmentAlignmentStep
    simp only
    split
    · exact ⟨_, by rw [h, Option.map_some], Nat.le_max_left _ _⟩
    · exact ⟨x, h, Nat.le_refl x⟩
  | _ => exact ⟨x, h, Nat.le_refl x⟩

/-- Alignments only grow. -/
theorem segmentAlignments_le (h : t.alignments segment = some x) (es : List OrderEvent) :
    ∃ y, (es.foldl ctx.segmentAlignmentStep t).alignments segment = some y ∧ x ≤ y := by
  induction es generalizing t x with
  | nil => exact ⟨x, h, Nat.le_refl x⟩
  | cons e es ih =>
    obtain ⟨y, hy, hxy⟩ := segmentAlignmentStep_le h e
    obtain ⟨z, hz, hyz⟩ := ih hy
    exact ⟨z, hz, Nat.le_trans hxy hyz⟩

/-- A segment is open up to its end. -/
theorem mem_active (h : segment ∈ t.active) {es : List OrderEvent} (hes : .segmentEnd segment ∉ es) :
    segment ∈ (es.foldl ctx.segmentAlignmentStep t).active := by
  induction es generalizing t with
  | nil => exact h
  | cons e es ih =>
    simp only [List.mem_cons, not_or] at hes
    refine ih ?_ hes.2
    cases e with
    | segmentStart other =>
      unfold segmentAlignmentStep
      simp only
      split
      · exact List.mem_append_left _ h
      · exact h
    | segmentEnd other =>
      have hne : segment ≠ other := fun heq => hes.1 (by rw [heq])
      exact List.mem_filter.mpr ⟨h, by simpa using hne⟩
    | _ => exact h

/-- A section of an open segment. -/
theorem segmentAlignmentStep_section (hopen : segment ∈ t.active) (h : t.alignments segment = some x) :
    (ctx.segmentAlignmentStep t (.outputSection id)).alignments segment = some (max x (ctx.maxAlignment id)) := by
  show (if segment ∈ t.active then (t.alignments segment).map (max · (ctx.maxAlignment id)) else _) = _
  rw [if_pos hopen, h, Option.map_some]

end SegmentAlignments

variable {segment : ProgramSegmentId} {post pre mid : List OrderEvent}

/-- No section of a load segment needs more than the segment's alignment. -/
theorem maxAlignment_le (horder : ctx.outputOrder = pre ++ .segmentStart segment :: (mid ++ .outputSection id :: post))
    (hload : ctx.isLoadSegment segment = true) (hopen : .segmentEnd segment ∉ mid) :
    ctx.maxAlignment id ≤ ctx.segmentAlignment segment := by
  obtain ⟨t, ht⟩ : ∃ t, t = pre.foldl ctx.segmentAlignmentStep {} := ⟨_, rfl⟩
  obtain ⟨t₁, ht₁⟩ : ∃ t₁, t₁ = ctx.segmentAlignmentStep t (.segmentStart segment) := ⟨_, rfl⟩
  have hstart : segment ∈ t₁.active ∧ ∃ x, t₁.alignments segment = some x := by
    rw [ht₁]
    unfold segmentAlignmentStep
    simp only [hload, if_true]
    exact ⟨List.mem_append_right _ (List.mem_singleton_self _), _, Function.update_self ..⟩
  obtain ⟨hactive, x, hx⟩ := hstart
  obtain ⟨y, hy, -⟩ := @segmentAlignments_le ctx _ _ _ hx mid
  have hmid := @mem_active ctx _ _ hactive _ hopen
  obtain ⟨z, hz, hyz⟩ := segmentAlignments_le (@segmentAlignmentStep_section ctx id _ _ _ hmid hy) post
  unfold segmentAlignment computeSegmentAlignments
  rw [horder, List.foldl_append, List.foldl_cons, ← ht, ← ht₁, List.foldl_append, List.foldl_cons, hz,
    Option.getD_some]
  exact Nat.le_trans (Nat.le_max_right _ _) hyz

/-! ## Parts -/

/-- The parts of a section with data so far, in step. -/
structure PartsInStep (id : OutputSectionId) (a : Alignment) (s : LayoutState) : Prop where
  offsets : s.fileOffset % a.value = s.memOffset % a.value
  records : ∀ p ∈ s.records id, p.2.fileOffset % a.value = p.2.memOffset % a.value
  layout : (s.sectionLayouts id).fileOffset % a.value = (s.sectionLayouts id).memOffset % a.value

variable {r : OutputRecordLayout}

/-- A part starts in step, and leaves the offsets in step. -/
theorem PartStored.inStep {isFirstPart : Bool} {part : Nat × Nat} (h : PartStored ctx id isFirstPart part s s' r)
    (hdata : ctx.targetHasData id = true) (hgives : ctx.givesAddress id = true) (ha : ctx.maxAlignment id ≤ a)
    (hin : s.fileOffset % a.value = s.memOffset % a.value) :
    r.fileOffset % a.value = r.memOffset % a.value ∧ s'.fileOffset % a.value = s'.memOffset % a.value := by
  have hle : ctx.cappedAlignment id part.1 ≤ a := Nat.le_trans (Nat.min_le_right _ _) ha
  have hr : r.fileOffset % a.value = r.memOffset % a.value := by
    rw [h.placed.fileOffset, if_pos hdata, h.address hgives]
    exact Alignment.alignUp_mod hle hin
  have hsize : r.fileSize = r.memSize := by
    rw [h.placed.fileSize, hdata]
    simp
  refine ⟨hr, ?_⟩
  rw [h.offset, h.behind hgives, OutputRecordLayout.fileEnd, OutputRecordLayout.memEnd, hsize, Nat.add_mod, hr,
    ← Nat.add_mod]

theorem PartStored.first_inStep {part : Nat × Nat} (h : PartStored ctx id true part s s' r)
    (hdata : ctx.targetHasData id = true) (hgives : ctx.givesAddress id = true) (ha : ctx.maxAlignment id ≤ a)
    (hin : s.fileOffset % a.value = s.memOffset % a.value) : PartsInStep id a s' := by
  obtain ⟨hr, hoffsets⟩ := h.inStep hdata hgives ha hin
  refine ⟨hoffsets, fun p hp => ?_, ?_⟩
  · rw [h.records] at hp
    obtain rfl : p = (part.1, r) := by simpa using hp
    exact hr
  · have hlayout := h.layout
    rw [hlayout.fileOffset, hlayout.memOffset]
    exact hr

variable {parts : List (Nat × Nat)}

theorem placeParts_inStep {start : Nat} {tls : Option Nat} (h : ctx.placeParts id false parts s = .ok s')
    (hdata : ctx.targetHasData id = true) (hgives : ctx.givesAddress id = true) (ha : ctx.maxAlignment id ≤ a)
    (hs : SectionStored ctx id start tls s) (hin : PartsInStep id a s) : PartsInStep id a s' := by
  induction parts generalizing s with
  | nil =>
    rw [← Except.ok.inj h]
    exact hin
  | cons part parts ih =>
    obtain ⟨s₁, h₁, h⟩ := Traverse.bind_eq_ok.mp h
    obtain ⟨r, hr⟩ := placePart_stored h₁
    obtain ⟨hs₁, hfile, hmem⟩ := hr.next hs
    obtain ⟨hrecord, hoffsets⟩ := hr.inStep hdata hgives ha hin.offsets
    refine ih h hs₁ ⟨hoffsets, fun p hp => ?_, ?_⟩
    · rw [hr.records, if_neg Bool.false_ne_true] at hp
      rcases List.mem_append.mp hp with hp | hp
      · exact hin.records p hp
      · obtain rfl := List.mem_singleton.mp hp
        exact hrecord
    · rw [hfile, hmem hgives]
      exact hin.layout

theorem placeParts_visited_inStep (h : ctx.placeParts id true (ctx.visitedParts id) s = .ok s')
    (hdata : ctx.targetHasData id = true) (hgives : ctx.givesAddress id = true) (ha : ctx.maxAlignment id ≤ a)
    (hin : s.fileOffset % a.value = s.memOffset % a.value) : PartsInStep id a s' := by
  obtain ⟨part, parts, hparts⟩ := List.exists_cons_of_ne_nil (visitedParts_ne_nil ctx id)
  rw [hparts] at h
  obtain ⟨s₁, h₁, h⟩ := Traverse.bind_eq_ok.mp h
  obtain ⟨r, hr⟩ := placePart_stored h₁
  exact placeParts_inStep h hdata hgives ha hr.first (hr.first_inStep hdata hgives ha hin)

/-! ## Sections -/

/-- A section with data and addresses, outside of memory regions, whose location moves the file too. -/
def movesBoth (ctx : LayoutContext) (id : OutputSectionId) (s : LayoutState) : Prop :=
  ctx.isTbss id = false ∧ ctx.givesAddress id = true ∧ ctx.targetHasData id = true ∧ ctx.regionName id = none ∧
    (s.pendingLocation = none ∨ ctx.movesFile id = true)

/-- What keeps the file offset and the address of an open segment in step. -/
def KeepsStep (ctx : LayoutContext) (segment : ProgramSegmentId) (s : LayoutState) : OrderEvent → Prop
  | .segmentStart other => ctx.isLoadSegment other = false
  | .segmentEnd other => other ≠ segment
  | .outputSection id =>
    (ctx.isTbss id = true ∧ ctx.targetIsAlloc id = true ∧ ctx.targetHasData id = false) ∨ ctx.movesBoth id s
  | _ => True

instance (ctx : LayoutContext) (id : OutputSectionId) (s : LayoutState) : Decidable (ctx.movesBoth id s) := by
  unfold movesBoth
  infer_instance

instance decidableKeepsStep (ctx : LayoutContext) (segment : ProgramSegmentId) (s : LayoutState) :
    ∀ e, Decidable (ctx.KeepsStep segment s e)
  | .segmentStart other => inferInstanceAs (Decidable (ctx.isLoadSegment other = false))
  | .segmentEnd other => inferInstanceAs (Decidable (other ≠ segment))
  | .outputSection id => inferInstanceAs (Decidable
    ((ctx.isTbss id = true ∧ ctx.targetIsAlloc id = true ∧ ctx.targetHasData id = false) ∨ ctx.movesBoth id s))
  | .setLocation _ _ _ | .setLocationRelative _ _ _ _ | .setSectionAddress _ => inferInstanceAs (Decidable True)

theorem enterSection_inStep (h : ctx.enterSection id s = .ok s') (hboth : ctx.movesBoth id s)
    (hin : s.fileOffset % a.value = s.cursor % a.value) : s'.fileOffset % a.value = s'.memOffset % a.value := by
  obtain ⟨hid, -, -, hregion, hmoves⟩ := hboth
  obtain ⟨region, s₁, hregion', hloc, rfl⟩ := enterSection_eq h
  obtain rfl : region = none := by
    unfold regionOf at hregion'
    rw [hregion] at hregion'
    exact (Except.ok.inj hregion').symm
  have hmem := enteredState_memOffset ctx none s hid
  have hfile := enteredState_fileOffset ctx id none s
  simp only [Option.elim_none] at hmem
  obtain ⟨-, rfl⟩ | ⟨offset, hoffset, ⟨-, hle, rfl⟩ | ⟨hstill, -⟩⟩ := applyLocation_eq hloc
  · show (ctx.enteredState id none s).fileOffset % _ = (ctx.enteredState id none s).memOffset % _
    rw [hmem, hfile]
    exact hin
  · show ((ctx.enteredState id none s).fileOffset + (offset - (ctx.enteredState id none s).memOffset)) % _ = offset % _
    rw [hmem] at hle ⊢
    -- both move by the distance to the location
    rw [hfile, Nat.add_mod, hin, ← Nat.add_mod, Nat.add_sub_cancel' hle]
  · rcases hmoves with hnone | hmoves
    · rw [hnone] at hoffset
      cases hoffset
    · rw [hmoves] at hstill
      cases hstill

/-- A section with data: its parts are in step, and so is what is behind it. -/
theorem placeSection_inStep (h : ctx.placeSection id s = .ok s') (hboth : ctx.movesBoth id s)
    (ha : ctx.maxAlignment id ≤ a) (hin : s.fileOffset % a.value = s.cursor % a.value) :
    PartsInStep id a s' ∧ s'.fileOffset % a.value = s'.cursor % a.value := by
  obtain ⟨s₁, s₂, regions, h₁, h₂, rfl⟩ := placeSection_eq h
  have hparts := placeParts_visited_inStep h₂ hboth.2.2.1 hboth.2.1 ha (enterSection_inStep h₁ hboth hin)
  have htls : s₂.tlsMemsave = none := by
    have htls := (placeParts_visited h₂).tls.trans (enterSection_tls h₁)
    rw [hboth.1] at htls
    exact htls
  refine ⟨⟨hparts.offsets, hparts.records, hparts.layout⟩, ?_⟩
  show s₂.fileOffset % _ = (s₂.tlsMemsave.getD s₂.memOffset) % _
  rw [htls]
  exact hparts.offsets

/-- Parts of an allocated section without data take no room in the file. -/
theorem placeParts_still {isFirstPart : Bool} (h : ctx.placeParts id isFirstPart parts s = .ok s')
    (halloc : ctx.targetIsAlloc id = true) (hdata : ctx.targetHasData id = false) : s'.fileOffset = s.fileOffset := by
  induction parts generalizing s isFirstPart with
  | nil => rw [← Except.ok.inj h]
  | cons part parts ih =>
    obtain ⟨s₁, h₁, h⟩ := Traverse.bind_eq_ok.mp h
    obtain ⟨r, hr⟩ := placePart_stored h₁
    rw [ih h, hr.offset, OutputRecordLayout.fileEnd, hr.placed.fileOffset, hr.placed.fileSize, halloc, hdata]
    rfl

theorem enterSection_still (h : ctx.enterSection id s = .ok s') (hdata : ctx.targetHasData id = false) :
    s'.fileOffset = s.fileOffset := by
  have hmoves : ctx.movesFile id = false := by rw [movesFile, hdata, Bool.and_false]
  obtain ⟨region, s₁, -, hloc, rfl⟩ := enterSection_eq h
  rw [← enteredState_fileOffset ctx id region s]
  obtain ⟨-, rfl⟩ | ⟨offset, -, ⟨hmoves', -⟩ | ⟨-, rfl⟩⟩ := applyLocation_eq hloc
  · rfl
  · rw [hmoves] at hmoves'
    cases hmoves'
  · rfl

/-- `.tbss` moves neither the file offset nor the cursor. -/
theorem placeSection_tbss (h : ctx.placeSection id s = .ok s') (hid : ctx.isTbss id = true)
    (halloc : ctx.targetIsAlloc id = true) (hdata : ctx.targetHasData id = false) :
    s'.fileOffset = s.fileOffset ∧ s'.cursor = s.cursor := by
  obtain ⟨s₁, s₂, regions, h₁, h₂, rfl⟩ := placeSection_eq h
  refine ⟨(placeParts_still h₂ halloc hdata).trans (enterSection_still h₁ hdata), ?_⟩
  have htls : s₂.tlsMemsave = some s.cursor := by
    have htls := (placeParts_visited h₂).tls.trans (enterSection_tls h₁)
    rw [hid] at htls
    exact htls
  show s₂.tlsMemsave.getD s₂.memOffset = s.cursor
  rw [htls]
  rfl

/-! ## Segments -/

theorem startSegment_inStep (segment : ProgramSegmentId) (s : LayoutState) (htls : s.tlsMemsave = none) :
    (ctx.startSegment segment s).fileOffset % (ctx.segmentAlignment segment).value =
      (ctx.startSegment segment s).cursor % (ctx.segmentAlignment segment).value := by
  unfold startSegment LayoutState.cursor
  split
  · simp only [htls, Option.getD_none]
    exact Alignment.alignModulo_mod _ _ _
  · simp only [htls, Option.getD_none]
    exact (Alignment.alignModulo_mod _ _ _).symm

theorem layoutEvent_inStep {e : OrderEvent} (he : ctx.layoutEvent s e = .ok s') (hkeeps : ctx.KeepsStep segment s e)
    (ha : ∀ id, e = .outputSection id → ctx.maxAlignment id ≤ a) (hin : s.fileOffset % a.value = s.cursor % a.value) :
    s'.fileOffset % a.value = s'.cursor % a.value := by
  cases e with
  | outputSection id =>
    obtain ⟨htbss, halloc, hdata⟩ | hboth := hkeeps
    · obtain ⟨hfile, hcursor⟩ := placeSection_tbss he htbss halloc hdata
      rw [hfile, hcursor]
      exact hin
    · exact (placeSection_inStep he hboth (ha id rfl) hin).2
  | segmentEnd id => exact Except.ok.inj he ▸ hin
  | segmentStart other =>
    have hother : ctx.isLoadSegment other = false := hkeeps
    rw [← Except.ok.inj he, hother]
    exact hin
  | setLocation expr loc idx | setLocationRelative expr id loc idx | setSectionAddress expr =>
    obtain ⟨value, -, he⟩ := Traverse.bind_eq_ok.mp he
    exact Except.ok.inj he ▸ hin

variable {es : List OrderEvent}

/-- Events that keep the offsets in step, one after the other. -/
theorem layoutEvents_inStep (hs : ctx.layoutEvents es s = .ok s') (hkeeps : ctx.Steps (ctx.KeepsStep segment) es s)
    (ha : ∀ id, .outputSection id ∈ es → ctx.maxAlignment id ≤ a) (hin : s.fileOffset % a.value = s.cursor % a.value) :
    s'.fileOffset % a.value = s'.cursor % a.value := by
  induction es generalizing s with
  | nil => exact Except.ok.inj hs ▸ hin
  | cons e es ih =>
    obtain ⟨s₁, he, hs⟩ := Traverse.bind_eq_ok.mp hs
    have hstep := layoutEvent_inStep he hkeeps.1 (fun id hid => ha id (hid ▸ List.mem_cons_self)) hin
    exact ih hs (hkeeps.2 s₁ he) (fun id hid => ha id (List.mem_cons_of_mem e hid)) hstep

/-! ## The whole layout -/

theorem layoutEvents_append (es es' : List OrderEvent) (s : LayoutState) :
    ctx.layoutEvents (es ++ es') s = ctx.layoutEvents es s >>= ctx.layoutEvents es' := by
  rw [layoutEvents_eq_foldlM, List.foldlM_append, ← layoutEvents_eq_foldlM]
  exact congrArg _ (funext fun s => (layoutEvents_eq_foldlM es' s).symm)

/-- A section that is not mentioned any more stays where it is. -/
theorem layoutEvents_untouched (hs : ctx.layoutEvents es s = .ok s') (hid : id ∉ orderedIds es) :
    s'.records id = s.records id ∧ s'.sectionLayouts id = s.sectionLayouts id := by
  induction es generalizing s with
  | nil => exact Except.ok.inj hs ▸ ⟨rfl, rfl⟩
  | cons e es ih =>
    obtain ⟨s₁, he, hrest⟩ := Traverse.bind_eq_ok.mp hs
    obtain ⟨other, rfl⟩ | hne := section_or_other e
    · rw [orderedIds_cons_section, List.mem_cons, not_or] at hid
      obtain ⟨-, p, records, sec, -, -, hrec, hlay⟩ := placeSection_spec he
      obtain ⟨hr, hl⟩ := ih hrest hid.2
      rw [hr, hl, hrec, hlay, Function.update_of_ne hid.1, Function.update_of_ne hid.1]
      exact ⟨rfl, rfl⟩
    · rw [orderedIds_cons_other hne] at hid
      obtain ⟨hr, hl⟩ := ih hrest hid
      have hmoves := layoutEvent_moves hne he
      rw [hr, hl, hmoves.records, hmoves.layouts]
      exact ⟨rfl, rfl⟩

/-- The walk has come to the state `s` with the events `es`. -/
def Reaches (ctx : LayoutContext) (es : List OrderEvent) (s : LayoutState) : Prop :=
  ∃ s₀, ctx.start = .ok s₀ ∧ ctx.layoutEvents es s₀ = .ok s

/-- The places of the sections and their parts. -/
structure Placed (ctx : LayoutContext) (layout : LayoutState) : Prop where
  /-- Parts are aligned in memory, to no more than the largest alignment in use in their section. -/
  aligned : ∀ id, ∀ p ∈ layout.records id,
    p.2.alignment = ctx.cappedAlignment id p.1 ∧ p.2.alignment.value ∣ p.2.memOffset
  /-- File ranges come in the order of the sections. -/
  file : (orderedIds ctx.outputOrder).dedup.Pairwise fun i j =>
    (layout.sectionLayouts i).fileEnd ≤ (layout.sectionLayouts j).fileOffset
  /-- So do ranges of memory when no address lies behind. -/
  memory : (∀ s, ctx.start = .ok s → ctx.Steps ctx.Forward ctx.outputOrder s) →
    ((orderedIds ctx.outputOrder).filter ctx.inMemory).dedup.Pairwise fun i j =>
      (layout.sectionLayouts i).memEnd ≤ (layout.sectionLayouts j).memOffset
  /-- Sections with data in a load segment, and their parts, have their offsets in step. -/
  inStep : ∀ pre segment mid id post s,
    ctx.outputOrder = pre ++ .segmentStart segment :: (mid ++ .outputSection id :: post) →
    ctx.isLoadSegment segment = true → id ∉ orderedIds post → ctx.isTbss id = false →
    ctx.Reaches pre s → s.tlsMemsave = none →
    ctx.Steps (ctx.KeepsStep segment) (mid ++ [.outputSection id]) (ctx.startSegment segment s) →
    (layout.sectionLayouts id).fileOffset % (ctx.segmentAlignment segment).value =
        (layout.sectionLayouts id).memOffset % (ctx.segmentAlignment segment).value ∧
      ∀ p ∈ layout.records id,
        p.2.fileOffset % (ctx.segmentAlignment segment).value = p.2.memOffset % (ctx.segmentAlignment segment).value

variable {P : LayoutState → OrderEvent → Prop}

theorem steps_append {es' : List OrderEvent} (h : ctx.Steps P (es ++ es') s) :
    ctx.Steps P es s ∧ ∀ s', ctx.layoutEvents es s = .ok s' → ctx.Steps P es' s' := by
  induction es generalizing s with
  | nil => exact ⟨trivial, fun s' hs' => Except.ok.inj hs' ▸ h⟩
  | cons e es ih =>
    refine ⟨⟨h.1, fun s₁ he => (ih (h.2 s₁ he)).1⟩, fun s' hs' => ?_⟩
    obtain ⟨s₁, he, hs'⟩ := Traverse.bind_eq_ok.mp hs'
    exact (ih (h.2 s₁ he)).2 s' hs'

/-- In a walk that ends, every event meets a state. -/
theorem steps_of_mem (h : ctx.Steps P es s) (hs : ctx.layoutEvents es s = .ok s') {e : OrderEvent} (he : e ∈ es) :
    ∃ t, P t e := by
  induction es generalizing s with
  | nil => exact absurd he List.not_mem_nil
  | cons e' es ih =>
    obtain ⟨s₁, he', hrest⟩ := Traverse.bind_eq_ok.mp hs
    rcases List.mem_cons.mp he with rfl | he
    · exact ⟨s, h.1⟩
    · exact ih (h.2 s₁ he') hrest he

/-- A section of a load segment, between whose start and the section nothing moves one of the offsets alone. -/
theorem inStep_section {layout : LayoutState} (h : ctx.computeLayoutSections = .ok layout)
    (horder : ctx.outputOrder = pre ++ .segmentStart segment :: (mid ++ .outputSection id :: post))
    (hload : ctx.isLoadSegment segment = true) (hlast : id ∉ orderedIds post) (hid : ctx.isTbss id = false)
    (hreaches : ctx.Reaches pre s) (htls : s.tlsMemsave = none)
    (hkeeps : ctx.Steps (ctx.KeepsStep segment) (mid ++ [.outputSection id]) (ctx.startSegment segment s)) :
    ∃ s', PartsInStep id (ctx.segmentAlignment segment) s' ∧ layout.records id = s'.records id ∧
      layout.sectionLayouts id = s'.sectionLayouts id := by
  obtain ⟨s₀, hs₀, hpre⟩ := hreaches
  obtain ⟨s₀', hs₀', hwalk⟩ := Traverse.bind_eq_ok.mp h
  obtain rfl : s₀ = s₀' := Except.ok.inj (hs₀.symm.trans hs₀')
  rw [horder, layoutEvents_append, hpre] at hwalk
  have hwalk : ctx.layoutEvents (.segmentStart segment :: (mid ++ .outputSection id :: post)) s = .ok layout := hwalk
  obtain ⟨s₁, hs₁, hwalk⟩ := Traverse.bind_eq_ok.mp hwalk
  obtain rfl : ctx.startSegment segment s = s₁ := by
    have hs₁ : Except.ok (if ctx.isLoadSegment segment then ctx.startSegment segment s else s) = Except.ok s₁ := hs₁
    rw [if_pos hload] at hs₁
    exact Except.ok.inj hs₁
  rw [layoutEvents_append] at hwalk
  obtain ⟨s₂, hmid, hwalk⟩ := Traverse.bind_eq_ok.mp hwalk
  obtain ⟨s₃, hplace, hpost⟩ := Traverse.bind_eq_ok.mp hwalk
  obtain ⟨hmidSteps, hlastStep⟩ := steps_append hkeeps
  have hopen : .segmentEnd segment ∉ mid := by
    intro hmem
    obtain ⟨t, ht⟩ := steps_of_mem hmidSteps hmid hmem
    exact ht rfl
  have halignment : ∀ other, .outputSection other ∈ mid → ctx.maxAlignment other ≤ ctx.segmentAlignment segment := by
    intro other hmem
    obtain ⟨m₁, m₂, rfl⟩ := List.append_of_mem hmem
    have hsplit : ctx.outputOrder =
        pre ++ .segmentStart segment :: (m₁ ++ .outputSection other :: (m₂ ++ .outputSection id :: post)) := by
      rw [horder, List.append_assoc]
      rfl
    apply maxAlignment_le hsplit hload
    intro hmem
    exact hopen (List.mem_append_left _ hmem)
  have hin := layoutEvents_inStep hmid hmidSteps halignment (startSegment_inStep segment s htls)
  have hboth : ctx.movesBoth id s₂ := by
    obtain ⟨htbss, -⟩ | hboth := (hlastStep s₂ hmid).1
    · rw [hid] at htbss
      cases htbss
    · exact hboth
  obtain ⟨hparts, -⟩ := placeSection_inStep hplace hboth (maxAlignment_le horder hload hopen) hin
  obtain ⟨hrecords, hlayouts⟩ := layoutEvents_untouched hpost hlast
  exact ⟨s₃, hparts, hrecords, hlayouts⟩

/-- Two load segments: the headers and four bytes of `.text`, and `.tdata`, `.tbss`, `.data` and `.bss`. -/
def imageLink : LayoutContext where
  outputSections := OutputSections.withBaseAddress (.staticExecutable .nonRelocatable)
  minAlignment := fun _ => 0
  baseAddress := .number 0x400000
  isLoadSegment := fun _ => true
  loadableSegmentAlignment := 12
  outputOrder := [.segmentStart 0, .outputSection fileHeader, .outputSection textSection, .segmentEnd 0,
    .segmentStart 1, .outputSection 42, .outputSection 43, .outputSection dataSection, .outputSection bssSection,
    .segmentEnd 1]
  groupSizes :=
    [{ parts := fun id part =>
        if id = fileHeader then 64
        else if id = textSection ∧ part = partWithAlignment 4 then 4
        else if id = 42 ∧ part = partWithAlignment 3 then 5
        else if id = 43 ∧ part = partWithAlignment 6 then 64
        else if id = dataSection ∧ part = partWithAlignment 2 then 4
        else if id = bssSection ∧ part = partWithAlignment 5 then 64
        else 0 }]
  evaluate := fun e _ _ _ _ =>
    match e with
    | .number v => .ok v
    | _ => .error "not a number"

/-- The same sections as a relocatable object. -/
def objectLink : LayoutContext :=
  { imageLink with
    outputSections := OutputSections.withBaseAddress .relocatable
    outputOrder := [.outputSection fileHeader, .outputSection textSection, .outputSection dataSection] }

/-- A computation whose value is looked at. -/
theorem exists_ok {ε α : Type} {x : Except ε α} {P : α → Prop} (h : ∃ v ∈ x.toOption, P v) : ∃ v, x = .ok v ∧ P v := by
  obtain ⟨v, hv, hP⟩ := h
  cases x with
  | error e => cases hv
  | ok w => exact ⟨w, rfl, Option.some.inj hv ▸ hP⟩

/-- No address lies behind in this link. -/
theorem imageLink_forward : ∃ s, imageLink.start = .ok s ∧ imageLink.Steps imageLink.Forward imageLink.outputOrder s :=
  exists_ok (by decide +kernel)

/-- Up to `.data` nothing moves one of the offsets alone. -/
theorem imageLink_keepsStep :
    ∃ s, (imageLink.start >>= imageLink.layoutEvents
        [.segmentStart 0, .outputSection fileHeader, .outputSection textSection, .segmentEnd 0]) = .ok s ∧
      s.tlsMemsave = none ∧ imageLink.Steps (imageLink.KeepsStep 1)
        [.outputSection 42, .outputSection 43, .outputSection dataSection] (imageLink.startSegment 1 s) :=
  exists_ok (by decide +kernel)

end LayoutContext

end Reld
