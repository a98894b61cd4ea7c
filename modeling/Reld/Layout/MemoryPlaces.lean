import Reld.Lib.InOrder
import Reld.Layout.FilePlaces

/-!
# `Layout.MemoryPlaces` — where a layout puts sections in memory

Of the three counters of the walk only the file offset never moves back by itself: addresses are what a script, a
memory region or the start of a segment says. As long as these say nothing that lies behind (`Forward`), sections
follow each other in memory as they do in the file.

Sections with data move the file offset and the address by the same amount, so the two stay in step from the start of
a load segment on (`InStep`).
-/

namespace Reld

namespace LayoutState

/-- The address behind the sections so far; those of `.tbss` take no room. -/
def cursor (s : LayoutState) : Nat := s.tlsMemsave.getD s.memOffset

end LayoutState

namespace LayoutContext

variable {ctx : LayoutContext} {id : OutputSectionId} {s s' : LayoutState}

/-! ## A part -/

/-- Whether a section gets addresses of the image: not when it is not allocated, nor in a relocatable output. -/
def givesAddress (ctx : LayoutContext) (id : OutputSectionId) : Bool :=
  ctx.targetIsAlloc id && !ctx.outputSections.outputKind.isPartialObject

/-- What a part does to the state. -/
structure PartStored (ctx : LayoutContext) (id : OutputSectionId) (isFirstPart : Bool) (part : Nat × Nat)
    (s s' : LayoutState) (r : OutputRecordLayout) : Prop where
  placed : PartPlaced ctx id part s.fileOffset r
  aligned : r.alignment.value ∣ r.memOffset
  offset : s'.fileOffset = r.fileEnd
  records : s'.records id = (if isFirstPart then [] else s.records id) ++ [(part.1, r)]
  layout : (s'.sectionLayouts id).SamePlace
    (layoutSectionFromPartLayouts r (s.sectionLayouts id) (ctx.minAlignment id) isFirstPart)
  tls : s'.tlsMemsave = s.tlsMemsave
  still : ctx.givesAddress id = false → s'.memOffset = s.memOffset
  address : ctx.givesAddress id = true → r.memOffset = (ctx.cappedAlignment id part.1).alignUp s.memOffset
  behind : ctx.givesAddress id = true → s'.memOffset = r.memEnd

theorem placePart_stored {isFirstPart : Bool} {part : Nat × Nat} (h : ctx.placePart id isFirstPart part s = .ok s') :
    ∃ r, PartStored ctx id isFirstPart part s s' r := by
  obtain ⟨r, sec, lma, hr, hsec, rfl⟩ := placePart_eq h
  obtain ⟨hoff, -, -⟩ := advance_eq ctx id r s
  refine ⟨r, .of_samePlace hr, ?_, hoff, Function.update_self .., ?_, ?_, ?_, ?_, ?_⟩
  · rw [hr.alignment, hr.memOffset]
    unfold partRecord
    simp only
    split
    · split <;> exact Alignment.value_dvd_alignUp _ _
    · exact Alignment.value_dvd_alignUp _ _
  · show (Function.update s.sectionLayouts id sec id).SamePlace _
    rw [Function.update_self]
    exact hsec
  · show (ctx.advance id r s).tlsMemsave = s.tlsMemsave
    unfold advance
    split
    · split <;> rfl
    · rfl
  · intro hgives
    show (ctx.advance id r s).memOffset = s.memOffset
    unfold advance
    split
    · rename_i halloc
      split
      · rfl
      · rename_i hrelocatable
        rw [givesAddress, halloc, Bool.eq_false_iff.mpr hrelocatable] at hgives
        cases hgives
    · rfl
  · intro hgives
    rw [givesAddress, Bool.and_eq_true, Bool.not_eq_true'] at hgives
    rw [hr.memOffset]
    unfold partRecord
    rw [if_pos hgives.1, if_neg (Bool.eq_false_iff.mp hgives.2)]
  · intro hgives
    rw [givesAddress, Bool.and_eq_true, Bool.not_eq_true'] at hgives
    show (ctx.advance id r s).memOffset = r.memEnd
    unfold advance
    rw [if_pos hgives.1, if_neg (Bool.eq_false_iff.mp hgives.2)]
    rfl

/-! ## The parts of a section -/

/-- A section whose parts were stored from address `start` on. -/
structure SectionStored (ctx : LayoutContext) (id : OutputSectionId) (start : Nat) (tls : Option Nat)
    (s : LayoutState) : Prop where
  offset : (s.sectionLayouts id).fileOffset ≤ s.fileOffset
  aligned : ∀ p ∈ s.records id, p.2.alignment = ctx.cappedAlignment id p.1 ∧ p.2.alignment.value ∣ p.2.memOffset
  tls : s.tlsMemsave = tls
  le : start ≤ s.memOffset
  memory : ctx.givesAddress id = true → start ≤ (s.sectionLayouts id).memOffset ∧
    (s.sectionLayouts id).memOffset ≤ s.memOffset ∧ (s.sectionLayouts id).memEnd = s.memOffset

namespace PartStored

variable {part : Nat × Nat} {r : OutputRecordLayout} {start : Nat} {tls : Option Nat}

/-- A record has the alignment of its part. -/
theorem record_aligned {isFirstPart : Bool} (h : PartStored ctx id isFirstPart part s s' r) :
    r.alignment = ctx.cappedAlignment id part.1 ∧ r.alignment.value ∣ r.memOffset := ⟨h.placed.alignment, h.aligned⟩

/-- Addresses only grow. -/
theorem memOffset_le {isFirstPart : Bool} (h : PartStored ctx id isFirstPart part s s' r) :
    s.memOffset ≤ s'.memOffset := by
  cases hgives : ctx.givesAddress id with
  | false => rw [h.still hgives]
  | true =>
    have hle := (ctx.cappedAlignment id part.1).le_alignUp s.memOffset
    rw [h.behind hgives, OutputRecordLayout.memEnd, h.address hgives]
    exact Nat.le_trans hle (Nat.le_add_right _ _)

/-- The first part. -/
theorem first (h : PartStored ctx id true part s s' r) : SectionStored ctx id s.memOffset s.tlsMemsave s' := by
  have hlayout := h.layout
  refine ⟨?_, ?_, h.tls, h.memOffset_le, fun hgives => ?_⟩
  · have hoff : (s'.sectionLayouts id).fileOffset = r.fileOffset := hlayout.fileOffset
    rw [hoff, h.offset]
    exact Nat.le_add_right _ _
  · intro p hp
    rw [h.records] at hp
    obtain rfl : p = (part.1, r) := by simpa using hp
    exact h.record_aligned
  · have hmem : (s'.sectionLayouts id).memOffset = r.memOffset := hlayout.memOffset
    have hsize : (s'.sectionLayouts id).memSize = r.memSize := hlayout.memSize
    have hend : (s'.sectionLayouts id).memEnd = s'.memOffset := by
      rw [h.behind hgives, OutputRecordLayout.memEnd, hmem, hsize]
      rfl
    refine ⟨?_, ?_, hend⟩
    · rw [hmem, h.address hgives]
      exact Alignment.le_alignUp _ _
    · rw [← hend]
      exact Nat.le_add_right _ _

/-- A further part: it starts behind the section so far, which grows at its end only. -/
theorem next (h : PartStored ctx id false part s s' r) (hs : SectionStored ctx id start tls s) :
    SectionStored ctx id start tls s' ∧ (s'.sectionLayouts id).fileOffset = (s.sectionLayouts id).fileOffset ∧
      (ctx.givesAddress id = true → (s'.sectionLayouts id).memOffset = (s.sectionLayouts id).memOffset) := by
  have hlayout := h.layout
  have hfile : (s'.sectionLayouts id).fileOffset = (s.sectionLayouts id).fileOffset := by
    refine hlayout.fileOffset.trans ?_
    exact Nat.min_eq_left (Nat.le_trans hs.offset h.placed.le)
  have hmem : ctx.givesAddress id = true → (s'.sectionLayouts id).memOffset = (s.sectionLayouts id).memOffset := by
    intro hgives
    refine hlayout.memOffset.trans ?_
    have hle : s.memOffset ≤ r.memOffset := by
      rw [h.address hgives]
      exact Alignment.le_alignUp _ _
    exact Nat.min_eq_left (Nat.le_trans (hs.memory hgives).2.1 hle)
  refine ⟨⟨?_, ?_, h.tls.trans hs.tls, Nat.le_trans hs.le h.memOffset_le, fun hgives => ?_⟩, hfile, hmem⟩
  · rw [hfile, h.offset]
    exact Nat.le_trans hs.offset (Nat.le_trans h.placed.le (Nat.le_add_right _ _))
  · intro p hp
    rw [h.records, if_neg Bool.false_ne_true] at hp
    rcases List.mem_append.mp hp with hp | hp
    · exact hs.aligned p hp
    · obtain rfl := List.mem_singleton.mp hp
      exact h.record_aligned
  · obtain ⟨hstart, hle, hend⟩ := hs.memory hgives
    have haddress : s.memOffset ≤ r.memOffset := by
      rw [h.address hgives]
      exact Alignment.le_alignUp _ _
    have hsize : (s'.sectionLayouts id).memSize = max (s.sectionLayouts id).memEnd r.memEnd -
        min (s.sectionLayouts id).memOffset r.memOffset := hlayout.memSize
    have hbehind := h.behind hgives
    have hr : r.memEnd = r.memOffset + r.memSize := rfl
    refine ⟨?_, ?_, ?_⟩
    · rw [hmem hgives]
      exact hstart
    · rw [hmem hgives]
      omega
    · rw [OutputRecordLayout.memEnd, hmem hgives, hsize]
      omega

end PartStored

/-- The loop behind the first part. -/
theorem placeParts_stored {start : Nat} {tls : Option Nat} {parts : List (Nat × Nat)}
    (h : ctx.placeParts id false parts s = .ok s') (hs : SectionStored ctx id start tls s) :
    SectionStored ctx id start tls s' := by
  induction parts generalizing s with
  | nil =>
    rw [← Except.ok.inj h]
    exact hs
  | cons part parts ih =>
    obtain ⟨s₁, h₁, h⟩ := Traverse.bind_eq_ok.mp h
    obtain ⟨r, hr⟩ := placePart_stored h₁
    exact ih h (hr.next hs).1

/-- All parts of a section. -/
theorem placeParts_visited (h : ctx.placeParts id true (ctx.visitedParts id) s = .ok s') :
    SectionStored ctx id s.memOffset s.tlsMemsave s' := by
  obtain ⟨part, parts, hparts⟩ := List.exists_cons_of_ne_nil (visitedParts_ne_nil ctx id)
  rw [hparts] at h
  obtain ⟨s₁, h₁, h⟩ := Traverse.bind_eq_ok.mp h
  obtain ⟨r, hr⟩ := placePart_stored h₁
  exact placeParts_stored h hr.first

/-! ## Sections -/

/-- `.tbss` and the like: thread-local and without data. -/
def isTbss (ctx : LayoutContext) (id : OutputSectionId) : Bool :=
  (ctx.outputSections.info id).sectionAttributes.isTls && (ctx.outputSections.info id).sectionAttributes.isNoBits

/-- A location moves the address, and the file offset by as much or not at all. -/
theorem applyLocation_eq {region : Option MemoryRegion} {location : Option Nat}
    (h : ctx.applyLocation id region location s = .ok s') :
    (location = none ∧ s' = s) ∨ ∃ offset, location = some offset ∧
      ((ctx.movesFile id = true ∧ s.memOffset ≤ offset ∧
          s' = { s with fileOffset := s.fileOffset + (offset - s.memOffset), memOffset := offset }) ∨
        (ctx.movesFile id = false ∧ s' = { s with memOffset := offset })) := by
  unfold applyLocation at h
  cases location with
  | none => exact .inl ⟨rfl, (Except.ok.inj h).symm⟩
  | some offset =>
    refine .inr ⟨offset, rfl, ?_⟩
    simp only at h
    split at h
    · cases h
    · split at h
      · rename_i hmoves
        split at h
        · cases h
        · rename_i hle
          exact .inl ⟨hmoves, Nat.le_of_not_lt hle, (Except.ok.inj h).symm⟩
      · rename_i hmoves
        exact .inr ⟨Bool.eq_false_iff.mpr hmoves, (Except.ok.inj h).symm⟩

/-- The state in front of the location and behind the region. -/
def enteredState (ctx : LayoutContext) (id : OutputSectionId) (region : Option MemoryRegion) (s : LayoutState) :
    LayoutState := enterRegion region (ctx.visitTls id { s with pendingLocation := none })

theorem enterSection_eq (h : ctx.enterSection id s = .ok s') :
    ∃ region s₁, ctx.regionOf id s = .ok region ∧
      ctx.applyLocation id region s.pendingLocation (ctx.enteredState id region s) = .ok s₁ ∧
      s' = { s₁ with lmaOffset := s₁.memOffset } := by
  obtain ⟨region, hregion, h⟩ := Traverse.bind_eq_ok.mp h
  obtain ⟨s₁, h₁, h⟩ := Traverse.bind_eq_ok.mp h
  have hregions : (ctx.visitTls id { s with pendingLocation := none }).memoryRegions = s.memoryRegions := by
    unfold visitTls
    simp only
    split <;> rfl
  refine ⟨region, s₁, ?_, h₁, (Except.ok.inj h).symm⟩
  rw [← hregion]
  unfold regionOf
  rw [hregions]

theorem enteredState_tls (ctx : LayoutContext) (id : OutputSectionId) (region : Option MemoryRegion) (s : LayoutState) :
    (ctx.enteredState id region s).tlsMemsave = if ctx.isTbss id then some s.cursor else none := by
  have htls : (ctx.enteredState id region s).tlsMemsave =
      (ctx.visitTls id { s with pendingLocation := none }).tlsMemsave := by
    cases region <;> rfl
  rw [htls]
  unfold visitTls isTbss
  simp only
  split <;> rfl

theorem enteredState_fileOffset (ctx : LayoutContext) (id : OutputSectionId) (region : Option MemoryRegion)
    (s : LayoutState) : (ctx.enteredState id region s).fileOffset = s.fileOffset := by
  unfold enteredState visitTls
  simp only
  split <;> cases region <;> rfl

/-- Outside regions a section starts behind the others. -/
theorem enteredState_memOffset (ctx : LayoutContext) (region : Option MemoryRegion) (s : LayoutState)
    (hid : ctx.isTbss id = false) :
    (ctx.enteredState id region s).memOffset = region.elim s.cursor (fun r => r.origin + r.used) := by
  cases region with
  | some region => rfl
  | none =>
    unfold enteredState visitTls
    simp only
    split
    · rename_i h
      rw [isTbss, h] at hid
      cases hid
    · rfl

theorem leaveSection_eq (h : ctx.leaveSection id s = .ok s') :
    ∃ regions, s' = { s with memoryRegions := regions } := by
  unfold leaveSection at h
  split at h
  · exact ⟨s.memoryRegions, (Except.ok.inj h).symm⟩
  · split at h
    · exact ⟨s.memoryRegions, (Except.ok.inj h).symm⟩
    · split at h
      · cases h
      · exact ⟨_, (Except.ok.inj h).symm⟩

/-- A section event: the section is entered, and its parts are stored. -/
theorem placeSection_eq (h : ctx.placeSection id s = .ok s') :
    ∃ s₁ s₂ regions, ctx.enterSection id s = .ok s₁ ∧
      ctx.placeParts id true (ctx.visitedParts id) s₁ = .ok s₂ ∧ s' = { s₂ with memoryRegions := regions } := by
  obtain ⟨-, s₁, s₂, h₁, h₂, h₃⟩ := placeSection_steps h
  obtain ⟨regions, hregions⟩ := leaveSection_eq h₃
  exact ⟨s₁, s₂, regions, h₁, h₂, hregions⟩

theorem placeSection_stored (h : ctx.placeSection id s = .ok s') :
    ∃ s₁, ctx.enterSection id s = .ok s₁ ∧ SectionStored ctx id s₁.memOffset s₁.tlsMemsave s' := by
  obtain ⟨s₁, s₂, regions, h₁, h₂, rfl⟩ := placeSection_eq h
  have hstored := placeParts_visited h₂
  exact ⟨s₁, h₁, hstored.offset, hstored.aligned, hstored.tls, hstored.le, hstored.memory⟩

/-! ## Addresses that do not move back -/

/-- Neither a location nor a memory region lies behind the sections so far. -/
def Forward (ctx : LayoutContext) (s : LayoutState) : OrderEvent → Prop
  | .segmentStart segment => ctx.isLoadSegment segment = true → ∀ addr ∈ s.pendingLocation, s.cursor ≤ addr
  | .outputSection id =>
    (∀ region, ctx.regionOf id s = .ok (some region) → s.cursor ≤ region.origin + region.used) ∧
      ∀ addr ∈ s.pendingLocation, s.cursor ≤ addr
  | _ => True

instance decidableForward (ctx : LayoutContext) (s : LayoutState) : ∀ e, Decidable (ctx.Forward s e)
  | .segmentStart segment => inferInstanceAs
    (Decidable (ctx.isLoadSegment segment = true → ∀ addr ∈ s.pendingLocation, s.cursor ≤ addr))
  | .outputSection id =>
    let pending := ∀ addr ∈ s.pendingLocation, s.cursor ≤ addr
    match h : ctx.regionOf id s with
    | .ok (some region) => decidable_of_iff (s.cursor ≤ region.origin + region.used ∧ pending)
        ⟨fun hp => ⟨fun _ hr => Option.some.inj (Except.ok.inj (h.symm.trans hr)) ▸ hp.1, hp.2⟩,
          fun hp => ⟨hp.1 region h, hp.2⟩⟩
    | .ok none => decidable_of_iff pending
        ⟨fun hp => ⟨fun _ hr => absurd (h.symm.trans hr) nofun, hp⟩, And.right⟩
    | .error _ => decidable_of_iff pending
        ⟨fun hp => ⟨fun _ hr => absurd (h.symm.trans hr) nofun, hp⟩, And.right⟩
  | .setLocation _ _ _ | .setLocationRelative _ _ _ _ | .setSectionAddress _ | .segmentEnd _ =>
    inferInstanceAs (Decidable True)

/-- All events of a walk, each in the state that it meets. -/
def Steps (ctx : LayoutContext) (P : LayoutState → OrderEvent → Prop) : List OrderEvent → LayoutState → Prop
  | [], _ => True
  | e :: es, s => P s e ∧ ∀ s', ctx.layoutEvent s e = .ok s' → Steps ctx P es s'

instance decidableSteps (ctx : LayoutContext) (P : LayoutState → OrderEvent → Prop) [∀ s e, Decidable (P s e)] :
    ∀ es s, Decidable (ctx.Steps P es s)
  | [], _ => inferInstanceAs (Decidable True)
  | e :: es, s =>
    match h : ctx.layoutEvent s e with
    | .error _ => decidable_of_iff (P s e)
        ⟨fun hp => ⟨hp, fun _ hs' => absurd (h.symm.trans hs') nofun⟩, And.left⟩
    | .ok s₁ =>
      have := decidableSteps ctx P es s₁
      decidable_of_iff (P s e ∧ ctx.Steps P es s₁)
        ⟨fun hp => ⟨hp.1, fun _ hs' => Except.ok.inj (h.symm.trans hs') ▸ hp.2⟩, fun hp => ⟨hp.1, hp.2 s₁ h⟩⟩

/-- Whether a section takes room in memory. -/
def inMemory (ctx : LayoutContext) (id : OutputSectionId) : Bool := ctx.givesAddress id && !ctx.isTbss id

theorem enterSection_tls (h : ctx.enterSection id s = .ok s') :
    s'.tlsMemsave = if ctx.isTbss id then some s.cursor else none := by
  obtain ⟨region, s₁, -, hloc, rfl⟩ := enterSection_eq h
  rw [← enteredState_tls ctx id region s]
  obtain ⟨-, rfl⟩ | ⟨offset, -, ⟨-, -, rfl⟩ | ⟨-, rfl⟩⟩ := applyLocation_eq hloc <;> rfl

theorem enterSection_cursor (h : ctx.enterSection id s = .ok s') (hforward : ctx.Forward s (.outputSection id))
    (hid : ctx.isTbss id = false) : s.cursor ≤ s'.memOffset := by
  obtain ⟨region, s₁, hregion, hloc, rfl⟩ := enterSection_eq h
  obtain ⟨hstart, hpending⟩ := hforward
  obtain ⟨-, rfl⟩ | ⟨offset, hoffset, ⟨-, -, rfl⟩ | ⟨-, rfl⟩⟩ := applyLocation_eq hloc
  · show s.cursor ≤ (ctx.enteredState id region s).memOffset
    rw [enteredState_memOffset ctx region s hid]
    cases region with
    | none => exact Nat.le_refl _
    | some region => exact hstart region hregion
  · exact hpending offset hoffset
  · exact hpending offset hoffset

/-- What a section does to the cursor. -/
theorem placeSection_cursor (h : ctx.placeSection id s = .ok s') (hforward : ctx.Forward s (.outputSection id)) :
    s.cursor ≤ s'.cursor ∧ (ctx.inMemory id = true →
      s.cursor ≤ (s'.sectionLayouts id).memOffset ∧ (s'.sectionLayouts id).memEnd ≤ s'.cursor) := by
  obtain ⟨s₁, h₁, hstored⟩ := placeSection_stored h
  have htls := hstored.tls.trans (enterSection_tls h₁)
  cases hid : ctx.isTbss id with
  | true =>
    rw [hid, if_pos rfl] at htls
    have hcursor : s'.cursor = s.cursor := by
      rw [LayoutState.cursor, htls]
      rfl
    refine ⟨Nat.le_of_eq hcursor.symm, fun hmem => ?_⟩
    rw [inMemory, hid, Bool.not_true, Bool.and_false] at hmem
    cases hmem
  | false =>
    rw [hid, if_neg Bool.false_ne_true] at htls
    have hcursor : s'.cursor = s'.memOffset := by
      rw [LayoutState.cursor, htls]
      rfl
    have henter := enterSection_cursor h₁ hforward hid
    rw [hcursor]
    refine ⟨Nat.le_trans henter hstored.le, fun hmem => ?_⟩
    rw [inMemory, Bool.and_eq_true] at hmem
    obtain ⟨hstart, -, hend⟩ := hstored.memory hmem.1
    exact ⟨Nat.le_trans henter hstart, Nat.le_of_eq hend⟩

theorem startSegment_cursor (segment : ProgramSegmentId) (s : LayoutState)
    (hpending : ∀ addr ∈ s.pendingLocation, s.cursor ≤ addr) : s.cursor ≤ (ctx.startSegment segment s).cursor := by
  have hlift : ∀ (t : LayoutState) (m : Nat), t.tlsMemsave = s.tlsMemsave → t.memOffset = m →
      (s.tlsMemsave = none → s.memOffset ≤ m) → s.cursor ≤ t.cursor := by
    intro t m htls hmem hle
    unfold LayoutState.cursor at *
    rw [htls, hmem]
    cases hs : s.tlsMemsave with
    | none => exact hle hs
    | some saved => exact Nat.le_refl _
  unfold startSegment
  split
  · rename_i addr haddr
    refine hlift _ addr rfl rfl fun htls => ?_
    have hle := hpending addr haddr
    rw [LayoutState.cursor, htls] at hle
    exact hle
  · exact hlift _ _ rfl rfl fun _ => Alignment.le_alignModulo _ _ _

/-! ## The walk -/

/-- The sections of some events that take room in memory. -/
def memoryIds (ctx : LayoutContext) (es : List OrderEvent) : List OutputSectionId :=
  (orderedIds es).filter ctx.inMemory

/-- What holds of the places after the events `es`. -/
structure WalkPlaced (ctx : LayoutContext) (es : List OrderEvent) (s : LayoutState) : Prop where
  aligned : ∀ id, ∀ p ∈ s.records id, p.2.alignment = ctx.cappedAlignment id p.1 ∧ p.2.alignment.value ∣ p.2.memOffset
  file : InOrder.Placed s.fileOffset (fun id => (s.sectionLayouts id).fileOffset)
    (fun id => (s.sectionLayouts id).fileEnd) (orderedIds es)

/-- The places in memory after the events `es`. -/
def MemoryPlaced (ctx : LayoutContext) (es : List OrderEvent) (s : LayoutState) : Prop :=
  InOrder.Placed s.cursor (fun id => (s.sectionLayouts id).memOffset) (fun id => (s.sectionLayouts id).memEnd)
    (ctx.memoryIds es)

variable {es : List OrderEvent} {e : OrderEvent}

theorem WalkPlaced.event (h : WalkPlaced ctx es s) (he : ctx.layoutEvent s e = .ok s') :
    WalkPlaced ctx (es ++ [e]) s' := by
  obtain ⟨id, rfl⟩ | hne := section_or_other e
  · obtain ⟨-, p, records, sec, hp, hsec, hrec, hlay⟩ := placeSection_spec he
    obtain ⟨s₁, h₁, hstored⟩ := placeSection_stored he
    have hother : ∀ j, j ≠ id → s'.sectionLayouts j = s.sectionLayouts j := by
      intro j hj
      rw [hlay, Function.update_of_ne hj]
    have hself : s'.sectionLayouts id = sec := by rw [hlay, Function.update_self]
    refine ⟨fun j => ?_, ?_⟩
    · by_cases hj : j = id
      · rw [hj]
        exact hstored.aligned
      · rw [hrec, Function.update_of_ne hj]
        exact h.aligned j
    · rw [orderedIds_append]
      refine h.file.place (Nat.le_trans hp hsec.parts.le) (fun j hj => by rw [hother j hj]; exact ⟨rfl, rfl⟩) ?_ ?_
      · rw [hself]
        exact Nat.le_trans hp hsec.le_start
      · rw [hself]
        exact Nat.le_of_eq hsec.stop
  · have hmoves := layoutEvent_moves hne he
    refine ⟨?_, ?_⟩
    · rw [hmoves.records]
      exact h.aligned
    · rw [orderedIds_append, orderedIds_cons_other hne, show orderedIds [] = [] from rfl, List.append_nil, hmoves.layouts]
      exact h.file.move hmoves.offset (fun _ _ => ⟨rfl, rfl⟩)

theorem layoutEvent_cursor (he : ctx.layoutEvent s e = .ok s') (hne : ∀ id, e ≠ .outputSection id)
    (hforward : ctx.Forward s e) : s.cursor ≤ s'.cursor := by
  cases e with
  | outputSection id => exact absurd rfl (hne id)
  | segmentEnd id => exact Except.ok.inj he ▸ Nat.le_refl _
  | segmentStart segment =>
    rw [← Except.ok.inj he]
    split
    · rename_i hload
      exact startSegment_cursor segment s (hforward hload)
    · exact Nat.le_refl _
  | setLocation expr loc idx | setLocationRelative expr id loc idx | setSectionAddress expr =>
    obtain ⟨value, -, he⟩ := Traverse.bind_eq_ok.mp he
    exact Except.ok.inj he ▸ Nat.le_refl _

/-- An event that says no address behind the sections so far. -/
theorem MemoryPlaced.event (h : MemoryPlaced ctx es s) (hforward : ctx.Forward s e)
    (he : ctx.layoutEvent s e = .ok s') : MemoryPlaced ctx (es ++ [e]) s' := by
  obtain ⟨id, rfl⟩ | hne := section_or_other e
  · obtain ⟨-, p, records, sec, -, -, -, hlay⟩ := placeSection_spec he
    obtain ⟨hcursor, hmem⟩ := placeSection_cursor he hforward
    have hother : ∀ j, j ≠ id → s'.sectionLayouts j = s.sectionLayouts j := by
      intro j hj
      rw [hlay, Function.update_of_ne hj]
    unfold MemoryPlaced memoryIds
    rw [orderedIds_append, List.filter_append, show orderedIds [.outputSection id] = [id] from rfl]
    cases hin : ctx.inMemory id with
    | true =>
      obtain ⟨hstart, hend⟩ := hmem hin
      rw [List.filter_cons_of_pos hin]
      exact h.place hcursor (fun j hj => by rw [hother j hj]; exact ⟨rfl, rfl⟩) hstart hend
    | false =>
      rw [List.filter_cons_of_neg (Bool.eq_false_iff.mp hin), List.filter_nil, List.append_nil]
      refine h.move hcursor fun j hj => ?_
      have hj : j ≠ id := by
        rintro rfl
        rw [(List.mem_filter.mp hj).2] at hin
        cases hin
      rw [hother j hj]
      exact ⟨rfl, rfl⟩
  · unfold MemoryPlaced memoryIds
    rw [orderedIds_append, orderedIds_cons_other hne, show orderedIds [] = [] from rfl, List.append_nil, (layoutEvent_moves hne he).layouts]
    exact h.move (layoutEvent_cursor he hne hforward) (fun _ _ => ⟨rfl, rfl⟩)

/-- What every event keeps holds behind all of them. -/
theorem layoutEvents_keeps {P : LayoutState → OrderEvent → Prop} {I : List OrderEvent → LayoutState → Prop}
    (hkeeps : ∀ es s e s', I es s → P s e → ctx.layoutEvent s e = .ok s' → I (es ++ [e]) s') {es₀ : List OrderEvent}
    (h : I es₀ s) (hsteps : ctx.Steps P es s) (hs : ctx.layoutEvents es s = .ok s') : I (es₀ ++ es) s' := by
  induction es generalizing s es₀ with
  | nil =>
    rw [← Except.ok.inj hs, List.append_nil]
    exact h
  | cons e es ih =>
    obtain ⟨s₁, he, hs⟩ := Traverse.bind_eq_ok.mp hs
    have hrest := ih (hkeeps es₀ s e s₁ h hsteps.1 he) (hsteps.2 s₁ he) hs
    rw [List.append_assoc] at hrest
    exact hrest

end LayoutContext

end Reld
