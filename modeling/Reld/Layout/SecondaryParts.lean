import Mathlib.Order.Bounds.Basic
import Reld.Layout.InStep

/-!
# `Layout.SecondaryParts` — the range of an output section

The range of a section is that from its first part to its last one, empty parts included. `merge_secondary_parts` then
adds the secondary sections: with location counters the end moves to theirs, without any it moves by their size. The
first rule sees gaps in front of a section, the second one does not, and neither moves the start.
-/

namespace Reld

open LayoutContext

/-! ## Joining -/

/-- The parts of a section. A section without parts has an empty one. -/
structure SectionParts where
  minAlignment : Alignment
  first : OutputRecordLayout
  rest : List OutputRecordLayout

def SectionParts.parts (s : SectionParts) : List OutputRecordLayout := s.first :: s.rest

/-- The calls of `layout_section_from_part_layouts`. -/
def SectionParts.layout (s : SectionParts) : OutputRecordLayout :=
  s.rest.foldl (fun sectionLayout part => layoutSectionFromPartLayouts part sectionLayout s.minAlignment false)
    (layoutSectionFromPartLayouts s.first {} s.minAlignment true)

/-! ## What the walk leaves -/

theorem OutputRecordLayout.SamePlace.join {sec sec' : OutputRecordLayout} (h : sec.SamePlace sec')
    (r : OutputRecordLayout) (m : Alignment) :
    (layoutSectionFromPartLayouts r sec m false).SamePlace (layoutSectionFromPartLayouts r sec' m false) := by
  simp only [layoutSectionFromPartLayouts, OutputRecordLayout.fileEnd, OutputRecordLayout.memEnd, h.fileSize, h.memSize,
    h.alignment, h.fileOffset, h.memOffset, Bool.false_eq_true, if_false]
  exact ⟨.refl _, .refl _, .refl _, .refl _, .refl _⟩

/-- Sections with records have the layout of these, but for the load address. -/
def Laid (ctx : LayoutContext) (s : LayoutState) : Prop :=
  ∀ id first rest, (s.records id).map (·.2) = first :: rest →
    (s.sectionLayouts id).SamePlace (SectionParts.layout ⟨ctx.minAlignment id, first, rest⟩)

section Walk

variable {ctx : LayoutContext} {id : OutputSectionId} {s s' : LayoutState}

theorem Laid.moves (hs : Laid ctx s) (h : s.Moves s') : Laid ctx s' := by
  unfold Laid
  rw [h.records, h.layouts]
  exact hs

theorem Laid.part (hs : Laid ctx s) {isFirstPart : Bool} {part : Nat × Nat}
    (h : ctx.placePart id isFirstPart part s = .ok s') (hne : isFirstPart = false → s.records id ≠ []) :
    Laid ctx s' ∧ s'.records id ≠ [] := by
  obtain ⟨r, sec, -, -, hrec, hlay, hsec⟩ := placePart_spec h
  refine ⟨fun id' first rest hparts => ?_, by rw [hrec, Function.update_self]; simp⟩
  rw [hrec] at hparts
  rw [hlay]
  by_cases hid : id' = id
  · subst hid
    rw [Function.update_self] at hparts ⊢
    cases isFirstPart with
    | true =>
      cases hparts
      exact hsec
    | false =>
      obtain ⟨q, qs, hq⟩ := List.exists_cons_of_ne_nil (hne rfl)
      have hbefore := hs id' q.2 (qs.map (·.2)) (by rw [hq]; rfl)
      simp only [hq, Bool.false_eq_true, if_false, List.cons_append, List.map_cons, List.map_append, List.map_nil] at hparts
      cases hparts
      have hjoin := hsec.trans (hbefore.join r _)
      rwa [SectionParts.layout, List.foldl_concat]
  · rw [Function.update_of_ne hid] at hparts ⊢
    exact hs id' first rest hparts

theorem Laid.parts (hs : Laid ctx s) {isFirstPart : Bool} {parts : List (Nat × Nat)}
    (h : ctx.placeParts id isFirstPart parts s = .ok s') (hne : isFirstPart = false → s.records id ≠ []) : Laid ctx s' := by
  induction parts generalizing s isFirstPart with
  | nil => exact Except.ok.inj h ▸ hs
  | cons part parts ih =>
    obtain ⟨s₁, h₁, h⟩ := Traverse.bind_eq_ok.mp h
    obtain ⟨hs₁, hne₁⟩ := hs.part h₁ hne
    exact ih hs₁ h fun _ => hne₁

theorem Laid.event (hs : Laid ctx s) {e : OrderEvent} (h : ctx.layoutEvent s e = .ok s') : Laid ctx s' := by
  obtain ⟨id, rfl⟩ | hne := section_or_other e
  · obtain ⟨-, s₁, s₂, hin, hparts, hout⟩ := placeSection_steps h
    exact ((hs.moves (enterSection_moves hin)).parts hparts (by simp)).moves (leaveSection_moves hout).1
  · exact hs.moves (layoutEvent_moves hne h)

/-- **The layout of a section is that of its parts.** -/
theorem computeLayoutSections_laid {layout : LayoutState} (h : ctx.computeLayoutSections = .ok layout) :
    Laid ctx layout := by
  obtain ⟨s, hs, h⟩ := Traverse.bind_eq_ok.mp h
  obtain ⟨base, -, hs⟩ := Traverse.bind_eq_ok.mp hs
  refine layoutEvents_induct (I := fun _ => Laid ctx) [] (fun _ _ _ _ _ hs he => hs.event he) ?_ h
  rw [← Except.ok.inj hs]
  exact fun _ _ _ hparts => nomatch hparts

end Walk

theorem computeLayoutSections_laid_image :
    ∃ layout, imageLink.computeLayoutSections = .ok layout ∧ Laid imageLink layout := by
  obtain ⟨layout, h, -⟩ : ∃ layout, imageLink.computeLayoutSections = .ok layout ∧ layout.tlsMemsave = none :=
    exists_ok (by decide +kernel)
  exact ⟨layout, h, computeLayoutSections_laid h⟩

/-! ## Secondary sections -/

/-- `OutputRecordLayout::merge` -/
def OutputRecordLayout.merge (r other : OutputRecordLayout) : OutputRecordLayout :=
  { r with
    memSize := r.memSize + other.memSize
    fileSize := r.fileSize + other.fileSize
    alignment := if 0 < other.memSize then max r.alignment other.alignment else r.alignment }

/-- A secondary section. -/
structure SecondaryParts extends SectionParts where
  hasLocationCounters : Bool

/-- A round of `merge_secondary_parts`. -/
def mergeSecondary (primary : OutputRecordLayout) (s : SecondaryParts) : OutputRecordLayout :=
  let secondary := s.layout
  if s.hasLocationCounters then
    { primary with
      memSize := if primary.memEnd < secondary.memEnd then secondary.memEnd - primary.memOffset else primary.memSize
      fileSize :=
        if primary.fileEnd < secondary.fileEnd then secondary.fileEnd - primary.fileOffset else primary.fileSize
      alignment := if 0 < secondary.memSize then max primary.alignment secondary.alignment else primary.alignment }
  else primary.merge secondary

/-- `merge_secondary_parts`, for one primary section: its secondaries in the order of their numbers. -/
def mergeSecondaryParts (primary : SectionParts) (secondaries : List SecondaryParts) : OutputRecordLayout :=
  secondaries.foldl mergeSecondary primary.layout

/-! ## Ranges -/

/-- A range in memory or in the file. -/
structure Extent where
  offset : Nat
  size : Nat

namespace Extent

def stop (e : Extent) : Nat := e.offset + e.size

/-- The smallest range with all that is in the parts: if there is nothing in them, an empty one anywhere. -/
structure Smallest (e : Extent) (parts : List Extent) : Prop where
  contains : ∀ p ∈ parts, 0 < p.size → e.offset ≤ p.offset ∧ p.stop ≤ e.stop
  least : ∀ lo hi, (∀ p ∈ parts, 0 < p.size → lo ≤ p.offset ∧ p.stop ≤ hi) → 0 < e.size → lo ≤ e.offset ∧ e.stop ≤ hi

/-- Where a part that is not empty starts, and where one ends. -/
def starts (parts : List Extent) : Set Nat := { a | ∃ p ∈ parts, 0 < p.size ∧ p.offset = a }

def stops (parts : List Extent) : Set Nat := { a | ∃ p ∈ parts, 0 < p.size ∧ p.stop = a }

theorem smallest_iff (e : Extent) (parts : List Extent) : e.Smallest parts ↔
    ((∀ p ∈ parts, p.size = 0) ∧ e.size = 0) ∨ (IsLeast (starts parts) e.offset ∧ IsGreatest (stops parts) e.stop) := by
  constructor
  · intro h
    by_cases hempty : ∀ p ∈ parts, p.size = 0
    · refine .inl ⟨hempty, Nat.eq_zero_of_not_pos fun hpos => ?_⟩
      have hle := (h.least (e.offset + 1) 0 (fun p hp hsize => absurd (hempty p hp) (by omega)) hpos).1
      omega
    · push Not at hempty
      obtain ⟨p, hp, hne⟩ := hempty
      have hin := h.contains p hp (Nat.pos_of_ne_zero hne)
      have hpos : 0 < e.size := by
        unfold stop at hin
        omega
      -- the range could be shorter if nothing started or ended where it does
      have hstart : ∃ q ∈ parts, 0 < q.size ∧ q.offset = e.offset := by
        by_contra hno
        have hle := (h.least (e.offset + 1) e.stop (fun q hq hsize => by
          have hq' := h.contains q hq hsize
          have hneq : q.offset ≠ e.offset := fun heq => hno ⟨q, hq, hsize, heq⟩
          omega) hpos).1
        omega
      have hstop : ∃ q ∈ parts, 0 < q.size ∧ q.stop = e.stop := by
        by_contra hno
        have hpos' : 0 < e.stop := Nat.lt_of_lt_of_le hpos (Nat.le_add_left _ _)
        have hle := (h.least e.offset (e.stop - 1) (fun q hq hsize => by
          have hq' := h.contains q hq hsize
          have hneq : q.stop ≠ e.stop := fun heq => hno ⟨q, hq, hsize, heq⟩
          omega) hpos).2
        omega
      refine .inr ⟨⟨hstart, ?_⟩, ⟨hstop, ?_⟩⟩
      · rintro _ ⟨q, hq, hsize, rfl⟩
        exact (h.contains q hq hsize).1
      · rintro _ ⟨q, hq, hsize, rfl⟩
        exact (h.contains q hq hsize).2
  · rintro (⟨hempty, hzero⟩ | ⟨hleast, hgreatest⟩)
    · exact ⟨fun p hp hsize => absurd (hempty p hp) (by omega), fun _ _ _ hpos => absurd hzero (by omega)⟩
    · refine ⟨fun p hp hsize => ⟨hleast.2 ⟨p, hp, hsize, rfl⟩, hgreatest.2 ⟨p, hp, hsize, rfl⟩⟩, fun lo hi hall _ => ?_⟩
      obtain ⟨p, hp, hsize, hstart⟩ := hleast.1
      obtain ⟨q, hq, hsize', hstop⟩ := hgreatest.1
      exact ⟨hstart ▸ (hall p hp hsize).1, hstop ▸ (hall q hq hsize').2⟩

/-- The range from the first part to the last one, empty or not. -/
def join (e p : Extent) : Extent := ⟨min e.offset p.offset, max e.stop p.stop - min e.offset p.offset⟩

/-- A secondary section with location counters, or without. -/
def add (e : Extent) (s : Bool × Extent) : Extent :=
  if s.1 then if e.stop < s.2.stop then ⟨e.offset, s.2.stop - e.offset⟩ else e else ⟨e.offset, e.size + s.2.size⟩

/-- What secondary sections without location counters add. -/
def added (secondaries : List (Bool × Extent)) : Nat :=
  secondaries.foldr (fun s size => (if s.1 then 0 else s.2.size) + size) 0

/-- Where the last of the sections with location counters puts the end, each with what is added behind it. -/
def counterStops : List (Bool × Extent) → Nat
  | [] => 0
  | s :: secondaries => max (if s.1 then s.2.stop + added secondaries else 0) (counterStops secondaries)

theorem join_stop (e p : Extent) : (e.join p).stop = max e.stop p.stop := by
  unfold join stop
  dsimp only
  omega

theorem add_offset (e : Extent) (s : Bool × Extent) : (e.add s).offset = e.offset := by
  unfold add
  split
  · split <;> rfl
  · rfl

theorem add_stop (e : Extent) (s : Bool × Extent) :
    (e.add s).stop = if s.1 then max e.stop s.2.stop else e.stop + s.2.size := by
  unfold add
  split
  · split
    · unfold stop at *
      dsimp only
      omega
    · omega
  · exact (Nat.add_assoc _ _ _).symm

/-- **Where a section ends** after all of its secondaries. It starts where it did. -/
theorem foldl_add (e : Extent) (secondaries : List (Bool × Extent)) :
    (secondaries.foldl add e).offset = e.offset ∧
      (secondaries.foldl add e).stop = max (e.stop + added secondaries) (counterStops secondaries) := by
  induction secondaries generalizing e with
  | nil => exact ⟨rfl, (Nat.max_eq_left (Nat.zero_le _)).symm⟩
  | cons s secondaries ih =>
    obtain ⟨hoffset, hstop⟩ := ih (e.add s)
    have hadded : added (s :: secondaries) = (if s.1 then 0 else s.2.size) + added secondaries := rfl
    have hstops : counterStops (s :: secondaries) =
        max (if s.1 then s.2.stop + added secondaries else 0) (counterStops secondaries) := rfl
    rw [List.foldl_cons, hoffset, hstop, add_offset, add_stop, hadded, hstops]
    split <;> omega

end Extent

/-! ## The two ranges of a record -/

section Sections

variable (primary : SectionParts) (secondaries : List SecondaryParts)

namespace OutputRecordLayout

def mem (r : OutputRecordLayout) : Extent := ⟨r.memOffset, r.memSize⟩

def file (r : OutputRecordLayout) : Extent := ⟨r.fileOffset, r.fileSize⟩

end OutputRecordLayout

/-- All parts, those of the secondary sections too. -/
def allParts : List OutputRecordLayout := primary.parts ++ secondaries.flatMap fun s => s.parts

/-- From the first part of a section to its last one. -/
def SectionParts.span (range : OutputRecordLayout → Extent) (s : SectionParts) : Extent :=
  (s.rest.map range).foldl Extent.join (range s.first)

/-- The secondary sections as they are added. -/
def spans (range : OutputRecordLayout → Extent) : List (Bool × Extent) :=
  secondaries.map fun s => (s.hasLocationCounters, s.span range)

/-- The section is the smallest range with its parts, in memory and in the file, and aligned as they are. -/
structure SectionJoined : Prop where
  mem : (mergeSecondaryParts primary secondaries).mem.Smallest ((allParts primary secondaries).map (·.mem))
  file : (mergeSecondaryParts primary secondaries).file.Smallest ((allParts primary secondaries).map (·.file))
  alignment : ∀ p ∈ allParts primary secondaries, 0 < p.memSize →
    p.alignment ≤ (mergeSecondaryParts primary secondaries).alignment

/-- The first part of the primary section is the first of all that are not empty, and the end, moved by the sizes of
secondary sections without location counters and to the ends of those with some, is that of the last one. -/
def EndsMeet (range : OutputRecordLayout → Extent) : Prop :=
  let parts := (allParts primary secondaries).map range
  let start := (primary.span range).offset
  let stop := max ((primary.span range).stop + Extent.added (spans secondaries range))
    (Extent.counterStops (spans secondaries range))
  ((∀ p ∈ parts, p.size = 0) ∧ stop = start) ∨ (IsLeast (Extent.starts parts) start ∧ IsGreatest (Extent.stops parts) stop)

/-! ## What the record says of its parts -/

theorem SectionParts.layout_mem (s : SectionParts) : s.layout.mem = s.span (·.mem) := by
  rw [span, List.foldl_map]
  exact (List.foldl_hom OutputRecordLayout.mem fun _ _ => rfl).symm

theorem SectionParts.layout_file (s : SectionParts) : s.layout.file = s.span (·.file) := by
  rw [span, List.foldl_map]
  exact (List.foldl_hom OutputRecordLayout.file fun _ _ => rfl).symm

theorem mergeSecondary_mem (r : OutputRecordLayout) (s : SecondaryParts) :
    (mergeSecondary r s).mem = r.mem.add (s.hasLocationCounters, s.span (·.mem)) := by
  rw [← s.layout_mem]
  unfold mergeSecondary Extent.add OutputRecordLayout.mem
  cases s.hasLocationCounters with
  | false => rfl
  | true => exact (apply_ite (Extent.mk r.memOffset) _ _ _)

theorem mergeSecondary_file (r : OutputRecordLayout) (s : SecondaryParts) :
    (mergeSecondary r s).file = r.file.add (s.hasLocationCounters, s.span (·.file)) := by
  rw [← s.layout_file]
  unfold mergeSecondary Extent.add OutputRecordLayout.file
  cases s.hasLocationCounters with
  | false => rfl
  | true => exact (apply_ite (Extent.mk r.fileOffset) _ _ _)

/-- A range of the record is the smallest one if its two ends are those of the parts. -/
theorem smallest_iff_endsMeet (range : OutputRecordLayout → Extent)
    (hlayout : range primary.layout = primary.span range)
    (hmerge : ∀ r s, range (mergeSecondary r s) = (range r).add (s.hasLocationCounters, s.span range)) :
    (range (mergeSecondaryParts primary secondaries)).Smallest ((allParts primary secondaries).map range) ↔
      EndsMeet primary secondaries range := by
  have hrange : range (mergeSecondaryParts primary secondaries) =
      (spans secondaries range).foldl Extent.add (primary.span range) := by
    rw [spans, List.foldl_map, ← hlayout]
    exact (List.foldl_hom range fun r s => (hmerge r s).symm).symm
  obtain ⟨hoffset, hstop⟩ := Extent.foldl_add (primary.span range) (spans secondaries range)
  rw [← hrange] at hoffset hstop
  have hsize : (range (mergeSecondaryParts primary secondaries)).size = 0 ↔
      (range (mergeSecondaryParts primary secondaries)).stop =
        (range (mergeSecondaryParts primary secondaries)).offset := by
    unfold Extent.stop
    omega
  rw [Extent.smallest_iff, hsize, hoffset, hstop]
  rfl

/-- A part that is not empty is in the range, and aligned no more than it. -/
def OutputRecordLayout.Holds (r p : OutputRecordLayout) : Prop :=
  0 < p.memSize → p.alignment ≤ r.alignment ∧ r.memOffset ≤ p.memOffset ∧ p.memEnd ≤ r.memEnd

theorem holds_layoutSection (part r : OutputRecordLayout) (m : Alignment) :
    (layoutSectionFromPartLayouts part r m false).Holds part ∧
      ∀ p, r.Holds p → (layoutSectionFromPartLayouts part r m false).Holds p := by
  have hend : (layoutSectionFromPartLayouts part r m false).memEnd = max r.memEnd part.memEnd :=
    Extent.join_stop r.mem part.mem
  unfold OutputRecordLayout.Holds
  rw [hend]
  simp only [layoutSectionFromPartLayouts, Bool.false_eq_true, if_false]
  refine ⟨fun hpos => ?_, fun p h hpos => ?_⟩
  · rw [if_pos hpos]
    exact ⟨Nat.le_max_right _ _, Nat.min_le_right _ _, Nat.le_max_right _ _⟩
  · obtain ⟨halign, hoffset, hstop⟩ := h hpos
    refine ⟨?_, (Nat.min_le_left _ _).trans hoffset, hstop.trans (Nat.le_max_left _ _)⟩
    split
    · exact halign.trans (Nat.le_max_left _ _)
    · exact halign

theorem SectionParts.layout_holds (s : SectionParts) {p : OutputRecordLayout} (hp : p ∈ s.parts) : s.layout.Holds p := by
  have hfold : ∀ (l : List OutputRecordLayout) (r : OutputRecordLayout), r.Holds p ∨ p ∈ l →
      (l.foldl (fun r part => layoutSectionFromPartLayouts part r s.minAlignment false) r).Holds p := by
    intro l
    induction l with
    | nil => exact fun r h => h.elim id fun h => absurd h List.not_mem_nil
    | cons part l ih =>
      rintro r (h | h)
      · exact ih _ (.inl ((holds_layoutSection part r _).2 p h))
      · rcases List.mem_cons.mp h with rfl | h
        · exact ih _ (.inl (holds_layoutSection p r _).1)
        · exact ih _ (.inr h)
  refine hfold s.rest _ ((List.mem_cons.mp hp).imp ?_ id)
  rintro rfl hpos
  simp only [layoutSectionFromPartLayouts, if_true, if_pos hpos]
  exact ⟨Nat.le_max_right _ _, Nat.le_refl _, Nat.le_refl _⟩

theorem mergeSecondary_alignment (r : OutputRecordLayout) (s : SecondaryParts) : (mergeSecondary r s).alignment =
    if 0 < s.layout.memSize then max r.alignment s.layout.alignment else r.alignment := by
  unfold mergeSecondary OutputRecordLayout.merge
  cases s.hasLocationCounters <;> rfl

/-- The alignment of a section only grows, whatever is added to it. -/
theorem le_mergeSecondary (p : OutputRecordLayout) (hpos : 0 < p.memSize) :
    ∀ (secondaries : List SecondaryParts) (r : OutputRecordLayout),
      (p.alignment ≤ r.alignment ∨ ∃ s ∈ secondaries, p ∈ s.parts) →
      p.alignment ≤ (secondaries.foldl mergeSecondary r).alignment := by
  intro secondaries
  induction secondaries with
  | nil => exact fun r h => h.elim id fun ⟨_, h, _⟩ => absurd h List.not_mem_nil
  | cons t secondaries ih =>
    have halign := mergeSecondary_alignment
    rintro r (h | ⟨s, hs, hp⟩)
    · refine ih _ (.inl ?_)
      rw [halign]
      split
      · exact h.trans (Nat.le_max_left _ _)
      · exact h
    · rcases List.mem_cons.mp hs with rfl | hs
      · obtain ⟨hle, hoffset, hstop⟩ := s.layout_holds hp hpos
        refine ih _ (.inl ?_)
        have hsize : 0 < s.layout.memSize := by
          unfold OutputRecordLayout.memEnd at hstop
          omega
        rw [halign, if_pos hsize]
        exact hle.trans (Nat.le_max_right _ _)
      · exact ih _ (.inr ⟨s, hs, hp⟩)

end Sections

end Reld
