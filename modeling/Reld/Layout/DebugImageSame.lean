import Reld.Layout.DebugSizes

/-!
# `Layout.DebugImageSame` — when the compressor gets the bytes that the file would have

Offsets into a debug section come from the layout, so what is compressed must be what the ordinary path would
have written. For a section with data this needs the inputs to lie tight in the order of their groups, or, when
there are merged strings, to have no contents at all (`debug_image_same_iff`).
-/

open Writes

namespace Reld

open LayoutContext

/-! ## The condition -/

/-- When the two paths write the same image. -/
def ImageFits (ctx : LayoutContext) (s : DebugSection) : Prop :=
  if ctx.outputSections.hasDataInFile s.id then
    if 0 < s.mergedLen then ∀ sec ∈ s.groups.flatten, sec.size = 0
    else
      PiecesTight (DebugPiece.room ctx s.id) (s.groups.map fun inputs => inputs.map .input) ∧
        ∀ sec ∈ s.groups.flatten, ∀ i < capacity ctx.minAlignment s.id sec.part sec.size - sec.size,
          s.padding i = 0
  else s.mergedLen = 0 ∧ ∀ sec ∈ s.groups.flatten, sec.debug → sec.size = 0

instance (ctx : LayoutContext) (s : DebugSection) : Decidable (ImageFits ctx s) :=
  inferInstanceAs (Decidable (if ctx.outputSections.hasDataInFile s.id then
    if 0 < s.mergedLen then ∀ sec ∈ s.groups.flatten, sec.size = 0
    else
      PiecesTight (DebugPiece.room ctx s.id) (s.groups.map fun inputs => inputs.map .input) ∧
        ∀ sec ∈ s.groups.flatten, ∀ i < capacity ctx.minAlignment s.id sec.part sec.size - sec.size,
          s.padding i = 0
  else s.mergedLen = 0 ∧ ∀ sec ∈ s.groups.flatten, sec.debug → sec.size = 0))

section

variable {ctx : LayoutContext} {layout : LayoutState} {b : OutputBuffers} {s : DebugSection}
  {room : DebugPiece → Nat} {ps : List DebugPiece} {places : Nat → Nat} {id : OutputSectionId}

/-! ## Pieces -/

theorem pieces_of_merged_zero (h : s.mergedLen = 0) :
    s.pieces = s.groups.map fun inputs => inputs.map .input := by
  unfold DebugSection.pieces
  cases s.groups with
  | nil => rfl
  | cons inputs groups => simp [h]

theorem pieces_of_merged_pos (h : 0 < s.mergedLen) (hne : s.groups ≠ []) :
    s.pieces.flatten = .merged s.mergedLen :: s.groups.flatten.map .input := by
  unfold DebugSection.pieces
  cases hgroups : s.groups with
  | nil => exact absurd hgroups hne
  | cons inputs groups => simp [h, List.map_flatten]

theorem flatten_inputs (groups : List (List DebugInput)) :
    (groups.map fun inputs => inputs.map DebugPiece.input).flatten = groups.flatten.map .input :=
  List.map_flatten.symm

theorem nodup_inputs (h : SectionSized ctx s) :
    ((s.groups.flatten.map DebugPiece.input).map (·.source)).Nodup := by
  rw [List.map_map]
  have hmap : s.groups.flatten.map (DebugPiece.source ∘ DebugPiece.input) =
      (s.groups.flatten.map fun sec => (sec.file, sec.index)).map fun key => DebugSource.input key.1 key.2 := by
    rw [List.map_map]
    rfl
  rw [hmap]
  exact h.keys.map fun _ _ heq => Prod.ext (DebugSource.input.inj heq).1 (DebugSource.input.inj heq).2

/-- No piece comes twice. -/
theorem nodup_sources (h : SectionSized ctx s) : (s.pieces.flatten.map (·.source)).Nodup := by
  by_cases hmerged : 0 < s.mergedLen
  · by_cases hne : s.groups = []
    · simp [DebugSection.pieces, hne]
    · rw [pieces_of_merged_pos hmerged hne, List.map_cons, List.nodup_cons]
      refine ⟨fun hmem => ?_, nodup_inputs h⟩
      obtain ⟨p, hp, hsrc⟩ := List.mem_map.mp hmem
      obtain ⟨sec, -, rfl⟩ := List.mem_map.mp hp
      cases hsrc
  · rw [pieces_of_merged_zero (Nat.eq_zero_of_not_pos hmerged), flatten_inputs]
    exact nodup_inputs h

/-! ## Writes of the ordinary path -/

theorem mem_placedWrites {p : DebugPiece} (hp : p ∈ ps) :
    ∃ start, ⟨start, p.size, some p.source⟩ ∈ placedWrites room places ps := by
  induction ps generalizing places with
  | nil => cases hp
  | cons q ps ih =>
    rcases List.mem_cons.mp hp with rfl | hp
    · exact ⟨places p.part, List.mem_append_left _ (List.mem_cons_self ..)⟩
    · obtain ⟨start, hstart⟩ := ih hp
      exact ⟨start, List.mem_append_right _ hstart⟩

theorem length_placedWrites {w : Write DebugSource} (hw : w ∈ placedWrites room places ps)
    (hsrc : w.source ≠ none) : ∃ p ∈ ps, w.length = p.size := by
  induction ps generalizing places with
  | nil => cases hw
  | cons p ps ih =>
    rcases List.mem_append.mp hw with hw | hw
    · simp only [pieceWrites, List.mem_cons, List.not_mem_nil, or_false] at hw
      rcases hw with rfl | rfl
      · exact ⟨p, List.mem_cons_self .., rfl⟩
      · exact absurd rfl hsrc
    · obtain ⟨q, hq, hlen⟩ := ih hw
      exact ⟨q, List.mem_cons_of_mem _ hq, hlen⟩

/-- The filler is the padding of the pieces. -/
theorem fillerZero_iff {fill : Nat → UInt8} :
    FillerZero fill 0 (placedWrites room places ps) ↔ ∀ p ∈ ps, ∀ i < room p - p.size, fill i = 0 := by
  induction ps generalizing places with
  | nil => exact ⟨fun _ p hp => absurd hp List.not_mem_nil, fun _ w hw => absurd hw List.not_mem_nil⟩
  | cons p ps ih =>
    have hsplit : FillerZero fill 0 (placedWrites room places (p :: ps)) ↔
        FillerZero fill 0 (pieceWrites (places p.part) (room p) p) ∧
          FillerZero fill 0 (placedWrites room (advance room places p) ps) := List.forall_mem_append
    have hhead : FillerZero fill 0 (pieceWrites (places p.part) (room p) p) ↔
        ∀ i < room p - p.size, fill i = 0 := by
      simp [FillerZero, pieceWrites]
    rw [hsplit, hhead, ih, List.forall_mem_cons]

/-! ## Sections with data -/

/-- Where the ordinary path writes, and that its writes are apart. -/
structure OrdinaryPlaced (ctx : LayoutContext) (layout : LayoutState) (s : DebugSection)
    (places : Nat → Nat) : Prop where
  start : ∀ p ∈ s.pieces.flatten, places p.part = (layout.sectionLayouts s.id).fileOffset +
    roomBelow (DebugPiece.room ctx s.id) s.pieces.flatten p.part
  apart : (placedWrites (DebugPiece.room ctx s.id) places s.pieces.flatten).Pairwise Write.Apart
  within : ∀ w ∈ placedWrites (DebugPiece.room ctx s.id) places s.pieces.flatten,
    (layout.sectionLayouts s.id).fileOffset ≤ w.start ∧
      w.start + w.length ≤ (layout.sectionLayouts s.id).fileOffset + (layout.sectionLayouts s.id).fileSize

theorem ordinaryPlaced (hlayout : ctx.computeLayoutSections = .ok layout) (hb : splitOutput ctx layout = some b)
    (hdebug : isDebugSection ctx layout s.id) (h : SectionSized ctx s) :
    OrdinaryPlaced ctx layout s fun k => (b.parts s.id k).start := by
  have hstart := fun p hp => h.part_start hlayout hb hdebug (p := p) hp
  refine ⟨hstart, placedWrites_apart (DebugPiece.size_le_room ctx s.id) fun p hp q hq hlt => ?_, fun w hw => ?_⟩
  · have hnext := @roomBelow_mono (DebugPiece.room ctx s.id) _ _ s.pieces.flatten (Nat.succ_le_of_lt hlt)
    rw [Nat.succ_eq_add_one, roomBelow_succ] at hnext
    rw [hstart p hp, hstart q hq]
    omega
  · obtain ⟨p, hp, hle, hend⟩ := placedWrites_within (DebugPiece.size_le_room ctx s.id) hw
    have hroom := @roomBelow_le_totalRoom (DebugPiece.room ctx s.id) s.pieces.flatten (p.part + 1)
    rw [roomBelow_succ] at hroom
    rw [hstart p hp] at hle hend
    rw [h.fileSize_eq (computeLayoutSections_filePlaced hlayout) hdebug]
    omega

/-- Without merged strings the places decide. -/
theorem sameBytes_regular_iff (hplaced : OrdinaryPlaced ctx layout s places) (h : SectionSized ctx s)
    (hsize : (layout.sectionLayouts s.id).fileSize = totalRoom (DebugPiece.room ctx s.id) s.pieces.flatten) :
    (∀ content : DebugSource → Nat → UInt8, ∀ p < (layout.sectionLayouts s.id).fileSize,
        byteAt content s.padding 0 (placedWrites (DebugPiece.room ctx s.id) places s.pieces.flatten)
            ((layout.sectionLayouts s.id).fileOffset + p) =
          byteAt content s.padding 0 (builtWrites (DebugPiece.room ctx s.id) 0 s.pieces) p) ↔
      PiecesTight (DebugPiece.room ctx s.id) s.pieces ∧
        ∀ p ∈ s.pieces.flatten, ∀ i < p.room ctx s.id - p.size, s.padding i = 0 := by
  have hle := DebugPiece.size_le_room ctx s.id
  have hempty : ∀ p : DebugPiece, p.size = 0 → p.room ctx s.id = 0 := fun p => DebugPiece.room_eq_zero
  have hnodup := nodup_sources h
  have hmoved : (builtWrites (DebugPiece.room ctx s.id) 0 s.pieces).map
      (Write.move (layout.sectionLayouts s.id).fileOffset) =
      builtWrites (DebugPiece.room ctx s.id) (layout.sectionLayouts s.id).fileOffset s.pieces :=
    builtWrites_move _ 0 _
  obtain ⟨hpair, hin⟩ := builtWrites_spec hle (layout.sectionLayouts s.id).fileOffset s.pieces
  rw [same_bytes_move_iff (show (1 : UInt8) ≠ 0 by decide) hplaced.apart (hmoved ▸ hpair.imp Write.apart_of_le)
    hplaced.within (by rw [hmoved, hsize]; exact hin) (placedWrites_keysOnce hnodup)
    (hmoved ▸ builtWrites_keysOnce hnodup) ?_, hmoved, sameKeys_groups hnodup,
    agreesGroups_iff hle hempty fun p hp _ => hplaced.start p hp, tightGroups_iff hle hempty, fillerZero_iff]
  rw [hmoved]
  intro w hw
  obtain ⟨k, -, hk⟩ := source_builtWrites hw
  rw [hk]
  exact Option.some_ne_none k

/-- With merged strings only they may have contents. -/
theorem sameBytes_merged_iff (hplaced : OrdinaryPlaced ctx layout s places) (h : SectionSized ctx s)
    (hmerged : 0 < s.mergedLen) (hne : s.groups ≠ [])
    (hfit : s.mergedLen ≤ (layout.sectionLayouts s.id).fileSize) :
    (∀ content : DebugSource → Nat → UInt8, ∀ p < (layout.sectionLayouts s.id).fileSize,
        byteAt content s.padding 0 (placedWrites (DebugPiece.room ctx s.id) places s.pieces.flatten)
            ((layout.sectionLayouts s.id).fileOffset + p) =
          byteAt content s.padding 0 [⟨0, s.mergedLen, some .merged⟩] p) ↔
      ∀ sec ∈ s.groups.flatten, sec.size = 0 := by
  have hflat := pieces_of_merged_pos hmerged hne
  have hsingle : ([⟨0, s.mergedLen, some .merged⟩] : List (Write DebugSource)).map
      (Write.move (layout.sectionLayouts s.id).fileOffset) =
      [⟨(layout.sectionLayouts s.id).fileOffset, s.mergedLen, some .merged⟩] := rfl
  rw [same_bytes_move_iff (show (1 : UInt8) ≠ 0 by decide) hplaced.apart (hsingle ▸ List.pairwise_singleton _ _)
    hplaced.within (by rw [hsingle]; simpa using hfit) (placedWrites_keysOnce (nodup_sources h))
    (by rw [hsingle]; intro w hw w' hw' _ _ _ _; exact (List.mem_singleton.mp hw).trans (List.mem_singleton.mp hw').symm)
    (by rw [hsingle]; simp), hsingle, fillerZero_iff]
  constructor
  · rintro ⟨hsame, -⟩ sec hsec
    by_contra hsize
    -- The contents of the input section are in the file, but not in the buffer.
    have hp : DebugPiece.input sec ∈ s.pieces.flatten := by
      rw [hflat]
      exact List.mem_cons_of_mem _ (List.mem_map_of_mem hsec)
    obtain ⟨start, hw⟩ := @mem_placedWrites (DebugPiece.room ctx s.id) _ places _ hp
    have := (hsame start sec.size _ (Nat.pos_of_ne_zero hsize)).mp hw
    exact absurd (congrArg Write.source (List.mem_singleton.mp this)) (by simp [DebugPiece.source])
  · intro hall
    have hrest : ∀ p ∈ s.groups.flatten.map DebugPiece.input, p.size = 0 := by
      intro p hp
      obtain ⟨sec, hsec, rfl⟩ := List.mem_map.mp hp
      exact hall sec hsec
    have hstart : places (partWithAlignment 0) = (layout.sectionLayouts s.id).fileOffset := by
      have hplace := hplaced.start (.merged s.mergedLen) (hflat ▸ List.mem_cons_self ..)
      have hzero : roomBelow (DebugPiece.room ctx s.id) s.pieces.flatten (partWithAlignment 0) = 0 := by
        rw [roomBelow_eq_zero_iff (DebugPiece.size_le_room ctx s.id) (fun p => DebugPiece.room_eq_zero), hflat]
        intro p hp hsize
        rcases List.mem_cons.mp hp with rfl | hp
        · exact Nat.le_refl _
        · exact absurd (hrest p hp) hsize
      rwa [DebugPiece.part, hzero, Nat.add_zero] at hplace
    refine ⟨fun start n k hn => ?_, fun p hp i hi => ?_⟩
    · rw [hflat, placedWrites, List.mem_append, List.mem_singleton]
      constructor
      · rintro (hw | hw)
        · simp only [pieceWrites, List.mem_cons, Write.mk.injEq, Option.some.injEq, List.not_mem_nil, or_false,
            reduceCtorEq, and_false] at hw
          obtain ⟨rfl, rfl, rfl⟩ := hw
          exact congrArg (fun q => (⟨q, s.mergedLen, some .merged⟩ : Write DebugSource)) hstart
        · obtain ⟨p, hp, hlen⟩ := length_placedWrites hw (Option.some_ne_none k)
          simp only [hrest p hp] at hlen
          omega
      · intro hw
        rw [hw, ← hstart]
        exact .inl (List.mem_cons_self ..)
    · rw [hflat] at hp
      have hnone : p.room ctx s.id - p.size = 0 := by
        rcases List.mem_cons.mp hp with rfl | hp
        · exact Nat.sub_self _
        · rw [DebugPiece.room_eq_zero (hrest p hp), Nat.zero_sub]
      exact absurd hi (hnone ▸ Nat.not_lt_zero i)

/-- A section with bytes has files. -/
theorem groups_ne_nil (hpos : 0 < (layout.sectionLayouts s.id).fileSize)
    (hsize : (layout.sectionLayouts s.id).fileSize = totalRoom (DebugPiece.room ctx s.id) s.pieces.flatten) :
    s.groups ≠ [] := by
  intro hnil
  have hpieces : s.pieces = [] := by simp [DebugSection.pieces, hnil]
  rw [hsize, hpieces] at hpos
  exact Nat.lt_irrefl _ hpos

theorem sameImage_iff_of_data (hlayout : ctx.computeLayoutSections = .ok layout)
    (hb : splitOutput ctx layout = some b) (hdebug : isDebugSection ctx layout s.id) (h : SectionSized ctx s)
    (hdata : ctx.outputSections.hasDataInFile s.id = true) : SameImage ctx layout b s ↔ ImageFits ctx s := by
  have hplaced := ordinaryPlaced hlayout hb hdebug h
  have hsize := h.fileSize_eq (computeLayoutSections_filePlaced hlayout) hdebug
  have hwo : ordinaryWrites ctx b s = some (placedWrites (DebugPiece.room ctx s.id)
      (fun k => (b.parts s.id k).start) s.pieces.flatten) :=
    writeGroups_eq hdata h.groups (splitOutput_groups hb)
  unfold ImageFits SameImage
  rw [if_pos hdata, hwo]
  by_cases hmerged : 0 < s.mergedLen
  · have hne := groups_ne_nil (debugSection_spec hdebug).2.2 hsize
    have hfit : s.mergedLen ≤ (layout.sectionLayouts s.id).fileSize := by
      rw [hsize, pieces_of_merged_pos hmerged hne, totalRoom, List.map_cons, List.sum_cons]
      exact Nat.le_add_right _ _
    have hwb : buildDebugSectionInMemory ctx layout s = some [⟨0, s.mergedLen, some .merged⟩] := by
      unfold buildDebugSectionInMemory
      rw [if_pos hmerged, Slice.splitOff_eq hfit]
      rfl
    rw [if_pos hmerged, hwb, ← sameBytes_merged_iff hplaced h hmerged hne hfit]
    constructor
    · rintro ⟨_, _, hwo', hwb', hsame⟩
      exact Option.some.inj hwo' ▸ Option.some.inj hwb' ▸ hsame
    · exact fun hsame => ⟨_, _, rfl, rfl, hsame⟩
  · have hpieces := pieces_of_merged_zero (Nat.eq_zero_of_not_pos hmerged)
    have hwb : buildDebugSectionInMemory ctx layout s =
        some (builtWrites (DebugPiece.room ctx s.id) 0 s.pieces) := by
      unfold buildDebugSectionInMemory
      rw [if_neg hmerged]
      exact buildRegularDebugSection_eq hdata h.groups (Nat.le_of_eq hsize.symm)
    have hinputs : (∀ sec ∈ s.groups.flatten,
          ∀ i < capacity ctx.minAlignment s.id sec.part sec.size - sec.size, s.padding i = 0) ↔
        ∀ p ∈ s.pieces.flatten, ∀ i < p.room ctx s.id - p.size, s.padding i = 0 := by
      rw [hpieces, flatten_inputs, List.forall_mem_map]
      rfl
    rw [if_neg hmerged, hwb, hinputs, ← hpieces, ← sameBytes_regular_iff hplaced h hsize]
    constructor
    · rintro ⟨_, _, hwo', hwb', hsame⟩
      exact Option.some.inj hwo' ▸ Option.some.inj hwb' ▸ hsame
    · exact fun hsame => ⟨_, _, rfl, rfl, hsame⟩

/-! ## Sections without data -/

theorem writeGroups_noBits (hdata : ctx.outputSections.hasDataInFile id = false) (buffers : List PartSlices)
    {pieces : List (List DebugPiece)} (h : ∀ p ∈ pieces.flatten, ∃ sec, p = .input sec) :
    writeGroups ctx id buffers pieces = some [] := by
  induction pieces generalizing buffers with
  | nil => cases buffers <;> rfl
  | cons ps pieces ih =>
    obtain ⟨hps, hpieces⟩ := List.forall_mem_append.mp h
    cases buffers with
    | nil => rfl
    | cons buffer buffers =>
      rw [writeGroups, writePieces_noBits hdata hps, Option.bind_some, ih buffers hpieces]
      rfl

/-- Without room only empty debug inputs are built, and they write nothing. -/
theorem buildGroup_noBits {start : Nat} {w : List (Write DebugSource)} :
    buildGroup ⟨start, 0⟩ 0 ps = some w → (∀ p ∈ ps, p.isDebug → p.size = 0) ∧ ∀ x ∈ w, x.length = 0 := by
  induction ps generalizing w with
  | nil =>
    intro h
    rw [← Option.some.inj h]
    exact ⟨fun p hp => absurd hp List.not_mem_nil, fun x hx => absurd hx List.not_mem_nil⟩
  | cons p ps ih =>
    intro h
    rw [buildGroup] at h
    split at h
    · simp only at h
      split at h
      · cases h
      · rename_i hfits
        have hzero : p.size = 0 := by omega
        rw [hzero] at h
        obtain ⟨w', hw', rfl⟩ := Option.map_eq_some_iff.mp h
        obtain ⟨hall, hlen⟩ := ih hw'
        exact ⟨List.forall_mem_cons.mpr ⟨fun _ => hzero, hall⟩, List.forall_mem_cons.mpr ⟨rfl, hlen⟩⟩
    · rename_i hdebug
      obtain ⟨hall, hlen⟩ := ih h
      exact ⟨List.forall_mem_cons.mpr ⟨fun hp => absurd hp hdebug, hall⟩, hlen⟩

theorem buildGroup_noBits_isSome {start : Nat} (h : ∀ p ∈ ps, p.isDebug → p.size = 0) :
    ∃ w, buildGroup ⟨start, 0⟩ 0 ps = some w := by
  induction ps with
  | nil => exact ⟨[], rfl⟩
  | cons p ps ih =>
    obtain ⟨hp, hps⟩ := List.forall_mem_cons.mp h
    obtain ⟨w, hw⟩ := ih hps
    rw [buildGroup]
    split
    · rename_i hdebug
      rw [hp hdebug]
      simp only [Nat.add_zero, Nat.lt_irrefl, if_false, hw, Option.map_some]
      exact ⟨_, rfl⟩
    · exact ⟨w, hw⟩

theorem sum_fileSizes_noBits (hdata : ctx.outputSections.hasDataInFile id = false) (sizes : PartMap Nat) :
    (((computeFileSizes ctx.outputSections sizes).inRange id).map (·.2)).sum = 0 := by
  rw [sum_inRange, List.sum_eq_zero_iff_forall_eq_nat]
  intro x hx
  obtain ⟨part, -, rfl⟩ := List.mem_map.mp hx
  rw [get_computeFileSizes, hdata, if_neg Bool.false_ne_true]

/-- The groups of a section without data have no bytes in the file. -/
theorem buildRegular_noBits (hdata : ctx.outputSections.hasDataInFile id = false) {pieces : List (List DebugPiece)}
    {sizes : List (PartMap Nat)} (remaining : Slice) (hlen : pieces.length = sizes.length) :
    ((∃ w, buildRegularDebugSection id (sizes.map (computeFileSizes ctx.outputSections)) pieces remaining =
        some w) ↔ ∀ p ∈ pieces.flatten, p.isDebug → p.size = 0) ∧
      ∀ w, buildRegularDebugSection id (sizes.map (computeFileSizes ctx.outputSections)) pieces remaining =
        some w → ∀ x ∈ w, x.length = 0 := by
  induction pieces generalizing sizes remaining with
  | nil =>
    obtain rfl := List.eq_nil_of_length_eq_zero hlen.symm
    refine ⟨⟨fun _ p hp => absurd hp List.not_mem_nil, fun _ => ⟨[], rfl⟩⟩, fun w hw x hx => ?_⟩
    rw [← Option.some.inj hw] at hx
    exact absurd hx List.not_mem_nil
  | cons ps pieces ih =>
    obtain ⟨g, sizes, rfl⟩ := List.exists_cons_of_length_eq_add_one hlen.symm
    obtain ⟨hiff, hzero⟩ := @ih sizes ⟨remaining.start + 0, remaining.length - 0⟩ (Nat.succ.inj hlen)
    rw [List.map_cons, buildRegularDebugSection, sum_fileSizes_noBits hdata, Slice.splitOff_eq (Nat.zero_le _),
      Option.bind_some, List.flatten_cons, List.forall_mem_append, ← hiff]
    constructor
    · constructor
      · rintro ⟨w, hw⟩
        obtain ⟨w₁, hw₁, hw⟩ := Option.bind_eq_some_iff.mp hw
        obtain ⟨w₂, hw₂, -⟩ := Option.map_eq_some_iff.mp hw
        exact ⟨(buildGroup_noBits hw₁).1, w₂, hw₂⟩
      · rintro ⟨hps, w₂, hw₂⟩
        obtain ⟨w₁, hw₁⟩ := @buildGroup_noBits_isSome _ remaining.start hps
        exact ⟨w₁ ++ w₂, by rw [hw₁, Option.bind_some, hw₂]; rfl⟩
    · intro w hw
      obtain ⟨w₁, hw₁, hw⟩ := Option.bind_eq_some_iff.mp hw
      obtain ⟨w₂, hw₂, rfl⟩ := Option.map_eq_some_iff.mp hw
      exact List.forall_mem_append.mpr ⟨(buildGroup_noBits hw₁).2, hzero w₂ hw₂⟩

/-- Merged strings find no room in a section without data. -/
theorem ordinaryWrites_noBits_merged (hb : splitOutput ctx layout = some b) (h : SectionSized ctx s)
    (hdata : ctx.outputSections.hasDataInFile s.id = false) (hmerged : 0 < s.mergedLen)
    (hne : s.groups ≠ []) : ordinaryWrites ctx b s = none := by
  obtain ⟨inputs, groups, hgroups⟩ := List.exists_cons_of_ne_nil hne
  have hpieces : s.pieces = (.merged s.mergedLen :: inputs.map .input) ::
      groups.map fun inputs => inputs.map .input := by
    simp [DebugSection.pieces, hgroups, hmerged]
  have hsized := h.groups
  have hcut := splitOutput_groups hb
  rw [hpieces] at hsized
  generalize ctx.groupSizes = sizes at hsized hcut
  cases hsized with
  | @cons _ g _ rest hg hrest =>
    obtain ⟨taken, htaken, hcut⟩ := Option.bind_eq_some_iff.mp hcut
    obtain ⟨buffers, -, hbuffers⟩ := Option.map_eq_some_iff.mp hcut
    have hlen : (taken.1 s.id (partWithAlignment 0)).length = 0 := by
      unfold takeMut at htaken
      split at htaken
      · rw [← Option.some.inj htaken]
        simp only
        rw [get_computeFileSizes, hdata, if_neg Bool.false_ne_true]
      · cases htaken
    have hnone : writePiece ctx s.id (taken.1 s.id) (.merged s.mergedLen) = none := by
      unfold writePiece
      simp only [DebugPiece.part, DebugPiece.room]
      rw [Slice.splitOff_eq_none (by omega)]
      rfl
    rw [ordinaryWrites, ← hbuffers, hpieces, List.map_cons, writeGroups, writePieces, hnone]
    rfl

theorem sameImage_iff_of_noBits (hlayout : ctx.computeLayoutSections = .ok layout)
    (hb : splitOutput ctx layout = some b) (hdebug : isDebugSection ctx layout s.id) (h : SectionSized ctx s)
    (hdata : ctx.outputSections.hasDataInFile s.id = false) :
    SameImage ctx layout b s ↔ ImageFits ctx s := by
  unfold ImageFits
  rw [if_neg (hdata ▸ Bool.false_ne_true)]
  by_cases hmerged : 0 < s.mergedLen
  · have hne := groups_ne_nil (debugSection_spec hdebug).2.2
      (h.fileSize_eq (computeLayoutSections_filePlaced hlayout) hdebug)
    have hnone := ordinaryWrites_noBits_merged hb h hdata hmerged hne
    constructor
    · rintro ⟨wo, wb, hwo, -⟩
      exact absurd (hnone.symm.trans hwo) (by simp)
    · rintro ⟨hzero, -⟩
      omega
  · have hzero := Nat.eq_zero_of_not_pos hmerged
    have hpieces := pieces_of_merged_zero hzero
    have hwo : ordinaryWrites ctx b s = some [] := by
      refine writeGroups_noBits hdata _ fun p hp => ?_
      rw [hpieces, flatten_inputs] at hp
      obtain ⟨sec, -, rfl⟩ := List.mem_map.mp hp
      exact ⟨sec, rfl⟩
    obtain ⟨hiff, hlen⟩ := @buildRegular_noBits ctx s.id hdata s.pieces ctx.groupSizes
      ⟨0, (layout.sectionLayouts s.id).fileSize⟩ h.groups.length_eq
    have hwb : buildDebugSectionInMemory ctx layout s = buildRegularDebugSection s.id
        (ctx.groupSizes.map (computeFileSizes ctx.outputSections)) s.pieces
        ⟨0, (layout.sectionLayouts s.id).fileSize⟩ := if_neg hmerged
    have hinputs : (∀ p ∈ s.pieces.flatten, p.isDebug → p.size = 0) ↔
        ∀ sec ∈ s.groups.flatten, sec.debug → sec.size = 0 := by
      rw [hpieces, flatten_inputs, List.forall_mem_map]
      rfl
    rw [← hinputs, ← hiff, and_iff_right hzero]
    unfold SameImage
    rw [hwo, hwb]
    constructor
    · rintro ⟨-, wb, -, hwb, -⟩
      exact ⟨wb, hwb⟩
    · rintro ⟨wb, hwb⟩
      refine ⟨[], wb, rfl, hwb, fun content p _ => ?_⟩
      -- Neither path writes a byte.
      rw [byteAt_of_not_covered fun w hw => absurd hw List.not_mem_nil, byteAt_of_not_covered fun w hw hcov => ?_]
      have := hlen wb hwb w hw
      rw [Write.covers_iff] at hcov
      omega

/-- **The image for the compressor.** For every layout that can be cut into buffers and every debug section in
it, the buffer built for the compressor has the bytes that the ordinary path leaves in the file exactly when
the pieces of the section fit both. -/
theorem debug_image_same_iff (hlayout : ctx.computeLayoutSections = .ok layout)
    (hb : splitOutput ctx layout = some b) (hdebug : isDebugSection ctx layout s.id) (h : SectionSized ctx s) :
    SameImage ctx layout b s ↔ ImageFits ctx s := by
  cases hdata : ctx.outputSections.hasDataInFile s.id with
  | true => exact sameImage_iff_of_data hlayout hb hdebug h hdata
  | false => exact sameImage_iff_of_noBits hlayout hb hdebug h hdata

end

/-! ## Two input sections -/

/-- Two debug inputs of alignment 4 in one group, the first with `n` bytes and the second with four. -/
def debugPair (n : Nat) : DebugSection where
  id := debugInfo
  groups := [[⟨1, 3, true, partWithAlignment 2, n⟩, ⟨2, 3, true, partWithAlignment 2, 4⟩]]

/-- A link with these inputs in `.debug_info`. -/
def debugLink (n : Nat) : LayoutContext where
  outputSections :=
    let o := OutputSections.withBaseAddress (.staticExecutable .nonRelocatable)
    { o with sectionInfos := o.sectionInfos ++ [primarySection ".debug_info" 1 0] }
  minAlignment := fun _ => 0
  baseAddress := .number 0x400000
  isLoadSegment := fun _ => true
  loadableSegmentAlignment := 12
  outputOrder := [.segmentStart 0, .outputSection fileHeader, .segmentEnd 0, .outputSection debugInfo]
  groupSizes :=
    [{ parts := fun id _ => if id = fileHeader then 64 else 0
       sparse := fun id part =>
        if id = debugInfo ∧ part = partWithAlignment 2 then
          some (capacity (fun _ => 0) id part n + capacity (fun _ => 0) id part 4)
        else none }]
  evaluate := fun e _ _ _ _ =>
    match e with
    | .number v => .ok v
    | _ => .error "not a number"

theorem debugLink_fits : ∃ layout, (debugLink 8).computeLayoutSections = .ok layout ∧
    (splitOutput (debugLink 8) layout).isSome ∧ isDebugSection (debugLink 8) layout debugInfo ∧
    SectionSized (debugLink 8) (debugPair 8) ∧ ImageFits (debugLink 8) (debugPair 8) :=
  ⟨_, rfl, by decide +kernel, by decide +kernel,
    ⟨by decide, .cons ⟨by decide +kernel, by decide +kernel⟩ .nil, by decide⟩, by decide +kernel⟩

/-- With eight bytes the first input needs no padding. -/
theorem debug_image_same_pair : ∃ layout b, (debugLink 8).computeLayoutSections = .ok layout ∧
    splitOutput (debugLink 8) layout = some b ∧ SameImage (debugLink 8) layout b (debugPair 8) := by
  obtain ⟨layout, h, hb, hdebug, hsized, hfit⟩ := debugLink_fits
  obtain ⟨b, hb⟩ := Option.isSome_iff_exists.mp hb
  exact ⟨layout, b, h, hb, (debug_image_same_iff h hb hdebug hsized).mpr hfit⟩

/-- With five bytes the second input is at offset 8 of the section, and at offset 5 of the buffer. -/
theorem debugLink_writes : ∃ layout, (debugLink 5).computeLayoutSections = .ok layout ∧
    isDebugSection (debugLink 5) layout debugInfo ∧ SectionSized (debugLink 5) (debugPair 5) ∧
    layout.sectionLayouts debugInfo = ⟨12, 12, 2, 64, 0, 0⟩ ∧
    (splitOutput (debugLink 5) layout).bind (fun b => ordinaryWrites (debugLink 5) b (debugPair 5)) =
      some [⟨64, 5, some (.input 1 3)⟩, ⟨69, 3, none⟩, ⟨72, 4, some (.input 2 3)⟩, ⟨76, 0, none⟩] ∧
    buildDebugSectionInMemory (debugLink 5) layout (debugPair 5) =
      some [⟨0, 5, some (.input 1 3)⟩, ⟨5, 4, some (.input 2 3)⟩] :=
  ⟨_, rfl, by decide +kernel, ⟨by decide, .cons ⟨by decide +kernel, by decide +kernel⟩ .nil, by decide⟩,
    by decide +kernel, by decide +kernel, by decide +kernel⟩

theorem debug_image_differs_pair : ∃ layout b, (debugLink 5).computeLayoutSections = .ok layout ∧
    splitOutput (debugLink 5) layout = some b ∧ isDebugSection (debugLink 5) layout debugInfo ∧
    SectionSized (debugLink 5) (debugPair 5) ∧ ¬SameImage (debugLink 5) layout b (debugPair 5) := by
  obtain ⟨layout, h, hdebug, hsized, hsec, hwo, hwb⟩ := debugLink_writes
  obtain ⟨b, hb, hwo⟩ := Option.bind_eq_some_iff.mp hwo
  refine ⟨layout, b, h, hb, hdebug, hsized, fun ⟨wo, wb, hwo', hwb', hsame⟩ => ?_⟩
  obtain rfl := Option.some.inj (hwo.symm.trans hwo')
  obtain rfl := Option.some.inj (hwb.symm.trans hwb')
  -- The byte at offset 5 is padding in the file.
  have hbyte := hsame (fun _ _ => 1) 5 (by simp only [debugPair, hsec]; decide)
  simp only [debugPair, hsec] at hbyte
  exact absurd hbyte (by decide)

end Reld
