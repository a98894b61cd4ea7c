import Reld.Lib.Writes
import Reld.Layout.CompressedFile

/-!
# `Layout.DebugImage` — the bytes of a debug section, written twice

The writer puts the input sections of a debug section into the buffers of its groups, part by part, each
rounded up to the alignment of its part. A section that is to be compressed is built in a buffer of its own
instead: there the input sections of a group follow each other by their exact sizes, whatever their parts are,
and when there are merged strings nothing else is written. Both leave zeros where they write nothing.
-/

open Writes

namespace Reld

open LayoutContext

/-! ## Input sections -/

/-- A loaded input section of an output section. -/
structure DebugInput where
  file : Nat
  index : Nat
  /-- Whether the slot is `LoadedDebugInfo`; otherwise it is `Loaded`. -/
  debug : Bool
  part : Nat
  size : Nat
deriving DecidableEq, Repr

/-- Where bytes of a debug section come from. -/
inductive DebugSource where
  | input (file index : Nat)
  | merged
deriving DecidableEq, Repr

/-- An output section: what the files of each group load into it and the length of its merged strings. -/
structure DebugSection where
  id : OutputSectionId
  groups : List (List DebugInput)
  mergedLen : Nat := 0
  /-- `fill_section_padding`, by the position in the padding. -/
  padding : Nat → UInt8 := fun _ => 0

/-- What a file does to the section: the prelude writes the merged strings, an object its input sections. -/
inductive DebugPiece where
  | merged (len : Nat)
  | input (sec : DebugInput)
deriving DecidableEq, Repr

namespace DebugPiece

def source : DebugPiece → DebugSource
  | merged _ => .merged
  | input sec => .input sec.file sec.index

def part : DebugPiece → Nat
  | merged _ => partWithAlignment 0
  | input sec => sec.part

def size : DebugPiece → Nat
  | merged len => len
  | input sec => sec.size

def isDebug : DebugPiece → Bool
  | merged _ => false
  | input sec => sec.debug

/-- The bytes that the piece takes from the buffer of its part. -/
def room (ctx : LayoutContext) (id : OutputSectionId) : DebugPiece → Nat
  | merged len => len
  | input sec => capacity ctx.minAlignment id sec.part sec.size

end DebugPiece

/-- The pieces of the groups. The prelude is the first file of the first group, and it only counts and writes
merged strings when there are some. -/
def DebugSection.pieces (s : DebugSection) : List (List DebugPiece) :=
  match s.groups with
  | [] => []
  | inputs :: groups =>
    ((if 0 < s.mergedLen then [.merged s.mergedLen] else []) ++ inputs.map .input) ::
      groups.map fun inputs => inputs.map .input

/-! ## The ordinary path -/

/-- What is left of the buffers of a section's parts. -/
abbrev PartSlices := Nat → Slice

/-- The piece's contents, and the padding up to the end of its bytes. -/
def pieceWrites (start room : Nat) (p : DebugPiece) : List (Write DebugSource) :=
  [⟨start, p.size, some p.source⟩, ⟨start + p.size, room - p.size, none⟩]

/-- `write_merged_strings`, or `allocate_section_output` with `populate_section_output`. -/
def writePiece (ctx : LayoutContext) (id : OutputSectionId) (buffers : PartSlices) (p : DebugPiece) :
    Option (PartSlices × List (Write DebugSource)) :=
  let take := ((buffers p.part).splitOff (p.room ctx id)).map fun taken =>
    (Function.update buffers p.part taken.2, pieceWrites taken.1.start (p.room ctx id) p)
  match p with
  | .merged _ => take
  | .input _ => if ctx.outputSections.hasDataInFile id then take else some (buffers, [])

/-- The files of a group, in order. -/
def writePieces (ctx : LayoutContext) (id : OutputSectionId) :
    PartSlices → List DebugPiece → Option (List (Write DebugSource))
  | _, [] => some []
  | buffers, p :: ps =>
    (writePiece ctx id buffers p).bind fun w => (writePieces ctx id w.1 ps).map (w.2 ++ ·)

/-- The groups, each with its own buffers. -/
def writeGroups (ctx : LayoutContext) (id : OutputSectionId) :
    List PartSlices → List (List DebugPiece) → Option (List (Write DebugSource))
  | buffers :: groups, ps :: pieces =>
    (writePieces ctx id buffers ps).bind fun w => (writeGroups ctx id groups pieces).map (w ++ ·)
  | _, _ => some []

/-- The writes to the output file. -/
def ordinaryWrites (ctx : LayoutContext) (b : OutputBuffers) (s : DebugSection) :
    Option (List (Write DebugSource)) :=
  writeGroups ctx s.id (b.groups.map fun buffers => buffers s.id) s.pieces

/-! ## The buffer for the compressor -/

/-- The loop over the files of a group, with the bytes of the group and the offset reached there. -/
def buildGroup (groupBuf : Slice) : Nat → List DebugPiece → Option (List (Write DebugSource))
  | _, [] => some []
  | offset, p :: ps =>
    if p.isDebug then
      let stop := offset + p.size
      if groupBuf.length < stop then none  -- "Buffer overflow writing debug section"
      else
        (buildGroup groupBuf stop ps).map (⟨groupBuf.start + offset, p.size, some p.source⟩ :: ·)
    else buildGroup groupBuf offset ps

/-- `build_regular_debug_section`, with the file sizes of the groups. -/
def buildRegularDebugSection (id : OutputSectionId) :
    List (PartMap Nat) → List (List DebugPiece) → Slice → Option (List (Write DebugSource))
  | fileSizes :: groups, ps :: pieces, remaining =>
    (remaining.splitOff ((fileSizes.inRange id).map (·.2)).sum).bind fun taken =>
      (buildGroup taken.1 0 ps).bind fun w =>
        (buildRegularDebugSection id groups pieces taken.2).map (w ++ ·)
  | _, _, _ => some []

/-- `build_debug_section_in_memory`, on a buffer of the section's size in the file. -/
def buildDebugSectionInMemory (ctx : LayoutContext) (layout : LayoutState) (s : DebugSection) :
    Option (List (Write DebugSource)) :=
  let buffer : Slice := ⟨0, (layout.sectionLayouts s.id).fileSize⟩
  if 0 < s.mergedLen then
    (buffer.splitOff s.mergedLen).map fun taken => [⟨taken.1.start, s.mergedLen, some .merged⟩]
  else
    buildRegularDebugSection s.id (ctx.groupSizes.map (computeFileSizes ctx.outputSections)) s.pieces buffer

/-! ## The same image -/

/-- Both paths write the section, and leave the same bytes, whatever the input sections contain. -/
def SameImage (ctx : LayoutContext) (layout : LayoutState) (b : OutputBuffers) (s : DebugSection) : Prop :=
  ∃ wo wb, ordinaryWrites ctx b s = some wo ∧ buildDebugSectionInMemory ctx layout s = some wb ∧
    ∀ content : DebugSource → Nat → UInt8, ∀ p < (layout.sectionLayouts s.id).fileSize,
      byteAt content s.padding 0 wo ((layout.sectionLayouts s.id).fileOffset + p) =
        byteAt content s.padding 0 wb p

/-- The room of the pieces of a part. -/
def partRoom (room : DebugPiece → Nat) (ps : List DebugPiece) (part : Nat) : Nat :=
  ((ps.filter (·.part = part)).map room).sum

/-- What the group counted (`common.allocate`): the room of its pieces in each part. -/
structure GroupSized (ctx : LayoutContext) (id : OutputSectionId) (ps : List DebugPiece) (sizes : PartMap Nat) :
    Prop where
  counted : ∀ part < numParts id, sizes.get id part = partRoom (DebugPiece.room ctx id) ps part
  entries : ∀ p ∈ ps, p.part < numParts id ∧ (sizes.entry id p.part).isSome

/-- The layout counted the pieces of the section, which is none of the built-in ones: they have other names. -/
structure SectionSized (ctx : LayoutContext) (s : DebugSection) : Prop where
  custom : numBuiltInSections ≤ s.id
  groups : List.Forall₂ (GroupSized ctx s.id) s.pieces ctx.groupSizes
  keys : (s.groups.flatten.map fun sec => (sec.file, sec.index)).Nodup

end Reld

/-!
# Where the two paths put the pieces of a debug section

The ordinary path gives each part of the section a place and puts the pieces of the part there, one behind the
other (`placedWrites`). The buffer for the compressor takes the groups one behind the other, and in each the
debug inputs (`builtWrites`). When the layout counted the pieces neither path fails, and these are the writes
that they make (`writeGroups_eq`, `buildRegularDebugSection_eq`). No two writes of a path overlap.
-/

namespace Reld

open LayoutContext

/-! ## Rooms -/

section

variable {room : DebugPiece → Nat} {ps qs : List DebugPiece} {p : DebugPiece} {k n : Nat}

/-- The room of the pieces in the parts before `k`. -/
def roomBelow (room : DebugPiece → Nat) (ps : List DebugPiece) (k : Nat) : Nat :=
  ((ps.filter (·.part < k)).map room).sum

/-- The room of all pieces. -/
def totalRoom (room : DebugPiece → Nat) (ps : List DebugPiece) : Nat := (ps.map room).sum

theorem partRoom_cons :
    partRoom room (p :: ps) k = (if k = p.part then room p else 0) + partRoom room ps k := by
  unfold partRoom
  by_cases h : k = p.part
  · subst h
    simp
  · simp [h, Ne.symm h]

theorem partRoom_append : partRoom room (ps ++ qs) k = partRoom room ps k + partRoom room qs k := by
  simp [partRoom]

theorem roomBelow_cons :
    roomBelow room (p :: ps) k = (if p.part < k then room p else 0) + roomBelow room ps k := by
  unfold roomBelow
  by_cases h : p.part < k <;> simp [h]

theorem totalRoom_append : totalRoom room (ps ++ qs) = totalRoom room ps + totalRoom room qs := by
  simp [totalRoom]

/-- The rooms of the first parts add up. -/
theorem sum_partRoom (ps : List DebugPiece) (n : Nat) :
    ((List.range n).map (partRoom room ps)).sum = roomBelow room ps n := by
  induction ps with
  | nil =>
    have hzero : partRoom room [] = fun _ => 0 := rfl
    simp [hzero, roomBelow]
  | cons p ps ih =>
    have hcons : partRoom room (p :: ps) = fun k => (if k = p.part then room p else 0) + partRoom room ps k :=
      funext fun k => partRoom_cons
    rw [hcons, List.sum_map_add, sum_range_single, ih, roomBelow_cons]

theorem roomBelow_all (h : ∀ p ∈ ps, p.part < n) : roomBelow room ps n = totalRoom room ps := by
  rw [roomBelow, List.filter_eq_self.mpr fun p hp => decide_eq_true (h p hp), totalRoom]

theorem roomBelow_succ (ps : List DebugPiece) (k : Nat) :
    roomBelow room ps (k + 1) = roomBelow room ps k + partRoom room ps k := by
  rw [← sum_partRoom, ← sum_partRoom, List.range_succ, List.map_append, List.sum_append, List.map_cons,
    List.map_nil, List.sum_singleton]

theorem roomBelow_mono (ps : List DebugPiece) (h : k ≤ n) : roomBelow room ps k ≤ roomBelow room ps n := by
  induction h with
  | refl => exact Nat.le_refl _
  | step _ ih => exact Nat.le_trans ih (roomBelow_succ ps _ ▸ Nat.le_add_right _ _)

theorem roomBelow_le_totalRoom (ps : List DebugPiece) (k : Nat) : roomBelow room ps k ≤ totalRoom room ps := by
  induction ps with
  | nil => exact Nat.le_refl _
  | cons p ps ih =>
    rw [roomBelow_cons, totalRoom, List.map_cons, List.sum_cons]
    unfold totalRoom at ih
    split <;> omega

/-- The places of the parts behind a piece. -/
def advance (room : DebugPiece → Nat) (places : Nat → Nat) (p : DebugPiece) : Nat → Nat :=
  Function.update places p.part (places p.part + room p)

theorem foldl_advance (places : Nat → Nat) (ps : List DebugPiece) (k : Nat) :
    ps.foldl (advance room) places k = places k + partRoom room ps k := by
  induction ps generalizing places with
  | nil => simp [partRoom]
  | cons p ps ih =>
    rw [List.foldl_cons, ih, partRoom_cons, ← Nat.add_assoc]
    by_cases h : k = p.part
    · subst h
      simp [advance]
    · simp [advance, h]

end

/-! ## The writes of the two paths -/

/-- The writes of pieces, when the parts have got as far as `places`. -/
def placedWrites (room : DebugPiece → Nat) : (Nat → Nat) → List DebugPiece → List (Write DebugSource)
  | _, [] => []
  | places, p :: ps => pieceWrites (places p.part) (room p) p ++ placedWrites room (advance room places p) ps

/-- The write of a piece at `cur`, if it is a debug input. -/
def debugWrite (cur : Nat) (p : DebugPiece) : List (Write DebugSource) :=
  if p.isDebug then [⟨cur, p.size, some p.source⟩] else []

/-- The offset behind a piece. -/
def debugStop (cur : Nat) (p : DebugPiece) : Nat := if p.isDebug then cur + p.size else cur

/-- The debug inputs of a group, one behind the other. -/
def packedWrites : Nat → List DebugPiece → List (Write DebugSource)
  | _, [] => []
  | cur, p :: ps => debugWrite cur p ++ packedWrites (debugStop cur p) ps

/-- The groups, one behind the other. -/
def builtWrites (room : DebugPiece → Nat) : Nat → List (List DebugPiece) → List (Write DebugSource)
  | _, [] => []
  | start, ps :: pieces => packedWrites start ps ++ builtWrites room (start + totalRoom room ps) pieces

section

variable {room : DebugPiece → Nat} {ps qs : List DebugPiece} {pieces : List (List DebugPiece)}

theorem placedWrites_append (places : Nat → Nat) (ps qs : List DebugPiece) :
    placedWrites room places (ps ++ qs) =
      placedWrites room places ps ++ placedWrites room (ps.foldl (advance room) places) qs := by
  induction ps generalizing places with
  | nil => rfl
  | cons p ps ih => rw [List.cons_append, placedWrites, placedWrites, ih, List.append_assoc, List.foldl_cons]

variable {places : Nat → Nat}

/-- Only the places of the pieces' own parts matter. -/
theorem placedWrites_congr {places' : Nat → Nat} (h : ∀ p ∈ ps, places p.part = places' p.part) :
    placedWrites room places ps = placedWrites room places' ps := by
  induction ps generalizing places places' with
  | nil => rfl
  | cons p ps ih =>
    have hp := h p (List.mem_cons_self ..)
    rw [placedWrites, placedWrites, hp, ih fun q hq => ?_]
    by_cases hpart : q.part = p.part
    · simp [advance, hpart, hp]
    · simp only [advance, Function.update_of_ne hpart, h q (List.mem_cons_of_mem _ hq)]

variable {w : Write DebugSource}

/-- Every write of the ordinary path lies in the room of a part. -/
theorem placedWrites_within (hsize : ∀ p, p.size ≤ room p) (hw : w ∈ placedWrites room places ps) :
    ∃ p ∈ ps, places p.part ≤ w.start ∧ w.start + w.length ≤ places p.part + partRoom room ps p.part := by
  induction ps generalizing places with
  | nil => cases hw
  | cons p ps ih =>
    rcases List.mem_append.mp hw with hw | hw
    · have hroom := hsize p
      refine ⟨p, List.mem_cons_self .., ?_⟩
      rw [partRoom_cons, if_pos rfl]
      simp only [pieceWrites, List.mem_cons, List.not_mem_nil, or_false] at hw
      rcases hw with rfl | rfl <;> exact ⟨by simp only; omega, by simp only; omega⟩
    · obtain ⟨q, hq, hstart, hstop⟩ := ih hw
      refine ⟨q, List.mem_cons_of_mem _ hq, ?_⟩
      rw [partRoom_cons]
      by_cases hpart : q.part = p.part
      · rw [hpart] at hstart hstop ⊢
        simp only [advance, Function.update_self] at hstart hstop
        rw [if_pos rfl]
        omega
      · simp only [advance, Function.update_of_ne hpart] at hstart hstop
        omega

/-- The places of the parts leave room for their pieces. -/
def PartsApart (room : DebugPiece → Nat) (places : Nat → Nat) (ps : List DebugPiece) : Prop :=
  ∀ p ∈ ps, ∀ q ∈ ps, p.part < q.part → places p.part + partRoom room ps p.part ≤ places q.part

theorem PartsApart.tail {p : DebugPiece} (h : PartsApart room places (p :: ps)) :
    PartsApart room (advance room places p) ps := by
  intro q hq r hr hlt
  have hle := h q (List.mem_cons_of_mem _ hq) r (List.mem_cons_of_mem _ hr) hlt
  rw [partRoom_cons] at hle
  unfold advance
  by_cases hqp : q.part = p.part
  · have hrp : r.part ≠ p.part := by omega
    rw [if_pos hqp] at hle
    rw [hqp] at hle ⊢
    rw [Function.update_self, Function.update_of_ne hrp]
    omega
  · rw [if_neg hqp] at hle
    rw [Function.update_of_ne hqp]
    by_cases hrp : r.part = p.part
    · rw [hrp] at hle ⊢
      rw [Function.update_self]
      omega
    · rw [Function.update_of_ne hrp]
      omega

theorem placedWrites_apart (hsize : ∀ p, p.size ≤ room p) (h : PartsApart room places ps) :
    (placedWrites room places ps).Pairwise Write.Apart := by
  induction ps generalizing places with
  | nil => exact List.Pairwise.nil
  | cons p ps ih =>
    have hroom := hsize p
    rw [placedWrites, List.pairwise_append]
    refine ⟨?_, ih h.tail, fun w hw w' hw' => ?_⟩
    · simp only [pieceWrites, List.pairwise_cons, List.mem_singleton, forall_eq, List.not_mem_nil,
        false_implies, implies_true, List.Pairwise.nil, and_true]
      exact Write.apart_of_le (Nat.le_refl _)
    · have hin : places p.part ≤ w.start ∧ w.start + w.length ≤ places p.part + room p := by
        simp only [pieceWrites, List.mem_cons, List.not_mem_nil, or_false] at hw
        rcases hw with rfl | rfl <;> exact ⟨by simp only; omega, by simp only; omega⟩
      obtain ⟨q, hq, hstart, hstop⟩ := placedWrites_within hsize hw'
      have hqmem := List.mem_cons_of_mem p hq
      -- In the same part the later piece is behind; another part has another room.
      rcases Nat.lt_trichotomy p.part q.part with hlt | heq | hlt
      · have hle := h p (List.mem_cons_self ..) q hqmem hlt
        rw [partRoom_cons, if_pos rfl] at hle
        simp only [advance, Function.update_of_ne (Nat.ne_of_gt hlt)] at hstart
        exact Write.apart_of_le (by omega)
      · simp only [advance, ← heq, Function.update_self] at hstart
        exact Write.apart_of_le (by omega)
      · have hle := h q hqmem p (List.mem_cons_self ..) hlt
        rw [partRoom_cons, if_neg (Nat.ne_of_lt hlt)] at hle
        simp only [advance, Function.update_of_ne (Nat.ne_of_lt hlt)] at hstop
        exact (Write.apart_of_le (by omega)).symm

/-- A write of the ordinary path with a key is that of a piece. -/
theorem source_placedWrites (hw : w ∈ placedWrites room places ps) {k : DebugSource} (hk : w.source = some k) :
    k ∈ ps.map (·.source) := by
  induction ps generalizing places with
  | nil => cases hw
  | cons p ps ih =>
    rcases List.mem_append.mp hw with hw | hw
    · simp only [pieceWrites, List.mem_cons, List.not_mem_nil, or_false] at hw
      rcases hw with rfl | rfl
      · exact Option.some.inj hk ▸ List.mem_cons_self ..
      · cases hk
    · exact List.mem_cons_of_mem _ (ih hw)

theorem source_packedWrites {cur : Nat} (hw : w ∈ packedWrites cur ps) :
    ∃ k ∈ ps.map (·.source), w.source = some k := by
  induction ps generalizing cur with
  | nil => cases hw
  | cons p ps ih =>
    rcases List.mem_append.mp hw with hw | hw
    · unfold debugWrite at hw
      split at hw
      · exact ⟨p.source, List.mem_cons_self .., by rw [List.mem_singleton.mp hw]⟩
      · cases hw
    · obtain ⟨k, hk, hsrc⟩ := ih hw
      exact ⟨k, List.mem_cons_of_mem _ hk, hsrc⟩

theorem source_builtWrites {start : Nat} (hw : w ∈ builtWrites room start pieces) :
    ∃ k ∈ pieces.flatten.map (·.source), w.source = some k := by
  induction pieces generalizing start with
  | nil => cases hw
  | cons ps pieces ih =>
    rw [List.flatten_cons, List.map_append]
    rcases List.mem_append.mp hw with hw | hw
    · obtain ⟨k, hk, hsrc⟩ := source_packedWrites hw
      exact ⟨k, List.mem_append_left _ hk, hsrc⟩
    · obtain ⟨k, hk, hsrc⟩ := ih hw
      exact ⟨k, List.mem_append_right _ hk, hsrc⟩

theorem placedWrites_keysOnce (h : (ps.map (·.source)).Nodup) :
    KeysOnce (placedWrites room places ps) := by
  induction ps generalizing places with
  | nil => intro w hw; cases hw
  | cons p ps ih =>
    rw [List.map_cons, List.nodup_cons] at h
    refine KeysOnce.append ?_ (ih h.2) ?_
    · intro w hw w' hw' hsrc hne
      simp only [pieceWrites, List.mem_cons, List.not_mem_nil, or_false] at hw hw'
      rcases hw with rfl | rfl <;> rcases hw' with rfl | rfl <;> simp_all
    · intro w hw w' hw' hsrc
      simp only [pieceWrites, List.mem_cons, List.not_mem_nil, or_false] at hw
      rcases hw with rfl | rfl
      · exact absurd (source_placedWrites hw' hsrc.symm) h.1
      · rfl

theorem packedWrites_keysOnce {cur : Nat} (h : (ps.map (·.source)).Nodup) : KeysOnce (packedWrites cur ps) := by
  induction ps generalizing cur with
  | nil => intro w hw; cases hw
  | cons p ps ih =>
    rw [List.map_cons, List.nodup_cons] at h
    refine KeysOnce.append ?_ (ih h.2) ?_
    · intro w hw w' hw' hsrc hne _ _
      unfold debugWrite at hw hw'
      split at hw
      · rename_i hdebug
        rw [if_pos hdebug] at hw'
        exact (List.mem_singleton.mp hw).trans (List.mem_singleton.mp hw').symm
      · cases hw
    · intro w hw w' hw' hsrc
      obtain ⟨k, hk, hksrc⟩ := source_packedWrites hw'
      unfold debugWrite at hw
      split at hw
      · rw [List.mem_singleton.mp hw] at hsrc
        exact absurd (Option.some.inj (hsrc.trans hksrc) ▸ hk) h.1
      · cases hw

theorem builtWrites_keysOnce {start : Nat} (h : (pieces.flatten.map (·.source)).Nodup) :
    KeysOnce (builtWrites room start pieces) := by
  induction pieces generalizing start with
  | nil => intro w hw; cases hw
  | cons ps pieces ih =>
    rw [List.flatten_cons, List.map_append, List.nodup_append] at h
    refine KeysOnce.append (packedWrites_keysOnce h.1) (ih h.2.1) fun w hw w' hw' hsrc => ?_
    obtain ⟨k, hk, hksrc⟩ := source_packedWrites hw
    obtain ⟨k', hk', hksrc'⟩ := source_builtWrites hw'
    rw [hksrc, hksrc'] at hsrc
    exact absurd (Option.some.inj hsrc) (h.2.2 k hk k' hk')

/-- The writes of a group come one behind the other, within the room of its pieces. -/
theorem packedWrites_spec (hsize : ∀ p, p.size ≤ room p) (cur : Nat) (ps : List DebugPiece) :
    (packedWrites cur ps).Pairwise (fun w w' => w.start + w.length ≤ w'.start) ∧
      ∀ w ∈ packedWrites cur ps, cur ≤ w.start ∧ w.start + w.length ≤ cur + totalRoom room ps := by
  induction ps generalizing cur with
  | nil => exact ⟨List.Pairwise.nil, fun w hw => absurd hw List.not_mem_nil⟩
  | cons p ps ih =>
    have hroom := hsize p
    obtain ⟨hpair, hin⟩ := ih (debugStop cur p)
    have hstop : cur ≤ debugStop cur p ∧ debugStop cur p ≤ cur + room p := by
      unfold debugStop
      split <;> omega
    have hhead : ∀ w ∈ debugWrite cur p, w.start = cur ∧ w.start + w.length = debugStop cur p := by
      intro w hw
      unfold debugWrite at hw
      split at hw
      · rename_i hdebug
        rw [List.mem_singleton.mp hw, debugStop, if_pos hdebug]
        exact ⟨rfl, rfl⟩
      · cases hw
    have htotal : totalRoom room (p :: ps) = room p + totalRoom room ps := by
      rw [totalRoom, List.map_cons, List.sum_cons, totalRoom]
    refine ⟨List.pairwise_append.mpr ⟨?_, hpair, fun w hw w' hw' => ?_⟩, fun w hw => ?_⟩
    · unfold debugWrite
      split
      · exact List.pairwise_singleton _ _
      · exact List.Pairwise.nil
    · rw [(hhead w hw).2]
      exact (hin w' hw').1
    · rcases List.mem_append.mp hw with hw | hw
      · have := hhead w hw
        omega
      · have := hin w hw
        omega

theorem builtWrites_spec (hsize : ∀ p, p.size ≤ room p) (start : Nat) (pieces : List (List DebugPiece)) :
    (builtWrites room start pieces).Pairwise (fun w w' => w.start + w.length ≤ w'.start) ∧
      ∀ w ∈ builtWrites room start pieces,
        start ≤ w.start ∧ w.start + w.length ≤ start + totalRoom room pieces.flatten := by
  induction pieces generalizing start with
  | nil => exact ⟨List.Pairwise.nil, fun w hw => absurd hw List.not_mem_nil⟩
  | cons ps pieces ih =>
    obtain ⟨hpair, hin⟩ := ih (start + totalRoom room ps)
    obtain ⟨hgroup, hgroupIn⟩ := packedWrites_spec hsize start ps
    rw [List.flatten_cons, totalRoom_append]
    refine ⟨List.pairwise_append.mpr ⟨hgroup, hpair, fun w hw w' hw' => ?_⟩, fun w hw => ?_⟩
    · exact Nat.le_trans (hgroupIn w hw).2 (hin w' hw').1
    · rcases List.mem_append.mp hw with hw | hw
      · have := hgroupIn w hw
        omega
      · have := hin w hw
        omega

/-- The same pieces behind another position. -/
theorem packedWrites_move (q cur : Nat) (ps : List DebugPiece) :
    (packedWrites cur ps).map (Write.move q) = packedWrites (q + cur) ps := by
  induction ps generalizing cur with
  | nil => rfl
  | cons p ps ih =>
    rw [packedWrites, packedWrites, List.map_append, ih]
    unfold debugWrite debugStop
    cases p.isDebug <;> simp [Write.move, Nat.add_assoc]

theorem builtWrites_move (q start : Nat) (pieces : List (List DebugPiece)) :
    (builtWrites room start pieces).map (Write.move q) = builtWrites room (q + start) pieces := by
  induction pieces generalizing start with
  | nil => rfl
  | cons ps pieces ih => rw [builtWrites, builtWrites, List.map_append, packedWrites_move, ih, Nat.add_assoc]

end

end Reld

/-!
# The two paths, run

With the room that the layout counted, the ordinary path never asks for more bytes than a part has left, and
the buffer for the compressor never overflows: both succeed with the writes of the last part.
-/

namespace Reld

open LayoutContext

variable {sizes : List (PartMap Nat)}

section

variable {ctx : LayoutContext} {id : OutputSectionId} {ps : List DebugPiece} {p : DebugPiece}

namespace DebugPiece

theorem size_le_room (ctx : LayoutContext) (id : OutputSectionId) (p : DebugPiece) : p.size ≤ p.room ctx id := by
  cases p with
  | merged len => exact Nat.le_refl _
  | input sec =>
    simp only [size, room, capacity]
    split
    · exact Nat.le_refl _
    · exact Alignment.le_alignUp _ _

theorem room_eq_zero (h : p.size = 0) : p.room ctx id = 0 := by
  cases p with
  | merged len => exact h
  | input sec =>
    simp only [size] at h
    simp only [room, capacity, h]
    split
    · rfl
    · exact Alignment.alignUp_eq_self_iff.mpr (Nat.dvd_zero _)

end DebugPiece

/-! ## The ordinary path -/

theorem writePiece_eq {buffers : PartSlices} (hdata : ctx.outputSections.hasDataInFile id = true)
    (h : p.room ctx id ≤ (buffers p.part).length) :
    writePiece ctx id buffers p = some
      (Function.update buffers p.part
        ⟨(buffers p.part).start + p.room ctx id, (buffers p.part).length - p.room ctx id⟩,
        pieceWrites (buffers p.part).start (p.room ctx id) p) := by
  unfold writePiece
  rw [Slice.splitOff_eq h]
  cases p with
  | merged len => rfl
  | input sec => exact if_pos hdata

/-- The files of a group find the room that they need. -/
theorem writePieces_eq {buffers : PartSlices} (hdata : ctx.outputSections.hasDataInFile id = true)
    (h : ∀ p ∈ ps, partRoom (DebugPiece.room ctx id) ps p.part ≤ (buffers p.part).length) :
    writePieces ctx id buffers ps =
      some (placedWrites (DebugPiece.room ctx id) (fun k => (buffers k).start) ps) := by
  induction ps generalizing buffers with
  | nil => rfl
  | cons p ps ih =>
    have hroom : p.room ctx id ≤ (buffers p.part).length := by
      have := h p (List.mem_cons_self ..)
      rw [partRoom_cons, if_pos rfl] at this
      omega
    rw [writePieces, writePiece_eq hdata hroom, Option.bind_some, ih fun q hq => ?_, placedWrites]
    · -- The places of the parts after the piece.
      have hplaces : (fun k => (Function.update buffers p.part
          ⟨(buffers p.part).start + p.room ctx id, (buffers p.part).length - p.room ctx id⟩ k).start) =
          advance (DebugPiece.room ctx id) (fun k => (buffers k).start) p := by
        funext k
        unfold advance
        by_cases hk : k = p.part
        · subst hk
          simp
        · simp [hk]
      rw [hplaces]
      rfl
    · have := h q (List.mem_cons_of_mem _ hq)
      rw [partRoom_cons] at this
      by_cases hpart : q.part = p.part
      · rw [if_pos hpart, hpart] at this
        simp only [hpart, Function.update_self]
        omega
      · rw [if_neg hpart] at this
        simp only [Function.update_of_ne hpart]
        omega

theorem get_fileSizes {sizes : PartMap Nat} (hdata : ctx.outputSections.hasDataInFile id = true)
    (h : GroupSized ctx id ps sizes) {part : Nat} (hpart : part < numParts id) :
    (computeFileSizes ctx.outputSections sizes).get id part = partRoom (DebugPiece.room ctx id) ps part := by
  rw [get_computeFileSizes, if_pos hdata, h.counted part hpart]

variable {pieces : List (List DebugPiece)}

theorem part_lt_of_sized (h : List.Forall₂ (GroupSized ctx id) pieces sizes) :
    ∀ p ∈ pieces.flatten, p.part < numParts id := by
  induction h with
  | nil => exact fun p hp => absurd hp List.not_mem_nil
  | cons hps _ ih =>
    intro p hp
    rcases List.mem_append.mp hp with hp | hp
    · exact (hps.entries p hp).1
    · exact ih p hp

/-- **The ordinary path** puts the pieces of all groups into their parts. -/
theorem writeGroups_eq {n : Nat} {parts : OutputSectionId → Nat → Slice} {groups : List (OutputSectionId → Nat → Slice)}
    (hdata : ctx.outputSections.hasDataInFile id = true) (h : List.Forall₂ (GroupSized ctx id) pieces sizes)
    (hgroups : splitOutputByGroup n (sizes.map (computeFileSizes ctx.outputSections)) parts = some groups) :
    writeGroups ctx id (groups.map fun buffers => buffers id) pieces = some
      (placedWrites (DebugPiece.room ctx id) (fun k => (parts id k).start) pieces.flatten) := by
  induction h generalizing parts groups with
  | nil =>
    obtain rfl := Option.some.inj hgroups
    rfl
  | @cons ps sizes pieces rest hps hrest ih =>
    obtain ⟨taken, htaken, hgroups⟩ := Option.bind_eq_some_iff.mp hgroups
    obtain ⟨groups', hgroups', rfl⟩ := Option.map_eq_some_iff.mp hgroups
    unfold takeMut at htaken
    split at htaken
    · obtain rfl := Option.some.inj htaken
      rw [List.map_cons, writeGroups, writePieces_eq hdata fun p hp => ?_, Option.bind_some, ih hgroups',
        List.flatten_cons, placedWrites_append]
      · -- The next group starts behind the room of this one.
        have hplaces : placedWrites (DebugPiece.room ctx id)
            (fun k => (parts id k).start + (computeFileSizes ctx.outputSections sizes).get id k)
              pieces.flatten =
            placedWrites (DebugPiece.room ctx id)
              (ps.foldl (advance (DebugPiece.room ctx id)) fun k => (parts id k).start) pieces.flatten := by
          refine placedWrites_congr fun q hq => ?_
          rw [foldl_advance, get_fileSizes hdata hps (part_lt_of_sized hrest q hq)]
        simp only [hplaces]
        rfl
      · simp only
        rw [get_fileSizes hdata hps (hps.entries p hp).1]
    · cases htaken

/-! ## The buffer for the compressor -/

/-- The bytes of a group: those of all its parts. -/
theorem sum_inRange (sizes : PartMap Nat) (id : OutputSectionId) :
    ((sizes.inRange id).map (·.2)).sum = ((List.range (numParts id)).map (sizes.get id)).sum := by
  unfold PartMap.inRange
  generalize List.range (numParts id) = parts
  induction parts with
  | nil => rfl
  | cons part parts ih =>
    rw [List.map_cons, List.sum_cons, ← ih, List.filterMap_cons]
    cases hentry : sizes.entry id part with
    | none => simp [PartMap.get, hentry]
    | some v => simp [PartMap.get, hentry]

theorem sum_fileSizes {sizes : PartMap Nat} (hdata : ctx.outputSections.hasDataInFile id = true)
    (h : GroupSized ctx id ps sizes) :
    (((computeFileSizes ctx.outputSections sizes).inRange id).map (·.2)).sum =
      totalRoom (DebugPiece.room ctx id) ps := by
  rw [sum_inRange, List.map_congr_left fun part hpart => get_fileSizes hdata h (List.mem_range.mp hpart),
    sum_partRoom, roomBelow_all fun p hp => (h.entries p hp).1]

/-- The debug inputs of a group fit into its bytes. -/
theorem buildGroup_eq {groupBuf : Slice} {offset : Nat}
    (h : offset + totalRoom (DebugPiece.room ctx id) ps ≤ groupBuf.length) :
    buildGroup groupBuf offset ps = some (packedWrites (groupBuf.start + offset) ps) := by
  induction ps generalizing offset with
  | nil => rfl
  | cons p ps ih =>
    have hroom := p.size_le_room ctx id
    rw [totalRoom, List.map_cons, List.sum_cons] at h
    rw [buildGroup, packedWrites, debugWrite, debugStop]
    split
    · simp only
      rw [if_neg (by omega), ih (by unfold totalRoom; omega), Option.map_some, Nat.add_assoc]
      rfl
    · exact ih (by unfold totalRoom; omega)

/-- **The compressed path** puts the debug inputs of the groups one behind the other. -/
theorem buildRegularDebugSection_eq {remaining : Slice} (hdata : ctx.outputSections.hasDataInFile id = true)
    (h : List.Forall₂ (GroupSized ctx id) pieces sizes)
    (hroom : totalRoom (DebugPiece.room ctx id) pieces.flatten ≤ remaining.length) :
    buildRegularDebugSection id (sizes.map (computeFileSizes ctx.outputSections)) pieces remaining =
      some (builtWrites (DebugPiece.room ctx id) remaining.start pieces) := by
  induction h generalizing remaining with
  | nil => rfl
  | @cons ps sizes pieces rest hps hrest ih =>
    rw [List.flatten_cons, totalRoom_append] at hroom
    rw [List.map_cons, buildRegularDebugSection, sum_fileSizes hdata hps, Slice.splitOff_eq (by omega),
      Option.bind_some]
    rw [@buildGroup_eq ctx id ps ⟨remaining.start, totalRoom (DebugPiece.room ctx id) ps⟩ 0
        (Nat.le_of_eq (Nat.zero_add _)), Option.bind_some,
      @ih ⟨remaining.start + totalRoom (DebugPiece.room ctx id) ps, _⟩ (by simp only; omega)]
    rfl

/-! ## Sections without data -/

/-- Without data in the file nothing is written, and merged strings find no room. -/
theorem writePieces_noBits (hdata : ctx.outputSections.hasDataInFile id = false)
    (h : ∀ p ∈ ps, ∃ sec, p = .input sec) (buffers : PartSlices) : writePieces ctx id buffers ps = some [] := by
  induction ps generalizing buffers with
  | nil => rfl
  | cons p ps ih =>
    obtain ⟨sec, rfl⟩ := h p (List.mem_cons_self ..)
    have hskip : writePiece ctx id buffers (.input sec) = some (buffers, []) := by
      unfold writePiece
      simp [hdata]
    rw [writePieces, hskip, Option.bind_some, ih fun q hq => h q (List.mem_cons_of_mem _ hq)]
    rfl

end

end Reld
