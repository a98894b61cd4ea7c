import Mathlib.Algebra.BigOperators.Ring.List
import Mathlib.Algebra.Ring.Nat
import Reld.Layout.DebugImage

/-!
# `Layout.DebugSizes` — when the two paths put the pieces at the same places

The ordinary path sorts the pieces of all groups by part and pads each to its alignment; the other one keeps
the order of the groups and pads only at the end of a group. The two put every piece that is not empty at the
same place exactly when the pieces are already in the order of the parts, and only the last piece of a group
is padded (`PiecesTight`).
-/

open Writes

namespace Reld

section

variable {room : DebugPiece → Nat} {ps later : List DebugPiece} {pieces : List (List DebugPiece)}
  {p : DebugPiece} {places : Nat → Nat} {cur start padding : Nat}

/-! ## The same places, piece by piece -/

/-- The pieces of a group that are not empty are debug inputs and have the same place in both paths. -/
def Agrees (room : DebugPiece → Nat) : (Nat → Nat) → Nat → List DebugPiece → Prop
  | _, _, [] => True
  | places, cur, p :: ps =>
    (p.size ≠ 0 → p.isDebug ∧ places p.part = cur) ∧ Agrees room (advance room places p) (debugStop cur p) ps

def AgreesGroups (room : DebugPiece → Nat) : (Nat → Nat) → Nat → List (List DebugPiece) → Prop
  | _, _, [] => True
  | places, start, ps :: pieces =>
    Agrees room places start ps ∧
      AgreesGroups room (ps.foldl (advance room) places) (start + totalRoom room ps) pieces

/-- One piece. -/
theorem sameKeys_piece (place cur : Nat) (p : DebugPiece) :
    SameKeys (pieceWrites place (room p) p) (debugWrite cur p) ↔
      (p.size ≠ 0 → p.isDebug ∧ place = cur) := by
  have hmem : ∀ s n k, (⟨s, n, some k⟩ : Write DebugSource) ∈ pieceWrites place (room p) p ↔
      s = place ∧ n = p.size ∧ k = p.source := by
    simp [pieceWrites]
  have hmem' : ∀ s n k, (⟨s, n, some k⟩ : Write DebugSource) ∈ debugWrite cur p ↔
      p.isDebug ∧ s = cur ∧ n = p.size ∧ k = p.source := by
    unfold debugWrite
    split <;> simp_all
  constructor
  · intro h hne
    have := (h place p.size p.source (Nat.pos_of_ne_zero hne)).mp ((hmem _ _ _).mpr ⟨rfl, rfl, rfl⟩)
    obtain ⟨hdebug, hplace, -⟩ := (hmem' _ _ _).mp this
    exact ⟨hdebug, hplace⟩
  · intro h s n k hn
    rw [hmem, hmem']
    constructor
    · rintro ⟨rfl, rfl, rfl⟩
      obtain ⟨hdebug, hplace⟩ := h (Nat.ne_of_gt hn)
      exact ⟨hdebug, hplace, rfl, rfl⟩
    · rintro ⟨-, rfl, rfl, rfl⟩
      exact ⟨(h (Nat.ne_of_gt hn)).2.symm, rfl, rfl⟩

variable {w : Write DebugSource}

theorem source_debugWrite (hw : w ∈ debugWrite cur p) : w.source = some p.source := by
  unfold debugWrite at hw
  split at hw
  · rw [List.mem_singleton.mp hw]
  · cases hw

theorem source_pieceWrites {place n : Nat} (hw : w ∈ pieceWrites place n p) :
    w.source = some p.source ∨ w.source = none := by
  simp only [pieceWrites, List.mem_cons, List.not_mem_nil, or_false] at hw
  rcases hw with rfl | rfl
  · exact .inl rfl
  · exact .inr rfl

/-- The pieces of a group have keys of their own, so they are compared one by one. -/
theorem sameKeys_group (h : (ps.map (·.source)).Nodup) :
    SameKeys (placedWrites room places ps) (packedWrites cur ps) ↔ Agrees room places cur ps := by
  induction ps generalizing places cur with
  | nil => exact ⟨fun _ => trivial, fun _ _ _ _ _ => Iff.rfl⟩
  | cons p ps ih =>
    rw [List.map_cons, List.nodup_cons] at h
    rw [placedWrites, packedWrites, sameKeys_append ?_ ?_, sameKeys_piece, ih h.2, Agrees]
    · intro w hw w' hw' hsrc
      rcases source_pieceWrites hw with hp | hnone
      · obtain ⟨k, hk, hksrc⟩ := source_packedWrites hw'
        exact absurd (Option.some.inj (hp.symm.trans (hsrc.trans hksrc)) ▸ hk) h.1
      · exact hnone
    · intro w hw w' hw' hsrc
      exact absurd (source_placedWrites hw' (hsrc.symm.trans (source_debugWrite hw))) h.1

theorem sameKeys_groups (h : (pieces.flatten.map (·.source)).Nodup) :
    SameKeys (placedWrites room places pieces.flatten) (builtWrites room start pieces) ↔
      AgreesGroups room places start pieces := by
  induction pieces generalizing places start with
  | nil => exact ⟨fun _ => trivial, fun _ _ _ _ _ => Iff.rfl⟩
  | cons ps pieces ih =>
    rw [List.flatten_cons, List.map_append, List.nodup_append] at h
    rw [List.flatten_cons, placedWrites_append, builtWrites, sameKeys_append ?_ ?_, sameKeys_group h.1,
      ih h.2.1, AgreesGroups]
    · intro w hw w' hw' hsrc
      obtain ⟨k, hk, hksrc⟩ := source_builtWrites hw'
      exact absurd rfl (h.2.2 k (source_placedWrites hw (hsrc.trans hksrc)) k hk)
    · intro w hw w' hw' hsrc
      obtain ⟨k, hk, hksrc⟩ := source_packedWrites hw
      exact absurd rfl (h.2.2 k hk k (source_placedWrites hw' (hsrc.symm.trans hksrc)))

/-! ## Places and the order of the parts -/

/-- Where the parts stand when all that came before takes up to `reached`. -/
def Ahead (room : DebugPiece → Nat) (places : Nat → Nat) (reached : Nat) (ps : List DebugPiece) : Prop :=
  ∀ p ∈ ps, p.size ≠ 0 → places p.part = reached + roomBelow room ps p.part

/-- In a group with so much padding already: each piece comes without padding in front of it, and no later
piece belongs to an earlier part. -/
def TightGroup (room : DebugPiece → Nat) (later : List DebugPiece) : Nat → List DebugPiece → Prop
  | _, [] => True
  | padding, p :: ps =>
    (p.size ≠ 0 → p.isDebug ∧ padding = 0 ∧ ∀ x ∈ ps ++ later, x.size ≠ 0 → p.part ≤ x.part) ∧
      TightGroup room later (padding + (room p - p.size)) ps

def TightGroups (room : DebugPiece → Nat) : List (List DebugPiece) → Prop
  | [] => True
  | ps :: pieces => TightGroup room pieces.flatten 0 ps ∧ TightGroups room pieces

theorem roomBelow_eq_zero_iff (hsize : ∀ p, p.size ≤ room p) (hempty : ∀ p, p.size = 0 → room p = 0) (k : Nat) :
    roomBelow room ps k = 0 ↔ ∀ x ∈ ps, x.size ≠ 0 → k ≤ x.part := by
  unfold roomBelow
  rw [List.sum_eq_zero_iff_forall_eq_nat]
  simp only [List.mem_map, List.mem_filter, decide_eq_true_eq, forall_exists_index, and_imp]
  constructor
  · intro h x hx hne
    by_contra hlt
    have := h _ x hx (Nat.lt_of_not_le hlt) rfl
    have := hsize x
    omega
  · rintro h _ x hx hlt rfl
    by_contra hne
    have := h x hx fun hzero => hne (hempty x hzero)
    omega

/-- An empty piece changes nothing. -/
theorem advance_empty (hempty : ∀ p, p.size = 0 → room p = 0) (hp : p.size = 0) :
    advance room places p = places := by
  unfold advance
  rw [hempty p hp, Nat.add_zero, Function.update_eq_self]

variable {reached : Nat}

/-- A piece that takes the next place keeps the others ahead. -/
theorem Ahead.step (h : Ahead room places reached (p :: ps)) (hne : p.size ≠ 0)
    (hfirst : ∀ x ∈ ps, x.size ≠ 0 → p.part ≤ x.part) (hzero : roomBelow room ps p.part = 0) :
    Ahead room (advance room places p) (reached + room p) ps := by
  intro x hx hxne
  have hpx := hfirst x hx hxne
  have hplace := h x (List.mem_cons_of_mem _ hx) hxne
  have hpplace := h p (List.mem_cons_self ..) hne
  rw [roomBelow_cons] at hplace hpplace
  rw [if_neg (Nat.lt_irrefl _), hzero] at hpplace
  unfold advance
  by_cases heq : x.part = p.part
  · rw [heq, Function.update_self, hpplace, hzero]
    omega
  · rw [if_pos (by omega)] at hplace
    rw [Function.update_of_ne heq, hplace, Nat.add_assoc]

theorem Ahead.skip (hempty : ∀ p, p.size = 0 → room p = 0) (h : Ahead room places reached (p :: ps)) (hp : p.size = 0) :
    Ahead room places reached ps := by
  intro x hx hxne
  have hplace := h x (List.mem_cons_of_mem _ hx) hxne
  rw [roomBelow_cons, hempty p hp] at hplace
  simpa using hplace

/-- The pieces of a group agree when the group is tight, and then the later groups are still ahead. -/
theorem agrees_iff (hsize : ∀ p, p.size ≤ room p) (hempty : ∀ p, p.size = 0 → room p = 0)
    (h : Ahead room places reached (ps ++ later)) (hcur : cur + padding = reached) :
    (Agrees room places cur ps ↔ TightGroup room later padding ps) ∧
      (TightGroup room later padding ps →
        Ahead room (ps.foldl (advance room) places) (reached + totalRoom room ps) later) := by
  induction ps generalizing places cur padding reached with
  | nil => exact ⟨Iff.rfl, fun _ => h⟩
  | cons p ps ih =>
    rw [List.cons_append] at h
    have htotal : reached + totalRoom room (p :: ps) = reached + room p + totalRoom room ps := by
      rw [totalRoom, List.map_cons, List.sum_cons, totalRoom, Nat.add_assoc]
    rw [Agrees, TightGroup, List.foldl_cons, htotal]
    by_cases hp : p.size = 0
    · -- An empty piece is passed over by both.
      have hroom := hempty p hp
      have hstop : debugStop cur p = cur := by
        unfold debugStop
        rw [hp, Nat.add_zero, ite_self]
      obtain ⟨hiff, hnext⟩ := ih (h.skip hempty hp) hcur
      rw [advance_empty hempty hp, hstop, hroom, hp, Nat.sub_zero, Nat.add_zero, Nat.add_zero]
      refine ⟨and_congr ⟨fun _ hne => absurd rfl hne, fun _ hne => absurd rfl hne⟩ hiff, fun ht => hnext ht.2⟩
    · have hplace := h p (List.mem_cons_self ..) hp
      rw [roomBelow_cons, if_neg (Nat.lt_irrefl _), Nat.zero_add] at hplace
      have hzero := @roomBelow_eq_zero_iff room (ps ++ later) hsize hempty p.part
      have hle := hsize p
      have hhead : (p.size ≠ 0 → p.isDebug ∧ places p.part = cur) ↔
          (p.size ≠ 0 → p.isDebug ∧ padding = 0 ∧ ∀ x ∈ ps ++ later, x.size ≠ 0 → p.part ≤ x.part) := by
        refine imp_congr_right fun _ => and_congr_right fun _ => ?_
        rw [← hzero]
        omega
      rw [hhead]
      have hrest : (p.size ≠ 0 → p.isDebug ∧ padding = 0 ∧ ∀ x ∈ ps ++ later, x.size ≠ 0 → p.part ≤ x.part) →
          (Agrees room (advance room places p) (debugStop cur p) ps ↔
              TightGroup room later (padding + (room p - p.size)) ps) ∧
            (TightGroup room later (padding + (room p - p.size)) ps →
              Ahead room (ps.foldl (advance room) (advance room places p))
                (reached + room p + totalRoom room ps) later) := by
        intro hp'
        obtain ⟨hdebug, hpad, hfirst⟩ := hp' hp
        refine ih (h.step hp hfirst (hzero.mpr hfirst)) ?_
        rw [debugStop, if_pos hdebug]
        omega
      exact ⟨and_congr_right fun hp' => (hrest hp').1, fun ht => (hrest ht.1).2 ht.2⟩

theorem agreesGroups_iff (hsize : ∀ p, p.size ≤ room p) (hempty : ∀ p, p.size = 0 → room p = 0)
    (h : Ahead room places start pieces.flatten) : AgreesGroups room places start pieces ↔ TightGroups room pieces := by
  induction pieces generalizing places start with
  | nil => exact Iff.rfl
  | cons ps pieces ih =>
    obtain ⟨hiff, hnext⟩ := agrees_iff hsize hempty h (Nat.add_zero start)
    rw [AgreesGroups, TightGroups, hiff]
    exact and_congr_right fun ht => ih (hnext ht)

/-! ## The condition on all pieces -/

/-- The pieces that are not empty. -/
def nonempty (ps : List DebugPiece) : List DebugPiece := ps.filter (·.size ≠ 0)

/-- The pieces of the groups lie tight. -/
structure PiecesTight (room : DebugPiece → Nat) (pieces : List (List DebugPiece)) : Prop where
  /-- Only debug inputs have contents. -/
  debug : ∀ p ∈ nonempty pieces.flatten, p.isDebug
  /-- The pieces of all groups are in the order of their parts. -/
  sorted : (nonempty pieces.flatten).Pairwise (·.part ≤ ·.part)
  /-- Only the last piece of a group is padded. -/
  full : ∀ ps ∈ pieces, ∀ p ∈ (nonempty ps).dropLast, room p = p.size

instance (room : DebugPiece → Nat) (pieces : List (List DebugPiece)) : Decidable (PiecesTight room pieces) :=
  decidable_of_iff ((∀ p ∈ nonempty pieces.flatten, p.isDebug) ∧
      (nonempty pieces.flatten).Pairwise (·.part ≤ ·.part) ∧
      ∀ ps ∈ pieces, ∀ p ∈ (nonempty ps).dropLast, room p = p.size)
    ⟨fun ⟨h₁, h₂, h₃⟩ => ⟨h₁, h₂, h₃⟩, fun ⟨h₁, h₂, h₃⟩ => ⟨h₁, h₂, h₃⟩⟩

theorem mem_nonempty : p ∈ nonempty ps ↔ p ∈ ps ∧ p.size ≠ 0 := by simp [nonempty]

theorem nonempty_append (ps qs : List DebugPiece) : nonempty (ps ++ qs) = nonempty ps ++ nonempty qs :=
  List.filter_append ..

theorem tightGroup_iff (hsize : ∀ p, p.size ≤ room p) (hempty : ∀ p, p.size = 0 → room p = 0) :
    TightGroup room later padding ps ↔
      (nonempty ps ≠ [] → padding = 0) ∧ (∀ p ∈ nonempty ps, p.isDebug) ∧
        (nonempty ps).Pairwise (·.part ≤ ·.part) ∧
        (∀ p ∈ nonempty ps, ∀ x ∈ nonempty later, p.part ≤ x.part) ∧
        ∀ p ∈ (nonempty ps).dropLast, room p = p.size := by
  induction ps generalizing padding with
  | nil => simp [TightGroup, nonempty]
  | cons p ps ih =>
    have hle := hsize p
    rw [TightGroup, ih]
    by_cases hp : p.size = 0
    · have hskip : nonempty (p :: ps) = nonempty ps := by simp [nonempty, hp]
      rw [hskip, hempty p hp, Nat.zero_sub, Nat.add_zero]
      exact and_iff_right fun hne => absurd hp hne
    · have hcons : nonempty (p :: ps) = p :: nonempty ps := by simp [nonempty, hp]
      -- The piece in front is not the last one when there are others.
      have hlast : (∀ x ∈ (p :: nonempty ps).dropLast, room x = x.size) ↔
          (nonempty ps ≠ [] → room p = p.size) ∧ ∀ x ∈ (nonempty ps).dropLast, room x = x.size := by
        cases nonempty ps with
        | nil => simp
        | cons q qs => rw [List.dropLast_cons_cons]; simp
      have hbehind : (∀ x ∈ ps ++ later, x.size ≠ 0 → p.part ≤ x.part) ↔
          (∀ x ∈ nonempty ps, p.part ≤ x.part) ∧ ∀ x ∈ nonempty later, p.part ≤ x.part := by
        rw [← List.forall_mem_append, ← nonempty_append]
        simp [mem_nonempty]
      rw [hcons, hlast, hbehind, List.pairwise_cons, List.forall_mem_cons, List.forall_mem_cons]
      constructor
      · rintro ⟨hhead, hpad, hdebug, hsorted, hbefore, hfull⟩
        obtain ⟨hpdebug, rfl, hfirst, hlater⟩ := hhead hp
        exact ⟨fun _ => rfl, ⟨hpdebug, hdebug⟩, ⟨hfirst, hsorted⟩, ⟨hlater, hbefore⟩,
          fun hne => by have := hpad hne; omega, hfull⟩
      · rintro ⟨hpad, ⟨hpdebug, hdebug⟩, ⟨hfirst, hsorted⟩, ⟨hlater, hbefore⟩, hproom, hfull⟩
        have hzero := hpad (List.cons_ne_nil _ _)
        exact ⟨fun _ => ⟨hpdebug, hzero, hfirst, hlater⟩, fun hne => by have := hproom hne; omega, hdebug,
          hsorted, hbefore, hfull⟩

/-- Tight groups, in terms of all pieces. -/
theorem tightGroups_iff (hsize : ∀ p, p.size ≤ room p) (hempty : ∀ p, p.size = 0 → room p = 0) :
    TightGroups room pieces ↔ PiecesTight room pieces := by
  induction pieces with
  | nil => exact ⟨fun _ => ⟨by simp [nonempty], by simp [nonempty], by simp⟩, fun _ => trivial⟩
  | cons ps pieces ih =>
    rw [TightGroups, tightGroup_iff hsize hempty, ih]
    constructor
    · rintro ⟨⟨-, hdebug, hsorted, hbefore, hfull⟩, hrest⟩
      refine ⟨?_, ?_, ?_⟩
      · rw [List.flatten_cons, nonempty_append]
        exact List.forall_mem_append.mpr ⟨hdebug, hrest.debug⟩
      · rw [List.flatten_cons, nonempty_append]
        exact List.pairwise_append.mpr ⟨hsorted, hrest.sorted, hbefore⟩
      · exact List.forall_mem_cons.mpr ⟨hfull, hrest.full⟩
    · rintro ⟨hdebug, hsorted, hfull⟩
      rw [List.flatten_cons, nonempty_append] at hdebug hsorted
      obtain ⟨hdebug, hdebug'⟩ := List.forall_mem_append.mp hdebug
      obtain ⟨hsorted, hsorted', hbefore⟩ := List.pairwise_append.mp hsorted
      obtain ⟨hfull, hfull'⟩ := List.forall_mem_cons.mp hfull
      exact ⟨⟨fun _ => rfl, hdebug, hsorted, hbefore, hfull⟩, hdebug', hsorted', hfull'⟩

end

end Reld

/-!
# The parts of a debug section in the file

The room of an input section is a multiple of the alignment of its part, so the parts of a debug section lie
one behind the other without gaps (`SectionSized.divides`). A part then starts behind the room of the parts
before it (`SectionSized.part_start`), and the section has exactly the room of its pieces
(`SectionSized.fileSize_eq`).
-/

open Writes

namespace Reld

open LayoutContext

section

variable {ctx : LayoutContext} {layout : LayoutState} {b : OutputBuffers} {s : DebugSection}
  {id : OutputSectionId}

/-! ## The buffers of the parts -/

/-- A section whose sizes suit its alignments has its buffers at the places of the records. -/
theorem splitOutput_parts (h : ctx.computeLayoutSections = .ok layout) (hb : splitOutput ctx layout = some b)
    (hid : id ∈ orderedIds ctx.outputOrder)
    (hdiv : ctx.targetHasData id = true → Blocks.Divides 0 (ctx.partBlocks id)) :
    ∀ q ∈ layout.records id, b.parts id q.1 = ⟨q.2.fileOffset, q.2.fileSize⟩ := by
  have hfp := computeLayoutSections_filePlaced h
  obtain ⟨sections, hsections, hsec⟩ := splitOutputIntoSections_spec hfp.disjoint
  rw [splitOutput, hsections, Option.bind_some] at hb
  obtain ⟨parts, hparts, hb⟩ := Option.bind_eq_some_iff.mp hb
  obtain ⟨groups, -, rfl⟩ := Option.map_eq_some_iff.mp hb
  obtain ⟨b', hrun, rfl⟩ := Option.map_eq_some_iff.mp hparts
  have hcount : ∀ id ∈ orderedIds ctx.outputOrder,
      (orderedIds ctx.outputOrder).count id * takenBytes layout.records id ≤
        (layout.sectionLayouts id).fileSize := fun id hid => by
    have := le_of_splitSectionsByAlignment hrun id
    simp only at this
    rwa [hsec id (hfp.placed id hid).1] at this
  obtain ⟨parts, hparts', hpos, -⟩ := splitBuffersByAlignment_spec hfp hsec hcount
  obtain rfl : b'.parts = parts := Option.some.inj (hparts.symm.trans hparts')
  obtain ⟨-, p, stop, hplaced⟩ := hfp.placed id hid
  -- The bytes of one visit fill the section, so another visit has nothing to take.
  have hfull : takenBytes layout.records id = (layout.sectionLayouts id).fileSize :=
    hplaced.sum_eq (hplaced.packed_iff.mpr hdiv)
  have hzero : ((orderedIds ctx.outputOrder).count id - 1) * takenBytes layout.records id = 0 := by
    have := hcount id hid
    rw [Nat.sub_mul, Nat.one_mul]
    omega
  obtain ⟨old, hold⟩ := hpos id hid
  intro q hq
  simp only [hold]
  exact (partSlices_iff hplaced.nodup_keys _ old).mpr ((packed_start_iff hplaced _).mpr ⟨hzero, hdiv⟩) q hq

theorem splitOutput_groups (hb : splitOutput ctx layout = some b) :
    splitOutputByGroup ctx.outputSections.sectionInfos.length
      (ctx.groupSizes.map (computeFileSizes ctx.outputSections)) b.parts = some b.groups := by
  obtain ⟨sections, -, hb⟩ := Option.bind_eq_some_iff.mp hb
  obtain ⟨parts, -, hb⟩ := Option.bind_eq_some_iff.mp hb
  obtain ⟨groups, hgroups, rfl⟩ := Option.map_eq_some_iff.mp hb
  exact hgroups

/-! ## Records -/

theorem LayoutContext.PartsPlaced.exists_part {p stop : Nat} {parts : List (Nat × Nat)}
    {records : List (Nat × OutputRecordLayout)} (h : PartsPlaced ctx id p parts records stop)
    {q : Nat × OutputRecordLayout} (hq : q ∈ records) :
    ∃ part ∈ parts, ∃ p, part.1 = q.1 ∧ PartPlaced ctx id part p q.2 := by
  induction h with
  | nil p => cases hq
  | @cons p stop part parts r records head tail ih =>
    rcases List.mem_cons.mp hq with rfl | hq
    · exact ⟨part, List.mem_cons_self .., p, rfl, head⟩
    · obtain ⟨part', hpart', hrest⟩ := ih hq
      exact ⟨part', List.mem_cons_of_mem _ hpart', hrest⟩

theorem size_of_visited {part : Nat × Nat} (h : part ∈ ctx.visitedParts id) :
    ctx.sizes.get id part.1 = part.2 := by
  unfold visitedParts at h
  split at h
  · rename_i hnil
    obtain rfl := List.mem_singleton.mp h
    have hzero : 0 < numParts id := by
      unfold numParts
      split <;> decide
    cases hentry : ctx.sizes.entry id 0 with
    | none => simp [PartMap.get, hentry]
    | some v => exact absurd (PartMap.mem_inRange.mpr ⟨hzero, hentry⟩) (hnil ▸ List.not_mem_nil)
  · exact PartMap.get_eq_of_entry (PartMap.mem_inRange.mp h).2

variable {part : Nat}

theorem visited_of_entry (hpart : part < numParts id) (h : (ctx.sizes.entry id part).isSome) :
    part ∈ (ctx.visitedParts id).map (·.1) := by
  obtain ⟨v, hv⟩ := Option.isSome_iff_exists.mp h
  have hmem := PartMap.mem_inRange.mpr ⟨hpart, hv⟩
  unfold visitedParts
  rw [if_neg (List.ne_nil_of_mem hmem)]
  exact List.mem_map.mpr ⟨_, hmem, rfl⟩

/-- The file size of a part is the size that was counted, for sections that are not allocated. -/
theorem fileSize_partLayout (hfp : FilePlaced ctx (orderedIds ctx.outputOrder) layout)
    (hid : id ∈ orderedIds ctx.outputOrder) (hrelro : id ≠ relroPadding) (halloc : ctx.targetIsAlloc id = false)
    (hpart : part < numParts id) :
    (partLayout (layout.records id) part).fileSize = ctx.sizes.get id part := by
  obtain ⟨-, p, stop, hsec⟩ := hfp.placed id hid
  by_cases hmem : part ∈ (layout.records id).map (·.1)
  · obtain ⟨q, hq, rfl⟩ := List.mem_map.mp hmem
    obtain ⟨v, hv, _, heq, hplaced⟩ := hsec.parts.exists_part hq
    rw [partLayout_eq hsec.nodup_keys hq, hplaced.fileSize, halloc, Bool.false_and, if_neg Bool.false_ne_true,
      hplaced.memSize hrelro, ← size_of_visited hv, heq]
  · have hzero : ctx.sizes.get id part = 0 := by
      cases hentry : ctx.sizes.entry id part with
      | none => simp [PartMap.get, hentry]
      | some v =>
        refine absurd ?_ hmem
        rw [hsec.parts.map_fst]
        exact visited_of_entry hpart (by rw [hentry]; rfl)
    have hdefault : layout.recordOf id part = {} := recordOf_eq_default hmem
    rw [hzero]
    exact congrArg OutputRecordLayout.fileSize hdefault

/-! ## Debug sections -/

theorem debugSection_mem (hfp : FilePlaced ctx (orderedIds ctx.outputOrder) layout)
    (h : isDebugSection ctx layout id) : id ∈ orderedIds ctx.outputOrder := by
  by_contra hid
  have hsize := (debugSection_spec h).2.2
  rw [(hfp.untouched id hid).2] at hsize
  exact Nat.lt_irrefl _ hsize

/-- The room of a piece is a multiple of the alignment of its part. -/
theorem room_dvd (hid : numBuiltInSections ≤ id) (p : DebugPiece) :
    (partAlignment ctx.minAlignment id p.part).value ∣ p.room ctx id := by
  have hregular : ¬id < regularSectionBase := Nat.not_lt.mpr (Nat.le_trans (by decide) hid)
  cases p with
  | merged len =>
    have hmin : partAlignment ctx.minAlignment id (partWithAlignment 0) = 0 := by
      unfold partAlignment
      rw [if_neg hregular]
      rfl
    simp only [DebugPiece.part, hmin]
    exact Nat.one_dvd _
  | input sec =>
    have hpack : shouldPack id = false := by
      have hinit : initSection < id := Nat.lt_of_lt_of_le (by decide) hid
      have hfini : finiSection < id := Nat.lt_of_lt_of_le (by decide) hid
      simp [shouldPack, Nat.ne_of_gt hinit, Nat.ne_of_gt hfini]
    simp only [DebugPiece.part, DebugPiece.room, capacity, hpack, Bool.false_eq_true, if_false]
    exact Alignment.value_dvd_alignUp _ _

theorem partRoom_dvd (hid : numBuiltInSections ≤ id) (ps : List DebugPiece) (k : Nat) :
    (partAlignment ctx.minAlignment id k).value ∣ partRoom (DebugPiece.room ctx id) ps k := by
  have hall : ∀ x ∈ (ps.filter (·.part = k)).map (DebugPiece.room ctx id),
      (partAlignment ctx.minAlignment id k).value ∣ x := by
    intro x hx
    obtain ⟨p, hp, rfl⟩ := List.mem_map.mp hx
    obtain rfl : p.part = k := of_decide_eq_true (List.mem_filter.mp hp).2
    exact room_dvd hid p
  exact List.dvd_sum hall

variable {pieces : List (List DebugPiece)}

/-- The groups together counted the room of all pieces. -/
theorem sum_counted {sizes : List (PartMap Nat)} (h : List.Forall₂ (GroupSized ctx id) pieces sizes)
    (hpart : part < numParts id) :
    (sizes.map (·.get id part)).sum = partRoom (DebugPiece.room ctx id) pieces.flatten part := by
  induction h with
  | nil => rfl
  | cons hps _ ih =>
    rw [List.map_cons, List.sum_cons, ih, hps.counted part hpart, List.flatten_cons, partRoom_append]

theorem entry_foldl_merge (groups : List (PartMap Nat)) (m : PartMap Nat) (part : Nat) :
    ((groups.foldl PartMap.merge m).entry id part).isSome ↔
      (m.entry id part).isSome ∨ ∃ g ∈ groups, (g.entry id part).isSome := by
  induction groups generalizing m with
  | nil => simp
  | cons g groups ih =>
    rw [List.foldl_cons, ih, PartMap.entry_merge_isSome, or_assoc, List.exists_mem_cons_iff]

/-- The parts of the pieces were counted. -/
theorem entry_of_sized {sizes : List (PartMap Nat)} (h : List.Forall₂ (GroupSized ctx id) pieces sizes) :
    ∀ p ∈ pieces.flatten, ∃ g ∈ sizes, (g.entry id p.part).isSome := by
  induction h with
  | nil => exact fun p hp => absurd hp List.not_mem_nil
  | cons hps _ ih =>
    intro p hp
    rcases List.mem_append.mp hp with hp | hp
    · exact ⟨_, List.mem_cons_self .., (hps.entries p hp).2⟩
    · obtain ⟨g, hg, hentry⟩ := ih p hp
      exact ⟨g, List.mem_cons_of_mem _ hg, hentry⟩

namespace SectionSized

theorem get_sizes (h : SectionSized ctx s) {part : Nat} (hpart : part < numParts s.id) :
    ctx.sizes.get s.id part = partRoom (DebugPiece.room ctx s.id) s.pieces.flatten part := by
  rw [sizes, get_totalSizes, sum_counted h.groups hpart]

/-- The sizes before each part suit its alignment: they are multiples of larger alignments. -/
theorem divides (h : SectionSized ctx s) : Blocks.Divides 0 (ctx.partBlocks s.id) := by
  refine Blocks.divides_of_pairwise (fun _ _ => Nat.dvd_zero _) (List.pairwise_map.mpr ?_)
  refine (pairwise_visitedParts ctx s.id).imp_of_mem fun {x y} hx _ hxy => ?_
  rw [← size_of_visited hx, h.get_sizes (lt_numParts_of_visited hx)]
  have hle : ctx.cappedAlignment s.id y.1 ≤ partAlignment ctx.minAlignment s.id x.1 :=
    Nat.le_trans (Nat.min_le_left _ _) (partAlignment_anti (Nat.le_of_lt hxy))
  exact Nat.dvd_trans (Alignment.value_dvd hle) (partRoom_dvd h.custom _ _)

/-- The bytes of the parts before the `k`th. -/
theorem partBytes_eq (h : SectionSized ctx s) (hfp : FilePlaced ctx (orderedIds ctx.outputOrder) layout)
    (hdebug : isDebugSection ctx layout s.id) {k : Nat} (hk : k ≤ numParts s.id) :
    partBytes (layout.records s.id) (List.range k) =
      roomBelow (DebugPiece.room ctx s.id) s.pieces.flatten k := by
  have hrelro : s.id ≠ relroPadding := Nat.ne_of_gt (Nat.lt_of_lt_of_le (by decide) h.custom)
  rw [← sum_partRoom, partBytes]
  refine congrArg List.sum (List.map_congr_left fun part hpart => ?_)
  have hpart := Nat.lt_of_lt_of_le (List.mem_range.mp hpart) hk
  rw [fileSize_partLayout hfp (debugSection_mem hfp hdebug) hrelro (debugSection_spec hdebug).2.1 hpart,
    h.get_sizes hpart]

/-- **The section has the room of its pieces.** -/
theorem fileSize_eq (h : SectionSized ctx s) (hfp : FilePlaced ctx (orderedIds ctx.outputOrder) layout)
    (hdebug : isDebugSection ctx layout s.id) :
    (layout.sectionLayouts s.id).fileSize = totalRoom (DebugPiece.room ctx s.id) s.pieces.flatten := by
  obtain ⟨-, p, stop, hsec⟩ := hfp.placed s.id (debugSection_mem hfp hdebug)
  rw [← roomBelow_all (part_lt_of_sized h.groups), ← h.partBytes_eq hfp hdebug (Nat.le_refl _),
    partBytes_all hsec.nodup_keys (wellKeyed_of_filePlaced hfp s.id).2]
  exact (hsec.sum_eq (hsec.packed_iff.mpr fun _ => h.divides)).symm

/-- **The parts of the pieces** start behind the room of the parts before them. -/
theorem part_start (h : SectionSized ctx s) (hlayout : ctx.computeLayoutSections = .ok layout)
    (hb : splitOutput ctx layout = some b) (hdebug : isDebugSection ctx layout s.id) {p : DebugPiece}
    (hp : p ∈ s.pieces.flatten) :
    (b.parts s.id p.part).start = (layout.sectionLayouts s.id).fileOffset +
      roomBelow (DebugPiece.room ctx s.id) s.pieces.flatten p.part := by
  have hfp := computeLayoutSections_filePlaced hlayout
  have hid := debugSection_mem hfp hdebug
  obtain ⟨-, _, _, hsec⟩ := hfp.placed s.id hid
  have hpart := part_lt_of_sized h.groups p hp
  have hentry : (ctx.sizes.entry s.id p.part).isSome := by
    rw [sizes, totalSizes, entry_foldl_merge]
    exact .inr (entry_of_sized h.groups p hp)
  have hmem : p.part ∈ (layout.records s.id).map (·.1) := by
    rw [hsec.parts.map_fst]
    exact visited_of_entry hpart hentry
  obtain ⟨q, hq, hqpart⟩ := List.mem_map.mp hmem
  have hpacked := (packed_iff_partBytes (wellKeyed_of_filePlaced hfp s.id).1 _).mp
    (hsec.packed_iff.mpr fun _ => h.divides) q hq
  rw [← hqpart, splitOutput_parts hlayout hb hid (fun _ => h.divides) q hq, hpacked, hqpart,
    h.partBytes_eq hfp hdebug (Nat.le_of_lt hpart)]

end SectionSized

end

end Reld
