import Reld.EhFrame.Frames

/-!
# `EhFrame.Unwind` — what an unwinder finds

The writer takes its bytes and entries from the start of each group, and what it writes is known in advance
(`FrameWriter.advance`): an entry is the difference between the place of its frame, or the start of the range, and the
header. What an unwinder finds then depends on two more things: the pointer to `.eh_frame` is a difference of unsigned
addresses, and of frames with the same start the one that was written last is found (`unwindLookup_iff`).
-/

variable {relocations : List FrameRelocation} {entries : List FrameEntry} {hdrAddress : BitVec 64}

namespace Reld.EhFrame

variable {o : FrameObject} {c : FrameContext} {w : FrameWriter} {outs outs' : List FrameOut}

/-! ## The state of the writer -/

/-- The entry of the table for a frame in a buffer that starts at an address. -/
def entryFor (hdrAddress origin : BitVec 64) (kept : KeptFrame) : EhFrameHdrEntry where
  framePtr := (kept.start - hdrAddress).toInt
  frameInfoPtr := (origin + BitVec.ofNat 64 kept.position - hdrAddress).toInt

/-- The differences fit into the entry of the table. -/
structure InRange (hdrAddress origin : BitVec 64) (kept : KeptFrame) : Prop where
  start : -2 ^ 31 ≤ (kept.start - hdrAddress).toInt ∧ (kept.start - hdrAddress).toInt < 2 ^ 31
  position : -2 ^ 31 ≤ (origin + BitVec.ofNat 64 kept.position - hdrAddress).toInt ∧
    (origin + BitVec.ofNat 64 kept.position - hdrAddress).toInt < 2 ^ 31

namespace FrameWriter

/-- Where the buffer of the writer starts. -/
def origin (w : FrameWriter) : BitVec 64 := w.startAddress - BitVec.ofNat 64 w.taken

/-- The writer after it has written some bytes and frames. -/
def advance (hdrAddress : BitVec 64) (outs : List FrameOut) (w : FrameWriter) : FrameWriter where
  startAddress := w.startAddress + BitVec.ofNat 64 (total outs)
  hdrLeft := w.hdrLeft - frameCount outs
  ehFrameLeft := w.ehFrameLeft - total outs
  taken := w.taken + total outs
  entries := w.entries ++ (placed w.taken outs).map (entryFor hdrAddress w.origin)
  kept := w.kept ++ placed w.taken outs

/-- There is room, and no difference overflows. -/
structure Fits (hdrAddress : BitVec 64) (outs : List FrameOut) (w : FrameWriter) : Prop where
  hdrLeft : frameCount outs ≤ w.hdrLeft
  ehFrameLeft : total outs ≤ w.ehFrameLeft
  inRange : ∀ kept ∈ placed w.taken outs, InRange hdrAddress w.origin kept

theorem origin_advance (hdrAddress : BitVec 64) (outs : List FrameOut) (w : FrameWriter) :
    (w.advance hdrAddress outs).origin = w.origin := by
  unfold origin advance
  rw [BitVec.ofNat_add]
  bv_omega

theorem advance_nil (hdrAddress : BitVec 64) (w : FrameWriter) : w.advance hdrAddress [] = w := by
  unfold advance
  simp [placed, frameCount]

theorem advance_append (hdrAddress : BitVec 64) (outs outs' : List FrameOut) (w : FrameWriter) :
    w.advance hdrAddress (outs ++ outs') = (w.advance hdrAddress outs).advance hdrAddress outs' := by
  conv_rhs => rw [advance, origin_advance]
  dsimp only [advance]
  simp only [total_append, frameCount_append, placed_append, List.map_append, List.append_assoc, BitVec.ofNat_add,
    BitVec.add_assoc, Nat.sub_sub, Nat.add_assoc]

theorem Fits.front (h : w.Fits hdrAddress (outs ++ outs')) : w.Fits hdrAddress outs where
  hdrLeft := Nat.le_trans (by rw [frameCount_append]; exact Nat.le_add_right _ _) h.hdrLeft
  ehFrameLeft := Nat.le_trans (by rw [total_append]; exact Nat.le_add_right _ _) h.ehFrameLeft
  inRange kept hkept := h.inRange kept (by rw [placed_append]; exact List.mem_append_left _ hkept)

theorem Fits.behind (h : w.Fits hdrAddress (outs ++ outs')) : (w.advance hdrAddress outs).Fits hdrAddress outs' where
  hdrLeft := by
    have hle := h.hdrLeft
    rw [frameCount_append] at hle
    exact Nat.le_sub_of_add_le' hle
  ehFrameLeft := by
    have hle := h.ehFrameLeft
    rw [total_append] at hle
    exact Nat.le_sub_of_add_le' hle
  inRange kept hkept := by
    rw [origin_advance]
    apply h.inRange kept
    rw [placed_append]
    exact List.mem_append_right _ hkept

theorem origin_add_taken (w : FrameWriter) : w.origin + BitVec.ofNat 64 w.taken = w.startAddress :=
  BitVec.sub_add_cancel _ _

theorem takeEhFrameData_eq {size : Nat} (h : size ≤ w.ehFrameLeft) :
    w.takeEhFrameData size = .ok { w with ehFrameLeft := w.ehFrameLeft - size, taken := w.taken + size } := by
  unfold takeEhFrameData
  rw [if_neg (Nat.not_lt_of_le h)]

theorem tryI32_eq {value : Int} {error : FrameError} (h : -2 ^ 31 ≤ value ∧ value < 2 ^ 31) : tryI32 value error = .ok value := by
  unfold tryI32
  rw [if_pos h]

/-- The writer at an output position of its section. -/
def atPos (w : FrameWriter) (outputPos : Nat) : FrameWriter :=
  { w with startAddress := w.startAddress + BitVec.ofNat 64 outputPos }

/-- The writer with the address that its section starts at. -/
def startingAt (w : FrameWriter) (startAddress : BitVec 64) : FrameWriter := { w with startAddress }

theorem advance_entry (hdrAddress : BitVec 64) (w : FrameWriter) (size outputPos : Nat) :
    (w.atPos outputPos).advance hdrAddress [{ size }] =
      { w with ehFrameLeft := w.ehFrameLeft - size, taken := w.taken + size }.atPos (outputPos + size) := by
  unfold advance atPos
  simp only [placed, Option.map_none, Option.toList_none, List.map_nil, List.append_nil, total_cons, total_nil, Nat.add_zero,
    BitVec.ofNat_add, BitVec.add_assoc]
  rfl

theorem advance_frame (hdrAddress start : BitVec 64) (w : FrameWriter) (size outputPos : Nat) :
    (w.atPos outputPos).advance hdrAddress [{ size, start := some start }] =
      ({ w with hdrLeft := w.hdrLeft - 1, ehFrameLeft := w.ehFrameLeft - size, taken := w.taken + size,
                entries := w.entries ++ [entryFor hdrAddress (w.atPos outputPos).origin ⟨start, w.taken⟩],
                kept := w.kept ++ [{ start, position := w.taken }] } : FrameWriter).atPos (outputPos + size) := by
  unfold advance atPos
  simp only [total_cons, total_nil, Nat.add_zero, BitVec.ofNat_add, BitVec.add_assoc]
  rfl

/-- What is written of a frame. -/
theorem putHdrEntry_eq {start : BitVec 64} {size outputPos : Nat}
    (h : (w.atPos outputPos).Fits c.hdrAddress [{ size, start := some start }]) :
    w.putHdrEntry c.hdrAddress start (w.startAddress + BitVec.ofNat 64 outputPos) =
      .ok { w with hdrLeft := w.hdrLeft - 1,
                   entries := w.entries ++ [entryFor c.hdrAddress (w.atPos outputPos).origin ⟨start, w.taken⟩] } := by
  have hleft : ¬ w.hdrLeft = 0 := Nat.one_le_iff_ne_zero.1 h.hdrLeft
  have hrange := h.inRange ⟨start, w.taken⟩ List.mem_cons_self
  have hplace := (w.atPos outputPos).origin_add_taken
  have hposition := hrange.position
  unfold entryFor
  rw [show (w.atPos outputPos).taken = w.taken from rfl] at hplace
  rw [hplace] at hposition ⊢
  unfold putHdrEntry
  rw [if_neg hleft, tryI32_eq hrange.start]
  show (tryI32 ((w.atPos outputPos).startAddress - c.hdrAddress).toInt _ >>= _) = _
  rw [tryI32_eq hposition]
  rfl

end FrameWriter

open FrameWriter

theorem applyRelocations_eq {address : BitVec 64} (h : ∀ r ∈ relocations, ∀ address, c.applies r address = true) :
    applyRelocations c address relocations = .ok () := by
  unfold applyRelocations
  rw [if_pos (List.all_eq_true.2 fun r hr => h r hr address)]

theorem inputCiePos_eq {entry : FrameEntry} (h : entry.cieId ≤ entry.pos + 4) :
    inputCiePos entry = .ok (entry.pos + 4 - entry.cieId) := by
  unfold inputCiePos
  rw [if_neg (Nat.not_lt_of_le h)]

theorem lookup_isSome {place : Nat} {cies : List (Nat × Nat)} (h : place ∈ cies.map (·.1)) : (cies.lookup place).isSome := by
  obtain ⟨cie, hcie, rfl⟩ := List.mem_map.1 h
  exact List.lookup_isSome_iff.2 ⟨cie, hcie, beq_self_eq_true _⟩

/-- **The entries of a section are written where they are expected.** -/
theorem writeEntries_eq {cies : List (Nat × Nat)} {outputPos : Nat}
    (hwell : WellFormedEntries o entries relocations (cies.map (·.1)))
    (happlies : ∀ r ∈ relocations, ∀ address, c.applies r address = true)
    (hfits : (w.atPos outputPos).Fits c.hdrAddress (frameOutputs o entries relocations)) :
    writeEntries c o entries relocations cies outputPos w =
      .ok (outputPos + total (frameOutputs o entries relocations),
        ((w.atPos outputPos).advance c.hdrAddress (frameOutputs o entries relocations)).startingAt w.startAddress) := by
  induction entries generalizing relocations cies outputPos w with
  | nil =>
    rw [writeEntries, frameOutputs, advance_nil]
    rfl
  | cons entry entries ih =>
    have hown : ∀ r ∈ entry.own relocations, ∀ address, c.applies r address = true :=
      fun r hr => happlies r ((List.takeWhile_sublist _).mem hr)
    have hbehind : ∀ r ∈ entry.behind relocations, ∀ address, c.applies r address = true :=
      fun r hr => happlies r ((List.dropWhile_sublist _).mem hr)
    -- behind an entry the writer is where it is expected to be
    have hstep : ∀ (out : FrameOut) (cies' : List (Nat × Nat)) (w' : FrameWriter),
        w'.atPos (outputPos + out.size) = (w.atPos outputPos).advance c.hdrAddress [out] → w'.startAddress = w.startAddress →
        WellFormedEntries o entries (entry.behind relocations) (cies'.map (·.1)) →
        (w.atPos outputPos).Fits c.hdrAddress (out :: frameOutputs o entries (entry.behind relocations)) →
        writeEntries c o entries (entry.behind relocations) cies' (outputPos + out.size) w' =
          .ok (outputPos + total (out :: frameOutputs o entries (entry.behind relocations)),
            ((w.atPos outputPos).advance c.hdrAddress (out :: frameOutputs o entries (entry.behind relocations))).startingAt
              w.startAddress) := by
      intro out cies' w' hw' hstart hrest hfits
      rw [ih hrest hbehind (by rw [hw']; exact hfits.behind), hw', ← advance_append, hstart, total_cons, Nat.add_assoc]
      rfl
    unfold WellFormedEntries at hwell
    unfold frameOutputs at hfits ⊢
    rw [writeEntries]
    by_cases hcie : entry.isCie = true
    · rw [if_pos hcie] at hwell hfits
      rw [if_pos hcie, if_pos hcie]
      have hroom : entry.size ≤ w.ehFrameLeft := Nat.le_trans (Nat.le_add_right _ _) hfits.ehFrameLeft
      rw [takeEhFrameData_eq hroom]
      show (applyRelocations c _ (entry.own relocations) >>= _) = _
      rw [applyRelocations_eq hown]
      refine hstep { size := entry.size } ((entry.pos, outputPos) :: cies) _ ?_ rfl hwell hfits
      exact (advance_entry _ _ _ _).symm
    · rw [if_neg hcie] at hwell hfits
      rw [if_neg hcie, if_neg hcie]
      rcases hwell.1.kept_iff with ⟨index, start, -, -, hkept⟩ | ⟨hkept, -⟩
      · rw [hkept] at hfits ⊢
        dsimp only at hfits
        have hroom : entry.size ≤ w.ehFrameLeft := Nat.le_trans (Nat.le_add_right _ _) hfits.ehFrameLeft
        have hfront := hfits
        have hcie := lookup_isSome hwell.1.cie
        show (inputCiePos entry >>= _) = _
        rw [inputCiePos_eq hwell.1.cieId]
        show (w.putHdrEntry c.hdrAddress start _ >>= _) = _
        rw [putHdrEntry_eq hfront.front]
        dsimp only [bind, Except.bind]
        rw [if_neg (by rw [Option.isNone_iff_eq_none]; exact Option.isSome_iff_ne_none.1 hcie), takeEhFrameData_eq]
        · dsimp only
          rw [applyRelocations_eq hown]
          refine hstep { size := entry.size, start := some start } cies _ ?_ rfl hwell.2 hfits
          exact (advance_frame _ _ _ _ _).symm
        · exact hroom
      · rw [hkept] at hfits ⊢
        exact ih hwell.2 hbehind hfits

theorem atPos_zero (w : FrameWriter) : w.atPos 0 = w := by
  unfold atPos
  rw [show BitVec.ofNat 64 0 = 0#64 from rfl, BitVec.add_zero]

/-- A section is written where it is expected. -/
theorem writeEhFrameData_eq {sec : FrameSection} (hwell : sec.WellFormed o)
    (happlies : ∀ r ∈ sec.relocations, ∀ address, c.applies r address = true) (hfits : w.Fits c.hdrAddress (sec.outputs o)) :
    writeEhFrameData c o w sec = .ok (w.advance c.hdrAddress (sec.outputs o)) := by
  obtain ⟨entries, stop, hentries, hwell⟩ := hwell
  unfold FrameSection.outputs at hfits ⊢
  rw [hentries] at hfits ⊢
  have hstart : (w.atPos 0).Fits c.hdrAddress (frameOutputs o entries sec.relocations) := by
    rw [atPos_zero]
    exact hfits.front
  have hwritten : writeEntries c o entries sec.relocations [] 0 w = _ := writeEntries_eq hwell happlies hstart
  have hroom := hfits.behind.ehFrameLeft
  unfold writeEhFrameData
  rw [hentries]
  show (writeEntries c o entries sec.relocations [] 0 w >>= _) = _
  rw [hwritten, atPos_zero, Nat.zero_add]
  have hbehind := advance_entry c.hdrAddress (w.advance c.hdrAddress (frameOutputs o entries sec.relocations))
    (remainingLength sec.data stop) 0
  rw [atPos_zero, Nat.zero_add] at hbehind
  rw [advance_append, hbehind]
  have haddress : (w.advance c.hdrAddress (frameOutputs o entries sec.relocations)).startAddress =
      w.startAddress + BitVec.ofNat 64 (total (frameOutputs o entries sec.relocations)) := rfl
  dsimp only [bind, Except.bind]
  by_cases hnone : remainingLength sec.data stop = 0
  · rw [if_pos hnone, hnone, Nat.add_zero, Nat.sub_zero, Nat.add_zero]
    unfold startingAt atPos
    rw [haddress, show BitVec.ofNat 64 0 = 0#64 from rfl, BitVec.add_zero]
    rfl
  · rw [if_neg hnone, takeEhFrameData_eq]
    · unfold startingAt atPos
      rw [haddress, BitVec.add_assoc, ← BitVec.ofNat_add]
      rfl
    · exact hroom

/-- Steps that each advance the writer, one after the other. -/
theorem foldlM_advance {α : Type} {step : FrameWriter → α → Except FrameError FrameWriter} {outputs : α → List FrameOut}
    {xs : List α}
    (hstep : ∀ x ∈ xs, ∀ w : FrameWriter, w.Fits hdrAddress (outputs x) → step w x = .ok (w.advance hdrAddress (outputs x)))
    (hfits : w.Fits hdrAddress (xs.flatMap outputs)) :
    xs.foldlM step w = .ok (w.advance hdrAddress (xs.flatMap outputs)) := by
  induction xs generalizing w with
  | nil =>
    rw [List.flatMap_nil, advance_nil]
    rfl
  | cons x xs ih =>
    rw [List.forall_mem_cons] at hstep
    rw [List.flatMap_cons] at hfits ⊢
    rw [List.foldlM_cons, hstep.1 w hfits.front, advance_append]
    exact ih hstep.2 hfits.behind

/-! ## Groups -/

/-- Input that an assembler makes, with relocations that can be applied. -/
structure FrameLink.WellFormed (link : FrameLink) : Prop where
  sections (g : FrameGroup) (hg : g ∈ link.groups) (o : FrameObject) (ho : o ∈ g.objects) (sec : FrameSection)
    (hsec : sec ∈ o.frameSections) : sec.WellFormed o
  applies (g : FrameGroup) (hg : g ∈ link.groups) (o : FrameObject) (ho : o ∈ g.objects) (sec : FrameSection)
    (hsec : sec ∈ o.frameSections) (r : FrameRelocation) (hr : r ∈ sec.relocations) (address : BitVec 64) :
    link.applies r address = true

def FrameGroup.room (g : FrameGroup) : FrameSizes := { numFrames := frameCount g.outputs, ehFrameSize := total g.outputs }

theorem placed_terminator (base : Nat) (g : FrameGroup) : placed base g.outputs = placed base (g.objects.flatMap (·.outputs)) := by
  unfold FrameGroup.outputs
  rw [placed_append]
  cases g.terminates <;> exact List.append_nil _

theorem writeObject_eq (hsections : ∀ sec ∈ o.frameSections, sec.WellFormed o)
    (happlies : ∀ sec ∈ o.frameSections, ∀ r ∈ sec.relocations, ∀ address, c.applies r address = true)
    (hfits : w.Fits c.hdrAddress o.outputs) :
    o.frameSections.foldlM (writeEhFrameData c o) w = .ok (w.advance c.hdrAddress o.outputs) := by
  have hstep : ∀ sec ∈ o.frameSections, ∀ w : FrameWriter, w.Fits c.hdrAddress (sec.outputs o) →
      writeEhFrameData c o w sec = .ok (w.advance c.hdrAddress (sec.outputs o)) :=
    fun sec hsec _ hfits => writeEhFrameData_eq (hsections sec hsec) (happlies sec hsec) hfits
  exact foldlM_advance hstep hfits

/-- The writer of a group in front of its objects. -/
def FrameGroup.writer (g : FrameGroup) (startAddress : BitVec 64) : FrameWriter :=
  { startAddress, hdrLeft := g.room.numFrames, ehFrameLeft := g.room.ehFrameSize }

/-- A group is written where it is expected, and nothing of its room is left. -/
theorem writeGroup_eq {g : FrameGroup} {startAddress : BitVec 64}
    (hsections : ∀ o ∈ g.objects, ∀ sec ∈ o.frameSections, sec.WellFormed o)
    (happlies : ∀ o ∈ g.objects, ∀ sec ∈ o.frameSections, ∀ r ∈ sec.relocations, ∀ address, c.applies r address = true)
    (hrange : ∀ kept ∈ placed 0 g.outputs, InRange c.hdrAddress startAddress kept) :
    ∃ w, writeGroup c g startAddress g.room = .ok w ∧
      w.entries = (placed 0 g.outputs).map (entryFor c.hdrAddress startAddress) ∧ w.kept = placed 0 g.outputs := by
  have hcount : frameCount g.outputs = frameCount (g.objects.flatMap (·.outputs)) := by
    rw [← length_placed 0, ← length_placed 0, placed_terminator]
  have hsize : total g.outputs = total (g.objects.flatMap (·.outputs)) + if g.terminates then 4 else 0 := by
    unfold FrameGroup.outputs
    rw [total_append]
    cases g.terminates <;> rfl
  have horigin : (g.writer startAddress).origin = startAddress := BitVec.sub_zero _
  have hfits : (g.writer startAddress).Fits c.hdrAddress (g.objects.flatMap (·.outputs)) := by
    refine ⟨Nat.le_of_eq hcount.symm, ?_, fun kept hkept => ?_⟩
    · show _ ≤ total g.outputs
      rw [hsize]
      exact Nat.le_add_right _ _
    · rw [horigin]
      apply hrange kept
      rw [placed_terminator]
      exact hkept
  have hwritten : g.objects.foldlM (fun w o => o.frameSections.foldlM (writeEhFrameData c o) w) (g.writer startAddress) =
      .ok ((g.writer startAddress).advance c.hdrAddress (g.objects.flatMap (·.outputs))) :=
    foldlM_advance (fun o ho w hfits => writeObject_eq (hsections o ho) (happlies o ho) hfits) hfits
  have hhdrLeft : ((g.writer startAddress).advance c.hdrAddress (g.objects.flatMap (·.outputs))).hdrLeft = 0 := by
    show frameCount g.outputs - _ = 0
    rw [hcount, Nat.sub_self]
  have hehFrameLeft : ((g.writer startAddress).advance c.hdrAddress (g.objects.flatMap (·.outputs))).ehFrameLeft =
      if g.terminates then 4 else 0 := by
    show total g.outputs - _ = _
    rw [hsize, Nat.add_sub_cancel_left]
  have hentries : ((g.writer startAddress).advance c.hdrAddress (g.objects.flatMap (·.outputs))).entries =
      (placed 0 g.outputs).map (entryFor c.hdrAddress startAddress) := by
    show [] ++ _ = _
    rw [List.nil_append, horigin, placed_terminator]
    rfl
  have hkept : ((g.writer startAddress).advance c.hdrAddress (g.objects.flatMap (·.outputs))).kept = placed 0 g.outputs := by
    show [] ++ _ = _
    rw [List.nil_append, placed_terminator]
    rfl
  show ∃ w, (g.objects.foldlM _ (g.writer startAddress) >>= _) = _ ∧ _
  rw [hwritten]
  dsimp only [bind, Except.bind]
  cases hterminates : g.terminates with
  | true =>
    rw [hterminates, if_pos rfl] at hehFrameLeft
    simp only [Bool.true_and, hehFrameLeft, Nat.le_refl, decide_true, if_true, Nat.sub_self, hhdrLeft, and_self]
    exact ⟨_, rfl, hentries, hkept⟩
  | false =>
    rw [hterminates, if_neg Bool.false_ne_true] at hehFrameLeft
    simp only [Bool.false_and, Bool.false_eq_true, if_false, hehFrameLeft, hhdrLeft, and_self, if_true]
    exact ⟨_, rfl, hentries, hkept⟩

theorem InRange.shift {hdrAddress origin : BitVec 64} {base : Nat} {kept : KeptFrame}
    (h : InRange hdrAddress origin { kept with position := base + kept.position }) :
    InRange hdrAddress (origin + BitVec.ofNat 64 base) kept := by
  obtain ⟨hstart, hposition⟩ := h
  refine ⟨hstart, ?_⟩
  rw [BitVec.add_assoc, ← BitVec.ofNat_add]
  exact hposition

theorem entryFor_shift (hdrAddress origin : BitVec 64) (base : Nat) (kept : KeptFrame) :
    entryFor hdrAddress (origin + BitVec.ofNat 64 base) kept =
      entryFor hdrAddress origin { kept with position := base + kept.position } := by
  unfold entryFor
  rw [BitVec.add_assoc, ← BitVec.ofNat_add]

/-- The groups are written one behind the other. -/
theorem writeGroups_eq {ehFrameAddress : BitVec 64} {groups : List FrameGroup} {base : Nat}
    (hsections : ∀ g ∈ groups, ∀ o ∈ g.objects, ∀ sec ∈ o.frameSections, sec.WellFormed o)
    (happlies : ∀ g ∈ groups, ∀ o ∈ g.objects, ∀ sec ∈ o.frameSections, ∀ r ∈ sec.relocations, ∀ address,
      c.applies r address = true)
    (hrange : ∀ kept ∈ placed base (groups.flatMap (·.outputs)), InRange c.hdrAddress ehFrameAddress kept) :
    ∃ writers, writeGroups c (groups.zip (groups.map (·.room))) (ehFrameAddress + BitVec.ofNat 64 base) = .ok writers ∧
      writers.flatMap (·.entries) =
        (placed base (groups.flatMap (·.outputs))).map (entryFor c.hdrAddress ehFrameAddress) ∧
      keptInSection ((groups.map (·.room)).zip writers) base = placed base (groups.flatMap (·.outputs)) := by
  induction groups generalizing base with
  | nil => exact ⟨[], rfl, rfl, rfl⟩
  | cons g groups ih =>
    rw [List.forall_mem_cons] at hsections happlies
    rw [List.flatMap_cons, placed_append] at hrange ⊢
    have hfront := placed_add base 0 g.outputs
    rw [Nat.add_zero] at hfront
    rw [hfront] at hrange ⊢
    rw [List.forall_mem_append] at hrange
    have hgroup : ∀ kept ∈ placed 0 g.outputs, InRange c.hdrAddress (ehFrameAddress + BitVec.ofNat 64 base) kept :=
      fun kept hkept => (hrange.1 _ (List.mem_map.2 ⟨kept, hkept, rfl⟩)).shift
    obtain ⟨w, hw, hentries, hkept⟩ := writeGroup_eq hsections.1 happlies.1 hgroup
    obtain ⟨writers, hwriters, hentries', hkept'⟩ := ih hsections.2 happlies.2 hrange.2
    refine ⟨w :: writers, ?_, ?_, ?_⟩
    · rw [List.map_cons, List.zip_cons_cons, writeGroups, hw]
      rw [BitVec.add_assoc, ← BitVec.ofNat_add, show base + g.room.ehFrameSize = base + total g.outputs from rfl, hwriters]
      rfl
    · rw [List.flatMap_cons, hentries, hentries', List.map_append, List.map_map]
      congr 1
      exact List.map_congr_left fun kept _ => entryFor_shift _ _ _ kept
    · rw [List.map_cons, List.zip_cons_cons, keptInSection, hkept]
      congr 1

/-! ## Addresses -/

def Near (a b : BitVec 64) : Prop := (a.toNat : Int) - b.toNat < 2 ^ 31 ∧ (b.toNat : Int) - a.toNat < 2 ^ 31

theorem Near.toInt_sub {a b : BitVec 64} (h : Near a b) : (a - b).toInt = (a.toNat : Int) - b.toNat := by
  obtain ⟨habove, hbelow⟩ := h
  rw [BitVec.toInt_eq_toNat_cond, BitVec.toNat_sub]
  split <;> omega

def FrameLink.outputs (link : FrameLink) : List FrameOut := link.groups.flatMap (·.outputs)

/-- The frames that are kept, in the order that they are written in, with their places in `.eh_frame`. -/
def FrameLink.kept (link : FrameLink) : List KeptFrame := placed 0 link.outputs

/-- `.eh_frame` and the code are less than 2 GiB away from `.eh_frame_hdr`. -/
structure FrameLink.Compact (link : FrameLink) : Prop where
  ehFrame : Near link.ehFrameAddress link.hdrAddress
  stop : (link.ehFrameAddress.toNat : Int) + total link.outputs - link.hdrAddress.toNat < 2 ^ 31
  space : link.ehFrameAddress.toNat + total link.outputs ≤ 2 ^ 64 ∧ link.hdrAddress.toNat + 12 ≤ 2 ^ 64
  code (kept : KeptFrame) (hkept : kept ∈ link.kept) : Near kept.start link.hdrAddress

theorem size_pos_of_frameEntries {data : List UInt8} {pos : Nat} {stop : Nat}
    (h : frameEntries data pos = .ok (entries, stop)) : ∀ entry ∈ entries, 0 < entry.size := by
  induction hn : data.length - pos using Nat.strongRecOn generalizing pos entries stop with
  | ind n ih =>
    rw [frameEntries] at h
    split at h
    · split at h
      · obtain ⟨rfl, -⟩ := Prod.mk.inj (Except.ok.inj h)
        exact fun entry hentry => absurd hentry List.not_mem_nil
      · split at h
        · cases h
        · split at h
          · rename_i rest stop' hrest
            obtain ⟨rfl, -⟩ := Prod.mk.inj (Except.ok.inj h)
            intro entry hentry
            rcases List.mem_cons.1 hentry with rfl | hentry
            · exact Nat.add_pos_left (by decide) _
            · exact ih _ (by omega) hrest rfl entry hentry
          · cases h
    · obtain ⟨rfl, -⟩ := Prod.mk.inj (Except.ok.inj h)
      exact fun entry hentry => absurd hentry List.not_mem_nil

/-- Frames take bytes. -/
def Solid (outs : List FrameOut) : Prop := ∀ out ∈ outs, out.start.isSome = true → 0 < out.size

theorem solid_frameOutputs (h : ∀ entry ∈ entries, 0 < entry.size) : Solid (frameOutputs o entries relocations) := by
  induction entries generalizing relocations with
  | nil => exact fun out hout => absurd hout List.not_mem_nil
  | cons entry entries ih =>
    rw [List.forall_mem_cons] at h
    have hrest : Solid (frameOutputs o entries (entry.behind relocations)) := ih h.2
    unfold frameOutputs
    split
    · exact List.forall_mem_cons.2 ⟨fun _ => h.1, hrest⟩
    · split
      · exact List.forall_mem_cons.2 ⟨fun _ => h.1, hrest⟩
      · exact hrest

theorem Solid.append (h : Solid outs) (h' : Solid outs') : Solid (outs ++ outs') :=
  fun out hout => (List.mem_append.1 hout).elim (h out) (h' out)

theorem solid_flatMap {α : Type} {xs : List α} {outputs : α → List FrameOut} (h : ∀ x ∈ xs, Solid (outputs x)) :
    Solid (xs.flatMap outputs) := by
  intro out hout
  obtain ⟨x, hx, hout⟩ := List.mem_flatMap.1 hout
  exact h x hx out hout

theorem FrameLink.solid (link : FrameLink) : Solid link.outputs := by
  apply solid_flatMap
  intro g _
  apply Solid.append
  · apply solid_flatMap
    intro o _
    apply solid_flatMap
    intro sec _
    unfold FrameSection.outputs
    split
    · rename_i entries stop hentries
      apply (solid_frameOutputs (size_pos_of_frameEntries hentries)).append
      intro out hout hframe
      rw [List.mem_singleton.1 hout] at hframe
      cases hframe
    · exact fun out hout => absurd hout List.not_mem_nil
  · cases g.terminates with
    | true =>
      intro out hout hframe
      rw [List.mem_singleton.1 hout] at hframe
      cases hframe
    | false => exact fun out hout => absurd hout List.not_mem_nil

/-- The places of frames are inside of the bytes that are written, each behind those before. -/
theorem Solid.placed {base : Nat} (h : Solid outs) :
    (EhFrame.placed base outs).Pairwise (fun a b => a.position < b.position) ∧
      ∀ kept ∈ EhFrame.placed base outs, base ≤ kept.position ∧ kept.position < base + total outs := by
  induction outs generalizing base with
  | nil => exact ⟨List.Pairwise.nil, fun kept hkept => absurd hkept List.not_mem_nil⟩
  | cons out outs ih =>
    rw [Solid, List.forall_mem_cons] at h
    obtain ⟨hpairwise, hinside⟩ : (EhFrame.placed (base + out.size) outs).Pairwise (fun a b => a.position < b.position) ∧
        ∀ kept ∈ EhFrame.placed (base + out.size) outs, base + out.size ≤ kept.position ∧
          kept.position < base + out.size + total outs := ih h.2
    rw [EhFrame.placed, total_cons]
    cases hstart : out.start with
    | none =>
      refine ⟨hpairwise, fun kept hkept => ?_⟩
      have hkept := hinside kept hkept
      omega
    | some start =>
      have hsize : 0 < out.size := h.1 (by rw [hstart]; rfl)
      constructor
      · apply List.Pairwise.cons _ hpairwise
        intro kept hkept
        have hkept := hinside kept hkept
        show base < kept.position
        omega
      · intro kept hkept
        rcases List.mem_cons.1 hkept with rfl | hkept
        · show base ≤ base ∧ base < base + (out.size + total outs)
          omega
        · have hkept := hinside kept hkept
          omega

theorem Solid.frameCount_le (h : Solid outs) : frameCount outs ≤ total outs := by
  induction outs with
  | nil => exact Nat.le_refl _
  | cons out outs ih =>
    rw [Solid, List.forall_mem_cons] at h
    have hrest := ih h.2
    unfold frameCount at hrest ⊢
    rw [List.filter_cons, total_cons]
    split
    · rename_i hframe
      have hsize := h.1 hframe
      rw [List.length_cons]
      omega
    · omega

variable {link : FrameLink}

theorem FrameLink.position_lt {kept : KeptFrame} (hkept : kept ∈ link.kept) : kept.position < total link.outputs := by
  have hinside := (link.solid.placed.2 kept hkept).2
  rwa [Nat.zero_add] at hinside

/-- The address of a frame. -/
theorem FrameLink.Compact.toNat_address (h : link.Compact) {kept : KeptFrame} (hkept : kept ∈ link.kept) :
    (link.ehFrameAddress + BitVec.ofNat 64 kept.position).toNat = link.ehFrameAddress.toNat + kept.position := by
  have hposition := FrameLink.position_lt hkept
  have hspace := h.space.1
  rw [BitVec.toNat_add, BitVec.toNat_ofNat]
  omega

theorem FrameLink.Compact.address_near (h : link.Compact) {kept : KeptFrame} (hkept : kept ∈ link.kept) :
    Near (link.ehFrameAddress + BitVec.ofNat 64 kept.position) link.hdrAddress := by
  have hposition := FrameLink.position_lt hkept
  obtain ⟨habove, hbelow⟩ := h.ehFrame
  have hstop := h.stop
  unfold Near
  rw [h.toNat_address hkept]
  omega

theorem FrameLink.Compact.inRange (h : link.Compact) {kept : KeptFrame} (hkept : kept ∈ link.kept) :
    InRange link.hdrAddress link.ehFrameAddress kept := by
  have hstart := h.code kept hkept
  have haddress := h.address_near hkept
  constructor
  · rw [hstart.toInt_sub]
    obtain ⟨habove, hbelow⟩ := hstart
    omega
  · rw [haddress.toInt_sub]
    obtain ⟨habove, hbelow⟩ := haddress
    omega

theorem FrameLink.Compact.framePtr (h : link.Compact) {kept : KeptFrame} (hkept : kept ∈ link.kept) :
    (entryFor link.hdrAddress link.ehFrameAddress kept).framePtr = (kept.start.toNat : Int) - link.hdrAddress.toNat :=
  (h.code kept hkept).toInt_sub

theorem FrameLink.Compact.frameInfoPtr (h : link.Compact) {kept : KeptFrame} (hkept : kept ∈ link.kept) :
    (entryFor link.hdrAddress link.ehFrameAddress kept).frameInfoPtr =
      (link.ehFrameAddress.toNat : Int) + kept.position - link.hdrAddress.toNat := by
  have hsub := (h.address_near hkept).toInt_sub
  rw [h.toNat_address hkept] at hsub
  exact hsub.trans (by push_cast; rfl)

/-- The pointer to `.eh_frame` is written exactly when `.eh_frame` is behind the place of the pointer. -/
theorem FrameLink.Compact.ehFramePtr (h : link.Compact) :
    ehFramePtr link =
      if link.hdrAddress.toNat + 4 ≤ link.ehFrameAddress.toNat then
        .ok (link.ehFrameAddress.toNat - (link.hdrAddress.toNat + 4) : Int)
      else .error .framePointerOverflow := by
  obtain ⟨habove, hbelow⟩ := h.ehFrame
  have hspace := h.space.2
  have hfield : (link.hdrAddress + 4).toNat = link.hdrAddress.toNat + 4 := by
    rw [BitVec.toNat_add, show (4 : BitVec 64).toNat = 4 from rfl]
    omega
  unfold EhFrame.ehFramePtr
  dsimp only
  rw [BitVec.toNat_sub, hfield]
  by_cases hfront : link.hdrAddress.toNat + 4 ≤ link.ehFrameAddress.toNat
  · rw [if_pos hfront, if_pos (by omega)]
    congr 1
    omega
  · rw [if_neg hfront, if_neg (by omega)]

/-- What is written of a link. -/
theorem FrameLink.Compact.writeFrames_eq (h : link.Compact) (hwell : link.WellFormed) :
    writeFrames link = (EhFrame.ehFramePtr link).map fun framePointer =>
      { header := { framePointer, entryCount := link.kept.length },
        table := SortedTable.sort (·.framePtr) (link.kept.map (entryFor link.hdrAddress link.ehFrameAddress)),
        kept := link.kept } := by
  have hsizes : ∀ groups : List FrameGroup, (∀ g ∈ groups, ∀ o ∈ g.objects, ∀ sec ∈ o.frameSections, sec.WellFormed o) →
      groups.mapM (·.sizes) = Except.ok (groups.map (·.room)) := by
    intro groups hgroups
    induction groups with
    | nil => rfl
    | cons g groups ih =>
      rw [List.forall_mem_cons] at hgroups
      rw [List.mapM_cons, FrameGroup.sizes_eq hgroups.1, ih hgroups.2]
      rfl
  have hcount : ∀ groups : List FrameGroup,
      ((groups.map (·.room)).map (·.numFrames)).sum = frameCount (groups.flatMap (·.outputs)) := by
    intro groups
    induction groups with
    | nil => rfl
    | cons g groups ih =>
      rw [List.map_cons, List.map_cons, List.sum_cons, ih, List.flatMap_cons, frameCount_append]
      rfl
  have hlength : link.kept.length = frameCount link.outputs := length_placed 0 _
  have hcount32 : link.kept.length < 2 ^ 32 := by
    have hle := link.solid.frameCount_le
    obtain ⟨habove, hbelow⟩ := h.ehFrame
    have hstop := h.stop
    omega
  have hentryCount : ehFrameHdrEntryCount (12 + 8 * link.kept.length) = .ok link.kept.length := by
    unfold ehFrameHdrEntryCount
    rw [Nat.add_sub_cancel_left, Nat.mul_div_cancel_left _ (by decide), if_pos hcount32]
  obtain ⟨writers, hwriters, hentries, hkept⟩ := @writeGroups_eq link.context link.ehFrameAddress link.groups 0
    hwell.sections hwell.applies fun kept hkept => h.inRange hkept
  rw [show BitVec.ofNat 64 0 = 0#64 from rfl, BitVec.add_zero] at hwriters
  unfold writeFrames
  rw [hsizes link.groups hwell.sections]
  dsimp only [bind, Except.bind]
  rw [hcount, show frameCount (link.groups.flatMap (·.outputs)) = link.kept.length from hlength.symm]
  unfold writeEhFrameHdr
  cases EhFrame.ehFramePtr link with
  | error error => rfl
  | ok framePointer =>
    rw [hentryCount]
    rw [hwriters]
    dsimp only
    rw [hentries, hkept]
    rfl

/-! ## The lookup -/

/-- A frame covers a program counter, if its range is this long. -/
def KeptFrame.Covers (frame : KeptFrame) (length pc : Nat) : Prop := frame.start.toNat ≤ pc ∧ pc < frame.start.toNat + length

/-- The range of a frame is disjoint from those of the others. -/
def Alone (kept : List KeptFrame) (length : Nat → Nat) (i : Nat) (frame : KeptFrame) : Prop :=
  ∀ j other, kept[j]? = some other → j ≠ i → ∀ pc, ¬ (frame.Covers (length i) pc ∧ other.Covers (length j) pc)

/-- What an unwinder needs: the header denotes `.eh_frame`, counts the entries of the sorted table, and a binary search of
the table ends on the entry of the frame that covers a program counter. `length i` is the final length of the range of the
`i`-th frame that is written. -/
structure UnwindLookup (link : FrameLink) (length : Nat → Nat) (written : WrittenFrames) : Prop where
  framePointer : (link.hdrAddress.toNat : Int) + 4 + written.header.framePointer = link.ehFrameAddress.toNat
  entryCount : written.header.entryCount = written.table.length
  sorted : written.table.Pairwise fun a b =>
    (link.hdrAddress.toNat : Int) + a.framePtr ≤ link.hdrAddress.toNat + b.framePtr
  lookup (i : Nat) (frame : KeptFrame) (pc : Nat) (hframe : written.kept[i]? = some frame) (hpc : frame.Covers (length i) pc)
    (halone : Alone written.kept length i frame) :
    ∃ entry, SortedTable.search (·.framePtr) written.table ((pc : Int) - link.hdrAddress.toNat) = some entry ∧
      link.hdrAddress.toNat + entry.framePtr = frame.start.toNat ∧
      link.hdrAddress.toNat + entry.frameInfoPtr = link.ehFrameAddress.toNat + frame.position

/-- No frame with an empty range starts within a range that is disjoint from all others, unless it starts where that does
and is written before. -/
def EmptyInFront (kept : List KeptFrame) (length : Nat → Nat) : Prop :=
  ∀ i j frame other, kept[i]? = some frame → kept[j]? = some other → Alone kept length i frame → length j = 0 →
    frame.Covers (length i) other.start.toNat → other.start = frame.start ∧ j ≤ i

theorem lookup_of_emptyInFront {length : Nat → Nat} (h : link.Compact) (hempty : EmptyInFront link.kept length) {i pc : Nat}
    {frame : KeptFrame} (hframe : link.kept[i]? = some frame) (hpc : frame.Covers (length i) pc)
    (halone : Alone link.kept length i frame) :
    SortedTable.search (·.framePtr)
        (SortedTable.sort (·.framePtr) (link.kept.map (entryFor link.hdrAddress link.ehFrameAddress)))
        ((pc : Int) - link.hdrAddress.toNat) =
      some (entryFor link.hdrAddress link.ehFrameAddress frame) := by
  have hmem := List.mem_of_getElem? hframe
  obtain ⟨hstart, hstop⟩ := hpc
  apply SortedTable.search_sort (i := i)
  · rw [List.getElem?_map, hframe]
    rfl
  · rw [h.framePtr hmem]
    omega
  · intro j entry hentry hle
    rw [List.getElem?_map, Option.map_eq_some_iff] at hentry
    obtain ⟨other, hother, rfl⟩ := hentry
    have hothermem := List.mem_of_getElem? hother
    rw [h.framePtr hothermem] at hle ⊢
    rw [h.framePtr hmem]
    by_cases hbefore : other.start.toNat < frame.start.toNat
    · exact Or.inl (by omega)
    · have hcovers : frame.Covers (length i) other.start.toNat := ⟨Nat.le_of_not_lt hbefore, by omega⟩
      right
      by_cases hji : j = i
      · subst hji
        rw [hframe] at hother
        obtain rfl := Option.some.inj hother
        exact ⟨rfl, Nat.le_refl _⟩
      · rcases Nat.eq_zero_or_pos (length j) with hzero | hpos
        · obtain ⟨hsame, hle⟩ := hempty i j frame other hframe hother halone hzero hcovers
          exact ⟨by rw [hsame], hle⟩
        · exact absurd ⟨hcovers, Nat.le_refl _, Nat.lt_add_of_pos_right hpos⟩ (halone j other hother hji _)

/-- Where a frame with an empty range starts, the search ends on a frame that starts there and is not written before it. -/
theorem search_empty (h : link.Compact) {j : Nat} {other : KeptFrame} (hother : link.kept[j]? = some other) :
    ∃ i found, j ≤ i ∧ link.kept[i]? = some found ∧ found.start.toNat = other.start.toNat ∧
      SortedTable.search (·.framePtr)
          (SortedTable.sort (·.framePtr) (link.kept.map (entryFor link.hdrAddress link.ehFrameAddress)))
          ((other.start.toNat : Int) - link.hdrAddress.toNat) =
        some (entryFor link.hdrAddress link.ehFrameAddress found) := by
  have hentry : (link.kept.map (entryFor link.hdrAddress link.ehFrameAddress))[j]? =
      some (entryFor link.hdrAddress link.ehFrameAddress other) := by
    rw [List.getElem?_map, hother]
    rfl
  obtain ⟨i, entry, hij, hget, hkey, hsearch⟩ := SortedTable.search_sort_of_key_eq hentry
    (h.framePtr (List.mem_of_getElem? hother))
  rw [List.getElem?_map, Option.map_eq_some_iff] at hget
  obtain ⟨found, hfound, rfl⟩ := hget
  refine ⟨i, found, hij, hfound, ?_, hsearch⟩
  rw [h.framePtr (List.mem_of_getElem? hfound)] at hkey
  omega

theorem emptyInFront_of_lookup {length : Nat → Nat} (h : link.Compact) {written : WrittenFrames}
    (htable : written.table =
      SortedTable.sort (·.framePtr) (link.kept.map (entryFor link.hdrAddress link.ehFrameAddress)))
    (hkept : written.kept = link.kept) (hlookup : UnwindLookup link length written) : EmptyInFront link.kept length := by
  intro i j frame other hframe hother halone _ hcovers
  obtain ⟨m, found, hjm, hfound, hstart, hsearch⟩ := search_empty h hother
  rw [← hkept] at hframe halone
  obtain ⟨entry, hentry, hlocation, haddress⟩ := hlookup.lookup i frame _ hframe hcovers halone
  rw [hkept] at hframe
  rw [htable, hsearch] at hentry
  obtain rfl := Option.some.inj hentry
  have hfoundmem := List.mem_of_getElem? hfound
  rw [h.framePtr hfoundmem] at hlocation
  rw [h.frameInfoPtr hfoundmem] at haddress
  have hsame : other.start = frame.start := by
    apply BitVec.eq_of_toNat_eq
    omega
  refine ⟨hsame, Nat.le_of_not_lt fun hij => ?_⟩
  -- the frame that is found is written behind, so that it is another one
  obtain ⟨hi, rfl⟩ := List.getElem?_eq_some_iff.1 hframe
  obtain ⟨hm, rfl⟩ := List.getElem?_eq_some_iff.1 hfound
  have hposition : link.kept[i].position < link.kept[m].position :=
    List.pairwise_iff_getElem.1 link.solid.placed.1 i m hi hm (Nat.lt_of_lt_of_le hij hjm)
  omega

/-- **An unwinder finds the frames of a link exactly when `.eh_frame` is behind `.eh_frame_hdr` and no frame with an empty
range is in the way.** -/
theorem unwindLookup_iff (link : FrameLink) (length : Nat → Nat) (hwell : link.WellFormed) (hcompact : link.Compact) :
    (∃ written, writeFrames link = .ok written ∧ UnwindLookup link length written) ↔
      link.hdrAddress.toNat + 4 ≤ link.ehFrameAddress.toNat ∧ EmptyInFront link.kept length := by
  rw [hcompact.writeFrames_eq hwell, hcompact.ehFramePtr]
  by_cases hfront : link.hdrAddress.toNat + 4 ≤ link.ehFrameAddress.toNat
  · rw [if_pos hfront]
    constructor
    · rintro ⟨written, hwritten, hlookup⟩
      obtain rfl := Except.ok.inj hwritten
      exact ⟨hfront, emptyInFront_of_lookup hcompact rfl rfl hlookup⟩
    · rintro ⟨-, hempty⟩
      refine ⟨_, rfl, ?_, ?_, ?_, ?_⟩
      · show (link.hdrAddress.toNat : Int) + 4 + (link.ehFrameAddress.toNat - (link.hdrAddress.toNat + 4)) = _
        omega
      · rw [(SortedTable.perm_sort _ _).length_eq, List.length_map]
      · exact (SortedTable.sorted_sort _ _).imp fun hle => by omega
      · intro i frame pc hframe hpc halone
        have hmem := List.mem_of_getElem? hframe
        refine ⟨_, lookup_of_emptyInFront hcompact hempty hframe hpc halone, ?_, ?_⟩
        · rw [hcompact.framePtr hmem]
          omega
        · rw [hcompact.frameInfoPtr hmem]
          omega
  · rw [if_neg hfront]
    constructor
    · rintro ⟨written, hwritten, -⟩
      cases hwritten
    · exact fun h => absurd h.1 hfront

/-- A common entry and a frame behind it. -/
def oneFrameSection : FrameSection where
  data := [4, 0, 0, 0, 0, 0, 0, 0, 12, 0, 0, 0, 12, 0, 0, 0, 0, 0, 0, 0, 16, 0, 0, 0]
  relocations := [{ offset := 16, symbol := some { sectionIndex := some 0, value := 0 }, addend := 0 }]

/-- An object with one frame, for its code at `0x1100`. -/
def oneFrame : FrameObject where
  sections := [{ slot := .loaded ⟨0x1100⟩, size := 16 }]
  frameSections := [oneFrameSection]

def oneFrameLink (hdrAddress ehFrameAddress : BitVec 64) : FrameLink where
  hdrAddress := hdrAddress
  ehFrameAddress := ehFrameAddress
  groups := [{ objects := [oneFrame], terminates := true }]
  applies _ _ := true

theorem frameEntries_oneFrameSection : frameEntries oneFrameSection.data 0 = .ok ([⟨0, 8, 0⟩, ⟨8, 16, 12⟩], 24) := by
  rw [frameEntries, frameEntries, frameEntries]
  rfl

theorem wellFormed_oneFrameLink (hdrAddress ehFrameAddress : BitVec 64) :
    (oneFrameLink hdrAddress ehFrameAddress).WellFormed where
  sections g hg o ho sec hsec := by
    obtain rfl := List.mem_singleton.1 hg
    obtain rfl := List.mem_singleton.1 ho
    obtain rfl := List.mem_singleton.1 hsec
    refine ⟨_, _, frameEntries_oneFrameSection, ?_⟩
    refine ⟨⟨by decide, by decide, Or.inr ⟨_, _, _, 0, rfl, rfl, rfl, rfl, ?_, ?_⟩⟩, trivial⟩
    · exact fun r hr => absurd hr List.not_mem_nil
    · intro target htarget
      obtain rfl := Option.some.inj htarget
      rfl
  applies _ _ _ _ _ _ _ _ _ := rfl

theorem outputs_oneFrameLink (hdrAddress ehFrameAddress : BitVec 64) :
    (oneFrameLink hdrAddress ehFrameAddress).outputs = [⟨8, none⟩, ⟨16, some 0x1100⟩, ⟨0, none⟩, ⟨4, none⟩] := by
  have hsection : oneFrameSection.outputs oneFrame = [⟨8, none⟩, ⟨16, some 0x1100⟩, ⟨0, none⟩] := by
    unfold FrameSection.outputs
    rw [frameEntries_oneFrameSection]
    rfl
  have hobject : oneFrame.outputs = [⟨8, none⟩, ⟨16, some 0x1100⟩, ⟨0, none⟩] := by
    rw [FrameObject.outputs, oneFrame, List.flatMap_singleton]
    exact hsection
  rw [FrameLink.outputs, oneFrameLink, List.flatMap_singleton, FrameGroup.outputs, List.flatMap_singleton, hobject]
  rfl

/-- The link is small enough, if both sections are near the code. -/
theorem compact_oneFrameLink {hdrAddress ehFrameAddress : BitVec 64} (hhdr : hdrAddress.toNat < 2 ^ 30)
    (hehFrame : ehFrameAddress.toNat < 2 ^ 30) : (oneFrameLink hdrAddress ehFrameAddress).Compact where
  ehFrame := by
    show (ehFrameAddress.toNat : Int) - hdrAddress.toNat < 2 ^ 31 ∧ (hdrAddress.toNat : Int) - ehFrameAddress.toNat < 2 ^ 31
    omega
  stop := by
    rw [outputs_oneFrameLink]
    show (ehFrameAddress.toNat : Int) + 28 - hdrAddress.toNat < 2 ^ 31
    omega
  space := by
    rw [outputs_oneFrameLink]
    show ehFrameAddress.toNat + 28 ≤ 2 ^ 64 ∧ hdrAddress.toNat + 12 ≤ 2 ^ 64
    omega
  code kept hkept := by
    rw [FrameLink.kept, outputs_oneFrameLink] at hkept
    obtain rfl := List.mem_singleton.1 hkept
    show ((0x1100 : BitVec 64).toNat : Int) - hdrAddress.toNat < 2 ^ 31 ∧ (hdrAddress.toNat : Int) - (0x1100 : BitVec 64).toNat < 2 ^ 31
    rw [show (0x1100 : BitVec 64).toNat = 0x1100 from rfl]
    omega

theorem unwindLookup_oneFrameLink :
    ∃ written, writeFrames (oneFrameLink 0x1000 0x1014) = .ok written ∧
      UnwindLookup (oneFrameLink 0x1000 0x1014) (fun _ => 16) written := by
  apply (unwindLookup_iff _ _ (wellFormed_oneFrameLink _ _) (compact_oneFrameLink (by decide) (by decide))).2
  constructor
  · decide
  · -- the only frame has a range that is not empty
    intro i j frame other _ _ _ hlength
    cases hlength

/-- A script can put `.eh_frame` in front of `.eh_frame_hdr`, where it cannot be pointed to. -/
theorem no_unwindLookup_ehFrame_in_front :
    ¬ ∀ (link : FrameLink) (length : Nat → Nat), link.WellFormed → link.Compact →
      ∃ written, writeFrames link = .ok written ∧ UnwindLookup link length written := by
  intro h
  have hwell := wellFormed_oneFrameLink 0x2000 0x1000
  have hcompact : (oneFrameLink 0x2000 0x1000).Compact := compact_oneFrameLink (by decide) (by decide)
  obtain ⟨written, hwritten, -⟩ := h _ (fun _ => 16) hwell hcompact
  rw [hcompact.writeFrames_eq hwell, hcompact.ehFramePtr, if_neg (by decide)] at hwritten
  cases hwritten

end Reld.EhFrame
