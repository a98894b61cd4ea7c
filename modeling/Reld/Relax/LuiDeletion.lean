import Reld.Relax.Alignment

/-!
# `Relax.LuiDeletion` — what becomes of the users of a deleted `lui`

A `lui` whose upper part is zero is deleted, and the instructions that add the lower part should then use `x0`
as their base (`KeepsAddress`). The writer replaces the base register only in an instruction that directly
follows four deleted bytes, and only if the bits of its destination register are those of its base, which for a
store are bits of the offset. On the other hand it never notices that a `lui` is gone, and writes the upper part
over the instruction that is there now. That clears its base register and everything else above bit 12.

So the base is `x0` in the end exactly in three cases (`BaseCleared`): it was `x0` before, the instruction has
been overwritten in this way, or it passes the check. An instruction that starts two bytes behind is cut in
half (`Halved`).
-/

namespace Reld

open SectionRelaxDeltas RelaxLink LittleEndian RiscVInstruction BitFields

/-! ## The input -/

namespace Relocation

def isOther (r : Relocation) : Bool :=
  match r.rType with
  | .other _ => true
  | _        => false

/-- The bytes of the section that belong to a relocation. -/
def span (ctx : RelocationContext) (r : Relocation) : Nat :=
  match r.rType with
  | .align => asU64 r.addend
  | .call | .callPlt => 8
  | .hi20 => 4
  | .lo12I | .lo12S => 4
  | .relax => 0
  | .other _ => ctx.otherSize r

/-- The relocations with the lower part of an address. -/
def isLo12 (r : Relocation) : Bool := r.rType == .lo12I || r.rType == .lo12S

end Relocation

/-- The relocations of a section come in order and do not overlap, other types among themselves apart. -/
def SpansApart (ctx : RelocationContext) (relocations : List Relocation) : Prop :=
  relocations.Pairwise (fun r t => r.rType = .relax ∨ t.rType = .relax ∨
    (r.isOther = true ∧ t.isOther = true) ∨ r.offset + r.span ctx ≤ t.offset)

/-- A section of instructions that start at even offsets. -/
structure RelaxSection.CodeOrdered (s : RelaxSection) (ctx : RelocationContext) : Prop where
  apart : SpansApart ctx s.relocations
  inside : ∀ r ∈ s.relocations, r.offset + r.span ctx ≤ s.bytes.length
  even : ∀ r ∈ s.relocations, r.isOther = false → 2 ∣ r.offset
  padding : ∀ r ∈ s.relocations, r.rType = .align → 2 ∣ asU64 r.addend
  small : SmallPadding s.relocations

/-! ## Instructions -/

/-- A register; `x0` is always zero. -/
def readReg (regs : Nat → BitVec 64) (r : BitVec 64) : BitVec 64 := if r = 0 then 0 else regs r.toNat

/-- The offset of a load, an addition or a jump (`R_RISCV_LO12_I`), or of a store. -/
def lowImmediate (rType : RelocationType) (word : BitVec 64) : BitVec 64 :=
  if rType = .lo12S then
    signExtendFrom 12 (extractBitRange word 7 12 ||| extractBitRange word 25 32 <<< 5)
  else signExtendFrom 12 (extractBitRange word 20 32)

def effectiveAddress (rType : RelocationType) (word : BitVec 64) (regs : Nat → BitVec 64) : BitVec 64 :=
  readReg regs (rs1Of word) + lowImmediate rType word

/-- What a `lui` with the upper part of a value leaves in its register. -/
def luiValue (value : BitVec 64) : BitVec 64 :=
  signExtendFrom 32 (extractBitRange (value + 0x800) 12 32 <<< 12)

/-- The format of a lower part. -/
def lo12Format (rType : RelocationType) : RiscVInstruction := if rType = .lo12S then .sType else .iType

/-- An instruction with the lower part of the value as its offset. -/
def withLow (rType : RelocationType) (value word : BitVec 64) : BitVec 64 :=
  writeToValue (lo12Format rType) (extractBitRange value 0 32) false word

/-- The instruction `word` of the input, whose base is the register `rd` of a deleted `lui`, has become `final`.
    It still is the same instruction, and for all contents of the registers its address is the one that it has
    after the `lui`. -/
def KeepsAddress (rType : RelocationType) (value rd word final : BitVec 64) : Prop :=
  extractBitRange final 0 7 = extractBitRange word 0 7 ∧
    ∀ regs, effectiveAddress rType final regs =
      effectiveAddress rType (withLow rType value word)
        (fun r => if r = rd.toNat then luiValue value else regs r)

/-! ## What the writer does to a user -/

/-- The `lui` of an `R_RISCV_HI20` has been deleted. -/
def LuiDeleted (d : SectionRelaxDeltas) (r : Relocation) : Prop :=
  r.rType = .hi20 ∧ d.hasDeltaAt r.offset = true

/-- The upper part of a deleted `lui` is written over the instruction at output offset `y`. -/
def Overwrites (d : SectionRelaxDeltas) (y : Nat) (r : Relocation) : Prop :=
  LuiDeleted d r ∧ d.inputToOutputOffset r.offset = y

/-- It is written over the two bytes before and the first half of the instruction. -/
def Halves (d : SectionRelaxDeltas) (y : Nat) (r : Relocation) : Prop :=
  LuiDeleted d r ∧ d.inputToOutputOffset r.offset + 2 = y ∧
    d.hasDeltaAt (d.outputToInputOffset (d.inputToOutputOffset r.offset) + 2) = false

instance (d : SectionRelaxDeltas) (r : Relocation) : Decidable (LuiDeleted d r) :=
  inferInstanceAs (Decidable (_ ∧ _))
instance (d : SectionRelaxDeltas) (y : Nat) (r : Relocation) : Decidable (Overwrites d y r) :=
  inferInstanceAs (Decidable (_ ∧ _))
instance (d : SectionRelaxDeltas) (y : Nat) (r : Relocation) : Decidable (Halves d y r) :=
  inferInstanceAs (Decidable (_ ∧ _ ∧ _))

/-- The instruction at input offset `o` is overwritten by a `lui` among the relocations in front of it. -/
def Overwritten (d : SectionRelaxDeltas) (front : List Relocation) (o : Nat) : Prop :=
  ∃ r ∈ front, Overwrites d (d.inputToOutputOffset o) r

def Halved (d : SectionRelaxDeltas) (front : List Relocation) (o : Nat) : Prop :=
  ∃ r ∈ front, Halves d (d.inputToOutputOffset o) r

instance (d : SectionRelaxDeltas) (front : List Relocation) (o : Nat) : Decidable (Overwritten d front o) :=
  inferInstanceAs (Decidable (∃ r ∈ front, _))
instance (d : SectionRelaxDeltas) (front : List Relocation) (o : Nat) : Decidable (Halved d front o) :=
  inferInstanceAs (Decidable (∃ r ∈ front, _))

/-- The base register of the instruction `word` at `o` is `x0` in the output. -/
def BaseCleared (d : SectionRelaxDeltas) (front : List Relocation) (o : Nat) (word : BitVec 64) : Prop :=
  rs1Of word = 0 ∨ Overwritten d front o ∨
    (4 ≤ o ∧ d.deltaBytesAt (o - 4) = 4 ∧ rdOf word = rs1Of word)

/-- The deleted `lui`s that are written over the instruction at `o` have an upper part of zero in the end. -/
def UppersZero (ctx : RelocationContext) (d : SectionRelaxDeltas) (front : List Relocation) (o : Nat) : Prop :=
  ∀ r ∈ front, Overwrites d (d.inputToOutputOffset o) r ∨ Halves d (d.inputToOutputOffset o) r →
    luiValue (ctx.absolute r.symbol r.addend) = 0

/-- The writer takes a call for what relaxation has made of it. -/
def Recognised (ctx : RelocationContext) (d : SectionRelaxDeltas) (out : Bytes) (r : Relocation) : Prop :=
  (d.hasDeltaAt (r.offset + 4) = true → callForm ctx out (d.inputToOutputOffset r.offset) r ≠ .pair) ∧
  (callForm ctx out (d.inputToOutputOffset r.offset) r = .jal → d.hasDeltaAt (r.offset + 4) = true)

/-- The writer recognises every call when it comes to it. -/
def CallsRecognised (ctx : RelocationContext) (d : SectionRelaxDeltas) (relocations : List Relocation)
    (inputData : Bytes) : Prop :=
  ∀ pre r post out, relocations = pre ++ r :: post → r.isCall = true →
    pre.foldlM (relocationStep ctx d) (false, populateSectionOutput inputData d) = some (false, out) →
    Recognised ctx d out r

/-! ## Where things are in the output -/

theorem SpansApart.sitesApart {ctx : RelocationContext} {relocations : List Relocation}
    (h : SpansApart ctx relocations) : SitesApart relocations := by
  refine List.Pairwise.imp ?_ h
  intro r t hrt hr ht
  have hsize : r.siteSize = r.span ctx := by
    unfold Relocation.isSite Relocation.isCall at hr
    unfold Relocation.siteSize Relocation.span
    cases hrr : r.rType <;> rw [hrr] at hr <;> first | rfl | simp at hr
  rw [hsize]
  unfold Relocation.isSite Relocation.isCall at hr ht
  rcases hrt with h | h | ⟨h, -⟩ | h
  · simp [h] at hr
  · simp [h] at ht
  · unfold Relocation.isOther at h
    cases hrr : r.rType <;> rw [hrr] at h hr <;> simp at h hr
  · exact h

section Places

variable {ctx : RelocationContext} {s : RelaxSection} {d : SectionRelaxDeltas}

variable {r : Relocation}

/-- A recorded deletion lies outside the bytes of a relocation, unless it is its own. -/
theorem Tracked.owner (ht : Tracked s.relocations d) (hc : s.CodeOrdered ctx) (hr : r ∈ s.relocations)
    (hrelax : r.rType ≠ .relax) {e : Nat × Nat} (he : e ∈ d.raw) :
    e.1 + e.2 ≤ r.offset ∨ (r.Owns e ∧ (r.waits = true → FollowedByRelax s.relocations r)) ∨
      r.offset + r.span ctx ≤ e.1 := by
  obtain ⟨q, hq, hown, hfollowed⟩ := ht.owned e he
  obtain ⟨hqs, hl, hp, hend⟩ := hown.inside
  have hq2 : q.rType ≠ .relax ∧ q.isOther = false ∧ q.siteSize = q.span ctx := by
    unfold Relocation.isSite Relocation.isCall at hqs
    unfold Relocation.isOther Relocation.siteSize Relocation.span
    cases hqr : q.rType <;> rw [hqr] at hqs <;> simp at hqs ⊢
  by_cases heq : q = r
  · subst heq
    exact Or.inr (Or.inl ⟨hown, hfollowed⟩)
  · have hsym : s.relocations.Pairwise (fun r t => r.rType = .relax ∨ t.rType = .relax ∨
        (r.isOther = true ∧ t.isOther = true) ∨ r.offset + r.span ctx ≤ t.offset ∨
          t.offset + t.span ctx ≤ r.offset) := by
      refine List.Pairwise.imp ?_ hc.apart
      rintro a b (h | h | h | h)
      · exact Or.inl h
      · exact Or.inr (Or.inl h)
      · exact Or.inr (Or.inr (Or.inl h))
      · exact Or.inr (Or.inr (Or.inr (Or.inl h)))
    have : Std.Symm (fun r t : Relocation => r.rType = .relax ∨ t.rType = .relax ∨
        (r.isOther = true ∧ t.isOther = true) ∨ r.offset + r.span ctx ≤ t.offset ∨
          t.offset + t.span ctx ≤ r.offset) := ⟨fun a b h => by tauto⟩
    rcases hsym.forall hq hr heq with h | h | ⟨h, -⟩ | h | h
    · exact absurd h hq2.1
    · exact absurd h hrelax
    · rw [hq2.2.1] at h
      cases h
    · exact Or.inl (by rw [← hq2.2.2] at h; omega)
    · exact Or.inr (Or.inr (by omega))

theorem Tracked.outside (ht : Tracked s.relocations d) (hc : s.CodeOrdered ctx) (hr : r ∈ s.relocations)
    (hrelax : r.rType ≠ .relax) {e : Nat × Nat} (he : e ∈ d.raw) :
    e.1 + e.2 ≤ r.offset ∨ r.Owns e ∨ r.offset + r.span ctx ≤ e.1 :=
  (ht.owner hc hr hrelax he).imp id (Or.imp And.left id)

/-- The bytes of a relocation that is no site are kept. -/
theorem Tracked.keeps (ht : Tracked s.relocations d) (hc : s.CodeOrdered ctx) (hr : r ∈ s.relocations)
    (hrelax : r.rType ≠ .relax) (hsite : r.isSite = false) :
    Deletions.Untouched d.raw r.offset (r.offset + r.span ctx) := by
  intro e he
  rcases ht.outside hc hr hrelax he with h | h | h
  · exact Or.inl h
  · rw [h.inside.1] at hsite
    cases hsite
  · exact Or.inr h

/-- The start of a relocation lies in no deletion. -/
theorem Tracked.clear (ht : Tracked s.relocations d) (hc : s.CodeOrdered ctx) (hr : r ∈ s.relocations)
    (hrelax : r.rType ≠ .relax) : Deletions.Untouched d.raw r.offset r.offset := by
  intro e he
  rcases ht.outside hc hr hrelax he with h | h | h
  · exact Or.inl h
  · exact Or.inr h.inside.2.1
  · exact Or.inr (by omega)

theorem place_end_le (ht : Tracked s.relocations d) {x n y : Nat}
    (hu : Deletions.Untouched d.raw x (x + n)) (hxy : x + n ≤ y) (hy : Deletions.Untouched d.raw y y) :
    d.inputToOutputOffset x + n ≤ d.inputToOutputOffset y := by
  rw [ht.wellFormed.inputToOutputOffset_eq, ht.wellFormed.inputToOutputOffset_eq]
  exact Deletions.place_add_le ht.wellFormed.separated ht.wellFormed.positive hu hxy hy

/-- What is in front of the only deletion that may be inside of a relocation is kept, and all of it without that one. -/
theorem Tracked.kept_unless (ht : Tracked s.relocations d) (hc : s.CodeOrdered ctx) (hr : r ∈ s.relocations)
    (hrelax : r.rType ≠ .relax) {k n : Nat} (hk : k ≤ r.span ctx)
    (hown : ∀ e ∈ d.raw, r.Owns e → e = (r.offset + k, n)) :
    Deletions.Untouched d.raw r.offset (r.offset + k) ∧
      (d.hasDeltaAt (r.offset + k) = false → Deletions.Untouched d.raw r.offset (r.offset + r.span ctx)) := by
  constructor
  · intro e he
    rcases ht.outside hc hr hrelax he with h | h | h
    · exact Or.inl h
    · rw [hown e he h]
      exact Or.inr (Nat.le_refl _)
    · exact Or.inr (by omega)
  · intro hno e he
    rcases ht.outside hc hr hrelax he with h | h | h
    · exact Or.inl h
    · rw [hown e he h] at he
      rw [hasDeltaAt_iff.mpr ⟨n, he⟩] at hno
      cases hno
    · exact Or.inr h

/-- A `lui` that is not deleted keeps its first two bytes, and all four unless it is shortened. -/
theorem Tracked.lui_kept (ht : Tracked s.relocations d) (hc : s.CodeOrdered ctx) (hr : r ∈ s.relocations)
    (hrt : r.rType = .hi20) (hno : d.hasDeltaAt r.offset = false) :
    Deletions.Untouched d.raw r.offset (r.offset + 2) ∧
      (d.hasDeltaAt (r.offset + 2) = false → Deletions.Untouched d.raw r.offset (r.offset + 4)) := by
  have hspan : r.span ctx = 4 := by simp [Relocation.span, hrt]
  rw [← hspan]
  refine ht.kept_unless hc hr (by simp [hrt]) (n := 2) (by omega) fun e he h => ?_
  simp only [Relocation.Owns, hrt] at h
  rcases h with rfl | h
  · rw [hasDeltaAt_iff.mpr ⟨4, he⟩] at hno
    cases hno
  · exact h

theorem Relocation.call_plain (hcall : r.isCall = true) :
    r.rType ≠ .relax ∧ r.isOther = false ∧ r.span ctx = 8 := by
  have hrt : r.rType = .call ∨ r.rType = .callPlt := by simpa [Relocation.isCall] using hcall
  rcases hrt with h | h <;> simp [h, Relocation.isOther, Relocation.span]

theorem Relocation.call_owns (hcall : r.isCall = true) {e : Nat × Nat} (h : r.Owns e) : e = (r.offset + 4, 4) := by
  have hrt : r.rType = .call ∨ r.rType = .callPlt := by simpa [Relocation.isCall] using hcall
  rcases hrt with hrt | hrt <;> simpa [Relocation.Owns, hrt] using h

/-- A call keeps its first four bytes, and all eight unless its `jalr` is deleted. -/
theorem Tracked.call_kept (ht : Tracked s.relocations d) (hc : s.CodeOrdered ctx) (hr : r ∈ s.relocations)
    (hcall : r.isCall = true) :
    Deletions.Untouched d.raw r.offset (r.offset + 4) ∧
      (d.hasDeltaAt (r.offset + 4) = false → Deletions.Untouched d.raw r.offset (r.offset + 8)) := by
  obtain ⟨hrelax, -, hspan⟩ := @Relocation.call_plain ctx r hcall
  rw [← hspan]
  exact ht.kept_unless hc hr hrelax (by omega) fun _ _ => Relocation.call_owns hcall

end Places

/-! ## One relocation -/

section Step

variable {ctx : RelocationContext} {s : RelaxSection} {d : SectionRelaxDeltas}

variable {out : Bytes} {skip : Bool}

theorem map_false_eq_some {o : Option Bytes} (h : o.map (false, ·) = some (skip, out)) :
    o = some out ∧ skip = false := by
  obtain ⟨x, hx, heq⟩ := Option.map_eq_some_iff.mp h
  cases heq
  exact ⟨hx, rfl⟩

theorem length_fillNopPadding : ∀ buf : Bytes, (fillNopPadding buf).length = buf.length
  | [] => rfl
  | [_] => rfl
  | [_, _] => rfl
  | [_, _, _] => rfl
  | a :: b :: c :: e :: buf => by
    simp only [fillNopPadding, List.length_cons, length_fillNopPadding buf]

variable {r : Relocation}

theorem applyAlignment_writes (h : d.inputToOutputOffset r.offset + keptPadding d r ≤ out.length) :
    Writes out (applyAlignment d r out) (d.inputToOutputOffset r.offset)
      (d.inputToOutputOffset r.offset + keptPadding d r) := by
  have hlen : (fillNopPadding ((out.drop (d.inputToOutputOffset r.offset)).take (keptPadding d r))).length =
      keptPadding d r := by
    rw [length_fillNopPadding, List.length_take, List.length_drop]
    omega
  have hw : Writes out (overwrite out (d.inputToOutputOffset r.offset)
      (fillNopPadding ((out.drop (d.inputToOutputOffset r.offset)).take (keptPadding d r)))) _ _ :=
    writes_overwrite (by rw [hlen]; exact h)
  rw [hlen] at hw
  have heq : applyAlignment d r out = overwrite out (d.inputToOutputOffset r.offset)
      (fillNopPadding ((out.drop (d.inputToOutputOffset r.offset)).take (keptPadding d r))) := by
    unfold applyAlignment overwrite
    rw [hlen]
  rw [heq]
  exact hw

variable {out' : Bytes} {o : Nat}

theorem applyCall_writes (h : applyCall ctx r out o = some (skip, out')) :
    (callForm ctx out o r = .pair ∧ Writes out out' o (o + 8) ∨
      callForm ctx out o r ≠ .pair ∧ Writes out out' o (o + 4)) ∧
      (skip = true → callForm ctx out o r = .jal) := by
  unfold applyCall at h
  split at h
  · rename_i hform
    split at h
    · obtain ⟨hp, hskip⟩ := map_false_eq_some h
      exact ⟨Or.inl ⟨hform, patchWord_writes hp⟩, fun hs => by rw [hskip] at hs; cases hs⟩
    · cases h
  · rename_i hform
    split at h
    · obtain ⟨x, hx, heq⟩ := Option.map_eq_some_iff.mp h
      cases heq
      exact ⟨Or.inr ⟨by rw [hform]; decide, patchWord_writes hx⟩, fun _ => hform⟩
    · cases h
  · rename_i hform
    obtain ⟨hp, hskip⟩ := map_false_eq_some h
    exact ⟨Or.inr ⟨by rw [hform]; decide, patchWord_writes hp⟩, fun hs => by rw [hskip] at hs; cases hs⟩

/-- The upper part is written over two bytes or over four, whatever relaxation has done to the `lui`. -/
theorem applyHi20_cases (hd : d.WellFormed) (h : applyHi20 ctx d r out o = some (skip, out')) :
    skip = false ∧
      ((d.hasDeltaAt (d.outputToInputOffset o + 2) = true ∧ Writes out out' o (o + 2)) ∨
        (d.hasDeltaAt (d.outputToInputOffset o + 2) = false ∧
          patchWord 4 (writeToValue .uType (extractBitRange (ctx.absolute r.symbol r.addend) 0 32) false) out o =
            some out')) := by
  unfold applyHi20 at h
  simp only at h
  rw [hd.hasDeltaAt_outputToInputOffset o] at h
  simp only [Bool.false_eq_true, if_false] at h
  split at h
  · cases h
  · split at h
    · rename_i h2
      obtain ⟨hp, hskip⟩ := map_false_eq_some h
      exact ⟨hskip, Or.inl ⟨h2, patchWord_writes hp⟩⟩
    · rename_i h2
      obtain ⟨hp, hskip⟩ := map_false_eq_some h
      exact ⟨hskip, Or.inr ⟨by simpa using h2, hp⟩⟩

theorem applyLo12_writes {insn : RiscVInstruction} (h : applyLo12 ctx d insn r out o = some (skip, out')) :
    skip = false ∧ Writes out out' o (o + 4) := by
  unfold applyLo12 at h
  simp only at h
  split at h
  · obtain ⟨hp, hskip⟩ := map_false_eq_some h
    exact ⟨hskip, patchWord_writes hp⟩
  · cases h

theorem applyOther_writes (h : applyOther ctx r out o = some (skip, out')) :
    skip = false ∧ Writes out out' o (o + ctx.otherSize r) := by
  unfold applyOther at h
  split at h
  · rename_i hle
    cases h
    have hlen : (ctx.other r ((out.drop o).take (ctx.otherSize r))).length = ctx.otherSize r := by
      rw [ctx.other_length, List.length_take, List.length_drop]
      omega
    have hw : Writes out (overwrite out o (ctx.other r ((out.drop o).take (ctx.otherSize r)))) o
        (o + (ctx.other r ((out.drop o).take (ctx.otherSize r))).length) :=
      writes_overwrite (by rw [hlen]; exact hle)
    rw [hlen] at hw
    exact ⟨rfl, hw⟩
  · cases h

/-- A relocation writes at its place, not before. -/
theorem applyRelocation_start (hd : d.WellFormed) (h : applyRelocation ctx d out r = some (skip, out')) :
    ∃ hi, Writes out out' (d.inputToOutputOffset r.offset) hi := by
  unfold applyRelocation at h
  simp only at h
  split at h
  · cases h
    exact ⟨0, Writes.refl _ _ _⟩
  · split at h
    · rename_i hle
      cases h
      exact ⟨_, applyAlignment_writes hle⟩
    · cases h
  · rcases (applyCall_writes h).1 with ⟨-, h⟩ | ⟨-, h⟩
    · exact ⟨_, h⟩
    · exact ⟨_, h⟩
  · rcases (applyCall_writes h).1 with ⟨-, h⟩ | ⟨-, h⟩
    · exact ⟨_, h⟩
    · exact ⟨_, h⟩
  · rcases (applyHi20_cases hd h).2 with ⟨-, h⟩ | ⟨-, h⟩
    · exact ⟨_, h⟩
    · exact ⟨_, patchWord_writes h⟩
  · exact ⟨_, (applyLo12_writes h).2⟩
  · exact ⟨_, (applyLo12_writes h).2⟩
  · exact ⟨_, (applyOther_writes h).2⟩

/-- Only a call that the writer takes for a `jal` has the next relocation skipped. -/
theorem applyRelocation_skip (hd : d.WellFormed) (h : applyRelocation ctx d out r = some (true, out')) :
    r.isCall = true ∧ callForm ctx out (d.inputToOutputOffset r.offset) r = .jal := by
  unfold applyRelocation at h
  simp only at h
  split at h
  · cases h
  · split at h
    · cases h
    · cases h
  · rename_i hr
    exact ⟨by simp [Relocation.isCall, hr], (applyCall_writes h).2 rfl⟩
  · rename_i hr
    exact ⟨by simp [Relocation.isCall, hr], (applyCall_writes h).2 rfl⟩
  · cases (applyHi20_cases hd h).1
  · cases (applyLo12_writes h).1
  · cases (applyLo12_writes h).1
  · cases (applyOther_writes h).1

theorem untouched_shorten {ds : List (Nat × Nat)} {x n k : Nat} (h : Deletions.Untouched ds x (x + n))
    (hk : k ≤ n) : Deletions.Untouched ds x (x + k) :=
  fun e he => (h e he).imp id (fun h => by omega)

theorem Tracked.place_even (ht : Tracked s.relocations d) (heven : ∀ e ∈ d.raw, 2 ∣ e.2) {x : Nat} (hx : 2 ∣ x) :
    2 ∣ d.inputToOutputOffset x := by
  rw [ht.wellFormed.inputToOutputOffset_eq]
  exact Nat.dvd_sub hx (Deletions.dvd_before (fun e he _ => heven e he))

variable {x : Relocation}

/-- A deleted `lui` in front of a user overwrites it, halves it or stays away from it. -/
theorem step_lui (ht : Tracked s.relocations d) (hc : s.CodeOrdered ctx) (heven : ∀ e ∈ d.raw, 2 ∣ e.2)
    (hx : x ∈ s.relocations) (hlui : LuiDeleted d x) (hle : x.offset + x.span ctx ≤ o) (ho : 2 ∣ o)
    (hu : Deletions.Untouched d.raw o (o + 4))
    (h : applyHi20 ctx d x out (d.inputToOutputOffset x.offset) = some (skip, out')) :
    (¬ Overwrites d (d.inputToOutputOffset o) x ∧ ¬ Halves d (d.inputToOutputOffset o) x ∧
      ∃ lo hi, Writes out out' lo hi ∧ hi ≤ d.inputToOutputOffset o) ∨
    (Overwrites d (d.inputToOutputOffset o) x ∧ patchWord 4 (writeToValue .uType
      (extractBitRange (ctx.absolute x.symbol x.addend) 0 32) false) out (d.inputToOutputOffset o) = some out') ∨
    (Halves d (d.inputToOutputOffset o) x ∧ patchWord 4 (writeToValue .uType
      (extractBitRange (ctx.absolute x.symbol x.addend) 0 32) false) out (d.inputToOutputOffset x.offset) =
        some out') := by
  have hr : x.rType = .hi20 := hlui.1
  have hstart : d.inputToOutputOffset x.offset + 0 ≤ d.inputToOutputOffset o :=
    place_end_le ht (ht.clear hc hx (by simp [hr])) (by omega) (untouched_shorten hu (Nat.zero_le 4))
  have hx2 : 2 ∣ d.inputToOutputOffset x.offset :=
    ht.place_even heven (hc.even x hx (by simp [Relocation.isOther, hr]))
  have hy2 : 2 ∣ d.inputToOutputOffset o := ht.place_even heven ho
  obtain ⟨-, hcases⟩ := applyHi20_cases ht.wellFormed h
  by_cases h0 : d.inputToOutputOffset x.offset = d.inputToOutputOffset o
  · -- the user has moved to where the `lui` was
    have hback : d.outputToInputOffset (d.inputToOutputOffset x.offset) = o := by
      rw [h0]
      exact ht.wellFormed.outputToInputOffset_place (untouched_shorten hu (by omega))
    have hno : d.hasDeltaAt (o + 2) = false := by
      rw [Bool.eq_false_iff]
      intro hhas
      obtain ⟨b, hb⟩ := hasDeltaAt_iff.mp hhas
      rcases hu _ hb with h | h
      · simp only at h
        omega
      · simp only at h
        omega
    rcases hcases with ⟨hhas, -⟩ | ⟨-, hp⟩
    · rw [hback, hno] at hhas
      cases hhas
    · rw [h0] at hp
      exact Or.inr (Or.inl ⟨⟨hlui, h0⟩, hp⟩)
  · have hnot : ¬ Overwrites d (d.inputToOutputOffset o) x := fun h => h0 h.2
    by_cases h2 : d.inputToOutputOffset x.offset + 2 = d.inputToOutputOffset o
    · rcases hcases with ⟨hhas, hw⟩ | ⟨hno, hp⟩
      · refine Or.inl ⟨hnot, fun h => ?_, _, _, hw, by omega⟩
        rw [h.2.2] at hhas
        cases hhas
      · exact Or.inr (Or.inr ⟨⟨hlui, h2, hno⟩, hp⟩)
    · -- offsets are even, so four bytes fit in between
      refine Or.inl ⟨hnot, fun h => h2 h.2.1, ?_⟩
      rcases hcases with ⟨-, hw⟩ | ⟨-, hp⟩
      · exact ⟨_, _, hw, by omega⟩
      · exact ⟨_, _, patchWord_writes hp, by omega⟩

/-- A `lui` that is left writes its own bytes. -/
theorem step_lui_kept (ht : Tracked s.relocations d) (hc : s.CodeOrdered ctx) (hx : x ∈ s.relocations)
    (hr : x.rType = .hi20) (hno : d.hasDeltaAt x.offset = false) (hle : x.offset + x.span ctx ≤ o)
    (hclear : Deletions.Untouched d.raw o o)
    (h : applyHi20 ctx d x out (d.inputToOutputOffset x.offset) = some (skip, out')) :
    ∃ lo hi, Writes out out' lo hi ∧ hi ≤ d.inputToOutputOffset o := by
  have hspan : x.span ctx = 4 := by simp [Relocation.span, hr]
  obtain ⟨-, hcases⟩ := applyHi20_cases ht.wellFormed h
  obtain ⟨hk2, hk4⟩ := ht.lui_kept hc hx hr hno
  have hback : d.outputToInputOffset (d.inputToOutputOffset x.offset) = x.offset :=
    ht.wellFormed.outputToInputOffset_place (untouched_shorten hk2 (by omega))
  rw [hback] at hcases
  rcases hcases with ⟨-, hw⟩ | ⟨h2, hp⟩
  · exact ⟨_, _, hw, place_end_le ht hk2 (by omega) hclear⟩
  · exact ⟨_, _, patchWord_writes hp, place_end_le ht (hk4 h2) (by omega) hclear⟩

/-- A call writes what relaxation has left of it, if the writer recognises it. -/
theorem step_call (ht : Tracked s.relocations d) (hc : s.CodeOrdered ctx) (hx : x ∈ s.relocations)
    (hcall : x.isCall = true) (hrec : Recognised ctx d out x) (hle : x.offset + 8 ≤ o)
    (hclear : Deletions.Untouched d.raw o o)
    (h : applyCall ctx x out (d.inputToOutputOffset x.offset) = some (skip, out')) :
    ∃ lo hi, Writes out out' lo hi ∧ hi ≤ d.inputToOutputOffset o := by
  obtain ⟨h4, h8⟩ := ht.call_kept hc hx hcall
  rcases (applyCall_writes h).1 with ⟨hform, hw⟩ | ⟨-, hw⟩
  · have hno : d.hasDeltaAt (x.offset + 4) = false := by
      rw [Bool.eq_false_iff]
      intro hhas
      exact hrec.1 hhas hform
    exact ⟨_, _, hw, place_end_le ht (h8 hno) (by omega) hclear⟩
  · exact ⟨_, _, hw, place_end_le ht h4 (by omega) hclear⟩

/-- What is kept of the padding ends before what comes behind it. -/
theorem step_align (ht : Tracked s.relocations d) (hc : s.CodeOrdered ctx) (hx : x ∈ s.relocations)
    (hr : x.rType = .align) (hle : x.offset + x.span ctx ≤ o) (hclear : Deletions.Untouched d.raw o o)
    (hfit : d.inputToOutputOffset x.offset + keptPadding d x ≤ out.length) :
    ∃ lo hi, Writes out (applyAlignment d x out) lo hi ∧ hi ≤ d.inputToOutputOffset o := by
  refine ⟨_, _, applyAlignment_writes hfit, ?_⟩
  have hspan : x.span ctx = asU64 x.addend := by simp [Relocation.span, hr]
  by_cases ha : asU64 x.addend = 0
  · have hk : keptPadding d x = 0 := by
      unfold keptPadding
      omega
    rw [hk]
    exact place_end_le ht (ht.clear hc hx (by simp [hr])) (by omega) hclear
  · obtain ⟨htle, hbefore, hrange⟩ := ht.trimmed_range hc.apart.sitesApart hx hr ha
    rw [show x.offset + asU64 x.addend = x.offset + d.deltaBytesAt x.offset + keptPadding d x by
      unfold keptPadding; omega] at hrange
    have hend := place_end_le ht hrange (by unfold keptPadding; omega) hclear
    have hsame : d.inputToOutputOffset (x.offset + d.deltaBytesAt x.offset) = d.inputToOutputOffset x.offset := by
      rw [ht.wellFormed.inputToOutputOffset_eq, ht.wellFormed.inputToOutputOffset_eq]
      unfold Deletions.place
      omega
    rw [hsame] at hend
    exact hend

/-- **In front of a user** a relocation that is no deleted `lui` leaves its bytes alone. -/
theorem step_before (ht : Tracked s.relocations d) (hc : s.CodeOrdered ctx) (hx : x ∈ s.relocations)
    (hxr : x.rType ≠ .relax) (hlui : ¬ LuiDeleted d x) (hle : x.offset + x.span ctx ≤ o)
    (hclear : Deletions.Untouched d.raw o o) (hrec : x.isCall = true → Recognised ctx d out x)
    (h : applyRelocation ctx d out x = some (skip, out')) :
    ∃ lo hi, Writes out out' lo hi ∧ hi ≤ d.inputToOutputOffset o := by
  unfold applyRelocation at h
  simp only at h
  split at h
  · rename_i hr
    exact absurd hr hxr
  · rename_i hr
    split at h
    · rename_i hfit
      cases h
      exact step_align ht hc hx hr hle hclear hfit
    · cases h
  all_goals rename_i hr
  -- `call` and `callPlt`
  iterate 2
    have hcall : x.isCall = true := by simp [Relocation.isCall, hr]
    have hspan : x.span ctx = 8 := by simp [Relocation.span, hr]
    exact step_call ht hc hx hcall (hrec hcall) (by omega) hclear h
  · have hno : d.hasDeltaAt x.offset = false := by simpa using fun hdel => hlui ⟨hr, hdel⟩
    exact step_lui_kept ht hc hx hr hno hle hclear h
  all_goals have hk := ht.keeps hc hx hxr (by simp [Relocation.isSite, Relocation.isCall, hr])
  -- `lo12I` and `lo12S`
  iterate 2
    have hspan : x.span ctx = 4 := by simp [Relocation.span, hr]
    rw [hspan] at hk hle
    exact ⟨_, _, (applyLo12_writes h).2, place_end_le ht hk hle hclear⟩
  · have hspan : x.span ctx = ctx.otherSize x := by simp [Relocation.span, hr]
    rw [hspan] at hk hle
    exact ⟨_, _, (applyOther_writes h).2, place_end_le ht hk hle hclear⟩

end Step

end Reld
