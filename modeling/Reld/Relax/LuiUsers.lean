import Mathlib.Data.List.Induction
import Reld.Relax.LuiDeletion

/-!
# `Relax.LuiUsers` — the address that a user of a deleted `lui` computes

The four bytes of a user are followed through the loop of `apply_relocations`. What the relocations in front of
it leave there is `Window`; then the user itself is written; what comes behind does not reach it any more.
-/

namespace Reld

open SectionRelaxDeltas RelaxLink LittleEndian RiscVInstruction BitFields

/-! ## Bits -/

variable {v : BitVec 64}

theorem extractBitRange_congr {w : BitVec 64} {start stop : Nat} (hs : stop ≤ 64)
    (h : ∀ i, start ≤ i → i < stop → v.getLsbD i = w.getLsbD i) :
    extractBitRange v start stop = extractBitRange w start stop := by
  refine BitVec.eq_of_getLsbD_eq fun i _ => ?_
  rw [getLsbD_extractBitRange hs, getLsbD_extractBitRange hs]
  by_cases hi : i < stop - start
  · rw [h (start + i) (by omega) (by omega)]
  · simp [hi]

/-- A field is zero if its bits are. -/
theorem extractBitRange_eq_zero {start stop : Nat} (hs : stop ≤ 64)
    (h : ∀ i, start ≤ i → i < stop → v.getLsbD i = false) : extractBitRange v start stop = 0 := by
  refine BitVec.eq_of_getLsbD_eq fun i _ => ?_
  rw [getLsbD_extractBitRange hs]
  by_cases hi : i < stop - start
  · rw [h (start + i) (by omega) (by omega)]
    simp
  · simp [hi]

variable {i : Nat}

/-- The lower half of a value has the upper part of the whole. -/
theorem getLsbD_round (v : BitVec 64) (hi : i < 32) :
    (extractBitRange v 0 32 + 0x800).getLsbD i = (v + 0x800).getLsbD i := by
  have hnat : (extractBitRange v 0 32).toNat = v.toNat % 2 ^ 32 := by
    unfold extractBitRange
    rw [if_neg (by decide), BitVec.toNat_and, BitVec.toNat_ushiftRight, BitVec.toNat_ofNat,
      Nat.shiftRight_zero, Nat.mod_eq_of_lt (by decide), Nat.sub_zero, Nat.and_two_pow_sub_one_eq_mod]
  have hmod : ∀ n : Nat, n.testBit i = (n % 2 ^ 32).testBit i := by
    intro n
    rw [Nat.testBit_mod_two_pow, decide_eq_true hi, Bool.true_and]
  have hconst : (0x800 : BitVec 64).toNat = 0x800 := rfl
  have hsum : (v.toNat % 2 ^ 32 + 0x800) % 2 ^ 64 % 2 ^ 32 = (v.toNat + 0x800) % 2 ^ 64 % 2 ^ 32 := by omega
  rw [← BitVec.testBit_toNat, ← BitVec.testBit_toNat, BitVec.toNat_add, BitVec.toNat_add, hnat, hconst,
    hmod, hsum, ← hmod]

/-- A `lui` that leaves zero has an upper part without bits. -/
theorem upper_bits (h : luiValue v = 0) (hlo : 12 ≤ i) (hi : i < 32) :
    (v + 0x800).getLsbD i = false := by
  have hbit : (luiValue v).getLsbD i = false := by
    rw [h]
    exact BitVec.getLsbD_zero
  unfold luiValue signExtendFrom at hbit
  rw [BitVec.getLsbD_signExtend, decide_eq_true (by omega : i < 64), Bool.true_and, if_pos hi,
    BitVec.getLsbD_setWidth, decide_eq_true hi, Bool.true_and, BitVec.getLsbD_shiftLeft,
    getLsbD_extractBitRange (by decide)] at hbit
  simpa [show ¬ i < 12 by omega, show i - 12 < 20 by omega, show i < 64 by omega,
    show 12 + (i - 12) = i by omega] using hbit

theorem uTypeFields_covers (hi : i < 32) : covers uTypeFields i = decide (12 ≤ i) := by
  unfold covers uTypeFields
  simp [BitField.holds, hi]

/-- An upper part of zero, written over a word, clears its bits from 12 on. -/
theorem uType_bits {word : BitVec 64} (h : luiValue v = 0) (hi : i < 32) :
    (writeToValue .uType (extractBitRange v 0 32) false word).getLsbD i =
      (decide (i < 12) && word.getLsbD i) := by
  have hfits : ∀ f ∈ uTypeFields, f.Fits 64 := by decide
  show (writeUType (extractBitRange v 0 32) word).getLsbD i = _
  rw [writeUType_eq]
  by_cases hlo : i < 12
  · rw [write_outside hfits _ _ (by rw [uTypeFields_covers hi]; simpa using hlo), decide_eq_true hlo, Bool.true_and]
  · rw [write_inside hfits _ _ (by rw [uTypeFields_covers hi]; simpa using hlo), getLsbD_scatter hfits,
      decide_eq_false hlo, Bool.false_and]
    simp only [uTypeFields, List.any_cons, List.any_nil, Bool.or_false]
    rw [show 12 + (i - 12) = i by omega, getLsbD_round v hi, upper_bits h (by omega) hi, Bool.and_false]

/-- The fields of a lower part. -/
def lo12Fields (rType : RelocationType) : List BitField := if rType = .lo12S then sTypeFields else iTypeFields

theorem withLow_eq (rType : RelocationType) (v word : BitVec 64) :
    withLow rType v word = write (lo12Fields rType) (extractBitRange v 0 32) word := by
  unfold withLow lo12Format lo12Fields
  split
  · exact writeSType_eq _ _
  · exact writeIType_eq _ _

theorem lo12Fields_fit (rType : RelocationType) : ∀ f ∈ lo12Fields rType, f.Fits 64 := by
  unfold lo12Fields
  split <;> decide

/-- The opcode and the base register are no part of the lower part. -/
theorem lo12Fields_covers (rType : RelocationType) (hi : i < 7 ∨ (12 ≤ i ∧ i < 20)) :
    covers (lo12Fields rType) i = false := by
  unfold lo12Fields covers
  split
  · simp only [sTypeFields, List.any_cons, List.any_nil, BitField.holds, Bool.or_false, Bool.or_eq_false_iff,
      decide_eq_false_iff_not]
    omega
  · simp only [iTypeFields, List.any_cons, List.any_nil, BitField.holds, Bool.or_false, decide_eq_false_iff_not]
    omega

theorem withLow_outside (rType : RelocationType) (v word : BitVec 64) (hi : i < 7 ∨ (12 ≤ i ∧ i < 20)) :
    (withLow rType v word).getLsbD i = word.getLsbD i := by
  rw [withLow_eq, write_outside (lo12Fields_fit rType) _ _ (lo12Fields_covers rType hi)]

/-- What an instruction held before does not matter for the offset that is written. -/
theorem lowImmediate_withLow (rType : RelocationType) (v w w' : BitVec 64) :
    lowImmediate rType (withLow rType v w) = lowImmediate rType (withLow rType v w') := by
  have hbit : ∀ i, covers (lo12Fields rType) i = true →
      (withLow rType v w).getLsbD i = (withLow rType v w').getLsbD i := by
    intro i h
    rw [withLow_eq, withLow_eq, write_inside (lo12Fields_fit rType) _ _ h, write_inside (lo12Fields_fit rType) _ _ h]
  unfold lowImmediate
  by_cases hr : rType = .lo12S
  · have hcov : ∀ i, 7 ≤ i ∧ i < 12 ∨ 25 ≤ i ∧ i < 32 → covers (lo12Fields rType) i = true := by
      unfold lo12Fields covers
      rw [if_pos hr]
      simp only [sTypeFields, List.any_cons, List.any_nil, BitField.holds, Bool.or_false, Bool.or_eq_true,
        decide_eq_true_eq]
      omega
    rw [if_pos hr, if_pos hr, extractBitRange_congr (by decide) (fun i h h' => hbit i (hcov i (Or.inl ⟨h, h'⟩))),
      extractBitRange_congr (by decide) (fun i h h' => hbit i (hcov i (Or.inr ⟨h, h'⟩)))]
  · have hcov : ∀ i, 20 ≤ i ∧ i < 32 → covers (lo12Fields rType) i = true := by
      unfold lo12Fields covers
      rw [if_neg hr]
      simp only [iTypeFields, List.any_cons, List.any_nil, BitField.holds, Bool.or_false, decide_eq_true_eq]
      omega
    rw [if_neg hr, if_neg hr, extractBitRange_congr (by decide) (fun i h h' => hbit i (hcov i ⟨h, h'⟩))]

/-! ## In front of the user -/

section Front

variable {ctx : RelocationContext} {s : RelaxSection} {d : SectionRelaxDeltas} {front : List Relocation} {o : Nat}

theorem overwritten_snoc (x : Relocation) :
    Overwritten d (front ++ [x]) o ↔ Overwritten d front o ∨ Overwrites d (d.inputToOutputOffset o) x := by
  unfold Overwritten
  simp [or_and_right, exists_or]

theorem halved_snoc (x : Relocation) :
    Halved d (front ++ [x]) o ↔ Halved d front o ∨ Halves d (d.inputToOutputOffset o) x := by
  unfold Halved
  simp [or_and_right, exists_or]

/-- The output where the instruction `word` from `o` is, after the relocations in front of it. -/
structure Window (d : SectionRelaxDeltas) (front : List Relocation) (o : Nat) (word : BitVec 64)
    (out : Bytes) : Prop where
  halved : Halved d front o → ∀ i < 8, bitAt out (8 * d.inputToOutputOffset o + i) = false
  low : ¬ Halved d front o → ∀ i < 12, bitAt out (8 * d.inputToOutputOffset o + i) = word.getLsbD i
  high : ¬ Halved d front o → ∀ i, 12 ≤ i → i < 32 →
    bitAt out (8 * d.inputToOutputOffset o + i) = (decide (¬ Overwritten d front o) && word.getLsbD i)

variable {word : BitVec 64} {out out' : Bytes} {x : Relocation}

theorem Window.keep (hw : Window d front o word out) (hx : ¬ Overwrites d (d.inputToOutputOffset o) x)
    (hx' : ¬ Halves d (d.inputToOutputOffset o) x)
    (hbits : ∀ i < 32, bitAt out' (8 * d.inputToOutputOffset o + i) = bitAt out (8 * d.inputToOutputOffset o + i)) :
    Window d (front ++ [x]) o word out' := by
  have hh : Halved d (front ++ [x]) o ↔ Halved d front o := by
    rw [halved_snoc, or_iff_left hx']
  have ho : Overwritten d (front ++ [x]) o ↔ Overwritten d front o := by
    rw [overwritten_snoc, or_iff_left hx]
  refine ⟨fun h i hi => ?_, fun h i hi => ?_, fun h i hlo hi => ?_⟩
  · rw [hbits i (by omega), hw.halved (hh.mp h) i hi]
  · rw [hbits i (by omega), hw.low (fun h' => h (hh.mpr h')) i hi]
  · rw [hbits i hi, hw.high (fun h' => h (hh.mpr h')) i hlo hi]
    simp only [ho]

theorem Window.overwrite (hw : Window d front o word out) (hx : Overwrites d (d.inputToOutputOffset o) x)
    (hz : luiValue (ctx.absolute x.symbol x.addend) = 0)
    (h : patchWord 4 (writeToValue .uType (extractBitRange (ctx.absolute x.symbol x.addend) 0 32) false) out
      (d.inputToOutputOffset o) = some out') : Window d (front ++ [x]) o word out' := by
  have hbit : ∀ i < 32, bitAt out' (8 * d.inputToOutputOffset o + i) =
      (decide (i < 12) && bitAt out (8 * d.inputToOutputOffset o + i)) := by
    intro i hi
    rw [patchWord_bit h (by omega), uType_bits hz hi, getLsbD_wordAt, decide_eq_true (by omega : i < 64),
      Bool.true_and]
  have hno : ¬ Halves d (d.inputToOutputOffset o) x := by
    intro h
    have h1 := hx.2
    have h2 := h.2.1
    omega
  have hh : Halved d (front ++ [x]) o ↔ Halved d front o := by
    rw [halved_snoc, or_iff_left hno]
  have ho : Overwritten d (front ++ [x]) o := overwritten_snoc x |>.mpr (Or.inr hx)
  refine ⟨fun h i hi => ?_, fun h i hi => ?_, fun h i hlo hi => ?_⟩
  · rw [hbit i (by omega), hw.halved (hh.mp h) i hi, Bool.and_false]
  · rw [hbit i (by omega), hw.low (fun h' => h (hh.mpr h')) i hi, decide_eq_true hi, Bool.true_and]
  · rw [hbit i hi, decide_eq_false (by omega : ¬ i < 12), decide_eq_false (fun h' => h' ho), Bool.false_and,
      Bool.false_and]

theorem Window.halve (hx : Halves d (d.inputToOutputOffset o) x)
    (hz : luiValue (ctx.absolute x.symbol x.addend) = 0)
    (h : patchWord 4 (writeToValue .uType (extractBitRange (ctx.absolute x.symbol x.addend) 0 32) false) out
      (d.inputToOutputOffset x.offset) = some out') : Window d (front ++ [x]) o word out' := by
  have hh : Halved d (front ++ [x]) o := halved_snoc x |>.mpr (Or.inr hx)
  refine ⟨fun _ i hi => ?_, fun h => absurd hh h, fun h => absurd hh h⟩
  -- the two bytes before the instruction are the lower half of what is written
  have hpos : 8 * d.inputToOutputOffset o + i = 8 * d.inputToOutputOffset x.offset + (16 + i) := by
    have := hx.2.1
    omega
  rw [hpos, patchWord_bit h (by omega), uType_bits hz (by omega), decide_eq_false (by omega : ¬ 16 + i < 12),
    Bool.false_and]

/-! ## The run up to the user -/

/-- The bytes of an instruction without deletions are copied to its place. -/
theorem window_start (ht : Tracked s.relocations d) (hu : Deletions.Untouched d.raw o (o + 4))
    (hin : o + 4 ≤ s.bytes.length) :
    Window d [] o (wordAt s.bytes o) (populateSectionOutput s.bytes d) := by
  obtain ⟨pre, post, heq, hlen⟩ := Deletions.compact_range ht.wellFormed.separated (Nat.le_add_right o 4) hin hu
  have hbit : ∀ i < 32, bitAt (populateSectionOutput s.bytes d) (8 * d.inputToOutputOffset o + i) =
      (wordAt s.bytes o).getLsbD i := by
    intro i hi
    have hmid : ((s.bytes.take (o + 4)).drop o).length = 4 := by
      rw [List.length_drop, List.length_take]
      omega
    rw [populateSectionOutput_eq, heq, ht.wellFormed.inputToOutputOffset_eq, ← hlen, bitAt_append,
      List.length_append, hmid, if_pos (by omega), bitAt_append, if_neg (by omega),
      show 8 * pre.length + i - 8 * pre.length = i by omega, bitAt_drop, bitAt_take (by omega), getLsbD_wordAt,
      decide_eq_true (by omega : i < 64), Bool.true_and]
  have hno : ¬ Overwritten d [] o := fun ⟨x, hx, _⟩ => absurd hx List.not_mem_nil
  refine ⟨fun ⟨x, hx, _⟩ => absurd hx List.not_mem_nil, fun _ i hi => hbit i (by omega), fun _ i _ hi => ?_⟩
  rw [hbit i hi, decide_eq_true hno, Bool.true_and]

variable {rest : List Relocation} {r : Relocation}

/-- Relocations in front of another one end where it starts. -/
theorem SpansApart.before (h : SpansApart ctx (front ++ rest)) (hx : x ∈ front) (hr : r ∈ rest) (hxr : x.rType ≠ .relax)
    (hrelax : r.rType ≠ .relax) (hother : r.isOther = false) :
    x.offset + x.span ctx ≤ r.offset := by
  obtain ⟨-, -, hcross⟩ := List.pairwise_append.mp h
  rcases hcross x hx r hr with h | h | ⟨-, h⟩ | h
  · exact absurd h hxr
  · exact absurd h hrelax
  · rw [hother] at h
    cases h
  · exact h

/-- A relocation that takes up bytes occurs once. -/
theorem split_unique {xs ys xs' ys' : List Relocation} (h : SpansApart ctx (xs ++ r :: ys))
    (heq : xs ++ r :: ys = xs' ++ r :: ys') (hr : r.rType ≠ .relax) (ho : r.isOther = false) (hspan : 0 < r.span ctx) :
    ys = ys' := by
  have hirr : ¬ (r.rType = .relax ∨ r.rType = .relax ∨ (r.isOther = true ∧ r.isOther = true) ∨
      r.offset + r.span ctx ≤ r.offset) := by
    rintro (h | h | ⟨h, -⟩ | h)
    · exact hr h
    · exact hr h
    · rw [ho] at h
      cases h
    · omega
  have hnot : ∀ {zs ws}, SpansApart ctx (zs ++ r :: ws) → r ∉ ws := fun h hmem =>
    hirr ((List.pairwise_cons.mp (List.pairwise_append.mp h).2.1).1 r hmem)
  have h' := h
  rw [heq] at h'
  rcases List.append_eq_append_iff.mp heq with ⟨as, hxs, hrest⟩ | ⟨as, hxs, hrest⟩
  · cases as with
    | nil => simpa using hrest
    | cons a as =>
      obtain ⟨-, hrest⟩ := List.cons.inj hrest
      exact absurd (by rw [hrest]; simp) (hnot h)
  · cases as with
    | nil => simpa using hrest.symm
    | cons a as =>
      obtain ⟨-, hrest⟩ := List.cons.inj hrest
      exact absurd (by rw [hrest]; simp) (hnot h')

/-- A call that is taken for a `jal` has lost its `jalr`, and so an `R_RISCV_RELAX` comes next. -/
theorem relax_next (ht : Tracked s.relocations d) (hc : s.CodeOrdered ctx) (hsplit : s.relocations = front ++ x :: rest)
    (hcall : x.isCall = true) (hdel : d.hasDeltaAt (x.offset + 4) = true) :
    ∃ y rest', rest = y :: rest' ∧ y.rType = .relax := by
  obtain ⟨hrelax, hother, hspan⟩ := @Relocation.call_plain ctx x hcall
  have hwaits : x.waits = true := by simp [Relocation.waits, hcall]
  have hx : x ∈ s.relocations := by
    rw [hsplit]
    exact List.mem_append_cons_self
  obtain ⟨b, hb⟩ := hasDeltaAt_iff.mp hdel
  rcases ht.owner hc hx hrelax hb with h | ⟨-, hfollowed⟩ | h
  · simp only at h
    omega
  · obtain ⟨pre, y, post, heq, hy⟩ := hfollowed hwaits
    have hapart := hc.apart
    rw [hsplit] at hapart heq
    exact ⟨y, post, split_unique hapart heq hrelax hother (by omega), hy⟩
  · simp only at h
    omega

theorem not_hi20_lui (hx : x.rType = .relax) {y : Nat} : ¬ Overwrites d y x ∧ ¬ Halves d y x := by
  constructor
  · rintro ⟨⟨h, -⟩, -⟩
    rw [hx] at h
    cases h
  · rintro ⟨⟨h, -⟩, -⟩
    rw [hx] at h
    cases h

theorem CallsRecognised.init {inputData : Bytes} (h : CallsRecognised ctx d (front ++ rest) inputData) :
    CallsRecognised ctx d front inputData := by
  intro pre r post out hsplit
  exact h pre r (post ++ rest) out (by rw [hsplit, List.append_assoc, List.cons_append])

/-- **The run up to an instruction.** By induction on the relocations in front of it, each of which writes in front
    of the instruction, or is a deleted `lui` that is written over it. The relocation that is skipped behind a `jal`
    is the `R_RISCV_RELAX`, never a `lui`. -/
theorem front_run {P : List Relocation → Bytes → Prop} (ht : Tracked s.relocations d) (hc : s.CodeOrdered ctx)
    (heven : ∀ e ∈ d.raw, 2 ∣ e.2) (hrelax : r.rType ≠ .relax) (hother : r.isOther = false)
    (hu : Deletions.Untouched d.raw r.offset (r.offset + 4)) (hstart : P [] (populateSectionOutput s.bytes d))
    (hkeep : ∀ {front x out out' lo hi}, P front out → ¬ Overwrites d (d.inputToOutputOffset r.offset) x →
      ¬ Halves d (d.inputToOutputOffset r.offset) x → Writes out out' lo hi → hi ≤ d.inputToOutputOffset r.offset →
        P (front ++ [x]) out')
    (hover : ∀ {front x out out'}, P front out → Overwrites d (d.inputToOutputOffset r.offset) x →
      patchWord 4 (writeToValue .uType (extractBitRange (ctx.absolute x.symbol x.addend) 0 32) false) out
        (d.inputToOutputOffset r.offset) = some out' → P (front ++ [x]) out')
    (hhalve : ∀ {front x out out'}, P front out → Halves d (d.inputToOutputOffset r.offset) x →
      patchWord 4 (writeToValue .uType (extractBitRange (ctx.absolute x.symbol x.addend) 0 32) false) out
        (d.inputToOutputOffset x.offset) = some out' → P (front ++ [x]) out') :
    ∀ (front rest : List Relocation), s.relocations = front ++ rest → r ∈ rest →
      CallsRecognised ctx d front s.bytes → ∀ skip out,
        front.foldlM (relocationStep ctx d) (false, populateSectionOutput s.bytes d) = some (skip, out) →
        P front out ∧ (skip = true → ∃ y rest', rest = y :: rest' ∧ y.rType = .relax) := by
  intro front
  induction front using List.reverseRecOn with
  | nil =>
    intro rest _ _ _ skip out h
    cases h
    exact ⟨hstart, fun h => by cases h⟩
  | append_singleton front x ih =>
    intro rest hsplit hr hrec skip out h
    have hfirst := CallsRecognised.init hrec
    rw [List.append_assoc, List.singleton_append] at hsplit
    rw [List.foldlM_append] at h
    obtain ⟨⟨skip₁, out₁⟩, hfront, hstep⟩ := Option.bind_eq_some_iff.mp h
    obtain ⟨_, hstep, hend⟩ := Option.bind_eq_some_iff.mp hstep
    cases hend
    obtain ⟨hp, hskip⟩ := ih (x :: rest) hsplit (List.mem_cons_of_mem _ hr) hfirst skip₁ out₁ hfront
    have hx : x ∈ s.relocations := by
      rw [hsplit]
      exact List.mem_append_cons_self
    unfold relocationStep at hstep
    cases skip₁ with
    | true =>
      obtain ⟨y, rest', hy, hyr⟩ := hskip rfl
      cases hy
      cases hstep
      obtain ⟨h1, h2⟩ := @not_hi20_lui d x hyr (d.inputToOutputOffset r.offset)
      exact ⟨hkeep hp h1 h2 (Writes.refl _ 0 0) (Nat.zero_le _), fun h => by cases h⟩
    | false =>
      simp only [Bool.false_eq_true, if_false] at hstep
      by_cases hxr : x.rType = .relax
      · unfold applyRelocation at hstep
        simp only [hxr] at hstep
        cases hstep
        obtain ⟨h1, h2⟩ := @not_hi20_lui d x hxr (d.inputToOutputOffset r.offset)
        exact ⟨hkeep hp h1 h2 (Writes.refl _ 0 0) (Nat.zero_le _), fun h => by cases h⟩
      · have hrecx : x.isCall = true → Recognised ctx d out₁ x := fun hcall =>
          hrec front x [] out₁ rfl hcall hfront
        have hmem : r ∈ s.relocations := by
          rw [hsplit]
          exact List.mem_append_right _ (List.mem_cons_of_mem _ hr)
        have hapart := hc.apart
        rw [hsplit, ← List.singleton_append, ← List.append_assoc] at hapart
        have hle := hapart.before List.mem_append_cons_self hr hxr hrelax hother
        have hclear := untouched_shorten hu (Nat.zero_le 4)
        refine ⟨?_, ?_⟩
        · by_cases hlui : LuiDeleted d x
          · have hlstep : applyHi20 ctx d x out₁ (d.inputToOutputOffset x.offset) = some (skip, out) := by
              unfold applyRelocation at hstep
              simpa only [hlui.1] using hstep
            rcases step_lui ht hc heven hx hlui hle (hc.even r hmem hother) hu hlstep with
              ⟨h1, h2, lo, hi, hwrites, hhi⟩ | ⟨hov, hpatch⟩ | ⟨hhv, hpatch⟩
            · exact hkeep hp h1 h2 hwrites hhi
            · exact hover hp hov hpatch
            · exact hhalve hp hhv hpatch
          · obtain ⟨lo, hi, hwrites, hhi⟩ := step_before ht hc hx hxr hlui hle hclear hrecx hstep
            exact hkeep hp (fun h => hlui h.1) (fun h => hlui h.1) hwrites hhi
        · intro hs
          subst hs
          obtain ⟨hcall, hform⟩ := applyRelocation_skip ht.wellFormed hstep
          exact relax_next ht hc hsplit hcall ((hrecx hcall).2 hform)

/-- A user is a whole instruction, and none that is relaxed. -/
theorem user_spec (ctx : RelocationContext) (hlow : r.isLo12 = true) :
    r.span ctx = 4 ∧ r.rType ≠ .relax ∧ r.isSite = false ∧ r.isOther = false := by
  have hrt : r.rType = .lo12I ∨ r.rType = .lo12S := by simpa [Relocation.isLo12] using hlow
  rcases hrt with h | h <;> simp [Relocation.span, Relocation.isSite, Relocation.isCall, Relocation.isOther, h]

/-- **The run up to the user.** -/
theorem window_run (ht : Tracked s.relocations d) (hc : s.CodeOrdered ctx) (heven : ∀ e ∈ d.raw, 2 ∣ e.2)
    (hrec : CallsRecognised ctx d s.relocations s.bytes) (hlow : r.isLo12 = true) {front : List Relocation}
    (hsplit : s.relocations = front ++ rest) (hr : r ∈ rest) (hz : UppersZero ctx d front r.offset) {skip : Bool}
    {out : Bytes}
    (h : front.foldlM (relocationStep ctx d) (false, populateSectionOutput s.bytes d) = some (skip, out)) :
    Window d front r.offset (wordAt s.bytes r.offset) out ∧
      (skip = true → ∃ y rest', rest = y :: rest' ∧ y.rType = .relax) := by
  obtain ⟨hspan, hrelax, hsite, hother⟩ := user_spec ctx hlow
  have hmem : r ∈ s.relocations := by
    rw [hsplit]
    exact List.mem_append_right _ hr
  have hu := ht.keeps hc hmem hrelax hsite
  have hin := hc.inside r hmem
  rw [hspan] at hu hin
  have hz' : ∀ {front : List Relocation} {x : Relocation}, UppersZero ctx d (front ++ [x]) r.offset →
      UppersZero ctx d front r.offset ∧ (Overwrites d (d.inputToOutputOffset r.offset) x ∨
        Halves d (d.inputToOutputOffset r.offset) x → luiValue (ctx.absolute x.symbol x.addend) = 0) :=
    fun hz => ⟨fun y hy => hz y (List.mem_append_left _ hy), hz _ List.mem_append_cons_self⟩
  obtain ⟨hw, hskip⟩ := @front_run ctx s d r
    (fun front out => UppersZero ctx d front r.offset → Window d front r.offset (wordAt s.bytes r.offset) out)
    ht hc heven hrelax hother hu (fun _ => window_start ht hu hin)
    (fun hw h1 h2 hwrites hhi hz => (hw (hz' hz).1).keep h1 h2 fun i _ => hwrites.outside _ (Or.inr (by omega)))
    (fun hw hov hpatch hz => (hw (hz' hz).1).overwrite hov ((hz' hz).2 (Or.inl hov)) hpatch)
    (fun _ hhv hpatch hz => Window.halve hhv ((hz' hz).2 (Or.inr hhv)) hpatch)
    front rest hsplit hr (CallsRecognised.init (hsplit ▸ hrec)) skip out h
  exact ⟨hw hz, hskip⟩

/-! ## Behind the user -/

/-- What comes behind does not reach back. -/
theorem behind_run (hd : d.WellFormed) {stop : Nat} :
    ∀ (rest : List Relocation) (state state' : Bool × Bytes),
      (∀ y ∈ rest, y.rType ≠ .relax → stop ≤ d.inputToOutputOffset y.offset) →
      rest.foldlM (relocationStep ctx d) state = some state' → ∀ k < 8 * stop, bitAt state'.2 k = bitAt state.2 k
  | [], state, state', _, h => by
    cases h
    exact fun _ _ => rfl
  | y :: rest, state, state', hstop, h => by
    rw [List.foldlM_cons] at h
    obtain ⟨mid, hstep, hrest⟩ := Option.bind_eq_some_iff.mp h
    intro k hk
    rw [behind_run hd rest mid state' (fun z hz => hstop z (List.mem_cons_of_mem _ hz)) hrest k hk]
    unfold relocationStep at hstep
    split at hstep
    · cases hstep
      rfl
    · by_cases hy : y.rType = .relax
      · unfold applyRelocation at hstep
        simp only [hy] at hstep
        cases hstep
        rfl
      · obtain ⟨hi, hw⟩ := applyRelocation_start hd hstep
        have := hstop y List.mem_cons_self hy
        exact hw.outside k (Or.inl (by omega))

end Front

/-! ## The user -/

section User

variable {ctx : RelocationContext} {d : SectionRelaxDeltas} {r : Relocation} {out out' : Bytes} {skip : Bool}

theorem getLsbD_rs1Mask (i : Nat) : rs1Mask.getLsbD i = decide (15 ≤ i ∧ i < 20) := by
  have hones : (0x1f : BitVec 64) = BitVec.ofNat 64 (2 ^ 5 - 1) := rfl
  unfold rs1Mask
  rw [hones, BitVec.getLsbD_shiftLeft, BitField.getLsbD_ones, Bool.eq_iff_iff]
  simp only [Bool.and_eq_true, Bool.not_eq_true', decide_eq_true_eq, decide_eq_false_iff_not]
  omega

/-- The word that the lower part is written into. -/
def baseCheckedWord (d : SectionRelaxDeltas) (out : Bytes) (offset : Nat) : BitVec 64 :=
  if rs1ToZero d out offset then wordAt out offset &&& ~~~ rs1Mask else wordAt out offset

theorem applyRelocation_lo12 (hlow : r.isLo12 = true) :
    applyRelocation ctx d out r =
      applyLo12 ctx d (lo12Format r.rType) r out (d.inputToOutputOffset r.offset) := by
  have hrt : r.rType = .lo12I ∨ r.rType = .lo12S := by simpa [Relocation.isLo12] using hlow
  unfold applyRelocation lo12Format
  rcases hrt with h | h <;> simp [h]

theorem lo12_bits {y : Nat} (h : applyLo12 ctx d (lo12Format r.rType) r out y = some (skip, out')) :
    skip = false ∧ y + 4 ≤ out.length ∧ ∀ i < 32, bitAt out' (8 * y + i) =
      (withLow r.rType (ctx.absolute r.symbol r.addend) (baseCheckedWord d out y)).getLsbD i := by
  unfold applyLo12 at h
  simp only at h
  split at h
  · obtain ⟨hp, hskip⟩ := map_false_eq_some h
    refine ⟨hskip, ?_, fun i hi => ?_⟩
    · unfold patchWord at hp
      split at hp
      · assumption
      · cases hp
    · rw [patchWord_bit hp (by omega)]
      rfl
  · cases h

theorem rs1Of_baseCheckedWord (y : Nat) :
    rs1Of (baseCheckedWord d out y) = if rs1ToZero d out y then 0 else rs1Of (wordAt out y) := by
  unfold baseCheckedWord rs1Of
  split
  · refine extractBitRange_eq_zero (by decide) fun i hlo hhi => ?_
    have hin : decide (15 ≤ i ∧ i < 20) = true := decide_eq_true ⟨hlo, hhi⟩
    rw [BitVec.getLsbD_and, BitVec.getLsbD_not, getLsbD_rs1Mask, hin, Bool.not_true, Bool.and_false,
      Bool.and_false]
  · rfl

theorem opcode_baseCheckedWord (y : Nat) {i : Nat} (hi : i < 7) :
    (baseCheckedWord d out y).getLsbD i = (wordAt out y).getLsbD i := by
  unfold baseCheckedWord
  split
  · rw [BitVec.getLsbD_and, BitVec.getLsbD_not, getLsbD_rs1Mask, decide_eq_true (by omega : i < 64),
      decide_eq_false (by omega : ¬ (15 ≤ i ∧ i < 20))]
    simp
  · rfl

theorem lowImmediate_congr (rType : RelocationType) {v w : BitVec 64} (h : ∀ i < 32, v.getLsbD i = w.getLsbD i) :
    lowImmediate rType v = lowImmediate rType w := by
  unfold lowImmediate
  rw [extractBitRange_congr (by decide : 12 ≤ 64) (fun i _ hi => h i (by omega)),
    extractBitRange_congr (by decide : 32 ≤ 64) (fun i _ hi => h i hi),
    @extractBitRange_congr v w 20 32 (by decide) (fun i _ hi => h i hi)]

/-- Two registers hold the same for all contents only if both are zero. -/
theorem readReg_eq_iff {f rd value : BitVec 64} :
    (∀ regs : Nat → BitVec 64, readReg regs f = readReg (fun r => if r = rd.toNat then value else regs r) rd) ↔
      f = 0 ∧ (rd = 0 ∨ value = 0) := by
  have htarget : ∀ regs : Nat → BitVec 64,
      readReg (fun r => if r = rd.toNat then value else regs r) rd = if rd = 0 then 0 else value := by
    intro regs
    unfold readReg
    simp
  constructor
  · intro h
    have hf : f = 0 := by
      by_contra hne
      -- registers that hold something else
      have h1 := h (fun _ => (if rd = 0 then 0 else value) + 1)
      rw [htarget] at h1
      unfold readReg at h1
      rw [if_neg hne] at h1
      have h2 := BitVec.add_right_eq_self.mp h1
      exact absurd h2 (by decide)
    refine ⟨hf, ?_⟩
    have h1 := h (fun _ => 0)
    rw [htarget, hf] at h1
    by_cases hrd : rd = 0
    · exact Or.inl hrd
    · rw [if_neg hrd] at h1
      exact Or.inr h1.symm
  · rintro ⟨rfl, h⟩ regs
    rw [htarget]
    rcases h with h | h
    · rw [if_pos h]
      rfl
    · rw [h, ite_self]
      rfl

/-- When an instruction with the lower part in it keeps its address. -/
theorem keepsAddress_iff {rType : RelocationType} {value word base final : BitVec 64}
    (hfinal : ∀ i < 32, final.getLsbD i = (withLow rType value base).getLsbD i) :
    KeepsAddress rType value (rs1Of word) word final ↔
      extractBitRange base 0 7 = extractBitRange word 0 7 ∧ rs1Of base = 0 ∧
        (rs1Of word = 0 ∨ luiValue value = 0) := by
  have hop : extractBitRange final 0 7 = extractBitRange base 0 7 :=
    extractBitRange_congr (by decide) fun i _ hi => by
      rw [hfinal i (by omega), withLow_outside rType value base (Or.inl hi)]
  have hrs1 : ∀ v w : BitVec 64, (∀ i < 32, v.getLsbD i = (withLow rType value w).getLsbD i) →
      rs1Of v = rs1Of w := fun v w h =>
    extractBitRange_congr (by decide) fun i hlo hi => by
      rw [h i (by omega), withLow_outside rType value w (Or.inr ⟨by omega, hi⟩)]
  have himm : lowImmediate rType final = lowImmediate rType (withLow rType value word) := by
    rw [lowImmediate_congr rType hfinal, lowImmediate_withLow rType value base word]
  unfold KeepsAddress effectiveAddress
  rw [hop, hrs1 final base hfinal, hrs1 (withLow rType value word) word (fun _ _ => rfl), himm]
  simp only [BitVec.add_left_inj]
  rw [readReg_eq_iff]

end User

/-! ## The user in the output -/

section Output

variable {ctx : RelocationContext} {s : RelaxSection} {d : SectionRelaxDeltas}

/-- The writer clears the base register of an instruction that looks like one behind a deleted `lui`. -/
theorem rs1ToZero_iff {out : Bytes} {o : Nat} (hd : d.WellFormed) (hu : Deletions.Untouched d.raw o (o + 4))
    (hfit : d.inputToOutputOffset o + 4 ≤ out.length) :
    rs1ToZero d out (d.inputToOutputOffset o) = true ↔
      4 ≤ o ∧ d.deltaBytesAt (o - 4) = 4 ∧
        rdOf (wordAt out (d.inputToOutputOffset o)) = rs1Of (wordAt out (d.inputToOutputOffset o)) := by
  unfold rs1ToZero
  simp only [hd.outputToInputOffset_place (untouched_shorten hu (by omega : 1 ≤ 4)), Bool.and_eq_true,
    decide_eq_true_eq, beq_iff_eq, hfit, and_true, and_assoc]

section Fields

variable {front : List Relocation} {o : Nat} {word : BitVec 64} {out : Bytes}

theorem getLsbD_wordAt_low (out : Bytes) (y : Nat) {i : Nat} (hi : i < 32) :
    (wordAt out y).getLsbD i = bitAt out (8 * y + i) := by
  rw [getLsbD_wordAt, decide_eq_true (by omega : i < 64), Bool.true_and]

/-- Until it is halved, an instruction keeps its opcode and its destination register. -/
theorem Window.low_fields (hw : Window d front o word out) (hh : ¬ Halved d front o) :
    (∀ i < 7, (wordAt out (d.inputToOutputOffset o)).getLsbD i = word.getLsbD i) ∧
      rdOf (wordAt out (d.inputToOutputOffset o)) = rdOf word := by
  constructor
  · intro i hi
    rw [getLsbD_wordAt_low _ _ (by omega), hw.low hh i (by omega)]
  · exact extractBitRange_congr (by decide) fun i _ hi => by
      rw [getLsbD_wordAt_low _ _ (by omega), hw.low hh i hi]

/-- Its base register is zero once it is overwritten. -/
theorem Window.base (hw : Window d front o word out) (hh : ¬ Halved d front o) :
    (Overwritten d front o → rs1Of (wordAt out (d.inputToOutputOffset o)) = 0) ∧
      (¬ Overwritten d front o → rs1Of (wordAt out (d.inputToOutputOffset o)) = rs1Of word) := by
  constructor
  · intro hov
    refine extractBitRange_eq_zero (by decide) fun i hlo hhi => ?_
    rw [getLsbD_wordAt_low _ _ (by omega), hw.high hh i (by omega) (by omega), decide_eq_false (fun h => h hov),
      Bool.false_and]
  · intro hov
    refine extractBitRange_congr (by decide) fun i hlo hhi => ?_
    rw [getLsbD_wordAt_low _ _ (by omega), hw.high hh i (by omega) (by omega), decide_eq_true hov, Bool.true_and]

/-- The base register that the lower part is written next to is `x0` in the three cases. -/
theorem Window.cleared_iff (hd : d.WellFormed) (hu : Deletions.Untouched d.raw o (o + 4))
    (hw : Window d front o word out) (hh : ¬ Halved d front o) (hfit : d.inputToOutputOffset o + 4 ≤ out.length) :
    rs1Of (baseCheckedWord d out (d.inputToOutputOffset o)) = 0 ↔ BaseCleared d front o word := by
  have hcheck := rs1ToZero_iff hd hu hfit
  obtain ⟨hover, hkept⟩ := hw.base hh
  rw [(hw.low_fields hh).2] at hcheck
  rw [rs1Of_baseCheckedWord]
  by_cases hov : Overwritten d front o
  · rw [hover hov, ite_self]
    exact iff_of_true rfl (Or.inr (Or.inl hov))
  · rw [hkept hov] at hcheck ⊢
    by_cases hz : rs1ToZero d out (d.inputToOutputOffset o) = true
    · rw [if_pos hz]
      exact iff_of_true rfl (Or.inr (Or.inr (hcheck.mp hz)))
    · rw [if_neg hz]
      constructor
      · exact Or.inl
      · rintro (h | h | h)
        · exact h
        · exact absurd h hov
        · exact absurd (hcheck.mpr h) hz

end Fields

variable {front back : List Relocation}

/-- What comes behind a user in the list is behind its four bytes in the output. -/
theorem back_behind (ht : Tracked s.relocations d) (hc : s.CodeOrdered ctx) {r : Relocation}
    (hsplit : s.relocations = front ++ r :: back) (hlow : r.isLo12 = true)
    (hu : Deletions.Untouched d.raw r.offset (r.offset + 4)) :
    ∀ y ∈ back, y.rType ≠ .relax → d.inputToOutputOffset r.offset + 4 ≤ d.inputToOutputOffset y.offset := by
  have hrt : r.rType = .lo12I ∨ r.rType = .lo12S := by simpa [Relocation.isLo12] using hlow
  intro y hy hyr
  have hapart := hc.apart
  rw [hsplit] at hapart
  obtain ⟨-, hpost, -⟩ := List.pairwise_append.mp hapart
  have hymem : y ∈ s.relocations := by
    rw [hsplit]
    exact List.mem_append_right _ (List.mem_cons_of_mem _ hy)
  have hspan := (user_spec ctx hlow).1
  have hle : r.offset + 4 ≤ y.offset := by
    rcases (List.pairwise_cons.mp hpost).1 y hy with h | h | ⟨h, -⟩ | h
    · rcases hrt with hrt | hrt <;> simp [hrt] at h
    · exact absurd h hyr
    · rcases hrt with hrt | hrt <;> simp [Relocation.isOther, hrt] at h
    · rw [hspan] at h
      exact h
  exact place_end_le ht hu hle (ht.clear hc hymem hyr)

/-- **When a user keeps its address.** -/
theorem user_keepsAddress_iff (ht : Tracked s.relocations d) (hc : s.CodeOrdered ctx) (heven : ∀ e ∈ d.raw, 2 ∣ e.2)
    (hrec : CallsRecognised ctx d s.relocations s.bytes) {skip : Bool} {out : Bytes}
    (happ : applyRelocations ctx d s.relocations s.bytes = some (skip, out)) {r : Relocation}
    (hsplit : s.relocations = front ++ r :: back) (hlow : r.isLo12 = true)
    (hword : (wordAt s.bytes r.offset).getLsbD 0 = true) (hz : UppersZero ctx d front r.offset) :
    KeepsAddress r.rType (ctx.absolute r.symbol r.addend) (rs1Of (wordAt s.bytes r.offset))
        (wordAt s.bytes r.offset) (wordAt out (d.inputToOutputOffset r.offset)) ↔
      ¬ Halved d front r.offset ∧ BaseCleared d front r.offset (wordAt s.bytes r.offset) ∧
        (rs1Of (wordAt s.bytes r.offset) = 0 ∨ luiValue (ctx.absolute r.symbol r.addend) = 0) := by
  obtain ⟨hspan, hrelax, hsite, -⟩ := user_spec ctx hlow
  have hr : r ∈ s.relocations := by
    rw [hsplit]
    exact List.mem_append_cons_self
  have hu := ht.keeps hc hr hrelax hsite
  rw [hspan] at hu
  -- the relocations in front, the user, and the rest
  unfold applyRelocations at happ
  rw [hsplit, List.foldlM_append] at happ
  obtain ⟨⟨skip₁, out₁⟩, hfront, happ⟩ := Option.bind_eq_some_iff.mp happ
  obtain ⟨⟨skip₂, out₂⟩, huser, hback⟩ := Option.bind_eq_some_iff.mp happ
  obtain ⟨hw, hskip⟩ := window_run ht hc heven hrec hlow hsplit List.mem_cons_self hz hfront
  have hskip₁ : skip₁ = false := by
    rw [Bool.eq_false_iff]
    intro h
    obtain ⟨y, rest, heq, hy⟩ := hskip h
    cases heq
    exact hrelax hy
  subst hskip₁
  unfold relocationStep at huser
  rw [applyRelocation_lo12 hlow] at huser
  obtain ⟨-, hfit, hbits⟩ := lo12_bits huser
  have hrest := behind_run ht.wellFormed back _ _ (back_behind ht hc hsplit hlow hu) hback
  have hfinal : ∀ i < 32, (wordAt out (d.inputToOutputOffset r.offset)).getLsbD i =
      (withLow r.rType (ctx.absolute r.symbol r.addend)
        (baseCheckedWord d out₁ (d.inputToOutputOffset r.offset))).getLsbD i := by
    intro i hi
    rw [getLsbD_wordAt_low _ _ hi, hrest _ (by omega), hbits i hi]
  rw [keepsAddress_iff hfinal]
  by_cases hh : Halved d front r.offset
  · -- the opcode is gone
    refine iff_of_false ?_ (fun h => h.1 hh)
    rintro ⟨hop, -⟩
    have h0 := congrArg (·.getLsbD 0) hop
    simp only [getLsbD_extractBitRange (by decide : 7 ≤ 64)] at h0
    rw [opcode_baseCheckedWord _ (by omega), getLsbD_wordAt_low _ _ (by omega), Nat.zero_add,
      hw.halved hh 0 (by omega), hword] at h0
    cases h0
  · have hop : extractBitRange (baseCheckedWord d out₁ (d.inputToOutputOffset r.offset)) 0 7 =
        extractBitRange (wordAt s.bytes r.offset) 0 7 :=
      extractBitRange_congr (by decide) fun i _ hi => by
        rw [opcode_baseCheckedWord _ hi, (hw.low_fields hh).1 i hi]
    rw [hw.cleared_iff ht.wellFormed hu hh hfit]
    exact ⟨fun h => ⟨hh, h.2⟩, fun h => ⟨hop, h.2⟩⟩

end Output

/-! ## The run -/

/-- What a run preserves for a section of instructions at even offsets. -/
structure EvenDeltas (s : RelaxSection) (i : Nat) (st : RelaxState) : Prop where
  tracked : Tracked s.relocations (st.deltas i)
  even : ∀ e ∈ (st.deltas i).raw, 2 ∣ e.2
  placed : 2 ∣ st.address i

theorem two_dvd_nextPowerOfTwo {n : Nat} (h : 2 ∣ n) (h0 : n ≠ 0) : 2 ∣ nextPowerOfTwo n := by
  unfold nextPowerOfTwo
  rw [if_neg (by omega), Nat.pow_succ]
  exact Nat.dvd_mul_left 2 _

variable {ctx : RelocationContext}

/-- **One pass.** -/
theorem EvenDeltas.pass {link : RelaxLink} {s : RelaxSection} {st : RelaxState} {rescan : Option (List Nat)}
    {address : Nat → Nat} (hs : link.sections[i]? = some s) (hc : s.CodeOrdered ctx) (he : EvenDeltas s i st)
    (ha : 2 ∣ address i) : EvenDeltas s i (link.afterPass st rescan address) := by
  have hmerge : (link.afterPass st rescan address).deltas i =
      (st.deltas i).mergeAdditional ((link.taken st rescan i).map Decision.raw) := rfl
  rcases taken_cases hs st rescan with ⟨-, htaken⟩ | htaken
  · rw [htaken] at hmerge
    exact ⟨hmerge ▸ he.tracked, hmerge ▸ he.even, ha⟩
  · rw [htaken] at hmerge
    have hscan : (link.afterPass st rescan address).deltas i = (st.deltas i).mergeAdditional
        (scanRaw (st.address i) s.bytes (st.deltas i) (link.resolve st i) s.relocations) := hmerge
    refine ⟨?_, fun e hmem => ?_, ha⟩
    · rw [hscan]
      exact he.tracked.scan hc.apart.sitesApart hc.small
    · rw [hscan] at hmem
      rcases List.mem_append.mp ((raw_mergeAdditional _ _).mem_iff.mp hmem) with hmem | hmem
      · exact he.even e hmem
      · rw [scanRaw_eq] at hmem
        obtain ⟨site, hsite, rfl⟩ := List.mem_map.mp hmem
        refine sites_dvd (Or.inl rfl) he.placed (fun r hr hra => ⟨?_, ?_, fun h0 => ⟨?_, ?_⟩⟩) (Nat.dvd_zero 2)
          (fun _ _ _ _ _ _ => rfl) site hsite
        · exact hc.even r hr (by simp [Relocation.isOther, hra])
        · rw [he.tracked.wellFormed.deletedBefore_eq]
          exact Deletions.dvd_before fun e he' _ => he.even e he'
        · exact hc.padding r hr hra
        · exact two_dvd_nextPowerOfTwo (hc.padding r hr hra) h0

theorem evenDeltas_final {link : RelaxLink} {s : RelaxSection} {fin : RelaxState} (hs : link.sections[i]? = some s)
    (hc : s.CodeOrdered ctx) (hpl : ∀ address, link.IsLayout address → 2 ∣ address i)
    (h : link.performIterativeRelaxation = some fin) :
    EvenDeltas s i fin := by
  obtain ⟨st, hst, hit⟩ := Option.bind_eq_some_iff.mp h
  obtain ⟨-, hdel, hlay⟩ := initialState_spec hst
  have hstart : EvenDeltas s i st := by
    refine ⟨?_, ?_, hpl _ hlay⟩
    · rw [hdel]
      exact .nil _
    · rw [hdel]
      exact fun e he => absurd he List.not_mem_nil
  refine iterate_invariant (C := fun _ _ _ => True) (fun st' rescan' address' hP haddr _ => ?_) _ 0 none st fin hstart
    (everyPass_of_forall (fun _ _ _ => trivial) _ _ _ _) hit
  refine hP.pass hs hc ?_
  rcases haddr with rfl | hlay'
  · exact hP.placed
  · exact hpl _ hlay'

/-- **Users of a deleted `lui`.** With the same symbol and addend and the register of the `lui` as its base, an
    instruction has the address that it should have exactly if its base is `x0` in the output, its opcode is
    still there and the upper part is still zero. -/
theorem lui_users_keep_address {link : RelaxLink} {fin : RelaxState} {i : Nat} {s : RelaxSection}
    {ctx : RelocationContext} {skip : Bool} {out : Bytes} (hs : link.sections[i]? = some s) (hc : s.CodeOrdered ctx)
    (hpl : ∀ address, link.IsLayout address → 2 ∣ address i) (h : link.performIterativeRelaxation = some fin)
    (hrec : CallsRecognised ctx (fin.deltas i) s.relocations s.bytes)
    (happ : applyRelocations ctx (fin.deltas i) s.relocations s.bytes = some (skip, out)) :
    ∀ lui ∈ s.relocations, LuiDeleted (fin.deltas i) lui →
      ∀ front r back, s.relocations = front ++ r :: back → r.isLo12 = true → r.symbol = lui.symbol →
        r.addend = lui.addend → rs1Of (wordAt s.bytes r.offset) = rdOf (wordAt s.bytes lui.offset) →
        (wordAt s.bytes r.offset).getLsbD 0 = true → UppersZero ctx (fin.deltas i) front r.offset →
        (KeepsAddress r.rType (ctx.absolute lui.symbol lui.addend) (rdOf (wordAt s.bytes lui.offset))
            (wordAt s.bytes r.offset) (wordAt out ((fin.deltas i).inputToOutputOffset r.offset)) ↔
          ¬ Halved (fin.deltas i) front r.offset ∧
            BaseCleared (fin.deltas i) front r.offset (wordAt s.bytes r.offset) ∧
            (rs1Of (wordAt s.bytes r.offset) = 0 ∨ luiValue (ctx.absolute lui.symbol lui.addend) = 0)) := by
  intro lui _ _ front r back hsplit hlow hsym hadd hbase hword hz
  have he := evenDeltas_final hs hc hpl h
  rw [← hsym, ← hadd, ← hbase]
  exact user_keepsAddress_iff he.tracked hc he.even hrec happ hsplit hlow hword hz

/-! ## Two users -/

/-- `lui a0; lw a1, (a0); sw a1, (a0)`, with the address of one symbol. -/
def twoUsers : RelaxSection :=
  { size := 12, loaded := true, executable := true
    bytes := [0x37, 0x05, 0x00, 0x00, 0x83, 0x25, 0x05, 0x00, 0x23, 0x20, 0xb5, 0x00]
    relocations := [
      { offset := 0, rType := .hi20, symbol := some 0, addend := 0 },
      { offset := 0, rType := .relax, symbol := none, addend := 0 },
      { offset := 4, rType := .lo12I, symbol := some 0, addend := 0 },
      { offset := 4, rType := .relax, symbol := none, addend := 0 },
      { offset := 8, rType := .lo12S, symbol := some 0, addend := 0 },
      { offset := 8, rType := .relax, symbol := none, addend := 0 }]
    packed := false, alignment := 4 }

/-- The symbol is at `0x100`, on page 0. -/
def twoUsersLink : RelaxLink :=
  { sections := [twoUsers]
    definition := fun _ y => y
    symbolPlace := fun _ => .absolute 0x100
    isInterposable := fun _ => false
    layout := fun _ _ => some (fun _ => 0x1000) }

def twoUsersContext : RelocationContext :=
  { absolute := fun _ addend => 0x100 + BitVec.ofInt 64 addend
    callValue := fun _ => none
    nonZero := fun _ => false
    interposable := fun _ => false
    otherSize := fun _ => 0
    other := fun _ buf => buf
    other_length := fun _ _ => rfl }

theorem twoUsers_ordered : twoUsers.CodeOrdered twoUsersContext where
  apart := by
    unfold SpansApart
    decide
  inside := by decide
  even := by decide
  padding := by decide
  small := by
    unfold SmallPadding
    decide

theorem twoUsers_recognised (d : SectionRelaxDeltas) :
    CallsRecognised twoUsersContext d twoUsers.relocations twoUsers.bytes := by
  intro pre r post out hsplit hcall _
  have hno : ∀ r ∈ twoUsers.relocations, r.isCall = false := by decide
  rw [hno r (by rw [hsplit]; simp)] at hcall
  cases hcall

/-- The `lw` has become an `lb` with base `x0`. -/
def twoUsersOutput : Bytes := [0x83, 0x05, 0x00, 0x10, 0x23, 0x20, 0xb5, 0x10]

def twoUsersDeltas : SectionRelaxDeltas := [{ inputOffset := 0, cumulativeDeleted := 4, bytesDeleted := 4 }]

theorem twoUsers_relaxed :
    ∃ fin, twoUsersLink.performIterativeRelaxation = some fin ∧ fin.deltas 0 = twoUsersDeltas :=
  ⟨_, rfl, by decide⟩

theorem twoUsers_applied :
    applyRelocations twoUsersContext twoUsersDeltas twoUsers.relocations twoUsers.bytes =
      some (false, twoUsersOutput) := by
  decide +kernel

/-- The `lui` is deleted. Its upper part is written over the `lw`, whose base becomes `x0`; the `sw` still adds
    the offset to a register that nobody has loaded. -/
theorem second_user_stale : twoUsers.CodeOrdered twoUsersContext ∧
    ∃ fin skip out, twoUsersLink.performIterativeRelaxation = some fin ∧
      applyRelocations twoUsersContext (fin.deltas 0) twoUsers.relocations twoUsers.bytes = some (skip, out) ∧
      ∃ lui ∈ twoUsers.relocations, LuiDeleted (fin.deltas 0) lui ∧
        ∃ r ∈ twoUsers.relocations, r.isLo12 = true ∧ r.symbol = lui.symbol ∧ r.addend = lui.addend ∧
          rs1Of (wordAt twoUsers.bytes r.offset) = rdOf (wordAt twoUsers.bytes lui.offset) ∧
          ¬ KeepsAddress r.rType (twoUsersContext.absolute lui.symbol lui.addend)
            (rdOf (wordAt twoUsers.bytes lui.offset)) (wordAt twoUsers.bytes r.offset)
            (wordAt out ((fin.deltas 0).inputToOutputOffset r.offset)) := by
  obtain ⟨fin, hfin, hdeltas⟩ := twoUsers_relaxed
  refine ⟨twoUsers_ordered, fin, false, twoUsersOutput, hfin, ?_, ?_⟩
  · rw [hdeltas]
    exact twoUsers_applied
  · rw [hdeltas]
    refine ⟨{ offset := 0, rType := .hi20, symbol := some 0, addend := 0 }, by decide, by decide,
      { offset := 8, rType := .lo12S, symbol := some 0, addend := 0 }, by decide, rfl, rfl, rfl, by decide +kernel,
      fun h => ?_⟩
    -- with 1 in all registers the address is one too high
    exact absurd (h.2 (fun _ => 1)) (by decide +kernel)

theorem lui_users_keep_address_load : ∃ fin, twoUsersLink.performIterativeRelaxation = some fin ∧
    KeepsAddress .lo12I 0x100 10 (wordAt twoUsers.bytes 4)
      (wordAt twoUsersOutput ((fin.deltas 0).inputToOutputOffset 4)) := by
  obtain ⟨fin, hfin, hdeltas⟩ := twoUsers_relaxed
  have hplaced : ∀ address, twoUsersLink.IsLayout address → 2 ∣ address 0 := by
    rintro address ⟨k, capacities, hl⟩
    cases hl
    decide
  have happ : applyRelocations twoUsersContext (fin.deltas 0) twoUsers.relocations twoUsers.bytes =
      some (false, twoUsersOutput) := by
    rw [hdeltas]
    exact twoUsers_applied
  have hkeeps := (lui_users_keep_address rfl twoUsers_ordered hplaced hfin (twoUsers_recognised _) happ
    { offset := 0, rType := .hi20, symbol := some 0, addend := 0 } (by decide)
    (by rw [hdeltas]; decide) (twoUsers.relocations.take 2)
    { offset := 4, rType := .lo12I, symbol := some 0, addend := 0 } (twoUsers.relocations.drop 3) rfl rfl rfl rfl
    (by decide +kernel) (by decide +kernel) (by
      rw [hdeltas]
      unfold UppersZero
      decide +kernel)).mpr (by
      rw [hdeltas]
      unfold BaseCleared
      decide +kernel)
  exact ⟨fin, hfin, hkeeps⟩

end Reld
