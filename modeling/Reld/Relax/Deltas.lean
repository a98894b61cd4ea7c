import Mathlib.Data.List.Sort
import Reld.Lib.Deletions
import Reld.Lib.Multiples
import Reld.Elf.Symbol

/-!
# `Relax.Deltas` — the bytes deleted from an input section

Relaxation on RISC-V shortens instructions and so deletes bytes from the middle of input sections. Each
section keeps a list of its deletions, by input offset, together with the running sum of the bytes deleted;
from it the writer and the layout translate input offsets to output offsets and back. A section without
deletions and a section with an empty list behave alike, so there is one list for each section.
-/

namespace Reld

/-- `RelaxDelta`: `bytesDeleted` bytes are deleted at `inputOffset`. -/
structure RelaxDelta where
  inputOffset : Nat
  /-- The bytes deleted up to and including this entry. -/
  cumulativeDeleted : Nat
  bytesDeleted : Nat
deriving DecidableEq, Repr

/-- `SectionRelaxDeltas`: the deletions of a section, by offset. -/
abbrev SectionRelaxDeltas := List RelaxDelta

namespace SectionRelaxDeltas

/-- `new` from a given running sum on. -/
def newFrom (running : Nat) : List (Nat × Nat) → SectionRelaxDeltas
  | [] => []
  | (offset, bytes) :: raw =>
    { inputOffset := offset, cumulativeDeleted := running + bytes, bytesDeleted := bytes } ::
      newFrom (running + bytes) raw

def new (raw : List (Nat × Nat)) : SectionRelaxDeltas := newFrom 0 raw

/-- The pairs the deltas were made from. -/
def raw (d : SectionRelaxDeltas) : List (Nat × Nat) := d.map (fun e => (e.inputOffset, e.bytesDeleted))

def mergeAdditional (d : SectionRelaxDeltas) (additional : List (Nat × Nat)) : SectionRelaxDeltas :=
  if additional.isEmpty then d
  else new ((d.raw ++ additional).insertionSort (fun a b => a.1 ≤ b.1))

def hasDeltaAt (d : SectionRelaxDeltas) (offset : Nat) : Bool := d.any (·.inputOffset == offset)

/-- The bytes deleted at an offset, 0 if there is no delta there. -/
def deltaBytesAt (d : SectionRelaxDeltas) (offset : Nat) : Nat :=
  match d.find? (·.inputOffset == offset) with
  | some e => e.bytesDeleted
  | none   => 0

/-- The cumulative bytes deleted strictly before an input offset. -/
def deletedBefore (d : SectionRelaxDeltas) (inputOffset : Nat) : Nat :=
  match (d.takeWhile (fun e => decide (e.inputOffset < inputOffset))).getLast? with
  | some e => e.cumulativeDeleted
  | none   => 0

def inputToOutputOffset (d : SectionRelaxDeltas) (inputOffset : Nat) : Nat :=
  inputOffset - d.deletedBefore inputOffset

def outputToInputOffset (d : SectionRelaxDeltas) (outputOffset : Nat) : Nat :=
  match (d.takeWhile (fun e =>
      decide (e.inputOffset + e.bytesDeleted - e.cumulativeDeleted ≤ outputOffset))).getLast? with
  | some e => outputOffset + e.cumulativeDeleted
  | none   => outputOffset

/-! ## What the list records -/

theorem raw_newFrom (running : Nat) (l : List (Nat × Nat)) : (newFrom running l).raw = l := by
  induction l generalizing running with
  | nil => rfl
  | cons e l ih => exact congrArg (e :: ·) (ih (running + e.2))

theorem raw_new (l : List (Nat × Nat)) : (new l).raw = l := raw_newFrom 0 l

/-- Merging keeps the recorded deletions and adds the new ones. -/
theorem raw_mergeAdditional (d : SectionRelaxDeltas) (additional : List (Nat × Nat)) :
    (d.mergeAdditional additional).raw.Perm (d.raw ++ additional) := by
  unfold mergeAdditional
  split
  · rename_i h
    rw [List.isEmpty_iff.mp h, List.append_nil]
  · rw [raw_new]
    exact List.perm_insertionSort _ _

/-! ## The list as deletions -/

/-- The list is sorted, without overlaps, and its running sums are right. -/
structure WellFormed (d : SectionRelaxDeltas) : Prop where
  eq_new : d = new d.raw
  separated : Deletions.Separated d.raw
  positive : ∀ e ∈ d.raw, 0 < e.2

theorem cumulative_newFrom (running : Nat) (l : List (Nat × Nat)) (o : Nat) (hs : l.Pairwise (·.1 ≤ ·.1)) :
    (((newFrom running l).takeWhile (fun e => decide (e.inputOffset < o))).getLast?.map
      (·.cumulativeDeleted)).getD running = running + Deletions.before l o := by
  induction l generalizing running with
  | nil => rfl
  | cons e l ih =>
    obtain ⟨he, hs⟩ := List.pairwise_cons.mp hs
    by_cases h : e.1 < o
    · have hw : (newFrom running (e :: l)).takeWhile (fun e => decide (e.inputOffset < o)) =
          { inputOffset := e.1, cumulativeDeleted := running + e.2, bytesDeleted := e.2 } ::
            (newFrom (running + e.2) l).takeWhile (fun e => decide (e.inputOffset < o)) :=
        List.takeWhile_cons_of_pos (decide_eq_true h)
      have hi := ih (running + e.2) hs
      rw [hw, List.getLast?_cons, Deletions.before_cons, if_pos h, ← Nat.add_assoc, ← hi]
      cases ((newFrom (running + e.2) l).takeWhile (fun e => decide (e.inputOffset < o))).getLast? <;> rfl
    · have hw : (newFrom running (e :: l)).takeWhile (fun e => decide (e.inputOffset < o)) = [] :=
        List.takeWhile_cons_of_neg (by simpa using h)
      have hz : Deletions.before (e :: l) o = 0 := Deletions.before_eq_zero (fun f hf => by
        rcases List.mem_cons.mp hf with rfl | hf
        · omega
        · have := he f hf
          omega)
      rw [hw, hz]
      rfl

/-- What a section can have accumulated: the list is made from sorted pairs, or others are merged into it. -/
inductive Accumulated : SectionRelaxDeltas → Prop where
  | ofRaw {raw : List (Nat × Nat)} (hsorted : raw.Pairwise (·.1 ≤ ·.1)) : Accumulated (new raw)
  | merge {d : SectionRelaxDeltas} (additional : List (Nat × Nat)) (hd : Accumulated d) :
      Accumulated (d.mergeAdditional additional)

variable {d : SectionRelaxDeltas}

theorem Accumulated.sorted (hd : d.Accumulated) :
    d = new d.raw ∧ d.raw.Pairwise (·.1 ≤ ·.1) := by
  induction hd with
  | ofRaw hsorted => exact ⟨by rw [raw_new], by rwa [raw_new]⟩
  | merge additional _ ih =>
    unfold mergeAdditional
    split
    · exact ih
    · rw [raw_new]
      exact ⟨rfl, List.pairwise_insertionSort _ _⟩

theorem Accumulated.deletedBefore_eq (hd : d.Accumulated) (o : Nat) :
    d.deletedBefore o = Deletions.before d.raw o := by
  obtain ⟨hnew, hsorted⟩ := hd.sorted
  have h := cumulative_newFrom 0 d.raw o hsorted
  rw [show newFrom 0 d.raw = d from hnew.symm, Nat.zero_add] at h
  rw [← h]
  unfold deletedBefore
  cases (d.takeWhile (fun e => decide (e.inputOffset < o))).getLast? <;> rfl

theorem WellFormed.accumulated (hd : d.WellFormed) : d.Accumulated := by
  rw [hd.eq_new]
  exact .ofRaw (hd.separated.imp fun h => Nat.le_trans (Nat.le_add_right _ _) h)

theorem WellFormed.deletedBefore_eq (hd : d.WellFormed) (o : Nat) :
    d.deletedBefore o = Deletions.before d.raw o := hd.accumulated.deletedBefore_eq o

variable {o : Nat}

/-- Offsets stay where they are when no deletion in front of them deletes a byte. -/
theorem Accumulated.deletedBefore_eq_zero_iff (hd : d.Accumulated) :
    d.deletedBefore o = 0 ↔ ∀ e ∈ d, e.inputOffset < o → e.bytesDeleted = 0 := by
  rw [hd.deletedBefore_eq, Deletions.before_eq_zero_iff]
  simp only [raw, List.mem_map]
  constructor
  · intro h e he
    exact h (e.inputOffset, e.bytesDeleted) ⟨e, he, rfl⟩
  · rintro h _ ⟨e, he, rfl⟩
    exact h e he

theorem WellFormed.inputToOutputOffset_eq (hd : d.WellFormed) (o : Nat) :
    d.inputToOutputOffset o = Deletions.place d.raw o := by
  unfold inputToOutputOffset Deletions.place
  rw [hd.deletedBefore_eq]

/-- The running sum that `outputToInputOffset` adds back. -/
def addedBack (running : Nat) (l : List (Nat × Nat)) (outputOffset : Nat) : Nat :=
  (((newFrom running l).takeWhile (fun e =>
    decide (e.inputOffset + e.bytesDeleted - e.cumulativeDeleted ≤ outputOffset))).getLast?.map
      (·.cumulativeDeleted)).getD running

theorem addedBack_cons (running : Nat) (e : Nat × Nat) (l : List (Nat × Nat)) (outputOffset : Nat) :
    addedBack running (e :: l) outputOffset =
      if e.1 - running ≤ outputOffset then addedBack (running + e.2) l outputOffset else running := by
  unfold addedBack
  have hoff : e.1 + e.2 - (running + e.2) = e.1 - running := Nat.add_sub_add_right _ _ _
  by_cases h : e.1 - running ≤ outputOffset
  · have hw : (newFrom running (e :: l)).takeWhile (fun e =>
        decide (e.inputOffset + e.bytesDeleted - e.cumulativeDeleted ≤ outputOffset)) =
          { inputOffset := e.1, cumulativeDeleted := running + e.2, bytesDeleted := e.2 } ::
            (newFrom (running + e.2) l).takeWhile (fun e =>
              decide (e.inputOffset + e.bytesDeleted - e.cumulativeDeleted ≤ outputOffset)) :=
      List.takeWhile_cons_of_pos (decide_eq_true (by simp only [hoff]; exact h))
    rw [hw, List.getLast?_cons, if_pos h]
    cases ((newFrom (running + e.2) l).takeWhile (fun e =>
      decide (e.inputOffset + e.bytesDeleted - e.cumulativeDeleted ≤ outputOffset))).getLast? <;> rfl
  · have hw : (newFrom running (e :: l)).takeWhile (fun e =>
        decide (e.inputOffset + e.bytesDeleted - e.cumulativeDeleted ≤ outputOffset)) = [] :=
      List.takeWhile_cons_of_neg (by simp only [hoff]; simpa using h)
    rw [hw, if_neg h]
    rfl

theorem le_addedBack (running : Nat) (l : List (Nat × Nat)) (outputOffset : Nat) :
    running ≤ addedBack running l outputOffset := by
  induction l generalizing running with
  | nil => exact Nat.le_refl _
  | cons e l ih =>
    rw [addedBack_cons]
    split
    · exact Nat.le_trans (Nat.le_add_right _ _) (ih _)
    · exact Nat.le_refl _

theorem WellFormed.outputToInputOffset_eq (hd : d.WellFormed) (outputOffset : Nat) :
    d.outputToInputOffset outputOffset = outputOffset + addedBack 0 d.raw outputOffset := by
  unfold addedBack
  have hn : newFrom 0 d.raw = d := hd.eq_new.symm
  rw [hn]
  unfold outputToInputOffset
  cases (d.takeWhile (fun e =>
    decide (e.inputOffset + e.bytesDeleted - e.cumulativeDeleted ≤ outputOffset))).getLast? <;> rfl

/-- At an offset that is kept, what is added back is what was deleted in front of it. -/
theorem addedBack_eq {running x : Nat} {l : List (Nat × Nat)} (hs : Deletions.Separated l)
    (hlo : ∀ e ∈ l, running ≤ e.1) (hx : running ≤ x) (hu : Deletions.Untouched l x (x + 1))
    (hroom : running + Deletions.before l x ≤ x) :
    addedBack running l (x - running - Deletions.before l x) = running + Deletions.before l x := by
  induction l generalizing running with
  | nil => rfl
  | cons e l ih =>
    obtain ⟨he, hs⟩ := List.pairwise_cons.mp hs
    have hrun := hlo e List.mem_cons_self
    rw [addedBack_cons]
    rcases hu e List.mem_cons_self with h | h
    · have hb : Deletions.before (e :: l) x = e.2 + Deletions.before l x := by
        rw [Deletions.before_cons]
        split <;> omega
      have hle := @Deletions.before_le l (e.1 + e.2) x hs he h
        (fun f hf => (hu f (List.mem_cons_of_mem _ hf)).imp id (fun h => by omega))
      rw [hb] at hroom ⊢
      rw [if_pos (by omega)]
      have hrest := ih hs (fun f hf => by have := he f hf; omega) (show running + e.2 ≤ x by omega)
        (fun f hf => hu f (List.mem_cons_of_mem _ hf)) (by omega)
      rw [show x - running - (e.2 + Deletions.before l x) = x - (running + e.2) - Deletions.before l x by omega,
        hrest]
      omega
    · have hb : Deletions.before (e :: l) x = 0 := Deletions.before_eq_zero (fun f hf => by
        rcases List.mem_cons.mp hf with rfl | hf
        · omega
        · have := he f hf
          omega)
      rw [hb, if_neg (by omega)]
      rfl

/-- The offset of a byte that is kept is found again. -/
theorem WellFormed.outputToInputOffset_place (hd : d.WellFormed) {x : Nat} (hu : Deletions.Untouched d.raw x (x + 1)) :
    d.outputToInputOffset (d.inputToOutputOffset x) = x := by
  have hroom := Deletions.before_le hd.separated (fun e _ => Nat.zero_le e.1) (Nat.zero_le x)
    (fun e he => (hu e he).imp id (fun h => by omega))
  have h := addedBack_eq hd.separated (fun e _ => Nat.zero_le e.1) (Nat.zero_le x) hu hroom
  rw [hd.outputToInputOffset_eq, hd.inputToOutputOffset_eq]
  unfold Deletions.place
  rw [Nat.sub_zero] at h
  omega

theorem addedBack_ne {running outputOffset : Nat} {l : List (Nat × Nat)} (hs : Deletions.Separated l)
    (hpos : ∀ e ∈ l, 0 < e.2) (hlo : ∀ e ∈ l, running ≤ e.1) :
    ∀ e ∈ l, e.1 ≠ outputOffset + addedBack running l outputOffset := by
  induction l generalizing running with
  | nil => exact fun e he => absurd he List.not_mem_nil
  | cons f l ih =>
    obtain ⟨hf, hs⟩ := List.pairwise_cons.mp hs
    have hf0 := hpos f List.mem_cons_self
    have hrun := hlo f List.mem_cons_self
    have hback := le_addedBack (running + f.2) l outputOffset
    have hrest := ih hs (fun e he => hpos e (List.mem_cons_of_mem _ he))
      (show ∀ e ∈ l, running + f.2 ≤ e.1 from fun e he => by have := hf e he; omega)
    intro e he
    rw [addedBack_cons]
    split
    · rcases List.mem_cons.mp he with rfl | he
      · omega
      · exact hrest e he
    · rcases List.mem_cons.mp he with rfl | he
      · omega
      · have := hf e he
        omega

/-- An output offset never goes back to the start of a deletion. -/
theorem WellFormed.hasDeltaAt_outputToInputOffset (hd : d.WellFormed) (outputOffset : Nat) :
    d.hasDeltaAt (d.outputToInputOffset outputOffset) = false := by
  rw [Bool.eq_false_iff]
  intro h
  obtain ⟨e, he, heq⟩ := List.any_eq_true.mp h
  have hmem : (e.inputOffset, e.bytesDeleted) ∈ d.raw := List.mem_map.mpr ⟨e, he, rfl⟩
  have hne : e.inputOffset ≠ outputOffset + addedBack 0 d.raw outputOffset :=
    addedBack_ne hd.separated hd.positive (fun e _ => Nat.zero_le e.1) _ hmem
  rw [hd.outputToInputOffset_eq] at heq
  exact hne (by simpa using heq)

theorem hasDeltaAt_iff : d.hasDeltaAt o = true ↔ ∃ b, (o, b) ∈ d.raw := by
  unfold hasDeltaAt raw
  simp only [List.any_eq_true, beq_iff_eq, List.mem_map, Prod.mk.injEq]
  constructor
  · rintro ⟨e, he, rfl⟩
    exact ⟨_, e, he, rfl, rfl⟩
  · rintro ⟨b, e, he, rfl, -⟩
    exact ⟨e, he, rfl⟩

theorem deltaBytesAt_of_not_mem (h : d.hasDeltaAt o = false) :
    d.deltaBytesAt o = 0 := by
  have hf : d.find? (·.inputOffset == o) = none := by
    rw [List.find?_eq_none]
    exact List.any_eq_false.mp h
  unfold deltaBytesAt
  rw [hf]

/-- Deletions at one offset are one deletion. -/
theorem WellFormed.unique (hd : d.WellFormed) {b c : Nat} (hb : (o, b) ∈ d.raw) (hc : (o, c) ∈ d.raw) : b = c := by
  by_contra hne
  have hne' : (o, b) ≠ (o, c) := fun h => hne (congrArg Prod.snd h)
  have hb0 := hd.positive _ hb
  have hc0 := hd.positive _ hc
  rcases Deletions.Separated.apart hd.separated hb hc hne' with h | h
  · simp only at h hb0
    omega
  · simp only at h hc0
    omega

theorem WellFormed.deltaBytesAt_of_mem (hd : d.WellFormed) {b : Nat} (h : (o, b) ∈ d.raw) : d.deltaBytesAt o = b := by
  unfold deltaBytesAt
  cases hf : d.find? (·.inputOffset == o) with
  | none =>
    obtain ⟨e, he, heq⟩ := List.mem_map.mp h
    have := List.find?_eq_none.mp hf e he
    simp only [Prod.mk.injEq] at heq
    simp [heq.1] at this
  | some e =>
    have he := List.mem_of_find?_eq_some hf
    have ho : e.inputOffset = o := by simpa using List.find?_some hf
    have hmem : (o, e.bytesDeleted) ∈ d.raw := List.mem_map.mpr ⟨e, he, by rw [ho]⟩
    exact hd.unique hmem h

theorem WellFormed.nil : WellFormed [] :=
  ⟨rfl, List.Pairwise.nil, fun _ h => absurd h List.not_mem_nil⟩

/-- Merging deletions that are apart from the recorded ones. -/
theorem WellFormed.merge {additional : List (Nat × Nat)} (hd : d.WellFormed) (hs : Deletions.Separated additional)
    (hp : ∀ e ∈ additional, 0 < e.2) (hapart : ∀ e ∈ d.raw, ∀ f ∈ additional, Deletions.Apart e f) :
    (d.mergeAdditional additional).WellFormed := by
  have hperm := raw_mergeAdditional d additional
  have hpos : ∀ e ∈ (d.mergeAdditional additional).raw, 0 < e.2 := by
    intro e he
    rcases List.mem_append.mp (hperm.mem_iff.mp he) with h | h
    · exact hd.positive e h
    · exact hp e h
  by_cases hnil : additional.isEmpty
  · have heq : d.mergeAdditional additional = d := if_pos hnil
    rw [heq]
    exact hd
  · have heq : d.mergeAdditional additional =
        new ((d.raw ++ additional).insertionSort (fun a b => a.1 ≤ b.1)) := if_neg hnil
    rw [heq] at hperm hpos ⊢
    refine ⟨by rw [raw_new], ?_, hpos⟩
    -- the sorted list keeps what holds of every two deletions
    have hboth : (d.raw ++ additional).Pairwise Deletions.Apart :=
      List.pairwise_append.mpr ⟨Deletions.Separated.pairwise_apart hd.separated,
        Deletions.Separated.pairwise_apart hs, hapart⟩
    have hany := (hperm.pairwise_iff (fun h => Deletions.Apart.symm h)).mpr hboth
    have hsorted : (new ((d.raw ++ additional).insertionSort (fun a b => a.1 ≤ b.1))).raw.Pairwise
        (fun a b => a.1 ≤ b.1) := by
      rw [raw_new]
      exact List.pairwise_insertionSort _ _
    refine (hsorted.and hany).imp_of_mem ?_
    intro a b ha hb hab
    have := hpos b hb
    rcases hab with ⟨hle, h | h⟩
    · exact h
    · omega

end SectionRelaxDeltas

end Reld

/-!
# Which instructions of a section can be shortened

The scan of a section goes over its relocations once. Padding of an `R_RISCV_ALIGN` is trimmed to what the
current address needs; a call whose target is near loses its `jalr`; a `lui` whose upper part is zero is
deleted, and one whose upper part is small becomes a `c.lui`. A call or a `lui` is a candidate only if an
`R_RISCV_RELAX` at the same offset follows.

The scan returns what it deletes. Here it returns the decisions (`Decision`), each with the deletion it makes.
-/

namespace Reld

open SectionRelaxDeltas

/-! ## Addresses as machine words -/

/-- A 64-bit word read as a signed number. -/
def asI64 (x : Int) : Int := Int.bmod x (2 ^ 64)

/-- A signed number as a 64-bit word. -/
def asU64 (x : Int) : Nat := (x % 2 ^ 64).toNat

/-- Whether a distance lies in `JAL_RANGE`. -/
def distanceFitsJal (distance : Int) : Bool :=
  decide (-(2 ^ 20) ≤ distance ∧ distance ≤ 2 ^ 20 - 1)

/-- The upper part of a value, rounded with `0x800` for the signed lower part. -/
def hi20 (value : Nat) : Nat := (value + 0x800) % 2 ^ 64 / 2 ^ 12

/-- `RelaxationKind::hi20_is_zero` -/
def hi20IsZero (value : Nat) : Bool := hi20 value % 2 ^ 20 == 0

/-- `RelaxationKind::hi20_fits_clui`: the low six bits, sign extended, are the whole upper part. -/
def hi20FitsClui (value : Nat) : Bool :=
  Int.bmod (hi20 value) 64 == (hi20 value : Int) && hi20 value != 0

/-- `RelaxationKind::rd_valid_for_clui` -/
def rdValidForClui (rd : Nat) : Bool := rd != 0 && rd != 2

/-- The 32-bit word at an offset, if the bytes reach that far. -/
def u32At (bytes : Bytes) (offset : Nat) : Option (BitVec 32) :=
  match bytes.drop offset with
  | b0 :: b1 :: b2 :: b3 :: _ =>
    some (b3.toBitVec ++ b2.toBitVec ++ b1.toBitVec ++ b0.toBitVec)
  | _ => none

/-- The destination register of an instruction. -/
def rdField (word : BitVec 32) : Nat := (word >>> 7).toNat % 32

/-! ## Relocations -/

/-- The relocation types that relaxation looks at. -/
inductive RelocationType where
  | align
  | call
  | callPlt
  | hi20
  | lo12I
  | lo12S
  | relax
  | other (raw : Nat)
deriving DecidableEq, Repr

structure Relocation where
  offset : Nat
  rType : RelocationType
  /-- The symbol, by its index in the object. -/
  symbol : Option Nat
  addend : Int
deriving DecidableEq, Repr

structure RelaxSymbolInfo where
  outputAddress : Nat
  isInterposable : Bool
deriving DecidableEq, Repr

/-- What the scan decides at a relocation. -/
inductive Decision where
  /-- Remove padding at the offset of an `R_RISCV_ALIGN`. -/
  | trim (offset bytes : Nat)
  /-- Delete the `jalr` of the call at the offset. -/
  | toJal (callOffset symbol : Nat)
  /-- Delete the `lui` at the offset. -/
  | deleteLui (hi20Offset symbol : Nat) (addend : Int)
  /-- Shorten the `lui` at the offset to a `c.lui`. -/
  | toClui (hi20Offset symbol : Nat) (addend : Int)
deriving DecidableEq, Repr

/-- The offset and the number of the bytes that a decision deletes. -/
def Decision.raw : Decision → Nat × Nat
  | .trim offset bytes => (offset, bytes)
  | .toJal c _ => (c + 4, 4)
  | .deleteLui h _ _ => (h, 4)
  | .toClui h _ _ => (h + 2, 2)

/-! ## The scan -/

/-- The local variables of the scan. -/
structure ScanState where
  rawDeltas : List Decision
  minUnrelaxedMargin : Option Nat
  prevCall : Option (Nat × Nat)
  prevHi20 : Option (Nat × Nat × Int)
  newCumulativeDelta : Nat

namespace ScanState

def start : ScanState :=
  { rawDeltas := [], minUnrelaxedMargin := none, prevCall := none, prevHi20 := none, newCumulativeDelta := 0 }

def reset (st : ScanState) : ScanState := { st with prevCall := none, prevHi20 := none }

def push (st : ScanState) (d : Decision) : ScanState :=
  { st with rawDeltas := st.rawDeltas ++ [d], newCumulativeDelta := st.newCumulativeDelta + d.raw.2 }

def margin (st : ScanState) (m : Nat) : ScanState :=
  { st with minUnrelaxedMargin := some (match st.minUnrelaxedMargin with
      | some n => min n m
      | none   => m) }

end ScanState

/-- What is known at a candidate: a decision, or how far it is from one. -/
inductive Verdict where
  | decide (d : Decision)
  | margin (bytes : Nat)
  | skip
deriving DecidableEq, Repr

def ScanState.take (st : ScanState) : Verdict → ScanState
  | .decide d => st.push d
  | .margin m => st.margin m
  | .skip     => st

/-- The padding of an `R_RISCV_ALIGN` whose instructions start at `p`. -/
def alignVerdict (p offset addend : Nat) : Verdict :=
  let alignment := nextPowerOfTwo addend
  let desired := nextMultipleOf p alignment
  let actual := p + addend
  if actual > desired then .decide (.trim offset ((actual - desired) % 2 ^ 32)) else .skip

/-- A call whose target is known. The target is compared with the input offset of the call. -/
def callVerdict (sectionAddress callOffset symbol : Nat) (info : RelaxSymbolInfo) : Verdict :=
  if info.isInterposable then .skip
  else
    let distance := asI64 (info.outputAddress - (sectionAddress + callOffset : Nat))
    if distanceFitsJal distance then .decide (.toJal callOffset symbol)
    else .margin (distance.natAbs - (2 ^ 20 - 1))

/-- A `lui` whose symbol is known. -/
def hi20Verdict (bytes : Bytes) (hi20Offset symbol : Nat) (addend : Int) (info : RelaxSymbolInfo) : Verdict :=
  if info.isInterposable then .skip
  else match u32At bytes hi20Offset with
    | none => .skip
    | some lui =>
      let value := asU64 (info.outputAddress + addend)
      if hi20IsZero value then .decide (.deleteLui hi20Offset symbol addend)
      else if rdValidForClui (rdField lui) then
        if hi20FitsClui value then .decide (.toClui hi20Offset symbol addend)
        else if hi20 value > 31 then .margin ((hi20 value - 31) * 0x1000)
        else .margin 0x1000
      else .skip

/-- One relocation of the scan. -/
def scanRelocation (sectionAddress : Nat) (bytes : Bytes) (existing : SectionRelaxDeltas)
    (resolve : Nat → Option RelaxSymbolInfo) (st : ScanState) (rel : Relocation) : ScanState :=
  match rel.rType with
  | .align =>
    let addend := asU64 rel.addend
    if addend = 0 ∨ existing.hasDeltaAt rel.offset then st.reset
    else
      let outputOffset := rel.offset - existing.deletedBefore rel.offset - st.newCumulativeDelta
      (st.take (alignVerdict (sectionAddress + outputOffset) rel.offset addend)).reset
  | .call | .callPlt =>
    { st with prevCall := rel.symbol.map (fun s => (rel.offset, s)), prevHi20 := none }
  | .hi20 =>
    { st with prevHi20 := rel.symbol.map (fun s => (rel.offset, s, rel.addend)), prevCall := none }
  | .relax =>
    match st.prevCall, st.prevHi20 with
    | some (c, s), prevHi20 =>
      if rel.offset = c ∧ existing.hasDeltaAt (c + 4) = false then
        match resolve s with
        | some info => (st.take (callVerdict sectionAddress c s info)).reset
        | none      => st.reset
      else
        match prevHi20 with
        | some (h, s, a) => (relaxHi20 st h s a).reset
        | none           => st.reset
    | none, some (h, s, a) => (relaxHi20 st h s a).reset
    | none, none => st.reset
  | _ => st.reset
where
  /-- The `else if` of `R_RISCV_RELAX`: the relocation before was the `R_RISCV_HI20` of a `lui`. -/
  relaxHi20 (st : ScanState) (h s : Nat) (a : Int) : ScanState :=
    if rel.offset = h ∧ existing.hasDeltaAt h = false ∧ existing.hasDeltaAt (h + 2) = false then
      match resolve s with
      | some info => st.take (hi20Verdict bytes h s a info)
      | none      => st
    else st

/-- `collect_relaxation_deltas`: what the scan of a section decides, and the least margin of the candidates
    that it leaves as they are. -/
def collectRelaxationDeltas (sectionAddress : Nat) (bytes : Bytes) (relocations : List Relocation)
    (existing : SectionRelaxDeltas) (resolve : Nat → Option RelaxSymbolInfo) : List Decision × Option Nat :=
  let st := relocations.foldl (scanRelocation sectionAddress bytes existing resolve) .start
  (st.rawDeltas, st.minUnrelaxedMargin)

end Reld
