import Mathlib.Data.List.TakeWhile
import Reld.Relax.Deltas

/-!
# `Relax.Offsets` — offsets before and after relaxation

The deletions of a section translate offsets in both directions, each by a search in the sorted list with its own key,
and a `RelaxCursor` translates a run of offsets in one walk. For deletions that are in order and do not overlap, in
whichever portions they were recorded, the translations are inverse to each other on what is kept, and the cursor
agrees with the search.
-/

namespace Reld

/-- `RelaxCursor`: the index of the next delta and the bytes deleted in front of it. -/
structure RelaxCursor where
  index : Nat
  currentCumulative : Nat

namespace RelaxCursor

/-- The loop of `translate`: past all deltas strictly before the offset. -/
def advance (deltas : List RelaxDelta) (inputOffset : Nat) (c : RelaxCursor) : RelaxCursor :=
  if h : c.index < deltas.length then
    if deltas[c.index].inputOffset < inputOffset then
      advance deltas inputOffset ⟨c.index + 1, deltas[c.index].cumulativeDeleted⟩
    else c
  else c
termination_by deltas.length - c.index

/-- `translate`, with the cursor after it. -/
def translate (deltas : List RelaxDelta) (c : RelaxCursor) (inputOffset : Nat) : RelaxCursor × Nat :=
  let c := c.advance deltas inputOffset
  (c, inputOffset - c.currentCumulative)

/-- The translations of some offsets, one after the other. -/
def translateAll (deltas : List RelaxDelta) : RelaxCursor → List Nat → List Nat
  | _, [] => []
  | c, inputOffset :: rest =>
    (c.translate deltas inputOffset).2 :: translateAll deltas (c.translate deltas inputOffset).1 rest

end RelaxCursor

namespace SectionRelaxDeltas

/-- `cursor`. -/
def cursor : RelaxCursor := { index := 0, currentCumulative := 0 }

/-- The key of the search in `output_to_input_offset`: the output offset of a deletion. -/
def outputKey (e : RelaxDelta) : Nat := e.inputOffset + e.bytesDeleted - e.cumulativeDeleted

/-! ## The cursor -/

section Cursor

variable {d : SectionRelaxDeltas} {o o' : Nat}

/-- The deltas in front of an offset. -/
def inFront (o : Nat) (d : SectionRelaxDeltas) : List RelaxDelta := d.takeWhile fun e => decide (e.inputOffset < o)

/-- The cursor that has walked to an offset. -/
def cursorAt (d : SectionRelaxDeltas) (o : Nat) : RelaxCursor :=
  { index := (inFront o d).length, currentCumulative := d.deletedBefore o }

theorem deletedBefore_eq_getD :
    d.deletedBefore o = ((inFront o d).getLast?.map RelaxDelta.cumulativeDeleted).getD 0 := by
  unfold deletedBefore inFront
  cases (d.takeWhile fun e => decide (e.inputOffset < o)).getLast? <;> rfl

/-- The loop walks over what is in front of the offset in the rest of the list. -/
theorem advance_append (front rest : List RelaxDelta) (o cumulative : Nat) :
    RelaxCursor.advance (front ++ rest) o ⟨front.length, cumulative⟩ =
      ⟨(front ++ inFront o rest).length,
        ((inFront o rest).getLast?.map RelaxDelta.cumulativeDeleted).getD cumulative⟩ := by
  induction rest generalizing front cumulative with
  | nil =>
    rw [RelaxCursor.advance, dif_neg (by simp)]
    simp [inFront]
  | cons e rest ih =>
    have hlt : front.length < (front ++ e :: rest).length := by simp
    have hget : (front ++ e :: rest)[front.length] = e := by simp
    rw [RelaxCursor.advance, dif_pos hlt]
    simp only [hget]
    by_cases hin : e.inputOffset < o
    · have hrest := ih (front ++ [e]) e.cumulativeDeleted
      rw [List.append_assoc, List.length_append, List.length_singleton, List.singleton_append] at hrest
      have hfront : inFront o (e :: rest) = e :: inFront o rest :=
        List.takeWhile_cons_of_pos (by simpa using hin)
      rw [if_pos hin, hrest, hfront, List.getLast?_cons]
      simp only [List.append_assoc, List.singleton_append]
      cases (inFront o rest).getLast? <;> rfl
    · have hfront : inFront o (e :: rest) = [] := List.takeWhile_cons_of_neg (by simpa using hin)
      rw [if_neg hin, hfront]
      simp

/-- A cursor that has walked to an offset translates every later one as the search does. -/
theorem translate_cursorAt (h : o ≤ o') :
    (d.cursorAt o).translate d o' = (d.cursorAt o', d.inputToOutputOffset o') := by
  -- the rest of the list is behind the first offset
  have hsplit : d = inFront o d ++ d.dropWhile fun e => decide (e.inputOffset < o) :=
    (List.takeWhile_append_dropWhile ..).symm
  have hfront : inFront o' d = inFront o d ++ inFront o' (d.dropWhile fun e => decide (e.inputOffset < o)) := by
    conv_lhs => rw [hsplit]
    refine List.takeWhile_append_of_pos fun e he => ?_
    have hlt : e.inputOffset < o := by simpa using List.mem_takeWhile_imp he
    exact decide_eq_true (Nat.lt_of_lt_of_le hlt h)
  have hadvance : (d.cursorAt o).advance d o' = d.cursorAt o' := by
    have hwalk := advance_append (inFront o d) (d.dropWhile fun e => decide (e.inputOffset < o)) o' (d.deletedBefore o)
    rw [← hsplit, ← hfront] at hwalk
    refine hwalk.trans ?_
    congr 1
    rw [deletedBefore_eq_getD, deletedBefore_eq_getD, hfront, List.getLast?_append]
    cases (inFront o' (d.dropWhile fun e => decide (e.inputOffset < o))).getLast? <;> rfl
  unfold RelaxCursor.translate
  rw [hadvance]
  rfl

/-- The cursor on offsets that do not decrease. -/
theorem translateAll_cursorAt {queries : List Nat} (hs : queries.Pairwise (· ≤ ·)) (h : ∀ o' ∈ queries, o ≤ o') :
    (d.cursorAt o).translateAll d queries = queries.map d.inputToOutputOffset := by
  induction queries generalizing o with
  | nil => rfl
  | cons o' queries ih =>
    obtain ⟨hle, hs⟩ := List.pairwise_cons.mp hs
    rw [RelaxCursor.translateAll, translate_cursorAt (h o' List.mem_cons_self), List.map_cons]
    exact congrArg _ (ih hs hle)

theorem cursorAt_zero : d.cursorAt 0 = cursor := by
  have hnone : inFront 0 d = [] := by
    cases d with
    | nil => rfl
    | cons e d => exact List.takeWhile_cons_of_neg (by simp)
  unfold cursorAt
  rw [deletedBefore_eq_getD, hnone]
  rfl

end Cursor

/-! ## There and back -/

/-- The deletions come in strictly ascending order and do not overlap. -/
def Ascending (whole : List (Nat × Nat)) : Prop := whole.Pairwise fun d e => d.1 < e.1 ∧ d.1 + d.2 ≤ e.1

variable {whole : List (Nat × Nat)}

theorem Ascending.separated (h : Ascending whole) : Deletions.Separated whole :=
  h.imp And.right

/-- The shift back at an output offset is what is deleted in front of the input offset it gives. A deletion of no bytes
    counts on one side only. -/
theorem before_addedBack {running y : Nat} {l : List (Nat × Nat)} (hs : Deletions.Separated l)
    (hlo : ∀ e ∈ l, running ≤ e.1) :
    running + Deletions.before l (y + addedBack running l y) = addedBack running l y := by
  induction l generalizing running with
  | nil => rfl
  | cons e l ih =>
    obtain ⟨he, hs⟩ := List.pairwise_cons.mp hs
    have hrun := hlo e List.mem_cons_self
    rw [addedBack_cons]
    split_ifs with hle
    · have hrest : running + e.2 + Deletions.before l (y + addedBack (running + e.2) l y) =
          addedBack (running + e.2) l y :=
        ih hs fun f hf => by have := he f hf; omega
      rw [Deletions.before_cons]
      split_ifs with hlt
      · omega
      · have hzero : e.2 = 0 := by omega
        rw [hzero, Nat.add_zero] at hrest ⊢
        rwa [Nat.zero_add]
    · -- nothing from here on starts in front of the offset
      rw [Deletions.before_eq_zero, Nat.add_zero]
      intro f hf
      rcases List.mem_cons.mp hf with rfl | hf
      · omega
      · have := he f hf
        omega

theorem inputToOutputOffset_new (h : Ascending whole) (o : Nat) :
    (new whole).inputToOutputOffset o = Deletions.place whole o := by
  have hacc : (new whole).Accumulated := .ofRaw (h.imp fun hd => Nat.le_of_lt hd.1)
  unfold inputToOutputOffset Deletions.place
  rw [hacc.deletedBefore_eq, raw_new]

theorem outputToInputOffset_new (whole : List (Nat × Nat)) (y : Nat) :
    (new whole).outputToInputOffset y = y + addedBack 0 whole y := by
  unfold addedBack outputToInputOffset new
  cases ((newFrom 0 whole).takeWhile fun e =>
    decide (e.inputOffset + e.bytesDeleted - e.cumulativeDeleted ≤ y)).getLast? <;> rfl

/-- The keys of the search back ascend, so that its `partition_point` is the end of a prefix, and no running sum is
    greater than the end of its deletion. -/
theorem outputKey_newFrom {running : Nat} {l : List (Nat × Nat)} (hs : Deletions.Separated l)
    (hlo : ∀ e ∈ l, running ≤ e.1) :
    (newFrom running l).Pairwise (fun a b => outputKey a ≤ outputKey b) ∧
    ∀ a ∈ newFrom running l, a.cumulativeDeleted ≤ a.inputOffset + a.bytesDeleted := by
  have hkey : ∀ {r : Nat} {l : List (Nat × Nat)} {lo : Nat}, Deletions.Separated l → (∀ e ∈ l, r + lo ≤ e.1) →
      ∀ a ∈ newFrom r l, lo ≤ outputKey a ∧ a.cumulativeDeleted ≤ a.inputOffset + a.bytesDeleted := by
    intro r l lo hs hlo
    induction l generalizing r with
    | nil => exact fun a ha => absurd ha List.not_mem_nil
    | cons e l ih =>
      obtain ⟨he, hs⟩ := List.pairwise_cons.mp hs
      have hlo' := hlo e List.mem_cons_self
      intro a ha
      rcases List.mem_cons.mp ha with rfl | ha
      · simp only [outputKey]
        omega
      · exact ih hs (fun f hf => by have := he f hf; omega) a ha
  refine ⟨?_, fun a ha => (@hkey running l 0 hs hlo a ha).2⟩
  induction l generalizing running with
  | nil => exact .nil
  | cons e l ih =>
    obtain ⟨he, hs⟩ := List.pairwise_cons.mp hs
    have hrun := hlo e List.mem_cons_self
    refine .cons (fun a ha => ?_) (ih hs fun f hf => by have := he f hf; omega)
    have h := (@hkey _ _ (e.1 - running) hs (fun f hf => by have := he f hf; omega) a ha).1
    unfold outputKey at h ⊢
    simp only
    omega

/-! ## Portions -/

/-- The deletions after some portions are those of all of them. -/
theorem foldl_mergeAdditional (parts : List (List (Nat × Nat))) {d : SectionRelaxDeltas} (hd : d.Accumulated) :
    (parts.foldl mergeAdditional d).Accumulated ∧ (parts.foldl mergeAdditional d).raw.Perm (d.raw ++ parts.flatten) := by
  induction parts generalizing d with
  | nil => exact ⟨hd, by simp⟩
  | cons part parts ih =>
    obtain ⟨hacc, hperm⟩ := ih (hd.merge part)
    refine ⟨hacc, hperm.trans ?_⟩
    rw [List.flatten_cons, ← List.append_assoc]
    exact (raw_mergeAdditional d part).append_right _

variable {parts : List (List (Nat × Nat))} {initial : List (Nat × Nat)}

/-- Merging the portions of a whole gives the deltas of the whole. -/
theorem foldl_mergeAdditional_eq (hwhole : Ascending whole) (hinitial : initial.Pairwise (·.1 < ·.1))
    (hparts : (initial ++ parts.flatten).Perm whole) : parts.foldl mergeAdditional (new initial) = new whole := by
  have hinit : (new initial).Accumulated := .ofRaw (hinitial.imp Nat.le_of_lt)
  obtain ⟨hacc, hperm⟩ := foldl_mergeAdditional parts hinit
  obtain ⟨hnew, hsorted⟩ := hacc.sorted
  rw [raw_new] at hperm
  have hperm := hperm.trans hparts
  -- the offsets differ, so there is one sorted list
  have hdistinct : (parts.foldl mergeAdditional (new initial)).raw.Pairwise (fun d e => d.1 ≠ e.1) :=
    (hperm.pairwise_iff Ne.symm).mpr (hwhole.imp fun h => Nat.ne_of_lt h.1)
  have hraw : (parts.foldl mergeAdditional (new initial)).raw = whole :=
    @List.Perm.eq_of_pairwise _ (fun d e => d.1 < e.1) _ _ (fun a b _ _ hab hba => absurd hba (Nat.lt_asymm hab))
      ((hsorted.and hdistinct).imp fun h => Nat.lt_of_le_of_ne h.1 h.2) (hwhole.imp And.left) hperm
  rw [hnew, hraw]

/-- **Offsets through relaxation**: whatever portions the deletions were recorded in, the deltas are those of the whole
    list; offsets that are not strictly inside of a deletion stay in order, no more is taken off them than they have,
    kept offsets go there and back, output offsets go back and there, and a cursor translates like the search. -/
theorem relaxed_offsets (hwhole : Ascending whole) (hinitial : initial.Pairwise (·.1 < ·.1))
    (hparts : (initial ++ parts.flatten).Perm whole) :
    parts.foldl mergeAdditional (new initial) = new whole ∧
    (∀ x y, x ≤ y → Deletions.Untouched whole x x → Deletions.Untouched whole y y →
      (new whole).inputToOutputOffset x ≤ (new whole).inputToOutputOffset y) ∧
    (∀ x, Deletions.Untouched whole x x → (new whole).deletedBefore x ≤ x) ∧
    ((new whole).Pairwise (fun a b => outputKey a ≤ outputKey b) ∧
      ∀ a ∈ new whole, a.cumulativeDeleted ≤ a.inputOffset + a.bytesDeleted) ∧
    (∀ x, Deletions.Untouched whole x (x + 1) →
      (new whole).outputToInputOffset ((new whole).inputToOutputOffset x) = x) ∧
    (∀ y, (new whole).inputToOutputOffset ((new whole).outputToInputOffset y) = y) ∧
    (∀ queries : List Nat, queries.Pairwise (· ≤ ·) →
      cursor.translateAll (new whole) queries = queries.map (new whole).inputToOutputOffset) := by
  have hs := hwhole.separated
  have hlo : ∀ e ∈ whole, 0 ≤ e.1 := fun e _ => Nat.zero_le e.1
  have hroom : ∀ x, Deletions.Untouched whole x x → Deletions.before whole x ≤ x := by
    intro x hx
    have := Deletions.before_le hs hlo (Nat.zero_le x) hx
    omega
  refine ⟨foldl_mergeAdditional_eq hwhole hinitial hparts, ?_, ?_, outputKey_newFrom hs hlo, ?_, ?_, ?_⟩
  · intro x y hxy hx hy
    have := Deletions.before_le_add hs hxy hx hy
    rw [inputToOutputOffset_new hwhole, inputToOutputOffset_new hwhole]
    unfold Deletions.place
    omega
  · intro x hx
    have hacc : (new whole).Accumulated := .ofRaw (hwhole.imp fun hd => Nat.le_of_lt hd.1)
    rw [hacc.deletedBefore_eq, raw_new]
    exact hroom x hx
  · intro x hx
    have hclear : Deletions.Untouched whole x x := fun e he => (hx e he).imp id fun h => Nat.le_of_succ_le h
    have hbefore := hroom x hclear
    have hback := addedBack_eq hs hlo (Nat.zero_le x) hx (by omega)
    rw [outputToInputOffset_new, inputToOutputOffset_new hwhole]
    unfold Deletions.place
    rw [Nat.sub_zero] at hback
    omega
  · intro y
    have hback : 0 + Deletions.before whole (y + addedBack 0 whole y) = addedBack 0 whole y :=
      before_addedBack hs hlo
    rw [outputToInputOffset_new, inputToOutputOffset_new hwhole]
    unfold Deletions.place
    omega
  · intro queries hqueries
    rw [← @cursorAt_zero (new whole)]
    exact translateAll_cursorAt hqueries fun o _ => Nat.zero_le o

/-- A deletion at offset 0, one of no bytes and two that touch, recorded in two portions. -/
theorem relaxed_offsets_witness :
    [[(4, 0), (0, 2)]].foldl mergeAdditional (new [(8, 2), (10, 4)]) = new [(0, 2), (4, 0), (8, 2), (10, 4)] :=
  (relaxed_offsets (by unfold Ascending; decide) (by decide) (by decide)).1

end SectionRelaxDeltas

end Reld
