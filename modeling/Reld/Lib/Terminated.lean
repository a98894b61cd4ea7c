import Mathlib.Data.List.Range
import Mathlib.Data.Option.NAry

/-!
# `Lib.Terminated` — lists of pieces that end with a terminator

A list is cut behind each terminator. A piece is named by the position it starts at, and `piecesIn` lists the pieces
that start in an interval: intervals that are next to each other share nothing and miss nothing
(`split_append`), although a piece may reach far beyond the interval it starts in. Whoever walks from piece to
piece goes through them in this order (`split_step`), and whoever begins at any position first skips to the next
start (`split_skip`). `split` has no result when a piece in the interval lacks its terminator.
-/

universe u

namespace Terminated

variable {α : Type u} {isEnd : α → Bool} {xs : List α} {a b c o p : Nat}

/-- Up to and including the first terminator. -/
def first (isEnd : α → Bool) (xs : List α) : List α := xs.take (xs.findIdx isEnd + 1)

/-- A piece starts at `o`: it is the front of the list, or there is a terminator in front of it. -/
def startsAt (isEnd : α → Bool) (xs : List α) (o : Nat) : Bool :=
  o < xs.length && (o == 0 || (xs[o - 1]?).any isEnd)

/-- There is a terminator from `o` on. -/
def endsFrom (isEnd : α → Bool) (xs : List α) (o : Nat) : Bool := (xs.drop o).any isEnd

/-- The pieces that start from `a` on and in front of `b`, with their positions. -/
def piecesIn (isEnd : α → Bool) (xs : List α) (a b : Nat) : List (Nat × List α) :=
  ((List.range' a (b - a)).filter (startsAt isEnd xs)).map fun o => (o, first isEnd (xs.drop o))

/-- Each piece that starts there has its terminator. -/
def endedIn (isEnd : α → Bool) (xs : List α) (a b : Nat) : Bool :=
  (List.range' a (b - a)).all fun o => !startsAt isEnd xs o || endsFrom isEnd xs o

/-- The pieces that start in an interval, if they all have their terminators. -/
def split (isEnd : α → Bool) (xs : List α) (a b : Nat) : Option (List (Nat × List α)) :=
  if endedIn isEnd xs a b then some (piecesIn isEnd xs a b) else none

/-! ## A piece -/

theorem first_ne_nil (h : xs ≠ []) : first isEnd xs ≠ [] := by
  cases xs with
  | nil       => exact absurd rfl h
  | cons x xs => simp [first]

theorem length_first_pos (isEnd : α → Bool) (h : xs ≠ []) : 0 < (first isEnd xs).length :=
  List.length_pos_of_ne_nil (first_ne_nil h)

theorem drop_ne_nil (ho : o < xs.length) : xs.drop o ≠ [] := by
  rw [Ne, List.drop_eq_nil_iff]
  omega

/-- Up to the end of the piece there is no terminator. -/
theorem not_isEnd_of_lt {i : Nat} (hi : i + 1 < (first isEnd xs).length) : ∀ x, xs[i]? = some x → isEnd x = false := by
  intro x hx
  obtain ⟨hlt, rfl⟩ := List.getElem?_eq_some_iff.mp hx
  refine List.not_of_lt_findIdx ?_
  rw [first, List.length_take] at hi
  omega

theorem length_first_of_any (h : xs.any isEnd = true) : (first isEnd xs).length = xs.findIdx isEnd + 1 := by
  have hlt := List.findIdx_lt_length_of_exists (List.any_eq_true.mp h)
  rw [first, List.length_take]
  omega

/-- The last element of a piece is its terminator. -/
theorem isEnd_last (h : xs.any isEnd = true) :
    (xs[(first isEnd xs).length - 1]?).any isEnd = true := by
  have hlt := List.findIdx_lt_length_of_exists (List.any_eq_true.mp h)
  rw [length_first_of_any h, Nat.add_sub_cancel, List.getElem?_eq_getElem hlt, Option.any_some]
  exact List.findIdx_getElem

/-- Behind a terminator, or not: where a piece starts. -/
theorem startsAt_succ (isEnd : α → Bool) (xs : List α) (o : Nat) :
    startsAt isEnd xs (o + 1) = (decide (o + 1 < xs.length) && (xs[o]?).any isEnd) := by
  simp [startsAt]

/-- Inside a piece none starts. -/
theorem not_startsAt_inside (hao : a < o) (ho : o < a + (first isEnd (xs.drop a)).length) :
    startsAt isEnd xs o = false := by
  obtain ⟨i, rfl⟩ : ∃ i, o = a + i + 1 := ⟨o - a - 1, by omega⟩
  have hnot := @not_isEnd_of_lt _ isEnd (xs.drop a) i (by omega)
  rw [startsAt_succ, ← List.getElem?_drop]
  cases hx : (xs.drop a)[i]? with
  | none   => simp
  | some x => simp [hnot x hx]

/-- Behind a piece that has its terminator the next one starts, or the list ends. -/
theorem startsAt_behind (h : endsFrom isEnd xs o = true)
    (hlt : o + (first isEnd (xs.drop o)).length < xs.length) :
    startsAt isEnd xs (o + (first isEnd (xs.drop o)).length) = true := by
  have hpos := length_first_pos isEnd (drop_ne_nil (show o < xs.length by omega))
  obtain ⟨n, hn⟩ : ∃ n, (first isEnd (xs.drop o)).length = n + 1 := ⟨_, (Nat.succ_pred_eq_of_pos hpos).symm⟩
  have hlast := isEnd_last h
  rw [hn, Nat.add_sub_cancel, List.getElem?_drop] at hlast
  rw [hn] at hlt ⊢
  rw [← Nat.add_assoc] at hlt ⊢
  rw [startsAt_succ, decide_eq_true hlt, hlast]
  rfl

/-! ## The pieces of an interval -/

theorem startsAt_lt (h : startsAt isEnd xs o = true) : o < xs.length := by
  simp only [startsAt, Bool.and_eq_true, decide_eq_true_eq] at h
  exact h.1

theorem startsAt_zero (h : xs ≠ []) : startsAt isEnd xs 0 = true := by
  simpa [startsAt] using List.length_pos_of_ne_nil h

theorem endedIn_iff :
    endedIn isEnd xs a b = true ↔
      ∀ o, a ≤ o → o < b → startsAt isEnd xs o = true → endsFrom isEnd xs o = true := by
  simp only [endedIn, List.all_eq_true, List.mem_range'_1, Bool.or_eq_true, Bool.not_eq_true']
  constructor
  · intro h o ha hb hs
    exact (h o ⟨ha, by omega⟩).resolve_left (by simp [hs])
  · intro h o ho
    cases hs : startsAt isEnd xs o with
    | false => exact .inl rfl
    | true  => exact .inr (h o ho.1 (by omega) hs)

theorem mem_piecesIn {q : Nat × List α} :
    q ∈ piecesIn isEnd xs a b ↔
      a ≤ q.1 ∧ q.1 < b ∧ startsAt isEnd xs q.1 = true ∧ q.2 = first isEnd (xs.drop q.1) := by
  unfold piecesIn
  rw [List.mem_map]
  constructor
  · rintro ⟨o, ho, rfl⟩
    rw [List.mem_filter, List.mem_range'_1] at ho
    exact ⟨ho.1.1, by omega, ho.2, rfl⟩
  · rintro ⟨ha, hb, hs, hq⟩
    refine ⟨q.1, ?_, by rw [← hq]⟩
    rw [List.mem_filter, List.mem_range'_1]
    exact ⟨⟨ha, by omega⟩, hs⟩

/-- The positions rise. -/
theorem piecesIn_sorted (a b : Nat) : (piecesIn isEnd xs a b).Pairwise fun q q' => q.1 < q'.1 := by
  unfold piecesIn
  rw [List.pairwise_map]
  exact (List.pairwise_lt_range' 1).filter _

theorem range'_split (hab : a ≤ b) (hbc : b ≤ c) :
    List.range' a (c - a) = List.range' a (b - a) ++ List.range' b (c - b) := by
  have h := @List.range'_append a (b - a) (c - b) 1
  rw [show a + 1 * (b - a) = b by omega, show b - a + (c - b) = c - a by omega] at h
  exact h.symm

/-- Intervals next to each other. -/
theorem split_append (hab : a ≤ b) (hbc : b ≤ c) :
    Option.map₂ (· ++ ·) (split isEnd xs a b) (split isEnd xs b c) = split isEnd xs a c := by
  have hended : endedIn isEnd xs a c = (endedIn isEnd xs a b && endedIn isEnd xs b c) := by
    simp [endedIn, range'_split hab hbc]
  have hpieces : piecesIn isEnd xs a c = piecesIn isEnd xs a b ++ piecesIn isEnd xs b c := by
    simp [piecesIn, range'_split hab hbc]
  unfold split
  rw [hended, hpieces]
  cases endedIn isEnd xs a b <;> cases endedIn isEnd xs b c <;> rfl

/-- Where nothing starts. -/
theorem split_eq_nil (h : ∀ o, a ≤ o → o < b → startsAt isEnd xs o = false) : split isEnd xs a b = some [] := by
  have hended : endedIn isEnd xs a b = true := endedIn_iff.mpr fun o ha hb hs => by simp [h o ha hb] at hs
  have hpieces : piecesIn isEnd xs a b = [] := by
    refine List.eq_nil_iff_forall_not_mem.mpr fun q hq => ?_
    obtain ⟨ha, hb, hs, -⟩ := mem_piecesIn.mp hq
    simp [h q.1 ha hb] at hs
  unfold split
  rw [if_pos hended, hpieces]

theorem split_of_le (h : b ≤ a) : split isEnd xs a b = some [] :=
  split_eq_nil fun _ _ _ => by omega

theorem split_of_length_le (h : xs.length ≤ a) : split isEnd xs a b = some [] :=
  split_eq_nil fun _ ha _ => Bool.eq_false_iff.mpr fun hs => by have := startsAt_lt hs; omega

theorem append_nil_of_split (r : Option (List (Nat × List α))) : Option.map₂ (· ++ ·) r (some []) = r := by
  cases r <;> simp

theorem nil_append_of_split (r : Option (List (Nat × List α))) : Option.map₂ (· ++ ·) (some []) r = r := by
  cases r <;> simp

/-- Behind the end of the list nothing starts. -/
theorem split_stop (h : xs.length ≤ b) : split isEnd xs a b = split isEnd xs a xs.length := by
  rcases Nat.le_total xs.length a with ha | ha
  · rw [split_of_length_le ha, split_of_length_le ha]
  · rw [← split_append ha h, split_of_length_le (Nat.le_refl xs.length), append_nil_of_split]

/-- From inside a piece nothing starts up to its end. -/
theorem split_inside (ha : a < xs.length) :
    split isEnd xs (a + 1) b = split isEnd xs (a + (first isEnd (xs.drop a)).length) b := by
  have hpos := length_first_pos isEnd (drop_ne_nil ha)
  rcases Nat.le_total (a + (first isEnd (xs.drop a)).length) b with hb | hb
  · rw [← split_append (show a + 1 ≤ a + (first isEnd (xs.drop a)).length by omega) hb,
      split_eq_nil (b := a + (first isEnd (xs.drop a)).length) fun o ho ho' => not_startsAt_inside ho ho',
      nil_append_of_split]
  · rw [split_of_le hb, split_eq_nil fun o ho ho' => not_startsAt_inside ho (by omega)]

theorem split_one (hab : a < b) :
    split isEnd xs a b = Option.map₂ (· ++ ·) (split isEnd xs a (a + 1)) (split isEnd xs (a + 1) b) :=
  (split_append (Nat.le_succ a) hab).symm

/-- The walk: a piece, then those behind it. -/
theorem split_step (hstart : startsAt isEnd xs o = true) (hob : o < b) :
    split isEnd xs o b =
      if endsFrom isEnd xs o then
        (split isEnd xs (o + (first isEnd (xs.drop o)).length) b).map ((o, first isEnd (xs.drop o)) :: ·)
      else none := by
  rw [split_one hob, split_inside (startsAt_lt hstart)]
  have hone : split isEnd xs o (o + 1) =
      if endsFrom isEnd xs o then some [(o, first isEnd (xs.drop o))] else none := by
    unfold split
    simp [endedIn, piecesIn, hstart]
  rw [hone]
  cases endsFrom isEnd xs o <;> cases split isEnd xs (o + (first isEnd (xs.drop o)).length) b <;> rfl

/-- From a position inside a piece: on with the piece behind. -/
theorem split_skip (hstart : startsAt isEnd xs a = false) (ha : a < xs.length) :
    split isEnd xs a b = split isEnd xs (a + (first isEnd (xs.drop a)).length) b := by
  rcases Nat.lt_or_ge a b with hab | hab
  · have hone : split isEnd xs a (a + 1) = some [] := by
      refine split_eq_nil fun o ho ho' => ?_
      rw [show o = a by omega]
      exact hstart
    rw [split_one hab, hone, nil_append_of_split, split_inside ha]
  · rw [split_of_le hab, split_of_le (by omega)]

/-- A list whose last element is a terminator has all its pieces. -/
theorem split_of_getLast (h : ∃ x, xs.getLast? = some x ∧ isEnd x = true) :
    split isEnd xs a b = some (piecesIn isEnd xs a b) := by
  obtain ⟨x, hlast, hx⟩ := h
  refine if_pos (endedIn_iff.mpr fun o _ _ hs => ?_)
  refine List.any_eq_true.mpr ⟨x, ?_, hx⟩
  have hdrop : (xs.drop o).getLast? = some x := by
    rw [List.getLast?_drop, if_neg (by have := startsAt_lt hs; omega), hlast]
  exact List.mem_of_getLast? hdrop

/-! ## The piece around a position -/

/-- Where the piece starts that `o` lies in. -/
def startOf (isEnd : α → Bool) (xs : List α) : Nat → Nat
  | 0     => 0
  | o + 1 => if startsAt isEnd xs (o + 1) then o + 1 else startOf isEnd xs o

theorem startOf_of_startsAt (h : startsAt isEnd xs o = true) : startOf isEnd xs o = o := by
  cases o with
  | zero   => rfl
  | succ o => exact if_pos h

theorem startOf_succ (h : startsAt isEnd xs (o + 1) = false) : startOf isEnd xs (o + 1) = startOf isEnd xs o :=
  if_neg (by simp [h])

theorem startOf_le (isEnd : α → Bool) (xs : List α) (o : Nat) : startOf isEnd xs o ≤ o := by
  induction o with
  | zero => exact Nat.le_refl 0
  | succ o ih =>
    rw [startOf]
    split
    · exact Nat.le_refl _
    · exact Nat.le_succ_of_le ih

theorem startsAt_startOf (h : xs ≠ []) (o : Nat) : startsAt isEnd xs (startOf isEnd xs o) = true := by
  induction o with
  | zero => exact startsAt_zero h
  | succ o ih =>
    rw [startOf]
    split
    case isTrue hstart => exact hstart
    case isFalse       => exact ih

/-- From there to the position no other piece starts. -/
theorem not_startsAt_of_startOf_lt (hp : startOf isEnd xs o < p) (hpo : p ≤ o) : startsAt isEnd xs p = false := by
  induction o with
  | zero => omega
  | succ o ih =>
    cases hstart : startsAt isEnd xs (o + 1) with
    | true  => rw [startOf_of_startsAt hstart] at hp; omega
    | false =>
      rcases Nat.lt_or_eq_of_le hpo with hlt | rfl
      · exact ih (startOf_succ hstart ▸ hp) (Nat.le_of_lt_succ hlt)
      · exact hstart

/-- Up to an element that is no terminator, a piece goes on. -/
theorem first_cons (x : α) (xs : List α) : first isEnd (x :: xs) = x :: if isEnd x then [] else first isEnd xs := by
  unfold first
  rw [List.findIdx_cons]
  cases isEnd x <;> simp

theorem first_drop_succ (ho : o + 1 < xs.length) (h : startsAt isEnd xs (o + 1) = false) :
    first isEnd (xs.drop (o + 1)) = (first isEnd (xs.drop o)).drop 1 := by
  have hget : xs[o]? = some (xs.get ⟨o, by omega⟩) := List.getElem?_eq_getElem _
  rw [startsAt_succ, decide_eq_true ho, Bool.true_and, hget, Option.any_some] at h
  rw [List.drop_eq_getElem_cons (show o < xs.length by omega), first_cons]
  rw [List.get_eq_getElem] at h
  rw [h, if_neg Bool.false_ne_true, List.drop_one, List.tail_cons]

/-- From a position on to the terminator: the rest of its piece. -/
theorem first_drop_eq (ho : o < xs.length) :
    first isEnd (xs.drop o) = (first isEnd (xs.drop (startOf isEnd xs o))).drop (o - startOf isEnd xs o) := by
  induction o with
  | zero => rfl
  | succ o ih =>
    cases hstart : startsAt isEnd xs (o + 1) with
    | true  => rw [startOf_of_startsAt hstart, Nat.sub_self, List.drop_zero]
    | false =>
      have hle := startOf_le isEnd xs o
      rw [first_drop_succ ho hstart, ih (by omega), startOf_succ hstart, List.drop_drop]
      congr 1
      omega

/-- The position lies in the piece. -/
theorem sub_startOf_lt (ho : o < xs.length) :
    o - startOf isEnd xs o < (first isEnd (xs.drop (startOf isEnd xs o))).length := by
  have hne := length_first_pos isEnd (drop_ne_nil ho)
  rw [first_drop_eq ho, List.length_drop] at hne
  omega

end Terminated
