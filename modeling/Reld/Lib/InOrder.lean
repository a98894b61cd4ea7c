import Mathlib.Data.List.Dedup

/-!
# `Lib.InOrder` — ranges that are placed one behind the other

Items get ranges in turn, each from a cursor on that never moves back. An item may be placed again, and then its
last range counts. Of the items in the order in which they were placed last, each ends where the next one starts, or
earlier.
-/

universe u

namespace InOrder

variable {ι : Type u} [DecidableEq ι] {cursor cursor' : Nat} {start stop start' stop' : ι → Nat} {done : List ι} {i : ι}

/-- The item that comes last is the only one of its kind that stays. -/
theorem dedup_concat (l : List ι) (i : ι) : (l ++ [i]).dedup = l.dedup.filter (· ≠ i) ++ [i] := by
  induction l with
  | nil => rfl
  | cons j l ih =>
    rw [List.cons_append]
    by_cases hmem : j ∈ l
    · rw [List.dedup_cons_of_mem hmem, List.dedup_cons_of_mem (List.mem_append_left _ hmem), ih]
    · rw [List.dedup_cons_of_notMem hmem]
      by_cases hij : j = i
      · rw [List.dedup_cons_of_mem (by rw [hij]; exact List.mem_append_right _ (List.mem_singleton_self i)), ih,
          List.filter_cons_of_neg (by simpa using hij)]
      · have hnot : j ∉ l ++ [i] := by
          simpa [hmem] using hij
        rw [List.dedup_cons_of_notMem hnot, ih, List.filter_cons_of_pos (by simpa using hij), List.cons_append]

/-- The ranges of the items that were placed so far. -/
structure Placed (cursor : Nat) (start stop : ι → Nat) (done : List ι) : Prop where
  ends : ∀ i ∈ done, stop i ≤ cursor
  ordered : done.dedup.Pairwise fun i j => stop i ≤ start j

namespace Placed

theorem nil : Placed cursor start stop [] := ⟨fun _ h => absurd h List.not_mem_nil, List.Pairwise.nil⟩

/-- The cursor moves, the ranges stay. -/
theorem move (h : Placed cursor start stop done) (hcursor : cursor ≤ cursor')
    (hsame : ∀ j ∈ done, start' j = start j ∧ stop' j = stop j) : Placed cursor' start' stop' done := by
  refine ⟨fun j hj => ?_, h.ordered.imp_of_mem fun {a b} ha hb hab => ?_⟩
  · rw [(hsame j hj).2]
    exact Nat.le_trans (h.ends j hj) hcursor
  · rw [(hsame a (List.mem_dedup.mp ha)).2, (hsame b (List.mem_dedup.mp hb)).1]
    exact hab

/-- An item is placed, perhaps again, behind all others. -/
theorem place (h : Placed cursor start stop done) (hcursor : cursor ≤ cursor')
    (hsame : ∀ j, j ≠ i → start' j = start j ∧ stop' j = stop j) (hstart : cursor ≤ start' i) (hstop : stop' i ≤ cursor') :
    Placed cursor' start' stop' (done ++ [i]) := by
  refine ⟨fun j hj => ?_, ?_⟩
  · by_cases hji : j = i
    · rw [hji]
      exact hstop
    · rw [(hsame j hji).2]
      have hmem : j ∈ done := by simpa [hji] using hj
      exact Nat.le_trans (h.ends j hmem) hcursor
  · rw [dedup_concat, List.pairwise_append]
    have hother : ∀ j ∈ done.dedup.filter (· ≠ i), j ∈ done ∧ j ≠ i := by
      intro j hj
      have hj := List.mem_filter.mp hj
      exact ⟨List.mem_dedup.mp hj.1, by simpa using hj.2⟩
    refine ⟨?_, List.pairwise_singleton _ _, ?_⟩
    · refine (h.ordered.filter _).imp_of_mem fun {a b} ha hb hab => ?_
      rw [(hsame a (hother a ha).2).2, (hsame b (hother b hb).2).1]
      exact hab
    · intro a ha b hb
      obtain rfl := List.mem_singleton.mp hb
      rw [(hsame a (hother a ha).2).2]
      exact Nat.le_trans (h.ends a (hother a ha).1) hstart

end Placed

end InOrder
