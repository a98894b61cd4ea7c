import Mathlib.Algebra.GroupWithZero.Nat
import Mathlib.Algebra.BigOperators.Group.Finset.Piecewise
import Mathlib.Algebra.BigOperators.Group.Finset.Sigma
import Mathlib.Data.List.GetD

/-!
# `Lib.Spans` — spans over a sequence of positions

Every position of a sequence uses some of finitely many spans. A span starts at the first position that uses
it and ends at the last (`mark`, `Marked`). `weave` lists the items of the positions in order, with a start
before the first item of each span and, after its last item, a tail and a stop. Every used span has one start
and one stop (`count_start`, `count_stop`), and what belongs to it stands between them (`between_items`,
`between_tail`).
-/

universe u

namespace Spans

/-! ## First and last use -/

/-- The starts and the ends of the spans, by their indices. -/
structure Marks where
  starts : List (Option Nat)
  ends : List (Option Nat)

/-- No span is in use. -/
def Marks.empty (count : Nat) : Marks :=
  { starts := List.replicate count none, ends := List.replicate count none }

/-- A position uses a span. -/
def Marks.mark (m : Marks) (pos span : Nat) : Marks :=
  { starts := if m.ends.getD span none = none then m.starts.set span (some pos) else m.starts
    ends := m.ends.set span (some pos) }

/-- The marks say where each span is used first and last. -/
structure Marked (count : Nat) (uses : Nat → Nat → Prop) (m : Marks) : Prop where
  length_starts : m.starts.length = count
  length_ends : m.ends.length = count
  unused : ∀ s, m.ends.getD s none = none → m.starts.getD s none = none ∧ ∀ r, ¬ uses r s
  used : ∀ s q, m.ends.getD s none = some q →
    uses q s ∧ ∃ p, m.starts.getD s none = some p ∧ uses p s ∧ ∀ r, uses r s → p ≤ r ∧ r ≤ q

theorem getD_replicate_none {α : Type} (count s : Nat) :
    (List.replicate count (none : Option α)).getD s none = none := by
  rw [List.getD_eq_getElem?_getD, List.getElem?_replicate]
  split <;> rfl

theorem Marked.empty (count : Nat) : Marked count (fun _ _ => False) (Marks.empty count) where
  length_starts := List.length_replicate
  length_ends := List.length_replicate
  unused s _ := ⟨getD_replicate_none count s, fun _ => id⟩
  used s q h := by
    rw [show (Marks.empty count).ends = List.replicate count none from rfl, getD_replicate_none] at h
    cases h

theorem getD_set_none {α : Type} (l : List (Option α)) (i s : Nat) (a : α) (hi : i < l.length) :
    (l.set i (some a)).getD s none = if s = i then some a else l.getD s none := by
  by_cases h : s = i
  · subst h
    simp [List.getD_eq_getElem?_getD, hi]
  · simp [List.getD_eq_getElem?_getD, h, Ne.symm h]

/-- A use at the present position, the last so far. -/
theorem Marked.mark {count : Nat} {uses : Nat → Nat → Prop} {m : Marks} (h : Marked count uses m)
    {pos span : Nat} (hspan : span < count) (hlast : ∀ r s, uses r s → r ≤ pos) :
    Marked count (fun r s => uses r s ∨ (r = pos ∧ s = span)) (m.mark pos span) := by
  have hends : ∀ s, (m.mark pos span).ends.getD s none = if s = span then some pos else m.ends.getD s none :=
    fun s => getD_set_none _ _ _ _ (h.length_ends ▸ hspan)
  have hstarts : ∀ s, (m.mark pos span).starts.getD s none =
      if s = span ∧ m.ends.getD span none = none then some pos else m.starts.getD s none := by
    intro s
    unfold Marks.mark
    by_cases hu : m.ends.getD span none = none
    · simp only [hu, and_true, if_true]
      exact getD_set_none _ _ _ _ (h.length_starts ▸ hspan)
    · rw [if_neg hu, if_neg (fun hc => hu hc.2)]
  refine ⟨?_, ?_, ?_, ?_⟩
  · unfold Marks.mark
    split
    · exact List.length_set.trans h.length_starts
    · exact h.length_starts
  · exact List.length_set.trans h.length_ends
  · intro s hs
    rw [hends] at hs
    by_cases he : s = span
    · rw [if_pos he] at hs
      cases hs
    · rw [if_neg he] at hs
      rw [hstarts, if_neg (fun hc => he hc.1)]
      exact ⟨(h.unused s hs).1, fun r hr => hr.elim ((h.unused s hs).2 r) (fun hr => he hr.2)⟩
  · intro s q hs
    rw [hends] at hs
    by_cases he : s = span
    · subst he
      rw [if_pos rfl] at hs
      obtain rfl : pos = q := Option.some.inj hs
      refine ⟨.inr ⟨rfl, rfl⟩, ?_⟩
      rw [hstarts]
      cases hu : m.ends.getD s none with
      | none =>
        refine ⟨pos, if_pos ⟨rfl, rfl⟩, .inr ⟨rfl, rfl⟩, fun r hr => ?_⟩
        rcases hr with hr | hr
        · exact absurd hr ((h.unused s hu).2 r)
        · exact ⟨hr.1.ge, hr.1.le⟩
      | some q' =>
        obtain ⟨-, p, hp, hup, hmin⟩ := h.used s q' hu
        rw [if_neg (fun hc => by cases hc.2)]
        refine ⟨p, hp, .inl hup, fun r hr => ?_⟩
        rcases hr with hr | hr
        · exact ⟨(hmin r hr).1, hlast r s hr⟩
        · rw [hr.1]
          exact ⟨hlast p s hup, Nat.le_refl pos⟩
    · rw [if_neg he] at hs
      obtain ⟨huq, p, hp, hup, hmin⟩ := h.used s q hs
      rw [hstarts, if_neg (fun hc => he hc.1)]
      exact ⟨.inl huq, p, hp, .inl hup, fun r hr => hr.elim (hmin r) (fun hr => absurd hr.2 he)⟩

theorem Marked.congr {count : Nat} {uses uses' : Nat → Nat → Prop} {m : Marks} (h : Marked count uses m)
    (he : ∀ r s, uses r s ↔ uses' r s) : Marked count uses' m := by
  have heq : uses = uses' := by
    funext r s
    exact propext (he r s)
  exact heq ▸ h

/-! ## Weaving -/

variable {ε : Type u}

/-- The spans whose mark is at a position. -/
def marksAt (marks : List (Option Nat)) (pos : Nat) : List Nat :=
  (List.range marks.length).filter (fun s => marks.getD s none = some pos)

variable (start stop : Nat → ε) (items tail : Nat → List ε) (m : Marks)

/-- One position: the starts, the items, and the tails with the stops. -/
def piece (pos : Nat) : List ε :=
  (marksAt m.starts pos).map start ++ items pos ++
    (marksAt m.ends pos).flatMap (fun s => tail s ++ [stop s])

/-- The positions in order. -/
def weave (n : Nat) : List ε := (List.range n).flatMap (piece start stop items tail m)

variable {start stop items tail m} {n : Nat}

/-! ### Counting -/

theorem sum_marksAt (marks : List (Option Nat)) (pos : Nat) (f : Nat → Nat) :
    ((marksAt marks pos).map f).sum =
      ∑ s ∈ Finset.range marks.length, if marks.getD s none = some pos then f s else 0 := by
  rw [← Finset.sum_filter]
  unfold marksAt
  generalize marks.length = k
  induction k with
  | zero => rfl
  | succ k ih =>
    rw [List.range_succ, List.filter_append, List.map_append, List.sum_append, ih, Finset.range_add_one,
      Finset.filter_insert]
    by_cases hk : marks.getD k none = some pos
    · rw [if_pos hk, Finset.sum_insert (by simp)]
      simp only [List.filter_cons, hk, decide_true, if_true, List.filter_nil, List.map_cons, List.map_nil,
        List.sum_cons, List.sum_nil, Nat.add_zero]
      omega
    · have hnone : [k].filter (fun s => marks.getD s none = some pos) = [] := by
        rw [List.filter_cons_of_neg (by simpa using hk), List.filter_nil]
      rw [if_neg hk, hnone]
      simp

/-- Every span is marked at one position at most, so summing over the positions sums over the spans. -/
theorem sum_positions (marks : List (Option Nat)) (hlt : ∀ s p, marks.getD s none = some p → p < n) (f : Nat → Nat) :
    ((List.range n).map (fun pos => ((marksAt marks pos).map f).sum)).sum =
      ∑ s ∈ Finset.range marks.length, if (marks.getD s none).isSome then f s else 0 := by
  simp only [sum_marksAt]
  show ∑ pos ∈ Finset.range n, ∑ s ∈ Finset.range marks.length, _ = _
  rw [Finset.sum_comm]
  refine Finset.sum_congr rfl (fun s _ => ?_)
  cases hs : marks.getD s none with
  | none => simp
  | some p =>
    simp only [Option.some.injEq, Option.isSome_some, if_true]
    rw [Finset.sum_ite_eq, if_pos (Finset.mem_range.mpr (hlt s p hs))]

variable [DecidableEq ε]

theorem count_weave (x : ε) (hstarts : ∀ s p, m.starts.getD s none = some p → p < n)
    (hends : ∀ s p, m.ends.getD s none = some p → p < n) :
    (weave start stop items tail m n).count x =
      (∑ s ∈ Finset.range m.starts.length, if (m.starts.getD s none).isSome then [start s].count x else 0) +
        ((List.range n).map (fun pos => (items pos).count x)).sum +
        ∑ s ∈ Finset.range m.ends.length,
          if (m.ends.getD s none).isSome then (tail s).count x + [stop s].count x else 0 := by
  have hpiece : ∀ pos, (piece start stop items tail m pos).count x =
      ((marksAt m.starts pos).map (fun s => [start s].count x)).sum + (items pos).count x +
        ((marksAt m.ends pos).map (fun s => (tail s).count x + [stop s].count x)).sum := by
    intro pos
    unfold piece
    rw [List.count_append, List.count_append, List.count_flatMap]
    congr 1
    · congr 1
      generalize marksAt m.starts pos = l
      induction l with
      | nil => rfl
      | cons s l ih =>
        rw [List.map_cons, List.map_cons, List.sum_cons, ← ih, ← List.count_append]
        rfl
    · congr 2
      funext s
      exact List.count_append
  unfold weave
  rw [List.count_flatMap, ← sum_positions m.starts hstarts, ← sum_positions m.ends hends,
    ← List.sum_map_add, ← List.sum_map_add]
  congr 2
  funext pos
  exact hpiece pos

theorem sum_count_items {items : Nat → List ε} {x : ε} (h : ∀ pos, x ∉ items pos) (n : Nat) :
    ((List.range n).map fun pos => (items pos).count x).sum = 0 := by
  simp [List.count_eq_zero.mpr (h _)]

/-- The sum over the used spans of a function that only one span contributes to. -/
theorem sum_single (marks : List (Option Nat)) (s : Nat) (f : Nat → Nat) (h : ∀ s', s' ≠ s → f s' = 0) :
    (∑ s' ∈ Finset.range marks.length, if (marks.getD s' none).isSome then f s' else 0) =
      if (marks.getD s none).isSome then f s else 0 := by
  rw [Finset.sum_eq_single s]
  · intro s' _ hne
    rw [h s' hne, ite_self]
  · intro hs
    rw [List.getD_eq_default _ _ (Nat.le_of_not_lt (fun hlt => hs (Finset.mem_range.mpr hlt)))]
    rfl

section Boundaries

variable (hstarts : ∀ s p, m.starts.getD s none = some p → p < n)
  (hends : ∀ s p, m.ends.getD s none = some p → p < n)
  (hne : ∀ s s', start s ≠ stop s')
include hstarts hends hne

/-- A used span has one start. -/
theorem count_start (hinj : Function.Injective start) (hitems : ∀ pos s, start s ∉ items pos)
    (htail : ∀ s s', start s ∉ tail s') (s : Nat) :
    (weave start stop items tail m n).count (start s) = if (m.starts.getD s none).isSome then 1 else 0 := by
  have hstop : ∀ s', [stop s'].count (start s) = 0 := fun s' =>
    List.count_eq_zero.mpr (fun h => hne s s' (List.mem_singleton.mp h))
  have hstart : ∀ s', s' ≠ s → [start s'].count (start s) = 0 := fun s' hs' =>
    List.count_eq_zero.mpr (fun h => hs' (hinj (List.mem_singleton.mp h)).symm)
  rw [count_weave (start s) hstarts hends, sum_count_items fun pos => hitems pos s, sum_single m.starts s _ hstart, Finset.sum_eq_zero]
  · simp
  · intro s' _
    rw [hstop, List.count_eq_zero.mpr (htail s s')]
    exact ite_self 0

/-- A used span has one stop. -/
theorem count_stop (hinj : Function.Injective stop) (hitems : ∀ pos s, stop s ∉ items pos)
    (htail : ∀ s s', stop s ∉ tail s') (s : Nat) :
    (weave start stop items tail m n).count (stop s) = if (m.ends.getD s none).isSome then 1 else 0 := by
  have hstart : ∀ s', [start s'].count (stop s) = 0 := fun s' =>
    List.count_eq_zero.mpr (fun h => hne s' s (List.mem_singleton.mp h).symm)
  have hstop : ∀ s', s' ≠ s → (tail s').count (stop s) + [stop s'].count (stop s) = 0 := fun s' hs' => by
    rw [List.count_eq_zero.mpr (htail s s'), List.count_eq_zero.mpr
      (fun h => hs' (hinj (List.mem_singleton.mp h)).symm)]
  rw [count_weave (stop s) hstarts hends, sum_count_items fun pos => hitems pos s, sum_single m.ends s _ hstop, Finset.sum_eq_zero]
  · rw [List.count_eq_zero.mpr (htail s s)]
    simp
  · intro s' _
    rw [hstart]
    exact ite_self 0

omit hne in
/-- Everything else comes from the items and from the tails of the used spans. -/
theorem count_item {x : ε} (hstart : ∀ s, start s ≠ x) (hstop : ∀ s, stop s ≠ x) :
    (weave start stop items tail m n).count x =
      ((List.range n).map (fun pos => (items pos).count x)).sum +
        ∑ s ∈ Finset.range m.ends.length, if (m.ends.getD s none).isSome then (tail s).count x else 0 := by
  have hone : ∀ y, y ≠ x → [y].count x = 0 := fun y hy =>
    List.count_eq_zero.mpr (fun h => hy (List.mem_singleton.mp h).symm)
  rw [count_weave x hstarts hends, Finset.sum_eq_zero (fun s _ => by rw [hone _ (hstart s), ite_self]), Nat.zero_add]
  congr 1
  refine Finset.sum_congr rfl (fun s _ => ?_)
  rw [hone _ (hstop s), Nat.add_zero]

end Boundaries

/-! ### Order -/

omit [DecidableEq ε]

theorem flatMap_two {f : Nat → List ε} {p q : Nat} {l k : List ε} (hpq : p < q) (hq : q < n)
    (hl : l.Sublist (f p)) (hk : k.Sublist (f q)) : (l ++ k).Sublist ((List.range n).flatMap f) := by
  have hsub : [p, q].Sublist (List.range n) := by
    rw [show n = q + (n - q) by omega, List.range_add]
    refine List.Sublist.append (List.singleton_sublist.mpr (List.mem_range.mpr hpq)) ?_
    rw [show n - q = (n - q - 1) + 1 by omega, List.range_succ_eq_map]
    simp
  have h := hsub.flatMap f
  rw [List.flatMap_cons, List.flatMap_cons, List.flatMap_nil, List.append_nil] at h
  exact (hl.append hk).trans h

theorem flatMap_three {f : Nat → List ε} {p r q : Nat} {l j k : List ε} (hpr : p < r) (hrq : r < q) (hq : q < n)
    (hl : l.Sublist (f p)) (hj : j.Sublist (f r)) (hk : k.Sublist (f q)) :
    (l ++ (j ++ k)).Sublist ((List.range n).flatMap f) := by
  have hfront : l.Sublist ((List.range r).flatMap f) :=
    hl.trans (by simpa using (List.singleton_sublist.mpr (List.mem_range.mpr hpr)).flatMap f)
  have hback : (j ++ k).Sublist (((List.range (n - r)).map (r + ·)).flatMap f) := by
    rw [List.flatMap_map]
    refine flatMap_two (p := 0) (q := q - r) (by omega) (by omega) hj ?_
    rwa [show r + (q - r) = q by omega]
  have h := hfront.append hback
  rwa [← List.flatMap_append, ← List.range_add, show r + (n - r) = n by omega] at h

theorem mem_marksAt {marks : List (Option Nat)} {s p : Nat} (h : marks.getD s none = some p) :
    s ∈ marksAt marks p := by
  refine List.mem_filter.mpr ⟨List.mem_range.mpr ?_, by simpa using h⟩
  by_contra hs
  rw [List.getD_eq_default _ _ (Nat.le_of_not_lt hs)] at h
  cases h

section Between

variable {s p q : Nat}

theorem start_sublist (hp : m.starts.getD s none = some p) :
    [start s].Sublist ((marksAt m.starts p).map start) :=
  List.singleton_sublist.mpr (List.mem_map_of_mem (mem_marksAt hp))

theorem tail_sublist (hq : m.ends.getD s none = some q) :
    (tail s ++ [stop s]).Sublist ((marksAt m.ends q).flatMap (fun s => tail s ++ [stop s])) := by
  have h := (List.singleton_sublist.mpr (mem_marksAt hq)).flatMap (fun s => tail s ++ [stop s])
  simpa using h

/-- A position is a part of the whole. -/
theorem piece_sublist (hp : p < n) :
    (piece start stop items tail m p).Sublist (weave start stop items tail m n) := by
  have h := (List.singleton_sublist.mpr (List.mem_range.mpr hp)).flatMap (piece start stop items tail m)
  rwa [List.flatMap_singleton] at h

variable (hp : m.starts.getD s none = some p) (hq : m.ends.getD s none = some q) (hn : q < n)
include hp hq hn

/-- What is used between the first and the last position stands between the start and the stop. -/
theorem between_items {r : Nat} {x : ε} (hpr : p ≤ r) (hrq : r ≤ q) (hx : x ∈ items r) :
    [start s, x, stop s].Sublist (weave start stop items tail m n) := by
  have hstart : [start s].Sublist ((marksAt m.starts p).map start) := start_sublist hp
  have hitem : [x].Sublist (items r) := List.singleton_sublist.mpr hx
  have hstop : [stop s].Sublist ((marksAt m.ends q).flatMap (fun s => tail s ++ [stop s])) :=
    (List.sublist_append_right _ _).trans (tail_sublist hq)
  have hfirst : [start s].Sublist (piece start stop items tail m p) :=
    hstart.trans ((List.sublist_append_left _ _).trans (List.sublist_append_left _ _))
  have hlast : [stop s].Sublist (piece start stop items tail m q) := hstop.trans (List.sublist_append_right _ _)
  -- The three events stand in one, two or three positions.
  rcases Nat.lt_or_eq_of_le hpr with hpr | rfl <;> rcases Nat.lt_or_eq_of_le hrq with hrq | rfl
  · exact flatMap_three hpr hrq hn hfirst
      (hitem.trans ((List.sublist_append_right _ _).trans (List.sublist_append_left _ _))) hlast
  · exact flatMap_two hpr hn hfirst ((hitem.append hstop).trans
      (List.Sublist.append (List.sublist_append_right _ _) (List.Sublist.refl _)))
  · exact flatMap_two hrq hn ((hstart.append hitem).trans (List.sublist_append_left _ _)) hlast
  · exact ((hstart.append hitem).append hstop).trans (piece_sublist hn)

/-- What is in the tail of a span stands between the start and the stop. -/
theorem between_tail {x : ε} (hpq : p ≤ q) (hx : x ∈ tail s) :
    [start s, x, stop s].Sublist (weave start stop items tail m n) := by
  have hstart : [start s].Sublist ((marksAt m.starts p).map start) := start_sublist hp
  have hback : [x, stop s].Sublist ((marksAt m.ends q).flatMap (fun s => tail s ++ [stop s])) :=
    ((List.singleton_sublist.mpr hx).append (List.Sublist.refl [stop s])).trans (tail_sublist hq)
  rcases Nat.lt_or_eq_of_le hpq with hpq | rfl
  · exact flatMap_two hpq hn
      (hstart.trans ((List.sublist_append_left _ _).trans (List.sublist_append_left _ _)))
      (hback.trans (List.sublist_append_right _ _))
  · exact ((hstart.trans (List.sublist_append_left _ _)).append hback).trans (piece_sublist hn)

end Between

end Spans
