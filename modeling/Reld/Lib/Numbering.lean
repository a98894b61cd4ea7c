import Mathlib.Data.List.Nodup
import Mathlib.Data.List.Perm.Basic

/-!
# `Lib.Numbering` — consecutive numbers for chosen entries

Some entries of a list are chosen by flags and numbered consecutively, in order, from a start; the others
get a default (`number`). The number of a chosen entry is the start plus its `rank`, the count of chosen
entries before it, so numbers are distinct and stay within the block `start, …, start + count`.
-/

namespace Numbering

variable {flags : List Bool} {i j : Nat}

/-- The count of chosen entries before index `i`. -/
def rank (flags : List Bool) (i : Nat) : Nat := (flags.take i).count true

/-- Number the chosen entries consecutively from `start`; the others get `default`. -/
def number (default : Nat) : List Bool → Nat → List Nat
  | [], _ => []
  | true :: flags, start => start :: number default flags (start + 1)
  | false :: flags, start => default :: number default flags start

@[simp] theorem length_number (default : Nat) (flags : List Bool) (start : Nat) :
    (number default flags start).length = flags.length := by
  induction flags generalizing start with
  | nil => rfl
  | cons b flags ih => cases b <;> simp [number, ih]

/-- The number of an entry. -/
theorem getElem?_number (default : Nat) (flags : List Bool) (start i : Nat) :
    (number default flags start)[i]? =
      (flags[i]?).map (fun b => if b then start + rank flags i else default) := by
  induction flags generalizing start i with
  | nil => rfl
  | cons b flags ih =>
    cases i with
    | zero => cases b <;> simp [number, rank]
    | succ i =>
      cases b with
      | true =>
        rw [number, List.getElem?_cons_succ, List.getElem?_cons_succ, ih]
        have hrank : start + 1 + rank flags i = start + rank (true :: flags) (i + 1) := by
          simp only [rank, List.take_succ_cons, List.count_cons_self]
          omega
        rw [hrank]
      | false =>
        rw [number, List.getElem?_cons_succ, List.getElem?_cons_succ, ih]
        have hrank : rank flags i = rank (false :: flags) (i + 1) := by
          simp [rank]
        rw [hrank]

/-- A chosen entry counts in the rank of every later index. -/
theorem rank_lt_rank (hi : flags[i]? = some true) (hij : i < j) : rank flags i < rank flags j := by
  induction flags generalizing i j with
  | nil => simp at hi
  | cons b flags ih =>
    obtain ⟨j, rfl⟩ : ∃ j', j = j' + 1 := ⟨j - 1, by omega⟩
    cases i with
    | zero =>
      have hb : b = true := by simpa using hi
      subst hb
      simp [rank]
    | succ i =>
      have hrec := ih (by simpa using hi) (Nat.lt_of_succ_lt_succ hij)
      simp only [rank, List.take_succ_cons, List.count_cons] at hrec ⊢
      omega

theorem rank_length (flags : List Bool) : rank flags flags.length = flags.count true := by
  rw [rank, List.take_length]

theorem rank_lt_count (hi : flags[i]? = some true) : rank flags i < flags.count true := by
  rw [← rank_length]
  exact rank_lt_rank hi (List.getElem?_eq_some_iff.mp hi).1

/-- Two chosen entries of the same rank are the same. -/
theorem rank_inj (hi : flags[i]? = some true) (hj : flags[j]? = some true)
    (h : rank flags i = rank flags j) : i = j := by
  rcases Nat.lt_trichotomy i j with hlt | heq | hgt
  · have := rank_lt_rank hi hlt
    omega
  · exact heq
  · have := rank_lt_rank hj hgt
    omega

/-- The indices of the chosen entries. -/
def chosen (flags : List Bool) : List Nat := (List.range flags.length).filter fun i => flags[i]?.getD false

theorem mem_chosen : i ∈ chosen flags ↔ flags[i]? = some true := by
  rw [chosen, List.mem_filter, List.mem_range]
  constructor
  · rintro ⟨hlt, h⟩
    rw [List.getElem?_eq_getElem hlt] at h ⊢
    exact congrArg some h
  · intro h
    exact ⟨(List.getElem?_eq_some_iff.1 h).1, by rw [h]; rfl⟩

/-- The ranks of the chosen entries are all numbers below their count. -/
theorem map_rank_chosen (flags : List Bool) : (chosen flags).map (rank flags) = List.range (flags.count true) := by
  induction flags with
  | nil => rfl
  | cons b flags ih =>
    have hsucc : (fun i => rank (b :: flags) (i + 1)) = fun i => rank flags i + [b].count true := by
      simp [rank, List.count_cons]
    have hbehind : ((List.range flags.length).map Nat.succ).filter (fun i => (b :: flags)[i]?.getD false) =
        (chosen flags).map Nat.succ := List.filter_map
    rw [chosen, List.length_cons, List.range_succ_eq_map, List.filter_cons, hbehind]
    cases b with
    | true =>
      simp only [List.getElem?_cons_zero, Option.getD_some, if_true, List.map_cons, List.map_map, List.count_cons_self,
        List.range_succ_eq_map, ← ih, Function.comp_def, Nat.succ_eq_add_one, hsucc]
      rfl
    | false =>
      simp only [List.getElem?_cons_zero, Option.getD_some, Bool.false_eq_true, if_false, List.map_map, Function.comp_def,
        Nat.succ_eq_add_one, hsucc]
      simpa using ih

/-- Chosen entries are all of them, each once, exactly if their ranks are. -/
theorem perm_chosen_iff {l : List Nat} (h : ∀ i ∈ l, flags[i]? = some true) :
    (l.map (rank flags)).Perm (List.range (flags.count true)) ↔ l.Perm (chosen flags) := by
  rw [← map_rank_chosen]
  refine ⟨fun hperm => ?_, fun hperm => hperm.map _⟩
  have hnodup : (chosen flags).Nodup := List.nodup_range.filter _
  have hl : l.Nodup := by
    apply List.Nodup.of_map (rank flags)
    rw [hperm.nodup_iff, map_rank_chosen]
    exact List.nodup_range
  refine (List.perm_ext_iff_of_nodup hl hnodup).2 fun i => ⟨fun hi => mem_chosen.2 (h i hi), fun hi => ?_⟩
  obtain ⟨j, hj, heq⟩ := List.mem_map.1 (hperm.mem_iff.2 (List.mem_map_of_mem hi))
  rwa [← rank_inj (h j hj) (mem_chosen.1 hi) heq]

theorem rank_cons_succ (b : Bool) (flags : List Bool) (i : Nat) :
    rank (b :: flags) (i + 1) = rank flags i + if b then 1 else 0 := by
  cases b <;> simp [rank]

/-- What only chosen entries have, by their rank. -/
theorem filterMap_eq {α β : Type} {l : List α} {f : α → Option β} {g : Nat → β} (hlength : l.length = flags.length)
    (h : ∀ i a, l[i]? = some a → f a = if flags[i]? = some true then some (g (rank flags i)) else none) :
    l.filterMap f = (List.range (flags.count true)).map g := by
  induction l generalizing flags g with
  | nil =>
    rw [List.length_nil, eq_comm, List.length_eq_zero_iff] at hlength
    rw [hlength]
    rfl
  | cons a l ih =>
    cases flags with
    | nil => cases hlength
    | cons b flags =>
      have hrest := ih (g := fun k => g (k + if b then 1 else 0)) (Nat.succ.inj hlength) fun i x hx => by
        rw [← rank_cons_succ]
        exact h (i + 1) x hx
      cases b with
      | true =>
        have hhead : f a = some (g 0) := h 0 a rfl
        rw [List.filterMap_cons_some hhead, hrest, List.count_cons_self, List.range_succ_eq_map, List.map_cons, List.map_map]
        rfl
      | false =>
        have hhead : f a = none := h 0 a rfl
        rw [List.filterMap_cons_none hhead, hrest]
        simp

/-- Counting the chosen entries through a list of all indices, in any order. -/
theorem countP_of_perm_range {l : List Nat} (h : l.Perm (List.range flags.length)) :
    l.countP (fun i => flags[i]?.getD false) = flags.count true := by
  rw [h.countP_eq]
  clear h
  induction flags with
  | nil => rfl
  | cons b flags ih =>
    rw [List.length_cons, List.range_succ_eq_map, List.countP_cons, List.countP_map, List.count_cons, ← ih]
    cases b <;> rfl

end Numbering
