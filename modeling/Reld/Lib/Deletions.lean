import Mathlib.Algebra.GroupWithZero.Nat
import Mathlib.Data.List.Pairwise
import Mathlib.Algebra.BigOperators.Group.List.Basic

/-!
# `Lib.Deletions` — ranges deleted from a sequence

A deletion is an offset with the number of positions that are deleted there. `before` counts what is deleted
in front of an offset, so that `place` is where an offset that is kept ends up; `compact` is what is left of a
list. Deletions that are `Separated` come in order and do not overlap. Then a range that no deletion touches
is found again as it was, at the place of its start (`compact_range`).
-/

universe u

variable {ds : List (Nat × Nat)}

namespace Deletions

variable {α : Type u}

/-! ## Counting -/

/-- The number of positions deleted at offsets below `o`. -/
def before (ds : List (Nat × Nat)) (o : Nat) : Nat :=
  ((ds.filter (fun d => decide (d.1 < o))).map (·.2)).sum

/-- Where an offset ends up. -/
def place (ds : List (Nat × Nat)) (o : Nat) : Nat := o - before ds o

@[simp] theorem before_nil (o : Nat) : before [] o = 0 := rfl

theorem before_cons (d : Nat × Nat) (ds : List (Nat × Nat)) (o : Nat) :
    before (d :: ds) o = (if d.1 < o then d.2 else 0) + before ds o := by
  unfold before
  by_cases h : d.1 < o
  · rw [List.filter_cons_of_pos (by simpa using h), if_pos h, List.map_cons, List.sum_cons]
  · rw [List.filter_cons_of_neg (by simpa using h), if_neg h, Nat.zero_add]

theorem before_append (ds es : List (Nat × Nat)) (o : Nat) : before (ds ++ es) o = before ds o + before es o := by
  unfold before
  rw [List.filter_append, List.map_append, List.sum_append]

theorem before_perm {ds es : List (Nat × Nat)} (h : ds.Perm es) (o : Nat) : before ds o = before es o :=
  ((h.filter _).map _).sum_eq

theorem before_eq_zero {o : Nat} (h : ∀ d ∈ ds, o ≤ d.1) : before ds o = 0 := by
  unfold before
  have hnil : ds.filter (fun d => decide (d.1 < o)) = [] := by
    rw [List.filter_eq_nil_iff]
    intro d hd
    have := h d hd
    simp only [decide_eq_true_eq]
    omega
  rw [hnil]
  rfl

theorem before_eq_zero_iff {o : Nat} : before ds o = 0 ↔ ∀ d ∈ ds, d.1 < o → d.2 = 0 := by
  simp only [before, List.sum_eq_zero_iff_forall_eq_nat, List.mem_map, List.mem_filter, decide_eq_true_eq, and_assoc]
  constructor
  · intro h d hd hlt
    exact h d.2 ⟨d, hd, hlt, rfl⟩
  · rintro h _ ⟨d, hd, hlt, rfl⟩
    exact h d hd hlt

theorem before_eq_sum {o : Nat} (h : ∀ d ∈ ds, d.1 < o) : before ds o = (ds.map (·.2)).sum := by
  unfold before
  rw [List.filter_eq_self.mpr (fun d hd => decide_eq_true (h d hd))]

theorem dvd_before {o m : Nat} (h : ∀ d ∈ ds, d.1 < o → m ∣ d.2) : m ∣ before ds o := by
  induction ds with
  | nil => exact Nat.dvd_zero m
  | cons d ds ih =>
    rw [before_cons]
    refine Nat.dvd_add ?_ (ih fun e he => h e (List.mem_cons_of_mem _ he))
    split
    · exact h d List.mem_cons_self ‹_›
    · exact Nat.dvd_zero m

/-! ## Separated deletions -/

/-- The deletions come in order and do not overlap. -/
def Separated (ds : List (Nat × Nat)) : Prop := ds.Pairwise (fun d e => d.1 + d.2 ≤ e.1)

/-- Deletions that do not overlap, in any order. -/
def Apart (d e : Nat × Nat) : Prop := d.1 + d.2 ≤ e.1 ∨ e.1 + e.2 ≤ d.1

theorem Apart.symm {d e : Nat × Nat} (h : Apart d e) : Apart e d := Or.symm h

instance : Std.Symm Apart := ⟨fun _ _ => Apart.symm⟩

theorem Separated.pairwise_apart (h : Separated ds) : ds.Pairwise Apart :=
  List.Pairwise.imp Or.inl h

theorem Separated.apart (h : Separated ds) {d e : Nat × Nat} (hd : d ∈ ds) (he : e ∈ ds) (hne : d ≠ e) : Apart d e :=
  (Separated.pairwise_apart h).forall hd he hne

/-- No deletion touches the range from `x` to `y`. -/
def Untouched (ds : List (Nat × Nat)) (x y : Nat) : Prop := ∀ d ∈ ds, d.1 + d.2 ≤ x ∨ y ≤ d.1

/-- In front of an offset that lies in no deletion there is room for what is deleted there. -/
theorem before_le {lo o : Nat} (hs : Separated ds) (hlo : ∀ d ∈ ds, lo ≤ d.1) (hle : lo ≤ o) (hclear : Untouched ds o o)
    : lo + before ds o ≤ o := by
  induction ds generalizing lo with
  | nil => simpa using hle
  | cons d ds ih =>
    obtain ⟨hd, hs⟩ := List.pairwise_cons.mp hs
    have hlod := hlo d List.mem_cons_self
    have hclear' : Untouched ds o o := fun e he => hclear e (List.mem_cons_of_mem _ he)
    rw [before_cons]
    rcases hclear d List.mem_cons_self with h | h
    · have := ih hs hd h hclear'
      split <;> omega
    · rw [if_neg (by omega), before_eq_zero (fun e he => by have := hd e he; omega)]
      omega

/-- In front of a later offset no more is deleted than lies between. -/
theorem before_le_add {x y : Nat} (hs : Separated ds) (hxy : x ≤ y) (hx : Untouched ds x x) (hy : Untouched ds y y) :
    before ds y ≤ before ds x + (y - x) := by
  induction ds with
  | nil => exact Nat.zero_le _
  | cons d ds ih =>
    obtain ⟨hd, hs⟩ := List.pairwise_cons.mp hs
    have ih := ih hs (fun e he => hx e (List.mem_cons_of_mem _ he)) (fun e he => hy e (List.mem_cons_of_mem _ he))
    rcases hx d List.mem_cons_self with h | h
    · rw [before_cons, before_cons]
      by_cases hlt : d.1 < x
      · rw [if_pos hlt, if_pos (by omega)]
        omega
      · have hz : d.2 = 0 := by omega
        split <;> omega
    · -- everything from here on starts behind `x`
      have hbx : before (d :: ds) x = 0 := before_eq_zero (fun e he => by
        rcases List.mem_cons.mp he with rfl | he
        · exact h
        · have := hd e he
          omega)
      rw [hbx, before_cons]
      rcases hy d List.mem_cons_self with h' | h'
      · have hroom := @before_le ds (d.1 + d.2) y hs hd h' (fun e he => hy e (List.mem_cons_of_mem _ he))
        split <;> omega
      · rw [if_neg (by omega), before_eq_zero (fun e he => by have := hd e he; omega)]
        omega

/-- A range without deletions keeps its distance to what comes after it. -/
theorem place_add_le {x n y : Nat} (hs : Separated ds) (hpos : ∀ d ∈ ds, 0 < d.2) (hu : Untouched ds x (x + n))
    (hxy : x + n ≤ y) (hy : Untouched ds y y) : place ds x + n ≤ place ds y := by
  have hend : Untouched ds (x + n) (x + n) := fun d hd => (hu d hd).imp (fun h => by omega) id
  have hsame : before ds (x + n) = before ds x := by
    unfold before
    congr 2
    refine List.filter_congr fun d hd => ?_
    have := hpos d hd
    rw [decide_eq_decide]
    rcases hu d hd with h | h <;> omega
  have hle := before_le_add hs hxy hend hy
  have hroom : before ds x ≤ x := by
    have := before_le hs (fun d _ => Nat.zero_le d.1) (Nat.zero_le x) (fun d hd => (hu d hd).imp id (fun h => by omega))
    omega
  unfold place
  omega

/-- Behind a deletion its positions are counted too. -/
theorem before_behind {o t : Nat} (hs : Separated ds) (hpos : ∀ d ∈ ds, 0 < d.2) (h : (o, t) ∈ ds) :
    before ds (o + t) = before ds o + t := by
  induction ds with
  | nil => cases h
  | cons d ds ih =>
    obtain ⟨hd, hs⟩ := List.pairwise_cons.mp hs
    have hd0 := hpos d List.mem_cons_self
    rw [before_cons, before_cons]
    rcases List.mem_cons.mp h with rfl | h
    · -- what follows starts behind it
      rw [before_eq_zero hd, before_eq_zero (fun e he => Nat.le_trans (Nat.le_add_right o t) (hd e he)),
        if_pos (by omega), if_neg (Nat.lt_irrefl o)]
      omega
    · have hle := hd _ h
      rw [ih hs (fun e he => hpos e (List.mem_cons_of_mem _ he)) h, if_pos (by omega), if_pos (by omega)]
      omega

/-! ## What is left of a list -/

/-- What is left from position `pos` on. -/
def compactFrom (xs : List α) (pos : Nat) : List (Nat × Nat) → List α
  | []      => xs.drop pos
  | d :: ds => (xs.take d.1).drop pos ++ compactFrom xs (d.1 + d.2) ds

/-- What is left of a list. -/
def compact (xs : List α) (ds : List (Nat × Nat)) : List α := compactFrom xs 0 ds

theorem take_drop_split (xs : List α) {pos x y z : Nat} (h1 : pos ≤ x) (h2 : x ≤ y) (h3 : y ≤ z) :
    (xs.take z).drop pos = (xs.take x).drop pos ++ (xs.take y).drop x ++ (xs.take z).drop y := by
  have split : ∀ {a b c : Nat}, a ≤ b → b ≤ c →
      (xs.take c).drop a = (xs.take b).drop a ++ (xs.take c).drop b := by
    intro a b c hab hbc
    have hb : ((xs.take c).drop a).take (b - a) = (xs.take b).drop a := by
      rw [List.take_drop, Nat.add_sub_cancel' hab, List.take_take, Nat.min_eq_left hbc]
    have hd : ((xs.take c).drop a).drop (b - a) = (xs.take c).drop b := by
      rw [List.drop_drop, Nat.add_sub_cancel' hab]
    rw [← hb, ← hd, List.take_append_drop]
  rw [split h1 (Nat.le_trans h2 h3), split h2 h3, List.append_assoc]

theorem compactFrom_range {xs : List α} {pos x y : Nat} (hs : Separated ds) (hpos : ∀ d ∈ ds, pos ≤ d.1) (hpx : pos ≤ x)
    (hxy : x ≤ y) (hy : y ≤ xs.length) (hu : Untouched ds x y) :
    ∃ pre post, compactFrom xs pos ds = pre ++ (xs.take y).drop x ++ post ∧
      pos + pre.length + before ds x = x := by
  induction ds generalizing pos with
  | nil =>
    refine ⟨(xs.take x).drop pos, xs.drop y, ?_, ?_⟩
    · have h := take_drop_split xs hpx hxy hy
      rw [List.take_length] at h
      exact h
    · rw [List.length_drop, List.length_take, before_nil]
      omega
  | cons d ds ih =>
    obtain ⟨hd, hs⟩ := List.pairwise_cons.mp hs
    have hposd := hpos d List.mem_cons_self
    rcases hu d List.mem_cons_self with h | h
    · -- the range comes after this deletion
      obtain ⟨pre, post, heq, hlen⟩ := ih hs hd h (fun e he => hu e (List.mem_cons_of_mem _ he))
      refine ⟨(xs.take d.1).drop pos ++ pre, post, ?_, ?_⟩
      · simp [compactFrom, heq]
      · rw [List.length_append, List.length_drop, List.length_take, before_cons]
        split <;> omega
    · -- the range comes before it
      refine ⟨(xs.take x).drop pos, (xs.take d.1).drop y ++ compactFrom xs (d.1 + d.2) ds, ?_, ?_⟩
      · simp [compactFrom, take_drop_split xs hpx hxy h]
      · have hzero : before (d :: ds) x = 0 := before_eq_zero (fun e he => by
          rcases List.mem_cons.mp he with rfl | he
          · omega
          · have := hd e he
            omega)
        rw [List.length_drop, List.length_take, hzero]
        omega

/-- **A range that is kept.** It is found at the place of its start. -/
theorem compact_range {xs : List α} {x y : Nat} (hs : Separated ds) (hxy : x ≤ y) (hy : y ≤ xs.length)
    (hu : Untouched ds x y) :
    ∃ pre post, compact xs ds = pre ++ (xs.take y).drop x ++ post ∧ pre.length = place ds x := by
  obtain ⟨pre, post, heq, hlen⟩ := compactFrom_range hs (fun d _ => Nat.zero_le d.1) (Nat.zero_le x)
    hxy hy hu
  refine ⟨pre, post, heq, ?_⟩
  unfold place
  omega

end Deletions
