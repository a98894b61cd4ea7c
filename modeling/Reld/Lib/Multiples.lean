import Mathlib.Algebra.GroupWithZero.Nat
import Mathlib.Data.List.Pairwise
import Mathlib.Algebra.BigOperators.Group.List.Basic

/-!
# `Lib.Multiples` — rounding up to multiples and to powers of two, and blocks that are placed one after the other

A list of blocks, each with an alignment and a size, can be put behind a position in two ways. `aligned` moves
each block up to the next multiple of its alignment; `packed` puts each where the last one ended. The two give
the same places, from the first block on, exactly when the sizes before each block add up to a multiple of its
alignment (`aligned_eq_packed_iff`).
-/

namespace Reld

/-- `next_multiple_of` -/
def nextMultipleOf (p alignment : Nat) : Nat := (p + alignment - 1) / alignment * alignment

theorem le_nextMultipleOf (p : Nat) {a : Nat} (ha : 0 < a) : p ≤ nextMultipleOf p a := by
  unfold nextMultipleOf
  have h := Nat.div_add_mod (p + a - 1) a
  have hm := Nat.mod_lt (p + a - 1) ha
  rw [Nat.mul_comm] at h
  omega

theorem nextMultipleOf_lt (p : Nat) {a : Nat} (ha : 0 < a) : nextMultipleOf p a < p + a := by
  unfold nextMultipleOf
  have h := Nat.div_mul_le_self (p + a - 1) a
  omega

theorem dvd_nextMultipleOf (p a : Nat) : a ∣ nextMultipleOf p a := Nat.dvd_mul_left _ _

/-- A multiple stays where it is. -/
theorem nextMultipleOf_of_dvd {p a : Nat} (ha : 0 < a) (h : a ∣ p) : nextMultipleOf p a = p := by
  have hle := le_nextMultipleOf p ha
  have hlt := nextMultipleOf_lt p ha
  have hd := Nat.dvd_sub (dvd_nextMultipleOf p a) h
  have hzero := Nat.eq_zero_of_dvd_of_lt hd (by omega)
  omega

theorem nextMultipleOf_eq_self_iff {p a : Nat} (ha : 0 < a) : nextMultipleOf p a = p ↔ a ∣ p :=
  ⟨fun h => h ▸ dvd_nextMultipleOf p a, nextMultipleOf_of_dvd ha⟩

/-- The room in front of a multiple depends on the residue only, so rounding up keeps two positions in step. -/
theorem nextMultipleOf_mod {p q a n : Nat} (ha : 0 < a) (hdvd : a ∣ n) (h : p % n = q % n) :
    nextMultipleOf p a % n = nextMultipleOf q a % n := by
  have hpad : ∀ x, nextMultipleOf x a = x + (a - 1 - (x + a - 1) % a) := by
    intro x
    have hdiv := Nat.div_add_mod (x + a - 1) a
    have hlt := Nat.mod_lt (x + a - 1) ha
    unfold nextMultipleOf
    rw [Nat.mul_comm] at hdiv
    omega
  have hres : (p + a - 1) % a = (q + a - 1) % a := by
    have hpq : p % a = q % a := by rw [← Nat.mod_mod_of_dvd p hdvd, h, Nat.mod_mod_of_dvd q hdvd]
    rw [Nat.add_sub_assoc ha, Nat.add_sub_assoc ha, Nat.add_mod, hpq, ← Nat.add_mod]
  rw [hpad p, hpad q, hres, Nat.add_mod, h, ← Nat.add_mod]

/-! ## Powers of two -/

/-- `next_power_of_two` -/
def nextPowerOfTwo (n : Nat) : Nat := if n ≤ 1 then 1 else 2 ^ (Nat.log2 (n - 1) + 1)

theorem le_nextPowerOfTwo (n : Nat) : n ≤ nextPowerOfTwo n := by
  unfold nextPowerOfTwo
  split
  · assumption
  · have := Nat.lt_log2_self (n := n - 1)
    omega

/-! ## Blocks -/

namespace Blocks

/-- The places of blocks `(alignment, size)` behind `p`, each moved up to its alignment. -/
def aligned (p : Nat) : List (Nat × Nat) → List Nat
  | [] => []
  | (a, n) :: blocks => nextMultipleOf p a :: aligned (nextMultipleOf p a + n) blocks

/-- The places of blocks of the given sizes behind `p`, each where the last one ended. -/
def packed (p : Nat) : List Nat → List Nat
  | [] => []
  | n :: sizes => p :: packed (p + n) sizes

/-- The sizes before each block add up, with `total`, to a multiple of its alignment. -/
def Divides (total : Nat) : List (Nat × Nat) → Prop
  | [] => True
  | (a, n) :: blocks => a ∣ total ∧ Divides (total + n) blocks

instance decidableDivides : ∀ (total : Nat) (blocks : List (Nat × Nat)), Decidable (Divides total blocks)
  | _, [] => inferInstanceAs (Decidable True)
  | total, (a, n) :: blocks =>
    have := decidableDivides (total + n) blocks
    inferInstanceAs (Decidable (a ∣ total ∧ Divides (total + n) blocks))

@[simp] theorem length_packed (p : Nat) (sizes : List Nat) : (packed p sizes).length = sizes.length := by
  induction sizes generalizing p with
  | nil => rfl
  | cons n sizes ih => simp [packed, ih]

/-- The place of a block is the start and the sizes before it. -/
theorem packed_getElem (p : Nat) (sizes : List Nat) (k : Nat) (hk : k < (packed p sizes).length) :
    (packed p sizes)[k] = p + (sizes.take k).sum := by
  induction sizes generalizing p k with
  | nil => simp [packed] at hk
  | cons n sizes ih =>
    cases k with
    | zero => simp [packed]
    | succ k =>
      have := ih (p + n) k (by simpa [packed] using hk)
      simp only [packed, List.getElem_cons_succ, List.take_succ_cons, List.sum_cons, this]
      omega

/-- Blocks that follow a place suited to the first alignment `b`. -/
theorem aligned_eq_packed_from {b p total : Nat} (blocks : List (Nat × Nat)) (hp : b ∣ p)
    (hpos : ∀ x ∈ blocks, 0 < x.1) (hb : ∀ x ∈ blocks, x.1 ∣ b) :
    aligned (p + total) blocks = packed (p + total) (blocks.map (·.2)) ↔ Divides total blocks := by
  induction blocks generalizing total with
  | nil => simp [aligned, packed, Divides]
  | cons x blocks ih =>
    obtain ⟨a, n⟩ := x
    have ha : 0 < a := hpos _ (List.mem_cons_self ..)
    have hap : a ∣ p := Nat.dvd_trans (hb _ (List.mem_cons_self ..)) hp
    have hrest := @ih (total + n) (fun x hx => hpos x (List.mem_cons_of_mem _ hx))
      (fun x hx => hb x (List.mem_cons_of_mem _ hx))
    simp only [aligned, packed, Divides, List.map_cons, List.cons.injEq]
    rw [nextMultipleOf_eq_self_iff ha, Nat.dvd_add_right hap]
    refine and_congr_right fun hdvd => ?_
    -- The block stays where it is, so the rest starts from the same position on both sides.
    rw [nextMultipleOf_of_dvd ha (Nat.dvd_add hap hdvd), Nat.add_assoc]
    exact hrest

/-- **Aligned and packed places.** The first block is moved up to its alignment; behind it nothing is moved
exactly when the sizes before each block suit its alignment. -/
theorem aligned_eq_packed_iff {p : Nat} {first : Nat × Nat} {blocks : List (Nat × Nat)} (hfirst : 0 < first.1)
    (hpos : ∀ x ∈ blocks, 0 < x.1) (hfall : ∀ x ∈ blocks, x.1 ∣ first.1) :
    aligned p (first :: blocks) = packed (nextMultipleOf p first.1) ((first :: blocks).map (·.2)) ↔
      Divides 0 (first :: blocks) := by
  have hp := dvd_nextMultipleOf p first.1
  have h := @aligned_eq_packed_from first.1 (nextMultipleOf p first.1) 0 (first :: blocks) hp
    (by simpa using ⟨hfirst, fun a b hb => hpos _ hb⟩)
    (by simpa using fun a b hb => hfall _ hb)
  rw [← h, Nat.add_zero]
  simp only [aligned, nextMultipleOf_of_dvd hfirst hp]

/-- Sizes that are multiples of all later alignments. -/
theorem divides_of_pairwise {total : Nat} {blocks : List (Nat × Nat)} (htotal : ∀ x ∈ blocks, x.1 ∣ total)
    (h : blocks.Pairwise fun x y => y.1 ∣ x.2) : Divides total blocks := by
  induction blocks generalizing total with
  | nil => trivial
  | cons x blocks ih =>
    rw [List.pairwise_cons] at h
    exact ⟨htotal x (List.mem_cons_self ..), ih
      (fun y hy => Nat.dvd_add (htotal y (List.mem_cons_of_mem _ hy)) (h.1 y hy)) h.2⟩

end Blocks

end Reld

/-!
# Parts of a buffer, by position

A slice is an interval of a buffer. `splitOff` takes bytes from its front, if there are enough, and `cut` takes
several lengths one after the other. What `cut` hands out lies packed behind the start of the slice, and it
succeeds exactly when the lengths fit (`cut_eq`).
-/

namespace Reld

/-- The `length` positions from `start` on. -/
structure Slice where
  start : Nat := 0
  length : Nat := 0
deriving DecidableEq, Repr

namespace Slice

def stop (s : Slice) : Nat := s.start + s.length

/-- `split_off_mut(..n)`: the bytes taken and the rest. -/
def splitOff (s : Slice) (n : Nat) : Option (Slice × Slice) :=
  if n ≤ s.length then some (⟨s.start, n⟩, ⟨s.start + n, s.length - n⟩) else none

/-- Slices of the given lengths, from the front. -/
def cut (s : Slice) : List Nat → Option (List Slice × Slice)
  | [] => some ([], s)
  | n :: lengths =>
    (s.splitOff n).bind fun head =>
      (head.2.cut lengths).map fun tail => (head.1 :: tail.1, tail.2)

theorem splitOff_eq {s : Slice} {n : Nat} (h : n ≤ s.length) :
    s.splitOff n = some (⟨s.start, n⟩, ⟨s.start + n, s.length - n⟩) := if_pos h

theorem splitOff_eq_none {s : Slice} {n : Nat} (h : s.length < n) : s.splitOff n = none := if_neg (by omega)

/-- Lengths that fit are cut one behind the other. -/
theorem cut_eq {s : Slice} {lengths : List Nat} (h : lengths.sum ≤ s.length) :
    s.cut lengths = some (List.zipWith Slice.mk (Blocks.packed s.start lengths) lengths,
      ⟨s.start + lengths.sum, s.length - lengths.sum⟩) := by
  induction lengths generalizing s with
  | nil => rfl
  | cons n lengths ih =>
    rw [List.sum_cons] at h
    have hrest : lengths.sum ≤ (⟨s.start + n, s.length - n⟩ : Slice).length := by
      show lengths.sum ≤ s.length - n
      omega
    rw [cut, splitOff_eq (by omega), Option.bind_some, ih hrest]
    simp only [Option.map_some, Blocks.packed, List.zipWith_cons_cons, List.sum_cons, Nat.add_assoc,
      Nat.sub_sub]

theorem cut_eq_none {s : Slice} {lengths : List Nat} (h : s.length < lengths.sum) : s.cut lengths = none := by
  induction lengths generalizing s with
  | nil => simp at h
  | cons n lengths ih =>
    rw [List.sum_cons] at h
    rw [cut]
    by_cases hn : n ≤ s.length
    · have hrest : (⟨s.start + n, s.length - n⟩ : Slice).length < lengths.sum := by
        show s.length - n < lengths.sum
        omega
      rw [splitOff_eq hn, Option.bind_some, ih hrest]
      rfl
    · rw [splitOff_eq_none (by omega)]
      rfl

end Slice

end Reld
