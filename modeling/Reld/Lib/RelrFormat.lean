import Mathlib.Data.BitVec

/-!
# `Lib.RelrFormat` — the ELF RELR word stream and its decoding rule

A `.relr.dyn` section is a list of 64-bit words. An **even** word is an address: it relocates that place
and moves the position to the next word. An **odd** word is a bitmap over the 63 slots that follow the
position: bit `i + 1` relocates slot `i`, and the position moves on by 63 slots. Addresses are machine
words, so every sum wraps.

* `decodeFrom` / `decode` — the loader's rule, as a function from words to places;
* `decodeFrom_append` — decoding a concatenation;
* `bitmapPlaces_setSlot` — setting one clear slot of a bitmap adds exactly one place.
-/

namespace RelrFormat

/-- A 64-bit machine word: an address or a bitmap. -/
abbrev Word := BitVec 64

/-- The number of places that one bitmap word covers. -/
def slots : Nat := 63

/-- The place that slot `i` of a bitmap denotes when the position is `pos`. -/
def slotPlace (pos : Word) (i : Nat) : Word := pos + BitVec.ofNat 64 (8 * i)

/-- The places that the bitmap `w` relocates when the position is `pos`. -/
def bitmapPlaces (pos w : Word) : List Word :=
  ((List.range slots).filter (fun i => w.getLsbD (i + 1))).map (slotPlace pos)

/-- The loader's rule, started at position `pos`. -/
def decodeFrom (pos : Word) : List Word → List Word
  | []      => []
  | w :: ws =>
    if w.getLsbD 0 then bitmapPlaces pos w ++ decodeFrom (slotPlace pos slots) ws
    else w :: decodeFrom (w + 8) ws

/-- The position reached after `ws`, started at `pos`. -/
def posAfter (pos : Word) : List Word → Word
  | []      => pos
  | w :: ws => if w.getLsbD 0 then posAfter (slotPlace pos slots) ws else posAfter (w + 8) ws

/-- The places that a whole `.relr.dyn` section relocates. -/
def decode (ws : List Word) : List Word := decodeFrom 0 ws

/-! ## Decoding a concatenation -/

theorem decodeFrom_append (pos : Word) (a b : List Word) :
    decodeFrom pos (a ++ b) = decodeFrom pos a ++ decodeFrom (posAfter pos a) b := by
  induction a generalizing pos with
  | nil => rfl
  | cons w ws ih =>
    by_cases hw : w.getLsbD 0 = true
    · simp only [List.cons_append, decodeFrom, posAfter, hw, if_true]
      rw [ih, List.append_assoc]
    · simp only [List.cons_append, decodeFrom, posAfter, hw]
      rw [if_neg (by simp), if_neg (by simp), if_neg (by simp), ih, List.cons_append]

theorem posAfter_append (pos : Word) (a b : List Word) :
    posAfter pos (a ++ b) = posAfter (posAfter pos a) b := by
  induction a generalizing pos with
  | nil => rfl
  | cons w ws ih =>
    simp only [List.cons_append, posAfter]
    split
    · exact ih _
    · exact ih _

/-- An address word appended to a stream adds its own place. -/
theorem decode_append_address (ws : List Word) {a : Word} (ha : a.getLsbD 0 = false) :
    decode (ws ++ [a]) = decode ws ++ [a] := by
  unfold decode
  rw [decodeFrom_append]
  simp only [decodeFrom, ha]
  rfl

theorem posAfter_append_address (ws : List Word) {a : Word} (ha : a.getLsbD 0 = false) :
    posAfter 0 (ws ++ [a]) = a + 8 := by
  rw [posAfter_append]
  simp only [posAfter, ha]
  rfl

/-- A bitmap word appended to a stream adds its slots, counted from the position reached. -/
theorem decode_append_bitmap (ws : List Word) {w : Word} (hw : w.getLsbD 0 = true) :
    decode (ws ++ [w]) = decode ws ++ bitmapPlaces (posAfter 0 ws) w := by
  unfold decode
  rw [decodeFrom_append]
  simp [decodeFrom, hw]

theorem posAfter_append_bitmap (ws : List Word) {w : Word} (hw : w.getLsbD 0 = true) :
    posAfter 0 (ws ++ [w]) = slotPlace (posAfter 0 ws) slots := by
  rw [posAfter_append]
  simp [posAfter, hw]

/-! ## Setting one slot of a bitmap -/

/-- Bitmap `w` with slot `i` set. -/
def setSlot (w : Word) (i : Nat) : Word := w ||| ((1 : Word) <<< (i + 1))

theorem getLsbD_setSlot (w : Word) (i j : Nat) (hj : j < 64) :
    (setSlot w i).getLsbD j = (w.getLsbD j || decide (j = i + 1)) := by
  have hbit : (1 : Word) <<< (i + 1) = BitVec.twoPow 64 (i + 1) := by
    rw [BitVec.twoPow_eq]; rfl
  unfold setSlot
  rw [BitVec.getLsbD_or, hbit, BitVec.getLsbD_twoPow]
  by_cases h : j = i + 1
  · simp [h, show i + 1 < 64 by omega]
  · have h' : i + 1 ≠ j := fun e => h e.symm
    simp [h, h']

/-- Setting a slot keeps a bitmap a bitmap. -/
theorem setSlot_isBitmap {w : Word} (i : Nat) (hw : w.getLsbD 0 = true) :
    (setSlot w i).getLsbD 0 = true := by
  rw [getLsbD_setSlot w i 0 (by decide), hw, Bool.true_or]

/-- Allowing one more element through a filter adds that element, wherever it stands. -/
theorem filter_or_eq_perm {l : List Nat} (hl : l.Nodup) {k : Nat} (hk : k ∈ l) {p : Nat → Bool}
    (hp : p k = false) :
    (l.filter (fun i => p i || decide (i = k))).Perm (k :: l.filter p) := by
  have hnodup : (k :: l.filter p).Nodup := by
    refine List.nodup_cons.mpr ⟨?_, hl.filter p⟩
    intro hmem
    have := (List.mem_filter.mp hmem).2
    rw [hp] at this
    exact absurd this (by simp)
  refine (List.perm_ext_iff_of_nodup (hl.filter _) hnodup).mpr ?_
  intro i
  simp only [List.mem_filter, List.mem_cons, Bool.or_eq_true, decide_eq_true_eq]
  constructor
  · rintro ⟨hi, hpi | rfl⟩
    · exact Or.inr ⟨hi, hpi⟩
    · exact Or.inl rfl
  · rintro (rfl | ⟨hi, hpi⟩)
    · exact ⟨hk, Or.inr rfl⟩
    · exact ⟨hi, Or.inl hpi⟩

/-- **Setting a clear slot adds its place** and nothing else. -/
theorem bitmapPlaces_setSlot (pos w : Word) {i : Nat} (hi : i < slots)
    (hclear : w.getLsbD (i + 1) = false) :
    (bitmapPlaces pos (setSlot w i)).Perm (slotPlace pos i :: bitmapPlaces pos w) := by
  have hfilter : (List.range slots).filter (fun j => (setSlot w i).getLsbD (j + 1))
      = (List.range slots).filter (fun j => w.getLsbD (j + 1) || decide (j = i)) := by
    apply List.filter_congr
    intro j hj
    have hj' : j < 63 := List.mem_range.mp hj
    rw [getLsbD_setSlot w i (j + 1) (by omega)]
    simp
  unfold bitmapPlaces
  rw [hfilter]
  exact (filter_or_eq_perm List.nodup_range (List.mem_range.mpr hi) hclear).map (slotPlace pos)

/-- The bitmap with no slot set denotes no place. -/
theorem bitmapPlaces_one (pos : Word) : bitmapPlaces pos 1 = [] := by
  have hempty : (List.range slots).filter (fun i => (1 : Word).getLsbD (i + 1)) = [] := by
    apply List.filter_eq_nil_iff.mpr
    simp [BitVec.getLsbD_one]
  unfold bitmapPlaces
  rfl

/-- A place denoted by a bitmap is one of its slots, and that slot is set. -/
theorem mem_bitmapPlaces {pos w p : Word} :
    p ∈ bitmapPlaces pos w ↔ ∃ i < slots, w.getLsbD (i + 1) = true ∧ slotPlace pos i = p := by
  unfold bitmapPlaces
  simp only [List.mem_map, List.mem_filter, List.mem_range]
  constructor
  · rintro ⟨i, ⟨hi, hw⟩, rfl⟩
    exact ⟨i, hi, hw, rfl⟩
  · rintro ⟨i, hi, hw, rfl⟩
    exact ⟨i, ⟨hi, hw⟩, rfl⟩

end RelrFormat
