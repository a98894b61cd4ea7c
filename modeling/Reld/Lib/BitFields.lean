import Mathlib.Data.Nat.Bitwise
import Mathlib.Data.List.Pairwise

/-!
# `Lib.BitFields` — values scattered over the bits of a word

A bit field takes a run of bits of a value to a run of bits of a word. Several of them make an encoding:
`scatter` puts the bits of a value at their places; when the places do not overlap, the bits are found there again
(`scatter_at`). An encoding is written into a word with its places cleared first, so that nothing of the old contents is
left inside (`write_inside`) and everything outside is kept (`write_outside`).
-/

/-- The bits `src ..< src + len` of a value at the bits `dst ..< dst + len` of a word. -/
structure BitField where
  src : Nat
  dst : Nat
  len : Nat
deriving DecidableEq, Repr

namespace BitField

variable {n : Nat}

/-- A word with the bits of `v` at their place and zeros elsewhere. -/
def put (f : BitField) (v : BitVec n) : BitVec n :=
  (v >>> f.src &&& BitVec.ofNat n (2 ^ f.len - 1)) <<< f.dst

/-- Whether a bit of the word belongs to the field. -/
def holds (f : BitField) (i : Nat) : Bool := decide (f.dst ≤ i ∧ i < f.dst + f.len)

/-- Bits of words outside the width do not exist. -/
def Fits (n : Nat) (f : BitField) : Prop := f.src + f.len ≤ n ∧ f.dst + f.len ≤ n

instance (n : Nat) (f : BitField) : Decidable (f.Fits n) :=
  inferInstanceAs (Decidable (f.src + f.len ≤ n ∧ f.dst + f.len ≤ n))

theorem getLsbD_ones (len i : Nat) : (BitVec.ofNat n (2 ^ len - 1)).getLsbD i = decide (i < n ∧ i < len) := by
  rw [BitVec.getLsbD_ofNat, Nat.testBit_two_pow_sub_one, Bool.decide_and]

theorem getLsbD_put {f : BitField} (hf : f.Fits n) (v : BitVec n) (i : Nat) :
    (f.put v).getLsbD i = (f.holds i && v.getLsbD (f.src + (i - f.dst))) := by
  obtain ⟨hs, hd⟩ := hf
  unfold put holds
  rw [BitVec.getLsbD_shiftLeft, BitVec.getLsbD_and, BitVec.getLsbD_ushiftRight, getLsbD_ones]
  by_cases h : f.dst ≤ i ∧ i < f.dst + f.len
  · have h1 : i < n := by omega
    have h2 : ¬ i < f.dst := by omega
    have h3 : i - f.dst < n ∧ i - f.dst < f.len := by omega
    simp [h, h1, h2, h3]
  · by_cases h2 : i < f.dst
    · simp [h2, show ¬ f.dst ≤ i by omega]
    · have h3 : ¬ (i - f.dst < f.len) := by omega
      simp [h, h3]

end BitField

namespace BitFields

open BitField

variable {n : Nat} {fs : List BitField} {i : Nat}

/-! ## Encodings -/

def scatter (fs : List BitField) (v : BitVec n) : BitVec n :=
  match fs with
  | []      => 0
  | f :: fs => f.put v ||| scatter fs v

/-- Whether a bit of the word belongs to the encoding. -/
def covers (fs : List BitField) (i : Nat) : Bool := fs.any (·.holds i)

/-- The fields lie within the width and their places do not overlap. -/
structure Apart (n : Nat) (fs : List BitField) : Prop where
  fits : ∀ f ∈ fs, f.Fits n
  apart : fs.Pairwise (fun f g => f.dst + f.len ≤ g.dst ∨ g.dst + g.len ≤ f.dst)

instance (n : Nat) (fs : List BitField) : Decidable (Apart n fs) :=
  decidable_of_iff ((∀ f ∈ fs, f.Fits n) ∧
    fs.Pairwise (fun f g => f.dst + f.len ≤ g.dst ∨ g.dst + g.len ≤ f.dst))
    ⟨fun h => ⟨h.1, h.2⟩, fun h => ⟨h.fits, h.apart⟩⟩

theorem getLsbD_scatter (hf : ∀ f ∈ fs, f.Fits n) (v : BitVec n) (i : Nat) :
    (scatter fs v).getLsbD i = fs.any (fun f => f.holds i && v.getLsbD (f.src + (i - f.dst))) := by
  induction fs with
  | nil => exact BitVec.getLsbD_zero
  | cons f fs ih =>
    have hrest := ih (fun g hg => hf g (List.mem_cons_of_mem _ hg))
    rw [scatter, BitVec.getLsbD_or, getLsbD_put (hf f List.mem_cons_self), hrest, List.any_cons]

/-- Outside the places an encoding has zeros. -/
theorem scatter_outside (hf : ∀ f ∈ fs, f.Fits n) (v : BitVec n) (h : covers fs i = false) :
    (scatter fs v).getLsbD i = false := by
  rw [getLsbD_scatter hf, List.any_eq_false]
  intro f hmem
  have hno := List.any_eq_false.mp h f hmem
  simp [hno]

/-- At the place of a field an encoding has the bits of that field. -/
theorem scatter_at (ha : Apart n fs) (v : BitVec n) {f : BitField} (hf : f ∈ fs) {k : Nat} (hk : k < f.len) :
    (scatter fs v).getLsbD (f.dst + k) = v.getLsbD (f.src + k) := by
  rw [getLsbD_scatter ha.fits, Bool.eq_iff_iff, List.any_eq_true]
  constructor
  · rintro ⟨g, hg, h⟩
    simp only [holds, Bool.and_eq_true, decide_eq_true_eq] at h
    by_cases hfg : f = g
    · subst hfg
      rw [show f.src + k = f.src + (f.dst + k - f.dst) by omega]
      exact h.2
    · -- another field has its place elsewhere
      have hsym : fs.Pairwise (fun f g => f.dst + f.len ≤ g.dst ∨ g.dst + g.len ≤ f.dst) := ha.apart
      have : Std.Symm (fun f g : BitField => f.dst + f.len ≤ g.dst ∨ g.dst + g.len ≤ f.dst) := ⟨fun _ _ => Or.symm⟩
      have := hsym.forall hf hg hfg
      omega
  · intro h
    refine ⟨f, hf, ?_⟩
    simp only [holds, Bool.and_eq_true, decide_eq_true_eq]
    refine ⟨by omega, ?_⟩
    rw [show f.src + (f.dst + k - f.dst) = f.src + k by omega]
    exact h

/-! ## Writing into a word -/

/-- The bits outside the encoding. -/
def keepMask (n : Nat) (fs : List BitField) : BitVec n := ~~~ scatter fs (BitVec.allOnes n)

theorem getLsbD_keepMask (hf : ∀ f ∈ fs, f.Fits n) (hi : i < n) : (keepMask n fs).getLsbD i = !covers fs i := by
  unfold keepMask
  rw [BitVec.getLsbD_not, getLsbD_scatter hf, decide_eq_true hi, Bool.true_and]
  congr 1
  unfold covers
  rw [Bool.eq_iff_iff, List.any_eq_true, List.any_eq_true]
  constructor
  · rintro ⟨f, hmem, h⟩
    exact ⟨f, hmem, (Bool.and_eq_true_iff.mp h).1⟩
  · rintro ⟨f, hmem, h⟩
    refine ⟨f, hmem, ?_⟩
    have hfit := hf f hmem
    simp only [holds, decide_eq_true_eq] at h
    have hlt : f.src + (i - f.dst) < n := by
      have := hfit.1
      omega
    rw [BitVec.getLsbD_allOnes, decide_eq_true hlt, Bool.and_true]
    simpa [holds] using h

/-- The encoding written over what was at its places. -/
def write (fs : List BitField) (v w : BitVec n) : BitVec n := (w &&& keepMask n fs) ||| scatter fs v

/-- Outside the places a word stays as it was. -/
theorem write_outside (hf : ∀ f ∈ fs, f.Fits n) (v w : BitVec n) (h : covers fs i = false) :
    (write fs v w).getLsbD i = w.getLsbD i := by
  unfold write
  rw [BitVec.getLsbD_or, BitVec.getLsbD_and, scatter_outside hf v h, Bool.or_false]
  by_cases hi : i < n
  · rw [getLsbD_keepMask hf hi, h]
    exact Bool.and_true _
  · rw [BitVec.getLsbD_of_ge w i (by omega), Bool.false_and]

/-- At the places only the encoding is left. -/
theorem write_inside (hf : ∀ f ∈ fs, f.Fits n) (v w : BitVec n) (h : covers fs i = true) :
    (write fs v w).getLsbD i = (scatter fs v).getLsbD i := by
  unfold write
  rw [BitVec.getLsbD_or, BitVec.getLsbD_and]
  by_cases hi : i < n
  · rw [getLsbD_keepMask hf hi, h]
    simp
  · rw [BitVec.getLsbD_of_ge w i (by omega)]
    simp

/-- A number in one piece is read where it was written. -/
theorem extract_write {dst len : Nat} (h : dst + len ≤ n) (v w : BitVec n) :
    (write [{ src := 0, dst := dst, len := len }] v w).extractLsb' dst len = v.setWidth len := by
  refine BitVec.eq_of_getLsbD_eq fun i hi => ?_
  have hfits : BitField.Fits n { src := 0, dst := dst, len := len } := ⟨show 0 + len ≤ n by omega, h⟩
  have hfs := List.forall_mem_singleton.mpr hfits
  rw [BitVec.getLsbD_extractLsb', BitVec.getLsbD_setWidth,
    write_inside hfs _ _ (by simp [covers, BitField.holds, hi]), getLsbD_scatter hfs]
  simp [BitField.holds, hi]

end BitFields
