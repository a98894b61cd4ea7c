import Reld.Lib.BitFields

/-!
# `Reloc.Bits` — the words that relocations patch

An instruction is patched in place. Its bytes are seen as one little-endian word of 64 bits that starts at the
place, whatever follows the instruction included; and-ing or or-ing a slice of bytes into it touches its low
bytes only.
-/

namespace Reld

/-- `extract_bit_range` -/
def extractBitRange (value : BitVec 64) (start stop : Nat) : BitVec 64 :=
  if start = 0 ∧ stop = 64 then value else (value >>> start) &&& BitVec.ofNat 64 (2 ^ (stop - start) - 1)

/-- `extract_bit` -/
def extractBit (value : BitVec 64) (position : Nat) : BitVec 64 := extractBitRange value position (position + 1)

/-- The low bytes of a word, zeros above. -/
def lowBytes (bytes : Nat) (word : BitVec 64) : BitVec 64 := word &&& BitVec.ofNat 64 (2 ^ (8 * bytes) - 1)

/-- `and_from_slice` with a mask of some bytes. -/
def andFromSlice (bytes : Nat) (dest mask : BitVec 64) : BitVec 64 := dest &&& (mask ||| ~~~ lowBytes bytes (BitVec.allOnes 64))

/-- `or_from_slice` with a mask of some bytes. -/
def orFromSlice (bytes : Nat) (dest mask : BitVec 64) : BitVec 64 := dest ||| lowBytes bytes mask

/-- The sign of `bits` bits carried on, as by shifting a signed number up and down. -/
def signExtendFrom (bits : Nat) (word : BitVec 64) : BitVec 64 := (word.setWidth bits).signExtend 64

/-! ## Bit by bit -/

theorem getLsbD_extractBitRange {value : BitVec 64} {start stop : Nat} (h : stop ≤ 64) (i : Nat) :
    (extractBitRange value start stop).getLsbD i = (decide (i < stop - start) && value.getLsbD (start + i)) := by
  unfold extractBitRange
  by_cases hall : start = 0 ∧ stop = 64
  · rw [if_pos hall]
    obtain ⟨rfl, rfl⟩ := hall
    by_cases hi : i < 64
    · simp [hi]
    · rw [BitVec.getLsbD_of_ge value i (by omega)]
      simp [hi]
  · rw [if_neg hall, BitVec.getLsbD_and, BitVec.getLsbD_ushiftRight, BitField.getLsbD_ones, Bool.and_comm]
    congr 1
    rw [decide_eq_decide]
    omega

theorem toNat_extractBitRange {start stop : Nat} (h : stop ≤ 64) (value : BitVec 64) :
    (extractBitRange value start stop).toNat = value.toNat / 2 ^ start % 2 ^ (stop - start) := by
  refine Nat.eq_of_testBit_eq fun i => ?_
  rw [Nat.testBit_mod_two_pow, Nat.testBit_div_two_pow, Nat.add_comm]
  exact getLsbD_extractBitRange h i

/-- A field of a word depends on its own bits only. -/
theorem extractLsb'_congr {n m start len : Nat} {w : BitVec n} {t : BitVec m}
    (h : ∀ i, start ≤ i → i < start + len → w.getLsbD i = t.getLsbD i) :
    w.extractLsb' start len = t.extractLsb' start len := by
  refine BitVec.eq_of_getLsbD_eq fun i hi => ?_
  rw [BitVec.getLsbD_extractLsb', BitVec.getLsbD_extractLsb', h (start + i) (by omega) (by omega)]

/-- The bits of a range, moved up, are a bit field. -/
theorem extractBitRange_shift (value : BitVec 64) {start stop : Nat} (dst : Nat) (h : stop ≤ 64)
    (hd : dst + (stop - start) ≤ 64) :
    extractBitRange value start stop <<< dst =
      BitField.put { src := start, dst := dst, len := stop - start } value := by
  by_cases hle : start ≤ stop
  · refine BitVec.eq_of_getLsbD_eq fun i hi => ?_
    rw [BitVec.getLsbD_shiftLeft, getLsbD_extractBitRange h,
      BitField.getLsbD_put (n := 64) ⟨show start + (stop - start) ≤ 64 by omega, hd⟩]
    unfold BitField.holds
    simp only [hi, decide_true, Bool.true_and]
    by_cases h1 : i < dst
    · simp [h1, show ¬ dst ≤ i by omega]
    · by_cases h2 : i - dst < stop - start
      · simp [h1, h2, show dst ≤ i by omega, show i < dst + (stop - start) by omega]
      · simp [h2, show ¬ i < dst + (stop - start) by omega]
  · have hz : stop - start = 0 := by omega
    have hl : extractBitRange value start stop = 0 := by
      refine BitVec.eq_of_getLsbD_eq fun i _ => ?_
      rw [getLsbD_extractBitRange h, hz]
      simp
    rw [hl, hz]
    unfold BitField.put
    simp

theorem getLsbD_lowBytes (bytes : Nat) (word : BitVec 64) (i : Nat) :
    (lowBytes bytes word).getLsbD i = (decide (i < 8 * bytes) && word.getLsbD i) := by
  unfold lowBytes
  rw [BitVec.getLsbD_and, BitField.getLsbD_ones, Bool.and_comm]
  by_cases hi : i < 64
  · simp [hi]
  · rw [BitVec.getLsbD_of_ge word i (by omega)]
    simp

/-! ## Writing an encoding in place -/

open BitFields in
/-- An encoding within some bytes is not cut off by writing these bytes only. -/
theorem lowBytes_scatter {bytes : Nat} {fs : List BitField} (hf : ∀ f ∈ fs, f.Fits 64)
    (hlow : ∀ f ∈ fs, f.dst + f.len ≤ 8 * bytes) (v : BitVec 64) :
    lowBytes bytes (scatter fs v) = scatter fs v := by
  refine BitVec.eq_of_getLsbD_eq fun i _ => ?_
  rw [getLsbD_lowBytes]
  by_cases hi : i < 8 * bytes
  · rw [decide_eq_true hi, Bool.true_and]
  · have hout : covers fs i = false := by
      rw [covers, List.any_eq_false]
      intro f hmem
      have := hlow f hmem
      simp only [BitField.holds, decide_eq_true_eq]
      omega
    rw [scatter_outside hf v hout, Bool.and_false]

open BitFields in
/-- **Clear and set.** And-ing the mask of what is kept and or-ing the encoding writes the encoding. -/
theorem patch_eq_write {bytes : Nat} {fs : List BitField} {mask : BitVec 64} (hf : ∀ f ∈ fs, f.Fits 64)
    (hlow : ∀ f ∈ fs, f.dst + f.len ≤ 8 * bytes)
    (hmask : mask ||| ~~~ lowBytes bytes (BitVec.allOnes 64) = keepMask 64 fs) (v dest : BitVec 64) :
    orFromSlice bytes (andFromSlice bytes dest mask) (scatter fs v) = write fs v dest := by
  unfold orFromSlice andFromSlice write
  rw [lowBytes_scatter hf hlow, hmask]

/-- A value moved up and cut off at the end of the bytes is a bit field. -/
theorem lowBytes_shift (value : BitVec 64) {bytes dst : Nat} (hd : dst ≤ 8 * bytes) (hb : bytes ≤ 8) :
    lowBytes bytes (value <<< dst) = BitField.put { src := 0, dst := dst, len := 8 * bytes - dst } value := by
  refine BitVec.eq_of_getLsbD_eq fun i hi => ?_
  rw [getLsbD_lowBytes, BitVec.getLsbD_shiftLeft,
    BitField.getLsbD_put (n := 64) ⟨show 0 + (8 * bytes - dst) ≤ 64 by omega, show dst + (8 * bytes - dst) ≤ 64 by omega⟩]
  unfold BitField.holds
  by_cases h1 : i < dst
  · simp [h1, show ¬ dst ≤ i by omega]
  · by_cases h2 : i < 8 * bytes
    · simp [hi, h1, h2, show dst ≤ i by omega, show i < dst + (8 * bytes - dst) by omega]
    · simp [h2, show ¬ i < dst + (8 * bytes - dst) by omega]

/-! ## Reading an encoding in place -/

/-- A number that fits into some bits is the sign extension of its low bits. -/
theorem signExtendFrom_eq {k : Nat} (hk : k < 64) {v w : BitVec 64} (h : ∀ i ≤ k, w.getLsbD i = v.getLsbD i)
    (hlo : -(2 ^ k) ≤ v.toInt) (hhi : v.toInt < 2 ^ k) : signExtendFrom (k + 1) w = v := by
  have hw : w.setWidth (k + 1) = v.setWidth (k + 1) := by
    refine BitVec.eq_of_getLsbD_eq fun i hi => ?_
    rw [BitVec.getLsbD_setWidth, BitVec.getLsbD_setWidth, h i (by omega)]
  have hdvd : (2 : Nat) ^ (k + 1) ∣ 2 ^ 64 := Nat.pow_dvd_pow 2 (by omega)
  unfold signExtendFrom
  rw [hw]
  refine BitVec.eq_of_toInt_eq ?_
  rw [BitVec.toInt_signExtend_of_le (by omega), BitVec.toInt_setWidth, ← Int.bmod_bmod_of_dvd hdvd,
    ← BitVec.toInt_eq_toNat_bmod]
  refine Int.bmod_eq_of_le ?_ ?_
  · push_cast
    omega
  · push_cast
    omega

/-- A multiple of `2 ^ low` that fits is read back from its bits from `low` on. -/
theorem extractBitRange_signExtend {low len k : Nat} (hk : k + 1 = len + low) (h64 : k < 64) {v : BitVec 64}
    (halign : v.toNat % 2 ^ low = 0) (hlo : -(2 ^ k) ≤ v.toInt) (hhi : v.toInt < 2 ^ k) :
    ((extractBitRange v low (low + len)).setWidth len ++ BitVec.ofNat low 0).signExtend 64 = v := by
  have hpart : (extractBitRange v low (low + len)).setWidth len ++ BitVec.ofNat low 0 = v.setWidth (len + low) := by
    refine BitVec.eq_of_toNat_eq ?_
    rw [BitVec.toNat_append, BitVec.toNat_ofNat, Nat.zero_mod, Nat.or_zero, Nat.shiftLeft_eq, BitVec.toNat_setWidth,
      BitVec.toNat_setWidth, toNat_extractBitRange (by omega), Nat.add_sub_cancel_left, Nat.mod_mod, Nat.add_comm len low,
      Nat.pow_add, Nat.mod_mul, halign, Nat.zero_add, Nat.mul_comm]
  have hwidth : ∀ m, k + 1 = m → (v.setWidth m).signExtend 64 = v := by
    rintro m rfl
    exact signExtendFrom_eq h64 (fun _ _ => rfl) hlo hhi
  rw [hpart]
  exact hwidth _ hk

end Reld

/-!
# Values relative to pages

Some relocations count pages: the low bits of the target, of its table entry or of the place are masked out before
they are subtracted.
-/

namespace Reld

def size2KB : BitVec 64 := 1 <<< 11
def size4KB : BitVec 64 := 1 <<< 12
def size2GB : BitVec 64 := 1 <<< 31
def size4GB : BitVec 64 := 1 <<< 32

/-- `PAGE_MASK_4KB` -/
def pageMask4KB : BitVec 64 := size4KB - 1

/-- `PageMask` -/
inductive PageMask where
  | symbolPlusAddendAndPosition (mask : BitVec 64)
  | gotEntryAndPosition (mask : BitVec 64)
  | gotBase (mask : BitVec 64)
  | position (mask : BitVec 64)
deriving DecidableEq, Repr

/-- `PageMaskValue`, without masks all bits are kept. -/
structure PageMaskValue where
  symbolPlusAddend : BitVec 64 := BitVec.allOnes 64
  gotEntry : BitVec 64 := BitVec.allOnes 64
  place : BitVec 64 := BitVec.allOnes 64
  got : BitVec 64 := BitVec.allOnes 64
deriving DecidableEq, Repr

/-- `get_page_mask` -/
def getPageMask : Option PageMask → PageMaskValue
  | none => {}
  | some (.symbolPlusAddendAndPosition mask) => { symbolPlusAddend := ~~~ mask, place := ~~~ mask }
  | some (.gotEntryAndPosition mask) => { gotEntry := ~~~ mask, place := ~~~ mask }
  | some (.gotBase mask) => { got := ~~~ mask }
  | some (.position mask) => { place := ~~~ mask }

/-- The start of the page of an address. -/
theorem toNat_page (address : BitVec 64) :
    (address &&& ~~~ pageMask4KB).toNat = address.toNat / 2 ^ 12 * 2 ^ 12 := by
  have hmask : ∀ i < 64, (~~~ pageMask4KB).getLsbD i = decide (12 ≤ i) := by decide
  refine Nat.eq_of_testBit_eq fun i => ?_
  rw [Nat.mul_comm, Nat.testBit_two_pow_mul]
  change (address &&& ~~~ pageMask4KB).getLsbD i = _
  rw [BitVec.getLsbD_and]
  by_cases h64 : i < 64
  · rw [hmask i h64, Bool.and_comm]
    by_cases h12 : 12 ≤ i
    · rw [Nat.testBit_div_two_pow, show i - 12 + 12 = i by omega]
      rfl
    · rw [decide_eq_false h12, Bool.false_and, Bool.false_and]
  · rw [BitVec.getLsbD_of_ge _ _ (by omega), Bool.false_and, Nat.testBit_div_two_pow, show i - 12 + 12 = i by omega]
    have hout : address.toNat.testBit i = false := BitVec.getLsbD_of_ge address i (by omega)
    rw [hout, Bool.and_false]

end Reld
