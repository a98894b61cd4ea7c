import Reld.Reloc.ReadModifyWrite

/-!
# `Reloc.PairUleb128` — the difference of two labels in a ULEB128 field

The assembler leaves a placeholder of some bytes for a difference that it cannot compute yet, and the linker stores
the difference with the `R_RISCV_SET_ULEB128` and `R_RISCV_SUB_ULEB128` at its place. `write_to_buffer` stores the
shortest encoding, and only checks that the section has that many bytes left. `storesPlaceholder_iff` says for which
differences the field keeps its length.
-/

namespace Reld

open LittleEndian

/-- A field of a section: its bytes continue up to the last one. -/
structure Uleb128Place where
  front : Bytes
  placeholder : Bytes
  behind : Bytes
  nonempty : placeholder ≠ []
  continues : ∀ b ∈ placeholder.dropLast, 128 ≤ b.toNat
  stops : (placeholder.getLast nonempty).toNat < 128

namespace Uleb128Place

variable (place : Uleb128Place) (leb : Leb128) (sectionAddress setValue subValue : BitVec 64)

/-- The section with other bytes in the field. -/
def withField (field : Bytes) : Bytes := place.front ++ field ++ place.behind

/-- The `R_RISCV_SET_ULEB128`. -/
def setRelocation : PlaceRelocation :=
  { type := .riscv .setUleb128, inputOffset := place.front.length, offset := place.front.length, previous := none }

/-- The `R_RISCV_SUB_ULEB128` behind it. -/
def subRelocation : PlaceRelocation :=
  { type := .riscv .subUleb128, inputOffset := place.front.length, offset := place.front.length
    previous := some ⟨.riscv .setUleb128, place.front.length, some setValue⟩ }

/-- The section after both relocations. -/
def applyPair : Option Bytes := do
  let out ← place.setRelocation.applyRelocation leb sectionAddress setValue (place.withField place.placeholder)
  (place.subRelocation setValue).applyRelocation leb sectionAddress subValue out

/-- A value that fits is read back from the field, and nothing else changes; another one is rejected. -/
def Stores (value : Nat) (result : Option Bytes) : Prop :=
  if value < 2 ^ (7 * place.placeholder.length) then
    ∃ field, field.length = place.placeholder.length ∧ result = some (place.withField field) ∧
      leb.read (field ++ place.behind) = some (value, place.behind)
  else result = none

/-- `verify` leaves out the largest number, also for the first relocation of the pair, which stores nothing. -/
def Verified : Prop :=
  setValue - (sectionAddress + BitVec.ofNat 64 place.front.length) ≠ BitVec.intMax 64 ∧
    setValue - subValue ≠ BitVec.intMax 64

instance : Decidable (place.Verified sectionAddress setValue subValue) := inferInstanceAs (Decidable (_ ∧ _))

variable {place leb sectionAddress setValue subValue}

theorem length_placeholder_pos : 0 < place.placeholder.length := List.length_pos_iff.mpr place.nonempty

/-- The first relocation leaves the section as it is. -/
theorem applySet_eq (out : Bytes) (h : place.front.length ≤ out.length) :
    place.setRelocation.applyRelocation leb sectionAddress setValue out =
      if setValue - (sectionAddress + BitVec.ofNat 64 place.front.length) ≠ BitVec.intMax 64 then some out
      else none := by
  have hkind : place.setRelocation.type.info.kind = .relative := rfl
  have hoffset : place.setRelocation.offset = place.front.length := rfl
  have hencode : ∀ v, place.setRelocation.type.info.encode leb v = [] := fun v => rfl
  have hoverwrite : overwrite out place.front.length [] = out := by
    unfold overwrite
    rw [List.append_nil, List.length_nil, Nat.add_zero, List.take_append_drop]
  unfold PlaceRelocation.applyRelocation
  simp only [hkind, readsPlace, Bool.false_eq_true, if_false, Option.bind_eq_bind, Option.bind_some]
  unfold PlaceKindInfo.writeToBuffer
  simp only [hencode, hoffset, hoverwrite, List.length_nil, Nat.add_zero, h, if_true]
  -- The value is not written, but its range is checked, whose end is excluded.
  by_cases hvalue : setValue - (sectionAddress + BitVec.ofNat 64 place.front.length) = BitVec.intMax 64
  · rw [if_neg (fun hverify => (verify_info _ _).mp hverify hvalue), if_neg (not_not.mpr hvalue)]
  · rw [if_pos ((verify_info _ _).mpr hvalue), if_pos hvalue]

/-- The second one stores the shortest encoding, over whatever is there. -/
theorem applyPair_eq :
    place.applyPair leb sectionAddress setValue subValue =
      if place.Verified sectionAddress setValue subValue ∧
          leb.size (setValue - subValue).toNat ≤ place.placeholder.length + place.behind.length then
        some (place.front ++ leb.write (setValue - subValue).toNat ++
          (place.placeholder ++ place.behind).drop (leb.size (setValue - subValue).toNat))
      else none := by
  have hlength := leb.length_write _ (setValue - subValue).isLt
  unfold applyPair
  rw [applySet_eq _ (by unfold withField; simp only [List.length_append]; omega)]
  unfold Verified
  by_cases hset : setValue - (sectionAddress + BitVec.ofNat 64 place.front.length) ≠ BitVec.intMax 64
  · rw [if_pos hset]
    have hvalue : getPairSubtractionRelocationValue (place.subRelocation setValue) subValue (.riscv .setUleb128) =
        some (setValue - subValue) := by
      simp [getPairSubtractionRelocationValue, subRelocation, guard]
    have hkind : (place.subRelocation setValue).type.info.kind = .pairSubtractionUleb128 (.riscv .setUleb128) := rfl
    simp only [Option.bind_eq_bind, Option.bind_some, PlaceRelocation.applyRelocation, hkind, hvalue, readsPlace,
      Bool.false_eq_true, if_false]
    unfold PlaceKindInfo.writeToBuffer
    have hencode : (place.subRelocation setValue).type.info.encode leb (setValue - subValue) =
        leb.write (setValue - subValue).toNat := rfl
    have hroom : (place.subRelocation setValue).offset + (leb.write (setValue - subValue).toNat).length ≤
        (place.withField place.placeholder).length ↔
          leb.size (setValue - subValue).toNat ≤ place.placeholder.length + place.behind.length := by
      unfold withField subRelocation
      simp only [List.length_append]
      omega
    have hbytes : overwrite (place.withField place.placeholder) (place.subRelocation setValue).offset
        (leb.write (setValue - subValue).toNat) = place.front ++ leb.write (setValue - subValue).toNat ++
          (place.placeholder ++ place.behind).drop (leb.size (setValue - subValue).toNat) := by
      unfold overwrite withField subRelocation
      rw [hlength, List.append_assoc place.front, List.take_left', List.drop_append]
      · simp
      · rfl
    rw [hencode, hbytes]
    by_cases hsub : setValue - subValue ≠ BitVec.intMax 64
    · rw [if_pos ((verify_info _ _).mpr hsub)]
      simp only [hroom, hset, hsub, not_false_eq_true, true_and, ne_eq]
    · rw [if_neg (fun hverify => hsub ((verify_info _ _).mp hverify)), if_neg (fun h => hsub h.1.2)]
  · rw [if_neg hset, if_neg (fun h => hset h.1.1)]
    rfl

/-- The encodings are the shortest ones. -/
def Shortest (leb : Leb128) : Prop :=
  ∀ v < 2 ^ 64, ∀ n, 0 < n → (leb.size v ≤ n ↔ v < 2 ^ (7 * n))

/-- **When the field is stored as the consumer reads it**: a difference that fits needs all bytes of the placeholder,
    and one that does not fit is rejected only if it does not fit into the rest of the section either. -/
theorem storesPlaceholder_iff (place : Uleb128Place) {leb : Leb128} (hleb : Shortest leb)
    (sectionAddress setValue subValue : BitVec 64) :
    place.Stores leb (setValue - subValue).toNat (place.applyPair leb sectionAddress setValue subValue) ↔
      if (setValue - subValue).toNat < 2 ^ (7 * place.placeholder.length) then
        place.Verified sectionAddress setValue subValue ∧
          (place.placeholder.length = 1 ∨
            2 ^ (7 * (place.placeholder.length - 1)) ≤ (setValue - subValue).toNat)
      else
        ¬place.Verified sectionAddress setValue subValue ∨
          2 ^ (7 * (place.placeholder.length + place.behind.length)) ≤ (setValue - subValue).toNat := by
  have hpos := place.length_placeholder_pos
  have hlt := (setValue - subValue).isLt
  rw [applyPair_eq]
  generalize hvalue : (setValue - subValue).toNat = value at hlt ⊢
  have hsize := hleb value hlt
  have hwrite := leb.length_write value hlt
  unfold Stores
  by_cases hfits : value < 2 ^ (7 * place.placeholder.length)
  · -- the encoding is never longer than the placeholder, and is stored without padding
    simp only [hfits, if_true]
    have hle := (hsize _ hpos).mpr hfits
    have hexact : (place.placeholder.length = 1 ∨ 2 ^ (7 * (place.placeholder.length - 1)) ≤ value) ↔
        leb.size value = place.placeholder.length := by
      by_cases hone : place.placeholder.length = 1
      · have := leb.length_write_pos hlt
        omega
      · have hshorter := hsize (place.placeholder.length - 1) (by omega)
        omega
    have hroom : leb.size value ≤ place.placeholder.length + place.behind.length := by omega
    simp only [hexact, hroom, and_true]
    constructor
    · rintro ⟨field, hlength, hresult, hread⟩
      have hverified : place.Verified sectionAddress setValue subValue := by
        by_contra hnot
        rw [if_neg hnot] at hresult
        cases hresult
      refine ⟨hverified, ?_⟩
      rw [if_pos hverified] at hresult
      -- what follows the encoding is what follows the field
      have hbytes := Option.some.inj hresult
      unfold withField at hbytes
      rw [List.append_assoc, List.append_assoc] at hbytes
      have hrest := leb.read_write value hlt ((place.placeholder ++ place.behind).drop (leb.size value))
      rw [List.append_cancel_left hbytes, hread] at hrest
      have hsame := congrArg List.length (Prod.mk.inj (Option.some.inj hrest)).2
      rw [List.length_drop, List.length_append] at hsame
      omega
    · rintro ⟨hverified, hsame⟩
      refine ⟨leb.write value, hwrite.trans hsame, ?_, leb.read_write value hlt _⟩
      rw [if_pos hverified, hsame, List.drop_left']
      · rfl
      · rfl
  · -- the only check is against the end of the section
    simp only [hfits, if_false]
    have hrest : leb.size value ≤ place.placeholder.length + place.behind.length ↔
        value < 2 ^ (7 * (place.placeholder.length + place.behind.length)) := hsize _ (by omega)
    have hlarge : 2 ^ (7 * (place.placeholder.length + place.behind.length)) ≤ value ↔
        ¬leb.size value ≤ place.placeholder.length + place.behind.length := by rw [hrest, not_lt]
    rw [hlarge]
    by_cases hstored : place.Verified sectionAddress setValue subValue ∧
        leb.size value ≤ place.placeholder.length + place.behind.length
    · rw [if_pos hstored]
      refine iff_of_false (Option.some_ne_none _) ?_
      rintro (h | h)
      · exact h hstored.1
      · exact h hstored.2
    · rw [if_neg hstored]
      exact iff_of_true rfl (not_and_or.mp hstored)

/-! ## Two bytes for a small difference -/

theorem length_writeGroups_pos (n v : Nat) : 0 < (Leb128.writeGroups n v).length := by
  cases n with
  | zero => exact Nat.zero_lt_one
  | succ n =>
    rw [Leb128.writeGroups]
    split_ifs
    · exact Nat.zero_lt_one
    · exact Nat.zero_lt_succ _

/-- The encoder is the shortest one, up to its last group. -/
theorem length_writeGroups_le_iff {n v m : Nat} (hm : 0 < m) :
    (Leb128.writeGroups n v).length ≤ m ↔ v < 2 ^ (7 * m) ∨ n < m := by
  induction n generalizing v m with
  | zero => exact iff_of_true hm (Or.inr hm)
  | succ n ih =>
    rw [Leb128.writeGroups]
    split_ifs with hsmall
    · have hle : 2 ^ 7 ≤ 2 ^ (7 * m) := Nat.pow_le_pow_right (by decide) (by omega)
      exact iff_of_true hm (Or.inl (Nat.lt_of_lt_of_le hsmall hle))
    · cases m with
      | zero => exact absurd hm (Nat.lt_irrefl 0)
      | succ m =>
        rw [List.length_cons, Nat.succ_le_succ_iff]
        by_cases hzero : m = 0
        · -- a number of more than seven bits does not fit into one byte
          subst hzero
          have := length_writeGroups_pos n (v / 128)
          refine iff_of_false (by omega) ?_
          rintro (h | h)
          · exact hsmall h
          · omega
        · rw [ih (Nat.pos_of_ne_zero hzero), Nat.mul_succ, Nat.pow_add, Nat.div_lt_iff_lt_mul (by decide)]
          exact or_congr Iff.rfl (by omega)

theorem shortest_standard : Shortest .standard := by
  intro v hv n hn
  refine (length_writeGroups_le_iff hn).trans (or_iff_left_of_imp fun h => ?_)
  exact Nat.lt_of_lt_of_le hv (Nat.pow_le_pow_right (by decide) (by omega))

/-- A field of two bytes, and a byte behind it. -/
def twoBytePlace : Uleb128Place where
  front := []
  placeholder := [0x80, 0x00]
  behind := [0x2a]
  nonempty := by decide
  continues := by simp
  stops := by decide

theorem storesPlaceholder_iff_witness :
    twoBytePlace.Stores .standard 200 (twoBytePlace.applyPair .standard 0x1000 0x20c8 0x2000) :=
  (storesPlaceholder_iff twoBytePlace shortest_standard 0x1000 0x20c8 0x2000).mpr (by
    rw [if_pos (by decide)]
    exact ⟨⟨by decide, by decide⟩, Or.inr (by decide)⟩)

/-- **A small difference shifts what follows**: 5 is stored in the first of the two bytes. -/
theorem small_difference_misread :
    twoBytePlace.applyPair .standard 0x1000 0x2005 0x2000 = some [0x05, 0x00, 0x2a] ∧
      ¬∀ (place : Uleb128Place) (sectionAddress setValue subValue : BitVec 64),
        place.Stores .standard (setValue - subValue).toNat
          (place.applyPair .standard sectionAddress setValue subValue) := by
  have hpair : twoBytePlace.applyPair .standard 0x1000 0x2005 0x2000 = some [0x05, 0x00, 0x2a] := by decide
  refine ⟨hpair, fun h => ?_⟩
  have hstores := h twoBytePlace 0x1000 0x2005 0x2000
  unfold Stores at hstores
  rw [if_pos (by decide), hpair] at hstores
  obtain ⟨field, hlength, hresult, hread⟩ := hstores
  obtain ⟨a, b, rfl⟩ := List.length_eq_two.mp hlength
  obtain ⟨rfl, rfl⟩ : 0x05 = a ∧ 0x00 = b := by simpa [withField, twoBytePlace] using hresult
  exact absurd hread (by decide)

end Uleb128Place

end Reld
