import Mathlib.Data.Nat.Bitwise
import Mathlib.Data.List.Basic

/-!
# `Lib.Encodings` — numbers, bits and characters as bytes

A list of bytes, least significant first, stands for a number (`leNat`), and the low bytes of a number make
such a list (`leBytes`). Both are the same sequence of bits (`bitAt`), eight to a byte; a change of some bytes
in the middle of a list changes the bits of these bytes and no others.
-/

namespace LittleEndian

/-- The number that bytes stand for. -/
def leNat : List UInt8 → Nat
  | []      => 0
  | b :: bs => b.toNat + 256 * leNat bs

/-- The low bytes of a number. -/
def leBytes : Nat → Nat → List UInt8
  | 0, _     => []
  | n + 1, v => UInt8.ofNat (v % 256) :: leBytes n (v / 256)

/-- A bit of a list of bytes. -/
def bitAt (bs : List UInt8) (k : Nat) : Bool := (bs.getD (k / 8) 0).toNat.testBit (k % 8)

theorem length_leBytes (n v : Nat) : (leBytes n v).length = n := by
  induction n generalizing v with
  | zero => rfl
  | succ n ih => rw [leBytes, List.length_cons, ih]

theorem leNat_lt (bs : List UInt8) : leNat bs < 256 ^ bs.length := by
  induction bs with
  | nil => exact Nat.one_pos
  | cons b bs ih =>
    have hb := b.toNat_lt
    rw [leNat, List.length_cons, Nat.pow_succ]
    omega

theorem bitAt_nil (k : Nat) : bitAt [] k = false := by
  unfold bitAt
  exact Nat.zero_testBit _

theorem bitAt_cons (b : UInt8) (bs : List UInt8) (k : Nat) :
    bitAt (b :: bs) k = if k < 8 then b.toNat.testBit k else bitAt bs (k - 8) := by
  unfold bitAt
  by_cases h : k < 8
  · rw [if_pos h, Nat.div_eq_of_lt h, Nat.mod_eq_of_lt h]
    rfl
  · obtain ⟨j, rfl⟩ : ∃ j, k = j + 8 := ⟨k - 8, by omega⟩
    rw [if_neg h, Nat.add_sub_cancel, Nat.add_mod_right, Nat.add_div_right j (by decide)]
    rfl

theorem bitAt_append (as bs : List UInt8) (k : Nat) :
    bitAt (as ++ bs) k = if k < 8 * as.length then bitAt as k else bitAt bs (k - 8 * as.length) := by
  induction as generalizing k with
  | nil => simp
  | cons a as ih =>
    rw [List.cons_append, bitAt_cons, bitAt_cons, ih, List.length_cons]
    by_cases h : k < 8
    · rw [if_pos h, if_pos h, if_pos (by omega)]
    · rw [if_neg h, if_neg h]
      by_cases h2 : k - 8 < 8 * as.length
      · rw [if_pos h2, if_pos (by omega)]
      · rw [if_neg h2, if_neg (by omega)]
        congr 1
        omega

theorem bitAt_take {bs : List UInt8} {n k : Nat} (h : k < 8 * n) : bitAt (bs.take n) k = bitAt bs k := by
  unfold bitAt
  rw [List.getD_eq_getElem?_getD, List.getD_eq_getElem?_getD, List.getElem?_take_of_lt (by omega)]

theorem bitAt_drop (bs : List UInt8) (n k : Nat) : bitAt (bs.drop n) k = bitAt bs (8 * n + k) := by
  unfold bitAt
  rw [List.getD_eq_getElem?_getD, List.getD_eq_getElem?_getD, List.getElem?_drop]
  have h1 : n + k / 8 = (8 * n + k) / 8 := by omega
  have h2 : k % 8 = (8 * n + k) % 8 := by omega
  rw [h1, h2]

/-- **Numbers and bytes have the same bits.** -/
theorem testBit_leNat (bs : List UInt8) (k : Nat) : (leNat bs).testBit k = bitAt bs k := by
  induction bs generalizing k with
  | nil => rw [bitAt_nil]; exact Nat.zero_testBit k
  | cons b bs ih =>
    have hb : b.toNat < 2 ^ 8 := b.toNat_lt
    rw [leNat, Nat.add_comm, show (256 : Nat) = 2 ^ 8 from rfl, Nat.testBit_two_pow_mul_add _ hb, bitAt_cons, ih]

theorem bitAt_leBytes (n v k : Nat) : bitAt (leBytes n v) k = (decide (k < 8 * n) && v.testBit k) := by
  induction n generalizing v k with
  | zero => rw [leBytes, bitAt_nil]; simp
  | succ n ih =>
    rw [leBytes, bitAt_cons, ih]
    by_cases h : k < 8
    · have hv : (UInt8.ofNat (v % 256)).toNat = v % 2 ^ 8 := by
        rw [UInt8.toNat_ofNat']
        omega
      rw [if_pos h, hv, Nat.testBit_mod_two_pow, decide_eq_true h, decide_eq_true (by omega : k < 8 * (n + 1))]
    · rw [if_neg h, show (256 : Nat) = 2 ^ 8 from rfl, Nat.testBit_div_two_pow, show k - 8 + 8 = k by omega]
      congr 1
      rw [decide_eq_decide]
      omega

/-! ## Changing bytes in place -/

/-- New bytes over old ones from an offset on. -/
def overwrite (bs : List UInt8) (offset : Nat) (new : List UInt8) : List UInt8 :=
  bs.take offset ++ new ++ bs.drop (offset + new.length)

theorem length_overwrite {bs new : List UInt8} {offset : Nat} (h : offset + new.length ≤ bs.length) :
    (overwrite bs offset new).length = bs.length := by
  unfold overwrite
  rw [List.length_append, List.length_append, List.length_take, List.length_drop]
  omega

/-- **Frame.** Only the bits of the new bytes change. -/
theorem bitAt_overwrite {bs new : List UInt8} {offset : Nat} (h : offset + new.length ≤ bs.length) (k : Nat) :
    bitAt (overwrite bs offset new) k =
      if 8 * offset ≤ k ∧ k < 8 * (offset + new.length) then bitAt new (k - 8 * offset) else bitAt bs k := by
  have hlen : (bs.take offset).length = offset := by
    rw [List.length_take]
    omega
  unfold overwrite
  rw [bitAt_append, bitAt_append, List.length_append, hlen, bitAt_drop]
  by_cases h1 : k < 8 * offset
  · rw [if_pos (by omega), if_pos h1, if_neg (by omega), bitAt_take h1]
  · by_cases h2 : k < 8 * (offset + new.length)
    · rw [if_pos h2, if_neg h1, if_pos ⟨by omega, h2⟩]
    · rw [if_neg h2, if_neg (by omega)]
      congr 1
      omega

/-- Bytes that are found at an offset. -/
def Holds (bs : List UInt8) (offset : Nat) (piece : List UInt8) : Prop := piece <+: bs.drop offset

theorem Holds.take {bs piece : List UInt8} {offset : Nat} (h : Holds bs offset piece) :
    (bs.drop offset).take piece.length = piece :=
  (List.prefix_iff_eq_take.1 h).symm

theorem holds_overwrite {bs new : List UInt8} {offset : Nat} (h : offset ≤ bs.length) :
    Holds (overwrite bs offset new) offset new := by
  unfold Holds overwrite
  rw [List.append_assoc, List.drop_left' (List.length_take_of_le h)]
  exact List.prefix_append _ _

/-- **Frame.** What is found elsewhere stays. -/
theorem Holds.overwrite {bs piece new : List UInt8} {a offset : Nat} (h : Holds bs a piece) (hoffset : offset ≤ bs.length)
    (hdisjoint : a + piece.length ≤ offset ∨ offset + new.length ≤ a) : Holds (overwrite bs offset new) a piece := by
  unfold Holds LittleEndian.overwrite at *
  have hlength := List.length_take_of_le hoffset
  rcases hdisjoint with hfront | hbehind
  · rw [List.append_assoc, List.drop_append_of_le_length (by omega), List.drop_take]
    exact (List.prefix_take_iff.2 ⟨h, by omega⟩).trans (List.prefix_append _ _)
  · rw [List.drop_append, List.drop_eq_nil_of_le (by rw [List.length_append]; omega), List.nil_append, List.drop_drop,
      List.length_append, hlength, Nat.add_sub_cancel' hbehind]
    exact h

end LittleEndian

/-!
# Numbers in groups of seven bits

Unsigned LEB128 writes a number in groups of seven bits, least significant first; the top bit of a byte says that
more follow. `Leb128` is what a user of the format relies on, `Leb128.standard` the shortest encoding of 64-bit
numbers with it.
-/

/-- Unsigned LEB128 for numbers of 64 bits: writing one, how many bytes that takes, and reading one. -/
structure Leb128 where
  write : Nat → List UInt8
  size : Nat → Nat
  read : List UInt8 → Option (Nat × List UInt8)
  length_write : ∀ v < 2 ^ 64, (write v).length = size v
  read_write : ∀ v < 2 ^ 64, ∀ rest, read (write v ++ rest) = some (v, rest)
  read_lt : ∀ {bytes v rest}, read bytes = some (v, rest) → v < 2 ^ 64
  read_shorter : ∀ {bytes v rest}, read bytes = some (v, rest) → rest.length < bytes.length
  size_small : ∀ v < 128, size v = 1

namespace Leb128

theorem length_write_pos (leb : Leb128) {v : Nat} (h : v < 2 ^ 64) : 0 < (leb.write v).length := by
  have := leb.read_shorter (leb.read_write v h [])
  simpa using this

/-! ## The shortest encoding -/

/-- The groups of a number, at most `n` of them with the top bit set. -/
def writeGroups : Nat → Nat → List UInt8
  | 0, v     => [UInt8.ofNat v]
  | n + 1, v => if v < 128 then [UInt8.ofNat v] else UInt8.ofNat (v % 128 + 128) :: writeGroups n (v / 128)

/-- Read groups. Behind `n` of them only a single bit is left, and no group may follow. -/
def readGroups : Nat → List UInt8 → Option (Nat × List UInt8)
  | _, [] => none
  | 0, b :: rest => if b.toNat ≤ 1 then some (b.toNat, rest) else none
  | n + 1, b :: rest =>
    if b.toNat < 128 then some (b.toNat, rest)
    else (readGroups n rest).map (fun p => (b.toNat % 128 + 128 * p.1, p.2))

theorem readGroups_writeGroups {n v : Nat} (h : v < 2 * 128 ^ n) (rest : List UInt8) :
    readGroups n (writeGroups n v ++ rest) = some (v, rest) := by
  induction n generalizing v with
  | zero =>
    have hv : (UInt8.ofNat v).toNat = v := by
      rw [UInt8.toNat_ofNat']
      omega
    have hle : v ≤ 1 := by omega
    simp [writeGroups, readGroups, hv, if_pos hle]
  | succ n ih =>
    rw [writeGroups]
    split_ifs with hsmall
    · have hv : (UInt8.ofNat v).toNat = v := by
        rw [UInt8.toNat_ofNat']
        omega
      simp [readGroups, hv, if_pos hsmall]
    · have hb : (UInt8.ofNat (v % 128 + 128)).toNat = v % 128 + 128 := by
        rw [UInt8.toNat_ofNat']
        omega
      have hdiv : v / 128 < 2 * 128 ^ n := by
        omega
      have hmore : ¬v % 128 + 128 < 128 := by omega
      have hlow : (v % 128 + 128) % 128 + 128 * (v / 128) = v := by omega
      simp only [List.cons_append, readGroups, hb, if_neg hmore, ih hdiv, Option.map_some, hlow]

theorem readGroups_spec {n : Nat} {bytes : List UInt8} {v : Nat} {rest : List UInt8}
    (h : readGroups n bytes = some (v, rest)) : v < 2 * 128 ^ n ∧ rest.length < bytes.length := by
  induction n generalizing bytes v with
  | zero =>
    cases bytes with
    | nil => exact absurd h (by simp [readGroups])
    | cons b bytes =>
      rw [readGroups] at h
      split_ifs at h with hb
      obtain ⟨rfl, rfl⟩ := Prod.mk.inj (Option.some.inj h)
      exact ⟨by omega, by simp⟩
  | succ n ih =>
    cases bytes with
    | nil => exact absurd h (by simp [readGroups])
    | cons b bytes =>
      rw [readGroups] at h
      have hpos : 0 < 128 ^ n := Nat.pow_pos (by decide)
      split_ifs at h with hb
      · obtain ⟨rfl, rfl⟩ := Prod.mk.inj (Option.some.inj h)
        exact ⟨by omega, by simp⟩
      · obtain ⟨⟨high, rest'⟩, hread, heq⟩ := Option.map_eq_some_iff.mp h
        obtain ⟨rfl, rfl⟩ := Prod.mk.inj heq
        obtain ⟨hhigh, hlength⟩ := ih hread
        exact ⟨by simp only; omega, by simp only [List.length_cons] at hlength ⊢; omega⟩

/-- The encoding without a group more than needed. -/
def standard : Leb128 where
  write v := writeGroups 9 v
  size v := (writeGroups 9 v).length
  read := readGroups 9
  length_write _ _ := rfl
  read_write v hv rest := readGroups_writeGroups (by simpa using hv) rest
  read_lt h := by simpa using (readGroups_spec h).1
  read_shorter h := (readGroups_spec h).2
  size_small v hv := by
    rw [writeGroups, if_pos hv]
    rfl

end Leb128

/-!
# Bytes of characters, and characters of any bytes

`decodeLossy` reads any bytes: a part that is no character stands for one replacement character. What has been
written as characters is read back as it was (`decodeLossy_encode`), and without zero bytes there are no NUL
characters, nor the other way round.
-/

namespace Utf8

def encode (s : List Char) : List UInt8 := s.flatMap String.utf8EncodeChar

def decodeChar? (bytes : List UInt8) : Option Char := bytes.toByteArray.utf8DecodeChar? 0

def isContinuation (b : UInt8) : Bool := 0x80 ≤ b && b < 0xC0

/-- The bytes that may follow the first one of a character with three or four bytes. -/
def isSecond (first b : UInt8) : Bool :=
  if first = 0xE0 then 0xA0 ≤ b && b < 0xC0
  else if first = 0xED then 0x80 ≤ b && b < 0xA0
  else if first = 0xF0 then 0x90 ≤ b && b < 0xC0
  else if first = 0xF4 then 0x80 ≤ b && b < 0x90
  else isContinuation b

/-- How many bytes at the front, which are no character, stand for one replacement character: the longest front of
a character, and at least one byte. -/
def invalidLength (bytes : List UInt8) : Nat :=
  match bytes with
  | first :: second :: rest =>
    if 0xE0 ≤ first && first < 0xF5 && isSecond first second then
      if 0xF0 ≤ first && rest.head?.any isContinuation then 3 else 2
    else 1
  | _ => 1

/-- Read characters, at most `n` of them. -/
def decodeLossyUpTo : Nat → List UInt8 → List Char
  | 0, _ => []
  | _ + 1, [] => []
  | n + 1, bytes =>
    match decodeChar? bytes with
    | some c => c :: decodeLossyUpTo n (bytes.drop c.utf8Size)
    | none   => '\uFFFD' :: decodeLossyUpTo n (bytes.drop (invalidLength bytes))

/-- `to_string_lossy` -/
def decodeLossy (bytes : List UInt8) : List Char := decodeLossyUpTo bytes.length bytes

variable {c : Char} {s : List Char} {bytes : List UInt8} {n : Nat}

@[simp] theorem encode_nil : encode [] = [] := rfl

@[simp] theorem encode_cons : encode (c :: s) = String.utf8EncodeChar c ++ encode s := List.flatMap_cons

/-! ## Reading back -/

theorem decodeChar?_append (c : Char) (bytes : List UInt8) :
    decodeChar? (String.utf8EncodeChar c ++ bytes) = some c := by
  unfold decodeChar?
  rw [List.toByteArray_append]
  exact ByteArray.utf8DecodeChar?_utf8EncodeChar_append

theorem decodeLossyUpTo_encode (s : List Char) :
    ∀ n, (encode s).length ≤ n → decodeLossyUpTo n (encode s) = s := by
  induction s with
  | nil =>
    intro n _
    cases n <;> rfl
  | cons c s ih =>
    intro n hn
    have hsize := c.utf8Size_pos
    rw [encode_cons, List.length_append, String.length_utf8EncodeChar] at hn
    cases n with
    | zero   => omega
    | succ n =>
      have hchar := decodeChar?_append c (encode s)
      have hdrop : (String.utf8EncodeChar c ++ encode s).drop c.utf8Size = encode s := by
        rw [← String.length_utf8EncodeChar c, List.drop_left]
      rw [encode_cons]
      obtain ⟨b, bytes, hbytes⟩ := List.exists_cons_of_ne_nil
        (List.append_ne_nil_of_left_ne_nil String.utf8EncodeChar_ne_nil (encode s))
      rw [hbytes] at hchar hdrop ⊢
      simp only [decodeLossyUpTo, hchar, hdrop]
      rw [ih n (by omega)]

/-- **Characters are read back as they were.** -/
theorem decodeLossy_encode (s : List Char) : decodeLossy (encode s) = s :=
  decodeLossyUpTo_encode s _ (Nat.le_refl _)

theorem encode_inj {s' : List Char} : encode s = encode s' ↔ s = s' := by
  refine ⟨fun h => ?_, congrArg encode⟩
  rw [← decodeLossy_encode s, h, decodeLossy_encode]

/-! ## Bytes above those of ASCII -/

/-- A character is one byte below `0x80`, or all its bytes are from there on. -/
theorem utf8EncodeChar_cases (c : Char) :
    (c.toNat < 128 ∧ String.utf8EncodeChar c = [UInt8.ofNat c.toNat]) ∨ ∀ b ∈ String.utf8EncodeChar c, 0x80 ≤ b := by
  have hhigh : ∀ {n : Nat}, 128 ≤ n → n < 256 → 0x80 ≤ UInt8.ofNat n := by
    intro n h h'
    rw [UInt8.le_iff_toNat_le, UInt8.toNat_ofNat_of_lt' h']
    exact h
  by_cases hsmall : c.toNat ≤ 127
  · exact .inl ⟨Nat.lt_succ_of_le hsmall, if_pos hsmall⟩
  · right
    unfold String.utf8EncodeChar
    simp only [show ¬c.val.toNat ≤ 127 from hsmall, if_false]
    split_ifs
    · simp only [List.forall_mem_cons]
      exact ⟨hhigh (by omega) (by omega), hhigh (by omega) (by omega), fun _ h => absurd h List.not_mem_nil⟩
    · simp only [List.forall_mem_cons]
      exact ⟨hhigh (by omega) (by omega), hhigh (by omega) (by omega), hhigh (by omega) (by omega),
        fun _ h => absurd h List.not_mem_nil⟩
    · simp only [List.forall_mem_cons]
      exact ⟨hhigh (by omega) (by omega), hhigh (by omega) (by omega), hhigh (by omega) (by omega),
        hhigh (by omega) (by omega), fun _ h => absurd h List.not_mem_nil⟩
/-! ## NUL -/

/-- The bytes of a character other than NUL: a single one is the character, and several have their top bits set. -/
theorem zero_notMem_utf8EncodeChar (h : c ≠ '\x00') : 0 ∉ String.utf8EncodeChar c := by
  have htop : ∀ b : UInt8, b ||| 0x80 ≠ 0 ∧ b ||| 0xC0 ≠ 0 ∧ b ||| 0xE0 ≠ 0 ∧ b ||| 0xF0 ≠ 0 := by
    intro b
    refine ⟨?_, ?_, ?_, ?_⟩ <;>
      · intro hzero
        have hbit := congrArg (fun b => b.toBitVec.getLsbD 7) hzero
        simp at hbit
  intro hzero
  match hsize : c.utf8Size, c.utf8Size_pos, c.utf8Size_le_four with
  | 1, _, _ =>
    rw [String.utf8EncodeChar_eq_singleton hsize, List.mem_singleton] at hzero
    have hsmall := UInt32.le_iff_toNat_le.mp (Char.utf8Size_eq_one_iff.mp hsize)
    have hmod : c.val.toNat % 2 ^ 8 = 0 := by
      rw [← UInt32.toNat_toUInt8, ← hzero]
      rfl
    have hzero : c.val.toNat = 0 := by
      have hbound : (127 : UInt32).toNat = 127 := rfl
      omega
    exact h (Char.val_inj.mp (UInt32.toNat_inj.mp hzero))
  | 2, _, _ =>
    rw [String.utf8EncodeChar_eq_cons_cons hsize] at hzero
    simp only [List.mem_cons, List.not_mem_nil, or_false, eq_comm (a := (0 : UInt8))] at hzero
    rcases hzero with hzero | hzero
    · exact (htop _).2.1 hzero
    · exact (htop _).1 hzero
  | 3, _, _ =>
    rw [String.utf8EncodeChar_eq_cons_cons_cons hsize] at hzero
    simp only [List.mem_cons, List.not_mem_nil, or_false, eq_comm (a := (0 : UInt8))] at hzero
    rcases hzero with hzero | hzero | hzero
    · exact (htop _).2.2.1 hzero
    · exact (htop _).1 hzero
    · exact (htop _).1 hzero
  | 4, _, _ =>
    rw [String.utf8EncodeChar_eq_cons_cons_cons_cons hsize] at hzero
    simp only [List.mem_cons, List.not_mem_nil, or_false, eq_comm (a := (0 : UInt8))] at hzero
    rcases hzero with hzero | hzero | hzero | hzero
    · exact (htop _).2.2.2 hzero
    · exact (htop _).1 hzero
    · exact (htop _).1 hzero
    · exact (htop _).1 hzero

theorem zero_notMem_encode (h : '\x00' ∉ s) : 0 ∉ encode s := by
  unfold encode
  rw [List.mem_flatMap]
  rintro ⟨c, hc, hzero⟩
  exact zero_notMem_utf8EncodeChar (fun heq => h (heq ▸ hc)) hzero

theorem nul_notMem_decodeLossyUpTo (h : 0 ∉ bytes) : '\x00' ∉ decodeLossyUpTo n bytes := by
  induction n generalizing bytes with
  | zero => exact List.not_mem_nil
  | succ n ih =>
    cases bytes with
    | nil => exact List.not_mem_nil
    | cons b bytes =>
      have hrest : ∀ k, '\x00' ∉ decodeLossyUpTo n ((b :: bytes).drop k) :=
        fun k => ih (fun hzero => h (List.mem_of_mem_drop hzero))
      cases hchar : decodeChar? (b :: bytes) with
      | none =>
        simp only [decodeLossyUpTo, hchar]
        rw [List.mem_cons, not_or]
        exact ⟨by decide, hrest _⟩
      | some c =>
        simp only [decodeLossyUpTo, hchar]
        rw [List.mem_cons, not_or]
        refine ⟨?_, hrest _⟩
        -- NUL is read from a zero byte only
        rintro rfl
        have hbytes := congrArg (fun a => a.data.toList) (ByteArray.eq_of_utf8DecodeChar?_eq_some hchar)
        rw [ByteArray.data_append, Array.toList_append, List.toList_data_toByteArray,
          List.toList_data_toByteArray] at hbytes
        rw [hbytes] at h
        exact h (List.mem_append_left _ (by decide))

theorem nul_notMem_decodeLossy (h : 0 ∉ bytes) : '\x00' ∉ decodeLossy bytes := nul_notMem_decodeLossyUpTo h

end Utf8
