import Mathlib.Algebra.BigOperators.Group.List.Basic
import Reld.Lib.Encodings

/-!
# `Lib.Records` — records of little-endian fields

A record is a list of fields, each with its width and its value, that are laid out one behind the other. A field is
read back at the sum of the widths in front of it, whatever follows the record (`read_encode`).
-/

namespace Records

open LittleEndian

/-- A width in bytes, and a value that is cut off to it. -/
abbrev Field := Nat × Nat

/-- The bytes of a record. -/
def encode (fields : List Field) : List UInt8 := fields.flatMap fun field => leBytes field.1 field.2

/-- The width of a record. -/
def width (fields : List Field) : Nat := (fields.map (·.1)).sum

/-- A number of some bytes at an offset. -/
def read (bytes : List UInt8) (offset len : Nat) : Option Nat :=
  if offset + len ≤ bytes.length then some (leNat ((bytes.drop offset).take len)) else none

variable {fields fields' : List Field} {front behind bytes : List UInt8} {w v k offset len : Nat}

@[simp] theorem encode_nil : encode [] = [] := rfl

@[simp] theorem encode_cons (field : Field) (fields : List Field) :
    encode (field :: fields) = leBytes field.1 field.2 ++ encode fields := List.flatMap_cons

@[simp] theorem encode_append : encode (fields ++ fields') = encode fields ++ encode fields' := List.flatMap_append

@[simp] theorem width_nil : width [] = 0 := rfl

@[simp] theorem width_cons (field : Field) (fields : List Field) : width (field :: fields) = field.1 + width fields := by
  simp [width]

@[simp] theorem width_append : width (fields ++ fields') = width fields + width fields' := by
  simp [width]

@[simp] theorem length_encode (fields : List Field) : (encode fields).length = width fields := by
  induction fields with
  | nil => rfl
  | cons field fields ih => rw [encode_cons, List.length_append, length_leBytes, ih, width_cons]

theorem leNat_leBytes (n v : Nat) : leNat (leBytes n v) = v % 256 ^ n := by
  induction n generalizing v with
  | zero => simp [leBytes, leNat, Nat.mod_one]
  | succ n ih =>
    have hbyte : (UInt8.ofNat (v % 256)).toNat = v % 256 := by
      rw [UInt8.toNat_ofNat']
      omega
    rw [leBytes, leNat, hbyte, ih, Nat.pow_succ', Nat.mod_mul]

/-- What follows does not matter. -/
theorem read_append (h : offset + len ≤ bytes.length) : read (bytes ++ behind) offset len = read bytes offset len := by
  unfold read
  rw [if_pos h, if_pos (by rw [List.length_append]; omega), List.drop_append_of_le_length (by omega),
    List.take_append_of_le_length (by rw [List.length_drop]; omega)]

/-- What comes in front moves it. -/
theorem read_behind (front bytes : List UInt8) (offset len : Nat) :
    read (front ++ bytes) (front.length + offset) len = read bytes offset len := by
  unfold read
  rw [List.length_append, Nat.add_assoc]
  simp only [Nat.add_le_add_iff_left]
  rw [List.drop_append, List.drop_eq_nil_of_le (Nat.le_add_right _ _), List.nil_append, Nat.add_sub_cancel_left]

theorem read_leBytes (w v : Nat) (behind : List UInt8) : read (leBytes w v ++ behind) 0 w = some (v % 256 ^ w) := by
  rw [read_append (by rw [length_leBytes, Nat.zero_add]), read, if_pos (by rw [length_leBytes, Nat.zero_add]),
    List.drop_zero, List.take_of_length_le (Nat.le_of_eq (length_leBytes w v)), leNat_leBytes]

/-- **A field is read back behind the widths of those in front of it.** -/
theorem read_encode (h : fields[k]? = some (w, v)) (behind : List UInt8) :
    read (encode fields ++ behind) (width (fields.take k)) w = some (v % 256 ^ w) := by
  induction fields generalizing k with
  | nil => cases h
  | cons field fields ih =>
    rw [encode_cons, List.append_assoc]
    cases k with
    | zero =>
      rw [List.getElem?_cons_zero, Option.some.injEq] at h
      subst h
      exact read_leBytes w v _
    | succ k =>
      rw [List.take_succ_cons, width_cons]
      have hmoved := read_behind (leBytes field.1 field.2) (encode fields ++ behind) (width (fields.take k)) w
      rw [length_leBytes] at hmoved
      rw [hmoved, ih h]

/-- A number of some bytes is below what they stand for. -/
theorem read_lt (h : Records.read bytes offset len = some v) : v < 256 ^ len := by
  unfold Records.read at h
  split at h
  · obtain rfl := Option.some.inj h
    have hlength : ((bytes.drop offset).take len).length = len := by
      rw [List.length_take, List.length_drop]
      omega
    have hlt := leNat_lt ((bytes.drop offset).take len)
    rwa [hlength] at hlt
  · cases h

theorem width_map_const (f : Nat → Nat) (w : Nat) (xs : List Nat) : width (xs.map fun x => (w, f x)) = w * xs.length := by
  induction xs with
  | nil => rfl
  | cons x xs ih => rw [List.map_cons, width_cons, ih, List.length_cons, Nat.mul_succ, Nat.add_comm]

end Records

/-!
# Records that say how far it is to the next one

A record holds the distance to the next one, and 0 if there is none. Whoever walks from the first record along these
distances (`walk`) visits each record once, in order, if they are laid out one behind the other and each distance is the
size of the record (`Linked`, `walk_eq`).
-/

namespace RelativeList

variable {next : Nat → Option Nat} {start : Nat} {sizes : List Nat}

/-- The records that a walk visits, with a bound on their number. -/
def walk (next : Nat → Option Nat) : Nat → Nat → Option (List Nat)
  | 0, _ => none
  | fuel + 1, offset =>
    match next offset with
    | none            => none
    | some 0          => some [offset]
    | some (dist + 1) => (walk next fuel (offset + (dist + 1))).map (offset :: ·)

/-- Where records of the given sizes are. -/
def offsets : Nat → List Nat → List Nat
  | _, [] => []
  | start, s :: rest => start :: offsets (start + s) rest

/-- The distance of each record is its size, and that of the last one is 0. -/
def Linked (next : Nat → Option Nat) : Nat → List Nat → Prop
  | _, [] => True
  | start, s :: rest => next start = some (if rest = [] then 0 else s) ∧ Linked next (start + s) rest

/-- **A walk visits each record once**, in order. -/
theorem walk_eq (h : Linked next start sizes) (hne : sizes ≠ []) (hpos : ∀ s ∈ sizes, 0 < s) {fuel : Nat}
    (hfuel : sizes.length ≤ fuel) : walk next fuel start = some (offsets start sizes) := by
  induction sizes generalizing start fuel with
  | nil => exact absurd rfl hne
  | cons s rest ih =>
    obtain ⟨hnext, hrest⟩ := h
    obtain ⟨fuel, rfl⟩ : ∃ f, fuel = f + 1 := ⟨fuel - 1, by rw [List.length_cons] at hfuel; omega⟩
    unfold walk
    rw [hnext]
    by_cases hlast : rest = []
    · subst hlast
      rfl
    · obtain ⟨dist, rfl⟩ : ∃ d, s = d + 1 := ⟨s - 1, by have := hpos s List.mem_cons_self; omega⟩
      rw [if_neg hlast]
      simp only
      rw [ih hrest hlast (fun s hs => hpos s (List.mem_cons_of_mem _ hs)) (Nat.le_of_succ_le_succ hfuel)]
      rfl

end RelativeList
