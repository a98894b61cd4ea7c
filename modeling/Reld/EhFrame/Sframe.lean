import Mathlib.Data.List.Sort
import Reld.Elf.Symbol
import Reld.Lib.Records
import Reld.Lib.SortedTable
import Reld.Lib.Traverse

/-!
# `EhFrame.Sframe` — the functions of `.sframe`

An input section has a header, a descriptor for each function, and the rows that the descriptors point to.
`sort_sframe_section` leaves one header with the descriptors of all inputs, sorted by the addresses of the functions.
What depends on places is written anew, so that a reader of the output finds the functions of all inputs with their rows.
-/

namespace Reld.Sframe

open LittleEndian

inductive SframeError where
  | bail (message : String)
  /-- A panic. -/
  | outOfBounds

/-- What is checked is known afterwards. -/
def check (p : Prop) [Decidable p] (error : SframeError) : Except SframeError (PLift p) :=
  if h : p then pure ⟨h⟩ else throw error

def sframeMagic : BitVec 16 := 0xdee2
def sframeVersion2 : BitVec 8 := 2
def flagFdeSorted : BitVec 8 := 0x1
def flagFramePointer : BitVec 8 := 0x2
def flagFuncStartPcrel : BitVec 8 := 0x4
def flagAArch64Pauth : BitVec 8 := 0x8
def headerSize : Nat := 0x1c
def fdeSize : Nat := 20

/-! ## Headers -/

structure Header where
  magic : BitVec 16
  version : BitVec 8
  flags : BitVec 8
  abiArch : BitVec 8
  cfaFixedFpOffset : BitVec 8
  cfaFixedRaOffset : BitVec 8
  auxLen : BitVec 8
  numFdes : BitVec 32
  numFres : BitVec 32
  freLen : BitVec 32
  fdeStartOffset : BitVec 32
  freStartOffset : BitVec 32
deriving Inhabited

namespace Header

def field (bits : Nat) (data : Bytes) (offset : Nat) : Option (BitVec bits) :=
  (Records.read data offset (bits / 8)).map (BitVec.ofNat bits)

def read (data : Bytes) : Option Header := do
  return { magic := ← field 16 data 0, version := ← field 8 data 2, flags := ← field 8 data 3, abiArch := ← field 8 data 4,
           cfaFixedFpOffset := ← field 8 data 5, cfaFixedRaOffset := ← field 8 data 6, auxLen := ← field 8 data 7,
           numFdes := ← field 32 data 8, numFres := ← field 32 data 12, freLen := ← field 32 data 16,
           fdeStartOffset := ← field 32 data 20, freStartOffset := ← field 32 data 24 }

/-- `Header::parse` at an offset of the section; `none` is a version that is not supported. -/
def parse (bytes : Bytes) (offset : Nat) : Except SframeError (Option Header) :=
  match read (bytes.drop offset) with
  | none => .error .outOfBounds
  | some header =>
    let magic := String.ofList (Nat.toDigits 16 header.magic.toNat)
    if header.magic ≠ sframeMagic then
      .error (.bail s!"Failed to parse SFrame header at offset {offset}: Invalid SFrame magic 0x{magic}")
    else if header.version ≠ sframeVersion2 then .ok none
    else .ok (some header)

def fields (header : Header) : List Records.Field :=
  [(2, header.magic.toNat), (1, header.version.toNat), (1, header.flags.toNat), (1, header.abiArch.toNat),
    (1, header.cfaFixedFpOffset.toNat), (1, header.cfaFixedRaOffset.toNat), (1, header.auxLen.toNat),
    (4, header.numFdes.toNat), (4, header.numFres.toNat), (4, header.freLen.toNat), (4, header.fdeStartOffset.toNat),
    (4, header.freStartOffset.toNat)]

def write (header : Header) : Bytes := Records.encode header.fields

def pcRel (header : Header) : Bool := header.flags &&& flagFuncStartPcrel ≠ 0

/-- `header_end_offset` -/
def endOffset (header : Header) : Nat := headerSize + header.auxLen.toNat

def fdeStart (header : Header) (offset : Nat) : Nat := offset + header.endOffset + header.fdeStartOffset.toNat

def freStart (header : Header) (offset : Nat) : Nat := offset + header.endOffset + header.freStartOffset.toNat

/-- The first header is the one of the output; later ones change its flags. -/
def merge (header : Header) : Option Header → Header
  | none => header
  | some output =>
    let flags := if header.flags &&& flagFramePointer = 0 then output.flags &&& ~~~flagFramePointer else output.flags
    { output with flags := if header.flags &&& flagAArch64Pauth ≠ 0 then flags ||| flagAArch64Pauth else flags }

end Header

/-! ## Reading the inputs -/

def slice (bytes : Bytes) (start len : Nat) : Bytes := (bytes.drop start).take len

theorem length_slice {bytes : Bytes} {start len : Nat} (h : start + len ≤ bytes.length) :
    (slice bytes start len).length = len := by
  rw [slice, List.length_take, List.length_drop]
  omega

def readU32 (bytes : Bytes) (offset : Nat) : Nat := leNat (slice bytes offset 4)

def readI32 (bytes : Bytes) (offset : Nat) : Int := (BitVec.ofNat 32 (readU32 bytes offset)).toInt

structure Entry where
  bytes : { bytes : Bytes // bytes.length = fdeSize }
  funcAddr : Int
  freBytes : Bytes

/-- `func_addr`, of a descriptor at `place`. -/
def funcAddr (base : Nat) (pcRel : Bool) (place : Nat) (fde : Bytes) : Int :=
  if pcRel then base + place + readI32 fde 0 else base + readI32 fde 0

/-- One descriptor; its rows reach up to the next offset at which rows start. -/
def readEntry (bytes : Bytes) (base : Nat) (pcRel : Bool) (freStart stop : Nat) (freOffsets : List Nat) (place : Nat) :
    Except SframeError Entry := do
  let ⟨h⟩ ← check (place + fdeSize ≤ bytes.length) .outOfBounds
  let fde := slice bytes place fdeSize
  let currFreOffset := readU32 fde 8
  match freOffsets.idxOf? currFreOffset with
  | none => throw (.bail "FRE offset not found in sorted list")
  | some idx =>
    match freOffsets[idx + 1]? with
    | none => throw (.bail "FRE offset index out of bounds")
    | some nextFreOffset =>
      let start := freStart + currFreOffset
      let currFreLen := nextFreOffset - currFreOffset
      let _ ← check (start + currFreLen ≤ stop) (.bail "SFrame FRE data truncated")
      let _ ← check (start + currFreLen ≤ bytes.length) .outOfBounds
      return ⟨⟨fde, length_slice h⟩, funcAddr base pcRel place fde,
        slice bytes start currFreLen⟩

/-- The places of the descriptors. -/
def places (header : Header) (offset : Nat) : List Nat :=
  (List.range header.numFdes.toNat).map (header.fdeStart offset + · * fdeSize)

/-- The descriptors of the input from `offset` to `stop`. -/
def readEntries (bytes : Bytes) (base offset stop : Nat) (header : Header) : Except SframeError (List Entry) := do
  let _ ← check (header.fdeStart offset + fdeSize * header.numFdes.toNat ≤ stop) (.bail "SFrame FDE array truncated")
  let freOffsets := (places header offset).map fun place => readU32 bytes (place + 8)
  let _ ← check (∀ place ∈ places header offset, place + 12 ≤ bytes.length) .outOfBounds
  let _ ← check (header.freStart offset ≤ stop) (.bail "Invalid SFrame FRE start")
  let maxFreOffset := (stop - header.freStart offset) % 2 ^ 32
  let freOffsets := ((freOffsets ++ [maxFreOffset]).insertionSort (· ≤ ·)).dedup
  (places header offset).mapM (readEntry bytes base header.pcRel (header.freStart offset) stop freOffsets)

/-- What the loop over the inputs carries. -/
structure Collected where
  entries : List Entry := []
  output : Option Header := none
  totalNumFres : Nat := 0

/-- The loop over the inputs; `none` disables the sort. -/
def collect (bytes : Bytes) (base : Nat) : List (Nat × Nat) → Collected → Except SframeError (Option Collected)
  | [], collected => return some collected
  | (offset, stop) :: ranges, collected =>
    if stop - offset < headerSize then collect bytes base ranges collected
    else do
      match ← Header.parse bytes offset with
      | none => return none
      | some header =>
        let entries ← readEntries bytes base offset stop header
        collect bytes base ranges
          { entries := collected.entries ++ entries, output := some (header.merge collected.output),
            totalNumFres := collected.totalNumFres + header.numFres.toNat }

/-! ## Writing the output -/

def Entry.newValue (entry : Entry) (base : Nat) (pcRel : Bool) (place : Nat) : Int :=
  if pcRel then entry.funcAddr - (base + place) else entry.funcAddr - base

/-- A descriptor for its new place, with its rows at their new offset. -/
def Entry.fde (entry : Entry) (base : Nat) (pcRel : Bool) (place freOffset : Nat) : Except SframeError Bytes := do
  let newValue := entry.newValue base pcRel place
  let _ ← check (-2 ^ 31 ≤ newValue ∧ newValue < 2 ^ 31)
    (.bail "Function start address out of 32-bit range for SFrame entry")
  let value := BitVec.ofInt 32 newValue
  return overwrite (overwrite entry.bytes.1 0 (leBytes 4 value.toNat)) 8 (leBytes 4 freOffset)

/-- The loop over the sorted entries, and the padding behind the rows of the last one. There is room for all of them. -/
def writeEntries (base : Nat) (pcRel : Bool) (fdeStart freStart : Nat) :
    Nat → Nat → List Entry → Bytes → Except SframeError Bytes
  | _, freOffset, [], bytes =>
    .ok (overwrite bytes (freStart + freOffset) (List.replicate (bytes.length - (freStart + freOffset)) 0))
  | index, freOffset, entry :: entries, bytes => do
    let fde ← entry.fde base pcRel (fdeStart + index * fdeSize) freOffset
    let bytes := overwrite bytes (fdeStart + index * fdeSize) fde
    writeEntries base pcRel fdeStart freStart (index + 1) (freOffset + entry.freBytes.length) entries
      (overwrite bytes (freStart + freOffset) entry.freBytes)

def totalFreSize (entries : List Entry) : Nat := (entries.map (·.freBytes.length)).sum

def outputHeader (collected : Collected) : Header :=
  { collected.output.getD default with
    magic := sframeMagic
    version := sframeVersion2
    flags := (collected.output.getD default).flags ||| flagFdeSorted
    numFdes := BitVec.ofNat 32 collected.entries.length
    numFres := BitVec.ofNat 32 collected.totalNumFres
    freLen := BitVec.ofNat 32 (totalFreSize collected.entries)
    fdeStartOffset := 0
    freStartOffset := BitVec.ofNat 32 (collected.entries.length * fdeSize) }

def sortSframeSection (bytes : Bytes) (base : Nat) (ranges : List (Nat × Nat)) : Except SframeError Bytes :=
  if bytes = [] then return bytes
  else do
    match ← collect bytes base ranges {} with
    | none => return bytes
    | some collected =>
      if collected.entries = [] then return bytes
      else do
        let header := outputHeader collected
        let freStart := header.endOffset + collected.entries.length * fdeSize
        let _ ← check (freStart + totalFreSize collected.entries ≤ bytes.length)
          (.bail "Merged SFrame section too large")
        writeEntries base header.pcRel header.endOffset freStart 0 0 (SortedTable.sort (·.funcAddr) collected.entries)
          (overwrite bytes 0 header.write)

/-! ## What a reader finds -/

/-- A function, as a reader of the format finds it: its attributes do not depend on places, and its rows start those
bytes. -/
structure Function where
  address : Int
  attributes : Bytes
  rows : Bytes

def attributes (fde : Bytes) : Bytes := (fde.drop 4).take 4 ++ fde.drop 12

/-- The function whose descriptor is at `place`. -/
def functionAt (bytes : Bytes) (base : Nat) (pcRel : Bool) (freStart place : Nat) : Function :=
  let fde := slice bytes place fdeSize
  ⟨funcAddr base pcRel place fde, attributes fde, bytes.drop (freStart + readU32 fde 8)⟩

def functions (bytes : Bytes) (base : Nat) (header : Header) (offset : Nat) : List Function :=
  (places header offset).map (functionAt bytes base header.pcRel (header.freStart offset))

/-- The functions of all inputs. -/
def inputFunctions (bytes : Bytes) (base : Nat) (ranges : List (Nat × Nat)) : List Function :=
  ranges.flatMap fun range =>
    if range.2 - range.1 < headerSize then []
    else match Header.parse bytes range.1 with
      | .ok (some header) => functions bytes base header range.1
      | _ => []

/-- An entry stands for a function: it has some of its rows, from their start on. -/
structure Denotes (f : Function) (entry : Entry) : Prop where
  address : f.address = entry.funcAddr
  attributes : f.attributes = Sframe.attributes entry.bytes.1
  rows : entry.freBytes <+: f.rows

variable {bytes out : Bytes} {base : Nat} {pcRel : Bool} {entry : Entry} {entries : List Entry} {freStart place : Nat}

/-- A header is read back. -/
theorem Header.read_write (header : Header) (rest : Bytes) : read (header.write ++ rest) = some header := by
  have hfield {bits offset : Nat} {v : BitVec bits} {f : BitVec bits → Option Header} (k : Nat)
      (h : header.fields[k]? = some (bits / 8, v.toNat)) (hoffset : Records.width (header.fields.take k) = offset)
      (hbits : 256 ^ (bits / 8) = 2 ^ bits) : (field bits (header.write ++ rest) offset >>= f) = f v := by
    rw [← hoffset, field, write, Records.read_encode h, Option.map_some, hbits, Nat.mod_eq_of_lt v.isLt, BitVec.ofNat_toNat,
      BitVec.setWidth_eq]
    rfl
  exact (hfield 0 rfl rfl rfl).trans <| (hfield 1 rfl rfl rfl).trans <| (hfield 2 rfl rfl rfl).trans <|
    (hfield 3 rfl rfl rfl).trans <| (hfield 4 rfl rfl rfl).trans <| (hfield 5 rfl rfl rfl).trans <|
    (hfield 6 rfl rfl rfl).trans <| (hfield 7 rfl rfl rfl).trans <| (hfield 8 rfl rfl rfl).trans <|
    (hfield 9 rfl rfl rfl).trans <| (hfield 10 rfl rfl rfl).trans <| hfield 11 rfl rfl rfl

/-- What is read denotes the function at its place. -/
theorem denotes_of_readEntry {stop : Nat} {freOffsets : List Nat}
    (h : readEntry bytes base pcRel freStart stop freOffsets place = .ok entry) :
    Denotes (functionAt bytes base pcRel freStart place) entry := by
  obtain ⟨_, -, h⟩ := Traverse.bind_eq_ok.1 h
  dsimp only at h
  split at h
  next => cases h
  next =>
    split at h
    next => cases h
    next =>
      obtain ⟨_, -, h⟩ := Traverse.bind_eq_ok.1 h
      obtain ⟨_, -, h⟩ := Traverse.bind_eq_ok.1 h
      obtain rfl := Except.ok.inj h
      exact ⟨rfl, rfl, List.take_prefix _ _⟩

/-- The entries of all inputs. -/
theorem denotes_of_collect {ranges : List (Nat × Nat)} {collected final : Collected}
    (h : collect bytes base ranges collected = .ok (some final)) :
    ∃ entries, final.entries = collected.entries ++ entries ∧
      List.Forall₂ Denotes (inputFunctions bytes base ranges) entries := by
  induction ranges generalizing collected with
  | nil =>
    obtain rfl := Option.some.inj (Except.ok.inj h)
    exact ⟨[], (List.append_nil _).symm, .nil⟩
  | cons range ranges ih =>
    unfold inputFunctions
    rw [List.flatMap_cons]
    unfold collect at h
    split at h
    next hshort =>
      rw [if_pos hshort]
      exact ih h
    next hlong =>
      rw [if_neg hlong]
      obtain ⟨header, hheader, hrest⟩ := Traverse.bind_eq_ok.1 h
      rw [hheader]
      cases header with
      | none => cases hrest
      | some header =>
        obtain ⟨entries, hentries, hrest⟩ := Traverse.bind_eq_ok.1 hrest
        obtain ⟨others, hfinal, hothers⟩ := ih hrest
        refine ⟨entries ++ others, by rw [hfinal, List.append_assoc], List.rel_append ?_ hothers⟩
        obtain ⟨_, -, hentries⟩ := Traverse.bind_eq_ok.1 hentries
        obtain ⟨_, -, hentries⟩ := Traverse.bind_eq_ok.1 hentries
        obtain ⟨_, -, hentries⟩ := Traverse.bind_eq_ok.1 hentries
        apply List.forall₂_map_left_iff.2
        exact (Traverse.mapM_eq_ok.1 hentries).imp fun place entry => denotes_of_readEntry

/-- Two words of a descriptor are written anew. -/
theorem rewritten {fde x y : Bytes} (hfde : fde.length = 20) (hx : x.length = 4) (hy : y.length = 4) :
    let new := overwrite (overwrite fde 0 x) 8 y
    new.length = 20 ∧ slice new 0 4 = x ∧ slice new 8 4 = y ∧ attributes new = attributes fde := by
  simp [overwrite, slice, attributes, hfde, hx, hy, List.drop_append, List.take_append, List.take_of_length_le,
    List.drop_of_length_le]

/-- What is written denotes the function. -/
theorem denotes_of_fde {fde : Bytes} {freOffset : Nat} (h : entry.fde base pcRel place freOffset = .ok fde)
    (hlt : freOffset < 2 ^ 32) : fde.length = fdeSize ∧ ∀ freStart out, Holds out place fde →
      Holds out (freStart + freOffset) entry.freBytes → Denotes (functionAt out base pcRel freStart place) entry := by
  obtain ⟨⟨hrange⟩, -, h⟩ := Traverse.bind_eq_ok.1 h
  obtain rfl := Except.ok.inj h
  generalize hvalue : BitVec.ofInt 32 (entry.newValue base pcRel place) = value
  obtain ⟨hlength, haddress, hoffset, hattributes⟩ :=
    rewritten entry.bytes.2 (length_leBytes 4 value.toNat) (length_leBytes 4 freOffset)
  refine ⟨hlength, fun freStart out hplace hrows => ?_⟩
  have hread : slice out place fdeSize = _ := hlength ▸ hplace.take
  rw [functionAt, hread]
  refine ⟨?_, hattributes, ?_⟩
  · show funcAddr base pcRel place _ = entry.funcAddr
    rw [funcAddr, readI32, readU32, haddress, Records.leNat_leBytes, Nat.mod_eq_of_lt (show _ < 256 ^ 4 from value.isLt),
      BitVec.ofNat_toNat, BitVec.setWidth_eq, ← hvalue, BitVec.toInt_ofInt, Int.bmod_eq_of_le (by omega) (by omega),
      Entry.newValue]
    split <;> omega
  · show _ <+: out.drop (freStart + readU32 _ 8)
    rw [readU32, hoffset, Records.leNat_leBytes, Nat.mod_eq_of_lt (show _ < 256 ^ 4 from hlt)]
    exact hrows

theorem writeEntries_spec {fdeStart index freOffset : Nat} (hlt : bytes.length < 2 ^ 32)
    (h : writeEntries base pcRel fdeStart freStart index freOffset entries bytes = .ok out)
    (hroom : fdeStart + (index + entries.length) * fdeSize ≤ freStart)
    (hsize : freStart + freOffset + totalFreSize entries ≤ bytes.length) :
    out.length = bytes.length ∧
      (∀ a piece, Holds bytes a piece →
        a + piece.length ≤ fdeStart + index * fdeSize ∨ freStart ≤ a ∧ a + piece.length ≤ freStart + freOffset →
          Holds out a piece) ∧
      List.Forall₂ Denotes
        ((List.range' index entries.length).map fun i => functionAt out base pcRel freStart (fdeStart + i * fdeSize))
        entries := by
  induction entries generalizing index freOffset bytes with
  | nil =>
    obtain rfl := Except.ok.inj h
    rw [List.length_nil, Nat.add_zero] at hroom
    refine ⟨length_overwrite (by rw [List.length_replicate]; omega), fun a piece hpiece ha => ?_, .nil⟩
    exact hpiece.overwrite (by omega) (Or.inl (by omega))
  | cons entry entries ih =>
    obtain ⟨fde, hfde, hrest⟩ := Traverse.bind_eq_ok.1 h
    have hfres : totalFreSize (entry :: entries) = entry.freBytes.length + totalFreSize entries := List.sum_cons
    obtain ⟨hlength, hdenotes⟩ := denotes_of_fde hfde (by omega)
    simp only [fdeSize, List.length_cons, hfres] at *
    have hfirst : (overwrite bytes (fdeStart + index * 20) fde).length = _ := length_overwrite (by omega)
    have hsecond : (overwrite (overwrite bytes (fdeStart + index * 20) fde) (freStart + freOffset)
        entry.freBytes).length = _ := length_overwrite (by omega)
    obtain ⟨hsame, hkeep, hentries⟩ := ih (by omega) hrest (by omega) (by omega)
    refine ⟨by omega, fun a piece hpiece ha => ?_, ?_⟩
    · apply hkeep a piece _ (by omega)
      exact (hpiece.overwrite (by omega) (by omega)).overwrite (by omega) (by omega)
    · rw [List.range'_succ, List.map_cons]
      refine .cons ?_ hentries
      apply hdenotes
      · apply hkeep _ _ _ (Or.inl (by omega))
        exact (holds_overwrite (by omega)).overwrite (by omega) (Or.inl (by omega))
      · exact hkeep _ _ (holds_overwrite (by omega)) (Or.inr (by omega))

/-- A section with one function. -/
def oneHeader : Header :=
  { (default : Header) with
    magic := sframeMagic, version := sframeVersion2, numFdes := 1, numFres := 1, freLen := 4, freStartOffset := 20 }

def oneFunction : Bytes := oneHeader.write ++ (List.replicate 20 0 ++ [1, 2, 3, 4])

end Reld.Sframe
