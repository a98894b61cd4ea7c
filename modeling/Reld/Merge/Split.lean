import Reld.Layout.OutputSections
import Reld.Lib.Terminated
import Reld.Lib.Traverse

/-!
# `Merge.Split` — the input sections that are merged

The merge sections of all objects are gathered by output section. We pretend that those of one output section lie one
behind the other, each padded to whole blocks of the offset map; a position in that space is a linear input
offset. The slot of a section keeps where it starts.
-/

namespace Reld.Merge

/-! ## Sections -/

/-- `MAP_BLOCK_SIZE` -/
def mapBlockSize : Nat := 256

/-- `MERGE_STRING_BUCKET_BITS` -/
def mergeStringBucketBits : Nat := 4

/-- `MERGE_STRING_BUCKETS` -/
def mergeStringBuckets : Nat := 1 <<< mergeStringBucketBits

/-- `StringMergeSectionExtra` -/
structure StringMergeSectionExtra where
  index : Nat
  sectionData : Bytes
  isStrings : Bool
deriving DecidableEq, Repr

/-- `StringMergeInputSection` -/
structure StringMergeInputSection where
  sectionData : Bytes
  startInputOffset : Nat
  isString : Bool
deriving DecidableEq, Repr

/-- `padded_len` -/
def StringMergeInputSection.paddedLen (sec : StringMergeInputSection) : Nat :=
  nextMultipleOf sec.sectionData.length mapBlockSize

/-- `total_input_size` -/
def totalInputSize (inputSections : List StringMergeInputSection) : Nat :=
  (inputSections.getLast?.map fun sec =>
    sec.startInputOffset + nextMultipleOf sec.sectionData.length mapBlockSize).getD 0

/-! ## Gathering them -/

/-- What is read of a `ResolvedObject`: whether the slot of a section is `SectionSlot::MergeStrings`, and the output
section of its part. -/
structure MergeObject where
  stringMergeExtras : List StringMergeSectionExtra
  isMergeStrings : Nat → Bool
  outputSectionId : Nat → OutputSectionId

/-- The sections by output section, the offset at which the next one starts, and the offsets in the slots. -/
structure MergeInputs where
  inputSections : OutputSectionId → List StringMergeInputSection := fun _ => []
  startingOffsets : OutputSectionId → Nat := fun _ => 0
  startInputOffsets : FileId → Nat → Nat := fun _ _ => 0

/-- One section; `none` is the error "expected SectionSlot::MergeStrings". -/
def MergeInputs.addExtra (fileId : FileId) (obj : MergeObject) (m : MergeInputs) (extra : StringMergeSectionExtra) :
    Option MergeInputs :=
  if obj.isMergeStrings extra.index then
    let sectionId := obj.outputSectionId extra.index
    let startingOffset := m.startingOffsets sectionId
    some
      { inputSections := Function.update m.inputSections sectionId
          (m.inputSections sectionId ++ [⟨extra.sectionData, startingOffset, extra.isStrings⟩])
        startingOffsets := Function.update m.startingOffsets sectionId
          (startingOffset + nextMultipleOf extra.sectionData.length mapBlockSize)
        startInputOffsets := Function.update m.startInputOffsets fileId
          (Function.update (m.startInputOffsets fileId) extra.index startingOffset) }
  else none

/-- The files of all groups with their ids; `none` for a file that is no object. -/
def mergeFiles (resolved : List (List (Option MergeObject))) : List (FileId × MergeObject) :=
  resolved.zipIdx.flatMap fun group =>
    group.1.zipIdx.filterMap fun file => file.1.map fun obj => (⟨group.2, file.2⟩, obj)

/-- `group_merge_string_sections_by_output` -/
def groupMergeStringSectionsByOutput (resolved : List (List (Option MergeObject))) : Option MergeInputs :=
  (mergeFiles resolved).foldlM (fun m file => file.2.stringMergeExtras.foldlM (MergeInputs.addExtra file.1 file.2) m) {}

/-! ## Where they start -/

/-- The sections lie one behind the other from `start` on. -/
def PlacedFrom : Nat → List StringMergeInputSection → Prop
  | _, [] => True
  | start, sec :: rest => sec.startInputOffset = start ∧ PlacedFrom (start + sec.paddedLen) rest

/-- The padded length of all sections. -/
def totalPadded (sections : List StringMergeInputSection) : Nat := (sections.map (·.paddedLen)).sum

@[simp] theorem totalPadded_nil : totalPadded [] = 0 := rfl

@[simp] theorem totalPadded_cons (sec : StringMergeInputSection) (rest : List StringMergeInputSection) :
    totalPadded (sec :: rest) = sec.paddedLen + totalPadded rest := by
  simp [totalPadded]

@[simp] theorem totalPadded_append (sections rest : List StringMergeInputSection) :
    totalPadded (sections ++ rest) = totalPadded sections + totalPadded rest := by
  simp [totalPadded]

theorem placedFrom_append {start : Nat} {sections rest : List StringMergeInputSection} :
    PlacedFrom start (sections ++ rest) ↔
      PlacedFrom start sections ∧ PlacedFrom (start + totalPadded sections) rest := by
  induction sections generalizing start with
  | nil            => simp [PlacedFrom]
  | cons sec secs ih => simp [PlacedFrom, ih, and_assoc, Nat.add_assoc]

theorem totalInputSize_eq {sections : List StringMergeInputSection} (h : PlacedFrom 0 sections) :
    totalInputSize sections = totalPadded sections := by
  rcases List.eq_nil_or_concat' sections with rfl | ⟨front, sec, rfl⟩
  · rfl
  · rw [placedFrom_append, Nat.zero_add] at h
    simp [totalInputSize, h.2.1, StringMergeInputSection.paddedLen]

/-- The sections of every output section lie one behind the other. -/
def MergeInputs.Placed (m : MergeInputs) : Prop :=
  ∀ id, PlacedFrom 0 (m.inputSections id) ∧ m.startingOffsets id = totalPadded (m.inputSections id)

theorem MergeInputs.Placed.addExtra {fileId : FileId} {obj : MergeObject} {m m' : MergeInputs}
    {extra : StringMergeSectionExtra} (h : m.Placed) (hadd : m.addExtra fileId obj extra = some m') : m'.Placed := by
  unfold MergeInputs.addExtra at hadd
  split at hadd
  case isTrue =>
    cases hadd
    intro id
    obtain ⟨hplaced, hstart⟩ := h id
    rcases eq_or_ne id (obj.outputSectionId extra.index) with rfl | hne
    · simp [placedFrom_append, PlacedFrom, hplaced, hstart, StringMergeInputSection.paddedLen]
    · simp [Function.update_of_ne hne, hplaced, hstart]
  case isFalse => cases hadd

theorem MergeInputs.placed_empty : MergeInputs.Placed {} := fun _ => ⟨trivial, rfl⟩

/-- The input of a merged section: sections that lie one behind the other. Empty ones have been discarded. -/
structure MergeSections where
  sections : List StringMergeInputSection
  placed : PlacedFrom 0 sections
  nonempty : ∀ sec ∈ sections, sec.sectionData ≠ []

theorem mapBlockSize_pos : 0 < mapBlockSize := by decide

theorem le_paddedLen (sec : StringMergeInputSection) : sec.sectionData.length ≤ sec.paddedLen :=
  le_nextMultipleOf _ mapBlockSize_pos

theorem paddedLen_lt (sec : StringMergeInputSection) : sec.paddedLen < sec.sectionData.length + mapBlockSize :=
  nextMultipleOf_lt _ mapBlockSize_pos

theorem dvd_paddedLen (sec : StringMergeInputSection) : mapBlockSize ∣ sec.paddedLen := dvd_nextMultipleOf _ _

end Reld.Merge

/-!
# Input sections are cut into groups and strings

The linear input is cut into groups of a given size. A string section may be cut anywhere at a block, also inside a
string; a section without strings is taken whole. A group then inserts the strings that start in its range, into a
bucket by their hash and into its shard of the offset map.
-/

namespace Reld.Merge

/-! ## Groups -/

/-- The size of the groups: `split_sections` asserts that it consists of whole blocks. -/
structure GroupSize where
  size : Nat
  pos : 0 < size
  dvd : mapBlockSize ∣ size

/-- `Shard`: the part of the offset map that belongs to a group. `keys` are the offsets that have been stored. -/
structure OffsetsShard where
  base : Nat
  len : Nat
  keys : List Nat := []
deriving DecidableEq, Repr

/-- `SectionGroup` -/
structure SectionGroup where
  index : Nat
  sections : List StringMergeInputSection
  offsetsShard : OffsetsShard
  start : Nat
  stop : Nat
deriving Repr

/-- What the inner loop of `split_sections` leaves: the sections it went over, the rest from the last of them on, the
offset in that one, and how much is missing to the size. -/
structure GroupFill where
  sections : List StringMergeInputSection
  last : StringMergeInputSection
  behind : List StringMergeInputSection
  offsetInSection : Nat
  remaining : Int
  endSection : Bool

/-- The inner loop, at a section with those behind it. -/
def fillGroup (sec : StringMergeInputSection) :
    List StringMergeInputSection → (offsetInSection : Nat) → (remaining : Int) → GroupFill
  | behind, offsetInSection, remaining =>
    let available : Int := sec.paddedLen - offsetInSection
    if available > remaining ∧ sec.isString then
      { sections := [sec], last := sec, behind, offsetInSection := offsetInSection + remaining.toNat, remaining := 0,
        endSection := false }
    else
      let remaining := remaining - available
      match behind with
      | []            =>
        { sections := [sec], last := sec, behind := [], offsetInSection := offsetInSection + available.toNat, remaining,
          endSection := true }
      | next :: behind =>
        if remaining ≤ 0 then
          { sections := [sec], last := sec, behind := next :: behind,
            offsetInSection := offsetInSection + available.toNat, remaining, endSection := true }
        else
          let fill := fillGroup next behind 0 remaining
          { fill with sections := sec :: fill.sections }

section

variable {sec next last : StringMergeInputSection} {behind : List StringMergeInputSection} {offsetInSection : Nat}
  {remaining : Int}

/-- A string section with more bytes left than the group takes: the group ends inside it. -/
def CutInside (sec : StringMergeInputSection) (offsetInSection : Nat) (remaining : Int) : Prop :=
  (sec.paddedLen : Int) - offsetInSection > remaining ∧ sec.isString = true

instance : Decidable (CutInside sec offsetInSection remaining) := inferInstanceAs (Decidable (_ ∧ _))

theorem fillGroup_cut (h : CutInside sec offsetInSection remaining) :
    fillGroup sec behind offsetInSection remaining =
      { sections := [sec], last := sec, behind, offsetInSection := offsetInSection + remaining.toNat, remaining := 0,
        endSection := false } := by
  unfold fillGroup
  exact if_pos h

theorem fillGroup_last (h : ¬ CutInside sec offsetInSection remaining) :
    fillGroup sec [] offsetInSection remaining =
      { sections := [sec], last := sec, behind := [],
        offsetInSection := offsetInSection + ((sec.paddedLen : Int) - offsetInSection).toNat,
        remaining := remaining - (sec.paddedLen - offsetInSection), endSection := true } := by
  exact if_neg h

theorem fillGroup_full (h : ¬ CutInside sec offsetInSection remaining)
    (hfull : remaining - (sec.paddedLen - offsetInSection) ≤ 0) :
    fillGroup sec (next :: behind) offsetInSection remaining =
      { sections := [sec], last := sec, behind := next :: behind,
        offsetInSection := offsetInSection + ((sec.paddedLen : Int) - offsetInSection).toNat,
        remaining := remaining - (sec.paddedLen - offsetInSection), endSection := true } := by
  exact (if_neg h).trans (if_pos hfull)

theorem fillGroup_more (h : ¬ CutInside sec offsetInSection remaining)
    (hmore : ¬ remaining - (sec.paddedLen - offsetInSection) ≤ 0) :
    fillGroup sec (next :: behind) offsetInSection remaining =
      { fillGroup next behind 0 (remaining - (sec.paddedLen - offsetInSection)) with
        sections := sec :: (fillGroup next behind 0 (remaining - (sec.paddedLen - offsetInSection))).sections } := by
  exact (if_neg h).trans (if_neg hmore)

/-- The four ways on at a section, and what the group has in the end. -/
theorem fillGroup_induction
    {motive : (sec : StringMergeInputSection) → (behind : List StringMergeInputSection) → (offsetInSection : Nat) →
      (remaining : Int) → GroupFill → Prop}
    (cut : ∀ sec behind offsetInSection remaining, CutInside sec offsetInSection remaining →
      motive sec behind offsetInSection remaining
        { sections := [sec], last := sec, behind, offsetInSection := offsetInSection + remaining.toNat,
          remaining := 0, endSection := false })
    (whole : ∀ sec behind offsetInSection remaining, ¬ CutInside sec offsetInSection remaining →
      behind = [] ∨ remaining - (sec.paddedLen - offsetInSection) ≤ 0 →
      motive sec behind offsetInSection remaining
        { sections := [sec], last := sec, behind,
          offsetInSection := offsetInSection + ((sec.paddedLen : Int) - offsetInSection).toNat,
          remaining := remaining - (sec.paddedLen - offsetInSection), endSection := true })
    (more : ∀ sec next behind offsetInSection remaining fill, ¬ CutInside sec offsetInSection remaining →
      0 < remaining - (sec.paddedLen - offsetInSection) →
      motive next behind 0 (remaining - (sec.paddedLen - offsetInSection)) fill →
      motive sec (next :: behind) offsetInSection remaining { fill with sections := sec :: fill.sections })
    (sec : StringMergeInputSection) (behind : List StringMergeInputSection) (offsetInSection : Nat) (remaining : Int) :
    motive sec behind offsetInSection remaining (fillGroup sec behind offsetInSection remaining) := by
  induction behind generalizing sec offsetInSection remaining with
  | nil =>
    by_cases hcut : CutInside sec offsetInSection remaining
    · rw [fillGroup_cut hcut]
      exact cut _ _ _ _ hcut
    · rw [fillGroup_last hcut]
      exact whole _ _ _ _ hcut (.inl rfl)
  | cons next behind ih =>
    by_cases hcut : CutInside sec offsetInSection remaining
    · rw [fillGroup_cut hcut]
      exact cut _ _ _ _ hcut
    · by_cases hfull : remaining - (sec.paddedLen - offsetInSection) ≤ 0
      · rw [fillGroup_full hcut hfull]
        exact whole _ _ _ _ hcut (.inr hfull)
      · rw [fillGroup_more hcut hfull]
        exact more _ _ _ _ _ _ hcut (by omega) (ih _ _ _)

theorem fillGroup_behind_le (sec : StringMergeInputSection) (behind : List StringMergeInputSection)
    (offsetInSection : Nat) (remaining : Int) :
    (fillGroup sec behind offsetInSection remaining).behind.length ≤ behind.length := by
  induction sec, behind, offsetInSection, remaining using fillGroup_induction with
  | cut => exact Nat.le_refl _
  | whole => exact Nat.le_refl _
  | more _ _ _ _ _ _ _ _ ih => exact Nat.le_succ_of_le ih

/-- A group that ends inside a section has come further: to a later section, or further into this one. -/
theorem fillGroup_advances (sec : StringMergeInputSection) (behind : List StringMergeInputSection)
    (offsetInSection : Nat) (remaining : Int) (hpos : 0 < remaining)
    (hend : (fillGroup sec behind offsetInSection remaining).endSection = false) :
    (fillGroup sec behind offsetInSection remaining).behind.length < behind.length ∨
      (fillGroup sec behind offsetInSection remaining).behind.length = behind.length ∧
      (fillGroup sec behind offsetInSection remaining).last = sec ∧
      offsetInSection < (fillGroup sec behind offsetInSection remaining).offsetInSection ∧
      (fillGroup sec behind offsetInSection remaining).offsetInSection < sec.paddedLen := by
  induction sec, behind, offsetInSection, remaining using fillGroup_induction with
  | cut sec behind offsetInSection remaining hcut =>
    have := hcut.1
    refine .inr ⟨rfl, rfl, ?_, ?_⟩
    · show offsetInSection < offsetInSection + remaining.toNat
      omega
    · show offsetInSection + remaining.toNat < sec.paddedLen
      omega
  | whole => cases hend
  | more sec next behind offsetInSection remaining fill hcut hmore ih =>
    have hle : fill.behind.length ≤ behind.length := by
      rcases ih hmore hend with h | ⟨h, -⟩ <;> omega
    exact .inl (Nat.lt_succ_of_le hle)

end

/-- `group_size` -/
def GroupFill.groupSize (fill : GroupFill) (size : GroupSize) : Nat := (size.size - fill.remaining).toNat

/-- The group that has been filled from a section's offset on. -/
def GroupFill.group (fill : GroupFill) (size : GroupSize) (index base : Nat) (sec : StringMergeInputSection)
    (offsetInSection : Nat) : SectionGroup :=
  { index
    sections := fill.sections
    offsetsShard := { base, len := fill.groupSize size }
    start := sec.startInputOffset + offsetInSection
    stop := fill.last.startInputOffset + fill.offsetInSection }

/-- `split_sections`, from a section on: the index of the next group, and how much of the offset map has been
taken. -/
def splitFrom (size : GroupSize) (index base : Nat) :
    List StringMergeInputSection → (offsetInSection : Nat) → List SectionGroup
  | [], _ => []
  | sec :: behind, offsetInSection =>
    let fill := fillGroup sec behind offsetInSection size.size
    fill.group size index base sec offsetInSection ::
      if _hend : fill.endSection = true then splitFrom size (index + 1) (base + fill.groupSize size) fill.behind 0
      else splitFrom size (index + 1) (base + fill.groupSize size) (fill.last :: fill.behind) fill.offsetInSection
termination_by sections offsetInSection =>
  (sections.length, (sections.head?.map (·.paddedLen)).getD 0 - offsetInSection)
decreasing_by
  · exact Prod.Lex.left _ _ (Nat.lt_succ_of_le (fillGroup_behind_le sec behind offsetInSection size.size))
  · rcases fillGroup_advances sec behind offsetInSection size.size (by exact_mod_cast size.pos)
      (Bool.eq_false_iff.mpr _hend) with h | ⟨hlength, hlast, hmore, hless⟩
    · exact Prod.Lex.left _ _ (Nat.succ_lt_succ h)
    · rw [List.length_cons, List.length_cons, hlength]
      refine Prod.Lex.right _ ?_
      rw [List.head?_cons, List.head?_cons, Option.map_some, Option.map_some, Option.getD_some, Option.getD_some, hlast]
      omega

/-- `split_sections` -/
def splitSections (sections : List StringMergeInputSection) (size : GroupSize) : List SectionGroup :=
  splitFrom size 0 0 sections 0

/-! ## Strings -/

/-- What is not under our control: `hash_bytes`, and whether the offset map has room for a key beside those that
a shard already holds. -/
structure MergeHashing where
  hashBytes : Bytes → Nat
  hasRoom : OffsetsShard → Nat → Bool

variable (hashing : MergeHashing)

/-- The bucket of a string. -/
def MergeHashing.bucketOf (bytes : Bytes) : Nat := hashing.hashBytes bytes % mergeStringBuckets

/-- `OffsetOut`: the place in the shard is named by its key. -/
inductive OffsetOut where
  | inShard (key : Nat)
  | overflow (linearInputOffset : Nat)
deriving DecidableEq, Repr

/-- The linear input offset that a string belongs to. -/
def OffsetOut.offset : OffsetOut → Nat
  | .inShard key              => key
  | .overflow linearInputOffset => linearInputOffset

/-- `StringToMerge` -/
structure StringToMerge where
  string : Bytes
  offsetOut : OffsetOut
deriving DecidableEq, Repr

/-- The buckets and the shard of a group. -/
structure SplitOutput where
  buckets : Nat → List StringToMerge := fun _ => []
  offsetsShard : OffsetsShard

/-- `insert_data` -/
def insertData (out : SplitOutput) (inputOffset : Nat) (data : Bytes) : SplitOutput :=
  let stored := hashing.hasRoom out.offsetsShard inputOffset
  let bucket := hashing.bucketOf data
  { buckets := Function.update out.buckets bucket
      (out.buckets bucket ++ [⟨data, if stored then .inShard inputOffset else .overflow inputOffset⟩])
    offsetsShard :=
      if stored then { out.offsetsShard with keys := out.offsetsShard.keys ++ [inputOffset] } else out.offsetsShard }

/-- The null character that ends a string. -/
def isNul (byte : UInt8) : Bool := byte == 0

/-- `take_string_hashed`: the string with its terminator, and the rest. -/
def takeString (source : Bytes) : Option (Bytes × Bytes) :=
  (source.findIdx? isNul).map fun i => source.splitAt (i + 1)

theorem length_of_takeString {source string rest : Bytes} (h : takeString source = some (string, rest)) :
    rest.length < source.length := by
  obtain ⟨i, hi, hsplit⟩ := Option.map_eq_some_iff.mp h
  have hlt : i < source.length := (List.findIdx?_eq_some_iff_getElem.mp hi).1
  rw [List.splitAt_eq, Prod.mk.injEq] at hsplit
  rw [← hsplit.2, List.length_drop]
  omega

/-- The loop of `process_input_section`. -/
def insertStrings (stop : Nat) (remaining : Bytes) (inputOffset : Nat) (out : SplitOutput) : Option SplitOutput :=
  if remaining ≠ [] ∧ inputOffset < stop then
    match _h : takeString remaining with
    | none => none
    | some (string, rest) =>
      insertStrings stop rest (inputOffset + string.length) (insertData hashing out inputOffset string)
  else some out
termination_by remaining.length
decreasing_by exact length_of_takeString _h

/-- How far the range starts behind the start of the section, or behind the string that it starts in; `none` if it
starts behind the section's data. -/
def rangeAdvance (sec : StringMergeInputSection) (start : Nat) : Option Nat :=
  if start > sec.startInputOffset then
    let offsetInSection := start - sec.startInputOffset
    sec.sectionData[offsetInSection - 1]?.map fun previous =>
      if isNul previous then offsetInSection
      else
        match (sec.sectionData.drop offsetInSection).findIdx? isNul with
        | none => sec.sectionData.length
        | some nullOffset => offsetInSection + nullOffset + 1
  else some 0

/-- `process_input_section`; `none` stands for the error, and for a panic. -/
def processInputSection (start stop : Nat) (out : SplitOutput) (sec : StringMergeInputSection) : Option SplitOutput :=
  (rangeAdvance sec start).bind fun advance =>
    let inputOffset := sec.startInputOffset + advance
    let remaining := sec.sectionData.drop advance
    if !sec.isString then some (insertData hashing out inputOffset remaining)
    else insertStrings hashing stop remaining inputOffset out

/-- What `process_input_section_group` makes of a group before it hands the buckets on. -/
def splitGroup (group : SectionGroup) : Option SplitOutput :=
  group.sections.foldlM (processInputSection hashing group.start group.stop) { offsetsShard := group.offsetsShard }

end Reld.Merge
