import Reld.Lib.Interning
import Reld.Merge.Split
import Reld.Lib.Tasks

/-!
# `Merge.Buckets` — strings get their offsets

A bucket keeps each of its strings once and gives it the next offset. The offset is packed with the number of the
bucket into 32 bits, and stored under the linear input offset of the string: in the offset map, or in a hash map
if there was no room. In the end the buckets are put one behind the other.
-/

namespace Reld.Merge

/-! ## Packed offsets -/

/-- `BucketOffset` -/
abbrev BucketOffset := BitVec 32

/-- The bits for the offset in the bucket. -/
def bucketOffsetBits : Nat := 32 - mergeStringBucketBits

/-- `BucketOffset::new`; `none` is the error "Merge-string bucket too large". -/
def BucketOffset.new (offset : BitVec 32) (bucket : Nat) : Option BucketOffset :=
  if offset.toNat ≥ 1 <<< bucketOffsetBits then none
  else some ((BitVec.ofNat 32 bucket <<< bucketOffsetBits) ||| offset)

/-- `BucketOffset::bucket` -/
def BucketOffset.bucket (b : BucketOffset) : Nat := (b >>> bucketOffsetBits).toNat

/-- `BucketOffset::offset_in_bucket` -/
def BucketOffset.offsetInBucket (b : BucketOffset) : Nat := (b &&& ((1 <<< bucketOffsetBits) - 1)).toNat

/-! ## Buckets -/

/-- `MergeStringsSectionBucket` -/
structure MergeStringsSectionBucket where
  index : Nat
  nextInputGroupIndex : Nat := 0
  strings : List Bytes := []
  nextOffset : BitVec 32 := 0
  inputStringByteSize : Nat := 0
  inputStringCount : Nat := 0
  stringOffsets : List (Bytes × BitVec 32) := []
deriving DecidableEq, Repr

namespace MergeStringsSectionBucket

/-- The entry of `string_offsets`, which is made if there is none. Lengths are cut off to 32 bits. -/
def entry (b : MergeStringsSectionBucket) (string : Bytes) : MergeStringsSectionBucket × BitVec 32 :=
  match b.stringOffsets.lookup string with
  | some offset => (b, offset)
  | none        =>
    ({ b with
      nextOffset := b.nextOffset + BitVec.ofNat 32 string.length
      strings := b.strings ++ [string]
      stringOffsets := b.stringOffsets ++ [(string, b.nextOffset)] }, b.nextOffset)

/-- `add_string` -/
def addString (b : MergeStringsSectionBucket) (string : Bytes) (bucketIndex : Nat) :
    Option (MergeStringsSectionBucket × BucketOffset) :=
  let counted := { b with
    inputStringByteSize := b.inputStringByteSize + string.length
    inputStringCount := b.inputStringCount + 1 }
  let entered := counted.entry string
  (BucketOffset.new entered.2 bucketIndex).map fun offset => (entered.1, offset)

/-- `process_split_output`: the bucket, and what has been stored for each of the strings. -/
def processSplitOutput (b : MergeStringsSectionBucket) :
    List StringToMerge → Option (MergeStringsSectionBucket × List (OffsetOut × BucketOffset))
  | [] => some (b, [])
  | string :: strings =>
    (b.addString string.string b.index).bind fun added =>
      (processSplitOutput added.1 strings).map fun rest => (rest.1, (string.offsetOut, added.2) :: rest.2)

/-- The vectors of the groups one after the other, as `work_with_bucket` takes them. -/
def processGroups (b : MergeStringsSectionBucket) :
    List (List StringToMerge) → Option (MergeStringsSectionBucket × List (OffsetOut × BucketOffset))
  | [] => some (b, [])
  | strings :: groups =>
    (b.processSplitOutput strings).bind fun done =>
      (processGroups { done.1 with nextInputGroupIndex := done.1.nextInputGroupIndex + 1 } groups).map fun rest =>
        (rest.1, done.2 ++ rest.2)

end MergeStringsSectionBucket

/-! ## The merged section -/

/-- `MergedStringsSection`. The offset map is an exact map of what has been stored in it. -/
structure MergedStringsSection where
  buckets : List MergeStringsSectionBucket
  bucketOffsets : Nat → Nat
  stringOffsets : List (Nat × BucketOffset)
  overflowedStringOffsets : List (Nat × BucketOffset)

/-- The offset of each bucket, from those in front of it. -/
def bucketOffsetsOf (buckets : List MergeStringsSectionBucket) : Nat → Nat
  | 0     => 0
  | i + 1 => bucketOffsetsOf buckets i + ((buckets[i]?).map (·.nextOffset.toNat)).getD 0

/-- What has been stored in the offset map. -/
def inShards (stored : List (OffsetOut × BucketOffset)) : List (Nat × BucketOffset) :=
  stored.filterMap fun
    | (.inShard key, value) => some (key, value)
    | _ => none

/-- `overflowed_offsets` -/
def overflowed (stored : List (OffsetOut × BucketOffset)) : List (Nat × BucketOffset) :=
  stored.filterMap fun
    | (.overflow linearInputOffset, value) => some (linearInputOffset, value)
    | _ => none

/-- The end of `add_input_sections`: the finished buckets by index, and what has been stored. -/
def finishMerge (finished : List (MergeStringsSectionBucket × List (OffsetOut × BucketOffset))) :
    MergedStringsSection :=
  let buckets := finished.map (·.1)
  let stored := finished.flatMap (·.2)
  { buckets
    bucketOffsets := bucketOffsetsOf buckets
    stringOffsets := inShards stored
    overflowedStringOffsets := overflowed stored }

/-- `add_input_sections`, each bucket going through the groups in their order. -/
def addInputSections (hashing : MergeHashing) (sections : List StringMergeInputSection) (size : GroupSize) :
    Option MergedStringsSection :=
  ((splitSections sections size).mapM (splitGroup hashing)).bind fun outs =>
    ((List.range mergeStringBuckets).mapM fun i =>
      ({ index := i } : MergeStringsSectionBucket).processGroups (outs.map (·.buckets i))).map finishMerge

namespace MergedStringsSection

variable (merged : MergedStringsSection)

/-- `len` -/
def len : Nat :=
  (merged.buckets.getLast?.map fun b => b.nextOffset.toNat + merged.bucketOffsets b.index).getD 0

/-- The strings of a bucket are copied into its buffer; `none` is a panic. -/
def writeStrings : List Bytes → Bytes → Option Bytes
  | [], buffer => some buffer
  | string :: strings, buffer =>
    if string.length ≤ buffer.length then
      (writeStrings strings (buffer.drop string.length)).map (string ++ ·)
    else none

/-- Each bucket has its part of the buffer. -/
def writeBuckets : List MergeStringsSectionBucket → Bytes → Option Bytes
  | [], buffer => some buffer
  | b :: buckets, buffer =>
    if b.nextOffset.toNat ≤ buffer.length then
      Option.map₂ (· ++ ·) (writeStrings b.strings (buffer.take b.nextOffset.toNat))
        (writeBuckets buckets (buffer.drop b.nextOffset.toNat))
    else none

/-- `write_merged_strings_to_buffer` -/
def writeToBuffer (buffer : Bytes) : Option Bytes := writeBuckets merged.buckets buffer

/-! ## Looking up -/

/-- What is found at a linear input offset. -/
def lookup (linearInputOffset : Nat) : Option BucketOffset :=
  (merged.stringOffsets.lookup linearInputOffset).or (merged.overflowedStringOffsets.lookup linearInputOffset)

/-- The loop of `find_string`: the offsets in front of `inputOffset`, from `back` on downwards. -/
def findBackwards (start inputOffset : Nat) : Nat → Option BucketOffset
  | 0        => none
  | back + 1 =>
    match merged.lookup (start + back) with
    | some stringOffset => some (stringOffset + BitVec.ofNat 32 (inputOffset - back))
    | none              => findBackwards start inputOffset back

/-- `find_string`, in the section that starts at `start`. -/
def findString (start inputOffset : Nat) : Option BucketOffset :=
  match merged.lookup (start + inputOffset) with
  | some stringOffset => some stringOffset
  | none => merged.findBackwards start inputOffset inputOffset

end MergedStringsSection

/-- `MergedStringStartAddresses`, of one output section with its start address. -/
def mergedStringStartAddresses (base : Nat) (merged : MergedStringsSection) (bucket : Nat) : Nat :=
  merged.bucketOffsets bucket + base

/-- `MergedStringTarget`, within its output section. -/
structure MergedStringTarget where
  startInputOffset : Nat
  symbolValue : BitVec 64
deriving DecidableEq, Repr

/-- `unnamed_address`; `none` is the error of `find_string`. -/
def MergedStringTarget.unnamedAddress (target : MergedStringTarget) (addend : BitVec 64)
    (merged : MergedStringsSection) (startAddresses : Nat → Nat) : Option Nat :=
  let inputOffset := target.symbolValue + addend
  (merged.findString target.startInputOffset inputOffset.toNat).map fun stringOffset =>
    startAddresses stringOffset.bucket + stringOffset.offsetInBucket

end Reld.Merge

/-!
# The tasks that merge strings

Tasks split the groups into the strings of each bucket, and others work with a bucket. They meet in the slots for a
group and a bucket: whichever comes second, the strings or the bucket, goes on with the other. How many groups are
split ahead is limited by a pool of vectors, out of which a group is given one for each bucket.

A step is one operation on what the tasks share. What a task does on its own, splitting its group or entering strings
into its bucket, goes with the operation in front of it.
-/

namespace Reld.Merge

/-! ## What the tasks share -/

/-- A bucket, with what has been stored for its strings. -/
abbrev WorkedBucket := MergeStringsSectionBucket × List (OffsetOut × BucketOffset)

/-- `StringsSlot` -/
inductive StringsSlot where
  | empty
  | waitingForStrings (bucket : WorkedBucket)
  | strings (strings : List StringToMerge)

/-- `ReusePool`, with the number of vectors that it keeps. -/
structure ReusePool where
  stringVecs : Nat
  capacity : Nat
  available : Nat
deriving DecidableEq, Repr

/-- `SplitResources`. Slots are found by `stringBucketOffset`. `panicked` is for an assertion that has failed. -/
structure SplitResources where
  numInputGroups : Nat
  unprocessed : List SectionGroup
  stringsByBucketAndGroup : Nat → StringsSlot
  finishedBuckets : List WorkedBucket := []
  errors : Bool := false
  reusePool : ReusePool
  panicked : Bool := false

/-- `string_bucket_offset` -/
def stringBucketOffset (input bucket : Nat) : Nat := input * mergeStringBuckets + bucket

namespace SplitResources

variable (r : SplitResources)

def slot (input bucket : Nat) : StringsSlot := r.stringsByBucketAndGroup (stringBucketOffset input bucket)

def setSlot (input bucket : Nat) (slot : StringsSlot) : SplitResources :=
  { r with stringsByBucketAndGroup := Function.update r.stringsByBucketAndGroup (stringBucketOffset input bucket) slot }

/-- The pool has another number of vectors left to reserve. -/
def setAvailable (available : Nat) : SplitResources := { r with reusePool := { r.reusePool with available } }

def setStringVecs (stringVecs : Nat) : SplitResources := { r with reusePool := { r.reusePool with stringVecs } }

/-- `try_reserve`, of a vector for each bucket. -/
def tryReserve : Option SplitResources :=
  if r.reusePool.available < mergeStringBuckets then none
  else some (r.setAvailable (r.reusePool.available - mergeStringBuckets))

end SplitResources

/-! ## Tasks -/

/-- What is left of a task, with the reservation that it holds. -/
inductive MergeTask where
  /-- `try_spawn_input_processing`, by the scope itself. -/
  | spawnInputs
  /-- A spawned task that takes a group. -/
  | input (remaining : Nat)
  /-- `process_input_section_group`: `taken` vectors have been taken. -/
  | takeVecs (group : SectionGroup) (taken remaining : Nat)
  /-- The strings have been put in the slots of `i` buckets. -/
  | swapSlots (index : Nat) (buckets : Nat → List StringToMerge) (i remaining : Nat)
  | unreserve (remaining : Nat)
  /-- `work_with_bucket`, in front of a group. -/
  | work (bucket : WorkedBucket)
  /-- `return_strings_to_merge`: the vector, and then its number. -/
  | returnVec (bucket : WorkedBucket)
  | addAvailable (bucket : WorkedBucket)
  /-- `try_spawn_input_processing`, by a task with a bucket. -/
  | trySpawn (bucket : WorkedBucket)

/-- The bucket has been given the strings of the group. -/
def WorkedBucket.apply (bucket : WorkedBucket) (strings : List StringToMerge) : Option WorkedBucket :=
  (bucket.1.processSplitOutput strings).map fun done => (done.1, bucket.2 ++ done.2)

/-- `next_input_group_index += 1` -/
def WorkedBucket.advance (bucket : WorkedBucket) : WorkedBucket :=
  ({ bucket.1 with nextInputGroupIndex := bucket.1.nextInputGroupIndex + 1 }, bucket.2)

/-- The loop of `try_spawn_input_processing`: once more after a task has been spawned, else on with `behind`. -/
def spawnLoop (again : MergeTask) (behind : List MergeTask) (r : SplitResources) :
    SplitResources × List MergeTask :=
  match r.tryReserve with
  | none   => (r, behind)
  | some r => (r, [.input mergeStringBuckets, again])

/-- A slot is given its strings. The bucket that waited for them goes on. -/
def swapStringsSlot (index : Nat) (buckets : Nat → List StringToMerge) (i remaining : Nat) (r : SplitResources) :
    SplitResources × List MergeTask :=
  (r.setSlot index i (.strings (buckets i)), .swapSlots index buckets (i + 1) remaining ::
    match r.slot index i with
    | .waitingForStrings bucket => [.work bucket]
    | _ => [])

/-- One round of `work_with_bucket`, up to the vector that is returned. -/
def workRound (bucket : WorkedBucket) (r : SplitResources) : SplitResources × List MergeTask :=
  if bucket.1.nextInputGroupIndex < r.numInputGroups then
    match r.slot bucket.1.nextInputGroupIndex bucket.1.index with
    | .strings strings =>
      match bucket.apply strings with
      | none        => ({ r.setSlot bucket.1.nextInputGroupIndex bucket.1.index .empty with errors := true }, [])
      | some worked => (r.setSlot bucket.1.nextInputGroupIndex bucket.1.index .empty, [.returnVec worked])
    | _ => (r.setSlot bucket.1.nextInputGroupIndex bucket.1.index (.waitingForStrings bucket), [])
  -- a push to a queue that is full does nothing
  else if r.finishedBuckets.length < mergeStringBuckets then
    ({ r with finishedBuckets := r.finishedBuckets ++ [bucket] }, [])
  else (r, [])

/-- The next operation of a task. -/
def MergeTask.act (hashing : MergeHashing) : MergeTask → SplitResources → SplitResources × List MergeTask
  | .spawnInputs, r     => spawnLoop .spawnInputs [] r
  | .input remaining, r =>
    match r.unprocessed with
    | []             => (r, [.unreserve remaining])
    | group :: behind => ({ r with unprocessed := behind }, [.takeVecs group 0 remaining])
  | .takeVecs group taken remaining, r =>
    if taken < mergeStringBuckets then
      match remaining with
      | 0             => ({ r with panicked := true }, [])
      | remaining + 1 =>
        (r.setStringVecs (r.reusePool.stringVecs - 1), [.takeVecs group (taken + 1) remaining])
    else
      match splitGroup hashing group with
      | none     => ({ r with errors := true }, [.unreserve remaining])
      | some out => (r, [.swapSlots group.index out.buckets 0 remaining])
  | .swapSlots index buckets i remaining, r =>
    if i < mergeStringBuckets then swapStringsSlot index buckets i remaining r else (r, [.unreserve remaining])
  | .unreserve remaining, r => (r.setAvailable (r.reusePool.available + remaining), [])
  | .work bucket, r => workRound bucket r
  | .returnVec bucket, r =>
    if r.reusePool.stringVecs < r.reusePool.capacity then
      (r.setStringVecs (r.reusePool.stringVecs + 1), [.addAvailable bucket])
    else ({ r with panicked := true }, [])
  | .addAvailable bucket, r => (r.setAvailable (r.reusePool.available + 1), [.trySpawn bucket])
  | .trySpawn bucket, r => spawnLoop (.trySpawn bucket) [.work bucket.advance] r

/-- `create_split_resources`: the buckets wait for the strings of the first group. -/
def createSplitResources (groups : List SectionGroup) (reusePool : ReusePool) : SplitResources :=
  { numInputGroups := groups.length
    unprocessed := groups
    stringsByBucketAndGroup := fun offset =>
      if offset < mergeStringBuckets then .waitingForStrings ({ index := offset }, []) else .empty
    reusePool }

/-- The scope starts. -/
def mergeStart (groups : List SectionGroup) (reusePool : ReusePool) : Tasks.Config SplitResources MergeTask :=
  ⟨createSplitResources groups reusePool, [.spawnInputs]⟩

end Reld.Merge
