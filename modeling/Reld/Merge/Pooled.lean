import Mathlib.Tactic.Ring
import Reld.Merge.Buckets
import Reld.Merge.SplitOnce

/-!
# `Merge.Pooled` — what a merged section holds

A bucket is a pool of strings (`Interning`): its strings are the distinct strings of the input that hash to it, and
the offset of a string is the length of those in front of it, cut off to 32 bits (`BucketPool`). This gives what is
stored for each string of the input (`Built`), and the bytes of the section.
-/

namespace Reld.Merge

open Interning Terminated Traverse

/-! ## Packing -/

theorem toNat_bucket (b : BucketOffset) : b.bucket = b.toNat / 2 ^ 28 := by
  show (b >>> 28).toNat = b.toNat / 2 ^ 28
  rw [BitVec.toNat_ushiftRight, Nat.shiftRight_eq_div_pow]

theorem toNat_offsetInBucket (b : BucketOffset) : b.offsetInBucket = b.toNat % 2 ^ 28 := by
  show (b &&& ((1 <<< 28) - 1)).toNat = b.toNat % 2 ^ 28
  rw [BitVec.toNat_and, show (((1 <<< 28) - 1 : BitVec 32)).toNat = 2 ^ 28 - 1 by decide, Nat.and_two_pow_sub_one_eq_mod]

/-- A bucket and an offset in one value. -/
def BucketOffset.pack (bucket : Nat) (offset : BitVec 32) : BucketOffset := (BitVec.ofNat 32 bucket <<< 28) ||| offset

theorem BucketOffset.new_eq_some {offset : BitVec 32} {bucket : Nat} {value : BucketOffset} :
    BucketOffset.new offset bucket = some value ↔
      offset.toNat < 2 ^ 28 ∧ value = BucketOffset.pack bucket offset := by
  unfold BucketOffset.new
  have hbits : (1 <<< bucketOffsetBits : Nat) = 2 ^ 28 := by decide
  split
  case isTrue hge => exact ⟨nofun, fun h => absurd h.1 (by omega)⟩
  case isFalse hlt =>
    rw [Option.some.injEq]
    exact ⟨fun h => ⟨by omega, h.symm⟩, fun h => h.2.symm⟩

/-- The number of the bucket lies above the offset. -/
theorem toNat_packed {offset : BitVec 32} {bucket : Nat} (hbucket : bucket < mergeStringBuckets)
    (hoffset : offset.toNat < 2 ^ 28) :
    (BucketOffset.pack bucket offset).toNat = bucket * 2 ^ 28 + offset.toNat := by
  have h16 : mergeStringBuckets = 16 := by decide
  have hshift : (BitVec.ofNat 32 bucket <<< 28).toNat = bucket <<< 28 := by
    rw [BitVec.toNat_shiftLeft, BitVec.toNat_ofNat, Nat.mod_eq_of_lt (show bucket < 2 ^ 32 by omega)]
    omega
  rw [BucketOffset.pack, BitVec.toNat_or, hshift, ← Nat.shiftLeft_add_eq_or_of_lt hoffset, Nat.shiftLeft_eq]

/-! ## One bucket -/

/-- The bucket has been given the strings `seen`. -/
structure BucketPool (b : MergeStringsSectionBucket) (seen : List Bytes) : Prop where
  strings : b.strings = distinct seen
  nextOffset : b.nextOffset = BitVec.ofNat 32 ((distinct seen).map List.length).sum
  offsets : ∀ x, b.stringOffsets.lookup x =
    if x ∈ distinct seen then some (BitVec.ofNat 32 (offsetOf List.length (distinct seen) x)) else none

section

variable {b b' : MergeStringsSectionBucket} {seen : List Bytes} {strings : List StringToMerge}
  {stored : List (OffsetOut × BucketOffset)}

theorem bucketPool_new (i : Nat) : BucketPool { index := i } [] :=
  ⟨rfl, rfl, fun x => by simp [distinct]⟩

/-- The offset that a string of a pool has. -/
def pooledOffset (seen : List Bytes) (string : Bytes) : BitVec 32 :=
  BitVec.ofNat 32 (offsetOf List.length (distinct seen) string)

theorem pooledOffset_append {string : Bytes} (h : string ∈ seen) (later : List Bytes) :
    pooledOffset (seen ++ later) string = pooledOffset seen string := by
  unfold pooledOffset
  rw [offsetOf_front (distinct_front seen later) (mem_distinct.mpr h)]

/-- A string is found or entered. -/
theorem BucketPool.entry (h : BucketPool b seen) (string : Bytes) :
    BucketPool (b.entry string).1 (seen ++ [string]) ∧ (b.entry string).1.index = b.index ∧
      (b.entry string).2 = pooledOffset (seen ++ [string]) string := by
  have hdistinct : distinct (seen ++ [string]) = add (distinct seen) string := distinct_append seen [string]
  unfold MergeStringsSectionBucket.entry pooledOffset
  rw [h.offsets string, hdistinct]
  by_cases hmem : string ∈ distinct seen
  · rw [if_pos hmem, add_of_mem hmem]
    refine ⟨⟨?_, ?_, ?_⟩, rfl, rfl⟩ <;> rw [hdistinct, add_of_mem hmem]
    · exact h.strings
    · exact h.nextOffset
    · exact h.offsets
  · rw [if_neg hmem, add_of_not_mem hmem]
    refine ⟨⟨?_, ?_, fun x => ?_⟩, rfl, ?_⟩
    · rw [hdistinct, add_of_not_mem hmem]
      exact congrArg (· ++ [string]) h.strings
    · rw [hdistinct, add_of_not_mem hmem]
      simp [h.nextOffset, BitVec.ofNat_add]
    · -- what is found of the strings so far stays, and the new one is found behind them
      rw [hdistinct, add_of_not_mem hmem, List.lookup_append, h.offsets x]
      by_cases hx : x ∈ distinct seen
      · rw [if_pos hx, if_pos (List.mem_append_left _ hx), offsetOf_front (List.prefix_append _ _) hx, Option.some_or]
      · rw [if_neg hx, Option.none_or, h.nextOffset]
        rcases eq_or_ne x string with rfl | hne
        · rw [if_pos (List.mem_append_right _ (List.mem_singleton.mpr rfl)), offsetOf_new hx]
          simp
        · rw [if_neg (by simp [hx, hne])]
          simp [List.lookup_cons, beq_eq_false_iff_ne.mpr hne]
    · rw [offsetOf_new hmem]
      exact h.nextOffset

/-- A bucket that has been given `seen` takes `strings`: what it is then, and what is stored for them. -/
structure Interned (b : MergeStringsSectionBucket) (seen : List Bytes) (strings : List StringToMerge)
    (b' : MergeStringsSectionBucket) (stored : List (OffsetOut × BucketOffset)) : Prop where
  pool : BucketPool b' (seen ++ strings.map (·.string))
  index : b'.index = b.index
  fits : ∀ s ∈ strings, (pooledOffset (seen ++ strings.map (·.string)) s.string).toNat < 2 ^ 28
  stored : stored = strings.map fun s =>
    (s.offsetOut, BucketOffset.pack b.index (pooledOffset (seen ++ strings.map (·.string)) s.string))

theorem Interned.nil (h : BucketPool b seen) : Interned b seen [] b [] where
  pool := by simpa using h
  index := rfl
  fits := by simp
  stored := rfl

/-- What has been stored for a string holds also for the strings that come later. -/
theorem Interned.append {strings' : List StringToMerge} {b'' : MergeStringsSectionBucket}
    {stored' : List (OffsetOut × BucketOffset)} (h : Interned b seen strings b' stored)
    (h' : Interned b' (seen ++ strings.map (·.string)) strings' b'' stored') :
    Interned b seen (strings ++ strings') b'' (stored ++ stored') := by
  have hall : seen ++ (strings ++ strings').map (·.string) =
      seen ++ strings.map (·.string) ++ strings'.map (·.string) := by simp
  have hearlier : ∀ s ∈ strings, pooledOffset (seen ++ (strings ++ strings').map (·.string)) s.string =
      pooledOffset (seen ++ strings.map (·.string)) s.string := by
    intro s hs
    rw [hall]
    exact pooledOffset_append (List.mem_append_right _ (List.mem_map_of_mem hs)) _
  refine ⟨hall ▸ h'.pool, h'.index.trans h.index, fun s hs => ?_, ?_⟩
  · rcases List.mem_append.mp hs with hs | hs
    · rw [hearlier s hs]
      exact h.fits s hs
    · rw [hall]
      exact h'.fits s hs
  · rw [List.map_append, h.stored, h'.stored, hall, h.index]
    congr 1
    refine List.map_congr_left fun s hs => ?_
    rw [← hall, hearlier s hs]

/-- `add_string` stores the place of the string in the pool, if that fits. -/
theorem BucketPool.addString (h : BucketPool b seen) (string : Bytes) :
    ∃ b', BucketPool b' (seen ++ [string]) ∧ b'.index = b.index ∧
      b.addString string b.index =
        (BucketOffset.new (pooledOffset (seen ++ [string]) string) b.index).map (b', ·) := by
  have hcounted : BucketPool { b with
      inputStringByteSize := b.inputStringByteSize + string.length
      inputStringCount := b.inputStringCount + 1 } seen := ⟨h.strings, h.nextOffset, h.offsets⟩
  obtain ⟨hpool, hindex, hoffset⟩ := hcounted.entry string
  refine ⟨_, hpool, hindex, ?_⟩
  rw [← hoffset]
  rfl

theorem interned_string {s : StringToMerge} {value : BucketOffset} (h : BucketPool b' (seen ++ [s.string]))
    (hindex : b'.index = b.index)
    (hvalue : BucketOffset.new (pooledOffset (seen ++ [s.string]) s.string) b.index = some value) :
    Interned b seen [s] b' [(s.offsetOut, value)] := by
  obtain ⟨hfits, rfl⟩ := BucketOffset.new_eq_some.mp hvalue
  exact ⟨h, hindex, by simpa using hfits, rfl⟩

/-- `process_split_output` -/
theorem BucketPool.processSplitOutput (h : BucketPool b seen)
    (hrun : b.processSplitOutput strings = some (b', stored)) : Interned b seen strings b' stored := by
  induction strings generalizing b seen stored with
  | nil =>
    cases hrun
    exact .nil h
  | cons s strings ih =>
    obtain ⟨mid, hmid, hindex, hadd⟩ := h.addString s.string
    rw [MergeStringsSectionBucket.processSplitOutput, hadd] at hrun
    obtain ⟨added, hadded, hrest⟩ := Option.bind_eq_some_iff.mp hrun
    obtain ⟨value, hvalue, rfl⟩ := Option.map_eq_some_iff.mp hadded
    obtain ⟨rest, hbehind, heq⟩ := Option.map_eq_some_iff.mp hrest
    cases heq
    exact (interned_string hmid hindex hvalue).append (ih hmid hbehind)

/-- It fails for a string that does not fit only. -/
theorem BucketPool.processSplitOutput_isSome (h : BucketPool b seen)
    (hfits : ∀ s ∈ strings, (pooledOffset (seen ++ strings.map (·.string)) s.string).toNat < 2 ^ 28) :
    ∃ done, b.processSplitOutput strings = some done := by
  induction strings generalizing b seen with
  | nil => exact ⟨_, rfl⟩
  | cons s strings ih =>
    have hall : seen ++ (s :: strings).map (·.string) = seen ++ [s.string] ++ strings.map (·.string) := by simp
    rw [hall, List.forall_mem_cons, pooledOffset_append (by simp)] at hfits
    obtain ⟨mid, hmid, hindex, hadd⟩ := h.addString s.string
    obtain ⟨rest, hrest⟩ := ih hmid hfits.2
    rw [MergeStringsSectionBucket.processSplitOutput, hadd, BucketOffset.new_eq_some.mpr ⟨hfits.1, rfl⟩,
      Option.map_some, Option.bind_some, hrest]
    exact ⟨_, rfl⟩

variable {groups : List (List StringToMerge)}

/-- The vectors of all groups one after the other. -/
theorem BucketPool.processGroups (h : BucketPool b seen) (hrun : b.processGroups groups = some (b', stored)) :
    Interned b seen groups.flatten b' stored := by
  induction groups generalizing b seen stored with
  | nil =>
    cases hrun
    exact .nil h
  | cons strings groups ih =>
    obtain ⟨done, hdone, hrest⟩ := Option.bind_eq_some_iff.mp hrun
    obtain ⟨rest, hbehind, heq⟩ := Option.map_eq_some_iff.mp hrest
    cases heq
    have hfront := h.processSplitOutput hdone
    have hnext : BucketPool { done.1 with nextInputGroupIndex := done.1.nextInputGroupIndex + 1 }
        (seen ++ strings.map (·.string)) := ⟨hfront.pool.strings, hfront.pool.nextOffset, hfront.pool.offsets⟩
    have hback := ih hnext hbehind
    exact hfront.append ⟨hback.pool, hback.index, hback.fits, hback.stored⟩

theorem BucketPool.processGroups_isSome (h : BucketPool b seen)
    (hfits : ∀ s ∈ groups.flatten,
      (pooledOffset (seen ++ groups.flatten.map (·.string)) s.string).toNat < 2 ^ 28) :
    ∃ done, b.processGroups groups = some done := by
  induction groups generalizing b seen with
  | nil => exact ⟨_, rfl⟩
  | cons strings groups ih =>
    have hall : seen ++ (strings :: groups).flatten.map (·.string) =
        seen ++ strings.map (·.string) ++ groups.flatten.map (·.string) := by simp
    rw [hall, List.flatten_cons, List.forall_mem_append] at hfits
    have hfront : ∀ s ∈ strings, (pooledOffset (seen ++ strings.map (·.string)) s.string).toNat < 2 ^ 28 := by
      intro s hs
      have hmem : s.string ∈ seen ++ strings.map (·.string) := List.mem_append_right _ (List.mem_map_of_mem hs)
      rw [← pooledOffset_append hmem (groups.flatten.map (·.string))]
      exact hfits.1 s hs
    obtain ⟨done, hdone⟩ := h.processSplitOutput_isSome hfront
    have hpool := (h.processSplitOutput hdone).pool
    obtain ⟨rest, hrest⟩ := ih (b := { done.1 with nextInputGroupIndex := done.1.nextInputGroupIndex + 1 })
      ⟨hpool.strings, hpool.nextOffset, hpool.offsets⟩ hfits.2
    rw [MergeStringsSectionBucket.processGroups, hdone, Option.bind_some, hrest]
    exact ⟨_, rfl⟩

end

/-! ## All buckets -/

/-- The strings of the input that hash to a bucket. -/
def MergeHashing.contents (hashing : MergeHashing) (sections : List StringMergeInputSection) (bucket : Nat) :
    List Bytes :=
  (hashing.ofBucket bucket (inputPieces sections)).map (·.2)

/-- What is stored for a string. -/
def MergeHashing.stored (hashing : MergeHashing) (sections : List StringMergeInputSection) (string : Bytes) :
    BucketOffset :=
  .pack (hashing.bucketOf string) (pooledOffset (hashing.contents sections (hashing.bucketOf string)) string)

/-- The strings whose offsets fit beside the number of the bucket. -/
def MergeHashing.Fits (hashing : MergeHashing) (sections : List StringMergeInputSection) : Prop :=
  ∀ piece ∈ inputPieces sections,
    (pooledOffset (hashing.contents sections (hashing.bucketOf piece.2)) piece.2).toNat < 2 ^ 28

/-- What `add_input_sections` leaves. -/
structure Built (hashing : MergeHashing) (sections : List StringMergeInputSection) (merged : MergedStringsSection) :
    Prop where
  ended : ∀ sec ∈ sections, sec.Ended
  fits : hashing.Fits sections
  buckets : ∃ bucket : Nat → MergeStringsSectionBucket,
    merged.buckets = (List.range mergeStringBuckets).map bucket ∧
      ∀ i < mergeStringBuckets, BucketPool (bucket i) (hashing.contents sections i) ∧ (bucket i).index = i
  bucketOffsets : merged.bucketOffsets = bucketOffsetsOf merged.buckets
  stored : ∃ stored, merged.stringOffsets = inShards stored ∧ merged.overflowedStringOffsets = overflowed stored ∧
    ∀ k v, (∃ s ∈ stored, s.1.offset = k ∧ s.2 = v) ↔
      ∃ string, (k, string) ∈ inputPieces sections ∧ hashing.stored sections string = v

section

variable {hashing : MergeHashing} {sections : List StringMergeInputSection} {merged : MergedStringsSection}

theorem bucketOf_lt (string : Bytes) : hashing.bucketOf string < mergeStringBuckets :=
  Nat.mod_lt _ (by decide)

theorem mem_ofBucket {bucket : Nat} {pieces : List (Nat × Bytes)} {piece : Nat × Bytes} :
    piece ∈ hashing.ofBucket bucket pieces ↔ piece ∈ pieces ∧ hashing.bucketOf piece.2 = bucket := by
  simp [MergeHashing.ofBucket]

/-- The vectors of a bucket in all groups, with what they hold. -/
theorem flatten_stringsToMerge (bucket : Nat) (outs : List SplitOutput) :
    stringsToMerge (outs.map (·.buckets bucket)).flatten = bucketStrings bucket outs := by
  unfold stringsToMerge bucketStrings
  rw [List.map_flatten, List.map_map]
  rfl

variable {outs : List SplitOutput}

/-- The strings of a bucket are those of the input that hash to it. -/
theorem bucketStrings_eq (input : MergeSections) (size : GroupSize)
    (houts : (splitSections input.sections size).mapM (splitGroup hashing) = some outs) :
    (∀ sec ∈ input.sections, sec.Ended) ∧
      ∀ bucket, bucketStrings bucket outs = hashing.ofBucket bucket (inputPieces input.sections) := by
  have hsplit := fun bucket => bucketStrings_split hashing input size bucket
  simp only [houts, Option.map_some] at hsplit
  cases hpieces : stringsFrom input.sections 0 with
  | none        => exact absurd (hpieces ▸ hsplit 0) (by simp)
  | some pieces =>
    obtain ⟨hended, rfl⟩ := (stringsFrom_eq_some input.nonempty).mp hpieces
    simp only [hpieces, Option.map_some, Option.some.injEq] at hsplit
    exact ⟨hended, hsplit⟩

/-- The strings that a bucket takes, with what is left of them in the input. -/
structure Taken (hashing : MergeHashing) (sections : List StringMergeInputSection) (outs : List SplitOutput)
    (i : Nat) (strings : List StringToMerge) : Prop where
  vectors : (outs.map (·.buckets i)).flatten = strings
  pieces : stringsToMerge strings = hashing.ofBucket i (inputPieces sections)

theorem Taken.strings {outs : List SplitOutput} {i : Nat} {strings : List StringToMerge}
    (h : Taken hashing sections outs i strings) : strings.map (·.string) = hashing.contents sections i := by
  rw [MergeHashing.contents, ← h.pieces, stringsToMerge, List.map_map]
  rfl

theorem Taken.mem {i k : Nat} {strings : List StringToMerge} {string : Bytes}
    (h : Taken hashing sections outs i strings) :
    (∃ s ∈ strings, s.offsetOut.offset = k ∧ s.string = string) ↔
      (k, string) ∈ inputPieces sections ∧ hashing.bucketOf string = i := by
  have hmem : (k, string) ∈ stringsToMerge strings ↔ (k, string) ∈ hashing.ofBucket i (inputPieces sections) := by
    rw [h.pieces]
  simpa [stringsToMerge, mem_ofBucket] using hmem

theorem taken (input : MergeSections)
    (houts : ∀ bucket, bucketStrings bucket outs = hashing.ofBucket bucket (inputPieces input.sections)) (i : Nat) :
    Taken hashing input.sections outs i (outs.map (·.buckets i)).flatten :=
  ⟨rfl, (flatten_stringsToMerge i outs).trans (houts i)⟩

/-- **What is built holds what the input holds.** -/
theorem built_of_addInputSections (input : MergeSections) (size : GroupSize)
    (h : addInputSections hashing input.sections size = some merged) : Built hashing input.sections merged := by
  obtain ⟨outs, houts, h⟩ := Option.bind_eq_some_iff.mp h
  obtain ⟨finished, hfinished, rfl⟩ := Option.map_eq_some_iff.mp h
  obtain ⟨hended, hstrings⟩ := bucketStrings_eq input size houts
  have htaken := taken input hstrings
  rw [mapM_eq_some] at hfinished
  have hdone : ∀ i, ∃ done : MergeStringsSectionBucket × List (OffsetOut × BucketOffset), i < mergeStringBuckets →
      ({ index := i } : MergeStringsSectionBucket).processGroups (outs.map (·.buckets i)) = some done := by
    intro i
    by_cases hi : i < mergeStringBuckets
    · have hmem := List.mem_map_of_mem (f := fun i =>
        ({ index := i } : MergeStringsSectionBucket).processGroups (outs.map (·.buckets i))) (List.mem_range.mpr hi)
      rw [hfinished] at hmem
      obtain ⟨done, -, hdone⟩ := List.mem_map.mp hmem
      exact ⟨done, fun _ => hdone.symm⟩
    · exact ⟨⟨{ index := i }, []⟩, fun h => absurd h hi⟩
  choose done hdone using hdone
  have hall : finished = (List.range mergeStringBuckets).map done := by
    apply (List.map_injective_iff.mpr (Option.some_injective _))
    rw [← hfinished, List.map_map]
    exact List.map_congr_left fun i hi => hdone i (List.mem_range.mp hi)
  -- each bucket has been through its strings from the start
  have hbucket : ∀ i < mergeStringBuckets, Interned { index := i } [] (outs.map (·.buckets i)).flatten
      (done i).1 (done i).2 := fun i hi => (bucketPool_new i).processGroups (hdone i hi)
  have hcontents := fun i => (htaken i).strings
  refine ⟨hended, fun piece hpiece => ?_, ⟨fun i => (done i).1, ?_, fun i hi => ?_⟩, rfl, finished.flatMap (·.2), rfl,
    rfl, fun k v => ?_⟩
  · obtain ⟨s, hs, -, hstring⟩ := (htaken (hashing.bucketOf piece.2)).mem.mpr ⟨hpiece, rfl⟩
    have hfits := (hbucket _ (bucketOf_lt piece.2)).fits s hs
    rwa [List.nil_append, hcontents, hstring] at hfits
  · show finished.map (·.1) = _
    rw [hall, List.map_map]
    rfl
  · have hpool := (hbucket i hi).pool
    rw [List.nil_append, hcontents] at hpool
    exact ⟨hpool, (hbucket i hi).index⟩
  · rw [hall]
    constructor
    · rintro ⟨s, hs, rfl, rfl⟩
      obtain ⟨d, hd, hs⟩ := List.mem_flatMap.mp hs
      obtain ⟨i, hi, rfl⟩ := List.mem_map.mp hd
      have hin := hbucket i (List.mem_range.mp hi)
      rw [hin.stored, List.mem_map] at hs
      obtain ⟨t, ht, rfl⟩ := hs
      obtain ⟨hpiece, hi'⟩ := (htaken i).mem.mp ⟨t, ht, rfl, rfl⟩
      refine ⟨t.string, hpiece, ?_⟩
      rw [MergeHashing.stored, hi', List.nil_append, hcontents]
    · rintro ⟨string, hpiece, rfl⟩
      obtain ⟨t, ht, hk, hstring⟩ := (htaken (hashing.bucketOf string)).mem.mpr ⟨hpiece, rfl⟩
      have hin := hbucket (hashing.bucketOf string) (bucketOf_lt string)
      have hmem : (t.offsetOut, hashing.stored input.sections string) ∈ (done (hashing.bucketOf string)).2 := by
        rw [hin.stored, List.mem_map]
        exact ⟨t, ht, by rw [MergeHashing.stored, hstring, List.nil_append, hcontents]⟩
      exact ⟨_, List.mem_flatMap.mpr
        ⟨_, List.mem_map_of_mem (List.mem_range.mpr (bucketOf_lt string)), hmem⟩, hk, rfl⟩

/-- If the strings have their terminators and the offsets fit, the section is built. -/
theorem addInputSections_isSome (hashing : MergeHashing) (input : MergeSections) (size : GroupSize)
    (hended : ∀ sec ∈ input.sections, sec.Ended) (hfits : hashing.Fits input.sections) :
    ∃ merged, addInputSections hashing input.sections size = some merged := by
  have hsplit := bucketStrings_split hashing input size 0
  rw [(stringsFrom_eq_some input.nonempty).mpr ⟨hended, rfl⟩, Option.map_some] at hsplit
  obtain ⟨outs, houts, -⟩ := Option.map_eq_some_iff.mp hsplit
  have htaken := taken input (bucketStrings_eq input size houts).2
  have hdone : ∀ i, ∃ done,
      ({ index := i } : MergeStringsSectionBucket).processGroups (outs.map (·.buckets i)) = some done := by
    intro i
    refine (bucketPool_new i).processGroups_isSome fun s hs => ?_
    obtain ⟨hpiece, hi⟩ := (htaken i).mem.mp ⟨s, hs, rfl, rfl⟩
    rw [List.nil_append, (htaken i).strings, ← hi]
    exact hfits (s.offsetOut.offset, s.string) hpiece
  choose done hdone using hdone
  refine ⟨finishMerge ((List.range mergeStringBuckets).map done), ?_⟩
  have hfinished : (List.range mergeStringBuckets).mapM (fun i =>
      ({ index := i } : MergeStringsSectionBucket).processGroups (outs.map (·.buckets i))) =
        some ((List.range mergeStringBuckets).map done) := by
    rw [mapM_eq_some, List.map_map]
    refine List.map_congr_left fun i _ => ?_
    rw [hdone i, Function.comp_apply]
  rw [addInputSections, houts, Option.bind_some, hfinished, Option.map_some]

/-! ## The bytes of the section -/

/-- How much the strings of a bucket take. -/
def MergeStringsSectionBucket.size (b : MergeStringsSectionBucket) : Nat := (b.strings.map List.length).sum

variable {buckets : List MergeStringsSectionBucket}

theorem writeStrings_eq (strings : List Bytes) (buffer : Bytes) :
    MergedStringsSection.writeStrings strings buffer =
      if (strings.map List.length).sum ≤ buffer.length then
        some (strings.flatten ++ buffer.drop (strings.map List.length).sum)
      else none := by
  induction strings generalizing buffer with
  | nil => simp [MergedStringsSection.writeStrings]
  | cons string strings ih =>
    rw [MergedStringsSection.writeStrings, ih, List.map_cons, List.sum_cons, List.length_drop]
    by_cases hroom : string.length + (strings.map List.length).sum ≤ buffer.length
    · rw [if_pos (by omega), if_pos (by omega), if_pos hroom, Option.map_some, List.drop_drop, List.flatten_cons,
        List.append_assoc]
    · rw [if_neg hroom]
      split
      · rw [if_neg (by omega), Option.map_none]
      · rfl

/-- Each bucket fills its part. -/
theorem writeBuckets_full {buffer : Bytes} (hsize : ∀ b ∈ buckets, b.nextOffset.toNat = b.size)
    (hlength : buffer.length = (buckets.map (·.size)).sum) :
    MergedStringsSection.writeBuckets buckets buffer = some (buckets.flatMap (·.strings.flatten)) := by
  induction buckets generalizing buffer with
  | nil =>
    rw [List.length_eq_zero_iff.mp hlength]
    rfl
  | cons b buckets ih =>
    rw [List.forall_mem_cons] at hsize
    rw [List.map_cons, List.sum_cons] at hlength
    have htake : (buffer.take b.size).length = b.size := by rw [List.length_take]; omega
    have hstrings : MergedStringsSection.writeStrings b.strings (buffer.take b.size) = some b.strings.flatten := by
      rw [writeStrings_eq, ← MergeStringsSectionBucket.size, htake, if_pos (Nat.le_refl _),
        List.drop_eq_nil_of_le (Nat.le_of_eq htake), List.append_nil]
    have hdrop : (buffer.drop b.size).length = (buckets.map (·.size)).sum := by
      rw [List.length_drop]
      omega
    have hrest := ih hsize.2 hdrop
    rw [MergedStringsSection.writeBuckets, hsize.1, if_pos (by omega), hstrings, hrest]
    rfl

/-- A bucket whose size is cut off does not fit in its part. -/
theorem writeBuckets_overflow {buffer : Bytes} (h : ∃ b ∈ buckets, b.nextOffset.toNat < b.size) :
    MergedStringsSection.writeBuckets buckets buffer = none := by
  induction buckets generalizing buffer with
  | nil => simp at h
  | cons b buckets ih =>
    rw [MergedStringsSection.writeBuckets]
    split
    case isFalse => rfl
    case isTrue =>
      obtain ⟨b', hb', hless⟩ := h
      rcases List.mem_cons.mp hb' with rfl | hbehind
      · have hshort : ¬ b'.size ≤ (buffer.take b'.nextOffset.toNat).length := by
          rw [List.length_take]
          omega
        rw [writeStrings_eq, ← MergeStringsSectionBucket.size, if_neg hshort]
        rfl
      · rw [ih ⟨b', hbehind, hless⟩]
        cases MergedStringsSection.writeStrings b.strings (buffer.take b.nextOffset.toNat) <;> rfl

theorem bucketOffsetsOf_eq (i : Nat) :
    bucketOffsetsOf buckets i = ((buckets.take i).map (·.nextOffset.toNat)).sum := by
  induction i with
  | zero => rfl
  | succ i ih =>
    rw [bucketOffsetsOf, ih, List.take_add_one, List.map_append, List.sum_append]
    cases buckets[i]? <;> rfl

end

end Reld.Merge
