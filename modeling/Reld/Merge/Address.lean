import Reld.Merge.Pooled

/-!
# `Merge.Address` — the address of a merged string

A reference into a string section is looked up by its linear input offset, or by that of the string it points into:
the distance is added to the packed offset. That gives the right address as long as the sum stays in the bits for the
offset. Behind `2 ^ 28` bytes of a bucket it goes on in the number of the bucket (`unnamed_address_iff`).
-/

namespace Reld.Merge

open Interning Terminated

/-! ## Where the bytes are -/

/-- The string of a section that a position lies in. -/
def StringMergeInputSection.stringAt (sec : StringMergeInputSection) (o : Nat) : Bytes :=
  first isNul (sec.sectionData.drop (startOf isNul sec.sectionData o))

variable (hashing : MergeHashing) (sections : List StringMergeInputSection)

/-- How much the distinct strings of a bucket take. -/
def MergeHashing.bucketSize (bucket : Nat) : Nat :=
  ((distinct (hashing.contents sections bucket)).map List.length).sum

/-- How much lies in front of a bucket. -/
def MergeHashing.bucketStart (bucket : Nat) : Nat := ((List.range bucket).map (hashing.bucketSize sections)).sum

/-- The buckets one behind the other. -/
def MergeHashing.image : Bytes :=
  (List.range mergeStringBuckets).flatMap fun i => (distinct (hashing.contents sections i)).flatten

/-- Where a position of a section lies in the bucket of its string. -/
def MergeHashing.offsetInBucket (sec : StringMergeInputSection) (o : Nat) : Nat :=
  offsetOf List.length (distinct (hashing.contents sections (hashing.bucketOf (sec.stringAt o)))) (sec.stringAt o) +
    (o - startOf isNul sec.sectionData o)

/-- Wherever the section is placed, the address is that of the bytes in what is written. -/
def MergedStringTarget.ResolvesTo (target : MergedStringTarget) (addend : BitVec 64) (merged : MergedStringsSection)
    (bytes : Bytes) : Prop :=
  ∀ (base : Nat) (buffer : Bytes), buffer.length = merged.len →
    ∃ address image, target.unnamedAddress addend merged (mergedStringStartAddresses base merged) = some address ∧
      merged.writeToBuffer buffer = some image ∧ base ≤ address ∧ bytes <+: image.drop (address - base)

variable {hashing sections} {merged : MergedStringsSection} {sec : StringMergeInputSection} {start o : Nat}

/-! ## Looking up -/

variable {k : Nat}

theorem lookup_mem {α : Type} {l : List (Nat × α)} {v : α} (h : l.lookup k = some v) : (k, v) ∈ l := by
  obtain ⟨front, behind, rfl, -⟩ := List.lookup_eq_some_iff.mp h
  simp

theorem lookup_isSome {α : Type} {l : List (Nat × α)} {v : α} (h : (k, v) ∈ l) : l.lookup k ≠ none := by
  intro hnone
  have := List.lookup_eq_none_iff.mp hnone (k, v) h
  simp at this

variable {stored : List (OffsetOut × BucketOffset)} {v : BucketOffset}

theorem mem_inShards :
    (k, v) ∈ inShards stored ↔ (OffsetOut.inShard k, v) ∈ stored := by
  unfold inShards
  rw [List.mem_filterMap]
  constructor
  · rintro ⟨⟨offsetOut, value⟩, hs, heq⟩
    cases offsetOut with
    | inShard key => cases heq; exact hs
    | overflow _  => cases heq
  · exact fun h => ⟨_, h, rfl⟩

theorem mem_overflowed :
    (k, v) ∈ overflowed stored ↔ (OffsetOut.overflow k, v) ∈ stored := by
  unfold overflowed
  rw [List.mem_filterMap]
  constructor
  · rintro ⟨⟨offsetOut, value⟩, hs, heq⟩
    cases offsetOut with
    | inShard _  => cases heq
    | overflow _ => cases heq; exact hs
  · exact fun h => ⟨_, h, rfl⟩

/-- What is found has been stored for a string of the input at that offset. -/
theorem Built.piece_of_lookup (h : Built hashing sections merged) (hlookup : merged.lookup k = some v) :
    ∃ string, (k, string) ∈ inputPieces sections ∧ hashing.stored sections string = v := by
  obtain ⟨stored, hshards, hoverflowed, hstored⟩ := h.stored
  refine (hstored k v).mp ?_
  rw [MergedStringsSection.lookup, hshards, hoverflowed, Option.or_eq_some_iff] at hlookup
  rcases hlookup with hfound | ⟨-, hfound⟩
  · exact ⟨_, mem_inShards.mp (lookup_mem hfound), rfl, rfl⟩
  · exact ⟨_, mem_overflowed.mp (lookup_mem hfound), rfl, rfl⟩

variable {string : Bytes}

/-- Something is found at the offset of a string. -/
theorem Built.lookup_isSome (h : Built hashing sections merged) (hpiece : (k, string) ∈ inputPieces sections) :
    merged.lookup k ≠ none := by
  obtain ⟨stored, hshards, hoverflowed, hstored⟩ := h.stored
  obtain ⟨⟨offsetOut, value⟩, hs, rfl, rfl⟩ := (hstored k _).mpr ⟨string, hpiece, rfl⟩
  rw [MergedStringsSection.lookup, hshards, hoverflowed, Ne, Option.or_eq_none_iff, not_and_or]
  cases offsetOut with
  | inShard key    => exact .inl (Reld.Merge.lookup_isSome (mem_inShards.mpr hs))
  | overflow key   => exact .inr (Reld.Merge.lookup_isSome (mem_overflowed.mpr hs))

/-- The pieces at the offsets of a section are its own. -/
theorem mem_inputPieces_iff (hplaced : PlacedFrom start sections) (hne : ∀ sec ∈ sections, sec.sectionData ≠ [])
    (hsec : sec ∈ sections) (ho : o < sec.paddedLen) :
    (sec.startInputOffset + o, string) ∈ inputPieces sections ↔ (sec.startInputOffset + o, string) ∈ sectionPieces sec := by
  induction sections generalizing start with
  | nil => cases hsec
  | cons head behind ih =>
    obtain ⟨hstart, hplaced⟩ := hplaced
    have hbehind := inputPieces_behind hplaced (fun sec hsec => hne sec (List.mem_cons_of_mem _ hsec))
    have hhead : ∀ piece ∈ sectionPieces head, piece.1 < start + head.paddedLen := fun piece hpiece =>
      hstart ▸ (sectionPieces_within (hne head List.mem_cons_self) hpiece).2
    rw [inputPieces, List.flatMap_cons, List.mem_append]
    rcases List.mem_cons.mp hsec with rfl | hsec
    · refine ⟨fun h => h.resolve_right fun h => ?_, .inl⟩
      have : start + sec.paddedLen ≤ sec.startInputOffset + o := hbehind _ h
      omega
    · have hfrom : start + head.paddedLen ≤ sec.startInputOffset := by
        obtain ⟨front, rest, rfl⟩ := List.append_of_mem hsec
        have := (placedFrom_append.mp hplaced).2.1
        omega
      rw [← inputPieces, ih hplaced (fun sec hsec => hne sec (List.mem_cons_of_mem _ hsec)) hsec, or_iff_right]
      intro h
      have : sec.startInputOffset + o < start + head.paddedLen := hhead _ h
      omega

theorem mem_sectionPieces_iff (hstring : sec.isString = true) :
    (sec.startInputOffset + o, string) ∈ sectionPieces sec ↔
      startsAt isNul sec.sectionData o = true ∧ string = first isNul (sec.sectionData.drop o) := by
  unfold sectionPieces shiftPieces
  rw [if_pos hstring, List.mem_map]
  constructor
  · rintro ⟨q, hq, heq⟩
    rw [Prod.mk.injEq] at heq
    obtain ⟨-, -, hstarts, hfirst⟩ := mem_piecesIn.mp hq
    rw [show o = q.1 by omega, ← heq.2]
    exact ⟨hstarts, hfirst⟩
  · rintro ⟨hstarts, rfl⟩
    exact ⟨(o, _), mem_piecesIn.mpr ⟨Nat.zero_le o, startsAt_lt hstarts, hstarts, rfl⟩, rfl⟩

section

variable {input : MergeSections} (h : Built hashing input.sections merged) (hsec : sec ∈ input.sections)
  (hstring : sec.isString = true)
include h hsec hstring

/-- The lookup in a string section: the strings are found at their starts. -/
theorem Built.lookup (ho : o < sec.sectionData.length) :
    merged.lookup (sec.startInputOffset + o) =
      if startsAt isNul sec.sectionData o then
        some (hashing.stored input.sections (first isNul (sec.sectionData.drop o)))
      else none := by
  have hpieces : ∀ string, (sec.startInputOffset + o, string) ∈ inputPieces input.sections ↔
      startsAt isNul sec.sectionData o = true ∧ string = first isNul (sec.sectionData.drop o) := fun string =>
    (mem_inputPieces_iff input.placed input.nonempty hsec (ho.trans_le (le_paddedLen sec))).trans
      (mem_sectionPieces_iff hstring)
  cases hlookup : merged.lookup (sec.startInputOffset + o) with
  | none =>
    rw [if_neg]
    intro hstarts
    exact h.lookup_isSome ((hpieces _).mpr ⟨hstarts, rfl⟩) hlookup
  | some v =>
    obtain ⟨string, hpiece, rfl⟩ := h.piece_of_lookup hlookup
    obtain ⟨hstarts, rfl⟩ := (hpieces string).mp hpiece
    rw [if_pos hstarts]

/-- The backward search comes to the start of the string first. -/
theorem Built.findBackwards (ho : o < sec.sectionData.length) {back : Nat}
    (hstart : startOf isNul sec.sectionData o < back) (hback : back ≤ o) :
    merged.findBackwards sec.startInputOffset o back =
      some (hashing.stored input.sections (sec.stringAt o) +
        BitVec.ofNat 32 (o - startOf isNul sec.sectionData o)) := by
  induction back with
  | zero => omega
  | succ back ih =>
    rw [MergedStringsSection.findBackwards, h.lookup hsec hstring (show back < sec.sectionData.length by omega)]
    rcases Nat.lt_or_eq_of_le (Nat.le_of_lt_succ hstart) with hlt | rfl
    · rw [not_startsAt_of_startOf_lt hlt (by omega), if_neg Bool.false_ne_true]
      exact ih hlt (by omega)
    · rw [startsAt_startOf (input.nonempty sec hsec), if_pos rfl]
      rfl

/-- `find_string` -/
theorem Built.findString (ho : o < sec.sectionData.length) :
    merged.findString sec.startInputOffset o =
      some (hashing.stored input.sections (sec.stringAt o) +
        BitVec.ofNat 32 (o - startOf isNul sec.sectionData o)) := by
  rw [MergedStringsSection.findString, h.lookup hsec hstring ho]
  cases hstarts : startsAt isNul sec.sectionData o with
  | true  =>
    rw [if_pos rfl, StringMergeInputSection.stringAt, startOf_of_startsAt hstarts, Nat.sub_self]
    simp
  | false =>
    refine h.findBackwards hsec hstring ho (Nat.lt_of_le_of_ne (startOf_le _ _ o) fun heq => ?_) (Nat.le_refl o)
    rw [← heq, startsAt_startOf (input.nonempty sec hsec)] at hstarts
    cases hstarts

end

/-! ## The bytes -/

/-- No bucket is larger than its counter. -/
def MergeHashing.SizesFit (hashing : MergeHashing) (sections : List StringMergeInputSection) : Prop :=
  ∀ i < mergeStringBuckets, hashing.bucketSize sections i < 2 ^ 32

theorem bucketStart_succ (i : Nat) :
    hashing.bucketStart sections (i + 1) = hashing.bucketStart sections i + hashing.bucketSize sections i := by
  simp [MergeHashing.bucketStart, List.range_succ]

/-- What the buckets hold if their sizes fit. -/
structure Laid (hashing : MergeHashing) (sections : List StringMergeInputSection) (merged : MergedStringsSection) :
    Prop where
  offsets : ∀ i ≤ mergeStringBuckets, merged.bucketOffsets i = hashing.bucketStart sections i
  written : ∀ buffer, buffer.length = merged.len → merged.writeToBuffer buffer = some (hashing.image sections)

theorem Built.laid (h : Built hashing sections merged) (hsizes : hashing.SizesFit sections) :
    Laid hashing sections merged := by
  obtain ⟨bucket, hbuckets, hpool⟩ := h.buckets
  have hsize : ∀ i < mergeStringBuckets, (bucket i).size = hashing.bucketSize sections i := by
    intro i hi
    rw [MergeStringsSectionBucket.size, (hpool i hi).1.strings, MergeHashing.bucketSize]
  have hnext : ∀ i < mergeStringBuckets, (bucket i).nextOffset.toNat = hashing.bucketSize sections i := by
    intro i hi
    rw [(hpool i hi).1.nextOffset, BitVec.toNat_ofNat, ← MergeHashing.bucketSize, Nat.mod_eq_of_lt (hsizes i hi)]
  have hoffsets : ∀ i ≤ mergeStringBuckets, merged.bucketOffsets i = hashing.bucketStart sections i := by
    intro i hi
    rw [h.bucketOffsets, bucketOffsetsOf_eq, hbuckets, ← List.map_take, List.take_range, Nat.min_eq_left hi,
      List.map_map, MergeHashing.bucketStart]
    congr 1
    exact List.map_congr_left fun j hj => hnext j ((List.mem_range.mp hj).trans_le hi)
  refine ⟨hoffsets, fun buffer hbuffer => ?_⟩
  have hlen : merged.len = ((merged.buckets.map (·.size))).sum := by
    have hlast : merged.buckets.getLast? = some (bucket (mergeStringBuckets - 1)) := by
      rw [hbuckets]
      rfl
    have hlt : mergeStringBuckets - 1 < mergeStringBuckets := by decide
    rw [MergedStringsSection.len, hlast, Option.map_some, Option.getD_some, (hpool _ hlt).2, hnext _ hlt,
      hoffsets _ (Nat.le_of_lt hlt), Nat.add_comm, ← bucketStart_succ, MergeHashing.bucketStart, hbuckets, List.map_map]
    congr 1
    exact List.map_congr_left fun j hj => (hsize j (List.mem_range.mp hj)).symm
  rw [MergedStringsSection.writeToBuffer, writeBuckets_full _ (hbuffer.trans hlen), hbuckets, List.flatMap_map]
  · rw [MergeHashing.image, List.flatMap_def, List.flatMap_def]
    congr 2
    exact List.map_congr_left fun i hi => by rw [(hpool i (List.mem_range.mp hi)).1.strings]
  · intro b hb
    rw [hbuckets, List.mem_map] at hb
    obtain ⟨i, hi, rfl⟩ := hb
    rw [hnext i (List.mem_range.mp hi), hsize i (List.mem_range.mp hi)]

/-- Nothing is written if the size of a bucket is cut off. -/
theorem Built.sizesFit_of_written (h : Built hashing sections merged) {buffer image : Bytes}
    (hwritten : merged.writeToBuffer buffer = some image) : hashing.SizesFit sections := by
  obtain ⟨bucket, hbuckets, hpool⟩ := h.buckets
  intro i hi
  by_contra hlarge
  have hnone : merged.writeToBuffer buffer = none := by
    refine writeBuckets_overflow ⟨bucket i, ?_, ?_⟩
    · rw [hbuckets]
      exact List.mem_map_of_mem (List.mem_range.mpr hi)
    · rw [(hpool i hi).1.nextOffset, MergeStringsSectionBucket.size, (hpool i hi).1.strings, BitVec.toNat_ofNat]
      rw [MergeHashing.bucketSize] at hlarge
      omega
  rw [hnone] at hwritten
  cases hwritten

theorem length_flatten_distinct (bucket : Nat) :
    (distinct (hashing.contents sections bucket)).flatten.length = hashing.bucketSize sections bucket :=
  List.length_flatten

/-- A bucket in the image. -/
theorem image_drop {bucket q : Nat} (hbucket : bucket < mergeStringBuckets)
    (hq : q ≤ hashing.bucketSize sections bucket) :
    (distinct (hashing.contents sections bucket)).flatten.drop q <+:
      (hashing.image sections).drop (hashing.bucketStart sections bucket + q) := by
  obtain ⟨m, hm⟩ : ∃ m, mergeStringBuckets = bucket + (m + 1) := ⟨mergeStringBuckets - bucket - 1, by omega⟩
  have hfront : ((List.range bucket).flatMap fun i => (distinct (hashing.contents sections i)).flatten).length =
      hashing.bucketStart sections bucket := by
    rw [List.length_flatMap, MergeHashing.bucketStart]
    congr 1
    exact List.map_congr_left fun i _ => length_flatten_distinct i
  rw [MergeHashing.image, hm, List.range_add, List.range_succ_eq_map, List.map_cons, Nat.add_zero, List.flatMap_append,
    List.flatMap_cons, ← hfront, ← List.drop_drop, List.drop_left,
    List.drop_append_of_le_length (hq.trans_eq (length_flatten_distinct bucket).symm)]
  exact List.prefix_append _ _

/-! ## The address -/

section

variable {input : MergeSections} {target : MergedStringTarget} {addend : BitVec 64}

/-- The number of the bucket and the offset of a position, packed: the sum has gone on into the bits of the number. -/
theorem toNat_stored_add (hfits : hashing.Fits sections) (hsizes : hashing.SizesFit sections) {k : Nat}
    {string : Bytes} (hpiece : (k, string) ∈ inputPieces sections) (distance : Nat) :
    (hashing.stored sections string + BitVec.ofNat 32 distance).toNat =
      (hashing.bucketOf string * 2 ^ 28 +
        (offsetOf List.length (distinct (hashing.contents sections (hashing.bucketOf string))) string + distance)) %
          2 ^ 32 := by
  have hmem : string ∈ distinct (hashing.contents sections (hashing.bucketOf string)) :=
    mem_distinct.mpr (List.mem_map.mpr ⟨_, mem_ofBucket.mpr ⟨hpiece, rfl⟩, rfl⟩)
  have hle : offsetOf List.length _ string ≤ hashing.bucketSize sections (hashing.bucketOf string) :=
    (Nat.le_add_right _ _).trans (offsetOf_add_le hmem)
  have hoffset : (pooledOffset (hashing.contents sections (hashing.bucketOf string)) string).toNat =
      offsetOf List.length (distinct (hashing.contents sections (hashing.bucketOf string))) string := by
    rw [pooledOffset, BitVec.toNat_ofNat, Nat.mod_eq_of_lt]
    exact hle.trans_lt (hsizes _ (bucketOf_lt string))
  rw [BitVec.toNat_add, MergeHashing.stored, toNat_packed (bucketOf_lt string) (hfits _ hpiece), hoffset,
    BitVec.toNat_ofNat, Nat.add_mod_mod, Nat.add_assoc]

theorem mem_stringAt (hsec : sec ∈ input.sections) (hstring : sec.isString = true) (ho : o < sec.sectionData.length) :
    (sec.startInputOffset + startOf isNul sec.sectionData o, sec.stringAt o) ∈ inputPieces input.sections := by
  have hlt : startOf isNul sec.sectionData o < sec.paddedLen :=
    (startOf_le _ _ o).trans_lt (ho.trans_le (le_paddedLen sec))
  rw [mem_inputPieces_iff input.placed input.nonempty hsec hlt, mem_sectionPieces_iff hstring]
  exact ⟨startsAt_startOf (input.nonempty sec hsec) o, rfl⟩

/-- The address that comes out. -/
theorem Built.unnamedAddress (h : Built hashing input.sections merged) (hsizes : hashing.SizesFit input.sections)
    (hsec : sec ∈ input.sections) (hstring : sec.isString = true)
    (hslot : target.startInputOffset = sec.startInputOffset) (ho : (target.symbolValue + addend).toNat = o)
    (hlt : o < sec.sectionData.length) (base : Nat) :
    target.unnamedAddress addend merged (mergedStringStartAddresses base merged) =
      some (merged.bucketOffsets ((hashing.bucketOf (sec.stringAt o) +
        hashing.offsetInBucket input.sections sec o / 2 ^ 28) % mergeStringBuckets) + base +
          hashing.offsetInBucket input.sections sec o % 2 ^ 28) := by
  have hvalue := toNat_stored_add h.fits hsizes (mem_stringAt hsec hstring hlt) (o - startOf isNul sec.sectionData o)
  rw [← MergeHashing.offsetInBucket] at hvalue
  have h16 : mergeStringBuckets = 16 := by decide
  rw [MergedStringTarget.unnamedAddress]
  simp only [ho, hslot, h.findString hsec hstring hlt, Option.map_some, mergedStringStartAddresses, toNat_bucket,
    toNat_offsetInBucket, hvalue, h16]
  generalize hashing.bucketOf (sec.stringAt o) = bucket
  generalize hashing.offsetInBucket input.sections sec o = offset
  rw [show (bucket * 2 ^ 28 + offset) % 2 ^ 32 / 2 ^ 28 = (bucket + offset / 2 ^ 28) % 16 by omega,
    show (bucket * 2 ^ 28 + offset) % 2 ^ 32 % 2 ^ 28 = offset % 2 ^ 28 by omega]

/-- Within the bits for the offset, the bytes are there. -/
theorem tail_front (hsec : sec ∈ input.sections) (hstring : sec.isString = true) (ho : o < sec.sectionData.length) :
    first isNul (sec.sectionData.drop o) <+:
      (hashing.image input.sections).drop (hashing.bucketStart input.sections (hashing.bucketOf (sec.stringAt o)) +
        hashing.offsetInBucket input.sections sec o) := by
  have hmem : sec.stringAt o ∈ distinct (hashing.contents input.sections (hashing.bucketOf (sec.stringAt o))) :=
    mem_distinct.mpr (List.mem_map.mpr ⟨_, mem_ofBucket.mpr ⟨mem_stringAt hsec hstring ho, rfl⟩, rfl⟩)
  have hinside : o - startOf isNul sec.sectionData o < (sec.stringAt o).length := sub_startOf_lt ho
  have hend : offsetOf List.length _ (sec.stringAt o) + (sec.stringAt o).length ≤
      hashing.bucketSize input.sections (hashing.bucketOf (sec.stringAt o)) := offsetOf_add_le hmem
  have hq : hashing.offsetInBucket input.sections sec o ≤
      hashing.bucketSize input.sections (hashing.bucketOf (sec.stringAt o)) := by
    rw [MergeHashing.offsetInBucket]
    omega
  refine List.IsPrefix.trans ?_ (image_drop (bucketOf_lt _) hq)
  rw [first_drop_eq ho, MergeHashing.offsetInBucket, ← List.drop_drop]
  exact (drop_offsetOf hmem).drop _

end

/-- **A reference resolves to its bytes exactly if the sum stays in the bits for the offset**, or what it goes on to
happens to hold the same bytes; and the sizes of the buckets have not been cut off. -/
theorem unnamed_address_iff (hashing : MergeHashing) (input : MergeSections) (size : GroupSize)
    {merged : MergedStringsSection} (hbuilt : addInputSections hashing input.sections size = some merged)
    {sec : StringMergeInputSection} (hsec : sec ∈ input.sections) (hstring : sec.isString = true)
    (target : MergedStringTarget) (addend : BitVec 64) (hslot : target.startInputOffset = sec.startInputOffset)
    {o : Nat} (ho : (target.symbolValue + addend).toNat = o) (hlt : o < sec.sectionData.length) :
    target.ResolvesTo addend merged (first isNul (sec.sectionData.drop o)) ↔
      hashing.SizesFit input.sections ∧
        (hashing.offsetInBucket input.sections sec o < 2 ^ 28 ∨
          first isNul (sec.sectionData.drop o) <+: (hashing.image input.sections).drop
            (hashing.bucketStart input.sections ((hashing.bucketOf (sec.stringAt o) +
              hashing.offsetInBucket input.sections sec o / 2 ^ 28) % mergeStringBuckets) +
                hashing.offsetInBucket input.sections sec o % 2 ^ 28)) := by
  have h := built_of_addInputSections input size hbuilt
  constructor
  · intro hresolves
    obtain ⟨_, _, -, hwritten, -⟩ := hresolves 0 (List.replicate merged.len 0) List.length_replicate
    have hsizes := h.sizesFit_of_written hwritten
    refine ⟨hsizes, .inr ?_⟩
    obtain ⟨address, image, haddress, hwritten, -, hbytes⟩ :=
      hresolves 0 (List.replicate merged.len 0) List.length_replicate
    rw [h.unnamedAddress hsizes hsec hstring hslot ho hlt, Option.some.injEq] at haddress
    rw [(h.laid hsizes).written _ List.length_replicate, Option.some.injEq] at hwritten
    subst haddress hwritten
    rwa [(h.laid hsizes).offsets _ (Nat.le_of_lt (Nat.mod_lt _ (by decide))), Nat.add_zero, Nat.sub_zero] at hbytes
  · rintro ⟨hsizes, hplace⟩ base buffer hbuffer
    refine ⟨_, _, h.unnamedAddress hsizes hsec hstring hslot ho hlt base, (h.laid hsizes).written buffer hbuffer,
      by omega, ?_⟩
    rw [(h.laid hsizes).offsets _ (Nat.le_of_lt (Nat.mod_lt _ (by decide))), Nat.add_right_comm, Nat.add_sub_cancel]
    rcases hplace with hin | hthere
    · -- without a carry both parts are those of the string
      have hbucket := @bucketOf_lt hashing (sec.stringAt o)
      rw [Nat.div_eq_of_lt hin, Nat.add_zero, Nat.mod_eq_of_lt hbucket, Nat.mod_eq_of_lt hin]
      exact tail_front hsec hstring hlt
    · exact hthere

theorem unnamed_address_inside :
    let hashing : MergeHashing := ⟨List.length, fun _ _ => true⟩
    let sections : List StringMergeInputSection := [⟨[97, 0, 98, 0], 0, true⟩]
    ∃ merged, addInputSections hashing sections ⟨256, by decide, by decide⟩ = some merged ∧
      (⟨0, 1⟩ : MergedStringTarget).ResolvesTo 1 merged [98, 0] := by
  intro hashing sections
  let input : MergeSections := ⟨sections, ⟨rfl, trivial⟩, by decide⟩
  obtain ⟨merged, hmerged⟩ := addInputSections_isSome hashing input ⟨256, by decide, by decide⟩
    (by unfold StringMergeInputSection.Ended; decide) (by unfold MergeHashing.Fits; decide)
  refine ⟨merged, hmerged, ?_⟩
  have h := unnamed_address_iff hashing input ⟨256, by decide, by decide⟩ hmerged List.mem_cons_self rfl ⟨0, 1⟩ 1 rfl
    (o := 2) (by decide) (by decide)
  exact h.mpr ⟨by unfold MergeHashing.SizesFit; decide, .inl (by decide)⟩

/-! ## A string that goes on behind the bits for the offset -/

section

/-- A section with one string of `n` bytes and its terminator. -/
def longString (n : Nat) : StringMergeInputSection := ⟨List.replicate n 1 ++ [0], 0, true⟩

def longInput (n : Nat) : MergeSections := ⟨[longString n], ⟨rfl, trivial⟩, by simp [longString]⟩

variable (hashing : MergeHashing) (n : Nat)

theorem first_longString : first isNul (longString n).sectionData = (longString n).sectionData := by
  have hones : (List.replicate n (1 : UInt8)).findIdx isNul = n := by
    rw [List.findIdx_eq_length_of_false (by simp [isNul]), List.length_replicate]
  have hindex : (longString n).sectionData.findIdx isNul = n := by
    simp [longString, List.findIdx_append, hones, isNul]
  rw [first, hindex]
  exact List.take_of_length_le (by simp [longString])

/-- Its only piece is the string. -/
theorem inputPieces_longString : inputPieces [longString n] = [(0, (longString n).sectionData)] := by
  have hends : endsFrom isNul (longString n).sectionData 0 = true := by simp [endsFrom, longString, isNul]
  have hlength : 0 < (longString n).sectionData.length := by simp [longString]
  have hsplit : split isNul (longString n).sectionData 0 (longString n).sectionData.length =
      some (piecesIn isNul (longString n).sectionData 0 (longString n).sectionData.length) :=
    split_of_getLast ⟨0, by simp [longString], rfl⟩
  rw [split_step (startsAt_zero (List.ne_nil_of_length_pos hlength)) hlength, if_pos hends, List.drop_zero,
    first_longString, split_of_le (Nat.le_add_left _ _), Option.map_some, Option.some.injEq] at hsplit
  rw [inputPieces, List.flatMap_singleton, sectionPieces, if_pos (show (longString n).isString = true from rfl),
    ← hsplit]
  rfl

theorem contents_longString (bucket : Nat) :
    hashing.contents [longString n] bucket =
      if hashing.bucketOf (longString n).sectionData = bucket then [(longString n).sectionData] else [] := by
  rw [MergeHashing.contents, inputPieces_longString, MergeHashing.ofBucket, List.filter_cons]
  split <;> simp_all

theorem distinct_singleton (string : Bytes) : distinct [string] = [string] := rfl

/-- The buckets in front of that of the string are empty, and it is all of its own. -/
theorem bucketStart_longString (bucket : Nat) :
    hashing.bucketStart [longString n] bucket =
      if hashing.bucketOf (longString n).sectionData < bucket then n + 1 else 0 := by
  induction bucket with
  | zero => rfl
  | succ bucket ih =>
    rw [bucketStart_succ, ih, MergeHashing.bucketSize, contents_longString]
    rcases Nat.lt_trichotomy (hashing.bucketOf (longString n).sectionData) bucket with hlt | heq | hgt
    · rw [if_pos hlt, if_neg (Nat.ne_of_lt hlt), if_pos (by omega)]
      rfl
    · rw [if_neg (by omega), if_pos heq, if_pos (by omega), distinct_singleton]
      simp [longString]
    · rw [if_neg (by omega), if_neg (by omega), if_neg (by omega)]
      rfl

theorem image_longString : hashing.image [longString n] = (longString n).sectionData := by
  have hall : ∀ k, ((List.range k).flatMap fun i => (distinct (hashing.contents [longString n] i)).flatten) =
      if hashing.bucketOf (longString n).sectionData < k then (longString n).sectionData else [] := by
    intro k
    induction k with
    | zero => rfl
    | succ k ih =>
      rw [List.range_succ, List.flatMap_append, ih, List.flatMap_singleton, contents_longString]
      rcases Nat.lt_trichotomy (hashing.bucketOf (longString n).sectionData) k with hlt | heq | hgt
      · rw [if_pos hlt, if_neg (Nat.ne_of_lt hlt), if_pos (by omega)]
        exact List.append_nil _
      · rw [if_neg (by omega), if_pos heq, if_pos (by omega), distinct_singleton]
        exact List.append_nil _
      · rw [if_neg (by omega), if_neg (by omega), if_neg (by omega)]
        rfl
  rw [MergeHashing.image, hall, if_pos (bucketOf_lt _)]

theorem stringAt_longString :
    startOf isNul (longString n).sectionData n = 0 ∧ (longString n).stringAt n = (longString n).sectionData := by
  have hsec : longString n ∈ (longInput n).sections := List.mem_cons_self
  have hlt : n < (longString n).sectionData.length := by simp [longString]
  have hmem := mem_stringAt hsec rfl hlt
  rw [show (longInput n).sections = [longString n] from rfl, inputPieces_longString, List.mem_singleton,
    Prod.mk.injEq] at hmem
  exact ⟨(Nat.zero_add _).symm.trans hmem.1, hmem.2⟩

/-- Its terminator lies `n` bytes into its bucket. -/
theorem offsetInBucket_longString : hashing.offsetInBucket [longString n] (longString n) n = n := by
  have hstring := stringAt_longString n
  rw [MergeHashing.offsetInBucket, hstring.1, hstring.2, contents_longString, if_pos rfl, distinct_singleton]
  simp [offsetOf]

/-- It is built, with any hash. -/
theorem longString_built (size : GroupSize) :
    ∃ merged, addInputSections hashing (longInput n).sections size = some merged := by
  refine addInputSections_isSome _ (longInput n) size (fun sec hsec hstring => ?_) fun piece hpiece => ?_
  · rw [List.mem_singleton.mp hsec]
    refine endedIn_iff.mpr fun o _ ho _ => ?_
    rw [longString, List.length_append, List.length_replicate, List.length_singleton] at ho
    rw [endsFrom, longString, List.drop_append_of_le_length (by rw [List.length_replicate]; omega), List.any_append]
    exact Bool.or_eq_true_iff.mpr (.inr rfl)
  · rw [show (longInput n).sections = [longString n] from rfl, inputPieces_longString, List.mem_singleton] at hpiece
    rw [hpiece, show (longInput n).sections = [longString n] from rfl, contents_longString, if_pos rfl]
    simp [pooledOffset, distinct_singleton, offsetOf]

/-- Behind `2 ^ 28` bytes of a string its terminator is looked for in the next bucket. -/
theorem carry_into_bucket :
    ¬ ∃ hashing : MergeHashing, ∀ merged,
      addInputSections hashing [longString (2 ^ 28)] ⟨2 ^ 29, by decide, by decide⟩ = some merged →
        (⟨0, BitVec.ofNat 64 (2 ^ 28)⟩ : MergedStringTarget).ResolvesTo 0 merged [0] := by
  rintro ⟨hashing, hall⟩
  -- the length stays a variable, so that the string is never computed
  obtain ⟨n, hn⟩ : ∃ n : Nat, n = 2 ^ 28 := ⟨_, rfl⟩
  rw [← hn] at hall
  obtain ⟨merged, hmerged⟩ := longString_built hashing n ⟨2 ^ 29, by decide, by decide⟩
  have ho : ((⟨0, BitVec.ofNat 64 n⟩ : MergedStringTarget).symbolValue + 0).toNat = n := by
    show (BitVec.ofNat 64 n + 0#64).toNat = n
    rw [BitVec.add_zero, BitVec.toNat_ofNat, Nat.mod_eq_of_lt (by omega)]
  have h := built_of_addInputSections (longInput n) _ hmerged
  obtain ⟨address, image, haddress, hwritten, -, hbytes⟩ := hall merged hmerged 0 (List.replicate merged.len 0)
    List.length_replicate
  have hsizes := h.sizesFit_of_written hwritten
  have hsec : longString n ∈ (longInput n).sections := List.mem_cons_self
  rw [h.unnamedAddress hsizes hsec rfl rfl ho (by simp [longString]), Option.some.injEq] at haddress
  rw [(h.laid hsizes).written _ List.length_replicate, Option.some.injEq] at hwritten
  subst haddress hwritten
  rw [(h.laid hsizes).offsets _ (Nat.le_of_lt (Nat.mod_lt _ (by decide)))] at hbytes
  rw [show (longInput n).sections = [longString n] from rfl, (stringAt_longString n).2, offsetInBucket_longString,
    image_longString, bucketStart_longString, Nat.add_zero, Nat.sub_zero, hn, Nat.div_self (by decide), Nat.mod_self,
    Nat.add_zero, ← hn] at hbytes
  split at hbytes
  case isTrue =>
    rw [List.drop_of_length_le (by simp [longString])] at hbytes
    exact absurd (List.prefix_nil.mp hbytes) (by simp)
  case isFalse =>
    obtain ⟨m, rfl⟩ : ∃ m, n = m + 1 := ⟨n - 1, by omega⟩
    rw [List.drop_zero, longString, List.replicate_succ, List.cons_append, List.cons_prefix_cons] at hbytes
    exact absurd hbytes.1 (by decide)

end

end Reld.Merge
