import Mathlib.Data.Prod.Basic
import Reld.Lib.Traverse
import Reld.Layout.OutputSections

/-!
# `Layout.SortedSections` — input sections that a script sorts by name

Sections that match a `SORT` pattern are kept back until all files are loaded. Then they are sorted by name, their sizes
are added to the parts of the epilogue, and they get addresses one after another, each in its own part. Parts are laid
out by alignment, so sections of one pattern with different alignments do not end up in the order of their names. In a
packed section the addresses are aligned, but the sizes and the writer leave no room for that.
-/

namespace Reld

/-! ## Sorting -/

/-- A loaded input section with `needs_sorting`: its name, the pattern that matched, and its part. -/
structure ScriptSortedSection where
  name : Bytes
  pattern : Nat
  part : Nat
  size : Nat
deriving DecidableEq, Repr

/-- The part of an output section. -/
abbrev SectionPart := OutputSectionId × Nat

/-- `InputSortedSection`, with the section itself for its file and index. -/
structure InputSortedSection where
  inputSection : ScriptSortedSection
  partId : SectionPart
  size : Nat
  alignment : Alignment
deriving DecidableEq, Repr

/-- What is known about output sections. -/
structure SortContext where
  minAlignment : OutputSectionId → Alignment
  /-- The output section of a pattern. -/
  patternSection : Nat → OutputSectionId
  /-- `has_data_in_file`, and not `should_skip_loaded_section`. -/
  isWritten : OutputSectionId → Bool

namespace SortContext

variable (ctx : SortContext)

def inputSorted (s : ScriptSortedSection) : InputSortedSection :=
  let id := ctx.patternSection s.pattern
  { inputSection := s
    partId := (id, s.part)
    size := capacity ctx.minAlignment id s.part s.size
    alignment := partAlignment ctx.minAlignment id s.part }

/-- The order of `sort_by_key`. -/
def nameLE (s t : ScriptSortedSection) : Bool := decide (s.name ≤ t.name)

/-- `harvest_and_sort_script_sections`, given the sections of all files. The sort is stable. -/
def harvestAndSort (inputs : List ScriptSortedSection) : List InputSortedSection :=
  (inputs.mergeSort nameLE).map ctx.inputSorted

end SortContext

/-! ## Placing and writing -/

/-- What `apply_late_size_adjustments` adds to a part of the epilogue. -/
def extraSize (sorted : List InputSortedSection) (part : SectionPart) : Nat :=
  sorted.foldr (fun s size => (if s.partId = part then s.size else 0) + size) 0

/-- `assign_addresses_to_sorted_sections`, from the start offsets of the epilogue. -/
def assignAddresses : (SectionPart → Nat) → List InputSortedSection → List Nat
  | _, []                 => []
  | offsets, sec :: sorted =>
    let offset := sec.alignment.alignUp (offsets sec.partId)
    offset :: assignAddresses (Function.update offsets sec.partId (offset + sec.size)) sorted

/-- `allocate_section_output` for each of them, where `taken` is what is gone of each buffer: where the bytes are in the
buffer, `none` for a section without any. The whole is `none` if a buffer is too short. -/
def takeOutputs (ctx : SortContext) (room : SectionPart → Nat) :
    (SectionPart → Nat) → List InputSortedSection → Option (List (Option Nat))
  | _, []               => some []
  | taken, sec :: sorted =>
    if !ctx.isWritten sec.partId.1 then (takeOutputs ctx room taken sorted).map (none :: ·)
    else if room sec.partId < taken sec.partId + sec.size then none
    else (takeOutputs ctx room (Function.update taken sec.partId (taken sec.partId + sec.size)) sorted).map
      (some (taken sec.partId) :: ·)

/-- Where the epilogue has its share of each part. The parts of a section are laid out one after another. -/
structure EpilogueParts (sorted : List InputSortedSection) where
  start : SectionPart → Nat
  inOrder : ∀ id i j, i < j → start (id, i) + extraSize sorted (id, i) ≤ start (id, j)

/-! ## What sorting is for -/

/-- The inputs with their numbers, in the order of the sort. -/
def sortOrder (inputs : List ScriptSortedSection) : List (ScriptSortedSection × Nat) :=
  inputs.zipIdx.mergeSort (List.zipIdxLE SortContext.nameLE)

/-- By name, and sections of the same name in input order. -/
def ComesBefore (x y : ScriptSortedSection × Nat) : Prop :=
  x.1.name < y.1.name ∨ x.1.name = y.1.name ∧ x.2 < y.2

section Spec

variable (ctx : SortContext) (inputs : List ScriptSortedSection) (places : EpilogueParts (ctx.harvestAndSort inputs))

def sortedAddresses : List Nat := assignAddresses places.start (ctx.harvestAndSort inputs)

/-- The `k`-th of the sorted sections: its input, itself and its address. -/
def SortedAt (k : Nat) (x : ScriptSortedSection × Nat) (s : InputSortedSection) (address : Nat) : Prop :=
  (sortOrder inputs)[k]? = some x ∧ (ctx.harvestAndSort inputs)[k]? = some s ∧
    (sortedAddresses ctx inputs places)[k]? = some address

/-- Addresses in order, ranges that are apart and in the share of the epilogue, and bytes at the addresses. -/
structure SortedSound : Prop where
  ordered : ∀ {i j x y s t a b}, SortedAt ctx inputs places i x s a → SortedAt ctx inputs places j y t b →
    x.1.pattern = y.1.pattern → ComesBefore x y → a ≤ b
  disjoint : ∀ {i j x y s t a b}, SortedAt ctx inputs places i x s a → SortedAt ctx inputs places j y t b → i ≠ j →
    x.1.pattern = y.1.pattern → a + s.size ≤ b ∨ b + t.size ≤ a
  inside : ∀ {i x s a}, SortedAt ctx inputs places i x s a → places.start s.partId ≤ a ∧
    a + s.size ≤ places.start s.partId + extraSize (ctx.harvestAndSort inputs) s.partId
  written : ∃ outputs,
    takeOutputs ctx (extraSize (ctx.harvestAndSort inputs)) (fun _ => 0) (ctx.harvestAndSort inputs) = some outputs ∧
      ∀ {i x s a offset}, SortedAt ctx inputs places i x s a → outputs[i]? = some (some offset) →
        places.start s.partId + offset = a

/-- Where a section would be without gaps. -/
def packedAddress (k : Nat) (s : InputSortedSection) : Nat :=
  places.start s.partId + extraSize ((ctx.harvestAndSort inputs).take k) s.partId

/-- No section needs a gap in front of it. -/
def NoGaps : Prop :=
  ∀ k s, (ctx.harvestAndSort inputs)[k]? = some s → s.alignment.value ∣ packedAddress ctx inputs places k s

/-- In the order of names the alignments of a pattern do not grow, but for empty sections at the end of their part. -/
def AlignmentsFall : Prop :=
  ∀ i j s t, i < j → (ctx.harvestAndSort inputs)[i]? = some s → (ctx.harvestAndSort inputs)[j]? = some t →
    s.inputSection.pattern = t.inputSection.pattern → s.inputSection.part ≤ t.inputSection.part ∨
      packedAddress ctx inputs places i s = packedAddress ctx inputs places j t

end Spec

/-! ### Addresses -/

variable {sorted : List InputSortedSection} {offsets : SectionPart → Nat}

theorem update_add (offsets : SectionPart → Nat) (part : SectionPart) (size e : Nat) (q : SectionPart) :
    Function.update offsets part (offsets part + size) q + e = offsets q + ((if part = q then size else 0) + e) := by
  by_cases hq : part = q
  · subst hq
    rw [Function.update_self, if_pos rfl, Nat.add_assoc]
  · rw [Function.update_of_ne (Ne.symm hq), if_neg hq, Nat.zero_add]

/-- Sections that need no gaps follow each other. -/
theorem assignAddresses_eq (h : ∀ k s, sorted[k]? = some s →
      s.alignment.value ∣ offsets s.partId + extraSize (sorted.take k) s.partId) {k : Nat} {s : InputSortedSection}
    (hs : sorted[k]? = some s) :
    (assignAddresses offsets sorted)[k]? = some (offsets s.partId + extraSize (sorted.take k) s.partId) := by
  induction sorted generalizing offsets k with
  | nil => cases hs
  | cons sec sorted ih =>
    have hfirst : sec.alignment.alignUp (offsets sec.partId) = offsets sec.partId :=
      Alignment.alignUp_eq_self_iff.2 (h 0 sec rfl)
    rw [assignAddresses, hfirst]
    cases k with
    | zero =>
      obtain rfl := Option.some.inj hs
      rfl
    | succ k =>
      have hrest : ∀ k s, sorted[k]? = some s → s.alignment.value ∣
          Function.update offsets sec.partId (offsets sec.partId + sec.size) s.partId +
            extraSize (sorted.take k) s.partId := by
        intro k s hs
        rw [update_add]
        exact h (k + 1) s hs
      rw [List.getElem?_cons_succ, ih hrest hs, update_add]
      rfl

theorem extraSize_cons (sec : InputSortedSection) (sorted : List InputSortedSection) (part : SectionPart) :
    extraSize (sec :: sorted) part = (if sec.partId = part then sec.size else 0) + extraSize sorted part := rfl

theorem extraSize_eq_zero {part : SectionPart} (h : ∀ s ∈ sorted, s.partId ≠ part) : extraSize sorted part = 0 := by
  induction sorted with
  | nil => rfl
  | cons sec sorted ih =>
    rw [extraSize_cons, if_neg (h sec List.mem_cons_self), ih fun s hs => h s (List.mem_cons_of_mem _ hs)]

/-- Behind the last section of a part there is nothing of it. -/
theorem exists_last {part : SectionPart} (h : ∃ s ∈ sorted, s.partId = part) :
    ∃ k s, sorted[k]? = some s ∧ s.partId = part ∧ extraSize (sorted.take k) part + s.size = extraSize sorted part := by
  induction sorted with
  | nil =>
    obtain ⟨_, hs, -⟩ := h
    cases hs
  | cons sec sorted ih =>
    by_cases hrest : ∃ s ∈ sorted, s.partId = part
    · obtain ⟨k, s, hs, hpart, hsize⟩ := ih hrest
      refine ⟨k + 1, s, hs, hpart, ?_⟩
      rw [List.take_succ_cons, extraSize_cons, extraSize_cons, ← hsize, Nat.add_assoc]
    · obtain ⟨s, hs, hpart⟩ := h
      obtain rfl | hs := List.mem_cons.1 hs
      · refine ⟨0, s, rfl, hpart, ?_⟩
        rw [extraSize_cons, if_pos hpart, extraSize_eq_zero fun t ht htpart => hrest ⟨t, ht, htpart⟩]
        exact Nat.zero_add _
      · exact absurd ⟨s, hs, hpart⟩ hrest

/-- A gap would push the last section of its part out of the share. -/
theorem noGaps_of_inside (h : ∀ (k : Nat) (s : InputSortedSection) (a : Nat), sorted[k]? = some s → (assignAddresses offsets sorted)[k]? = some a →
      a + s.size ≤ offsets s.partId + extraSize sorted s.partId) {k : Nat} {s : InputSortedSection}
    (hs : sorted[k]? = some s) : s.alignment.value ∣ offsets s.partId + extraSize (sorted.take k) s.partId := by
  induction sorted generalizing offsets k s with
  | nil => cases hs
  | cons sec sorted ih =>
    have hle := sec.alignment.le_alignUp (offsets sec.partId)
    have hinside : ∀ (k : Nat) (s : InputSortedSection) (a : Nat), sorted[k]? = some s →
        (assignAddresses (Function.update offsets sec.partId (sec.alignment.alignUp (offsets sec.partId) + sec.size))
          sorted)[k]? = some a →
        a + s.size ≤ Function.update offsets sec.partId (sec.alignment.alignUp (offsets sec.partId) + sec.size) s.partId +
          extraSize sorted s.partId := by
      intro k s a hs ha
      have hk := h (k + 1) s a hs ha
      rw [extraSize_cons] at hk
      by_cases hpart : sec.partId = s.partId
      · rw [if_pos hpart] at hk
        rw [← hpart, Function.update_self]
        rw [← hpart] at hk
        omega
      · rw [if_neg hpart] at hk
        rw [Function.update_of_ne (Ne.symm hpart)]
        omega
    have hrest := fun (k : Nat) (s : InputSortedSection) (hs : sorted[k]? = some s) => ih hinside hs
    have hfirst : sec.alignment.alignUp (offsets sec.partId) = offsets sec.partId := by
      obtain ⟨k, s, hs, hpart, hsize⟩ := @exists_last (sec :: sorted) sec.partId ⟨sec, List.mem_cons_self, rfl⟩
      cases k with
      | zero =>
        obtain rfl := Option.some.inj hs
        have hk := h 0 sec _ rfl rfl
        have hzero : extraSize ((sec :: sorted).take 0) sec.partId = 0 := rfl
        omega
      | succ k =>
        have hk := h (k + 1) s _ hs (assignAddresses_eq hrest hs)
        rw [List.take_succ_cons, extraSize_cons, if_pos rfl] at hsize
        rw [hpart, Function.update_self] at hk
        omega
    cases k with
    | zero =>
      obtain rfl := Option.some.inj hs
      exact Alignment.alignUp_eq_self_iff.1 hfirst
    | succ k =>
      have hk := hrest k s hs
      rw [hfirst, update_add] at hk
      exact hk

/-! ### Outputs -/

/-- The buffers are as long as the sections, which leave no room between them. -/
theorem takeOutputs_eq {ctx : SortContext} {room taken : SectionPart → Nat}
    (h : ∀ part, taken part + extraSize sorted part ≤ room part) : ∃ outputs,
    takeOutputs ctx room taken sorted = some outputs ∧
      ∀ {k : Nat} {s : InputSortedSection} {offset : Nat}, sorted[k]? = some s → outputs[k]? = some (some offset) →
        ctx.isWritten s.partId.1 = true ∧ offset = taken s.partId + extraSize (sorted.take k) s.partId := by
  induction sorted generalizing taken with
  | nil => exact ⟨[], rfl, fun hs => by cases hs⟩
  | cons sec sorted ih =>
    cases hwritten : ctx.isWritten sec.partId.1 with
    | false =>
      obtain ⟨outputs, houtputs, hat⟩ := ih fun part => Nat.le_trans
        (Nat.add_le_add_left (Nat.le_add_left _ _) _) (h part)
      refine ⟨none :: outputs, ?_, ?_⟩
      · rw [takeOutputs, hwritten, Bool.not_false, if_pos rfl, houtputs]
        rfl
      · intro k s offset hs hoffset
        cases k with
        | zero => cases hoffset
        | succ k =>
          obtain ⟨hs', rfl⟩ := hat hs hoffset
          refine ⟨hs', ?_⟩
          have hne : sec.partId ≠ s.partId := by
            intro heq
            rw [heq, hs'] at hwritten
            cases hwritten
          rw [List.take_succ_cons, extraSize_cons, if_neg hne, Nat.zero_add]
    | true =>
      have hroom := h sec.partId
      rw [extraSize_cons, if_pos rfl] at hroom
      have hrest : ∀ part, Function.update taken sec.partId (taken sec.partId + sec.size) part + extraSize sorted part ≤
          room part := by
        intro part
        rw [update_add]
        exact h part
      obtain ⟨outputs, houtputs, hat⟩ := ih hrest
      refine ⟨some (taken sec.partId) :: outputs, ?_, ?_⟩
      · rw [takeOutputs, hwritten, Bool.not_true, if_neg (by decide), if_neg (by omega), houtputs]
        rfl
      · intro k s offset hs hoffset
        cases k with
        | zero =>
          obtain rfl := Option.some.inj hs
          obtain rfl := Option.some.inj (Option.some.inj hoffset)
          exact ⟨hwritten, rfl⟩
        | succ k =>
          obtain ⟨hs', rfl⟩ := hat hs hoffset
          exact ⟨hs', update_add _ _ _ _ _⟩

/-! ### The order -/

theorem nameLE_trans (a b c : ScriptSortedSection) :
    SortContext.nameLE a b = true → SortContext.nameLE b c = true → SortContext.nameLE a c = true := by
  simp only [SortContext.nameLE, decide_eq_true_eq]
  exact List.le_trans

theorem nameLE_total (a b : ScriptSortedSection) :
    (SortContext.nameLE a b || SortContext.nameLE b a) = true := by
  simp only [SortContext.nameLE, Bool.or_eq_true, decide_eq_true_eq]
  exact List.le_total a.name b.name

theorem sortOrder_fst (inputs : List ScriptSortedSection) :
    (sortOrder inputs).map (·.1) = inputs.mergeSort SortContext.nameLE := List.mergeSort_zipIdx

theorem sortOrder_comesBefore {inputs : List ScriptSortedSection} {i j : Nat} {x y : ScriptSortedSection × Nat}
    (hij : i < j) (hx : (sortOrder inputs)[i]? = some x) (hy : (sortOrder inputs)[j]? = some y) : ComesBefore x y := by
  have hsorted : (sortOrder inputs).Pairwise fun x y => List.zipIdxLE SortContext.nameLE x y = true :=
    List.pairwise_mergeSort (List.zipIdxLE_trans nameLE_trans) (List.zipIdxLE_total nameLE_total) inputs.zipIdx
  have hdistinct : (sortOrder inputs).Pairwise fun x y => x.2 ≠ y.2 := by
    have hzip : inputs.zipIdx.Pairwise fun x y => x.2 ≠ y.2 := by
      rw [← List.pairwise_map, List.zipIdx_map_snd]
      exact List.nodup_range'
    exact hzip.perm (List.mergeSort_perm _ _).symm fun h => h.symm
  obtain ⟨hi, rfl⟩ := List.getElem?_eq_some_iff.1 hx
  obtain ⟨hj, rfl⟩ := List.getElem?_eq_some_iff.1 hy
  have hle := List.pairwise_iff_getElem.1 hsorted i j hi hj hij
  have hne := List.pairwise_iff_getElem.1 hdistinct i j hi hj hij
  generalize (sortOrder inputs)[i] = x at hle hne ⊢
  generalize (sortOrder inputs)[j] = y at hle hne ⊢
  unfold List.zipIdxLE SortContext.nameLE at hle
  by_cases hxy : x.1.name ≤ y.1.name
  · by_cases hyx : y.1.name ≤ x.1.name
    · simp only [hxy, hyx, decide_true, if_true, decide_eq_true_eq] at hle
      exact .inr ⟨List.le_antisymm hxy hyx, by omega⟩
    · exact .inl (List.not_le.1 hyx)
  · simp [hxy] at hle

theorem lt_of_comesBefore {inputs : List ScriptSortedSection} {i j : Nat} {x y : ScriptSortedSection × Nat}
    (hx : (sortOrder inputs)[i]? = some x) (hy : (sortOrder inputs)[j]? = some y) (h : ComesBefore x y) : i < j := by
  refine Nat.lt_of_not_le fun hle => ?_
  have hnot : ¬ComesBefore y x := by
    intro hback
    obtain hlt | ⟨heq, hlt⟩ := h <;> obtain hlt' | ⟨heq', hlt'⟩ := hback
    · exact List.lt_asymm hlt hlt'
    · rw [heq'] at hlt
      exact List.lt_irrefl _ hlt
    · rw [heq] at hlt'
      exact List.lt_irrefl _ hlt'
    · omega
  obtain hlt | rfl := Nat.lt_or_eq_of_le hle
  · exact hnot (sortOrder_comesBefore hlt hy hx)
  · obtain rfl := Option.some.inj (hx.symm.trans hy)
    exact hnot h

/-! ### All of it -/

section Sound

variable {ctx : SortContext} {inputs : List ScriptSortedSection} {places : EpilogueParts (ctx.harvestAndSort inputs)}
  {i j k : Nat} {x y : ScriptSortedSection × Nat} {s t : InputSortedSection} {a b : Nat}

theorem harvestAndSort_eq (ctx : SortContext) (inputs : List ScriptSortedSection) :
    ctx.harvestAndSort inputs = (sortOrder inputs).map fun x => ctx.inputSorted x.1 := by
  rw [SortContext.harvestAndSort, ← sortOrder_fst, List.map_map]
  rfl

theorem SortedAt.eq_inputSorted (h : SortedAt ctx inputs places k x s a) : s = ctx.inputSorted x.1 := by
  obtain ⟨hx, hs, -⟩ := h
  rw [harvestAndSort_eq, List.getElem?_map, hx] at hs
  exact (Option.some.inj hs).symm

/-- Without gaps each section is where the ones in front of it in its part end. -/
theorem NoGaps.address (h : NoGaps ctx inputs places) (hs : (ctx.harvestAndSort inputs)[k]? = some s) :
    (sortedAddresses ctx inputs places)[k]? = some (packedAddress ctx inputs places k s) :=
  assignAddresses_eq h hs

theorem NoGaps.sortedAt (h : NoGaps ctx inputs places) (hs : (ctx.harvestAndSort inputs)[k]? = some s) :
    ∃ x, s = ctx.inputSorted x.1 ∧ SortedAt ctx inputs places k x s (packedAddress ctx inputs places k s) := by
  have hmap := hs
  rw [harvestAndSort_eq, List.getElem?_map, Option.map_eq_some_iff] at hmap
  obtain ⟨x, hx, hxs⟩ := hmap
  exact ⟨x, hxs.symm, hx, hs, h.address hs⟩

theorem extraSize_take_le (sorted : List InputSortedSection) {k : Nat} {s : InputSortedSection}
    (hs : sorted[k]? = some s) : extraSize (sorted.take k) s.partId + s.size ≤ extraSize sorted s.partId := by
  induction sorted generalizing k with
  | nil => cases hs
  | cons sec sorted ih =>
    cases k with
    | zero =>
      obtain rfl := Option.some.inj hs
      rw [extraSize_cons, if_pos rfl]
      exact Nat.le_trans (Nat.le_of_eq (Nat.zero_add _)) (Nat.le_add_right _ _)
    | succ k =>
      rw [List.take_succ_cons, extraSize_cons, extraSize_cons, Nat.add_assoc]
      exact Nat.add_le_add_left (ih hs) _

theorem extraSize_take_mono (sorted : List InputSortedSection) (hij : i < j) (hs : sorted[i]? = some s) :
    extraSize (sorted.take i) s.partId + s.size ≤ extraSize (sorted.take j) s.partId := by
  have hle := extraSize_take_le (sorted.take j) (k := i) (s := s) (by rw [List.getElem?_take_of_lt hij, hs])
  rwa [List.take_take, Nat.min_eq_left (Nat.le_of_lt hij)] at hle

/-- Two sections of a pattern, one in front of the other in the order of names: the ranges, by their parts. -/
theorem packedAddress_lt (places : EpilogueParts (ctx.harvestAndSort inputs)) (hij : i < j)
    (hs : (ctx.harvestAndSort inputs)[i]? = some s) (ht : (ctx.harvestAndSort inputs)[j]? = some t)
    (hsection : s.partId.1 = t.partId.1) :
    (s.partId.2 ≤ t.partId.2 →
        packedAddress ctx inputs places i s + s.size ≤ packedAddress ctx inputs places j t) ∧
      (t.partId.2 < s.partId.2 →
        packedAddress ctx inputs places j t + t.size ≤ packedAddress ctx inputs places i s) := by
  unfold packedAddress
  have hsizeS := extraSize_take_le _ hs
  have hsizeT := extraSize_take_le _ ht
  constructor
  · intro hle
    obtain hlt | heq := Nat.lt_or_eq_of_le hle
    · have horder := places.inOrder s.partId.1 s.partId.2 t.partId.2 hlt
      have hpart : (s.partId.1, t.partId.2) = t.partId := Prod.ext hsection rfl
      rw [hpart] at horder
      change places.start s.partId + extraSize _ s.partId ≤ _ at horder
      omega
    · have hpart : s.partId = t.partId := Prod.ext hsection heq
      have hmono := extraSize_take_mono _ hij hs
      rw [hpart] at hmono ⊢
      omega
  · intro hlt
    have horder := places.inOrder t.partId.1 t.partId.2 s.partId.2 hlt
    have hpart : (t.partId.1, s.partId.2) = s.partId := Prod.ext hsection.symm rfl
    rw [hpart] at horder
    change places.start t.partId + extraSize _ t.partId ≤ _ at horder
    omega

theorem inputSorted_section {x y : ScriptSortedSection} (h : x.pattern = y.pattern) :
    (ctx.inputSorted x).partId.1 = (ctx.inputSorted y).partId.1 := congrArg ctx.patternSection h

/-- **Sorted sections are where they should be exactly if none needs a gap in front of it and the alignments of each
pattern do not grow in the order of names.** -/
theorem sortedSound_iff (ctx : SortContext) (inputs : List ScriptSortedSection)
    (places : EpilogueParts (ctx.harvestAndSort inputs)) :
    SortedSound ctx inputs places ↔ NoGaps ctx inputs places ∧ AlignmentsFall ctx inputs places := by
  constructor
  · intro h
    have hgaps : NoGaps ctx inputs places := by
      intro k s hs
      refine noGaps_of_inside (fun k s a hs ha => ?_) hs
      have hmap := hs
      rw [harvestAndSort_eq, List.getElem?_map, Option.map_eq_some_iff] at hmap
      obtain ⟨x, hx, -⟩ := hmap
      exact (h.inside ⟨hx, hs, ha⟩).2
    refine ⟨hgaps, fun i j s t hij hs ht hpattern => ?_⟩
    obtain ⟨x, rfl, hx⟩ := hgaps.sortedAt hs
    obtain ⟨y, rfl, hy⟩ := hgaps.sortedAt ht
    have hle := h.ordered hx hy hpattern (sortOrder_comesBefore hij hx.1 hy.1)
    have hparts := packedAddress_lt places hij hs ht (inputSorted_section hpattern)
    by_cases hpart : (ctx.inputSorted x.1).inputSection.part ≤ (ctx.inputSorted y.1).inputSection.part
    · exact .inl hpart
    · have hback := hparts.2 (Nat.lt_of_not_le hpart)
      exact .inr (by omega)
  · rintro ⟨hgaps, hfall⟩
    have haddress {k x s a} (h : SortedAt ctx inputs places k x s a) : a = packedAddress ctx inputs places k s :=
      Option.some.inj (h.2.2.symm.trans (hgaps.address h.2.1))
    have hsection {i j x y s t a b} (hx : SortedAt ctx inputs places i x s a) (hy : SortedAt ctx inputs places j y t b)
        (hpattern : x.1.pattern = y.1.pattern) : s.partId.1 = t.partId.1 := by
      rw [hx.eq_inputSorted, hy.eq_inputSorted]
      exact inputSorted_section hpattern
    refine ⟨?_, ?_, ?_, ?_⟩
    · intro i j x y s t a b hx hy hpattern hbefore
      have hij := lt_of_comesBefore hx.1 hy.1 hbefore
      have hsame : s.inputSection.pattern = t.inputSection.pattern := by
        rw [hx.eq_inputSorted, hy.eq_inputSorted]
        exact hpattern
      rw [haddress hx, haddress hy]
      obtain hpart | heq := hfall i j s t hij hx.2.1 hy.2.1 hsame
      · have hparts : s.partId.2 ≤ t.partId.2 := by
          rw [hx.eq_inputSorted, hy.eq_inputSorted] at hpart ⊢
          exact hpart
        exact Nat.le_of_add_right_le ((packedAddress_lt places hij hx.2.1 hy.2.1 (hsection hx hy hpattern)).1 hparts)
      · exact Nat.le_of_eq heq
    · intro i j x y s t a b hx hy hne hpattern
      have hsame := hsection hx hy hpattern
      rw [haddress hx, haddress hy]
      obtain hij | hji := Nat.lt_or_gt_of_ne hne
      · have hparts := packedAddress_lt places hij hx.2.1 hy.2.1 hsame
        exact (Nat.lt_or_ge t.partId.2 s.partId.2).elim (fun h => .inr (hparts.2 h)) fun h => .inl (hparts.1 h)
      · have hparts := packedAddress_lt places hji hy.2.1 hx.2.1 hsame.symm
        exact (Nat.lt_or_ge s.partId.2 t.partId.2).elim (fun h => .inl (hparts.2 h)) fun h => .inr (hparts.1 h)
    · intro i x s a hx
      rw [haddress hx]
      unfold packedAddress
      have hsize := extraSize_take_le _ hx.2.1
      omega
    · obtain ⟨outputs, houtputs, hat⟩ := @takeOutputs_eq (ctx.harvestAndSort inputs) ctx
        (extraSize (ctx.harvestAndSort inputs)) (fun _ => 0) fun part => Nat.le_of_eq (Nat.zero_add _)
      refine ⟨outputs, houtputs, fun {i x s a offset} hx hoffset => ?_⟩
      obtain ⟨-, rfl⟩ := hat hx.2.1 hoffset
      rw [haddress hx, Nat.zero_add]
      rfl

end Sound

/-- `.text.a` with an alignment of 4 and `.text.b` with one of 16, for a `SORT` pattern of `.text`. -/
def mixedSections : List ScriptSortedSection :=
  [⟨bytesOf ".text.a", 0, partWithAlignment 2, 4⟩, ⟨bytesOf ".text.b", 0, partWithAlignment 4, 16⟩]

def textSortContext : SortContext where
  minAlignment := fun _ => 0
  patternSection := fun _ => textSection
  isWritten := fun _ => true

theorem mixedSections_sorted : textSortContext.harvestAndSort mixedSections = mixedSections.map textSortContext.inputSorted := by
  unfold SortContext.harvestAndSort
  rw [List.mergeSort_of_pairwise (by decide)]

/-- `.text` at `0x1000`: the part of `.text.b` comes first. -/
def mixedStart (part : SectionPart) : Nat := 0x1000 + (if 12 < part.2 then 16 else 0) + if 14 < part.2 then 4 else 0

def mixedParts : EpilogueParts (textSortContext.harvestAndSort mixedSections) where
  start := mixedStart
  inOrder := by
    intro id i j hij
    have hsize : extraSize (textSortContext.harvestAndSort mixedSections) (id, i) ≤
        (if i = 14 then 4 else 0) + if i = 12 then 16 else 0 := by
      rw [mixedSections_sorted]
      change (if (textSection, 14) = (id, i) then 4 else 0) + ((if (textSection, 12) = (id, i) then 16 else 0) + 0) ≤ _
      simp only [Prod.mk.injEq]
      split <;> split <;> split <;> split <;> omega
    unfold mixedStart
    split at hsize <;> split at hsize <;> split <;> split <;> split <;> split <;> omega

/-- The names rise and the addresses fall. -/
theorem mixedSections_not_sound : ¬SortedSound textSortContext mixedSections mixedParts := by
  intro h
  have horder : sortOrder mixedSections = mixedSections.zipIdx := List.mergeSort_of_pairwise (by decide)
  have haddresses : sortedAddresses textSortContext mixedSections mixedParts = [0x1010, 0x1000] :=
    (congrArg (assignAddresses mixedStart) mixedSections_sorted).trans (by decide)
  have ha : SortedAt textSortContext mixedSections mixedParts 0 (⟨bytesOf ".text.a", 0, 14, 4⟩, 0)
      (textSortContext.inputSorted ⟨bytesOf ".text.a", 0, 14, 4⟩) 0x1010 :=
    ⟨by rw [horder]; rfl, by rw [mixedSections_sorted]; rfl, by rw [haddresses]; rfl⟩
  have hb : SortedAt textSortContext mixedSections mixedParts 1 (⟨bytesOf ".text.b", 0, 12, 16⟩, 1)
      (textSortContext.inputSorted ⟨bytesOf ".text.b", 0, 12, 16⟩) 0x1000 :=
    ⟨by rw [horder]; rfl, by rw [mixedSections_sorted]; rfl, by rw [haddresses]; rfl⟩
  exact absurd (h.ordered ha hb rfl (.inl (by decide))) (by decide)

end Reld
