import Reld.Layout.SegmentNames

/-!
# `Layout.CustomPhdrs` — one place for every section, one span for every segment

An output order under custom program headers should place each output section once, start and end each
segment once, and keep the sections of a segment between its start and its end (`WellLaid`). The builder
achieves this for exactly the tables and scripts of `OneHome`. It does not for a section that a script
declares twice or before any program header is named, for the file's headers or `.riscv.attributes` as sections
of a script, for a built-in section whose name only an input section has taken, for two program headers of one
name, and for one called `NONE` that a section names.
-/

variable {e : SegmentEntry} {s : ProgramSegmentId}

namespace Reld

open OutputOrderBuilder

/-! ## The property -/

namespace OutputSections

/-- A script or an input section has taken the name of a built-in section for a section of its own; nothing
    is placed in the built-in one. -/
def Superseded (o : OutputSections) (id : OutputSectionId) : Prop :=
  id < numBuiltInSections ∧ ∃ n other, (o.info id).kind = .primary n ∧ o.customByName n = some other ∧ other ≠ id

/-- The sections of the output: those of the table that are not superseded, with their secondary sections. -/
def IsOutputSection (o : OutputSections) (id : OutputSectionId) : Prop :=
  id < o.sectionInfos.length ∧ ¬ o.Superseded (o.primaryOutputSection id)

end OutputSections

/-- A section stands between the start and the end of a segment. -/
def Within (events : List OrderEvent) (s : ProgramSegmentId) (id : OutputSectionId) : Prop :=
  [.start s, .placed id, .stop s].Sublist (marks events)

/-- What an output order should be. The segment after those of the scripts is that of the attributes. -/
structure WellLaid (o : OutputSections) (headers : List Phdr) (events : List OrderEvent) : Prop where
  once : ∀ id, o.IsOutputSection id → (marks events).count (.placed id) = 1
  balanced : ∀ s, s ≤ headers.length →
    (marks events).count (.start s) = 1 ∧ (marks events).count (.stop s) = 1 ∧
      [.start s, .stop s].Sublist (marks events)
  /-- A section with program headers, or its secondary sections, within each of the segments named. -/
  assigned : ∀ id, o.IsOutputSection id → ∀ n ∈ (o.info (o.primaryOutputSection id)).phdrs, n ≠ nonePhdr →
    ∀ s phdr, headers[s]? = some phdr → phdr.name = n → Within events s id
  /-- A loaded orphan within some `LOAD` segment. -/
  orphans : ∀ id, o.IsOutputSection id → o.isOrphan (o.primaryOutputSection id) = true →
    classify (o.info (o.primaryOutputSection id)).sectionAttributes ≠ .nonalloc →
    ∃ s phdr, headers[s]? = some phdr ∧ evaluateU32 phdr.ptype = .ok ptLoad ∧ Within events s id

/-- The tables and scripts whose sections and segments have one place each. -/
structure OneHome (o : OutputSections) (headers : List Phdr) (ordered : List OutputSectionId) : Prop where
  /-- No two program headers have the same name. -/
  distinct : (headers.map (·.name)).Nodup
  /-- No section names a program header that is called `NONE`. -/
  unnamed : nonePhdr ∈ headers.map (·.name) → ∀ id ∈ ordered, nonePhdr ∉ (o.info id).phdrs
  /-- No section is declared twice. -/
  declared : ordered.Nodup
  /-- The scripts declare neither the headers of the file nor `.riscv.attributes`. -/
  reserved : ∀ id ∈ ordered, id ∉ headerSections ∧ id ≠ riscvAttributes
  /-- Every declared section that is not built in has program headers. -/
  covered : ∀ id ∈ ordered, numBuiltInSections ≤ id → (o.info id).phdrs ≠ []
  /-- `.riscv.attributes` is not loaded. -/
  riscv : o.isOrphan riscvAttributes = true →
    classify (o.info riscvAttributes).sectionAttributes = .nonalloc
  /-- A built-in section that an input section has named is declared as well. -/
  builtIn : ∀ id n, id < numBuiltInSections → (o.info id).kind = .primary n → o.customByName n = some id →
    id ∉ headerSections → id ≠ riscvAttributes → id ∈ ordered

/-! ## Counting the sections -/

section Counting

variable {o : OutputSections} {ordered : List OutputSectionId}

/-- The builder's view of a table. -/
def contextOf (o : OutputSections) (locationCounters : List LocationCounter) : OrderContext :=
  { outputSections := o, secondary := o.secondary, locationCounters := locationCounters }

theorem count_filter_range (n j : Nat) (p : Nat → Bool) :
    ((List.range n).filter p).count j = if j < n ∧ p j = true then 1 else 0 := by
  by_cases hp : p j = true
  · rw [List.count_filter hp]
    by_cases hj : j < n
    · rw [if_pos ⟨hj, hp⟩, List.count_eq_one_of_mem List.nodup_range (List.mem_range.mpr hj)]
    · rw [if_neg (fun h => hj h.1), List.count_eq_zero]
      exact fun h => hj (List.mem_range.mp h)
  · rw [if_neg (fun h => hp h.2), List.count_eq_zero]
    exact fun h => hp (List.mem_filter.mp h).2

/-- A section is emitted by itself and, if it is secondary, with its primary section. -/
theorem count_sectionIds (lcs : List LocationCounter) (p j : OutputSectionId) (hj : j < o.sectionInfos.length) :
    (sectionIds (contextOf o lcs) p).count j =
      (if p = j then 1 else 0) + if (o.info j).kind = .secondary p then 1 else 0 := by
  have hsorted : (sortedSecondaries (contextOf o lcs) p).count j = (o.secondary p).count j :=
    (List.perm_insertionSort _ _).count_eq j
  unfold sectionIds
  rw [List.count_cons, hsorted, OutputSections.secondary, count_filter_range, Nat.add_comm]
  simp [hj]

/-- How often a section is emitted when the sections `top` are added. -/
theorem count_flatMap_sectionIds (lcs : List LocationCounter) (top : List OutputSectionId) (j : OutputSectionId)
    (hj : j < o.sectionInfos.length) :
    (top.flatMap (sectionIds (contextOf o lcs))).count j =
      top.count j + match (o.info j).kind with
        | .primary _ => 0
        | .secondary p => top.count p := by
  induction top with
  | nil => cases (o.info j).kind <;> rfl
  | cons p top ih =>
    rw [List.flatMap_cons, List.count_append, ih, count_sectionIds lcs p j hj, List.count_cons]
    cases hkind : (o.info j).kind with
    | primary n =>
      simp only [beq_iff_eq, reduceCtorEq, if_false]
      omega
    | secondary q =>
      simp only [List.count_cons, beq_iff_eq, SectionKind.secondary.injEq, eq_comm (a := q)]
      omega

/-- The sections that the builder adds: the declared ones, the orphans, and `.riscv.attributes`. -/
def topLevel (o : OutputSections) (ordered : List OutputSectionId) : List OutputSectionId :=
  ordered ++ [SectionClass.exec].flatMap o.custom ++
    [SectionClass.tdata, .tbss, .data, .bss].flatMap o.custom ++ [SectionClass.ro].flatMap o.custom ++
    (o.custom .nonalloc).filter (· ≠ riscvAttributes) ++ [riscvAttributes]

/-- Whether the builder adds a section as an orphan. -/
def AddedAsOrphan (o : OutputSections) (j : OutputSectionId) : Prop :=
  j < o.sectionInfos.length ∧ o.isOrphan j = true ∧
    (classify (o.info j).sectionAttributes = .nonalloc → j ≠ riscvAttributes)

instance (o : OutputSections) (j : OutputSectionId) : Decidable (AddedAsOrphan o j) :=
  inferInstanceAs (Decidable (_ ∧ _ ∧ _))

theorem count_custom (o : OutputSections) (c : SectionClass) (j : OutputSectionId) :
    (o.custom c).count j =
      if j < o.sectionInfos.length ∧ o.isOrphan j = true ∧ classify (o.info j).sectionAttributes = c then 1 else 0 := by
  unfold OutputSections.custom
  rw [count_filter_range]
  simp

/-- How often the builder adds a section. -/
theorem count_topLevel (o : OutputSections) (ordered : List OutputSectionId) (j : OutputSectionId) :
    (topLevel o ordered).count j =
      ordered.count j + (if AddedAsOrphan o j then 1 else 0) + if riscvAttributes = j then 1 else 0 := by
  have hnonalloc : ((o.custom .nonalloc).filter (· ≠ riscvAttributes)).count j =
      if j ≠ riscvAttributes then (o.custom .nonalloc).count j else 0 := by
    split
    · exact List.count_filter (by simpa using ‹j ≠ riscvAttributes›)
    · rename_i he
      refine List.count_eq_zero.mpr (fun h => he ?_)
      simpa using (List.mem_filter.mp h).2
  unfold topLevel
  simp only [List.count_append, List.flatMap_cons, List.flatMap_nil, List.append_nil, hnonalloc, count_custom,
    List.count_singleton, beq_iff_eq]
  by_cases hj : j < o.sectionInfos.length ∧ o.isOrphan j = true
  · obtain ⟨hlen, horphan⟩ := hj
    unfold AddedAsOrphan
    obtain ⟨c, hclass⟩ : ∃ c, classify (o.info j).sectionAttributes = c := ⟨_, rfl⟩
    simp only [hlen, horphan, hclass, true_and, eq_comm (a := riscvAttributes)]
    cases c <;> by_cases hr : j = riscvAttributes <;> simp [hr]
  · rw [not_and] at hj
    have hnone : ∀ c, ¬ (j < o.sectionInfos.length ∧ o.isOrphan j = true ∧
        classify (o.info j).sectionAttributes = c) := fun c h => hj h.1 h.2.1
    have hnot : ¬ AddedAsOrphan o j := fun h => hj h.1 h.2.1
    simp [if_neg hnot, if_neg (hnone _)]

end Counting

/-! ## What the builder has done -/

/-- An output order with the state of the loops that led to it. -/
structure Built (o : OutputSections) (headers : List Phdr) (ordered : List OutputSectionId)
    (lcs : List LocationCounter) (events : List OrderEvent) (m : SegmentsMap) (spans : SpanState)
    (values : List SegmentEntry) : Prop where
  names : ∃ s, s.segmentsMap = m ∧ SegmentsRead headers (ordered.flatMap o.usedPhdrs) ordered s
  found : SpansFound m headers.length (Uses o m ordered) spans
  load : spans.firstLoad ≠ none
  listed : values.Perm (m.map (·.2))
  emitted : marks events = headerSections.map .placed ++
    Spans.weave .start .stop (itemMarks (contextOf o lcs) ordered) (tailMarks (contextOf o lcs) spans) spans.marks
      ordered.length ++
    (((o.custom .nonalloc).filter (· ≠ riscvAttributes)).flatMap (sectionIds (contextOf o lcs))).map .placed ++
    values.flatMap unusedMarks ++
    (.start headers.length :: (sectionIds (contextOf o lcs) riscvAttributes).map .placed ++ [.stop headers.length])

theorem buildCustomOutputOrder_built {hashOrder : List SegmentEntry → List SegmentEntry}
    (hperm : ∀ l, (hashOrder l).Perm l) {o : OutputSections} {scripts : List ProcessedLinkerScript}
    {events : List OrderEvent} {segments : List ProgramSegmentDef}
    (h : buildCustomOutputOrder hashOrder o scripts = .ok (events, segments)) :
    ∃ m spans values, Built o (scripts.flatMap (·.programHeaders)) (scripts.flatMap (·.orderedSections))
      (scripts.flatMap (·.locationCounters)) events m spans values := by
  unfold buildCustomOutputOrder at h
  simp only [bind, Except.bind] at h
  -- The scripts are read; there is a `LOAD` segment; the events are emitted.
  generalize hs : scripts.foldlM (readScript o) _ = read at h
  cases read with
  | error e => cases h
  | ok s =>
  have hnew := SegmentsRead.new (contextOf o (scripts.flatMap ProcessedLinkerScript.locationCounters))
  have hread := hnew.readScripts o scripts hs
  simp only at h
  split at h
  · cases h
  rename_i hload
  split at h
  · cases h
  rename_i b hemit
  have hevents := Except.ok.inj h
  have hcount : (scripts.map (·.programHeaders.length)).sum = (scripts.flatMap (·.programHeaders)).length := by
    rw [List.length_flatMap]
  rw [hcount, hread.ordered] at hload hemit
  have hids : ∀ n e, (n, e) ∈ s.segmentsMap → e.id < (scripts.flatMap (·.programHeaders)).length := by
    intro n e hmem
    obtain ⟨⟨phdr, hphdr, -⟩, -⟩ := hread.entry n e hmem
    exact (List.getElem?_eq_some_iff.mp hphdr).1
  refine ⟨s.segmentsMap, _, _, ⟨s, rfl, hread⟩, findSpans_found hread.keys hids o _, hload, hperm _, ?_⟩
  have hmarks := marked_emitEvents hemit
  rw [hread.marked, hread.count, hread.ordered, List.nil_append] at hmarks
  refine Eq.trans ?_ hmarks
  rw [show events = (b.build (contextOf o (scripts.flatMap (·.locationCounters)))).1 from
    congrArg Prod.fst hevents.symm]
  unfold OutputOrderBuilder.build
  split
  · exact marked_emitLocationCounters _ _ _ _
  · rfl

theorem start_not_mem_placed (s : ProgramSegmentId) (ids : List OutputSectionId) :
    Mark.start s ∉ ids.map Mark.placed := fun h => by
  obtain ⟨_, -, h⟩ := List.mem_map.mp h
  cases h

theorem stop_not_mem_placed (s : ProgramSegmentId) (ids : List OutputSectionId) :
    Mark.stop s ∉ ids.map Mark.placed := fun h => by
  obtain ⟨_, -, h⟩ := List.mem_map.mp h
  cases h

theorem count_placed_map (ids : List OutputSectionId) (j : OutputSectionId) :
    (ids.map Mark.placed).count (.placed j) = ids.count j :=
  List.count_map_of_injective ids Mark.placed (fun _ _ h => Mark.placed.inj h) j

/-- Each segment that no section names is started and ended by itself. -/
theorem count_unused (values : List SegmentEntry) (hids : (values.map (·.id)).Nodup) (s : ProgramSegmentId) :
    (values.flatMap unusedMarks).count (.start s) =
        (if ∃ e ∈ values, e.id = s ∧ e.isEmitted = false then 1 else 0) ∧
      (values.flatMap unusedMarks).count (.stop s) =
        (if ∃ e ∈ values, e.id = s ∧ e.isEmitted = false then 1 else 0) := by
  induction values with
  | nil => simp
  | cons e values ih =>
    rw [List.map_cons, List.nodup_cons] at hids
    obtain ⟨ihstart, ihstop⟩ := ih hids.2
    rw [List.flatMap_cons, List.count_append, List.count_append, ihstart, ihstop]
    by_cases hs : e.id = s
    · have hrest : ¬ ∃ e' ∈ values, e'.id = s ∧ e'.isEmitted = false := by
        rintro ⟨e', he', hid, -⟩
        exact hids.1 (hs ▸ hid ▸ List.mem_map_of_mem he')
      subst hs
      rw [if_neg hrest]
      unfold unusedMarks
      cases he : e.isEmitted with
      | false => simp [he]
      | true =>
        have hno : ¬ ∃ e' ∈ e :: values, e'.id = e.id ∧ e'.isEmitted = false := by
          rintro ⟨e', he', hid, hf⟩
          rcases List.mem_cons.mp he' with rfl | he'
          · rw [he] at hf
            cases hf
          · exact hrest ⟨e', he', hid, hf⟩
        rw [if_neg hno]
        simp
    · have hiff : (∃ e' ∈ e :: values, e'.id = s ∧ e'.isEmitted = false) ↔
          ∃ e' ∈ values, e'.id = s ∧ e'.isEmitted = false := by
        simp [hs]
      unfold unusedMarks
      cases e.isEmitted <;> simp [hs]

theorem placed_not_mem_unused (values : List SegmentEntry) (j : OutputSectionId) :
    Mark.placed j ∉ values.flatMap unusedMarks := by
  intro h
  obtain ⟨e, -, he⟩ := List.mem_flatMap.mp h
  unfold unusedMarks at he
  split at he <;> simp at he

namespace Built

variable {o : OutputSections} {headers : List Phdr} {ordered : List OutputSectionId} {lcs : List LocationCounter}
  {events : List OrderEvent} {m : SegmentsMap} {spans : SpanState} {values : List SegmentEntry}
  (h : Built o headers ordered lcs events m spans values) {first : Option SegmentEntry} {id j : OutputSectionId}
include h

theorem keys : (m.map (·.1)).Nodup := by
  obtain ⟨s, rfl, hread⟩ := h.names
  exact hread.keys

/-- An entry belongs to the last program header of its name. -/
theorem entry {n : Bytes} (hmem : (n, e) ∈ m) :
    (∃ phdr, headers[e.id]? = some phdr ∧ phdr.name = n ∧ evaluateU32 phdr.ptype = .ok e.ptype) ∧
      ∀ j phdr, e.id < j → headers[j]? = some phdr → phdr.name ≠ n := by
  obtain ⟨s, rfl, hread⟩ := h.names
  exact hread.entry n e hmem

theorem entry_lt {n : Bytes} (hmem : (n, e) ∈ m) : e.id < headers.length := by
  obtain ⟨⟨phdr, hphdr, -⟩, -⟩ := h.entry hmem
  exact (List.getElem?_eq_some_iff.mp hphdr).1

theorem nodup_ids : (values.map (·.id)).Nodup := by
  refine (h.listed.map (·.id)).nodup_iff.mpr ?_
  rw [List.map_map]
  refine List.Nodup.map_on (fun p hp q hq hpq => ?_) (List.Nodup.of_map _ h.keys)
  obtain ⟨⟨phdr, hphdr, hpn, -⟩, -⟩ := h.entry hp
  obtain ⟨⟨phdr', hphdr', hqn, -⟩, -⟩ := h.entry hq
  have hid : p.2.id = q.2.id := hpq
  rw [hid, hphdr'] at hphdr
  exact List.inj_on_of_nodup_map h.keys hp hq (by rw [← hpn, ← hqn, Option.some.inj hphdr])

theorem starts_lt (s p : Nat) (hs : spans.marks.starts.getD s none = some p) : p < ordered.length := by
  cases hq : spans.marks.ends.getD s none with
  | none =>
    rw [(h.found.marked.unused s hq).1] at hs
    cases hs
  | some q =>
    obtain ⟨-, p', hp', ⟨id, hid, -⟩, -⟩ := h.found.marked.used s q hq
    rw [hs] at hp'
    exact Option.some.inj hp' ▸ (List.getElem?_eq_some_iff.mp hid).1

theorem ends_lt (s q : Nat) (hs : spans.marks.ends.getD s none = some q) : q < ordered.length := by
  obtain ⟨⟨id, hid, -⟩, -⟩ := h.found.marked.used s q hs
  exact (List.getElem?_eq_some_iff.mp hid).1

theorem starts_isSome (s : Nat) :
    (spans.marks.starts.getD s none).isSome = (spans.marks.ends.getD s none).isSome := by
  cases hq : spans.marks.ends.getD s none with
  | none => rw [(h.found.marked.unused s hq).1]
  | some q =>
    obtain ⟨-, p, hp, -⟩ := h.found.marked.used s q hq
    rw [hp]
    rfl

/-- The number of starts and of stops of a segment: one if a section names it, one if its entry in the map
    is not emitted, and one if it is the segment of the attributes. -/
theorem count_boundaries (s : ProgramSegmentId) :
    (marks events).count (.start s) = (if (spans.marks.ends.getD s none).isSome then 1 else 0) +
        (if ∃ e ∈ values, e.id = s ∧ e.isEmitted = false then 1 else 0) + (if headers.length = s then 1 else 0) ∧
      (marks events).count (.stop s) = (if (spans.marks.ends.getD s none).isSome then 1 else 0) +
        (if ∃ e ∈ values, e.id = s ∧ e.isEmitted = false then 1 else 0) + (if headers.length = s then 1 else 0) := by
  obtain ⟨hstart, hstop⟩ := count_unused values h.nodup_ids s
  rw [h.emitted]
  simp only [List.count_append, List.count_cons, List.count_nil, hstart, hstop, beq_iff_eq,
    List.count_eq_zero.mpr (start_not_mem_placed s _), List.count_eq_zero.mpr (stop_not_mem_placed s _)]
  have hne : ∀ s s', Mark.start s ≠ Mark.stop s' := fun _ _ he => Mark.noConfusion he
  have hweave : (Spans.weave Mark.start .stop (itemMarks (contextOf o lcs) ordered)
      (tailMarks (contextOf o lcs) spans) spans.marks ordered.length).count (.start s) =
        if (spans.marks.ends.getD s none).isSome then 1 else 0 := by
    rw [← h.starts_isSome]
    exact Spans.count_start h.starts_lt h.ends_lt hne (fun _ _ he => Mark.start.inj he)
      (fun _ _ => start_not_mem_placed _ _) (fun _ _ => start_not_mem_placed _ _) s
  have hweave' : (Spans.weave Mark.start .stop (itemMarks (contextOf o lcs) ordered)
      (tailMarks (contextOf o lcs) spans) spans.marks ordered.length).count (.stop s) =
        if (spans.marks.ends.getD s none).isSome then 1 else 0 :=
    Spans.count_stop h.starts_lt h.ends_lt hne (fun _ _ he => Mark.stop.inj he)
      (fun _ _ => stop_not_mem_placed _ _) (fun _ _ => stop_not_mem_placed _ _) s
  rw [hweave, hweave']
  simp

/-- The segment that takes a kind of orphans is a `LOAD` segment that some section names. -/
theorem orphanSegment_used (hfirst : first = spans.firstExec ∨ first = spans.firstRw ∨ first = spans.firstRo) :
    ∃ i, orphanSegment first spans.firstLoad = some i ∧ (spans.marks.ends.getD i none).isSome ∧
      ∃ phdr, headers[i]? = some phdr ∧ evaluateU32 phdr.ptype = .ok ptLoad := by
  have hsome : ∃ i, orphanSegment first spans.firstLoad = some i := by
    cases first with
    | some e => exact ⟨e.id, rfl⟩
    | none => exact Option.ne_none_iff_exists'.mp h.load
  obtain ⟨i, hi⟩ := hsome
  obtain ⟨⟨n, e, hmem, rfl, hload⟩, hends⟩ := h.found.chosen i (SpanState.chosen_of_orphanSegment hfirst hi)
  obtain ⟨⟨phdr, hphdr, -, htype⟩, -⟩ := h.entry hmem
  exact ⟨e.id, hi, Option.isSome_iff_ne_none.mpr hends, phdr, hphdr, hload ▸ htype⟩

/-- Orphans of one kind are added once in all. -/
theorem sum_orphans (hfirst : first = spans.firstExec ∨ first = spans.firstRw ∨ first = spans.firstRo) (c : Nat) :
    (∑ s ∈ Finset.range spans.marks.ends.length, if (spans.marks.ends.getD s none).isSome then
      (if orphanSegment first spans.firstLoad = some s then c else 0) else 0) = c := by
  obtain ⟨i, hi, hused, -⟩ := h.orphanSegment_used hfirst
  rw [Spans.sum_single spans.marks.ends i, if_pos hused, if_pos hi]
  intro s hs
  rw [hi, if_neg (fun he => hs (Option.some.inj he).symm)]

omit h in
/-- The sections of the positions are the declared ones. -/
theorem count_items (j : OutputSectionId) :
    ((List.range ordered.length).map (fun pos => (itemMarks (contextOf o lcs) ordered pos).count (.placed j))).sum =
      (ordered.flatMap (sectionIds (contextOf o lcs))).count j := by
  have hordered : ordered = (List.range ordered.length).map (fun pos => ordered.getD pos 0) := by
    refine List.ext_getElem (by simp) (fun i hi hi' => ?_)
    simp [List.getD_eq_getElem?_getD, hi]
  conv_rhs => rw [hordered, List.flatMap_map, List.count_flatMap]
  congr 2
  funext pos
  exact count_placed_map _ j

/-- The sections at the ends of the segments are the loaded orphans. -/
theorem count_tails (j : OutputSectionId) :
    (∑ s ∈ Finset.range spans.marks.ends.length, if (spans.marks.ends.getD s none).isSome then
      (tailMarks (contextOf o lcs) spans s).count (.placed j) else 0) =
      (([SectionClass.exec].flatMap o.custom ++ [SectionClass.tdata, .tbss, .data, .bss].flatMap o.custom ++
        [SectionClass.ro].flatMap o.custom).flatMap (sectionIds (contextOf o lcs))).count j := by
  let emitted (ids : List OutputSectionId) : Nat := (ids.flatMap (sectionIds (contextOf o lcs))).count j
  have hif : ∀ (P : Prop) [Decidable P] (ids : List OutputSectionId),
      emitted (if P then ids else []) = if P then emitted ids else 0 := by
    intro P _ ids
    split <;> rfl
  have happend : ∀ ids ids', emitted (ids ++ ids') = emitted ids + emitted ids' := by
    intro ids ids'
    show List.count _ _ = List.count _ _ + List.count _ _
    rw [List.flatMap_append, List.count_append]
  have hsplit : ∀ s, (tailMarks (contextOf o lcs) spans s).count (.placed j) =
      (if orphanSegment spans.firstExec spans.firstLoad = some s then
        emitted ([SectionClass.exec].flatMap o.custom) else 0) +
      (if orphanSegment spans.firstRw spans.firstLoad = some s then
        emitted ([SectionClass.tdata, .tbss, .data, .bss].flatMap o.custom) else 0) +
      (if orphanSegment spans.firstRo spans.firstLoad = some s then
        emitted ([SectionClass.ro].flatMap o.custom) else 0) := by
    intro s
    rw [← hif, ← hif, ← hif, ← happend, ← happend]
    exact count_placed_map _ j
  have hexec := h.sum_orphans (.inl rfl) (emitted ([SectionClass.exec].flatMap o.custom))
  have hrw := h.sum_orphans (.inr (.inl rfl))
    (emitted ([SectionClass.tdata, .tbss, .data, .bss].flatMap o.custom))
  have hro := h.sum_orphans (.inr (.inr rfl)) (emitted ([SectionClass.ro].flatMap o.custom))
  show _ = emitted (_ ++ _ ++ _)
  rw [happend, happend]
  refine Eq.trans ?_ (congrArg₂ (· + ·) (congrArg₂ (· + ·) hexec hrw) hro)
  show _ = _ + _ + _
  rw [← Finset.sum_add_distrib, ← Finset.sum_add_distrib]
  refine Finset.sum_congr rfl (fun s _ => ?_)
  rw [hsplit s]
  split <;> rfl

/-- A section is emitted for each time that it, or its primary section, is added, and as a header. -/
theorem count_placed (j : OutputSectionId) :
    (marks events).count (.placed j) =
      headerSections.count j + ((topLevel o ordered).flatMap (sectionIds (contextOf o lcs))).count j := by
  have hweave : (Spans.weave Mark.start .stop (itemMarks (contextOf o lcs) ordered)
      (tailMarks (contextOf o lcs) spans) spans.marks ordered.length).count (.placed j) = _ :=
    Spans.count_item h.starts_lt h.ends_lt (fun _ he => Mark.noConfusion he) (fun _ he => Mark.noConfusion he)
  rw [count_items, h.count_tails] at hweave
  rw [h.emitted, topLevel]
  simp only [List.count_append, List.flatMap_append, List.count_cons, List.count_nil, count_placed_map, hweave,
    List.count_eq_zero.mpr (placed_not_mem_unused values j)]
  simp only [beq_iff_eq, reduceCtorEq, if_false, List.flatMap_singleton, Nat.add_zero]
  omega

/-! ### Order -/

theorem weave_sublist :
    (Spans.weave Mark.start .stop (itemMarks (contextOf o lcs) ordered) (tailMarks (contextOf o lcs) spans)
      spans.marks ordered.length).Sublist (marks events) := by
  rw [h.emitted]
  exact (List.sublist_append_right _ _).trans ((List.sublist_append_left _ _).trans
    ((List.sublist_append_left _ _).trans (List.sublist_append_left _ _)))

/-- A segment that the section at a position names has both its boundaries around it. -/
theorem within_of_uses {r : Nat} (hid : ordered[r]? = some id) (hnames : Names m (o.info id).phdrs s)
    (hj : j ∈ sectionIds (contextOf o lcs) id) : Within events s j := by
  have huses : Uses o m ordered r s := ⟨id, hid, hnames⟩
  cases hq : spans.marks.ends.getD s none with
  | none => exact absurd huses ((h.found.marked.unused s hq).2 r)
  | some q =>
    obtain ⟨-, p, hp, -, hmin⟩ := h.found.marked.used s q hq
    have hitem : Mark.placed j ∈ itemMarks (contextOf o lcs) ordered r := by
      unfold itemMarks
      rw [List.getD_eq_getElem?_getD, hid]
      exact List.mem_map_of_mem hj
    exact (Spans.between_items hp hq (h.ends_lt s q hq) (hmin r huses).1 (hmin r huses).2 hitem).trans
      h.weave_sublist

/-- The orphans of a segment stand between its boundaries. -/
theorem within_of_orphan (hused : (spans.marks.ends.getD s none).isSome)
    (hid : id ∈ orphansAt (contextOf o lcs) spans s) (hj : j ∈ sectionIds (contextOf o lcs) id) :
    Within events s j := by
  obtain ⟨q, hq⟩ := Option.isSome_iff_exists.mp hused
  obtain ⟨hqs, p, hp, -, hmin⟩ := h.found.marked.used s q hq
  have htail : Mark.placed j ∈ tailMarks (contextOf o lcs) spans s :=
    List.mem_map_of_mem (List.mem_flatMap.mpr ⟨id, hid, hj⟩)
  exact (Spans.between_tail hp hq (h.ends_lt s q hq) (hmin q hqs).1 htail).trans h.weave_sublist

/-- Every kind of loaded orphans has its segment. -/
theorem exists_orphanSegment {c : SectionClass} (hc : c ≠ .nonalloc) :
    ∃ s, (spans.marks.ends.getD s none).isSome ∧
      (∃ phdr, headers[s]? = some phdr ∧ evaluateU32 phdr.ptype = .ok ptLoad) ∧
      ∀ id ∈ o.custom c, id ∈ orphansAt (contextOf o lcs) spans s := by
  obtain ⟨s, hs, hused, hheader⟩ := h.orphanSegment_used (.inl rfl)
  obtain ⟨s', hs', hused', hheader'⟩ := h.orphanSegment_used (.inr (.inl rfl))
  obtain ⟨s'', hs'', hused'', hheader''⟩ := h.orphanSegment_used (.inr (.inr rfl))
  unfold orphansAt
  cases c with
  | nonalloc => exact absurd rfl hc
  | exec => exact ⟨s, hused, hheader, fun id hid => by simpa [hs] using .inl hid⟩
  | ro => exact ⟨s'', hused'', hheader'', fun id hid => by simpa [hs''] using .inr (.inr hid)⟩
  | data | bss | tdata | tbss => exact ⟨s', hused', hheader', fun id hid => by simp [hs', contextOf, hid]⟩

end Built

/-! ## Sections of a table -/

namespace OutputSections

variable {o : OutputSections} {ordered : List OutputSectionId} {j p : OutputSectionId} {n : SectionName}

theorem primaryOutputSection_of_primary (h : (o.info j).kind = .primary n) : o.primaryOutputSection j = j := by
  simp [primaryOutputSection, mergeTarget, h]

theorem primaryOutputSection_of_secondary (h : (o.info j).kind = .secondary p) : o.primaryOutputSection j = p := by
  simp [primaryOutputSection, mergeTarget, h]

/-- A section is emitted together with its primary section. -/
theorem mem_sectionIds (lcs : List LocationCounter) (hj : j < o.sectionInfos.length) :
    j ∈ sectionIds (contextOf o lcs) (o.primaryOutputSection j) := by
  have hcount := count_sectionIds lcs (o.primaryOutputSection j) j hj
  cases hkind : (o.info j).kind with
  | primary n =>
    rw [primaryOutputSection_of_primary hkind]
    exact List.mem_cons_self
  | secondary p =>
    rw [primaryOutputSection_of_secondary hkind, hkind, if_pos rfl] at hcount
    rw [primaryOutputSection_of_secondary hkind]
    exact List.count_pos_iff.mp (by omega)

theorem isOrphan_iff (h : (o.info j).kind = .primary n) :
    o.isOrphan j = true ↔ (o.info j).phdrs = [] ∧ j ∉ headerSections ∧
      (j < numBuiltInSections → o.customByName n = none) := by
  unfold isOrphan
  rw [h]
  simp only [Bool.and_eq_true, decide_eq_true_eq, Bool.not_eq_true', List.contains_eq_mem,
    decide_eq_false_iff_not, Bool.and_eq_false_iff, Option.isSome_eq_false_iff, Option.isNone_iff_eq_none,
    and_assoc, imp_iff_not_or]

theorem not_superseded (h : (o.info j).kind = .primary n) (hname : j < numBuiltInSections →
    ∀ other, o.customByName n = some other → other = j) : ¬ o.Superseded j := by
  rintro ⟨hlt, n', other, hkind, hcustom, hne⟩
  rw [h] at hkind
  obtain rfl := SectionKind.primary.inj hkind
  exact hne (hname hlt other hcustom)

theorem isOutputSection_of_name (hj : j < o.sectionInfos.length) (hkind : (o.info j).kind = .primary n)
    (hname : j < numBuiltInSections → ∀ other, o.customByName n = some other → other = j) : o.IsOutputSection j := by
  refine ⟨hj, ?_⟩
  rw [primaryOutputSection_of_primary hkind]
  exact not_superseded hkind hname

end OutputSections

namespace Arranged

variable {o : OutputSections} {ordered : List OutputSectionId} {j : OutputSectionId} {n : SectionName}
  (A : Arranged o ordered)
include A

theorem ordered_lt (hj : j ∈ ordered) : j < o.sectionInfos.length := by
  obtain ⟨n, hn⟩ := A.registered j hj
  exact (A.named n j hn).1

/-- A declared section is known by its own name. -/
theorem ordered_name (hj : j ∈ ordered) : ∃ n, (o.info j).kind = .primary n ∧ o.customByName n = some j := by
  obtain ⟨n, hn⟩ := A.registered j hj
  exact ⟨n, (A.named n j hn).2, hn⟩

theorem isOutputSection_of_ordered (hj : j ∈ ordered) : o.IsOutputSection j := by
  obtain ⟨n, hkind, hn⟩ := A.ordered_name hj
  exact OutputSections.isOutputSection_of_name (A.ordered_lt hj) hkind
    (fun _ other hother => Option.some.inj (hother.symm.trans hn))

theorem header_primary (hj : j ∈ headerSections) : ∃ n, (o.info j).kind = .primary n := by
  have hall : ∀ j ∈ headerSections, j < numBuiltInSections ∧
      (builtInSectionInfos.getD j (primarySection "" 0 0)).kind.target = none := by decide
  rw [A.builtIn j (hall j hj).1]
  exact SectionKind.exists_name (hall j hj).2

theorem riscv_primary : ∃ n, (o.info riscvAttributes).kind = .primary n := by
  rw [A.builtIn riscvAttributes (by decide)]
  exact SectionKind.exists_name (by decide)

end Arranged

/-! ## When every section has one home -/

section OneHome

variable {o : OutputSections} {headers : List Phdr} {ordered : List OutputSectionId} {lcs : List LocationCounter}
  {events : List OrderEvent} {m : SegmentsMap} {spans : SpanState} {values : List SegmentEntry}

/-- How often a primary section is emitted. -/
theorem Built.count_primary (h : Built o headers ordered lcs events m spans values) {j : OutputSectionId}
    {n : SectionName} (hj : j < o.sectionInfos.length) (hkind : (o.info j).kind = .primary n) :
    (marks events).count (.placed j) = headerSections.count j + (topLevel o ordered).count j := by
  rw [h.count_placed, count_flatMap_sectionIds lcs _ j hj, hkind]
  rfl

namespace OneHome

variable (c : OneHome o headers ordered) (A : Arranged o ordered)
include c A

/-- A section that is neither superseded nor a header is added once. -/
theorem count_topLevel {j : OutputSectionId} {n : SectionName} (hj : j < o.sectionInfos.length)
    (hkind : (o.info j).kind = .primary n) (hsuper : ¬ o.Superseded j) (hheader : j ∉ headerSections) :
    (topLevel o ordered).count j = 1 := by
  rw [Reld.count_topLevel]
  by_cases hmem : j ∈ ordered
  · -- A declared section is no orphan.
    have hadded : ¬ AddedAsOrphan o j := by
      rintro ⟨-, horphan, -⟩
      obtain ⟨hphdrs, -, hnone⟩ := (OutputSections.isOrphan_iff hkind).mp horphan
      rcases Nat.lt_or_ge j numBuiltInSections with hlt | hge
      · obtain ⟨n', hkind', hn'⟩ := A.ordered_name hmem
        rw [hkind] at hkind'
        obtain rfl := SectionKind.primary.inj hkind'
        rw [hnone hlt] at hn'
        cases hn'
      · exact c.covered j hmem hge hphdrs
    rw [List.count_eq_one_of_mem c.declared hmem, if_neg hadded, if_neg (fun he => (c.reserved j hmem).2 he.symm)]
  · have hphdrs : (o.info j).phdrs = [] := by
      by_contra hne
      exact hmem (A.withPhdrs j hne)
    rw [List.count_eq_zero.mpr hmem]
    by_cases hr : j = riscvAttributes
    · subst hr
      rw [if_neg (fun hadded => hadded.2.2 (c.riscv hadded.2.1) rfl), if_pos rfl]
    · have horphan : o.isOrphan j = true := by
        refine (OutputSections.isOrphan_iff hkind).mpr ⟨hphdrs, hheader, fun hlt => ?_⟩
        by_contra hname
        obtain ⟨other, hother⟩ := Option.ne_none_iff_exists'.mp hname
        by_cases he : other = j
        · exact hmem (c.builtIn j n hlt hkind (he ▸ hother) hheader hr)
        · exact hsuper ⟨hlt, n, other, hkind, hother, he⟩
      rw [if_pos ⟨hj, horphan, fun _ => hr⟩, if_neg (fun he => hr he.symm)]

/-- Every section of the output is emitted once. -/
theorem once (h : Built o headers ordered lcs events m spans values) (j : OutputSectionId)
    (hj : o.IsOutputSection j) : (marks events).count (.placed j) = 1 := by
  obtain ⟨hlt, hsuper⟩ := hj
  cases hkind : (o.info j).kind with
  | primary n =>
    rw [OutputSections.primaryOutputSection_of_primary hkind] at hsuper
    rw [h.count_primary hlt hkind]
    by_cases hheader : j ∈ headerSections
    · -- A header is emitted by itself and never added.
      have hmem : j ∉ ordered := fun hmem => (c.reserved j hmem).1 hheader
      have hadded : ¬ AddedAsOrphan o j := fun hadded =>
        ((OutputSections.isOrphan_iff hkind).mp hadded.2.1).2.1 hheader
      have hr : riscvAttributes ≠ j := by
        rintro rfl
        exact absurd hheader (by decide)
      rw [Reld.count_topLevel, List.count_eq_zero.mpr hmem, if_neg hadded, if_neg hr,
        List.count_eq_one_of_mem (by decide) hheader]
    · rw [List.count_eq_zero.mpr hheader, c.count_topLevel A hlt hkind hsuper hheader]
  | secondary p =>
    rw [OutputSections.primaryOutputSection_of_secondary hkind] at hsuper
    obtain ⟨⟨n, hn⟩, hwhere⟩ := A.secondaries j p hkind
    have hp : p < o.sectionInfos.length ∧ p ∉ headerSections := by
      rcases hwhere with hmem | ⟨hlt, hheader⟩
      · exact ⟨A.ordered_lt hmem, (c.reserved p hmem).1⟩
      · exact ⟨Nat.lt_of_lt_of_le hlt A.long, hheader⟩
    -- A secondary section is never added by itself.
    have hself : (topLevel o ordered).count j = 0 := by
      have hmem : j ∉ ordered := fun hmem => by
        obtain ⟨n', hkind', -⟩ := A.ordered_name hmem
        rw [hkind] at hkind'
        cases hkind'
      have hadded : ¬ AddedAsOrphan o j := fun hadded => by
        have horphan := hadded.2.1
        unfold OutputSections.isOrphan at horphan
        rw [hkind] at horphan
        cases horphan
      have hr : riscvAttributes ≠ j := by
        rintro rfl
        obtain ⟨n', hkind'⟩ := A.riscv_primary
        rw [hkind] at hkind'
        cases hkind'
      rw [Reld.count_topLevel, List.count_eq_zero.mpr hmem, if_neg hadded, if_neg hr]
    have hheader : j ∉ headerSections := fun hheader => by
      obtain ⟨n', hkind'⟩ := A.header_primary hheader
      rw [hkind] at hkind'
      cases hkind'
    rw [h.count_placed, count_flatMap_sectionIds lcs _ j hlt, hkind]
    show _ + (_ + (topLevel o ordered).count p) = 1
    rw [List.count_eq_zero.mpr hheader, hself, c.count_topLevel A hp.1 hn hsuper hp.2]

omit A in
/-- The entry of a program header is its own. -/
theorem entry_of_header (h : Built o headers ordered lcs events m spans values) {phdr : Phdr}
    (hs : headers[s]? = some phdr) : ∃ e, (phdr.name, e) ∈ m ∧ e.id = s := by
  obtain ⟨st, rfl, hread⟩ := h.names
  obtain ⟨e, he⟩ := hread.cover phdr (List.mem_of_getElem? hs)
  obtain ⟨⟨phdr', hphdr', hname, -⟩, -⟩ := hread.entry _ e he
  refine ⟨e, he, ?_⟩
  have hlt : e.id < (headers.map (·.name)).length := by
    rw [List.length_map]
    exact (List.getElem?_eq_some_iff.mp hphdr').1
  refine (List.getElem?_inj hlt c.distinct).mp ?_
  rw [List.getElem?_map, List.getElem?_map, hs, hphdr']
  exact congrArg some hname

omit A in
/-- The entry of a segment that a section names is emitted. -/
theorem isEmitted_of_uses (h : Built o headers ordered lcs events m spans values) {r : Nat} {n : Bytes}
    (hmem : (n, e) ∈ m) (huses : Uses o m ordered r e.id) : e.isEmitted = true := by
  obtain ⟨id, hid, n', hn', e', he', hee⟩ := huses
  obtain ⟨⟨phdr, hphdr, hname, -⟩, -⟩ := h.entry hmem
  obtain ⟨⟨phdr', hphdr', hname', -⟩, -⟩ := h.entry he'
  rw [hee, hphdr] at hphdr'
  obtain rfl := Option.some.inj hphdr'
  obtain rfl : n = n' := hname.symm.trans hname'
  obtain ⟨st, rfl, hread⟩ := h.names
  have hnone : n ≠ nonePhdr := by
    rintro rfl
    exact c.unnamed (List.mem_map.mpr ⟨phdr, List.mem_of_getElem? hphdr, hname⟩) id (List.mem_of_getElem? hid) hn'
  refine hread.marks c.distinct n e hmem (List.mem_flatMap.mpr ⟨id, List.mem_of_getElem? hid, ?_⟩)
  exact List.mem_filter.mpr ⟨hn', by simpa using hnone⟩

omit c A in
/-- The entry of an emitted segment is named by some section. -/
theorem uses_of_isEmitted (h : Built o headers ordered lcs events m spans values) {n : Bytes} (hmem : (n, e) ∈ m)
    (hemitted : e.isEmitted = true) : ∃ r, Uses o m ordered r e.id := by
  obtain ⟨st, rfl, hread⟩ := h.names
  obtain ⟨id, hid, hn⟩ := List.mem_flatMap.mp (hread.emitted n e hmem hemitted)
  obtain ⟨r, hr⟩ := List.mem_iff_getElem?.mp hid
  exact ⟨r, id, hr, n, (List.mem_filter.mp hn).1, e, hmem, rfl⟩

omit A in
/-- Every segment is started and ended once, in this order. -/
theorem balanced (h : Built o headers ordered lcs events m spans values) (s : ProgramSegmentId)
    (hs : s ≤ headers.length) :
    (marks events).count (.start s) = 1 ∧ (marks events).count (.stop s) = 1 ∧
      [Mark.start s, .stop s].Sublist (marks events) := by
  obtain ⟨hstart, hstop⟩ := h.count_boundaries s
  have hvalue : ∀ e, e ∈ values → ∃ n, (n, e) ∈ m := fun e he => by
    obtain ⟨p, hp, rfl⟩ := List.mem_map.mp (h.listed.mem_iff.mp he)
    exact ⟨p.1, hp⟩
  rcases Nat.lt_or_eq_of_le hs with hlt | rfl
  · obtain ⟨e, hmem, rfl⟩ := c.entry_of_header h (List.getElem?_eq_getElem hlt)
    have he : e ∈ values := h.listed.mem_iff.mpr (List.mem_map.mpr ⟨_, hmem, rfl⟩)
    have hne : headers.length ≠ e.id := Nat.ne_of_gt hlt
    cases hused : e.isEmitted with
    | true =>
      -- The segment has its span, and no other entry has its id.
      obtain ⟨r, huses⟩ := uses_of_isEmitted h hmem hused
      have hends : (spans.marks.ends.getD e.id none).isSome := by
        cases hq : spans.marks.ends.getD e.id none with
        | none => exact absurd huses ((h.found.marked.unused _ hq).2 r)
        | some q => rfl
      have hno : ¬ ∃ e' ∈ values, e'.id = e.id ∧ e'.isEmitted = false := by
        rintro ⟨e', he', hid, hfalse⟩
        obtain rfl := List.inj_on_of_nodup_map h.nodup_ids he' he hid
        rw [hused] at hfalse
        cases hfalse
      rw [if_pos hends, if_neg hno, if_neg hne] at hstart hstop
      obtain ⟨id, hid, hnames⟩ := huses
      refine ⟨hstart, hstop, List.Sublist.trans ?_
        (h.within_of_uses hid hnames (List.mem_cons_self : id ∈ sectionIds (contextOf o lcs) id))⟩
      simp
    | false =>
      have hends : ¬ (spans.marks.ends.getD e.id none).isSome := by
        intro hsome
        obtain ⟨q, hq⟩ := Option.isSome_iff_exists.mp hsome
        rw [c.isEmitted_of_uses h hmem (h.found.marked.used _ q hq).1] at hused
        cases hused
      rw [if_neg hends, if_pos ⟨e, he, rfl, hused⟩, if_neg hne] at hstart hstop
      refine ⟨hstart, hstop, ?_⟩
      have hunused : [Mark.start e.id, .stop e.id].Sublist (values.flatMap unusedMarks) := by
        have hsub := (List.singleton_sublist.mpr he).flatMap unusedMarks
        rwa [List.flatMap_singleton, unusedMarks, hused] at hsub
      rw [h.emitted]
      exact hunused.trans ((List.sublist_append_right _ _).trans (List.sublist_append_left _ _))
  · -- The segment of the attributes comes last.
    have hends : ¬ (spans.marks.ends.getD headers.length none).isSome := by
      rw [List.getD_eq_default _ _ (Nat.le_of_eq h.found.marked.length_ends)]
      exact Bool.false_ne_true
    have hno : ¬ ∃ e ∈ values, e.id = headers.length ∧ e.isEmitted = false := by
      rintro ⟨e, he, hid, -⟩
      obtain ⟨n, hmem⟩ := hvalue e he
      exact absurd hid (Nat.ne_of_lt (h.entry_lt hmem))
    rw [if_neg hends, if_neg hno, if_pos rfl] at hstart hstop
    refine ⟨hstart, hstop, ?_⟩
    rw [h.emitted]
    refine List.Sublist.trans ?_ (List.sublist_append_right _ _)
    exact List.Sublist.cons_cons _ (List.sublist_append_right _ _)

/-- The output order is as it should be. -/
theorem wellLaid (h : Built o headers ordered lcs events m spans values) : WellLaid o headers events where
  once := c.once A h
  balanced := c.balanced h
  assigned j hj n hn hnone s phdr hs hname := by
    have hmem : o.primaryOutputSection j ∈ ordered := A.withPhdrs _ (fun he => by rw [he] at hn; cases hn)
    obtain ⟨r, hr⟩ := List.mem_iff_getElem?.mp hmem
    obtain ⟨e, he, rfl⟩ := c.entry_of_header h hs
    exact h.within_of_uses hr ⟨n, hn, e, hname ▸ he, rfl⟩ (OutputSections.mem_sectionIds lcs hj.1)
  orphans j hj horphan hclass := by
    obtain ⟨s, hused, ⟨phdr, hs, htype⟩, hmem⟩ := h.exists_orphanSegment hclass
    have hp : o.primaryOutputSection j < o.sectionInfos.length := by
      cases hkind : (o.info j).kind with
      | primary n => exact (OutputSections.primaryOutputSection_of_primary hkind).symm ▸ hj.1
      | secondary p =>
        rw [OutputSections.primaryOutputSection_of_secondary hkind]
        rcases (A.secondaries j p hkind).2 with hmem | ⟨hlt, -⟩
        · exact A.ordered_lt hmem
        · exact Nat.lt_of_lt_of_le hlt A.long
    refine ⟨s, phdr, hs, htype, h.within_of_orphan hused (hmem _ ?_) (OutputSections.mem_sectionIds lcs hj.1)⟩
    refine List.mem_filter.mpr ⟨List.mem_range.mpr hp, ?_⟩
    simp [horphan]

end OneHome

namespace WellLaid

variable (w : WellLaid o headers events) (h : Built o headers ordered lcs events m spans values)
include w h

/-- An earlier program header of the same name has no entry, so its segment never starts. -/
theorem distinct : (headers.map (·.name)).Nodup := by
  by_contra hdup
  rw [List.nodup_iff_getElem?_ne_getElem?] at hdup
  push Not at hdup
  obtain ⟨i, j, hij, hj, heq⟩ := hdup
  rw [List.length_map] at hj
  rw [List.getElem?_map, List.getElem?_map, List.getElem?_eq_getElem hj,
    List.getElem?_eq_getElem (Nat.lt_trans hij hj)] at heq
  have hnone : ∀ n e, (n, e) ∈ m → e.id ≠ i := by
    rintro n e hmem rfl
    obtain ⟨⟨phdr, hphdr, hname, -⟩, hlast⟩ := h.entry hmem
    rw [List.getElem?_eq_getElem (Nat.lt_trans hij hj)] at hphdr
    refine hlast j _ hij (List.getElem?_eq_getElem hj) ?_
    rw [← hname, ← Option.some.inj hphdr]
    exact (Option.some.inj heq).symm
  have hcount := (h.count_boundaries i).1
  have hends : ¬ (spans.marks.ends.getD i none).isSome := by
    intro hsome
    obtain ⟨q, hq⟩ := Option.isSome_iff_exists.mp hsome
    obtain ⟨-, -, n, -, e, hmem, hid⟩ := (h.found.marked.used i q hq).1
    exact hnone n e hmem hid
  have hno : ¬ ∃ e ∈ values, e.id = i ∧ e.isEmitted = false := by
    rintro ⟨e, he, hid, -⟩
    obtain ⟨p, hp, rfl⟩ := List.mem_map.mp (h.listed.mem_iff.mp he)
    exact hnone p.1 p.2 hp hid
  rw [(w.balanced i (Nat.le_of_lt (Nat.lt_trans hij hj))).1, if_neg hends, if_neg hno,
    if_neg (Nat.ne_of_gt (Nat.lt_trans hij hj))] at hcount
  omega

/-- A segment called `NONE` is never taken for emitted. -/
theorem unnamed (hnone : nonePhdr ∈ headers.map (·.name)) (id : OutputSectionId) (hid : id ∈ ordered) :
    nonePhdr ∉ (o.info id).phdrs := by
  intro hn
  obtain ⟨r, hr⟩ := List.mem_iff_getElem?.mp hid
  obtain ⟨phdr, hphdr, hname⟩ := List.mem_map.mp hnone
  have hlisted := h.listed
  have hbounds := fun s => (h.count_boundaries s).1
  have hmarked := h.found.marked
  obtain ⟨st, rfl, hread⟩ := h.names
  obtain ⟨e, he⟩ := hread.cover phdr hphdr
  rw [hname] at he
  have hends : (spans.marks.ends.getD e.id none).isSome := by
    cases hq : spans.marks.ends.getD e.id none with
    | none => exact absurd ⟨id, hr, nonePhdr, hn, e, he, rfl⟩ ((hmarked.unused _ hq).2 r)
    | some q => rfl
  have hunused : ∃ e' ∈ values, e'.id = e.id ∧ e'.isEmitted = false := by
    refine ⟨e, hlisted.mem_iff.mpr (List.mem_map.mpr ⟨_, he, rfl⟩), rfl, ?_⟩
    cases hemitted : e.isEmitted with
    | false => rfl
    | true => exact absurd rfl (hread.known _ (hread.emitted _ e he hemitted)).1
  have hlt : e.id < headers.length := by
    obtain ⟨⟨phdr', hphdr', -⟩, -⟩ := hread.entry _ e he
    exact (List.getElem?_eq_some_iff.mp hphdr').1
  have hcount := hbounds e.id
  rw [(w.balanced e.id (Nat.le_of_lt hlt)).1, if_pos hends, if_pos hunused] at hcount
  omega

variable (A : Arranged o ordered)
include A

/-- The count of a declared section leaves no room for anything but its declaration. -/
theorem count_ordered {id : OutputSectionId} (hid : id ∈ ordered) :
    headerSections.count id + (ordered.count id + (if AddedAsOrphan o id then 1 else 0) +
      if riscvAttributes = id then 1 else 0) = 1 := by
  obtain ⟨n, hkind, -⟩ := A.ordered_name hid
  rw [← count_topLevel, ← h.count_primary (A.ordered_lt hid) hkind]
  exact w.once id (A.isOutputSection_of_ordered hid)

theorem oneHome : OneHome o headers ordered where
  distinct := w.distinct h
  unnamed := w.unnamed h
  declared := by
    refine List.nodup_iff_count_le_one.mpr (fun id => ?_)
    by_cases hid : id ∈ ordered
    · have hcount := w.count_ordered h A hid
      omega
    · rw [List.count_eq_zero.mpr hid]
      exact Nat.zero_le 1
  reserved id hid := by
    have hcount := w.count_ordered h A hid
    have hpos := List.count_pos_iff.mpr hid
    constructor
    · intro hheader
      have hheader := List.count_pos_iff.mpr hheader
      omega
    · rintro rfl
      rw [if_pos rfl] at hcount
      omega
  covered id hid hge hphdrs := by
    have hcount := w.count_ordered h A hid
    have hpos := List.count_pos_iff.mpr hid
    obtain ⟨n, hkind, -⟩ := A.ordered_name hid
    have hsmall : ∀ i ∈ riscvAttributes :: headerSections, i < numBuiltInSections := by decide
    have hadded : AddedAsOrphan o id := by
      refine ⟨A.ordered_lt hid, (OutputSections.isOrphan_iff hkind).mpr ⟨hphdrs, fun hheader => ?_, fun hlt => ?_⟩,
        fun _ he => ?_⟩
      · exact absurd (hsmall id (List.mem_cons_of_mem _ hheader)) (Nat.not_lt.mpr hge)
      · exact absurd hlt (Nat.not_lt.mpr hge)
      · exact absurd (hsmall id (he ▸ List.mem_cons_self)) (Nat.not_lt.mpr hge)
    rw [if_pos hadded] at hcount
    omega
  riscv horphan := by
    by_contra hclass
    obtain ⟨n, hkind⟩ := A.riscv_primary
    have hlt : riscvAttributes < o.sectionInfos.length := Nat.lt_of_lt_of_le (by decide) A.long
    have hname := ((OutputSections.isOrphan_iff hkind).mp horphan).2.2
    have hout : o.IsOutputSection riscvAttributes :=
      OutputSections.isOutputSection_of_name hlt hkind (fun hlt other hother => by
        rw [hname hlt] at hother
        cases hother)
    have hcount := w.once _ hout
    rw [h.count_primary hlt hkind, count_topLevel, if_pos ⟨hlt, horphan, fun he => absurd he hclass⟩,
      if_pos rfl] at hcount
    omega
  builtIn id n hlt hkind hname hheader hr := by
    by_contra hid
    have hlen := Nat.lt_of_lt_of_le hlt A.long
    have hout : o.IsOutputSection id :=
      OutputSections.isOutputSection_of_name hlen hkind (fun _ other hother =>
        Option.some.inj (hother.symm.trans hname))
    have hadded : ¬ AddedAsOrphan o id := fun hadded => by
      rw [((OutputSections.isOrphan_iff hkind).mp hadded.2.1).2.2 hlt] at hname
      cases hname
    have hcount := w.once _ hout
    rw [h.count_primary hlen hkind, count_topLevel, List.count_eq_zero.mpr hheader, List.count_eq_zero.mpr hid,
      if_neg hadded, if_neg (fun he => hr he.symm)] at hcount
    omega

end WellLaid

end OneHome

/-- **The custom output order is well laid exactly for the tables and scripts of `OneHome`**, whatever the
    scripts declare, the objects add, and the order in which the map lists its entries. -/
theorem custom_output_order_iff (l : LinkSections) (hashOrder : List SegmentEntry → List SegmentEntry)
    (hperm : ∀ entries, (hashOrder entries).Perm entries) (events : List OrderEvent)
    (segments : List ProgramSegmentDef)
    (h : buildCustomOutputOrder hashOrder l.collect.1 l.collect.2 = .ok (events, segments)) :
    WellLaid l.collect.1 (l.collect.2.flatMap (·.programHeaders)) events ↔
      OneHome l.collect.1 (l.collect.2.flatMap (·.programHeaders)) (l.collect.2.flatMap (·.orderedSections)) := by
  obtain ⟨m, spans, values, hbuilt⟩ := buildCustomOutputOrder_built hperm h
  exact ⟨fun w => w.oneHome hbuilt l.collect_arranged, fun c => c.wellLaid l.collect_arranged hbuilt⟩

/-! ### A section before the first program header -/

/-- A script with one segment that declares `.foo` before the first section with a program header:
    `PHDRS { text PT_LOAD; } SECTIONS { .foo : { *(.foo) } .text : { *(.text) } :text }`. -/
def earlySection : LinkSections where
  outputKind := .staticExecutable .nonRelocatable
  scripts :=
    [[.phdrs [{ name := bytesOf "text", ptype := .number ptLoad }],
      .sections
        [.outputSection { outputSectionName := bytesOf ".foo", commands := [.matcher] },
         .outputSection
          { outputSectionName := bytesOf ".text", phdrs := [bytesOf "text"], commands := [.matcher] }]]]
  objects := []
  propagate := fun id a => if id < numBuiltInSections then a else { flags := shfAlloc + shfExecinstr, ty := 1 }

/-- The section is emitted where it is declared and once more at the end of the segment. -/
theorem early_section_twice : ∃ events segments,
    buildCustomOutputOrder id earlySection.collect.1 earlySection.collect.2 = .ok (events, segments) ∧
      ¬ WellLaid earlySection.collect.1 (earlySection.collect.2.flatMap (·.programHeaders)) events := by
  refine ⟨_, _, rfl, fun w => ?_⟩
  have honce := w.once 49 ⟨by decide, fun hs => absurd hs.1 (by decide)⟩
  exact absurd honce (by decide)

/-- On this script, too, the order is well laid exactly if the conditions hold. -/
theorem custom_output_order_iff_early_section : ∃ events segments,
    buildCustomOutputOrder id earlySection.collect.1 earlySection.collect.2 = .ok (events, segments) ∧
      (WellLaid earlySection.collect.1 (earlySection.collect.2.flatMap (·.programHeaders)) events ↔
        OneHome earlySection.collect.1 (earlySection.collect.2.flatMap (·.programHeaders))
          (earlySection.collect.2.flatMap (·.orderedSections))) :=
  ⟨_, _, rfl, custom_output_order_iff earlySection id (fun _ => List.Perm.refl _) _ _ rfl⟩

end Reld
