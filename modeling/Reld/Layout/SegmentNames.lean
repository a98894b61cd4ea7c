import Reld.Lib.Traverse
import Reld.Layout.OutputOrder

/-!
# `Layout.SegmentNames` — the segments by their names

What the loops over the scripts leave behind: the map holds, for every name of a program header, the last
header of that name (`SegmentsRead`), and an entry counts as emitted only if a section names it. From it,
`findSpans` marks each segment of the map where its name is first and last used (`findSpans_marked`), and the
segments that take the orphans are used `LOAD` segments.
-/

namespace Reld

open OutputOrderBuilder

namespace SegmentsMap

variable {m : SegmentsMap}

theorem get_eq_some_iff (hkeys : (m.map (·.1)).Nodup) {n : Bytes} {e : SegmentEntry} :
    m.get n = some e ↔ (n, e) ∈ m := by
  unfold get
  constructor
  · intro h
    obtain ⟨p, hp, rfl⟩ := Option.map_eq_some_iff.mp h
    have hn : p.1 = n := by simpa using List.find?_some hp
    exact hn ▸ List.mem_of_find?_eq_some hp
  · intro h
    have hfind : m.find? (fun p => decide (p.1 = n)) = some (n, e) := by
      induction m with
      | nil => cases h
      | cons p m ih =>
        rw [List.map_cons, List.nodup_cons] at hkeys
        rcases List.mem_cons.mp h with rfl | h
        · simp
        · have hne : p.1 ≠ n := fun he => hkeys.1 (he ▸ List.mem_map_of_mem (f := (·.1)) h)
          rw [List.find?_cons_of_neg (by simpa using hne)]
          exact ih hkeys.2 h
    rw [hfind]
    rfl

theorem mem_insert {n n' : Bytes} {e e' : SegmentEntry} :
    (n', e') ∈ m.insert n e ↔ (n' = n ∧ e' = e) ∨ (n' ≠ n ∧ (n', e') ∈ m) := by
  unfold insert
  simp only [List.mem_append, List.mem_filter, List.mem_singleton, Prod.mk.injEq, decide_eq_true_eq, ne_eq]
  tauto

theorem nodup_insert (hkeys : (m.map (·.1)).Nodup) (n : Bytes) (e : SegmentEntry) :
    ((m.insert n e).map (·.1)).Nodup := by
  unfold insert
  rw [List.map_append, List.nodup_append]
  refine ⟨hkeys.sublist (List.filter_sublist.map _), List.nodup_singleton _, ?_⟩
  intro a ha b hb hab
  obtain ⟨p, hp, rfl⟩ := List.mem_map.mp ha
  have hb : b = n := by simpa using hb
  have hne : p.1 ≠ n := by simpa using (List.mem_filter.mp hp).2
  exact hne (hab.trans hb)

theorem map_fst_set (n : Bytes) (e : SegmentEntry) : (m.set n e).map (·.1) = m.map (·.1) := by
  unfold set
  rw [List.map_map]
  refine List.map_congr_left (fun p _ => ?_)
  simp only [Function.comp]
  split
  · exact Eq.symm ‹_›
  · rfl

theorem mem_set {n n' : Bytes} {e e' old : SegmentEntry} (hold : (n, old) ∈ m) :
    (n', e') ∈ m.set n e ↔ (n' = n ∧ e' = e) ∨ (n' ≠ n ∧ (n', e') ∈ m) := by
  unfold set
  rw [List.mem_map]
  constructor
  · rintro ⟨p, hp, hpe⟩
    split at hpe
    · exact .inl ⟨(Prod.mk.inj hpe).1.symm, (Prod.mk.inj hpe).2.symm⟩
    · rename_i hne
      subst hpe
      exact .inr ⟨hne, hp⟩
  · rintro (⟨rfl, rfl⟩ | ⟨hne, hp⟩)
    · exact ⟨_, hold, if_pos rfl⟩
    · exact ⟨_, hp, if_neg hne⟩

end SegmentsMap

/-! ## Reading the scripts -/

/-- The names of program headers that a section uses. -/
def OutputSections.usedPhdrs (o : OutputSections) (id : OutputSectionId) : List Bytes :=
  (o.info id).phdrs.filter (· ≠ nonePhdr)

/-- What the loops have read: the program headers `headers`, the names `used` and the sections `ordered`. -/
structure SegmentsRead (headers : List Phdr) (used : List Bytes) (ordered : List OutputSectionId)
    (s : SegmentState) : Prop where
  marked : s.builder.marked = []
  count : s.builder.segmentCount = headers.length
  ordered : s.orderedSections = ordered
  keys : (s.segmentsMap.map (·.1)).Nodup
  /-- An entry is that of the last program header of its name. -/
  entry : ∀ n e, (n, e) ∈ s.segmentsMap →
    (∃ phdr, headers[e.id]? = some phdr ∧ phdr.name = n ∧ evaluateU32 phdr.ptype = .ok e.ptype) ∧
      ∀ j phdr, e.id < j → headers[j]? = some phdr → phdr.name ≠ n
  cover : ∀ phdr ∈ headers, ∃ e, (phdr.name, e) ∈ s.segmentsMap
  known : ∀ n ∈ used, n ≠ nonePhdr ∧ n ∈ headers.map (·.name)
  emitted : ∀ n e, (n, e) ∈ s.segmentsMap → e.isEmitted = true → n ∈ used
  /-- As long as no header is replaced by one of the same name, the used entries are marked. -/
  marks : (headers.map (·.name)).Nodup → ∀ n e, (n, e) ∈ s.segmentsMap → n ∈ used → e.isEmitted = true

namespace SegmentsRead

variable {headers : List Phdr} {used : List Bytes} {ordered : List OutputSectionId} {s s' : SegmentState}

theorem new (ctx : OrderContext) : SegmentsRead [] [] [] { builder := new ctx } where
  marked := rfl
  count := rfl
  ordered := rfl
  keys := List.nodup_nil
  entry n e h := by cases h
  cover phdr h := by cases h
  known n h := by cases h
  emitted n e h := by cases h
  marks _ n e h := by cases h

theorem addPhdr (h : SegmentsRead headers used ordered s) {phdr : Phdr} (hs : addPhdr s phdr = .ok s') :
    SegmentsRead (headers ++ [phdr]) used ordered s' := by
  unfold Reld.addPhdr at hs
  simp only [bind, Except.bind] at hs
  split at hs
  · cases hs
  rename_i ptype hptype
  split at hs
  · cases hs
  split at hs
  · cases hs
  rename_i r hadd
  unfold addCustomSegment at hadd
  split at hadd
  swap
  · cases hadd
  obtain rfl := Except.ok.inj hadd
  obtain rfl := Except.ok.inj hs
  have hcount : s.builder.programSegments.length = headers.length := h.count
  have hlast : (headers ++ [phdr])[headers.length]? = some phdr := by simp
  have hold : ∀ j p, headers[j]? = some p → (headers ++ [phdr])[j]? = some p := fun j p hj => by
    rw [List.getElem?_append_left (List.getElem?_eq_some_iff.mp hj).1]
    exact hj
  constructor
  · exact h.marked
  · show (s.builder.programSegments ++ _).length = _
    rw [List.length_append, hcount, List.length_append]
    rfl
  · exact h.ordered
  · exact SegmentsMap.nodup_insert h.keys _ _
  · intro n e hmem
    rcases SegmentsMap.mem_insert.mp hmem with ⟨rfl, rfl⟩ | ⟨hne, hmem⟩
    · rw [hcount]
      refine ⟨⟨phdr, hlast, rfl, hptype⟩, fun j p hj hp => ?_⟩
      have hlt := (List.getElem?_eq_some_iff.mp hp).1
      rw [List.length_append, List.length_singleton] at hlt
      exact absurd hj (Nat.not_lt.mpr (Nat.le_of_lt_succ hlt))
    · obtain ⟨⟨p, hp, hname, heval⟩, hmax⟩ := h.entry n e hmem
      refine ⟨⟨p, hold _ _ hp, hname, heval⟩, fun j q hj hq => ?_⟩
      rcases Nat.lt_or_ge j headers.length with hlt | hge
      · rw [List.getElem?_append_left hlt] at hq
        exact hmax j q hj hq
      · have hjlt := (List.getElem?_eq_some_iff.mp hq).1
        rw [List.length_append, List.length_singleton] at hjlt
        obtain rfl : j = headers.length := Nat.le_antisymm (Nat.le_of_lt_succ hjlt) hge
        obtain rfl : phdr = q := Option.some.inj (hlast.symm.trans hq)
        exact fun he => hne he.symm
  · intro p hp
    rcases List.mem_append.mp hp with hp | hp
    · obtain ⟨e, he⟩ := h.cover p hp
      by_cases hn : p.name = phdr.name
      · exact ⟨_, SegmentsMap.mem_insert.mpr (.inl ⟨hn, rfl⟩)⟩
      · exact ⟨e, SegmentsMap.mem_insert.mpr (.inr ⟨hn, he⟩)⟩
    · obtain rfl := List.mem_singleton.mp hp
      exact ⟨_, SegmentsMap.mem_insert.mpr (.inl ⟨rfl, rfl⟩)⟩
  · intro n hn
    refine ⟨(h.known n hn).1, ?_⟩
    rw [List.map_append]
    exact List.mem_append_left _ (h.known n hn).2
  · intro n e hmem hemitted
    rcases SegmentsMap.mem_insert.mp hmem with ⟨rfl, rfl⟩ | ⟨-, hmem⟩
    · cases hemitted
    · exact h.emitted n e hmem hemitted
  · intro hnodup n e hmem hused
    rw [List.map_append, List.map_singleton, List.nodup_append] at hnodup
    have hne : n ≠ phdr.name := hnodup.2.2 n (h.known n hused).2 phdr.name (List.mem_singleton_self _)
    rcases SegmentsMap.mem_insert.mp hmem with ⟨he, -⟩ | ⟨-, hmem⟩
    · exact absurd he hne
    · exact h.marks hnodup.1 n e hmem hused

/-- Marking an entry as emitted. -/
theorem setEmitted (h : SegmentsRead headers used ordered s) {phdr : Bytes} {entry : SegmentEntry}
    (hget : s.segmentsMap.get phdr = some entry) (hnone : phdr ≠ nonePhdr) (flags : Nat)
    (b : OutputOrderBuilder) (hmarked : b.marked = s.builder.marked)
    (hcount : b.segmentCount = s.builder.segmentCount) :
    SegmentsRead headers (used ++ [phdr]) ordered
      { s with
        segmentsMap := s.segmentsMap.set phdr { entry with flags := flags, isEmitted := true }
        builder := b } := by
  have hentry : (phdr, entry) ∈ s.segmentsMap := (SegmentsMap.get_eq_some_iff h.keys).mp hget
  have hset : ∀ n e, (n, e) ∈ s.segmentsMap.set phdr { entry with flags := flags, isEmitted := true } →
      (n = phdr ∧ e = { entry with flags := flags, isEmitted := true }) ∨ (n ≠ phdr ∧ (n, e) ∈ s.segmentsMap) :=
    fun n e => (SegmentsMap.mem_set hentry).mp
  constructor
  · exact hmarked.trans h.marked
  · exact hcount.trans h.count
  · exact h.ordered
  · rw [SegmentsMap.map_fst_set]
    exact h.keys
  · intro n e hmem
    rcases hset n e hmem with ⟨rfl, rfl⟩ | ⟨-, hmem⟩
    · exact h.entry n entry hentry
    · exact h.entry n e hmem
  · intro p hp
    obtain ⟨e, he⟩ := h.cover p hp
    by_cases hn : p.name = phdr
    · exact ⟨_, (SegmentsMap.mem_set hentry).mpr (.inl ⟨hn, rfl⟩)⟩
    · exact ⟨e, (SegmentsMap.mem_set hentry).mpr (.inr ⟨hn, he⟩)⟩
  · intro n hn
    rcases List.mem_append.mp hn with hn | hn
    · exact h.known n hn
    · obtain rfl := List.mem_singleton.mp hn
      obtain ⟨⟨p, hp, hname, -⟩, -⟩ := h.entry n entry hentry
      exact ⟨hnone, List.mem_map.mpr ⟨p, List.mem_of_getElem? hp, hname⟩⟩
  · intro n e hmem hemitted
    rcases hset n e hmem with ⟨rfl, -⟩ | ⟨-, hmem⟩
    · simp
    · exact List.mem_append_left _ (h.emitted n e hmem hemitted)
  · intro hnodup n e hmem hused
    rcases hset n e hmem with ⟨-, rfl⟩ | ⟨hne, hmem⟩
    · rfl
    · rcases List.mem_append.mp hused with hused | hused
      · exact h.marks hnodup n e hmem hused
      · exact absurd (List.mem_singleton.mp hused) hne

theorem assignPhdrs (h : SegmentsRead headers used ordered s) (o : OutputSections) (id : OutputSectionId)
    (phdrs : List Bytes) (hs : phdrs.foldlM (assignPhdr o id) s = .ok s') :
    SegmentsRead headers (used ++ phdrs.filter (· ≠ nonePhdr)) ordered s' := by
  induction phdrs generalizing s used with
  | nil =>
    obtain rfl := Except.ok.inj hs
    simpa using h
  | cons phdr phdrs ih =>
    rw [List.foldlM_cons] at hs
    simp only [bind, Except.bind] at hs
    split at hs
    · cases hs
    rename_i s₁ hstep
    unfold assignPhdr at hstep
    split at hstep
    · rename_i hnone
      obtain rfl := Except.ok.inj hstep
      rw [List.filter_cons_of_neg (by simpa using hnone)]
      exact ih h hs
    · rename_i hnone
      rw [List.filter_cons_of_pos (by simpa using hnone), List.append_cons]
      split at hstep
      · cases hstep
      rename_i entry hget
      split at hstep
      · obtain rfl := Except.ok.inj hstep
        exact ih (h.setEmitted hget hnone entry.flags s.builder rfl rfl) hs
      · obtain rfl := Except.ok.inj hstep
        exact ih (h.setEmitted hget hnone _ (s.builder.addSegmentFlags entry.id _) rfl (List.length_modify ..)) hs

theorem orderSections (h : SegmentsRead headers used ordered s) (o : OutputSections) (ids : List OutputSectionId)
    (hs : ids.foldlM (orderSection o) s = .ok s') :
    SegmentsRead headers (used ++ ids.flatMap o.usedPhdrs) (ordered ++ ids) s' := by
  refine Traverse.foldlM_ok_induct (I := fun ids s => SegmentsRead headers (used ++ ids.flatMap o.usedPhdrs)
    (ordered ++ ids) s) [] (fun done id s s' _ h hstep => ?_) (by simpa using h) hs
  obtain ⟨s₂, hphdrs, hstep⟩ := Traverse.bind_eq_ok.mp hstep
  obtain rfl := Except.ok.inj hstep
  have hassigned := h.assignPhdrs o id _ hphdrs
  rw [List.flatMap_append, List.flatMap_singleton, ← List.append_assoc, ← List.append_assoc]
  exact { hassigned with ordered := by rw [hassigned.ordered] }

theorem readScripts (h : SegmentsRead headers used ordered s) (o : OutputSections)
    (scripts : List ProcessedLinkerScript) (hs : scripts.foldlM (readScript o) s = .ok s') :
    SegmentsRead (headers ++ scripts.flatMap (·.programHeaders))
      (used ++ (scripts.flatMap (·.orderedSections)).flatMap o.usedPhdrs)
      (ordered ++ scripts.flatMap (·.orderedSections)) s' := by
  induction scripts generalizing s headers used ordered with
  | nil =>
    obtain rfl := Except.ok.inj hs
    simpa using h
  | cons script scripts ih =>
    obtain ⟨s₁, hstep, hs⟩ := Traverse.bind_eq_ok.mp hs
    obtain ⟨s₂, hphdrs, hstep⟩ := Traverse.bind_eq_ok.mp hstep
    have hheaders : SegmentsRead (headers ++ script.programHeaders) used ordered s₂ :=
      Traverse.foldlM_ok_induct (I := fun headers s => SegmentsRead headers used ordered s) headers
        (fun _ _ _ _ _ h hphdr => h.addPhdr hphdr) h hphdrs
    have hrest := ih (hheaders.orderSections o script.orderedSections hstep) hs
    simpa only [List.flatMap_cons, List.flatMap_append, List.append_assoc] using hrest

end SegmentsRead

/-! ## Finding the spans -/

/-- The segments that may take orphans. -/
def SpanState.Chosen (spans : SpanState) (i : ProgramSegmentId) : Prop :=
  spans.firstLoad = some i ∨ ∃ e, e.id = i ∧
    (spans.firstExec = some e ∨ spans.firstRw = some e ∨ spans.firstRo = some e)

theorem SpanState.chosen_of_orphanSegment {spans : SpanState} {i : ProgramSegmentId} {first : Option SegmentEntry}
    (hfirst : first = spans.firstExec ∨ first = spans.firstRw ∨ first = spans.firstRo)
    (h : orphanSegment first spans.firstLoad = some i) : spans.Chosen i := by
  unfold orphanSegment at h
  split at h
  · rename_i e
    refine .inr ⟨e, Option.some.inj h, ?_⟩
    rcases hfirst with hf | hf | hf
    · exact .inl hf.symm
    · exact .inr (.inl hf.symm)
    · exact .inr (.inr hf.symm)
  · exact .inl h

/-- A name of `phdrs` stands for the segment `s`. -/
def Names (m : SegmentsMap) (phdrs : List Bytes) (s : ProgramSegmentId) : Prop :=
  ∃ n ∈ phdrs, ∃ e, (n, e) ∈ m ∧ e.id = s

/-- The spans found up to some position. -/
structure SpansFound (m : SegmentsMap) (count : Nat) (uses : Nat → Nat → Prop) (spans : SpanState) : Prop where
  marked : Spans.Marked count uses spans.marks
  chosen : ∀ i, spans.Chosen i →
    (∃ n e, (n, e) ∈ m ∧ e.id = i ∧ e.ptype = ptLoad) ∧ spans.ends.getD i none ≠ none

section FindSpans

variable {m : SegmentsMap} {count : Nat} {uses : Nat → Nat → Prop} {spans : SpanState}

theorem chooseLoad_marks (spans : SpanState) (entry : SegmentEntry) :
    (chooseLoad spans entry).marks = spans.marks := by
  unfold chooseLoad
  split_ifs <;> rfl

theorem chooseLoad_chosen {entry : SegmentEntry} {i : ProgramSegmentId} (h : (chooseLoad spans entry).Chosen i) :
    spans.Chosen i ∨ i = entry.id := by
  unfold chooseLoad at h
  split_ifs at h
  all_goals
    rcases h with h | ⟨e, rfl, h | h | h⟩
    all_goals first
      | exact .inl (.inl h)
      | exact .inr (Option.some.inj h ▸ rfl)
      | exact .inl (.inr ⟨e, rfl, .inl h⟩)
      | exact .inl (.inr ⟨e, rfl, .inr (.inl h)⟩)
      | exact .inl (.inr ⟨e, rfl, .inr (.inr h)⟩)

theorem SpansFound.visitPhdr (h : SpansFound m count uses spans) (hkeys : (m.map (·.1)).Nodup)
    (hids : ∀ n e, (n, e) ∈ m → e.id < count) {pos : Nat} (hlast : ∀ r s, uses r s → r ≤ pos) (phdr : Bytes) :
    SpansFound m count (fun r s => uses r s ∨ (r = pos ∧ Names m [phdr] s)) (visitPhdr m pos spans phdr) := by
  unfold Reld.visitPhdr
  cases hget : m.get phdr with
  | none =>
    have hunnamed : ∀ s, ¬ Names m [phdr] s := by
      rintro s ⟨n, hn, e, he, -⟩
      obtain rfl := List.mem_singleton.mp hn
      rw [(SegmentsMap.get_eq_some_iff hkeys).mpr he] at hget
      cases hget
    exact ⟨h.marked.congr (fun r s => ⟨.inl, fun hu => hu.elim id (fun hc => absurd hc.2 (hunnamed s))⟩), h.chosen⟩
  | some entry =>
    have hentry := (SegmentsMap.get_eq_some_iff hkeys).mp hget
    have hnamed : ∀ s, Names m [phdr] s ↔ s = entry.id := by
      intro s
      constructor
      · rintro ⟨n, hn, e, he, rfl⟩
        obtain rfl := List.mem_singleton.mp hn
        rw [(SegmentsMap.get_eq_some_iff hkeys).mpr he] at hget
        rw [Option.some.inj hget]
      · rintro rfl
        exact ⟨phdr, List.mem_singleton_self _, entry, hentry, rfl⟩
    have hmark : Spans.Marked count _ (spans.marks.mark pos entry.id) := h.marked.mark (hids phdr entry hentry) hlast
    let marked : SpanState :=
      { spans with
        firstLoad := if entry.ptype = ptLoad ∧ spans.firstLoad = none then some entry.id else spans.firstLoad
        starts := if spans.ends.getD entry.id none = none then spans.starts.set entry.id (some pos) else spans.starts
        ends := spans.ends.set entry.id (some pos) }
    have hends : ∀ i, marked.ends.getD i none = if i = entry.id then some pos else spans.ends.getD i none :=
      fun i => Spans.getD_set_none _ _ _ _ (h.marked.length_ends ▸ hids phdr entry hentry)
    have hself : marked.ends.getD entry.id none ≠ none := by
      rw [hends, if_pos rfl]
      exact Option.some_ne_none pos
    -- The segments chosen before are still in use; the only new one is that of the name.
    have hold : ∀ i, spans.Chosen i →
        (∃ n e, (n, e) ∈ m ∧ e.id = i ∧ e.ptype = ptLoad) ∧ marked.ends.getD i none ≠ none := by
      intro i hi
      refine ⟨(h.chosen i hi).1, ?_⟩
      rw [hends]
      split
      · exact Option.some_ne_none pos
      · exact (h.chosen i hi).2
    have hchosen : ∀ i, marked.Chosen i → spans.Chosen i ∨ (i = entry.id ∧ entry.ptype = ptLoad) := by
      rintro i (hi | hi)
      · by_cases hload : entry.ptype = ptLoad ∧ spans.firstLoad = none
        · have hi : (if entry.ptype = ptLoad ∧ spans.firstLoad = none then some entry.id
              else spans.firstLoad) = some i := hi
          rw [if_pos hload] at hi
          exact .inr ⟨(Option.some.inj hi).symm, hload.1⟩
        · have hi : (if entry.ptype = ptLoad ∧ spans.firstLoad = none then some entry.id
              else spans.firstLoad) = some i := hi
          rw [if_neg hload] at hi
          exact .inl (.inl hi)
      · exact .inl (.inr hi)
    have huses : ∀ r s, (uses r s ∨ (r = pos ∧ s = entry.id)) ↔ (uses r s ∨ (r = pos ∧ Names m [phdr] s)) :=
      fun r s => by rw [hnamed s]
    have hdone : ∀ i, (spans.Chosen i ∨ (i = entry.id ∧ entry.ptype = ptLoad)) →
        (∃ n e, (n, e) ∈ m ∧ e.id = i ∧ e.ptype = ptLoad) ∧ marked.ends.getD i none ≠ none := by
      rintro i (hi | ⟨rfl, hload⟩)
      · exact hold i hi
      · exact ⟨⟨phdr, entry, hentry, rfl, hload⟩, hself⟩
    show SpansFound m count _ (if entry.ptype = ptLoad then chooseLoad marked entry else marked)
    split
    · rename_i hload
      refine ⟨?_, fun i hi => ?_⟩
      · rw [chooseLoad_marks]
        exact hmark.congr huses
      · have hends' : (chooseLoad marked entry).ends = marked.ends :=
          congrArg Spans.Marks.ends (chooseLoad_marks marked entry)
        rw [hends']
        exact hdone i ((chooseLoad_chosen hi).elim (hchosen i) (fun he => .inr ⟨he, hload⟩))
    · exact ⟨hmark.congr huses, fun i hi => hdone i (hchosen i hi)⟩

/-- The loop over the program headers of one section. -/
theorem SpansFound.visitPhdrs (h : SpansFound m count uses spans) (hkeys : (m.map (·.1)).Nodup)
    (hids : ∀ n e, (n, e) ∈ m → e.id < count) {pos : Nat} (hlast : ∀ r s, uses r s → r ≤ pos)
    (phdrs : List Bytes) :
    SpansFound m count (fun r s => uses r s ∨ (r = pos ∧ Names m phdrs s))
      (phdrs.foldl (Reld.visitPhdr m pos) spans) := by
  induction phdrs generalizing spans uses with
  | nil =>
    exact ⟨h.marked.congr (fun r s => ⟨.inl, fun hu => hu.elim id (fun hc => by
      obtain ⟨n, hn, -⟩ := hc.2
      cases hn)⟩), h.chosen⟩
  | cons phdr phdrs ih =>
    have hstep := h.visitPhdr hkeys hids hlast phdr
    have hrest := ih hstep (fun r s hu => hu.elim (hlast r s) (fun hc => hc.1.le))
    refine ⟨hrest.marked.congr (fun r s => ?_), hrest.chosen⟩
    simp only [Names, List.mem_cons, List.not_mem_nil, or_false]
    constructor
    · rintro ((hu | ⟨hr, n, rfl, e, he⟩) | ⟨hr, n, hn, e, he⟩)
      · exact .inl hu
      · exact .inr ⟨hr, n, .inl rfl, e, he⟩
      · exact .inr ⟨hr, n, .inr hn, e, he⟩
    · rintro (hu | ⟨hr, n, rfl | hn, e, he⟩)
      · exact .inl (.inl hu)
      · exact .inl (.inr ⟨hr, n, rfl, e, he⟩)
      · exact .inr ⟨hr, n, hn, e, he⟩

/-- A position uses a segment through the names of its section. -/
def Uses (o : OutputSections) (m : SegmentsMap) (ordered : List OutputSectionId) (pos : Nat) (s : ProgramSegmentId) :
    Prop :=
  ∃ id, ordered[pos]? = some id ∧ Names m (o.info id).phdrs s

/-- The loop over the ordered sections. -/
theorem findSpans_found (hkeys : (m.map (·.1)).Nodup) (hids : ∀ n e, (n, e) ∈ m → e.id < count)
    (o : OutputSections) (ordered : List OutputSectionId) :
    SpansFound m count (Uses o m ordered) (findSpans o m count ordered) := by
  have hstart : SpansFound m count (fun _ _ => False)
      { starts := List.replicate count none, ends := List.replicate count none } := by
    refine ⟨Spans.Marked.empty count, ?_⟩
    rintro i (hi | ⟨e, -, hi | hi | hi⟩) <;> cases hi
  have hloop : ∀ (rest before : List OutputSectionId) (spans : SpanState) (uses : Nat → Nat → Prop),
      SpansFound m count uses spans → (∀ r s, uses r s ↔ Uses o m before r s) →
      SpansFound m count (Uses o m (before ++ rest))
        ((rest.zipIdx before.length).foldl
          (fun s p => (o.info p.1).phdrs.foldl (Reld.visitPhdr m p.2) s) spans) := by
    intro rest
    induction rest with
    | nil =>
      intro before spans uses h hu
      rw [List.append_nil]
      exact ⟨h.marked.congr hu, h.chosen⟩
    | cons id rest ih =>
      intro before spans uses h hu
      have hlast : ∀ r s, uses r s → r ≤ before.length := by
        intro r s hr
        obtain ⟨id, hid, -⟩ := (hu r s).mp hr
        exact Nat.le_of_lt (List.getElem?_eq_some_iff.mp hid).1
      have hstep := h.visitPhdrs hkeys hids hlast (o.info id).phdrs
      rw [List.zipIdx_cons, List.foldl_cons, List.append_cons,
        show before.length + 1 = (before ++ [id]).length by simp]
      refine ih _ _ _ hstep (fun r s => ?_)
      rw [hu r s]
      constructor
      · rintro (⟨id', hid, hn⟩ | ⟨rfl, hn⟩)
        · exact ⟨id', by rwa [List.getElem?_append_left (List.getElem?_eq_some_iff.mp hid).1], hn⟩
        · exact ⟨id, by simp, hn⟩
      · rintro ⟨id', hid, hn⟩
        rcases Nat.lt_or_ge r before.length with hr | hr
        · rw [List.getElem?_append_left hr] at hid
          exact .inl ⟨id', hid, hn⟩
        · have hlt := (List.getElem?_eq_some_iff.mp hid).1
          rw [List.length_append, List.length_singleton] at hlt
          obtain rfl : r = before.length := by omega
          rw [List.getElem?_append_right (Nat.le_refl _), Nat.sub_self] at hid
          obtain rfl : id = id' := Option.some.inj hid
          exact .inr ⟨rfl, hn⟩
  have h := hloop ordered [] _ _ hstart (fun r s => by simp [Uses])
  exact h

end FindSpans

end Reld
