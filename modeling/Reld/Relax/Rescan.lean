import Reld.Relax.Sites
import Reld.Relax.Passes

/-!
# `Relax.Rescan` — the sections that a pass leaves out

A pass scans only sections that the pass before has scanned and whose closest candidate is within the bytes that it
has deleted; a section that is left out once is never looked at again. But the deletions of several passes add up, and
padding has no margin at all. Here the run is compared with the one in which every pass scans all sections. The two end
alike exactly if no pass leaves out a section in which something is in reach (`rescan_lossless_iff`).
-/

namespace Reld

namespace RelaxLink

variable (link : RelaxLink)

/-! ## The run without the filter -/

/-- At most `n` more passes after `k` of them, each of which scans every loaded executable section. -/
def iterateAll : Nat → Nat → RelaxState → Option RelaxState
  | 0, _, st => some st
  | n + 1, k, st =>
    if link.totalDeleted st none = 0 then some (link.afterScan st none)
    else
      match link.layout (k + 1) (link.capacities (link.afterScan st none).size) with
      | none => none
      | some address => iterateAll n (k + 1) (link.afterPass st none address)

def performFullRelaxation : Option RelaxState :=
  link.initialState.bind (link.iterateAll maxRelaxationIterations 0)

/-! ## What is left out -/

/-- Nothing can be deleted in section `i`: its padding is no longer than it has to be, its calls are out of the
    range of a `jal`, and its `lui`s are neither superfluous nor fit a `c.lui`. -/
def OutOfReach (st : RelaxState) (i : Nat) : Prop :=
  ∀ s, link.sections[i]? = some s → link.sectionAddress st i ≠ 0 →
    ∀ front rel back, s.relocations = front ++ rel :: back →
      siteAt (link.sectionAddress st i) s.bytes (st.deltas i) (link.resolve st i) front.getLast? 0 rel = none

/-- No pass leaves out a section in which something is in reach. -/
def LosesNothing : Nat → Nat → Option (List Nat) → RelaxState → Prop
  | 0, _, _, _ => True
  | n + 1, k, rescan, st =>
    (∀ i ∈ link.sectionsToScan none, i ∉ link.sectionsToScan rescan → link.OutOfReach st i) ∧
      (rescan ≠ some [] → link.totalDeleted st rescan ≠ 0 →
        ∀ address, link.layout (k + 1) (link.capacities (link.afterScan st rescan).size) = some address →
          LosesNothing n (k + 1) (some (link.rescanSections st rescan (link.totalDeleted st rescan)))
            (link.afterPass st rescan address))

variable {link} {st : RelaxState} {rescan : Option (List Nat)} {i : Nat}

theorem scanSites_eq_nil_iff {sectionAddress : Nat} {bytes : Bytes} {existing : SectionRelaxDeltas}
    {resolve : Nat → Option RelaxSymbolInfo} {rels : List Relocation} {prev : Option Relocation} :
    scanSites sectionAddress bytes existing resolve prev 0 rels = [] ↔
      ∀ front rel back, rels = front ++ rel :: back →
        siteAt sectionAddress bytes existing resolve (front.getLast?.or prev) 0 rel = none := by
  induction rels generalizing prev with
  | nil =>
    refine iff_of_true rfl fun front rel back h => ?_
    simp at h
  | cons r rels ih =>
    have hlast : ∀ front : List Relocation, (r :: front).getLast?.or prev = front.getLast?.or (some r) := by
      intro front
      rw [List.getLast?_cons]
      cases front.getLast? <;> rfl
    rw [scanSites_cons, List.append_eq_nil_iff, Option.toList_eq_nil_iff]
    constructor
    · rintro ⟨hfirst, hrest⟩ front rel back h
      rw [hfirst] at hrest
      cases front with
      | nil =>
        obtain ⟨rfl, -⟩ := List.cons.inj h
        exact hfirst
      | cons x front =>
        obtain ⟨rfl, htail⟩ := List.cons.inj h
        rw [hlast]
        exact ih.mp hrest front rel back htail
    · intro h
      have hfirst : siteAt sectionAddress bytes existing resolve prev 0 r = none := h [] r rels rfl
      refine ⟨hfirst, ?_⟩
      rw [hfirst]
      refine ih.mpr fun front rel back heq => ?_
      rw [← hlast]
      exact h (r :: front) rel back (by rw [heq, List.cons_append])

theorem taken_of_notMem (h : i ∉ link.sectionsToScan rescan) : link.taken st rescan i = [] := by
  unfold taken scanSection
  cases link.sections[i]? with
  | none => rfl
  | some s => exact congrArg Prod.fst (if_neg fun h' => h h'.1)

/-- A pass that scans a section finds nothing exactly if nothing is in reach. -/
theorem taken_none_eq_nil_iff (hi : i ∈ link.sectionsToScan none) :
    link.taken st none i = [] ↔ link.OutOfReach st i := by
  unfold taken scanSection OutOfReach
  cases hs : link.sections[i]? with
  | none => exact iff_of_true rfl fun s h => by cases h
  | some s =>
    by_cases h0 : link.sectionAddress st i = 0
    · refine iff_of_true (congrArg Prod.fst (if_neg fun h => h.2 h0)) fun _ _ h => absurd h0 h
    · simp only [Option.some.injEq, forall_eq']
      rw [if_pos ⟨hi, h0⟩, collectRelaxationDeltas_eq, List.map_eq_nil_iff, scanSites_eq_nil_iff, forall_prop_of_true h0]
      simp

/-- Where a section is scanned, it does not matter what else is. -/
theorem taken_of_mem (hi : i ∈ link.sectionsToScan rescan) (hall : i ∈ link.sectionsToScan none) :
    link.taken st rescan i = link.taken st none i := by
  unfold taken scanSection
  simp only [hi, hall]

theorem rescanSections_subset {deleted : Nat} (hsub : ∀ i ∈ link.sectionsToScan rescan, i ∈ link.sectionsToScan none) :
    ∀ i ∈ link.sectionsToScan (some (link.rescanSections st rescan deleted)), i ∈ link.sectionsToScan none :=
  fun i hi => hsub i (List.mem_filter.mp hi).1

/-- A pass that leaves out nothing in reach is the pass over all sections. -/
theorem afterScan_of_outOfReach (hsub : ∀ i ∈ link.sectionsToScan rescan, i ∈ link.sectionsToScan none)
    (h : ∀ i ∈ link.sectionsToScan none, i ∉ link.sectionsToScan rescan → link.OutOfReach st i) :
    link.afterScan st rescan = link.afterScan st none := by
  have htaken : ∀ i, link.taken st rescan i = link.taken st none i := by
    intro i
    by_cases hi : i ∈ link.sectionsToScan rescan
    · exact taken_of_mem hi (hsub i hi)
    · rw [taken_of_notMem hi]
      by_cases hall : i ∈ link.sectionsToScan none
      · exact ((taken_none_eq_nil_iff hall).mpr (h i hall hi)).symm
      · exact (taken_of_notMem hall).symm
  unfold afterScan
  simp only [htaken]

/-! ## Deltas of a run -/

theorem length_mergeAdditional (d : SectionRelaxDeltas) (additional : List (Nat × Nat)) :
    (d.mergeAdditional additional).length = d.length + additional.length := by
  have h := (SectionRelaxDeltas.raw_mergeAdditional d additional).length_eq
  rwa [List.length_append, SectionRelaxDeltas.raw, SectionRelaxDeltas.raw, List.length_map, List.length_map] at h

/-- A section that is left out keeps its deltas to the end. -/
theorem frozen : ∀ (n k : Nat) (rescan : Option (List Nat)) (st fin : RelaxState), i ∉ link.sectionsToScan rescan →
    link.iterate n k rescan st = some fin → fin.deltas i = st.deltas i
  | 0, _, _, st, fin, _, h => by
    cases h
    rfl
  | n + 1, k, rescan, st, fin, hi, h => by
    have hscan : (link.afterScan st rescan).deltas i = st.deltas i := by
      show (st.deltas i).mergeAdditional ((link.taken st rescan i).map Decision.raw) = _
      rw [taken_of_notMem hi]
      rfl
    unfold iterate at h
    split at h
    · cases h
      rfl
    · simp only at h
      split at h
      · cases h
        exact hscan
      · split at h
        · cases h
        · exact (frozen n (k + 1) _ _ fin (fun h' => hi (List.mem_filter.mp h').1) h).trans hscan

/-- Deltas only grow. -/
theorem grows : ∀ (n k : Nat) (st full : RelaxState), link.iterateAll n k st = some full →
    (st.deltas i).length ≤ (full.deltas i).length
  | 0, _, st, full, h => by
    cases h
    exact Nat.le_refl _
  | n + 1, k, st, full, h => by
    have hscan : (st.deltas i).length ≤ ((link.afterScan st none).deltas i).length := by
      show _ ≤ ((st.deltas i).mergeAdditional ((link.taken st none i).map Decision.raw)).length
      rw [length_mergeAdditional]
      exact Nat.le_add_right _ _
    unfold iterateAll at h
    split at h
    · cases h
      exact hscan
    · split at h
      · cases h
      · have hrest := grows n (k + 1) _ full h
        exact Nat.le_trans hscan hrest

/-! ## The two runs -/

/-- Nothing is lost on the way to a run that ends with the deltas of the full one. -/
theorem losesNothing_of_deltas_eq : ∀ (n k : Nat) (rescan : Option (List Nat)) (st fin full : RelaxState),
    (∀ i ∈ link.sectionsToScan rescan, i ∈ link.sectionsToScan none) → link.iterate n k rescan st = some fin →
      link.iterateAll n k st = some full → full.deltas = fin.deltas → link.LosesNothing n k rescan st
  | 0, _, _, _, _, _, _, _, _, _ => trivial
  | n + 1, k, rescan, st, fin, full, hsub, h, hfull, heq => by
    have hreach : ∀ i ∈ link.sectionsToScan none, i ∉ link.sectionsToScan rescan → link.OutOfReach st i := by
      intro i hall hi
      rw [← taken_none_eq_nil_iff hall]
      by_contra htaken
      -- the full run deletes more in the section, the other one nothing any more
      have hfrozen := frozen (n + 1) k rescan st fin hi h
      have hmore : (st.deltas i).length < ((link.afterScan st none).deltas i).length := by
        show _ < ((st.deltas i).mergeAdditional ((link.taken st none i).map Decision.raw)).length
        rw [length_mergeAdditional, List.length_map]
        exact Nat.lt_add_of_pos_right (List.length_pos_iff.mpr htaken)
      have hless : ((link.afterScan st none).deltas i).length ≤ (full.deltas i).length := by
        unfold iterateAll at hfull
        split at hfull
        · cases hfull
          exact Nat.le_refl _
        · split at hfull
          · cases hfull
          · have hrest := grows (i := i) n (k + 1) _ full hfull
            exact hrest
      rw [heq, hfrozen] at hless
      omega
    refine ⟨hreach, fun hne hdel address hl => ?_⟩
    -- both runs are in the same state, and go on with the same addresses
    have hscan := afterScan_of_outOfReach hsub hreach
    have htotal : link.totalDeleted st none = link.totalDeleted st rescan := by
      unfold totalDeleted
      rw [hscan]
    unfold iterate at h
    rw [if_neg hne] at h
    rw [if_neg hdel, hl] at h
    unfold iterateAll at hfull
    rw [htotal, if_neg hdel, ← hscan, hl] at hfull
    refine losesNothing_of_deltas_eq n (k + 1) _ _ fin full (rescanSections_subset hsub) h ?_ heq
    show link.iterateAll n (k + 1) { link.afterScan st rescan with address := address } = some full
    rw [hscan]
    exact hfull

/-- A run that loses nothing is the full one. -/
theorem iterateAll_of_losesNothing : ∀ (n k : Nat) (rescan : Option (List Nat)) (st fin : RelaxState),
    (∀ i ∈ link.sectionsToScan rescan, i ∈ link.sectionsToScan none) → link.iterate n k rescan st = some fin →
      link.LosesNothing n k rescan st → link.iterateAll n k st = some fin
  | 0, _, _, _, _, _, h, _ => h
  | n + 1, k, rescan, st, fin, hsub, h, ⟨hreach, hrest⟩ => by
    have hscan := afterScan_of_outOfReach hsub hreach
    have htotal : link.totalDeleted st none = link.totalDeleted st rescan := by
      unfold totalDeleted
      rw [hscan]
    unfold iterateAll
    rw [htotal, ← hscan]
    unfold iterate at h
    by_cases hne : rescan = some []
    · -- the run ends here, and the pass of the full one deletes nothing
      rw [if_pos hne] at h
      have hnone : ∀ i, link.taken st rescan i = [] := fun i => taken_of_notMem (by
        rw [hne]
        exact List.not_mem_nil)
      have hsame : link.afterScan st rescan = st := by
        unfold afterScan
        simp only [hnone, List.map_nil, List.sum_nil, Nat.sub_zero, List.append_nil]
        rfl
      have hzero : link.totalDeleted st rescan = 0 := by
        unfold totalDeleted
        simp [hsame]
      rw [if_pos hzero, hsame]
      exact h
    · rw [if_neg hne] at h
      by_cases hdel : link.totalDeleted st rescan = 0
      · -- a pass that deletes nothing ends both runs
        rw [if_pos hdel] at h ⊢
        exact h
      · rw [if_neg hdel] at h ⊢
        cases hl : link.layout (k + 1) (link.capacities (link.afterScan st rescan).size) with
        | none =>
          rw [hl] at h
          cases h
        | some address =>
          rw [hl] at h
          show link.iterateAll n (k + 1) { link.afterScan st none with address := address } = some fin
          rw [← hscan]
          exact iterateAll_of_losesNothing n (k + 1) _ _ fin (rescanSections_subset hsub) h (hrest hne hdel address hl)

variable (link) in
/-- **When the filter makes no difference.** Exactly if no pass leaves out a section in which something is in reach. -/
theorem rescan_lossless_iff (fin : RelaxState) (h : link.performIterativeRelaxation = some fin) :
    (∃ full, link.performFullRelaxation = some full ∧ full.deltas = fin.deltas ∧
        link.capacities full.size = link.capacities fin.size) ↔
      ∀ st, link.initialState = some st → link.LosesNothing maxRelaxationIterations 0 none st := by
  obtain ⟨st, hst, hit⟩ := Option.bind_eq_some_iff.mp h
  have hrun : link.performFullRelaxation = link.iterateAll maxRelaxationIterations 0 st := by
    unfold performFullRelaxation
    rw [hst]
    rfl
  rw [hrun]
  constructor
  · rintro ⟨full, hfull, heq, -⟩ st' hst'
    rw [hst] at hst'
    cases hst'
    -- the first pass scans all sections in both runs
    exact losesNothing_of_deltas_eq _ _ _ _ fin full (fun _ hi => hi) hit hfull heq
  · intro hloses
    exact ⟨fin, iterateAll_of_losesNothing _ _ _ _ fin (fun _ hi => hi) hit (hloses st hst), rfl, rfl⟩

/-! ## Deletions that add up -/

/-- Two calls to the symbol `s`. -/
def twoCalls (s : Nat) : RelaxSection :=
  { size := 16, loaded := true, executable := true
    bytes := [0x97, 0x00, 0x00, 0x00, 0xe7, 0x80, 0x00, 0x00, 0x97, 0x00, 0x00, 0x00, 0xe7, 0x80, 0x00, 0x00]
    relocations := [
      { offset := 0, rType := .callPlt, symbol := some s, addend := 0 },
      { offset := 0, rType := .relax, symbol := none, addend := 0 },
      { offset := 8, rType := .callPlt, symbol := some s, addend := 0 },
      { offset := 8, rType := .relax, symbol := none, addend := 0 }]
    packed := false, alignment := 2 }

/-- Three sections, one behind the other. The first pass deletes 12 bytes in the first and the second section and the
    second pass 4 more. The first call of the third section is in range when 13 bytes are gone. -/
def callsLink : RelaxLink :=
  { sections := [twoCalls 0, twoCalls 1, twoCalls 2]
    definition := fun _ s => s
    symbolPlace := fun s => .absolute (if s = 0 then 0x200000 else if s = 1 then 0x100012 else 0x100014)
    isInterposable := fun _ => false
    layout := fun _ capacities => some (fun i => 0x200000 + ((List.range i).map capacities).sum) }

theorem callsLink_relaxed : ∃ fin, callsLink.performIterativeRelaxation = some fin ∧ (fin.deltas 2).raw = [] :=
  ⟨_, rfl, by decide⟩

theorem rescan_lossless_iff_callsLink :
    ∃ st, callsLink.initialState = some st ∧ ¬ callsLink.LosesNothing maxRelaxationIterations 0 none st := by
  obtain ⟨fin, hfin, hraw⟩ := callsLink_relaxed
  refine ⟨_, rfl, fun h => ?_⟩
  obtain ⟨full, hfull, heq, -⟩ := (rescan_lossless_iff callsLink fin hfin).mpr (by
    rintro st hst
    cases hst
    exact h)
  cases hfull
  rw [← heq] at hraw
  exact absurd hraw (by decide)

/-- The call in the third section is never shortened, though it could be after the second pass. -/
theorem left_out_call_lost : ∃ fin full, callsLink.performIterativeRelaxation = some fin ∧
    callsLink.performFullRelaxation = some full ∧ (fin.deltas 2).raw = [] ∧ (full.deltas 2).raw = [(4, 4)] :=
  ⟨_, _, rfl, rfl, by decide, by decide⟩

end RelaxLink

end Reld
