import Reld.Relax.Deltas

/-!
# `Relax.Passes` — the passes of the relaxation over all sections

Relaxation works in passes. A pass takes the addresses of the current layout, scans sections, shrinks them and
records what was deleted; then the layout is computed anew. A later pass scans only the sections with a
candidate that the deletions of the pass before may have brought into reach. The passes end when one deletes
nothing, when no section is left to scan, or after five of them.

Input sections are numbered through, over the objects in order. The computation of the layout is a parameter:
it gives the section addresses for the capacities of the sections.
-/

namespace Reld

open SectionRelaxDeltas

/-! ## The link -/

/-- Where a symbol is defined. -/
inductive SymbolHome where
  /-- At an input offset of a section. -/
  | inSection (home value : Nat)
  | absolute (value : Nat)
  /-- Defined elsewhere, or not at all. -/
  | unknown
deriving DecidableEq, Repr

/-- An input section, as relaxation sees it. -/
structure RelaxSection where
  size : Nat
  /-- Whether the section is in a `SectionSlot::Loaded`. -/
  loaded : Bool
  executable : Bool
  bytes : Bytes
  relocations : List Relocation
  /-- Whether its part of the output is packed; otherwise a section takes a multiple of `alignment`. -/
  packed : Bool
  alignment : Nat

/-- What relaxation reads of the link. -/
structure RelaxLink where
  sections : List RelaxSection
  /-- The canonical definition of a symbol of the object that a section belongs to. -/
  definition : Nat → Nat → Nat
  symbolPlace : Nat → SymbolHome
  isInterposable : Nat → Bool
  /-- `compute_layout_sections` and the section addresses that follow from it, for the capacities of the
      sections. It is given how often the layout has been computed before. -/
  layout : Nat → (Nat → Nat) → Option (Nat → Nat)

/-- What the passes change. -/
structure RelaxState where
  size : Nat → Nat
  decisions : Nat → List Decision
  /-- `section_relax_deltas` of the section. -/
  deltas : Nat → SectionRelaxDeltas
  /-- The addresses of the current layout. -/
  address : Nat → Nat

/-- `Section::capacity` -/
def RelaxSection.capacity (s : RelaxSection) (size : Nat) : Nat :=
  if s.packed then size else nextMultipleOf size s.alignment

namespace RelaxLink

variable (link : RelaxLink)

/-- The capacity of each section at a size; sections that are not loaded take no space. -/
def capacities (size : Nat → Nat) (i : Nat) : Nat :=
  match link.sections[i]? with
  | some s => if s.loaded then s.capacity (size i) else 0
  | none   => 0

/-- `MAX_RELAXATION_ITERATIONS` -/
def maxRelaxationIterations : Nat := 5

/-- `SYMBOL_ADDRESS_UNRESOLVED` -/
def symbolAddressUnresolved : Nat := 2 ^ 64 - 1

/-- The address of a symbol when `position` says where the input offsets of each section are. -/
def symbolAddress (position : Nat → Nat → Nat) (id : Nat) : Option Nat :=
  match link.symbolPlace id with
  | .inSection s value => some (position s value)
  | .absolute value => some value
  | .unknown => none

/-- A section's address in `compute_section_and_symbol_addresses`: 0 unless the section is loaded. -/
def sectionAddress (st : RelaxState) (i : Nat) : Nat :=
  match link.sections[i]? with
  | some s => if s.loaded then st.address i else 0
  | none   => 0

/-- The positions that a scan works with: current section addresses with input offsets. -/
def scanPosition (st : RelaxState) (i offset : Nat) : Nat := st.address i + offset

/-- The positions in the output, if the current layout and deltas are the final ones. -/
def position (st : RelaxState) (i offset : Nat) : Nat :=
  st.address i + (st.deltas i).inputToOutputOffset offset

/-- Symbols of a section without an address have none either. -/
def hasAddress (st : RelaxState) : SymbolHome → Bool
  | .inSection i _ => link.sectionAddress st i != 0
  | _ => true

/-- `SymbolOutputInfos::resolve`, for a symbol of the object of section `i`. -/
def resolve (st : RelaxState) (i symbol : Nat) : Option RelaxSymbolInfo :=
  let id := link.definition i symbol
  if link.hasAddress st (link.symbolPlace id) then
    match link.symbolAddress (scanPosition st) id with
    | some a =>
      if a = symbolAddressUnresolved then none
      else some { outputAddress := a, isInterposable := link.isInterposable id }
    | none => none
  else none

/-! ## One pass -/

/-- The sections that a pass scans: all loaded executable ones, or those left over from the pass before. -/
def sectionsToScan (prevRescan : Option (List Nat)) : List Nat :=
  match prevRescan with
  | some rescan => rescan
  | none => (List.range link.sections.length).filter (fun i =>
    (link.sections[i]?).any (fun s => s.loaded && s.executable))

/-- What the scan of section `i` returns. Sections without an address are not scanned. -/
def scanSection (st : RelaxState) (prevRescan : Option (List Nat)) (i : Nat) : List Decision × Option Nat :=
  match link.sections[i]? with
  | some s =>
    if i ∈ link.sectionsToScan prevRescan ∧ link.sectionAddress st i ≠ 0 then
      collectRelaxationDeltas (link.sectionAddress st i) s.bytes s.relocations (st.deltas i) (link.resolve st i)
    else ([], none)
  | none => ([], none)

/-- The decisions that a pass takes in section `i`. -/
def taken (st : RelaxState) (prevRescan : Option (List Nat)) (i : Nat) : List Decision :=
  (link.scanSection st prevRescan i).1

/-- The state after the scan of a pass. The addresses are still those of the layout before it. -/
def afterScan (st : RelaxState) (prevRescan : Option (List Nat)) : RelaxState :=
  { size := fun i => st.size i - ((link.taken st prevRescan i).map (·.raw.2)).sum
    decisions := fun i => st.decisions i ++ link.taken st prevRescan i
    deltas := fun i => (st.deltas i).mergeAdditional ((link.taken st prevRescan i).map Decision.raw)
    address := st.address }

/-- The state after a pass that is followed by the layout `address`. -/
def afterPass (st : RelaxState) (prevRescan : Option (List Nat)) (address : Nat → Nat) : RelaxState :=
  { link.afterScan st prevRescan with address := address }

/-- The bytes by which a pass shrinks the capacities of the sections. -/
def totalDeleted (st : RelaxState) (prevRescan : Option (List Nat)) : Nat :=
  ((List.range link.sections.length).map (fun i =>
    link.capacities st.size i - link.capacities (link.afterScan st prevRescan).size i)).sum

/-- The sections that the next pass scans: those whose closest candidate is within `deleted` bytes. -/
def rescanSections (st : RelaxState) (prevRescan : Option (List Nat)) (deleted : Nat) : List Nat :=
  (link.sectionsToScan prevRescan).filter (fun i =>
    (link.scanSection st prevRescan i).2.any (fun margin => decide (margin ≤ deleted)))

/-! ## What a pass knows -/

variable {link} in
theorem resolve_eq {st : RelaxState} {i s : Nat} {info : RelaxSymbolInfo}
    (h : link.resolve st i s = some info) :
    link.symbolAddress (scanPosition st) (link.definition i s) = some info.outputAddress := by
  unfold resolve at h
  simp only at h
  split at h
  · split at h
    · rename_i a ha
      split at h
      · cases h
      · cases h
        exact ha
    · cases h
  · cases h

variable {link} in
theorem sectionAddress_eq {st : RelaxState} {i : Nat} (h : link.sectionAddress st i ≠ 0) :
    link.sectionAddress st i = st.address i := by
  unfold sectionAddress at h ⊢
  split at h
  · split at h
    · rename_i hl
      rw [if_pos hl]
    · exact absurd rfl h
  · exact absurd rfl h

variable {link} in
/-- A pass scans a section, or takes no decision in it. -/
theorem taken_cases {i : Nat} {s : RelaxSection} (hs : link.sections[i]? = some s) (st : RelaxState)
    (rescan : Option (List Nat)) :
    (¬ (i ∈ link.sectionsToScan rescan ∧ link.sectionAddress st i ≠ 0) ∧ link.taken st rescan i = []) ∨
      link.taken st rescan i = (collectRelaxationDeltas (st.address i) s.bytes s.relocations (st.deltas i)
        (link.resolve st i)).1 := by
  unfold taken scanSection
  rw [hs]
  simp only
  split
  · rename_i h
    exact Or.inr (by rw [sectionAddress_eq h.2])
  · rename_i h
    exact Or.inl ⟨h, rfl⟩

/-! ## All passes -/

/-- At most `n` more passes after `k` of them. -/
def iterate : Nat → Nat → Option (List Nat) → RelaxState → Option RelaxState
  | 0, _, _, st => some st
  | n + 1, k, rescan, st =>
    if rescan = some [] then some st
    else
      let deleted := link.totalDeleted st rescan
      if deleted = 0 then some (link.afterScan st rescan)
      else
        match link.layout (k + 1) (link.capacities (link.afterScan st rescan).size) with
        | none => none
        | some address =>
          iterate n (k + 1) (some (link.rescanSections st rescan deleted)) (link.afterPass st rescan address)

/-- The state before the first pass, laid out for the input sizes. -/
def initialState : Option RelaxState :=
  let size := fun i => match link.sections[i]? with
    | some s => s.size
    | none   => 0
  (link.layout 0 (link.capacities size)).map (fun address =>
    { size := size, decisions := fun _ => [], deltas := fun _ => [], address := address })

/-- `perform_iterative_relaxation`, from the first layout on. -/
def performIterativeRelaxation : Option RelaxState :=
  link.initialState.bind (link.iterate maxRelaxationIterations 0 none)

/-! ## Runs -/

/-- The addresses of a layout that the relaxation works with. -/
def IsLayout (address : Nat → Nat) : Prop := ∃ k capacities, link.layout k capacities = some address

/-- Every pass of a run meets a condition on the state before it, the sections it scans and the layout that
    follows it. -/
def EveryPass (C : RelaxState → Option (List Nat) → (Nat → Nat) → Prop) :
    Nat → Nat → Option (List Nat) → RelaxState → Prop
  | 0, _, _, _ => True
  | n + 1, k, rescan, st =>
    rescan ≠ some [] →
      if link.totalDeleted st rescan = 0 then C st rescan st.address
      else ∀ address, link.layout (k + 1) (link.capacities (link.afterScan st rescan).size) = some address →
        C st rescan address ∧
          EveryPass C n (k + 1) (some (link.rescanSections st rescan (link.totalDeleted st rescan)))
            (link.afterPass st rescan address)

variable {link}

variable {C : RelaxState → Option (List Nat) → (Nat → Nat) → Prop}

/-- **The run rule.** What every pass that meets its condition preserves holds at the end. -/
theorem iterate_invariant {P : RelaxState → Prop}
    (step : ∀ st rescan address, P st → address = st.address ∨ link.IsLayout address → C st rescan address →
      P (link.afterPass st rescan address)) :
    ∀ (n k : Nat) (rescan : Option (List Nat)) (st fin : RelaxState), P st → link.EveryPass C n k rescan st →
      link.iterate n k rescan st = some fin → P fin
  | 0, _, _, st, fin, hp, _, h => by
    cases h
    exact hp
  | n + 1, k, rescan, st, fin, hp, hrun, h => by
    unfold iterate at h
    split at h
    · cases h
      exact hp
    · rename_i hne
      have hrun := hrun hne
      simp only at h
      split at h
      · -- nothing was deleted: the layout stays
        rename_i hd
        rw [if_pos hd] at hrun
        cases h
        exact step st rescan st.address hp (Or.inl rfl) hrun
      · rename_i hd
        rw [if_neg hd] at hrun
        cases hl : link.layout (k + 1) (link.capacities (link.afterScan st rescan).size) with
        | none =>
          rw [hl] at h
          cases h
        | some address =>
          rw [hl] at h
          obtain ⟨hc, hrest⟩ := hrun address hl
          exact iterate_invariant step n (k + 1) _ _ fin (step st rescan address hp (Or.inr ⟨_, _, hl⟩) hc) hrest h

theorem everyPass_of_forall (hC : ∀ st rescan address, C st rescan address) :
    ∀ (n k : Nat) (rescan : Option (List Nat)) (st : RelaxState), link.EveryPass C n k rescan st
  | 0, _, _, _ => trivial
  | n + 1, k, rescan, st => by
    intro _
    split
    · exact hC _ _ _
    · exact fun address _ => ⟨hC _ _ _, everyPass_of_forall hC n (k + 1) _ _⟩

theorem initialState_spec {st : RelaxState} (h : link.initialState = some st) :
    st.decisions = (fun _ => []) ∧ st.deltas = (fun _ => []) ∧ link.IsLayout st.address := by
  unfold initialState at h
  obtain ⟨address, hl, rfl⟩ := Option.map_eq_some_iff.mp h
  exact ⟨rfl, rfl, _, _, hl⟩

variable (link) in
/-- Every pass of the relaxation of the link meets the condition. -/
def AllPasses (C : RelaxState → Option (List Nat) → (Nat → Nat) → Prop) : Prop :=
  ∀ st, link.initialState = some st → link.EveryPass C maxRelaxationIterations 0 none st

/-- The first pass, which scans everything, and the rest of the run. -/
theorem firstPass {fin : RelaxState} (hc : link.AllPasses C) (h : link.performIterativeRelaxation = some fin) :
    ∃ st address n k rescan, link.initialState = some st ∧
      (address = st.address ∨ link.IsLayout address) ∧ C st none address ∧
      link.EveryPass C n k rescan (link.afterPass st none address) ∧
      link.iterate n k rescan (link.afterPass st none address) = some fin := by
  obtain ⟨st, hst, hit⟩ := Option.bind_eq_some_iff.mp h
  have hrun := hc st hst (by simp)
  unfold maxRelaxationIterations at hit
  unfold iterate at hit
  rw [if_neg (by simp)] at hit
  simp only at hit
  split at hit
  · rename_i hd
    rw [if_pos hd] at hrun
    exact ⟨st, st.address, 0, 0, none, hst, Or.inl rfl, hrun, trivial, hit⟩
  · rename_i hd
    rw [if_neg hd] at hrun
    cases hl : link.layout (0 + 1) (link.capacities (link.afterScan st none).size) with
    | none =>
      rw [hl] at hit
      cases hit
    | some address =>
      rw [hl] at hit
      obtain ⟨hc', hrest⟩ := hrun address hl
      exact ⟨st, address, 4, 0 + 1, _, hst, Or.inr ⟨_, _, hl⟩, hc', hrest, hit⟩

end RelaxLink
end Reld
