import Reld.Link.FirstPass

/-!
# `Alternatives.NonDynamic` — shared objects against everything else

A definition outside of shared objects should be preferred to one in a shared object, however weak it is.
`select_symbol` does so for the symbols of regular objects and plugin inputs. A symbol that a linker script,
`--defsym` or the linker itself defines has no strength, so a loaded shared object takes its place
(`selected_not_dynamic_iff`).
-/

namespace Reld

/-- Whether a symbol counts as a definition outside of shared objects: it is one of a loaded regular object
    or of a loaded plugin input that is still in use. -/
def inLoadedObject (db : SymbolDb) (r : Resolver) (id : SymbolId) : Bool :=
  match db.locate id with
  | some ((fileId, .object o), _) => !o.isDynamic && isLoaded db r fileId
  | some ((fileId, .ltoInput o), _) => o.enabled && isLoaded db r fileId
  | _ => false

/-- Whether a symbol is one of a loaded shared object or of a stub library. -/
def inLoadedLibrary (db : SymbolDb) (r : Resolver) (id : SymbolId) : Bool :=
  match db.locate id with
  | some ((fileId, f), _) => f.isDynamic && isLoaded db r fileId
  | none => false

variable {db : SymbolDb} {id : SymbolId} {r : Resolver}

/-- **What counts in the selection**: a named symbol has a strength exactly if it is one of a loaded regular
    object, plugin input or library. -/
theorem strength_of_named {key : PreHashedSymbolName} (h : db.Defines key id) :
    symbolStrength db r id ≠ .undefined ↔ inLoadedObject db r id = true ∨ inLoadedLibrary db r id = true := by
  have hdefines := h.definesSymbol
  unfold SymbolDb.definesSymbol at hdefines
  unfold symbolStrength inLoadedObject inLoadedLibrary
  cases hloc : db.locate id with
  | none => simp
  | some q =>
    obtain ⟨⟨fileId, f⟩, index⟩ := q
    rw [hloc] at hdefines
    have hf := (SymbolDb.locate_eq_some_iff.mp hloc).1
    cases f with
    | object o =>
      -- a symbol of an object has the strength of its entry, if the object is loaded
      obtain ⟨s, hs⟩ : ∃ s, o.symbols[index]? = some s := by
        cases hs : o.symbols[index]? with
        | none => simp [InputFile.definesSymbol, hs] at hdefines
        | some s => exact ⟨s, rfl⟩
      have hstrength : InputFile.symbolStrength (.object o) index ≠ .undefined := by
        simp only [InputFile.symbolStrength, hs]
        exact SymbolStrength.of_ne_undefined s
      have hloaded : isLoaded db r fileId = decide (fileId ∈ r.loaded) := by
        unfold isLoaded
        rw [hf]
        by_cases hmem : fileId ∈ r.loaded
        · cases hdyn : o.isDynamic <;> simp [Resolver.resolvedFile, hmem, hdyn]
        · simp [Resolver.resolvedFile, hmem]
      by_cases hmem : fileId ∈ r.loaded
      · cases hdyn : o.isDynamic <;>
          simp [Resolver.resolvedFile, hmem, hdyn, hloaded, hstrength, InputFile.isDynamic]
      · simp [Resolver.resolvedFile, hmem, hloaded]
    | ltoInput o =>
      obtain ⟨s, hs, hdef⟩ : ∃ s, o.symbols[index]? = some s ∧ s.isDefinition = true := by
        cases hs : o.symbols[index]? with
        | none => simp [InputFile.definesSymbol, hs] at hdefines
        | some s => exact ⟨s, rfl, by simpa [InputFile.definesSymbol, hs] using hdefines⟩
      have hstrength : s.strength ≠ .undefined := by
        unfold PluginSymbol.isDefinition at hdef
        unfold PluginSymbol.strength
        cases hk : s.kind with
        | none => simp [hk] at hdef
        | some kind => cases kind <;> simp [hk] at hdef ⊢
      have hloaded : isLoaded db r fileId = decide (fileId ∈ r.loaded) := by
        unfold isLoaded
        rw [hf]
        by_cases hmem : fileId ∈ r.loaded <;> simp [Resolver.resolvedFile, hmem]
      by_cases hmem : fileId ∈ r.loaded
      · cases henabled : o.enabled <;>
          simp [Resolver.resolvedFile, hmem, hloaded, LtoInput.symbolStrength, henabled, hs, hstrength,
            InputFile.isDynamic]
      · simp [Resolver.resolvedFile, hmem, hloaded, InputFile.isDynamic]
    | stubLibrary s =>
      have hloaded : isLoaded db r fileId = true := by
        unfold isLoaded
        rw [hf]
        rfl
      simp only [Resolver.resolvedFile, InputFile.symbolStrength, InputFile.isDynamic, hloaded]
      split_ifs <;> simp
    | _ => simp [Resolver.resolvedFile, InputFile.isDynamic]

/-- Symbols of regular objects and of plugin inputs are not dynamic, those of libraries are. -/
theorem inLoadedObject_not_dynamic (h : inLoadedObject db r id = true) : db.isDynamicSymbol id = false := by
  unfold inLoadedObject at h
  unfold SymbolDb.isDynamicSymbol
  cases hloc : db.locate id with
  | none => rfl
  | some q =>
    obtain ⟨⟨fileId, f⟩, index⟩ := q
    cases f <;> simp_all [InputFile.isDynamic]

theorem inLoadedLibrary_dynamic (h : inLoadedLibrary db r id = true) : db.isDynamicSymbol id = true := by
  unfold inLoadedLibrary at h
  unfold SymbolDb.isDynamicSymbol
  cases hloc : db.locate id with
  | none => rw [hloc] at h; exact absurd h Bool.false_ne_true
  | some q =>
    rw [hloc] at h
    exact (Bool.and_eq_true_iff.mp h).1

namespace FirstPass

variable {args : Args} {outputKind : OutputKind} {versionScript : Option VersionScript}
  {loaded : LoadedInputs} (p : FirstPass args outputKind versionScript loaded)

/-- `select_symbol` selects `selected` among the definitions of a key. -/
def Selects (key : PreHashedSymbolName) (selected : SymbolId) : Prop :=
  ∃ first alternatives, p.input.definersOf key = first :: alternatives ∧
    selectSymbol p.resolved p.resolvedFlags p.resolver first alternatives = .ok selected

variable {key : PreHashedSymbolName}

/-- The ranks of the definers of a key: those of regular objects and of plugin inputs are above those of
    libraries, and everything else is below. -/
theorem rank_of_defines {id : SymbolId} (h : p.input.Defines key id) :
    (inLoadedObject p.input p.resolver id = true → toLex (1, 0) < p.rank id) ∧
      (inLoadedLibrary p.input p.resolver id = true → p.rank id = toLex (1, 0)) ∧
      (inLoadedObject p.input p.resolver id = false → inLoadedLibrary p.input p.resolver id = false →
        p.rank id = toLex (0, 0)) := by
  have hstrength := strength_of_named (r := p.resolver) h
  have hdynamic := p.resolvedFlags_dynamic h.lt_numSymbols
  rw [← p.sameFiles_resolved.symbolStrength] at hstrength
  unfold rank definitionRank
  rw [hdynamic]
  refine ⟨?_, ?_, ?_⟩
  · intro hobject
    have hne := hstrength.mpr (Or.inl hobject)
    rw [inLoadedObject_not_dynamic hobject, if_neg (by simp)]
    cases hs : symbolStrength p.resolved p.resolver id with
    | undefined => exact absurd hs hne
    | _ => simp [SymbolStrength.rank, Prod.Lex.toLex_lt_toLex]
  · intro hlibrary
    exact if_pos ⟨hstrength.mpr (Or.inr hlibrary), inLoadedLibrary_dynamic hlibrary⟩
  · intro hobject hlibrary
    have hundefined : symbolStrength p.resolved p.resolver id = .undefined := by
      by_contra hne
      rcases hstrength.mp hne with h' | h'
      · rw [hobject] at h'
        exact absurd h' Bool.false_ne_true
      · rw [hlibrary] at h'
        exact absurd h' Bool.false_ne_true
    simp [hundefined, SymbolStrength.rank]

/-- The selected definition is not dynamic exactly if a loaded regular object or plugin input defines the
    key, or no loaded library does and the first definition is not dynamic. -/
theorem selected_not_dynamic_iff {selected : SymbolId} (hselects : p.Selects key selected) :
    p.input.isDynamicSymbol selected = false ↔
      (∃ id ∈ p.input.definersOf key, inLoadedObject p.input p.resolver id = true) ∨
        ((∀ id ∈ p.input.definersOf key, inLoadedLibrary p.input p.resolver id = false) ∧
          ∀ id, (p.input.definersOf key).head? = some id → p.input.isDynamicSymbol id = false) := by
  obtain ⟨first, alternatives, hl, hselect⟩ := hselects
  have hargmax := selectSymbol_argmax hselect
  rw [hl]
  have hrank : ∀ id ∈ first :: alternatives, p.input.Defines key id := by
    intro id hid
    rw [← SymbolDb.mem_definersOf, hl]
    exact hid
  have hmem := List.argmax_mem hargmax
  have hmax : ∀ id ∈ first :: alternatives, p.rank id ≤ p.rank selected :=
    fun id hid => List.le_of_mem_argmax hid hargmax
  obtain ⟨hobject, hlibrary, hnothing⟩ := p.rank_of_defines (hrank selected hmem)
  by_cases hsome : ∃ id ∈ first :: alternatives, inLoadedObject p.input p.resolver id = true
  · -- the selected definition ranks above all libraries
    refine iff_of_true ?_ (Or.inl hsome)
    obtain ⟨id, hid, hcounts⟩ := hsome
    have hlt := lt_of_lt_of_le ((p.rank_of_defines (hrank id hid)).1 hcounts) (hmax id hid)
    cases hselected : inLoadedObject p.input p.resolver selected with
    | true => exact inLoadedObject_not_dynamic hselected
    | false =>
      exfalso
      cases hlib : inLoadedLibrary p.input p.resolver selected with
      | true =>
        rw [hlibrary hlib] at hlt
        exact lt_irrefl _ hlt
      | false =>
        rw [hnothing hselected hlib, Prod.Lex.toLex_lt_toLex] at hlt
        omega
  · have hnone : ∀ id ∈ first :: alternatives, inLoadedObject p.input p.resolver id = false := by
      intro id hid
      by_contra hnot
      exact hsome ⟨id, hid, by simpa using hnot⟩
    by_cases hlib : ∃ id ∈ first :: alternatives, inLoadedLibrary p.input p.resolver id = true
    · -- a library is selected
      obtain ⟨id, hid, hcounts⟩ := hlib
      have hle := hmax id hid
      rw [(p.rank_of_defines (hrank id hid)).2.1 hcounts] at hle
      have hselected : inLoadedLibrary p.input p.resolver selected = true := by
        by_contra hnot
        rw [hnothing (hnone selected hmem) (by simpa using hnot), Prod.Lex.toLex_le_toLex] at hle
        omega
      refine iff_of_false ?_ ?_
      · rw [inLoadedLibrary_dynamic hselected]
        simp
      · rintro (hobject' | ⟨hall, _⟩)
        · exact hsome hobject'
        · rw [hall id hid] at hcounts
          exact absurd hcounts Bool.false_ne_true
    · -- nothing counts, and the first definition is selected
      have hnolib : ∀ id ∈ first :: alternatives, inLoadedLibrary p.input p.resolver id = false := by
        intro id hid
        by_contra hnot
        exact hlib ⟨id, hid, by simpa using hnot⟩
      have hconst : ∀ id ∈ first :: alternatives, p.rank id = toLex (0, 0) :=
        fun id hid => (p.rank_of_defines (hrank id hid)).2.2 (hnone id hid) (hnolib id hid)
      rw [List.argmax_const hconst, List.head?_cons] at hargmax
      obtain rfl := Option.some.inj hargmax
      simp only [List.head?_cons, Option.some.injEq, forall_eq']
      constructor
      · intro hdyn
        exact Or.inr ⟨hnolib, hdyn⟩
      · rintro (hobject' | ⟨_, hdyn⟩)
        · exact absurd hobject' hsome
        · exact hdyn

/-- Some definition of the key is in a loaded file that is not a library. -/
def HasStaticDefinition (key : PreHashedSymbolName) : Prop :=
  ∃ id ∈ p.input.definersOf key, p.IsLoadedSymbol id ∧ p.input.isDynamicSymbol id = false

/-- **When definitions outside of shared objects are preferred**: where there is one in a loaded file, the
    selected definition is not dynamic exactly if one of them is in a regular object or a plugin input, or
    no loaded library defines the key and its first definition is not dynamic. -/
theorem static_definition_preferred_iff {key : PreHashedSymbolName} {selected : SymbolId}
    (hselects : p.Selects key selected) :
    (p.HasStaticDefinition key → p.input.isDynamicSymbol selected = false) ↔
      ¬p.HasStaticDefinition key ∨
        (∃ id ∈ p.input.definersOf key, inLoadedObject p.input p.resolver id = true) ∨
        ((∀ id ∈ p.input.definersOf key, inLoadedLibrary p.input p.resolver id = false) ∧
          ∀ id, (p.input.definersOf key).head? = some id → p.input.isDynamicSymbol id = false) := by
  rw [imp_iff_not_or, p.selected_not_dynamic_iff hselects]

end FirstPass

/-! ## A linker script and a shared object -/

/-- An object without symbols, a shared object that defines `foo`, and a script with `foo = 1;`. -/
def assignmentInputs : LoadedInputs :=
  { objects := [[{ symbols := [nullSymbol] },
      { symbols := [nullSymbol, { name := some (bytesOf "foo") }], isDynamic := true }]]
    linkerScripts := [{ symbolDefs := [{
      name := bytesOf "foo"
      placement := .redirect { expression := .number 1, loc := .anchored } }] }] }

/-- The first pass over these inputs. -/
def assignmentPass : FirstPass plainArgs (.dynamicExecutable .nonRelocatable) none assignmentInputs :=
  .inOrder (firstBatch plainArgs (.dynamicExecutable .nonRelocatable) assignmentInputs) 10 rfl
    (Or.inl (by decide)) ⟨rfl, rfl, rfl⟩ rfl

theorem assignmentPass_selects : assignmentPass.Selects (.unversioned (bytesOf "foo")) 3 :=
  ⟨3, [4], by decide, rfl⟩

theorem static_definition_preferred_iff_witness :
    (assignmentPass.HasStaticDefinition (.unversioned (bytesOf "foo")) →
        assignmentPass.input.isDynamicSymbol 3 = false) ↔
      ¬assignmentPass.HasStaticDefinition (.unversioned (bytesOf "foo")) ∨
        (∃ id ∈ assignmentPass.input.definersOf (.unversioned (bytesOf "foo")),
          inLoadedObject assignmentPass.input assignmentPass.resolver id = true) ∨
        ((∀ id ∈ assignmentPass.input.definersOf (.unversioned (bytesOf "foo")),
            inLoadedLibrary assignmentPass.input assignmentPass.resolver id = false) ∧
          ∀ id, (assignmentPass.input.definersOf (.unversioned (bytesOf "foo"))).head? = some id →
            assignmentPass.input.isDynamicSymbol id = false) :=
  assignmentPass.static_definition_preferred_iff assignmentPass_selects

/-- **A shared object takes the place of an assignment**: the script defines `foo`, and the selected
    definition is that of the library. -/
theorem assignment_not_preferred :
    ¬∀ (args : Args) (outputKind : OutputKind) (versionScript : Option VersionScript) (loaded : LoadedInputs)
      (p : FirstPass args outputKind versionScript loaded) (key : PreHashedSymbolName) (selected : SymbolId),
      p.Selects key selected → p.HasStaticDefinition key → p.input.isDynamicSymbol selected = false := by
  intro h
  have hstatic : assignmentPass.HasStaticDefinition (.unversioned (bytesOf "foo")) :=
    ⟨4, by decide, by unfold FirstPass.IsLoadedSymbol; decide, by decide⟩
  have hselected := h _ _ _ _ assignmentPass _ _ assignmentPass_selects hstatic
  exact absurd hselected (by decide)

end Reld
