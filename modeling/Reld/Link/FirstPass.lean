import Reld.Db.FirstBatch
import Reld.Resolve.Outcome

/-!
# `Link.FirstPass` — from the command line inputs to the selected definitions

A link adds its inputs, moves wrapped names, resolves symbols and selects among alternative definitions.
`FirstPass` is a run of these four phases without errors, for some order of their parallel parts. Its facts
are stated over the database right after `add_inputs`, whose files and names stay the same all along.
-/

namespace Reld

/-! ## The prelude comes first -/

/-- Symbol 0 and the other symbols of the linker are those of the only prelude, which is the first file. -/
structure SymbolDb.PreludeFirst (db : SymbolDb) (defs : List InternalSymDefInfo) : Prop where
  pos : 0 < defs.length
  file : db.file preludeFileId = some (.prelude defs)
  only : ∀ fileId defs', db.file fileId = some (.prelude defs') → fileId = preludeFileId
  locate_lt : ∀ id, id < defs.length → db.locate id = some ((preludeFileId, .prelude defs), id)

theorem preludeFirst_of_groups {db : SymbolDb} {defs : List InternalSymDefInfo} {gs : List Group}
    (h : db.groups = .prelude defs :: gs) (hgs : ∀ g ∈ gs, ∀ defs', g ≠ .prelude defs')
    (hpos : 0 < defs.length) : db.PreludeFirst defs := by
  have hfile : db.file preludeFileId = some (.prelude defs) := by
    unfold SymbolDb.file
    rw [h]
    rfl
  refine ⟨hpos, hfile, ?_, ?_⟩
  · intro fileId defs' hf
    obtain ⟨g, hg, hmem⟩ := file_group hf
    rw [h] at hg
    cases hgroup : fileId.group with
    | zero =>
      rw [hgroup] at hg
      obtain rfl := Option.some.inj hg
      have hlt : fileId.file < 1 := (List.getElem?_eq_some_iff.mp hmem).1
      obtain ⟨group, file⟩ := fileId
      obtain rfl : group = 0 := hgroup
      obtain rfl : file = 0 := Nat.lt_one_iff.mp hlt
      rfl
    | succ i =>
      rw [hgroup] at hg
      have hmem := List.mem_of_getElem? hmem
      cases g with
      | prelude defs'' => exact absurd rfl (hgs _ (List.mem_of_getElem? hg) defs'')
      | _ => exact absurd hmem (by simp [Group.files])
  · intro id hid
    unfold SymbolDb.locate SymbolDb.files
    rw [h]
    show Segments.locate symbolCount ((preludeFileId, .prelude defs) :: enumerateFiles 1 gs) id = _
    exact if_pos hid

/-- The first batch starts with the prelude, and has no other one. -/
theorem newGroups_of_empty {db : SymbolDb} (loaded : LoadedInputs) (h : db.groups = []) :
    ∃ gs, newGroups db loaded
        = .prelude (preludeDefinitions db.args
            (globUndefinedNames db.args.undefinedGlobPatterns loaded.objects.flatten)) :: gs ∧
      ∀ g ∈ gs, ∀ defs, g ≠ .prelude defs := by
  refine ⟨loaded.objects.map .objects ++
    (if loaded.linkerScripts.isEmpty then [] else [.linkerScripts loaded.linkerScripts]) ++
    (if loaded.stubLibraries.isEmpty then [] else [.stubLibraries loaded.stubLibraries]) ++
    loaded.ltoObjects.map .ltoInputs, ?_, ?_⟩
  · unfold newGroups
    rw [h]
    rfl
  · intro g hg defs
    simp only [List.mem_append, List.mem_map, List.mem_ite_nil_left, List.mem_singleton] at hg
    rcases hg with ((⟨l, _, rfl⟩ | ⟨_, rfl⟩) | ⟨_, rfl⟩) | ⟨l, _, rfl⟩
    all_goals simp

/-! ## The phases -/

/-- The first part of a link, without errors: the databases and flags after `add_inputs`, after
    `resolve_symbols_and_select_archive_entries` and after `resolve_alternative_symbol_definitions`. -/
structure FirstPass (args : Args) (outputKind : OutputKind) (versionScript : Option VersionScript)
    (loaded : LoadedInputs) where
  input : SymbolDb
  inputFlags : PerSymbolFlags
  added : addInputs (.new args outputKind versionScript) (fun _ => .empty) loaded
    = .ok (input, inputFlags)
  resolved : SymbolDb
  resolvedFlags : PerSymbolFlags
  resolver : Resolver
  resolves : ResolvesTo input.applyWrappedSymbolOverrides inputFlags .new
    (resolved, resolvedFlags, resolver)
  db : SymbolDb
  flags : PerSymbolFlags
  alternatives : ResolvesAlternatives resolved resolvedFlags resolver (db, flags)

namespace FirstPass

variable {args : Args} {outputKind : OutputKind} {versionScript : Option VersionScript}
  {loaded : LoadedInputs} (p : FirstPass args outputKind versionScript loaded)

/-- The database that symbols are resolved in. -/
abbrev wrapped : SymbolDb := p.input.applyWrappedSymbolOverrides

theorem addedInputs : AddedInputs (.new args outputKind versionScript) (fun _ => .empty) loaded p.input
    p.inputFlags := addInputs_spec p.added

theorem outcome : ∃ files effects, ResolutionOutcome p.wrapped p.inputFlags .new p.resolved p.resolvedFlags
    p.resolver files effects := p.resolves.outcome

/-! ### The same files in every phase -/

theorem namesMoved : NamesMoved p.input p.wrapped := namesMoved_applyWrappedSymbolOverrides p.input

theorem resolved_groups : p.resolved.groups = p.input.groups := by
  obtain ⟨_, _, h⟩ := p.outcome
  rw [h.db_eq]
  exact p.namesMoved.groups

theorem sameFiles_resolved : SameFiles p.input p.resolved := ⟨p.resolved_groups⟩

/-! ### Loaded files -/

/-- Whether the file of a symbol is loaded. -/
def IsLoadedSymbol (id : SymbolId) : Prop := isLoaded p.input p.resolver (p.input.fileIdForSymbol id) = true

/-! ### Flags and ranks -/

theorem resolvedFlags_dynamic {id : SymbolId} (hid : id < p.input.numSymbols) :
    (p.resolvedFlags id).contains .dynamic = p.input.isDynamicSymbol id := by
  obtain ⟨_, _, h⟩ := p.outcome
  rw [h.flags_dynamic]
  exact p.addedInputs.newFlags id (Nat.zero_le _) hid

/-- The rank of a symbol when alternatives are selected. -/
abbrev rank (id : SymbolId) : ℕ ×ₗ ℕ := definitionRank p.resolved p.resolvedFlags p.resolver id

/-! ### One of the orders -/

/-- The alternatives of a resolved database, resolved in order, where that succeeds. -/
def alternativesOrSame (db : SymbolDb) (flags : PerSymbolFlags) (r : Resolver) : SymbolDb × PerSymbolFlags :=
  match resolveAlternativesInOrder db flags r with
  | .ok result => result
  | .error _ => (db, flags)

theorem alternativesOrSame_resolves {db : SymbolDb} {flags : PerSymbolFlags} {r : Resolver}
    (h : db.alternativeEntries.all (entrySucceeds db flags r) = true) :
    ResolvesAlternatives db flags r (alternativesOrSame db flags r) := by
  apply resolveAlternativesInOrder_resolves
  unfold alternativesOrSame resolveAlternativesInOrder
  rw [if_pos h]

/-- The end of the run that takes the oldest work item each time, after `fuel` steps. -/
def inOrderEnd (input : SymbolDb × PerSymbolFlags) (fuel : Nat) : ResolveState :=
  ResolveState.runInOrder input.1.applyWrappedSymbolOverrides fuel
    (initialResolveState input.1.applyWrappedSymbolOverrides .new input.2)

/-- What that run leaves. -/
def inOrderResult (input : SymbolDb × PerSymbolFlags) (fuel : Nat) : SymbolDb × PerSymbolFlags × Resolver :=
  finishResolve input.1.applyWrappedSymbolOverrides .new (inOrderEnd input fuel)

/-- The first pass that takes the work items and the alternatives in their order, if it ends within `fuel`
    steps and nothing fails. -/
def inOrder (input : SymbolDb × PerSymbolFlags) (fuel : Nat)
    (added : addInputs (.new args outputKind versionScript) (fun _ => .empty) loaded = .ok input)
    (hasInputs : input.1.numRegularObjects ≠ 0 ∨ input.1.numLtoObjects ≠ 0)
    (ends : (inOrderEnd input fuel).pending = [] ∧ (inOrderEnd input fuel).error = none ∧
      (inOrderEnd input fuel).panicked = false)
    (succeeds : (inOrderResult input fuel).1.alternativeEntries.all
      (entrySucceeds (inOrderResult input fuel).1 (inOrderResult input fuel).2.1
        (inOrderResult input fuel).2.2) = true) :
    FirstPass args outputKind versionScript loaded :=
  let wrapped := input.1.applyWrappedSymbolOverrides
  let result := inOrderResult input fuel
  { input := input.1
    inputFlags := input.2
    added := added
    resolved := result.1
    resolvedFlags := result.2.1
    resolver := result.2.2
    resolves := by
      have hgroups : wrapped.groups = input.1.groups := (namesMoved_applyWrappedSymbolOverrides _).groups
      refine ⟨?_, inOrderEnd input fuel, ⟨ResolveState.runInOrder_reaches wrapped fuel _, ends.1⟩, ends.2.1,
        ends.2.2, rfl⟩
      unfold SymbolDb.numRegularObjects SymbolDb.numLtoObjects
      rw [hgroups]
      exact hasInputs
    db := (alternativesOrSame result.1 result.2.1 result.2.2).1
    flags := (alternativesOrSame result.1 result.2.1 result.2.2).2
    alternatives := alternativesOrSame_resolves succeeds }

end FirstPass

end Reld
