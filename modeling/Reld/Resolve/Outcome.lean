import Mathlib.Data.List.Induction
import Reld.Resolve.Outputs

/-!
# `Resolve.Outcome` — the tables after a resolution run

What a run leaves, slot by slot: the definition of a reference is the symbol that its name found, everything
else keeps its definition (`ResolutionOutcome.definition_cases`); flags are those of the references of the
loaded files (`ResolutionOutcome.flags_iff`), and the records of undefined symbols are those of the
references that may be undefined (`ResolutionOutcome.mem_undefined`).
-/

namespace Reld

variable {db : SymbolDb}

/-! ## The effects of one reference -/

variable (db) in
/-- The record that a reference leaves, if it may be undefined. -/
def Reference.record (fileId : FileId) (ref : Reference) : Option UndefinedSymbol :=
  match db.get ref.key ref.attributes.defaultVisibility with
  | none => some { ignoreIfLoaded := none, name := ref.key, symbolId := ref.symbolId }
  | some k =>
    if recordsReference db fileId ref.attributes.isWeak k then
      some { ignoreIfLoaded := some (db.fileIdForSymbol k), name := ref.key, symbolId := ref.symbolId }
    else none

section References

variable {fileId : FileId} {f : InputFile} {ref : Reference}

theorem Reference.undefinedOf_effects :
    undefinedOf (ref.effects db fileId f) = (ref.record db fileId).toList := by
  unfold Reference.effects Reference.record
  cases hget : db.get ref.key ref.attributes.defaultVisibility with
  | none =>
    rw [resolveSymbol_none hget]
    rfl
  | some k =>
    rw [(resolveSymbol_some hget).2.1]
    simp only
    split_ifs <;> rfl

/-- A record is about its reference, and names the file of the symbol that was found. -/
theorem Reference.record_some {u : UndefinedSymbol} (h : ref.record db fileId = some u) :
    u.symbolId = ref.symbolId ∧ u.name = ref.key ∧
      u.ignoreIfLoaded = (db.get ref.key ref.attributes.defaultVisibility).map db.fileIdForSymbol ∧
      ∀ k, db.get ref.key ref.attributes.defaultVisibility = some k →
        recordsReference db fileId ref.attributes.isWeak k = true := by
  unfold Reference.record at h
  cases hget : db.get ref.key ref.attributes.defaultVisibility with
  | none =>
    rw [hget] at h
    obtain rfl := Option.some.inj h
    exact ⟨rfl, rfl, rfl, fun k hk => absurd hk (by simp)⟩
  | some k =>
    rw [hget] at h
    simp only at h
    split_ifs at h with hrecords
    obtain rfl := Option.some.inj h
    refine ⟨rfl, rfl, rfl, ?_⟩
    intro k' hk'
    rwa [← Option.some.inj hk']

theorem Reference.define_mem_effects {id k : SymbolId} :
    Effect.define id k ∈ ref.effects db fileId f ↔
      id = ref.symbolId ∧ db.get ref.key ref.attributes.defaultVisibility = some k := by
  rw [← mem_definitionsOf]
  unfold Reference.effects
  cases hget : db.get ref.key ref.attributes.defaultVisibility with
  | none =>
    rw [resolveSymbol_none hget]
    simp [definitionsOf]
  | some k' =>
    rw [(resolveSymbol_some hget).1]
    simp [eq_comm]

/-- No reference makes a symbol dynamic. -/
theorem Reference.keepsDynamic {e : Effect} (he : e ∈ ref.effects db fileId f) : e.KeepsDynamic := by
  unfold Reference.effects resolveSymbol at he
  cases hget : db.get (.fromRaw ref.attributes.nameInfo) ref.attributes.defaultVisibility with
  | none =>
    rw [hget] at he
    obtain rfl := List.mem_singleton.mp he
    intro id
    simp [Effect.flagsOn]
  | some k =>
    rw [hget] at he
    intro id
    unfold referenceVisibilityEffects referenceFileEffects at he
    simp only [List.mem_cons, List.mem_append] at he
    rcases he with rfl | (he | he) | he
    · simp [Effect.flagsOn]
    · split_ifs at he
      · exact absurd he List.not_mem_nil
      · cases hv : db.inputSymbolVisibility ref.symbolId <;> rw [hv] at he
        · exact absurd he List.not_mem_nil
        · obtain rfl := List.mem_singleton.mp he
          simp only [Effect.flagsOn]
          split_ifs <;> simp
        · obtain rfl := List.mem_singleton.mp he
          simp only [Effect.flagsOn]
          split_ifs <;> simp
    · split_ifs at he
      · exact absurd he List.not_mem_nil
      · obtain rfl := List.mem_singleton.mp he
        simp only [Effect.flagsOn]
        split_ifs <;> simp
    · split_ifs at he <;>
        first
          | exact absurd he List.not_mem_nil
          | (obtain rfl := List.mem_singleton.mp he; simp [Effect.flagsOn])

/-- Whether a reference puts a flag on a symbol: it found the symbol, and the flag is that of references from
    outside of the plugin or one for its visibility. -/
def Reference.Flags (db : SymbolDb) (f : InputFile) (ref : Reference) (id : SymbolId) (isDynamic : Bool)
    (x : Flag) : Prop :=
  db.get ref.key ref.attributes.defaultVisibility = some id ∧
    ((f.isLto = false ∧ x = .hasNonIrRef) ∨
      (ref.attributes.defaultVisibility = false ∧ x ∈ visibilityFlags (db.inputSymbolVisibility ref.symbolId) ∧
        (db.inputSymbolVisibility ref.symbolId = .hidden ∨ isDynamic = false)))

theorem Reference.flags_effects (fileId : FileId) {id : SymbolId} {x : Flag} {isDynamic : Bool} :
    (∃ e ∈ ref.effects db fileId f, x ∈ (e.flagsOn id).1 ∧ ((e.flagsOn id).2 = true ∨ isDynamic = false)) ↔
      ref.Flags db f id isDynamic x := by
  unfold Reference.effects Reference.Flags Reference.key resolveSymbol
  cases hget : db.get (.fromRaw ref.attributes.nameInfo) ref.attributes.defaultVisibility with
  | none => simp [Effect.flagsOn]
  | some k =>
    have hfile : ∀ e ∈ referenceFileEffects db ref.symbolId ref.attributes f.isDynamic fileId k,
        (e.flagsOn id).1 = [] := by
      intro e he
      unfold referenceFileEffects at he
      simp only at he
      split_ifs at he <;>
        first
          | exact absurd he List.not_mem_nil
          | (rw [List.mem_singleton.mp he]; rfl)
    simp only [List.mem_cons, List.mem_append]
    constructor
    · rintro ⟨e, rfl | (he | he) | he, hx, hdyn⟩
      · exact absurd hx (by simp [Effect.flagsOn])
      · split_ifs at he with hvis
        · exact absurd he List.not_mem_nil
        · unfold referenceVisibilityEffects at he
          cases hv : db.inputSymbolVisibility ref.symbolId <;> rw [hv] at he
          · exact absurd he List.not_mem_nil
          · obtain rfl := List.mem_singleton.mp he
            simp only [Effect.flagsOn] at hx hdyn
            split_ifs at hx hdyn with hk
            · subst hk
              exact ⟨rfl, Or.inr ⟨by simpa using hvis, hx, Or.inr (by simpa using hdyn)⟩⟩
            · exact absurd hx List.not_mem_nil
          · obtain rfl := List.mem_singleton.mp he
            simp only [Effect.flagsOn] at hx
            split_ifs at hx with hk
            · subst hk
              exact ⟨rfl, Or.inr ⟨by simpa using hvis, hx, Or.inl rfl⟩⟩
            · exact absurd hx List.not_mem_nil
      · split_ifs at he with hlto
        · exact absurd he List.not_mem_nil
        · obtain rfl := List.mem_singleton.mp he
          simp only [Effect.flagsOn] at hx
          split_ifs at hx with hk
          · subst hk
            exact ⟨rfl, Or.inl ⟨by simpa using hlto, List.mem_singleton.mp hx⟩⟩
          · exact absurd hx List.not_mem_nil
      · rw [hfile e he] at hx
        exact absurd hx List.not_mem_nil
    · rintro ⟨hk, hflags⟩
      obtain rfl := Option.some.inj hk
      rcases hflags with ⟨hlto, rfl⟩ | ⟨hvis, hx, hdyn⟩
      · refine ⟨.orFlags k [.hasNonIrRef], Or.inr (Or.inl (Or.inr ?_)), ?_, ?_⟩
        · simp [hlto]
        · simp [Effect.flagsOn]
        · simp [Effect.flagsOn]
      · cases hv : db.inputSymbolVisibility ref.symbolId with
        | default => rw [hv] at hx; exact absurd hx List.not_mem_nil
        | hidden =>
          rw [hv] at hx
          refine ⟨.orFlags k [.nonInterposable, .downgradeToLocal], Or.inr (Or.inl (Or.inl ?_)), ?_, ?_⟩
          · simp [hvis, referenceVisibilityEffects, hv]
          · simpa [Effect.flagsOn, visibilityFlags] using hx
          · simp [Effect.flagsOn]
        | «protected» =>
          rw [hv] at hx hdyn
          refine ⟨.orFlagsUnlessDynamic k [.nonInterposable], Or.inr (Or.inl (Or.inl ?_)), ?_, ?_⟩
          · simp [hvis, referenceVisibilityEffects, hv]
          · simpa [Effect.flagsOn, visibilityFlags] using hx
          · exact Or.inr (hdyn.resolve_left (by simp))

end References

/-! ## The references of a file -/

variable {fileId : FileId}

/-- Where a reference stands: in its file, at a symbol that has no definition yet or that the file does not
    define. -/
theorem reference_locate {f : InputFile} {ref : Reference} (hf : db.file fileId = some f)
    (href : ref ∈ fileReferences db fileId f) :
    ∃ index, db.locate ref.symbolId = some ((fileId, f), index) ∧
      (db.symbolDefinitions ref.symbolId = 0 ∨ f.definesSymbol index = false) := by
  cases f with
  | object o =>
    obtain ⟨verneed, index, s, nameBytes, _, ⟨hs, d, hd, hskip⟩, _, rfl⟩ := mem_objectReferences.mp href
    have hlt : index < o.symbols.length := (List.getElem?_eq_some_iff.mp hs).1
    refine ⟨index, SymbolDb.locate_eq_some_iff.mpr ⟨hf, hlt, rfl⟩, Or.inl ?_⟩
    have hd' : db.symbolDefinitions (db.symbolIdStart fileId + index) = d := by
      have hget : (definitionSlice db fileId (.object o))[index]?
          = some (db.symbolDefinitions (db.symbolIdStart fileId + index)) := by
        have hrange : (List.range (InputFile.object o).numSymbols)[index]? = some index :=
          List.getElem?_range hlt
        unfold definitionSlice
        rw [List.getElem?_map, hrange]
        rfl
      exact Option.some.inj (hget.symm.trans hd)
    show db.symbolDefinitions (db.symbolIdStart fileId + index) = 0
    rw [hd']
    unfold skipsSymbol at hskip
    by_contra hne
    simp [hne] at hskip
  | ltoInput o =>
    obtain ⟨index, s, hs, hlto⟩ := mem_ltoReferences.mp href
    have hlt : index < o.symbols.length := (List.getElem?_eq_some_iff.mp hs).1
    unfold ltoReference at hlto
    split_ifs at hlto with hdef
    obtain rfl := Option.some.inj hlto
    refine ⟨index, SymbolDb.locate_eq_some_iff.mpr ⟨hf, hlt, rfl⟩, Or.inr ?_⟩
    simp [InputFile.definesSymbol, hs, hdef]
  | _ => exact absurd href List.not_mem_nil

/-! ## The effects of the prelude and of linker scripts -/

variable (db) in
/-- The names that a new prelude and new linker scripts refer to from outside of the plugin. -/
def nonIrRootNames (r : Resolver) : List Bytes :=
  (newFiles db r).flatMap fun p =>
    match p.2 with
    | .prelude defs => db.entrySymbolName.toList ++ defs.flatMap InternalSymDefInfo.redirectTargets
    | .linkerScript s => s.symbolDefs.flatMap InternalSymDefInfo.redirectTargets
    | _ => []

variable (db) in
/-- The symbol `id` of a new prelude is a forced undefined one, and its name finds `k`. -/
def ForcesUndefined (r : Resolver) (id k : SymbolId) : Prop :=
  ∃ fileId defs d, (fileId, InputFile.prelude defs) ∈ newFiles db r ∧ defs[id]? = some d ∧
    d.placement = .forceUndefined ∧ db.getUnversioned d.name = some k

variable {e : Effect} {d : InternalSymDefInfo}

theorem mem_redirectEffects :
    e ∈ redirectEffects db d ↔ ∃ name ∈ d.redirectTargets, ∃ k, db.getUnversioned name = some k ∧
      (e = .request (db.fileIdForSymbol k) ∨ e = .orFlags k [.hasNonIrRef]) := by
  unfold redirectEffects InternalSymDefInfo.redirectTargets
  cases d.placement with
  | redirect redirect =>
    simp only [loadSymbolsInRedirect, List.mem_flatMap]
    refine exists_congr (fun name => and_congr_right (fun _ => ?_))
    cases db.getUnversioned name with
    | none => simp
    | some k => simp
  | _ => simp

theorem mem_loadEntrySymbol :
    e ∈ loadEntrySymbol db ↔ ∃ name ∈ db.entrySymbolName.toList, ∃ k, db.getUnversioned name = some k ∧
      (e = .request (db.fileIdForSymbol k) ∨ e = .orFlags k [.hasNonIrRef]) := by
  unfold loadEntrySymbol
  cases db.entrySymbolName with
  | none => simp
  | some name =>
    cases h : db.getUnversioned name with
    | none => simp [h]
    | some k => simp [h]

theorem mem_loadPreludeDefinition {i : SymbolId} :
    e ∈ loadPreludeDefinition db i d ↔
      (d.placement = .forceUndefined ∧ ∃ k, db.getUnversioned d.name = some k ∧
        (e = .define i k ∨ e = .request (db.fileIdForSymbol k))) ∨ e ∈ redirectEffects db d := by
  unfold loadPreludeDefinition
  cases hp : d.placement with
  | forceUndefined =>
    have hnone : redirectEffects db d = [] := by simp [redirectEffects, hp]
    cases h : db.getUnversioned d.name with
    | none => simp [hnone]
    | some k => simp [hnone]
  | _ => simp

variable {defs : List InternalSymDefInfo}

/-- The effects of a prelude: those of the entry symbol and of each of its definitions. -/
theorem mem_loadPrelude :
    e ∈ loadPrelude db defs (definitionSlice db fileId (.prelude defs)) ↔
      e ∈ loadEntrySymbol db ∨ ∃ i d, defs[i]? = some d ∧ e ∈ loadPreludeDefinition db i d := by
  have hlength : (definitionSlice db fileId (.prelude defs)).length = defs.length := by
    simp [definitionSlice, InputFile.numSymbols]
  unfold loadPrelude
  rw [List.mem_append, List.mem_flatten]
  refine or_congr_right ?_
  constructor
  · rintro ⟨effects, hmem, he⟩
    obtain ⟨i, hi, rfl⟩ := List.mem_mapIdx.mp hmem
    rw [List.length_zip] at hi
    exact ⟨i, defs[i], List.getElem?_eq_getElem (by omega), by simpa using he⟩
  · rintro ⟨i, d, hd, he⟩
    obtain ⟨hi, rfl⟩ := List.getElem?_eq_some_iff.mp hd
    refine ⟨_, List.mem_mapIdx.mpr ⟨i, by rw [List.length_zip]; omega, rfl⟩, ?_⟩
    rw [List.getElem_zip]
    exact he

/-- The work items that the prelude starts with. -/
theorem startItemsOf_prelude (hf : db.file fileId = some (.prelude defs)) :
    startItemsOf db (fileId, .prelude defs)
      = [{ fileId := fileId, symbolStartOffset := 0
           definitionsOut := definitionSlice db fileId (.prelude defs) }] :=
  workItems_other hf nofun _

/-- **The effects of the roots**: the references of the prelude and the scripts, and the definitions of the
    forced undefined symbols; everything else is requests. -/
theorem mem_rootEffects {r : Resolver} (he : ∀ g, e ≠ .request g) :
    e ∈ rootEffects db r ↔
      (∃ name ∈ nonIrRootNames db r, ∃ k, db.getUnversioned name = some k ∧ e = .orFlags k [.hasNonIrRef]) ∨
        ∃ id k, ForcesUndefined db r id k ∧ e = .define id k := by
  unfold rootEffects
  rw [List.mem_flatMap]
  constructor
  · rintro ⟨⟨fileId, f⟩, hp, hmem⟩
    obtain ⟨hnew, hload⟩ := List.mem_filter.mp hp
    have hf := (mem_newFiles.mp hnew).1
    cases f with
    | prelude defs =>
      rw [startItemsOf_prelude hf, List.flatMap_singleton, processObject_prelude hf rfl] at hmem
      rcases mem_loadPrelude.mp hmem with hmem | ⟨i, d, hd, hmem⟩
      · obtain ⟨name, hn, k, hget, heq | heq⟩ := mem_loadEntrySymbol.mp hmem
        · exact absurd heq (he _)
        · exact Or.inl ⟨name, List.mem_flatMap.mpr ⟨_, hnew, List.mem_append_left _ hn⟩, k, hget, heq⟩
      · rcases mem_loadPreludeDefinition.mp hmem with ⟨hplace, k, hget, heq | heq⟩ | hmem
        · exact Or.inr ⟨i, k, ⟨fileId, defs, d, hnew, hd, hplace, hget⟩, heq⟩
        · exact absurd heq (he _)
        · obtain ⟨name, hn, k, hget, heq | heq⟩ := mem_redirectEffects.mp hmem
          · exact absurd heq (he _)
          · refine Or.inl ⟨name, List.mem_flatMap.mpr ⟨_, hnew, List.mem_append_right _ ?_⟩, k, hget, heq⟩
            exact List.mem_flatMap.mpr ⟨d, List.mem_of_getElem? hd, hn⟩
    | linkerScript script =>
      obtain ⟨scripts, hgroup, _⟩ := group_of_linkerScript hf
      have hitems : startItemsOf db (fileId, .linkerScript script)
          = [{ fileId := fileId, symbolStartOffset := 0
               definitionsOut := definitionSlice db fileId (.linkerScript script) }] := rfl
      rw [hitems, List.flatMap_singleton, processObject_linkerScripts hgroup rfl] at hmem
      obtain ⟨s, hs, hmem⟩ := List.mem_flatMap.mp hmem
      obtain ⟨d, hd, hmem⟩ := List.mem_flatMap.mp hmem
      obtain ⟨name, hn, k, hget, heq | heq⟩ := mem_redirectEffects.mp hmem
      · exact absurd heq (he _)
      · -- the script of the assignment is a new file of the same group
        obtain ⟨i, hi, hgets⟩ := List.mem_iff_getElem.mp hs
        have hfile : db.file ⟨fileId.group, i⟩ = some (.linkerScript s) := by
          unfold SymbolDb.file
          rw [hgroup]
          show (scripts.map InputFile.linkerScript)[i]? = _
          rw [List.getElem?_map, List.getElem?_eq_getElem hi, hgets]
          rfl
        exact Or.inl ⟨name, List.mem_flatMap.mpr ⟨(⟨fileId.group, i⟩, .linkerScript s),
          mem_newFiles.mpr ⟨hfile, (mem_newFiles.mp hnew).2⟩, List.mem_flatMap.mpr ⟨d, hd, hn⟩⟩, k, hget, heq⟩
    | object o => exact absurd hload (by simp [InputFile.isLoadable])
    | ltoInput o => exact absurd hload (by simp [InputFile.isLoadable])
    | stubLibrary s => exact absurd hmem List.not_mem_nil
    | syntheticSymbols names => exact absurd hmem List.not_mem_nil
  · rintro (⟨name, hn, k, hget, rfl⟩ | ⟨id, k, ⟨fileId, defs, d, hnew, hd, hplace, hget⟩, rfl⟩)
    · obtain ⟨⟨fileId, f⟩, hnew, hn⟩ := List.mem_flatMap.mp hn
      have hf := (mem_newFiles.mp hnew).1
      cases f with
      | prelude defs =>
        refine ⟨_, List.mem_filter.mpr ⟨hnew, rfl⟩, ?_⟩
        rw [startItemsOf_prelude hf, List.flatMap_singleton, processObject_prelude hf rfl]
        refine mem_loadPrelude.mpr ?_
        rcases List.mem_append.mp hn with hn | hn
        · exact Or.inl (mem_loadEntrySymbol.mpr ⟨name, hn, k, hget, Or.inr rfl⟩)
        · obtain ⟨d, hd, hn⟩ := List.mem_flatMap.mp hn
          obtain ⟨i, hi⟩ := List.mem_iff_getElem?.mp hd
          exact Or.inr ⟨i, d, hi, mem_loadPreludeDefinition.mpr
            (Or.inr (mem_redirectEffects.mpr ⟨name, hn, k, hget, Or.inr rfl⟩))⟩
      | linkerScript script =>
        obtain ⟨scripts, hgroup, hs⟩ := group_of_linkerScript hf
        obtain ⟨d, hd, hn⟩ := List.mem_flatMap.mp hn
        refine ⟨_, List.mem_filter.mpr ⟨hnew, rfl⟩, ?_⟩
        show _ ∈ [{ fileId := fileId, symbolStartOffset := 0
                    definitionsOut := definitionSlice db fileId (.linkerScript script) }].flatMap
                      (fun w => (processObject db w).1)
        rw [List.flatMap_singleton, processObject_linkerScripts hgroup rfl]
        exact List.mem_flatMap.mpr ⟨script, hs, List.mem_flatMap.mpr ⟨d, hd,
          mem_redirectEffects.mpr ⟨name, hn, k, hget, Or.inr rfl⟩⟩⟩
      | _ => exact absurd hn List.not_mem_nil
    · have hf := (mem_newFiles.mp hnew).1
      refine ⟨_, List.mem_filter.mpr ⟨hnew, rfl⟩, ?_⟩
      rw [startItemsOf_prelude hf, List.flatMap_singleton, processObject_prelude hf rfl]
      exact mem_loadPrelude.mpr (Or.inr ⟨id, d, hd,
        mem_loadPreludeDefinition.mpr (Or.inl ⟨hplace, k, hget, Or.inl rfl⟩)⟩)

/-! ## The outcome of a run, slot by slot -/

namespace ResolutionOutcome

variable {flags flags' : PerSymbolFlags} {r r' : Resolver} {db' : SymbolDb} {loaded : List FileId}
  {effects : List Effect}

/-- A reference that a run resolves: one of a selected file. -/
structure Resolves (db : SymbolDb) (r : Resolver) (fileId : FileId) (f : InputFile) (ref : Reference) :
    Prop where
  selected : Selected db r (rootNames db r) fileId
  file : db.file fileId = some f
  mem : ref ∈ fileReferences db fileId f

/-- The effects of a run: those of the roots and those of the references of the selected files. -/
theorem mem_effects (h : ResolutionOutcome db flags r db' flags' r' loaded effects) {e : Effect} :
    e ∈ effects ↔ e ∈ rootEffects db r ∨
      ∃ fileId f ref, Resolves db r fileId f ref ∧ e ∈ ref.effects db fileId f := by
  rw [h.effects_perm.mem_iff, List.mem_append, List.mem_flatMap]
  refine or_congr_right ?_
  constructor
  · rintro ⟨fileId, hload, he⟩
    unfold referenceEffects at he
    cases hf : db.file fileId with
    | none => rw [hf] at he; exact absurd he List.not_mem_nil
    | some f =>
      rw [hf] at he
      obtain ⟨ref, href, he⟩ := List.mem_flatMap.mp he
      exact ⟨fileId, f, ref, ⟨(h.loaded_iff fileId).mp hload, hf, href⟩, he⟩
  · rintro ⟨fileId, f, ref, ⟨hsel, hf, href⟩, he⟩
    refine ⟨fileId, (h.loaded_iff fileId).mpr hsel, ?_⟩
    unfold referenceEffects
    rw [hf]
    exact List.mem_flatMap.mpr ⟨ref, href, he⟩

theorem keepsDynamic (h : ResolutionOutcome db flags r db' flags' r' loaded effects) :
    ∀ e ∈ effects, e.KeepsDynamic := by
  intro e he
  rcases h.mem_effects.mp he with hroot | ⟨fileId, f, ref, _, he⟩
  · by_cases hrequest : ∃ g, e = .request g
    · obtain ⟨g, rfl⟩ := hrequest
      intro id
      simp [Effect.flagsOn]
    · rcases (mem_rootEffects (fun g hg => hrequest ⟨g, hg⟩)).mp hroot with
        ⟨_, _, k, _, rfl⟩ | ⟨id, k, _, rfl⟩
      · intro id
        simp only [Effect.flagsOn]
        split_ifs <;> simp
      · intro id
        simp [Effect.flagsOn]
  · exact Reference.keepsDynamic he

/-- **Flags after a run**: those that references of selected files put there, and the mark of a reference
    from outside of the plugin for the names of the prelude and the scripts. -/
theorem flags_iff (h : ResolutionOutcome db flags r db' flags' r' loaded effects) (id : SymbolId)
    (x : Flag) :
    (flags' id).contains x = true ↔
      (flags id).contains x = true ∨
        (x = .hasNonIrRef ∧ ∃ name ∈ nonIrRootNames db r, db.getUnversioned name = some id) ∨
        ∃ fileId f ref, Resolves db r fileId f ref ∧ ref.Flags db f id ((flags id).contains .dynamic) x := by
  rw [h.flags, foldl_apply_flags effects h.keepsDynamic]
  refine or_congr_right ?_
  constructor
  · rintro ⟨e, he, hx, hdyn⟩
    rcases h.mem_effects.mp he with hroot | ⟨fileId, f, ref, href, he⟩
    · left
      have hrequest : ∀ g, e ≠ .request g := by
        rintro g rfl
        exact absurd hx List.not_mem_nil
      rcases (mem_rootEffects hrequest).mp hroot with ⟨name, hn, k, hget, rfl⟩ | ⟨i, k, _, rfl⟩
      · simp only [Effect.flagsOn] at hx
        split_ifs at hx with hk
        · subst hk
          exact ⟨List.mem_singleton.mp hx, name, hn, hget⟩
        · exact absurd hx List.not_mem_nil
      · exact absurd hx List.not_mem_nil
    · exact Or.inr ⟨fileId, f, ref, href, (Reference.flags_effects fileId).mp ⟨e, he, hx, hdyn⟩⟩
  · rintro (⟨rfl, name, hn, hget⟩ | ⟨fileId, f, ref, href, hflags⟩)
    · refine ⟨.orFlags id [.hasNonIrRef], ?_, by simp [Effect.flagsOn], by simp [Effect.flagsOn]⟩
      refine h.mem_effects.mpr (Or.inl ?_)
      exact (mem_rootEffects (fun g hg => absurd hg (by simp))).mpr (Or.inl ⟨name, hn, id, hget, rfl⟩)
    · obtain ⟨e, he, hx⟩ := (Reference.flags_effects fileId).mpr hflags
      exact ⟨e, h.mem_effects.mpr (Or.inr ⟨fileId, f, ref, href, he⟩), hx⟩

theorem flags_dynamic (h : ResolutionOutcome db flags r db' flags' r' loaded effects) (id : SymbolId) :
    (flags' id).contains .dynamic = (flags id).contains .dynamic := by
  have hiff := h.flags_iff id .dynamic
  cases hf : (flags id).contains .dynamic with
  | true => exact hiff.mpr (Or.inl hf)
  | false =>
    by_contra hne
    rcases hiff.mp (by simpa using hne) with h' | ⟨h', _⟩ | ⟨_, _, ref, _, _, ⟨_, h'⟩ | ⟨_, h', _⟩⟩
    · rw [hf] at h'
      exact absurd h' Bool.false_ne_true
    · exact absurd h' (by simp)
    · exact absurd h' (by simp)
    · cases hv : db.inputSymbolVisibility ref.symbolId <;> rw [hv] at h' <;>
        simp [visibilityFlags] at h'

/-- **Definitions after a run**: a slot has its old value, or that of a forced undefined symbol, or the symbol
    that the name of its reference found. -/
theorem definition_cases (h : ResolutionOutcome db flags r db' flags' r' loaded effects) (id : SymbolId) :
    (db'.symbolDefinitions id = db.symbolDefinitions id ∧ (∀ k, ¬ForcesUndefined db r id k) ∧
        ∀ fileId f ref, Resolves db r fileId f ref → ref.symbolId = id →
          db.get ref.key ref.attributes.defaultVisibility = none) ∨
      ForcesUndefined db r id (db'.symbolDefinitions id) ∨
      ∃ fileId f ref, Resolves db r fileId f ref ∧ ref.symbolId = id ∧
        db.get ref.key ref.attributes.defaultVisibility = some (db'.symbolDefinitions id) := by
  have hdefine : ∀ k, Effect.define id k ∈ effects ↔ ForcesUndefined db r id k ∨
      ∃ fileId f ref, Resolves db r fileId f ref ∧ ref.symbolId = id ∧
        db.get ref.key ref.attributes.defaultVisibility = some k := by
    intro k
    rw [h.mem_effects, mem_rootEffects (fun g hg => absurd hg (by simp))]
    refine or_congr ?_ ?_
    · constructor
      · rintro (⟨_, _, _, _, heq⟩ | ⟨id', k', hforce, heq⟩)
        · exact absurd heq (by simp)
        · injection heq with hid hk
          exact hid ▸ hk ▸ hforce
      · intro hforce
        exact Or.inr ⟨id, k, hforce, rfl⟩
    · refine exists_congr (fun fileId => exists_congr (fun f => exists_congr (fun ref => ?_)))
      rw [Reference.define_mem_effects, @eq_comm _ id]
  rw [h.definitions]
  rcases foldl_apply_definitions effects
      { definitions := db.symbolDefinitions, flags := flags, undefinedSymbols := [] } id with
    ⟨hsame, hnone⟩ | ⟨k, hk, hvalue⟩
  · refine Or.inl ⟨hsame, fun k hforce => hnone k ((hdefine k).mpr (Or.inl hforce)), ?_⟩
    intro fileId f ref href hid
    cases hget : db.get ref.key ref.attributes.defaultVisibility with
    | none => rfl
    | some k => exact absurd ((hdefine k).mpr (Or.inr ⟨fileId, f, ref, href, hid, hget⟩)) (hnone k)
  · right
    rw [hvalue]
    exact (hdefine k).mp hk

/-- **Records after a run**: those of the references of selected files. -/
theorem mem_undefined (h : ResolutionOutcome db flags r db' flags' r' loaded effects)
    {u : UndefinedSymbol} :
    u ∈ r'.undefinedSymbols ↔ u ∈ r.undefinedSymbols ∨
      ∃ fileId f ref, Resolves db r fileId f ref ∧ ref.record db fileId = some u := by
  rw [h.undefinedSymbols, List.mem_append, mem_undefinedOf, h.mem_effects]
  refine or_congr_right ?_
  constructor
  · rintro (hroot | ⟨fileId, f, ref, href, he⟩)
    · rcases (mem_rootEffects (fun g hg => absurd hg (by simp))).mp hroot with
        ⟨_, _, _, _, heq⟩ | ⟨_, _, _, heq⟩ <;> exact absurd heq (by simp)
    · rw [← mem_undefinedOf, Reference.undefinedOf_effects, Option.mem_toList] at he
      exact ⟨fileId, f, ref, href, he⟩
  · rintro ⟨fileId, f, ref, href, hrecord⟩
    refine Or.inr ⟨fileId, f, ref, href, ?_⟩
    rw [← mem_undefinedOf, Reference.undefinedOf_effects, Option.mem_toList]
    exact hrecord

end ResolutionOutcome

end Reld
