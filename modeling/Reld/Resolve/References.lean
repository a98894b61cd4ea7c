import Mathlib.Data.List.ReduceOption
import Reld.Resolve.Chunking

/-!
# `Resolve.References` — the references of a file

Loading a file resolves its undefined symbols, one chunk after another. `fileReferences` lists them, and
`workItems_effects` says that the work items of a file, if none of them fails, do exactly what its
references do: how a file is cut into chunks shows in the keys of its references only.
-/

variable {o : InputObject}

namespace Reld

/-- An undefined symbol of a file as it is looked up. -/
structure Reference where
  symbolId : SymbolId
  attributes : SymbolAttributes

/-- The key of a reference. -/
def Reference.key (ref : Reference) : PreHashedSymbolName := .fromRaw ref.attributes.nameInfo

variable (db : SymbolDb)

/-- The reference at `index` of an object, if `resolve_symbols` does not pass over the symbol. -/
def objectReference (fileId : FileId) (o : InputObject) (verneed : List (Option Bytes)) (index : Nat)
    (definition : SymbolId) : Option Reference := do
  let s ← o.symbols[index]?
  if skipsSymbol o index s definition then none
  else
    let nameBytes ← s.name
    some { symbolId := db.symbolIdStart fileId + index
           attributes := attributesAt o verneed s nameBytes (index % maxSymbolsPerWorkItem) }

/-- The references of an object. -/
def objectReferences (fileId : FileId) (o : InputObject) (definitionsOut : List SymbolId) : List Reference :=
  match o.verneedNamesByIndex with
  | .error _ => []
  | .ok verneed => (definitionsOut.mapIdx (objectReference db fileId o verneed)).reduceOption

/-- The reference at `index` of a plugin input, if the symbol is not a definition. -/
def ltoReference (fileId : FileId) (index : Nat) (s : PluginSymbol) : Option Reference :=
  if s.isDefinition then none
  else
    let parsed := RawSymbolName.parse s.name
    some { symbolId := db.symbolIdStart fileId + index
           attributes :=
            { nameInfo := { parsed with versionName := s.version.or parsed.versionName }
              defaultVisibility := s.visibility = .stvDefault
              isWeak := s.kind = some .weakUndef } }

/-- The references that a file resolves when it is loaded. -/
def fileReferences (fileId : FileId) : InputFile → List Reference
  | .object o => objectReferences db fileId o (definitionSlice db fileId (.object o))
  | .ltoInput o => (o.symbols.mapIdx (ltoReference db fileId)).reduceOption
  | _ => []

/-- Whether the references of a file come from outside of the plugin. -/
def InputFile.isLto : InputFile → Bool
  | .ltoInput _ => true
  | _ => false

/-- Whether a file is pushed to a queue when it is loaded. -/
def InputFile.isLoadable : InputFile → Bool
  | .object _ => true
  | .ltoInput _ => true
  | _ => false

/-- What resolving a reference of a file does. -/
def Reference.effects (fileId : FileId) (f : InputFile) (ref : Reference) : List Effect :=
  resolveSymbol db ref.symbolId ref.attributes f.isDynamic fileId f.isLto

variable {db} {fileId : FileId}

/-! ## Files and groups -/

theorem file_group {f : InputFile} (h : db.file fileId = some f) :
    ∃ g, db.groups[fileId.group]? = some g ∧ g.files[fileId.file]? = some f := by
  unfold SymbolDb.file at h
  cases hg : db.groups[fileId.group]? with
  | none => rw [hg] at h; exact absurd h (by simp)
  | some g =>
    rw [hg] at h
    exact ⟨g, rfl, h⟩

theorem group_of_object (h : db.file fileId = some (.object o)) :
    ∃ files, db.groups[fileId.group]? = some (.objects files) ∧ files[fileId.file]? = some o := by
  obtain ⟨g, hg, hf⟩ := file_group h
  cases g with
  | objects files =>
    obtain ⟨o', ho, heq⟩ := List.getElem?_map .. ▸ hf |> Option.map_eq_some_iff.mp
    obtain rfl := InputFile.object.inj heq
    exact ⟨files, hg, ho⟩
  | _ => exact absurd (List.mem_of_getElem? hf) (by simp [Group.files])

theorem group_of_ltoInput {o : LtoInput} (h : db.file fileId = some (.ltoInput o)) :
    ∃ files, db.groups[fileId.group]? = some (.ltoInputs files) ∧ files[fileId.file]? = some o := by
  obtain ⟨g, hg, hf⟩ := file_group h
  cases g with
  | ltoInputs files =>
    obtain ⟨o', ho, heq⟩ := List.getElem?_map .. ▸ hf |> Option.map_eq_some_iff.mp
    obtain rfl := InputFile.ltoInput.inj heq
    exact ⟨files, hg, ho⟩
  | _ => exact absurd (List.mem_of_getElem? hf) (by simp [Group.files])

theorem workItems_object (h : db.file fileId = some (.object o)) (definitionsOut : List SymbolId) :
    workItems db fileId definitionsOut =
      chunkLoop fileId maxSymbolsPerWorkItem definitionsOut.length 0 definitionsOut := by
  obtain ⟨files, hgroup, -⟩ := group_of_object h
  unfold workItems
  rw [hgroup]

/-- A file that is no object has one work item. -/
theorem workItems_other {f : InputFile} (h : db.file fileId = some f) (hf : ∀ o, f ≠ .object o)
    (definitionsOut : List SymbolId) :
    workItems db fileId definitionsOut = [{ fileId, symbolStartOffset := 0, definitionsOut }] := by
  obtain ⟨g, hgroup, hmem⟩ := file_group h
  unfold workItems
  rw [hgroup]
  cases g with
  | objects files =>
    obtain ⟨o, -, rfl⟩ := List.mem_map.mp (List.mem_of_getElem? hmem)
    exact absurd rfl (hf o)
  | _ => rfl

/-- The work items of a file belong to it. -/
theorem workItems_fileId {definitionsOut : List SymbolId} {item : WorkItem}
    (h : item ∈ workItems db fileId definitionsOut) : item.fileId = fileId := by
  unfold workItems at h
  split at h
  · exact chunkLoop_fileId h
  · rw [List.mem_singleton.mp h]

/-! ## The effects of the work items of a file -/

/-- The effects of one resolved symbol are those of its reference. -/
theorem objectSymbolOutcome_effects {verneed : List (Option Bytes)} {index : Nat} {d : SymbolId} :
    (objectSymbolOutcome db fileId o verneed index (index % maxSymbolsPerWorkItem) d).1
      = (objectReference db fileId o verneed index d).toList.flatMap
          (Reference.effects db fileId (.object o)) := by
  by_cases hresolved : ∃ s, o.symbols[index]? = some s ∧ skipsSymbol o index s d = false
  · obtain ⟨s, hs, hskip⟩ := hresolved
    rw [objectSymbolOutcome_resolved (chunkIndex_le index) hs hskip]
    cases hn : s.name with
    | none => simp [objectReference, hs, hskip, hn]
    | some nameBytes =>
      simp only [objectReference, hs, hskip, hn, Option.bind_eq_bind, Option.bind_some,
        Bool.false_eq_true, if_false, Option.toList_some, List.flatMap_singleton]
      rfl
  · have hskip : ∀ s, o.symbols[index]? = some s → skipsSymbol o index s d = true := by
      intro s hs
      by_contra hnot
      exact hresolved ⟨s, hs, by simpa using hnot⟩
    rw [objectSymbolOutcome_skipped (chunkIndex_le index) hskip]
    unfold objectReference
    cases hs : o.symbols[index]? with
    | none => rfl
    | some s => simp [hskip s hs]

/-- Entry by entry. -/
theorem flatMap_mapIdx_congr {α β β' γ : Type} {f : Nat → α → β} {f' : Nat → α → β'} {g : β → List γ}
    {g' : β' → List γ} (h : ∀ i a, g (f i a) = g' (f' i a)) (l : List α) :
    (l.mapIdx f).flatMap g = (l.mapIdx f').flatMap g' := by
  rw [List.flatMap_def, List.flatMap_def]
  congr 1
  apply List.ext_getElem
  · simp
  · intro i h₁ h₂
    simp only [List.getElem_map, List.getElem_mapIdx]
    exact h i _

/-- The references of a list of symbols, one after another. -/
theorem flatMap_mapIdx_reduceOption {α β γ : Type} (f : Nat → α → Option β) (g : β → List γ) (l : List α) :
    (l.mapIdx f).reduceOption.flatMap g = (l.mapIdx f).flatMap (fun b => b.toList.flatMap g) := by
  generalize l.mapIdx f = bs
  induction bs with
  | nil => rfl
  | cons b bs ih =>
    cases b with
    | none => rw [List.reduceOption_cons_of_none, List.flatMap_cons, ih]; rfl
    | some b =>
      rw [List.reduceOption_cons_of_some, List.flatMap_cons, List.flatMap_cons, ih]
      simp

/-- **The work items of an object** do what its references do. -/
theorem object_effects (h : db.file fileId = some (.object o))
    (hok : ∀ item ∈ workItems db fileId (definitionSlice db fileId (.object o)), (processObject db item).2 = none) :
    (workItems db fileId (definitionSlice db fileId (.object o))).flatMap (fun w => (processObject db w).1)
      = (fileReferences db fileId (.object o)).flatMap (Reference.effects db fileId (.object o)) := by
  obtain ⟨files, hgroup, hfile⟩ := group_of_object h
  have hitems : (workItems db fileId (definitionSlice db fileId (.object o))).map (processObject db)
      = chunkedOutcomes db fileId o maxSymbolsPerWorkItem (definitionSlice db fileId (.object o)) := by
    unfold chunkedOutcomes
    rw [← workItems_object h]
    apply List.map_congr_left
    intro item hitem
    have hid := workItems_fileId hitem
    unfold processObject
    rw [hid, hgroup]
    simp only [hfile]
  have hflat : (workItems db fileId (definitionSlice db fileId (.object o))).flatMap
        (fun w => (processObject db w).1)
      = (chunkedOutcomes db fileId o maxSymbolsPerWorkItem
          (definitionSlice db fileId (.object o))).flatMap Prod.fst := by
    rw [← hitems, List.flatMap_map]
  have hok' : ∀ a ∈ chunkedOutcomes db fileId o maxSymbolsPerWorkItem
      (definitionSlice db fileId (.object o)), a.2 = none := by
    intro a ha
    rw [← hitems] at ha
    obtain ⟨item, hitem, rfl⟩ := List.mem_map.mp ha
    exact hok item hitem
  rw [hflat]
  unfold fileReferences objectReferences
  cases hv : o.verneedNamesByIndex with
  | error e =>
    -- every chunk would have failed
    obtain ⟨item, hitem⟩ : ∃ item, item ∈ chunkLoop fileId maxSymbolsPerWorkItem
        (definitionSlice db fileId (.object o)).length 0 (definitionSlice db fileId (.object o)) :=
      List.exists_mem_of_ne_nil _ chunkLoop_ne_nil
    have hfail := hok' _ (List.mem_map_of_mem hitem)
    rw [resolveSymbols_verneed_error hv] at hfail
    exact absurd hfail (by simp)
  | ok verneed =>
    have hpos : 0 < maxSymbolsPerWorkItem := by decide
    obtain ⟨groups, hchunked, hgroups⟩ :=
      chunkedOutcomes_eq db fileId (definitionSlice db fileId (.object o)) hpos hv
    rw [hchunked] at hok' ⊢
    rw [Outcome.map_sequence_effects ((Outcome.map_sequence_ok_iff _).mp hok'), hgroups]
    simp only [hv]
    rw [flatMap_mapIdx_reduceOption]
    apply flatMap_mapIdx_congr
    intro index d
    exact objectSymbolOutcome_effects

/-- The work item of a plugin input does what its references do. -/
theorem lto_effects {o : LtoInput} (h : db.file fileId = some (.ltoInput o)) :
    (workItems db fileId (definitionSlice db fileId (.ltoInput o))).flatMap (fun w => (processObject db w).1)
      = (fileReferences db fileId (.ltoInput o)).flatMap (Reference.effects db fileId (.ltoInput o)) := by
  obtain ⟨files, hgroup, hfile⟩ := group_of_ltoInput h
  have hitems := workItems_other h nofun (definitionSlice db fileId (.ltoInput o))
  have hprocess : processObject db { fileId := fileId, symbolStartOffset := 0
                                     definitionsOut := definitionSlice db fileId (.ltoInput o) }
      = (resolveLtoSymbols db fileId o (definitionSlice db fileId (.ltoInput o)), none) := by
    unfold processObject
    rw [hgroup]
    simp only [hfile]
  have hzip : (o.symbols.zip (definitionSlice db fileId (.ltoInput o))).mapIdx
        (fun i p => resolveLtoSymbol db fileId i p.1)
      = o.symbols.mapIdx (resolveLtoSymbol db fileId) := by
    have hlength : (definitionSlice db fileId (.ltoInput o)).length = o.symbols.length := by
      simp [definitionSlice, InputFile.numSymbols]
    apply List.ext_getElem
    · simp [hlength]
    · intro i h₁ h₂
      simp
  rw [hitems, List.flatMap_singleton, hprocess]
  show resolveLtoSymbols db fileId o _ = (o.symbols.mapIdx (ltoReference db fileId)).reduceOption.flatMap _
  unfold resolveLtoSymbols
  rw [hzip, flatMap_mapIdx_reduceOption, ← List.flatMap_id]
  apply flatMap_mapIdx_congr
  intro index s
  unfold resolveLtoSymbol ltoReference
  split_ifs
  · rfl
  · simp only [Option.toList_some, List.flatMap_singleton]
    rfl

/-- **The work items of a file that can be loaded** do what its references do, if none of them fails. -/
theorem workItems_effects {f : InputFile} (h : db.file fileId = some f) (hload : f.isLoadable = true)
    (hok : ∀ item ∈ workItems db fileId (definitionSlice db fileId f), (processObject db item).2 = none) :
    (workItems db fileId (definitionSlice db fileId f)).flatMap (fun w => (processObject db w).1)
      = (fileReferences db fileId f).flatMap (Reference.effects db fileId f) := by
  cases f with
  | object o => exact object_effects h hok
  | ltoInput o => exact lto_effects h
  | _ => exact absurd hload (by simp [InputFile.isLoadable])

/-! ## Facts about references -/

theorem mem_objectReferences {defs : List SymbolId} {ref : Reference} : ref ∈ objectReferences db fileId o defs ↔
      ∃ verneed index s nameBytes, o.verneedNamesByIndex = .ok verneed ∧ IsResolved o defs index s ∧
        s.name = some nameBytes ∧
        ref = { symbolId := db.symbolIdStart fileId + index
                attributes := attributesAt o verneed s nameBytes (index % maxSymbolsPerWorkItem) } := by
  unfold objectReferences
  cases hv : o.verneedNamesByIndex with
  | error e => simp
  | ok verneed =>
    simp only [List.reduceOption_mem_iff, List.mem_mapIdx]
    constructor
    · rintro ⟨index, hlt, href⟩
      unfold objectReference at href
      cases hs : o.symbols[index]? with
      | none => simp [hs] at href
      | some s =>
        simp only [hs, Option.bind_eq_bind, Option.bind_some] at href
        split_ifs at href with hskip
        cases hn : s.name with
        | none => simp [hn] at href
        | some nameBytes =>
          simp only [hn, Option.bind_some] at href
          exact ⟨verneed, index, s, nameBytes, rfl,
            ⟨hs, _, List.getElem?_eq_getElem hlt, by simpa using hskip⟩, hn,
            (Option.some.inj href).symm⟩
    · rintro ⟨verneed', index, s, nameBytes, hv', ⟨hs, d, hd, hskip⟩, hn, rfl⟩
      obtain rfl := Except.ok.inj hv'
      obtain ⟨hlt, hget⟩ := List.getElem?_eq_some_iff.mp hd
      refine ⟨index, hlt, ?_⟩
      rw [hget]
      simp [objectReference, hs, hskip, hn]

theorem mem_ltoReferences {o : LtoInput} {ref : Reference} :
    ref ∈ fileReferences db fileId (.ltoInput o) ↔
      ∃ index s, o.symbols[index]? = some s ∧ ltoReference db fileId index s = some ref := by
  unfold fileReferences
  rw [List.reduceOption_mem_iff, List.mem_mapIdx]
  constructor
  · rintro ⟨index, hlt, href⟩
    exact ⟨index, _, List.getElem?_eq_getElem hlt, href⟩
  · rintro ⟨index, s, hs, href⟩
    obtain ⟨hlt, hget⟩ := List.getElem?_eq_some_iff.mp hs
    exact ⟨index, hlt, by rw [hget]; exact href⟩

end Reld
