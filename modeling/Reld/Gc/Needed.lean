import Reld.Dynsym.Tables
import Reld.Gc.Workers
import Reld.Layout.OutputSections

/-!
# `Gc.Needed` — what the files do in the layout phase

The files of a group are activated and then process the work items that are sent to their group. Sections are loaded
when they are asked for, and a loaded section references symbols. The first reference to a symbol sends a request to the
file that defines it, which loads the symbol's section. What is shared between the groups are the flags of the symbols
and the sections that wait for a `__start_` or `__stop_` symbol.
-/

namespace Reld.Gc

open Tasks

structure SectionLoadRequest where
  fileId : FileId
  sectionIndex : Nat
deriving DecidableEq

/-- The sections of a group that have been loaded. -/
abbrev LoadedSections := List SectionLoadRequest

inductive WorkItem where
  | loadGlobalSymbol (symbolId : SymbolId)
  | copyRelocateSymbol (symbolId : SymbolId)
  | loadSection (request : SectionLoadRequest)
  | exportDynamic (symbolId : SymbolId)
deriving DecidableEq

/-- `ClassifiedSymbolRelocation`: the definition that a relocation refers to and the flags that it adds. The flags that
decide what it adds are not changed in this phase. -/
structure Reference where
  symbolId : SymbolId
  flagsToAdd : ValueFlags

/-- The accesses to what the groups share. -/
inductive Access where
  /-- `note_relocation_symbol_reference` up to the first change of the flags. -/
  | reference (reference : Reference)
  /-- The flags that it adds for an ifunc of a static executable. -/
  | ifuncFlags (symbolId : SymbolId)
  /-- A symbol that is needed apart from any relocation. -/
  | request (symbolId : SymbolId)
  /-- `or_assign`. -/
  | mark (symbolId : SymbolId) (flag : Flag)
  /-- The change of the flags in `export_dynamic` and `load_non_hidden_symbols`. -/
  | exportDynamic (symbolId : SymbolId)
  /-- A section waits for the symbols of its output section. -/
  | pushStartStop (sectionId : OutputSectionId) (request : SectionLoadRequest)
  | popStartStop (sectionId : OutputSectionId)

abbrev GcAction := Action WorkItem Access

/-- The part of `GraphResources` that the files access. -/
structure GraphState where
  flags : SymbolId → ValueFlags
  startStopSections : OutputSectionId → List SectionLoadRequest := fun _ => []

/-! ## Files -/

/-- `SectionSlot`, before anything is loaded. -/
inductive SectionSlot where
  | discard
  | unloaded (startStopEligible : Bool)
  | mustLoad
  | mergeStrings
  | unloadedDebugInfo
  /-- Frame data, a property note or the RISC-V attributes. -/
  | metadata
deriving DecidableEq

structure GcSection where
  slot : SectionSlot
  outputSectionId : OutputSectionId
  size : Nat := 0
  /-- What the relocations refer to; `none` is a relocation that is not supported. -/
  references : Option (List Reference) := some []
  /-- What the frames of the section refer to. -/
  frameReferences : Option (List Reference) := some []

/-- A symbol of an object. -/
structure GcSymbol where
  sectionIndex : Option Nat := none
  isUndefined : Bool := false
  isLocal : Bool := false
  isHidden : Bool := false
  /-- Whether the export list has its name. -/
  inExportList : Bool := false

structure GcObject where
  sections : List GcSection
  /-- `symbol_id_range`. -/
  startSymbolId : SymbolId
  symbols : List GcSymbol
  /-- What the relocations of the CIEs refer to. -/
  cieReferences : List Reference := []
  hasArchiveSemantics : Bool := false
  shouldExportDynamic : Bool := false

def GcObject.symbol (o : GcObject) (symbolId : SymbolId) : Option GcSymbol :=
  if o.startSymbolId ≤ symbolId then o.symbols[symbolId - o.startSymbolId]? else none

def GcObject.isDiscarded (o : GcObject) (sym : GcSymbol) : Bool :=
  (sym.sectionIndex.bind (o.sections[·]?)).any (·.slot = .discard)

/-- `SymbolPlacement`. -/
inductive SymbolPlacement where
  | forceUndefined
  /-- The symbols that the names in the expression stand for. -/
  | redirect (targets : List SymbolId)
  | other

/-- `InternalSymDefInfo`. -/
structure InternalSymDefInfo where
  placement : SymbolPlacement := .other
  isHidden : Bool := false
  sectionId : Option OutputSectionId := none

structure InternalSymbols where
  startSymbolId : SymbolId
  symbolDefinitions : List InternalSymDefInfo

/-- `FileLayoutState`; the epilogue is made when this phase is over. -/
inductive GcFile where
  | object (o : GcObject)
  | prelude (entrySymbol : Option SymbolId) (symbols : InternalSymbols)
  | dynamic (symbolIds : List SymbolId)
  | linkerScript (symbols : InternalSymbols)
  | stubLibrary
  | notLoaded
  | syntheticSymbols (symbols : InternalSymbols)

def InternalSymbols.symbolIds (s : InternalSymbols) : List SymbolId :=
  (List.range s.symbolDefinitions.length).map (s.startSymbolId + ·)

/-- The symbols of a file that it marks itself. -/
def GcFile.symbolIds : GcFile → List SymbolId
  | .object o => (List.range o.symbols.length).map (o.startSymbolId + ·)
  | .prelude _ symbols | .linkerScript symbols | .syntheticSymbols symbols => symbols.symbolIds
  | .dynamic symbolIds => symbolIds
  | .stubLibrary | .notLoaded => []

/-- The input of the phase: the groups of files, what the symbol database says and the arguments. -/
structure GcInputs where
  groups : List (List GcFile)
  definition : SymbolId → SymbolId
  fileIdForSymbol : SymbolId → FileId
  flags : SymbolId → ValueFlags
  outputKind : OutputKind
  shouldGcSections : Bool
  exportAllDynamicSymbols : Bool
  hasExportList : Bool
  /-- The ranges of the symbol ids are disjoint. -/
  file_of_symbol : ∀ g files f file, groups[g]? = some files → files[f]? = some file → ∀ s ∈ file.symbolIds,
    fileIdForSymbol s = ⟨g, f⟩
  group_lt : ∀ s, (fileIdForSymbol s).group < groups.length

namespace GcInputs

variable (G : GcInputs)

def file (fileId : FileId) : Option GcFile := G.groups[fileId.group]?.bind (·[fileId.file]?)

def isCanonical (symbolId : SymbolId) : Bool := G.definition symbolId == symbolId

/-! ## Activation -/

/-- `load_redirect_referenced_symbols`. -/
def loadRedirectReferencedSymbols (symbolId : SymbolId) (targets : List SymbolId) : List GcAction :=
  .access (.mark symbolId .direct) :: targets.map fun target => .access (.request (G.definition target))

/-- `mark_defsyms_as_used`, for one symbol. -/
def markDefsymAsUsed (symbolId : SymbolId) (info : InternalSymDefInfo) : List GcAction :=
  match info.placement with
  | .forceUndefined =>
    let canonicalId := G.definition symbolId
    if canonicalId ≠ symbolId ∧ canonicalId ≠ 0 then [.access (.request canonicalId)] else []
  | .redirect targets => if G.isCanonical symbolId then G.loadRedirectReferencedSymbols symbolId targets else []
  | .other => []

/-- `activate_symbols`, for one symbol. -/
def activateSymbol (symbolId : SymbolId) (info : InternalSymDefInfo) : List GcAction :=
  if !G.isCanonical symbolId || info.isHidden then []
  else
    (match info.placement with
      | .redirect targets => G.loadRedirectReferencedSymbols symbolId targets
      | _ => []) ++ [.access (.mark symbolId .exportDynamic)]

/-- For each symbol of the linker. -/
def forSymbols (symbols : InternalSymbols) (f : SymbolId → InternalSymDefInfo → List GcAction) : List GcAction :=
  symbols.symbolDefinitions.zipIdx.flatMap fun (info, index) => f (symbols.startSymbolId + index) info

/-- What the activation of an object does with a section. -/
def activateSection (fileId : FileId) (index : Nat) (section_ : GcSection) : List GcAction :=
  match section_.slot with
  | .mustLoad | .unloadedDebugInfo | .mergeStrings => [.send (.loadSection ⟨fileId, index⟩)]
  | .unloaded startStopEligible =>
    if !G.shouldGcSections then [.send (.loadSection ⟨fileId, index⟩)]
    else if startStopEligible then [.access (.pushStartStop section_.outputSectionId ⟨fileId, index⟩)]
    else []
  | .discard | .metadata => []

def canExportSymbol (sym : GcSymbol) (symbolId : SymbolId) (exportAllDynamic : Bool) : Bool :=
  !(sym.isUndefined || sym.isLocal) && !sym.isHidden && G.isCanonical symbolId &&
    !(G.flags symbolId).isDowngradedToLocal && (exportAllDynamic || !G.hasExportList || sym.inExportList)

/-- `load_non_hidden_symbols`, for one symbol. -/
def loadNonHiddenSymbol (o : GcObject) (exportAllDynamic : Bool) (sym : GcSymbol) (symbolId : SymbolId) : List GcAction :=
  if o.isDiscarded sym || !G.canExportSymbol sym symbolId exportAllDynamic then []
  else [.access (.exportDynamic symbolId)]

/-- `ObjectLayoutState::activate`. -/
def activateObject (fileId : FileId) (o : GcObject) : List GcAction :=
  let exportAllDynamic :=
    G.outputKind.isSharedObject && (!o.hasArchiveSemantics || o.shouldExportDynamic) ||
      Dynsym.needsDynsym G.outputKind && G.exportAllDynamicSymbols
  (o.sections.zipIdx.flatMap fun (section_, index) => G.activateSection fileId index section_) ++
    o.cieReferences.map (fun reference => .access (.reference reference)) ++
    if exportAllDynamic || Dynsym.needsDynsym G.outputKind && G.hasExportList then
      o.symbols.zipIdx.flatMap fun (sym, index) =>
        G.loadNonHiddenSymbol o exportAllDynamic sym (o.startSymbolId + index)
    else []

/-- `request_all_undefined_symbols`, for one symbol of a shared object. -/
def requestUndefinedSymbol (symbolId : SymbolId) : List GcAction :=
  let definitionId := G.definition symbolId
  if (G.flags definitionId).isDynamic && (G.flags definitionId).isAbsolute then []
  else if definitionId ≠ symbolId then [.send (.exportDynamic definitionId)]
  else []

/-- `activate`. -/
def activateFile (fileId : FileId) : GcFile → List GcAction
  | .object o => G.activateObject fileId o
  | .prelude entrySymbol symbols =>
    (entrySymbol.map fun symbolId => .access (.request (G.definition symbolId))).toList ++
      forSymbols symbols G.markDefsymAsUsed
  | .dynamic symbolIds => symbolIds.flatMap G.requestUndefinedSymbol
  | .linkerScript symbols => forSymbols symbols G.activateSymbol
  | .stubLibrary | .notLoaded | .syntheticSymbols _ => []

def filesOf (g : Nat) : List GcFile := G.groups[g]?.getD []

def activate (g : Nat) : List GcAction :=
  (G.filesOf g).zipIdx.flatMap fun (file, f) => G.activateFile ⟨g, f⟩ file

def isSyntheticSymbols : GcFile → Bool
  | .syntheticSymbols _ => true
  | _ => false

def shouldDelayProcessing (g : Nat) : Bool := (G.filesOf g).any isSyntheticSymbols

/-! ## Work -/

/-- `WorkItem::file_id`. -/
def fileId : WorkItem → FileId
  | .loadGlobalSymbol symbolId | .copyRelocateSymbol symbolId | .exportDynamic symbolId => G.fileIdForSymbol symbolId
  | .loadSection request => request.fileId

/-- `load_symbol` of an object. -/
def loadSymbol (fileId : FileId) (sym : GcSymbol) : List GcAction :=
  (sym.sectionIndex.map fun index => .send (.loadSection ⟨fileId, index⟩)).toList

/-- `handle_symbol_request`. -/
def handleSymbolRequest (symbolId : SymbolId) : GcFile → Option (List GcAction)
  | .object o => (o.symbol symbolId).map (loadSymbol (G.fileIdForSymbol symbolId))
  | .syntheticSymbols symbols =>
    symbols.symbolDefinitions[symbolId - symbols.startSymbolId]?.map fun info =>
      (info.sectionId.map fun sectionId => .access (.popStartStop sectionId)).toList
  | .prelude _ _ | .dynamic _ | .linkerScript _ | .stubLibrary | .notLoaded => some []

/-- What `load_section` refers to. -/
def sectionReferences (section_ : GcSection) : Option (List Reference) := do
  let references ← section_.references
  let frameReferences ← if section_.size > 0 then section_.frameReferences else some []
  return references ++ frameReferences

/-- `handle_section_load_request`. -/
def handleSectionLoadRequest (request : SectionLoadRequest) (loaded : LoadedSections) (o : GcObject) :
    Option (LoadedSections × List GcAction) := do
  let section_ ← o.sections[request.sectionIndex]?
  if request ∈ loaded then return (loaded, [])
  match section_.slot with
  | .unloaded _ | .mustLoad => do
    let references ← sectionReferences section_
    return (request :: loaded, references.map fun reference => .access (.reference reference))
  | .unloadedDebugInfo => return (request :: loaded, [])
  | .discard => none
  | .metadata | .mergeStrings => return (loaded, [])

/-- `export_dynamic`, up to the change of the flags. -/
def exportDynamic (o : GcObject) (symbolId : SymbolId) : Option (List GcAction) :=
  (o.symbol symbolId).map fun sym => G.loadNonHiddenSymbol o true sym symbolId

/-- `FileLayoutState::do_work`. -/
def doWork (item : WorkItem) (loaded : LoadedSections) : Option (LoadedSections × List GcAction) := do
  let file ← G.file (G.fileId item)
  match item, file with
  | .loadGlobalSymbol symbolId, file => return (loaded, ← G.handleSymbolRequest symbolId file)
  | .copyRelocateSymbol _, .dynamic _ => return (loaded, [])
  | .copyRelocateSymbol _, _ => none
  | .loadSection request, .object o => handleSectionLoadRequest request loaded o
  | .loadSection _, _ => none
  | .exportDynamic symbolId, .object o => return (loaded, ← G.exportDynamic o symbolId)
  | .exportDynamic _, _ => return (loaded, [])

/-! ## Accesses -/

/-- The section that `load_symbol` asks for when the symbol is exported. -/
def sectionOf (symbolId : SymbolId) : Option SectionLoadRequest :=
  match G.file (G.fileIdForSymbol symbolId) with
  | some (.object o) => do
    let sym ← o.symbol symbolId
    let index ← sym.sectionIndex
    return ⟨G.fileIdForSymbol symbolId, index⟩
  | _ => none

/-- `fetch_or`. -/
def fetchOr (state : GraphState) (symbolId : SymbolId) (flags : ValueFlags) : GraphState :=
  { state with flags := Function.update state.flags symbolId ((state.flags symbolId).union flags) }

/-- What a reference adds to a symbol that has no resolution yet. -/
def firstReference (symbolId : SymbolId) : List GcAction :=
  (if (G.flags symbolId).isIfunc && G.outputKind.isStaticExecutable then [.access (.ifuncFlags symbolId)] else []) ++
    [.send (.loadGlobalSymbol symbolId)]

def access : Access → GraphState → GraphState × List GcAction
  | .reference reference, state =>
    let previousFlags := state.flags reference.symbolId
    (fetchOr state reference.symbolId reference.flagsToAdd,
      (if previousFlags.hasResolution then [] else G.firstReference reference.symbolId) ++
        if reference.flagsToAdd.needsCopyRelocation && !previousFlags.needsCopyRelocation then
          [.send (.copyRelocateSymbol reference.symbolId)] else [])
  | .ifuncFlags symbolId, state => (fetchOr state symbolId (.ofList [.got, .plt]), [])
  | .request symbolId, state =>
    (fetchOr state symbolId (.ofList [.direct]),
      if (state.flags symbolId).hasResolution then [] else [.send (.loadGlobalSymbol symbolId)])
  | .mark symbolId flag, state => (fetchOr state symbolId (.ofList [flag]), [])
  | .exportDynamic symbolId, state =>
    (fetchOr state symbolId (.ofList [.exportDynamic]),
      if (state.flags symbolId).hasResolution then []
      else ((G.sectionOf symbolId).map fun request => .send (.loadSection request)).toList)
  | .pushStartStop sectionId request, state =>
    ({ state with startStopSections :=
        Function.update state.startStopSections sectionId (state.startStopSections sectionId ++ [request]) }, [])
  | .popStartStop sectionId, state =>
    match state.startStopSections sectionId with
    | [] => (state, [])
    | request :: requests =>
      ({ state with startStopSections := Function.update state.startStopSections sectionId requests },
        [.sendToSlot (.loadSection request), .access (.popStartStop sectionId)])

/-- The phase as a program of the workers. -/
def program : Program WorkItem LoadedSections Access GraphState where
  numGroups := G.groups.length
  group := fun item => (G.fileId item).group
  create := fun _ => []
  activate := G.activate
  delays := G.shouldDelayProcessing
  doWork := G.doWork
  access := G.access

/-- `find_required_sections`: a thread for each group. -/
def initial : Config (GraphResources WorkItem LoadedSections Access GraphState) (WorkerTask WorkItem LoadedSections Access) :=
  G.program.initial { flags := G.flags }

end GcInputs

end Reld.Gc

/-!
# What is needed

The least set of accesses, definitions and items that the activations ask for and that what is needed asks for in turn
(`Needed`). It says nothing about an order: the flags that decide who sends a request do not occur in it, only what they
were before the phase. The results of `do_work` are brought into the same form (`doWork_actions`, `mem_doWork`).
-/

variable {request : SectionLoadRequest}

namespace Reld.Gc

variable (G : GcInputs)

/-! ## What an item asks for -/

namespace GcInputs

/-- The output section of a `__start_` or `__stop_` symbol. -/
def startStopOf (symbolId : SymbolId) : Option OutputSectionId :=
  match G.file (G.fileIdForSymbol symbolId) with
  | some (.syntheticSymbols symbols) => symbols.symbolDefinitions[symbolId - symbols.startSymbolId]?.bind (·.sectionId)
  | _ => none

def gcSection (request : SectionLoadRequest) : Option GcSection :=
  match G.file request.fileId with
  | some (.object o) => o.sections[request.sectionIndex]?
  | _ => none

/-- Whether a section is loaded when it is asked for. -/
def Loads (request : SectionLoadRequest) : Prop :=
  ∃ section_, G.gcSection request = some section_ ∧ (section_.slot = .unloadedDebugInfo ∨ section_.slot = .mustLoad ∨
    ∃ startStopEligible, section_.slot = .unloaded startStopEligible)

/-- What a section refers to when it is loaded. -/
def referencesOf (request : SectionLoadRequest) : List Reference :=
  match G.gcSection request with
  | none => []
  | some section_ =>
    match section_.slot with
    | .unloaded _ | .mustLoad => (sectionReferences section_).getD []
    | _ => []

/-- Whether a request to export a symbol does so. -/
def exports (symbolId : SymbolId) : Bool :=
  match G.file (G.fileIdForSymbol symbolId) with
  | some (.object o) =>
    (o.symbol symbolId).any fun sym => !(o.isDiscarded sym || !G.canExportSymbol sym symbolId true)
  | _ => false

/-- What an item asks for when it is processed first. -/
def workActions : WorkItem → List GcAction
  | .loadGlobalSymbol symbolId =>
    ((G.sectionOf symbolId).map fun request => .send (.loadSection request)).toList ++
      ((G.startStopOf symbolId).map fun sectionId => .access (.popStartStop sectionId)).toList
  | .copyRelocateSymbol _ => []
  | .loadSection request => (G.referencesOf request).map fun reference => .access (.reference reference)
  | .exportDynamic symbolId => if G.exports symbolId then [.access (.exportDynamic symbolId)] else []

end GcInputs

variable {G} {loaded loaded' : LoadedSections} {item : WorkItem} {actions : List GcAction} {a : GcAction}

/-- What a section load does. -/
theorem doWork_loadSection (h : G.doWork (.loadSection request) loaded = some (loaded', actions)) :
    (request ∉ loaded ∧ G.Loads request ∧ loaded' = request :: loaded ∧ actions = G.workActions (.loadSection request)) ∨
      (request ∈ loaded ∧ loaded' = loaded ∧ actions = []) ∨
        (¬ G.Loads request ∧ loaded' = loaded ∧ actions = [] ∧ G.workActions (.loadSection request) = []) := by
  obtain ⟨file, hfile, h⟩ := Option.bind_eq_some_iff.1 h
  simp only [GcInputs.fileId] at hfile
  cases file with
  | object o =>
    obtain ⟨section_, hsection, h⟩ := Option.bind_eq_some_iff.1 h
    have hgc : G.gcSection request = some section_ := by
      unfold GcInputs.gcSection
      rw [hfile]
      exact hsection
    by_cases hloaded : request ∈ loaded
    · rw [if_pos hloaded] at h
      cases h
      exact Or.inr (Or.inl ⟨hloaded, rfl, rfl⟩)
    · rw [if_neg hloaded] at h
      have hreferences : G.referencesOf request = match section_.slot with
          | .unloaded _ | .mustLoad => (GcInputs.sectionReferences section_).getD []
          | _ => [] := by
        unfold GcInputs.referencesOf
        rw [hgc]
      cases hslot : section_.slot with
      | discard =>
        rw [hslot] at h
        cases h
      | unloaded startStopEligible =>
        rw [hslot] at h hreferences
        obtain ⟨references, hrefs, h⟩ := Option.bind_eq_some_iff.1 h
        cases h
        refine Or.inl ⟨hloaded, ⟨section_, hgc, Or.inr (Or.inr ⟨_, hslot⟩)⟩, rfl, ?_⟩
        simp [GcInputs.workActions, hreferences, hrefs]
      | mustLoad =>
        rw [hslot] at h hreferences
        obtain ⟨references, hrefs, h⟩ := Option.bind_eq_some_iff.1 h
        cases h
        refine Or.inl ⟨hloaded, ⟨section_, hgc, Or.inr (Or.inl hslot)⟩, rfl, ?_⟩
        simp [GcInputs.workActions, hreferences, hrefs]
      | unloadedDebugInfo =>
        rw [hslot] at h hreferences
        cases h
        refine Or.inl ⟨hloaded, ⟨section_, hgc, Or.inl hslot⟩, rfl, ?_⟩
        simp [GcInputs.workActions, hreferences]
      | mergeStrings | metadata =>
        rw [hslot] at h hreferences
        cases h
        refine Or.inr (Or.inr ⟨?_, rfl, rfl, by simp only [GcInputs.workActions, hreferences, List.map_nil]⟩)
        rintro ⟨section', hsection', hloads⟩
        rw [hgc] at hsection'
        cases hsection'
        simp [hslot] at hloads
  | prelude _ _ => cases h
  | dynamic _ => cases h
  | linkerScript _ => cases h
  | stubLibrary => cases h
  | notLoaded => cases h
  | syntheticSymbols _ => cases h

/-- Other items leave the sections alone. -/
theorem doWork_other (hitem : ∀ request, item ≠ .loadSection request)
    (h : G.doWork item loaded = some (loaded', actions)) : loaded' = loaded ∧ actions = G.workActions item := by
  obtain ⟨file, hfile, h⟩ := Option.bind_eq_some_iff.1 h
  cases item with
  | loadSection request => exact absurd rfl (hitem request)
  | loadGlobalSymbol symbolId =>
    simp only [GcInputs.fileId] at hfile
    obtain ⟨actions', hactions, h⟩ := Option.bind_eq_some_iff.1 h
    cases h
    refine ⟨rfl, ?_⟩
    cases file with
    | object o =>
      obtain ⟨sym, hsym, rfl⟩ := Option.map_eq_some_iff.1 hactions
      simp only [GcInputs.workActions, GcInputs.sectionOf, GcInputs.startStopOf, hfile, hsym, GcInputs.loadSymbol]
      cases hindex : sym.sectionIndex <;> simp [hindex]
    | syntheticSymbols symbols =>
      obtain ⟨info, hinfo, rfl⟩ := Option.map_eq_some_iff.1 hactions
      simp only [GcInputs.workActions, GcInputs.sectionOf, GcInputs.startStopOf, hfile, hinfo, Option.map_none,
        Option.toList_none, List.nil_append, Option.bind_some]
    | prelude _ _ | dynamic _ | linkerScript _ | stubLibrary | notLoaded =>
      cases hactions
      simp [GcInputs.workActions, GcInputs.sectionOf, GcInputs.startStopOf, hfile]
  | copyRelocateSymbol symbolId =>
    cases file with
    | dynamic _ =>
      cases h
      exact ⟨rfl, rfl⟩
    | _ => cases h
  | exportDynamic symbolId =>
    simp only [GcInputs.fileId] at hfile
    cases file with
    | object o =>
      obtain ⟨actions', hactions, h⟩ := Option.bind_eq_some_iff.1 h
      cases h
      obtain ⟨sym, hsym, rfl⟩ := Option.map_eq_some_iff.1 hactions
      refine ⟨rfl, ?_⟩
      simp only [GcInputs.workActions, GcInputs.exports, hfile, hsym, Option.any_some, GcInputs.loadNonHiddenSymbol]
      cases o.isDiscarded sym || !G.canExportSymbol sym symbolId true <;> rfl
    | _ =>
      cases h
      simp [GcInputs.workActions, GcInputs.exports, hfile]

/-- An item asks for what it asks for first, unless its section is there already. -/
theorem doWork_actions (h : G.doWork item loaded = some (loaded', actions)) :
    actions = G.workActions item ∨ actions = [] ∧ ∃ request ∈ loaded, item = .loadSection request := by
  by_cases hitem : ∃ request, item = .loadSection request
  · obtain ⟨request, rfl⟩ := hitem
    rcases doWork_loadSection h with ⟨-, -, -, hactions⟩ | ⟨hloaded, -, hactions⟩ | ⟨-, -, hactions, hnone⟩
    · exact Or.inl hactions
    · exact Or.inr ⟨hactions, request, hloaded, rfl⟩
    · exact Or.inl (hactions.trans hnone.symm)
  · exact Or.inl (doWork_other (fun request h' => hitem ⟨request, h'⟩) h).2

/-- The sections that are loaded behind an item. -/
theorem mem_doWork (h : G.doWork item loaded = some (loaded', actions)) :
    request ∈ loaded' ↔ request ∈ loaded ∨ item = .loadSection request ∧ G.Loads request := by
  by_cases hitem : ∃ request, item = .loadSection request
  · obtain ⟨request', rfl⟩ := hitem
    rcases doWork_loadSection h with ⟨-, hloads, rfl, -⟩ | ⟨hloaded, rfl, -⟩ | ⟨hnot, rfl, -⟩
    · rw [List.mem_cons]
      constructor
      · rintro (rfl | hmem)
        · exact Or.inr ⟨rfl, hloads⟩
        · exact Or.inl hmem
      · rintro (hmem | ⟨heq, -⟩)
        · exact Or.inr hmem
        · cases heq
          exact Or.inl rfl
    · refine ⟨Or.inl, ?_⟩
      rintro (hmem | ⟨heq, -⟩)
      · exact hmem
      · cases heq
        exact hloaded
    · refine ⟨Or.inl, ?_⟩
      rintro (hmem | ⟨heq, hloads⟩)
      · exact hmem
      · cases heq
        exact absurd hloads hnot
  · obtain ⟨rfl, -⟩ := doWork_other (fun request h' => hitem ⟨request, h'⟩) h
    exact ⟨Or.inl, fun h' => h'.elim id fun h' => absurd ⟨request, h'.1⟩ hitem⟩

/-! ## Activations -/

/-- The actions of an activation: no definition is requested without a look at its flags, no start or stop symbol is
loaded, and the flags that are set or exported belong to symbols of the file. -/
def GcInputs.ActivationAction (G : GcInputs) (g : Nat) : GcAction → Prop
  | .send (.loadSection request) => request.fileId.group = g
  | .send (.exportDynamic _) => True
  | .access (.reference _) | .access (.request _) => True
  | .access (.mark symbolId _) => G.sectionOf symbolId = none ∧ G.startStopOf symbolId = none
  | .access (.exportDynamic symbolId) => G.startStopOf symbolId = none
  | .access (.pushStartStop _ request) => request.fileId.group = g
  | _ => False

section

variable {g f : Nat} {files : List GcFile} {file : GcFile} {s : SymbolId}

theorem file_of_own (hfiles : G.groups[g]? = some files) (hfile : files[f]? = some file) (hs : s ∈ file.symbolIds) :
    G.file (G.fileIdForSymbol s) = some file := by
  rw [G.file_of_symbol g files f file hfiles hfile s hs]
  simp [GcInputs.file, hfiles, hfile]

theorem mem_forSymbols {symbols : InternalSymbols} {act : SymbolId → InternalSymDefInfo → List GcAction}
    (h : a ∈ GcInputs.forSymbols symbols act) : ∃ symbolId ∈ symbols.symbolIds, ∃ info, a ∈ act symbolId info := by
  obtain ⟨⟨info, index⟩, hmem, ha⟩ := List.mem_flatMap.1 h
  have hlt := (List.getElem?_eq_some_iff.1 (List.mk_mem_zipIdx_iff_getElem?.1 hmem)).1
  exact ⟨symbols.startSymbolId + index, List.mem_map.2 ⟨index, List.mem_range.2 hlt, rfl⟩, info, ha⟩

theorem redirect_action {targets : List SymbolId} (hsection : G.sectionOf s = none) (hstartStop : G.startStopOf s = none)
    (h : a ∈ G.loadRedirectReferencedSymbols s targets) : G.ActivationAction g a := by
  rcases List.mem_cons.1 h with rfl | h
  · exact ⟨hsection, hstartStop⟩
  · obtain ⟨target, -, rfl⟩ := List.mem_map.1 h
    trivial

theorem activateObject_action {o : GcObject} (hfiles : G.groups[g]? = some files)
    (hfile : files[f]? = some (.object o)) (h : a ∈ G.activateObject ⟨g, f⟩ o) : G.ActivationAction g a := by
  rcases List.mem_append.1 h with h | h
  · rcases List.mem_append.1 h with h | h
    · obtain ⟨⟨section_, index⟩, -, h⟩ := List.mem_flatMap.1 h
      simp only [GcInputs.activateSection] at h
      split at h
      · obtain rfl := List.mem_singleton.1 h
        rfl
      · obtain rfl := List.mem_singleton.1 h
        rfl
      · obtain rfl := List.mem_singleton.1 h
        rfl
      · split at h
        · obtain rfl := List.mem_singleton.1 h
          rfl
        · split at h
          · obtain rfl := List.mem_singleton.1 h
            rfl
          · cases h
      · cases h
      · cases h
    · obtain ⟨reference, -, rfl⟩ := List.mem_map.1 h
      trivial
  · split at h
    · obtain ⟨⟨sym, index⟩, hmem, h⟩ := List.mem_flatMap.1 h
      simp only [GcInputs.loadNonHiddenSymbol] at h
      split at h
      · cases h
      · obtain rfl := List.mem_singleton.1 h
        -- the symbol is one of the object, so it is no start or stop symbol
        have hlt := (List.getElem?_eq_some_iff.1 (List.mk_mem_zipIdx_iff_getElem?.1 hmem)).1
        have hown := file_of_own hfiles hfile (s := o.startSymbolId + index)
          (List.mem_map.2 ⟨index, List.mem_range.2 hlt, rfl⟩)
        simp only [GcInputs.ActivationAction, GcInputs.startStopOf, hown]
    · cases h

theorem activateFile_action (hfiles : G.groups[g]? = some files) (hfile : files[f]? = some file)
    (h : a ∈ G.activateFile ⟨g, f⟩ file) : G.ActivationAction g a := by
  cases file with
  | object o => exact activateObject_action hfiles hfile h
  | prelude entrySymbol symbols =>
    rcases List.mem_append.1 h with h | h
    · obtain ⟨symbolId, -, rfl⟩ := Option.map_eq_some_iff.1 (Option.mem_toList.1 h)
      trivial
    · obtain ⟨symbolId, hs, info, h⟩ := mem_forSymbols h
      have hown := file_of_own hfiles hfile hs
      unfold GcInputs.markDefsymAsUsed at h
      split at h
      · simp only at h
        split at h
        · obtain rfl := List.mem_singleton.1 h
          trivial
        · cases h
      · split at h
        · apply redirect_action _ _ h
          · simp only [GcInputs.sectionOf, hown]
          · simp only [GcInputs.startStopOf, hown]
        · cases h
      · cases h
  | dynamic symbolIds =>
    obtain ⟨symbolId, -, h⟩ := List.mem_flatMap.1 h
    simp only [GcInputs.requestUndefinedSymbol] at h
    split at h
    · cases h
    · split at h
      · obtain rfl := List.mem_singleton.1 h
        trivial
      · cases h
  | linkerScript symbols =>
    obtain ⟨symbolId, hs, info, h⟩ := mem_forSymbols h
    have hown := file_of_own hfiles hfile hs
    have hsection : G.sectionOf symbolId = none := by simp only [GcInputs.sectionOf, hown]
    have hstartStop : G.startStopOf symbolId = none := by simp only [GcInputs.startStopOf, hown]
    unfold GcInputs.activateSymbol at h
    split at h
    · cases h
    · rcases List.mem_append.1 h with h | h
      · split at h
        · exact redirect_action hsection hstartStop h
        · cases h
      · obtain rfl := List.mem_singleton.1 h
        exact ⟨hsection, hstartStop⟩
  | stubLibrary => cases h
  | notLoaded => cases h
  | syntheticSymbols symbols => cases h

theorem activate_action (h : a ∈ G.activate g) : G.ActivationAction g a := by
  obtain ⟨⟨file, f⟩, hmem, h⟩ := List.mem_flatMap.1 h
  have hfile := List.mk_mem_zipIdx_iff_getElem?.1 hmem
  unfold GcInputs.filesOf at hfile
  cases hfiles : G.groups[g]? with
  | none =>
    rw [hfiles] at hfile
    cases hfile
  | some files =>
    rw [hfiles, Option.getD_some] at hfile
    exact activateFile_action hfiles hfile h

end

/-! ## The closure -/

/-- The symbol whose definition an access asks for. -/
def Access.asks : Access → Option SymbolId
  | .reference ref => some ref.symbolId
  | .request symbolId | .exportDynamic symbolId => some symbolId
  | _ => none

inductive Fact where
  | access (a : Access)
  | definition (symbolId : SymbolId)
  | item (item : WorkItem)

/-- What is needed, in any order. -/
inductive Needed (G : GcInputs) : Fact → Prop where
  | activated {g : Nat} {a : Access} (hg : g < G.groups.length) (h : .access a ∈ G.activate g) : Needed G (.access a)
  | sent {g : Nat} {item : WorkItem} (hg : g < G.groups.length) (h : .send item ∈ G.activate g) : Needed G (.item item)
  | definition {a : Access} {symbolId : SymbolId} (h : Needed G (.access a)) (hasks : a.asks = some symbolId)
      (hnone : (G.flags symbolId).hasResolution = false) : Needed G (.definition symbolId)
  | section_ {symbolId : SymbolId} {request : SectionLoadRequest} (h : Needed G (.definition symbolId))
      (hsection : G.sectionOf symbolId = some request) : Needed G (.item (.loadSection request))
  | startStop {symbolId : SymbolId} {sectionId : OutputSectionId} (h : Needed G (.definition symbolId))
      (hsection : G.startStopOf symbolId = some sectionId) : Needed G (.access (.popStartStop sectionId))
  | popped {sectionId : OutputSectionId} {request : SectionLoadRequest}
      (hpop : Needed G (.access (.popStartStop sectionId)))
      (hpush : Needed G (.access (.pushStartStop sectionId request))) : Needed G (.item (.loadSection request))
  | referenced {request : SectionLoadRequest} {reference : Reference} (h : Needed G (.item (.loadSection request)))
      (href : reference ∈ G.referencesOf request) : Needed G (.access (.reference reference))
  | exported {symbolId : SymbolId} (h : Needed G (.item (.exportDynamic symbolId)))
      (hexports : G.exports symbolId = true) : Needed G (.access (.exportDynamic symbolId))

/-- The sections have a group, and only own symbols are marked and exported. -/
def GcInputs.Valid (G : GcInputs) : Fact → Prop
  | .access (.mark symbolId _) => G.sectionOf symbolId = none ∧ G.startStopOf symbolId = none
  | .access (.exportDynamic symbolId) => G.startStopOf symbolId = none
  | .access (.pushStartStop _ request) | .item (.loadSection request) => request.fileId.group < G.groups.length
  | _ => True

theorem startStopOf_of_exports {s : SymbolId} (h : G.exports s = true) : G.startStopOf s = none := by
  unfold GcInputs.exports at h
  unfold GcInputs.startStopOf
  split at h
  · rename_i hfile
    rw [hfile]
  · cases h

theorem fileId_of_sectionOf {s : SymbolId} (h : G.sectionOf s = some request) :
    request.fileId = G.fileIdForSymbol s := by
  unfold GcInputs.sectionOf at h
  split at h
  · obtain ⟨sym, -, h⟩ := Option.bind_eq_some_iff.1 h
    obtain ⟨index, -, h⟩ := Option.bind_eq_some_iff.1 h
    cases h
    rfl
  · cases h

theorem Needed.valid {fact : Fact} (h : Needed G fact) : G.Valid fact := by
  induction h with
  | activated hg h =>
    have haction := activate_action h
    rename_i a
    cases a with
    | mark symbolId flag => exact haction
    | exportDynamic symbolId => exact haction
    | pushStartStop sectionId request =>
      have hgroup : request.fileId.group = _ := haction
      simp only [GcInputs.Valid, hgroup]
      exact hg
    | _ => trivial
  | sent hg h =>
    have haction := activate_action h
    rename_i item
    cases item with
    | loadSection request =>
      have hgroup : request.fileId.group = _ := haction
      simp only [GcInputs.Valid, hgroup]
      exact hg
    | _ => trivial
  | definition => trivial
  | section_ h hsection ih =>
    simp only [GcInputs.Valid, fileId_of_sectionOf hsection]
    exact G.group_lt _
  | startStop => trivial
  | popped hpop hpush ihpop ihpush => exact ihpush
  | referenced => trivial
  | exported h hexports ih => exact startStopOf_of_exports hexports

end Reld.Gc
