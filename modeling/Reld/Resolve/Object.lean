import Reld.Db.Load

/-!
# `Resolve.Object` — resolving the symbols of one work item

`process_object` handles one chunk of the symbols of a file. What it does depends on the database alone, so
it is a list of effects: definitions to write, flags to set, files to request and undefined symbols to
record. An error ends the chunk, after the effects before it.
-/

namespace Reld

/-- `UndefinedSymbol`: if `ignoreIfLoaded` names a file that ends up loaded, the symbol is defined after
    all and the record is ignored. -/
structure UndefinedSymbol where
  ignoreIfLoaded : Option FileId
  name : PreHashedSymbolName
  symbolId : SymbolId
deriving DecidableEq

/-- What processing a work item does to the outputs. -/
inductive Effect where
  /-- Write to a slot of `definitions_out`. -/
  | define (symbolId definition : SymbolId)
  | orFlags (symbolId : SymbolId) (flags : List Flag)
  /-- Set flags unless the symbol is dynamic at that time. -/
  | orFlagsUnlessDynamic (symbolId : SymbolId) (flags : List Flag)
  | request (fileId : FileId)
  | recordUndefined (u : UndefinedSymbol)
deriving DecidableEq

/-- The effects of a work item, and the error that ended it. -/
abbrev Outcome := List Effect × Option LinkError

/-- One thing after another, unless the first one failed. -/
def Outcome.andThen (a b : Outcome) : Outcome :=
  match a.2 with
  | some e => (a.1, some e)
  | none => (a.1 ++ b.1, b.2)

/-- `LoadObjectSymbolsRequest`: a chunk of the symbols of a file, with its slice of the definitions. -/
structure WorkItem where
  fileId : FileId
  symbolStartOffset : Nat
  definitionsOut : List SymbolId
deriving DecidableEq

/-- `SymbolAttributes`. -/
structure SymbolAttributes where
  nameInfo : RawSymbolName
  defaultVisibility : Bool
  isWeak : Bool

variable (db : SymbolDb)

/-- The flags that a visibility puts on a symbol. -/
def visibilityFlags : Visibility → List Flag
  | .hidden => [.nonInterposable, .downgradeToLocal]
  | .«protected» => [.nonInterposable]
  | .default => []

/-- The flags that an undefined reference puts on the symbol it found, if its visibility is not default. -/
def referenceVisibilityEffects (localSymbolId symbolId : SymbolId) : List Effect :=
  match db.inputSymbolVisibility localSymbolId with
  | .hidden => [.orFlags symbolId [.nonInterposable, .downgradeToLocal]]
  | .«protected» => [.orFlagsUnlessDynamic symbolId [.nonInterposable]]
  | .default => []

/-- What a reference does with the file of the symbol it found: request it, or, where the reference is weak
    or stays in its own file, record that the symbol may be undefined. -/
def referenceFileEffects (localSymbolId : SymbolId) (attributes : SymbolAttributes) (isDynamic : Bool)
    (fileId : FileId) (symbolId : SymbolId) : List Effect :=
  let symbolFileId := db.fileIdForSymbol symbolId
  if symbolFileId ≠ fileId ∧ attributes.isWeak = false then
    -- Undefined symbols in shared objects do not activate shared objects.
    if !isDynamic || !db.isDynamicSymbol symbolId then [.request symbolFileId] else []
  else if symbolFileId ≠ preludeFileId then
    [.recordUndefined
      { ignoreIfLoaded := some symbolFileId
        name := .fromRaw attributes.nameInfo
        symbolId := localSymbolId }]
  else []

/-- `resolve_symbol`. Only default-visibility symbols can reference symbols from shared objects. -/
def resolveSymbol (localSymbolId : SymbolId) (attributes : SymbolAttributes) (isDynamic : Bool)
    (fileId : FileId) (fromIr : Bool) : List Effect :=
  match db.get (.fromRaw attributes.nameInfo) attributes.defaultVisibility with
  | some symbolId =>
    .define localSymbolId symbolId ::
      ((if attributes.defaultVisibility then [] else referenceVisibilityEffects db localSymbolId symbolId) ++
        (if fromIr then [] else [.orFlags symbolId [.hasNonIrRef]]) ++
        referenceFileEffects db localSymbolId attributes isDynamic fileId symbolId)
  | none =>
    [.recordUndefined
      { ignoreIfLoaded := none
        name := .fromRaw attributes.nameInfo
        symbolId := localSymbolId }]

/-! ## Objects -/

/-- Whether `resolve_symbols` passes over a symbol: one that is defined already, the null symbol, and a
    hidden symbol of a shared object. -/
def skipsSymbol (o : InputObject) (index : Nat) (s : SymtabEntry) (definition : SymbolId) : Bool :=
  definition ≠ 0 || index = 0 || (o.isDynamic && s.isHidden)

/-- `resolve_symbols` for one symbol, `localSymbolIndex` symbols into a chunk that starts at
    `startSymbolOffset`. -/
def resolveObjectSymbol (fileId : FileId) (o : InputObject) (verneed : List (Option Bytes))
    (startSymbolOffset localSymbolIndex : Nat) (s : SymtabEntry) (definition : SymbolId) : Outcome :=
  if skipsSymbol o (startSymbolOffset + localSymbolIndex) s definition then ([], none)
  else
    match s.name with
    | none => ([], some .symbolName)
    | some nameBytes =>
      let attributes : SymbolAttributes :=
        { nameInfo := rawSymbolName nameBytes o.versym verneed localSymbolIndex
          defaultVisibility := s.isInterposable
          isWeak := s.isWeak }
      (resolveSymbol db (db.symbolIdStart fileId + (startSymbolOffset + localSymbolIndex)) attributes
        o.isDynamic fileId false, none)

/-- The loop of `resolve_symbols` over the symbols of a chunk and their definitions. -/
def resolveSymbolsLoop (fileId : FileId) (o : InputObject) (verneed : List (Option Bytes))
    (startSymbolOffset : Nat) : Nat → List (SymtabEntry × SymbolId) → Outcome
  | _, [] => ([], none)
  | i, (s, definition) :: rest =>
    (resolveObjectSymbol db fileId o verneed startSymbolOffset i s definition).andThen
      (resolveSymbolsLoop fileId o verneed startSymbolOffset (i + 1) rest)

/-- `resolve_symbols`. -/
def resolveSymbols (fileId : FileId) (o : InputObject) (startSymbolOffset : Nat)
    (definitionsOut : List SymbolId) : Outcome :=
  match o.verneedNamesByIndex with
  | .error e => ([], some e)
  | .ok verneed =>
    resolveSymbolsLoop db fileId o verneed startSymbolOffset 0
      ((o.symbols.drop startSymbolOffset).zip definitionsOut)

/-! ## The other files -/

/-- `load_symbols_in_redirect`. -/
def loadSymbolsInRedirect (redirect : Redirect) : List Effect :=
  redirect.expression.targets.flatMap fun targetName =>
    match db.getUnversioned targetName with
    | some targetSymbolId =>
      [.request (db.fileIdForSymbol targetSymbolId), .orFlags targetSymbolId [.hasNonIrRef]]
    | none => []

/-- The redirects among some definitions. -/
def redirectEffects (d : InternalSymDefInfo) : List Effect :=
  match d.placement with
  | .redirect redirect => loadSymbolsInRedirect db redirect
  | _ => []

/-- `load_symbol_named` for the entry symbol, which also gets a reference from outside of the plugin. -/
def loadEntrySymbol : List Effect :=
  match db.entrySymbolName with
  | none => []
  | some entryName =>
    match db.getUnversioned entryName with
    | some symbolId => [.request (db.fileIdForSymbol symbolId), .orFlags symbolId [.hasNonIrRef]]
    | none => []

/-- `load_prelude` for one definition of the prelude. -/
def loadPreludeDefinition (definitionOut : SymbolId) (d : InternalSymDefInfo) : List Effect :=
  match d.placement with
  | .forceUndefined =>
    match db.getUnversioned d.name with
    | some symbolId => [.define definitionOut symbolId, .request (db.fileIdForSymbol symbolId)]
    | none => []
  | _ => redirectEffects db d

/-- `load_prelude`. The symbols of the prelude are the first ones. -/
def loadPrelude (defs : List InternalSymDefInfo) (definitionsOut : List SymbolId) : List Effect :=
  loadEntrySymbol db ++
    ((defs.zip definitionsOut).mapIdx (fun i p => loadPreludeDefinition db i p.1)).flatten

/-- `resolve_lto_symbols` for one symbol. -/
def resolveLtoSymbol (fileId : FileId) (index : Nat) (s : PluginSymbol) : List Effect :=
  if s.isDefinition then []
  else
    let parsed := RawSymbolName.parse s.name
    let attributes : SymbolAttributes :=
      { nameInfo := { parsed with versionName := s.version.or parsed.versionName }
        defaultVisibility := s.visibility = .stvDefault
        isWeak := s.kind = some .weakUndef }
    resolveSymbol db (db.symbolIdStart fileId + index) attributes false fileId true

/-- `resolve_lto_symbols`. -/
def resolveLtoSymbols (fileId : FileId) (o : LtoInput) (definitionsOut : List SymbolId) : List Effect :=
  ((o.symbols.zip definitionsOut).mapIdx (fun i p => resolveLtoSymbol db fileId i p.1)).flatten

/-- `process_object`. The work item of a linker script handles all scripts of its group. -/
def processObject (item : WorkItem) : Outcome :=
  match db.groups[item.fileId.group]? with
  | some (.prelude defs) => (loadPrelude db defs item.definitionsOut, none)
  | some (.objects files) =>
    match files[item.fileId.file]? with
    | some o => resolveSymbols db item.fileId o item.symbolStartOffset item.definitionsOut
    | none => ([], none)
  | some (.linkerScripts scripts) => (scripts.flatMap fun s => s.symbolDefs.flatMap (redirectEffects db), none)
  | some (.ltoInputs files) =>
    match files[item.fileId.file]? with
    | some o => (resolveLtoSymbols db item.fileId o item.definitionsOut, none)
    | none => ([], none)
  | _ => ([], none)

end Reld

/-!
# What a reference does

The results of a work item are the definitions it writes, the undefined symbols it records and the files it
requests. For one reference (`resolve_symbol`) each of the three follows from the lookup of its name.
-/

namespace Reld

/-! ## The results among the effects -/

/-- The definitions that are written: the slot and what is written to it. -/
def definitionsOf (effects : List Effect) : List (SymbolId × SymbolId) :=
  effects.filterMap fun
    | .define id definition => some (id, definition)
    | _ => none

/-- The undefined symbols that are recorded. -/
def undefinedOf (effects : List Effect) : List UndefinedSymbol :=
  effects.filterMap fun
    | .recordUndefined u => some u
    | _ => none

/-- The files that are requested. -/
def requestsOf (effects : List Effect) : List FileId :=
  effects.filterMap fun
    | .request fileId => some fileId
    | _ => none

theorem definitionsOf_append (a b : List Effect) : definitionsOf (a ++ b) = definitionsOf a ++ definitionsOf b :=
  List.filterMap_append

theorem undefinedOf_append (a b : List Effect) : undefinedOf (a ++ b) = undefinedOf a ++ undefinedOf b :=
  List.filterMap_append

theorem requestsOf_append (a b : List Effect) : requestsOf (a ++ b) = requestsOf a ++ requestsOf b :=
  List.filterMap_append

theorem mem_filterMap_effect {α : Type} {f : Effect → Option α} {mk : α → Effect}
    (hf : ∀ e a, f e = some a ↔ e = mk a) {effects : List Effect} {a : α} : a ∈ effects.filterMap f ↔ mk a ∈ effects := by
  simp [hf]

@[simp] theorem mem_definitionsOf {effects : List Effect} {id definition : SymbolId} :
    (id, definition) ∈ definitionsOf effects ↔ Effect.define id definition ∈ effects :=
  @mem_filterMap_effect (SymbolId × SymbolId) _ (fun d => .define d.1 d.2)
    (fun e _ => by cases e <;> simp [Prod.ext_iff]) _ _

@[simp] theorem mem_undefinedOf {effects : List Effect} {u : UndefinedSymbol} :
    u ∈ undefinedOf effects ↔ Effect.recordUndefined u ∈ effects :=
  mem_filterMap_effect fun e _ => by cases e <;> simp

@[simp] theorem mem_requestsOf {effects : List Effect} {fileId : FileId} :
    fileId ∈ requestsOf effects ↔ Effect.request fileId ∈ effects :=
  mem_filterMap_effect fun e _ => by cases e <;> simp

/-! ## One reference -/

variable (db : SymbolDb)

/-- Whether a reference is recorded as possibly undefined although a symbol was found: it is weak or stays in
    its own file, and the symbol does not come from the linker itself. -/
def recordsReference (fileId : FileId) (isWeak : Bool) (symbolId : SymbolId) : Bool :=
  (decide (db.fileIdForSymbol symbolId = fileId) || isWeak) &&
    decide (db.fileIdForSymbol symbolId ≠ preludeFileId)

/-- Whether a reference requests the file of the symbol that was found. -/
def requestsReference (fileId : FileId) (isDynamic isWeak : Bool) (symbolId : SymbolId) : Bool :=
  decide (db.fileIdForSymbol symbolId ≠ fileId) && !isWeak && (!isDynamic || !db.isDynamicSymbol symbolId)

variable {db}
variable {localSymbolId : SymbolId} {attributes : SymbolAttributes} {isDynamic : Bool} {fileId : FileId}
  {fromIr : Bool}

/-- Flags are neither definitions, nor records, nor requests. -/
theorem referenceVisibilityEffects_flags {symbolId : SymbolId} {e : Effect}
    (h : e ∈ referenceVisibilityEffects db localSymbolId symbolId) :
    (∃ l, e = .orFlags symbolId l) ∨ ∃ l, e = .orFlagsUnlessDynamic symbolId l := by
  unfold referenceVisibilityEffects at h
  cases hv : db.inputSymbolVisibility localSymbolId with
  | hidden =>
    rw [hv] at h
    exact Or.inl ⟨_, List.mem_singleton.mp h⟩
  | «protected» =>
    rw [hv] at h
    exact Or.inr ⟨_, List.mem_singleton.mp h⟩
  | default =>
    rw [hv] at h
    exact absurd h List.not_mem_nil

theorem flagEffects_results (effects : List Effect)
    (h : ∀ e ∈ effects, ∃ id l, e = .orFlags id l ∨ e = .orFlagsUnlessDynamic id l) :
    definitionsOf effects = [] ∧ undefinedOf effects = [] ∧ requestsOf effects = [] := by
  refine ⟨?_, ?_, ?_⟩ <;>
  · refine List.filterMap_eq_nil_iff.mpr ?_
    intro e he
    obtain ⟨id, l, rfl | rfl⟩ := h e he <;> rfl

/-- The file of the symbol that was found is requested or the reference is recorded. -/
theorem referenceFileEffects_results (symbolId : SymbolId) :
    definitionsOf (referenceFileEffects db localSymbolId attributes isDynamic fileId symbolId) = [] ∧
      undefinedOf (referenceFileEffects db localSymbolId attributes isDynamic fileId symbolId)
        = (if recordsReference db fileId attributes.isWeak symbolId then
            [{ ignoreIfLoaded := some (db.fileIdForSymbol symbolId)
               name := .fromRaw attributes.nameInfo
               symbolId := localSymbolId }]
          else []) ∧
      requestsOf (referenceFileEffects db localSymbolId attributes isDynamic fileId symbolId)
        = (if requestsReference db fileId isDynamic attributes.isWeak symbolId then
            [db.fileIdForSymbol symbolId]
          else []) := by
  unfold referenceFileEffects recordsReference requestsReference
  by_cases hrequest : db.fileIdForSymbol symbolId ≠ fileId ∧ attributes.isWeak = false
  · obtain ⟨hown, hweak⟩ := hrequest
    simp only [hown, hweak, ne_eq, not_false_eq_true, and_self, if_true, decide_false, Bool.or_self,
      Bool.false_and, Bool.false_eq_true, if_false, decide_true, Bool.not_false, Bool.true_and]
    split_ifs <;> exact ⟨rfl, rfl, rfl⟩
  · have hrecord : (decide (db.fileIdForSymbol symbolId = fileId) || attributes.isWeak) = true := by
      by_contra hnot
      apply hrequest
      simpa using hnot
    have hnone : (decide (db.fileIdForSymbol symbolId ≠ fileId) && !attributes.isWeak
        && (!isDynamic || !db.isDynamicSymbol symbolId)) = false := by
      rw [Bool.and_eq_false_iff]
      left
      by_contra hnot
      apply hrequest
      simpa using hnot
    rw [hrecord, hnone]
    simp only [hrequest, if_false, Bool.true_and, decide_eq_true_eq, Bool.false_eq_true]
    split_ifs <;> exact ⟨rfl, rfl, rfl⟩

/-- **A reference that finds a symbol**: it takes the symbol as its definition, and either requests its file
    or is recorded. -/
theorem resolveSymbol_some {symbolId : SymbolId}
    (h : db.get (.fromRaw attributes.nameInfo) attributes.defaultVisibility = some symbolId) :
    definitionsOf (resolveSymbol db localSymbolId attributes isDynamic fileId fromIr)
        = [(localSymbolId, symbolId)] ∧
      undefinedOf (resolveSymbol db localSymbolId attributes isDynamic fileId fromIr)
        = (if recordsReference db fileId attributes.isWeak symbolId then
            [{ ignoreIfLoaded := some (db.fileIdForSymbol symbolId)
               name := .fromRaw attributes.nameInfo
               symbolId := localSymbolId }]
          else []) ∧
      requestsOf (resolveSymbol db localSymbolId attributes isDynamic fileId fromIr)
        = (if requestsReference db fileId isDynamic attributes.isWeak symbolId then
            [db.fileIdForSymbol symbolId]
          else []) := by
  have hflags := flagEffects_results (
      (if attributes.defaultVisibility then [] else referenceVisibilityEffects db localSymbolId symbolId) ++
        (if fromIr then [] else [.orFlags symbolId [.hasNonIrRef]])) (by
    intro e he
    rcases List.mem_append.mp he with he | he
    · split_ifs at he
      · exact absurd he List.not_mem_nil
      · rcases referenceVisibilityEffects_flags he with ⟨l, rfl⟩ | ⟨l, rfl⟩
        · exact ⟨symbolId, l, Or.inl rfl⟩
        · exact ⟨symbolId, l, Or.inr rfl⟩
    · split_ifs at he
      · exact absurd he List.not_mem_nil
      · exact ⟨symbolId, _, Or.inl (List.mem_singleton.mp he)⟩)
  obtain ⟨hd, hu, hr⟩ := hflags
  obtain ⟨hd', hu', hr'⟩ :
      definitionsOf (referenceFileEffects db localSymbolId attributes isDynamic fileId symbolId) = _ ∧
        undefinedOf (referenceFileEffects db localSymbolId attributes isDynamic fileId symbolId) = _ ∧
        requestsOf (referenceFileEffects db localSymbolId attributes isDynamic fileId symbolId) = _ :=
    referenceFileEffects_results symbolId
  unfold resolveSymbol
  rw [h]
  refine ⟨?_, ?_, ?_⟩
  · show (localSymbolId, symbolId) :: definitionsOf (_ ++ referenceFileEffects _ _ _ _ _ _) = _
    rw [definitionsOf_append, hd, hd']
    rfl
  · show undefinedOf (_ ++ referenceFileEffects _ _ _ _ _ _) = _
    rw [undefinedOf_append, hu, hu']
    rfl
  · show requestsOf (_ ++ referenceFileEffects _ _ _ _ _ _) = _
    rw [requestsOf_append, hr, hr']
    rfl

theorem resolveSymbol_none
    (h : db.get (.fromRaw attributes.nameInfo) attributes.defaultVisibility = none) :
    resolveSymbol db localSymbolId attributes isDynamic fileId fromIr
      = [.recordUndefined
          { ignoreIfLoaded := none, name := .fromRaw attributes.nameInfo, symbolId := localSymbolId }] := by
  unfold resolveSymbol
  rw [h]

end Reld
