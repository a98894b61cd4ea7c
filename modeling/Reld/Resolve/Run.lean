import Reld.Resolve.Object
import Reld.Lib.Worklist

/-!
# `Resolve.Run` — `resolve_symbols_and_select_archive_entries`

A resolution run as a transition system. The state holds the work items that are waiting, the definition
slices that can still be taken, the queues of loaded files, and the outputs. A step takes **any** waiting
item, processes it, and thereby may claim further files; this covers every schedule of the worker threads.
-/

namespace Reld

/-- `MAX_SYMBOLS_PER_WORK_ITEM`. -/
def maxSymbolsPerWorkItem : Nat := 5000

/-- `Resolver`: the undefined symbols recorded so far, the files that stand in the resolved groups as loaded
    objects or plugin inputs, and the number of resolved groups. -/
structure Resolver where
  undefinedSymbols : List UndefinedSymbol
  loaded : List FileId
  resolvedGroups : Nat

def Resolver.new : Resolver := { undefinedSymbols := [], loaded := [], resolvedGroups := 0 }

/-- The kinds of `ResolvedFile`. -/
inductive ResolvedFile where
  | notLoaded
  | prelude
  | object
  | dynamic
  | stubLibrary
  | linkerScript
  | syntheticSymbols
  | ltoInput
deriving DecidableEq

/-- The resolved file in a slot of the resolved groups: a file that can be loaded stands as not loaded
    until it has been pushed to one of the queues. -/
def Resolver.resolvedFile (r : Resolver) (fileId : FileId) : InputFile → ResolvedFile
  | .prelude _ => .prelude
  | .object o => if fileId ∈ r.loaded then (if o.isDynamic then .dynamic else .object) else .notLoaded
  | .stubLibrary _ => .stubLibrary
  | .linkerScript _ => .linkerScript
  | .syntheticSymbols _ => .syntheticSymbols
  | .ltoInput _ => if fileId ∈ r.loaded then .ltoInput else .notLoaded

/-- Whether the file of a slot counts as loaded. -/
def isLoaded (db : SymbolDb) (r : Resolver) (fileId : FileId) : Bool :=
  match db.file fileId with
  | some f => r.resolvedFile fileId f ≠ .notLoaded
  | none => false

/-! ## Outputs -/

/-- The tables that work items write to. -/
structure ResolveOutputs where
  definitions : SymbolId → SymbolId
  flags : PerSymbolFlags
  undefinedSymbols : List UndefinedSymbol

/-- Add flags to a symbol. -/
def setFlags (flags : PerSymbolFlags) (id : SymbolId) (extra : List Flag) : PerSymbolFlags :=
  Function.update flags id ((flags id).union (.ofList extra))

theorem setFlags_contains (flags : PerSymbolFlags) (id i : SymbolId) (extra : List Flag) (x : Flag) :
    (setFlags flags id extra i).contains x = ((flags i).contains x || (decide (i = id) && decide (x ∈ extra))) := by
  unfold setFlags
  by_cases h : i = id
  · subst h
    simp
  · simp [h]

/-- The part of an effect that is not a request. -/
def ResolveOutputs.apply (out : ResolveOutputs) : Effect → ResolveOutputs
  | .define id definition => { out with definitions := Function.update out.definitions id definition }
  | .orFlags id extra => { out with flags := setFlags out.flags id extra }
  | .orFlagsUnlessDynamic id extra =>
    if (out.flags id).contains .dynamic then out else { out with flags := setFlags out.flags id extra }
  | .request _ => out
  | .recordUndefined u => { out with undefinedSymbols := out.undefinedSymbols ++ [u] }

/-! ## The state of a run -/

/-- The state of a resolution run. `takes` is the content of each `AtomicTake`: the slice of definitions of
    a file that nobody has taken yet. `panicked` is set by a push into a full queue. -/
structure ResolveState where
  pending : List WorkItem
  takes : FileId → Option (List SymbolId)
  loaded : List FileId
  loadedLtoObjects : List FileId
  outputs : ResolveOutputs
  error : Option LinkError
  panicked : Bool

variable (db : SymbolDb)

/-- The slice of the definitions table that belongs to a file. -/
def definitionSlice (fileId : FileId) (f : InputFile) : List SymbolId :=
  (List.range f.numSymbols).map (fun i => db.symbolDefinitions (db.symbolIdStart fileId + i))

/-- The loop of `work_items_do`, which runs at least once. `fuel` bounds the chunks that follow. -/
def chunkLoop (fileId : FileId) (chunkSize : Nat) : Nat → Nat → List SymbolId → List WorkItem
  | 0, symbolStartOffset, definitionsOut => [{ fileId, symbolStartOffset, definitionsOut }]
  | fuel + 1, symbolStartOffset, definitionsOut =>
    let len := min chunkSize definitionsOut.length
    let item : WorkItem := { fileId, symbolStartOffset, definitionsOut := definitionsOut.take len }
    let rest := definitionsOut.drop len
    if rest.isEmpty then [item] else item :: chunkLoop fileId chunkSize fuel (symbolStartOffset + len) rest

/-- The work items of `work_items_do`. Only objects are split into chunks. -/
def workItems (fileId : FileId) (definitionsOut : List SymbolId) : List WorkItem :=
  match db.groups[fileId.group]? with
  | some (.objects _) => chunkLoop fileId maxSymbolsPerWorkItem definitionsOut.length 0 definitionsOut
  | _ => [{ fileId, symbolStartOffset := 0, definitionsOut }]

namespace ResolveState

/-- Push a file to `outputs.loaded`, which has room for every object. -/
def pushLoaded (s : ResolveState) (fileId : FileId) : ResolveState :=
  if s.loaded.length < max db.numRegularObjects 1 then { s with loaded := s.loaded ++ [fileId] }
  else { s with panicked := true }

/-- Push a file to `outputs.loaded_lto_objects`, which has room for every plugin input. -/
def pushLoadedLto (s : ResolveState) (fileId : FileId) : ResolveState :=
  if s.loadedLtoObjects.length < max db.numLtoObjects 1 then
    { s with loadedLtoObjects := s.loadedLtoObjects ++ [fileId] }
  else { s with panicked := true }

/-- `work_items_do`: push the file to its queue and ask for its work items. -/
def workItemsDo (s : ResolveState) (fileId : FileId) (definitionsOut : List SymbolId) : ResolveState :=
  let pushed :=
    match db.groups[fileId.group]? with
    | some (.objects _) => s.pushLoaded db fileId
    | some (.ltoInputs _) => s.pushLoadedLto db fileId
    | _ => s
  { pushed with pending := pushed.pending ++ workItems db fileId definitionsOut }

/-- `try_request_file_id`: whoever takes the slice first does the work. -/
def tryRequestFileId (s : ResolveState) (fileId : FileId) : ResolveState :=
  match s.takes fileId with
  | none => s
  | some definitionsOut =>
    ({ s with takes := Function.update s.takes fileId none }).workItemsDo db fileId definitionsOut

/-- Carry out one effect. -/
def applyEffect (s : ResolveState) (e : Effect) : ResolveState :=
  match e with
  | .request fileId => s.tryRequestFileId db fileId
  | e => { s with outputs := s.outputs.apply e }

/-- `handle_result`: the first error is kept. -/
def handleResult (s : ResolveState) (e : Option LinkError) : ResolveState :=
  { s with error := s.error.or e }

/-- Process one work item. -/
def processItem (s : ResolveState) (item : WorkItem) : ResolveState :=
  ((processObject db item).1.foldl (applyEffect db) s).handleResult (processObject db item).2

/-- Take any waiting item and process it. -/
def Step (s s' : ResolveState) : Prop :=
  ∃ pre item post, s.pending = pre ++ item :: post ∧
    s' = ({ s with pending := pre ++ post }).processItem db item

end ResolveState

/-! ## Set-up -/

/-- `is_optional` of a file that can be loaded. -/
def InputFile.isOptional : InputFile → Bool
  | .object o => o.isOptional
  | .ltoInput o => o.isOptional
  | _ => false

/-- Whether the slice of a file of an earlier batch can still be taken. -/
def remainsClaimable (r : Resolver) (p : FileId × InputFile) : Bool :=
  p.1.group < r.resolvedGroups && r.resolvedFile p.1 p.2 = .notLoaded

/-- Whether the slice of a file can be taken at the start of a run. -/
def isClaimable (r : Resolver) (p : FileId × InputFile) : Bool :=
  if p.1.group < r.resolvedGroups then remainsClaimable r p else p.2.isOptional

/-- `resolve_group` for one file of a new group: prelude, scripts and files that are not optional start
    with their work items. -/
def setUpFile (s : ResolveState) (p : FileId × InputFile) : ResolveState :=
  let slice := definitionSlice db p.1 p.2
  match p.2 with
  | .prelude _ => s.workItemsDo db p.1 slice
  | .object o => if o.isOptional then s else s.workItemsDo db p.1 slice
  | .ltoInput o => if o.isOptional then s else s.workItemsDo db p.1 slice
  | .linkerScript _ =>
    { s with
      pending := s.pending ++ [{ fileId := p.1, symbolStartOffset := 0, definitionsOut := slice }] }
  | _ => s

/-- The state in which the workers start. -/
def initialResolveState (r : Resolver) (flags : PerSymbolFlags) : ResolveState :=
  let s : ResolveState :=
    { pending := []
      takes := fun fileId =>
        match db.file fileId with
        | some f => if isClaimable r (fileId, f) then some (definitionSlice db fileId f) else none
        | none => none
      loaded := []
      loadedLtoObjects := []
      outputs := { definitions := db.symbolDefinitions, flags := flags, undefinedSymbols := [] }
      error := none
      panicked := false }
  (db.files.filter (fun p => r.resolvedGroups ≤ p.1.group)).foldl (setUpFile db) s

/-! ## A whole run -/

/-- The database, the flags and the resolver when a run is over. -/
def finishResolve (r : Resolver) (s : ResolveState) : SymbolDb × PerSymbolFlags × Resolver :=
  ({ db with symbolDefinitions := s.outputs.definitions }, s.outputs.flags,
    { undefinedSymbols := r.undefinedSymbols ++ s.outputs.undefinedSymbols
      loaded := r.loaded ++ s.loaded ++ s.loadedLtoObjects
      resolvedGroups := db.groups.length })

/-- `s` is reached from the start by some order of steps, and nothing is left to do. -/
structure ResolveEnds (r : Resolver) (flags : PerSymbolFlags) (s : ResolveState) : Prop where
  run : Relation.ReflTransGen (ResolveState.Step db) (initialResolveState db r flags) s
  pending_nil : s.pending = []

/-- `resolve_symbols_and_select_archive_entries` succeeds with the given result, for some order of steps. -/
structure ResolvesTo (flags : PerSymbolFlags) (r : Resolver)
    (result : SymbolDb × PerSymbolFlags × Resolver) : Prop where
  hasInputs : db.numRegularObjects ≠ 0 ∨ db.numLtoObjects ≠ 0
  ends : ∃ s, ResolveEnds db r flags s ∧ s.error = none ∧ s.panicked = false ∧
    result = finishResolve db r s

/-- Take the oldest waiting item, up to `fuel` times: one of the orders. -/
def ResolveState.runInOrder : Nat → ResolveState → ResolveState
  | 0, s => s
  | fuel + 1, s =>
    match s.pending with
    | [] => s
    | item :: rest => runInOrder fuel (({ s with pending := rest }).processItem db item)

theorem ResolveState.runInOrder_reaches (fuel : Nat) :
    ∀ s, Relation.ReflTransGen (ResolveState.Step db) s (ResolveState.runInOrder db fuel s) := by
  induction fuel with
  | zero => intro s; exact .refl
  | succ fuel ih =>
    intro s
    rw [runInOrder]
    split
    · exact .refl
    · rename_i item rest hpending
      exact .head ⟨[], item, rest, hpending, rfl⟩ (ih _)

end Reld
