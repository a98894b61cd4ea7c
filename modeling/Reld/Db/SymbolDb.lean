import Reld.Lib.FirstTable
import Reld.Lib.Segments
import Reld.Input.File

/-!
# `Db.SymbolDb` — the symbol database

The database gives every symbol of every file an identifier, maps names to identifiers in hash buckets,
and keeps a definition for every identifier. Identifiers are handed out in file order, so the file of a
symbol and its index in that file follow from the sizes of the files (`Segments.locate`).

A bucket holds, for each name, the symbol that was **encountered first**, which may not be the selected
definition, and the other definitions keyed by that first one (`FirstTable`).
-/

namespace Reld

/-- `RelocationModel`. -/
inductive RelocationModel where
  | nonRelocatable
  | relocatable
deriving DecidableEq

/-- `OutputKind`. -/
inductive OutputKind where
  | staticExecutable (m : RelocationModel)
  | dynamicExecutable (m : RelocationModel)
  | sharedObject
  | relocatable
deriving DecidableEq

namespace OutputKind

def isExecutable : OutputKind → Bool
  | .sharedObject => false
  | .relocatable => false
  | _ => true

def isSharedObject : OutputKind → Bool
  | .sharedObject => true
  | _ => false

def isStaticExecutable : OutputKind → Bool
  | .staticExecutable _ => true
  | _ => false

def isRelocatable : OutputKind → Bool
  | .staticExecutable .relocatable | .dynamicExecutable .relocatable | .sharedObject | .relocatable => true
  | _ => false

end OutputKind

/-- `BSymbolicKind`. -/
inductive BSymbolicKind where
  | none
  | all
  | functions
  | nonWeak
  | nonWeakFunctions
deriving DecidableEq

/-- `EntryPoint`: what `--entry` names. -/
inductive EntryPoint where
  | symbol (name : Bytes)
  | address (value : Nat)

/-- The options that the modelled phases read. Matching of library names, of export lists and of
    `--undefined-glob` patterns is known by its outcome, and so is the hash of a name. -/
structure Args where
  availableThreads : Nat
  availableThreads_pos : 0 < availableThreads
  hashBytes : Bytes → Nat
  bSymbolic : BSymbolicKind := .none
  excludeLibs : Bytes → Bool := fun _ => false
  exportList : Option (Bytes → Bool) := none
  allowMultipleDefinitions : Bool := false
  symbolNamesToWrap : List Bytes := []
  entry : Option EntryPoint := none
  forceUndefinedSymbolNames : List Bytes := []
  undefinedGlobPatterns : List (Bytes → Bool) := []
  defsym : List (Bytes × Expression) := []
  /-- The symbols of `create_linker_defined_symbols` after symbol 0. -/
  linkerDefinedSymbols : List InternalSymDefInfo := []

/-- `SymbolBucket`: the two name maps with their alternative definitions. -/
structure SymbolBucket where
  names : FirstTable Bytes SymbolId
  versionedNames : FirstTable (Bytes × Bytes) SymbolId

def SymbolBucket.empty : SymbolBucket := { names := .empty, versionedNames := .empty }

/-- `SymbolDb`. A version script is absent where it is the default one. -/
structure SymbolDb where
  args : Args
  outputKind : OutputKind
  groups : List Group
  buckets : Nat → SymbolBucket
  symbolDefinitions : SymbolId → SymbolId
  versionScript : Option VersionScript
  entry : Option Bytes

/-! ## Files and identifiers -/

/-- The files of some groups with their identifiers, in order. `first` is the index of the first group. -/
def enumerateFiles (first : Nat) : List Group → List (FileId × InputFile)
  | [] => []
  | g :: gs =>
    g.files.mapIdx (fun i f => (⟨first, i⟩, f)) ++ enumerateFiles (first + 1) gs

/-- The number of symbols of an enumerated file. -/
def symbolCount (p : FileId × InputFile) : Nat := p.2.numSymbols

namespace SymbolDb

variable (db : SymbolDb)

/-- All files in order. -/
def files : List (FileId × InputFile) := enumerateFiles 0 db.groups

/-- `file`: the file with a given identifier. -/
def file (fileId : FileId) : Option InputFile := do
  let g ← db.groups[fileId.group]?
  g.files[fileId.file]?

/-- `num_symbols`. -/
def numSymbols : Nat := Segments.total symbolCount db.files

/-- The file of a symbol and the index of the symbol in it. -/
def locate (id : SymbolId) : Option ((FileId × InputFile) × Nat) :=
  Segments.locate symbolCount db.files id

/-- The first identifier of a file, `symbol_id_range().start()`. -/
def symbolIdStart (fileId : FileId) : SymbolId :=
  Segments.startOf symbolCount Prod.fst fileId db.files

/-- `file_id_for_symbol`. -/
def fileIdForSymbol (id : SymbolId) : FileId :=
  match db.locate id with
  | some ((fileId, _), _) => fileId
  | none => preludeFileId

/-- `file(file_id_for_symbol(id)).is_dynamic()`. -/
def isDynamicSymbol (id : SymbolId) : Bool :=
  match db.locate id with
  | some ((_, f), _) => f.isDynamic
  | none => false

/-- `input_symbol_visibility`. -/
def inputSymbolVisibility (id : SymbolId) : Visibility :=
  match db.locate id with
  | some ((_, f), index) => f.symbolVisibility index
  | none => .default

/-- `num_regular_objects`. -/
def numRegularObjects : Nat :=
  (db.groups.map fun
    | .objects l => l.length
    | _ => 0).sum

/-- `num_lto_objects`. -/
def numLtoObjects : Nat :=
  (db.groups.map fun
    | .ltoInputs l => l.length
    | _ => 0).sum

/-- `entry_symbol_name`: `--entry`, then a linker script, then `_start`. -/
def entrySymbolName : Option Bytes :=
  match db.args.entry with
  | some (.symbol name) => some name
  | some (.address _) => none
  | none => some (db.entry.getD (bytesOf "_start"))

/-! ## Definitions -/

/-- `definition`: two steps, since the definition of a definition may have changed after the lookup. -/
def definition (id : SymbolId) : SymbolId := db.symbolDefinitions (db.symbolDefinitions id)

/-- `replace_definition`. -/
def replaceDefinition (id newDefinition : SymbolId) : SymbolDb :=
  { db with symbolDefinitions := Function.update db.symbolDefinitions id newDefinition }

/-! ## Names -/

/-- The bucket of an unversioned name. -/
def nameBucket (name : Bytes) : Nat := db.args.hashBytes name % db.args.availableThreads

/-- The bucket of a versioned name. -/
def versionedNameBucket (name version : Bytes) : Nat :=
  (db.args.hashBytes name ^^^ db.args.hashBytes version) % db.args.availableThreads

/-- `get_unversioned`. -/
def getUnversioned (name : Bytes) : Option SymbolId := (db.buckets (db.nameBucket name)).names.nameToId name

/-- The best of the candidates that are not in a shared object. -/
def selectNonDynamic (candidates : List SymbolId) : Option SymbolId :=
  (candidates.foldl (fun s alt =>
    match db.locate alt with
    | some ((_, f), index) => if f.isDynamic then s else s.consider alt (f.symbolStrength index)
    | none => s) SymbolPrioritySelector.new).best

/-- `get_non_dynamic`: the selected alternative to `id` outside of shared objects, if any. -/
def getNonDynamic (bucket : SymbolBucket) (id : SymbolId) : Option SymbolId :=
  (bucket.names.alternatives.lookup id).bind db.selectNonDynamic

/-- What `get` does with the symbol that the name map of a bucket holds. -/
def allowOrReplace (bucket : SymbolBucket) (allowDynamic : Bool) (id : SymbolId) : Option SymbolId :=
  if !allowDynamic && db.isDynamicSymbol id then db.getNonDynamic bucket id else some id

/-- `get`. -/
def get (key : PreHashedSymbolName) (allowDynamic : Bool) : Option SymbolId :=
  match key with
  | .unversioned name =>
    let bucket := db.buckets (db.nameBucket name)
    (bucket.names.nameToId name).bind (db.allowOrReplace bucket allowDynamic)
  | .versioned name version =>
    let bucket := db.buckets (db.versionedNameBucket name version)
    (bucket.versionedNames.nameToId (name, version)).bind (db.allowOrReplace bucket allowDynamic)

end SymbolDb

end Reld
