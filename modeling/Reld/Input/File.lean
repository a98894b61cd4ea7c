import Reld.LinkerScript.Expression

/-!
# `Input.File` — the files of a link

The input files, grouped as the linker groups them, with what symbol loading and resolution read of each.
A file is identified by its group and its position in the group; the prelude, which holds the symbols the
linker itself supplies, is always file 0 of group 0.
-/

namespace Reld

/-- `FileId`: the group and the position in the group. -/
structure FileId where
  group : Nat
  file : Nat
deriving DecidableEq

/-- `PRELUDE_FILE_ID`. -/
def preludeFileId : FileId := ⟨0, 0⟩

/-- `LinkError`: why a phase stops. -/
inductive LinkError where
  | symbolName
  | versionNames
  | verneed
  | multipleVersionScripts
  | noInputFiles
  | duplicateSymbols
deriving DecidableEq

/-! ## Objects -/

/-- The modifiers of an input that decide whether it is optional. -/
structure Modifiers where
  asNeeded : Bool := false
  wholeArchive : Bool := false
  archiveSemantics : Bool := false
deriving DecidableEq

/-- An entry of `.gnu.version`. -/
structure Versym where
  index : Nat
  isHidden : Bool := false
deriving DecidableEq

/-- A version definition: its index and the name of its first auxiliary entry, if that can be read. -/
structure Verdef where
  ndx : Nat
  name : Option Bytes
deriving DecidableEq

/-- An auxiliary entry of a needed version: the index it gives to symbols and its name. -/
structure Vernaux where
  other : Nat
  name : Option Bytes
deriving DecidableEq

/-- A regular or shared object. -/
structure InputObject where
  symbols : List SymtabEntry
  /-- Whether `dynamic_tag_values` is present, which is what makes an object dynamic. -/
  isDynamic : Bool := false
  isArchiveEntry : Bool := false
  modifiers : Modifiers := {}
  libName : Bytes := []
  versym : List Versym := []
  verdefNum : Nat := 0
  verdefs : List Verdef := []
  vernauxs : List Vernaux := []
  /-- Whether each section is part of a section group. -/
  sectionGroups : List Bool := []
deriving DecidableEq

namespace InputObject

def hasArchiveSemantics (o : InputObject) : Bool := o.isArchiveEntry || o.modifiers.archiveSemantics

/-- Whether the object is skipped when nothing refers to it non-weakly. -/
def isOptional (o : InputObject) : Bool :=
  (o.hasArchiveSemantics && !o.modifiers.wholeArchive) || (o.isDynamic && o.modifiers.asNeeded)

/-- One step of `get_version_names`: store the name of a definition at its index. -/
def addVersionName (names : List (Option Bytes)) (d : Verdef) : Except LinkError (List (Option Bytes)) :=
  match d.name with
  | none => .error .versionNames
  | some name =>
    if d.ndx < names.length then .ok (names.set d.ndx (some name)) else .error .versionNames

/-- `get_version_names`. -/
def versionNames (o : InputObject) : Except LinkError (List (Option Bytes)) :=
  o.verdefs.foldlM addVersionName (List.replicate (o.verdefNum + 1) none)

/-- One step of `verneed_names_by_index`: grow the table as needed and store the name. -/
def addVerneedName (names : List (Option Bytes)) (a : Vernaux) : Except LinkError (List (Option Bytes)) :=
  match a.name with
  | none => .error .verneed
  | some name =>
    let grown := names ++ List.replicate (a.other + 1 - names.length) none
    .ok (grown.set a.other (some name))

/-- `verneed_names_by_index`. -/
def verneedNamesByIndex (o : InputObject) : Except LinkError (List (Option Bytes)) :=
  o.vernauxs.foldlM addVerneedName []

/-- `is_in_comdat_group` for a symbol of this object. -/
def isInGroupSection (o : InputObject) (s : SymtabEntry) : Bool :=
  match s.shndx with
  | .section index => o.sectionGroups.getD index false
  | _ => false

end InputObject

/-- `VerneedTable::version_name`: the needed version of the symbol at an index of the symbol table. -/
def verneedVersionName (versym : List Versym) (names : List (Option Bytes)) (localSymbolIndex : Nat) :
    Option Bytes := do
  let v ← versym[localSymbolIndex]?
  let name ← names[v.index]?
  name

/-- `Elf::raw_symbol_name`. -/
def rawSymbolName (nameBytes : Bytes) (versym : List Versym) (names : List (Option Bytes))
    (symbolIndex : Nat) : RawSymbolName :=
  match verneedVersionName versym names symbolIndex with
  | some versionName => { name := nameBytes, versionName := some versionName, isDefault := false }
  | none => RawSymbolName.parse nameBytes

/-! ## Linker-defined symbols -/

/-- Where a redirect is anchored; only its absence matters here. -/
inductive SymbolLoc where
  | anchored
  | none
deriving DecidableEq

/-- `Redirect`: a symbol assignment. -/
structure Redirect where
  expression : Expression
  loc : SymbolLoc

/-- `SymbolPlacement`. -/
inductive SymbolPlacement where
  | undefined
  | sectionStart (section_ : Nat)
  | sectionEnd (section_ : Nat)
  | sectionGroupEnd (section_ : Nat)
  | forceUndefined
  | redirect (r : Redirect)
  | loadBaseAddress
  | platformSpecific (symbol : Nat)

/-- `InternalSymDefInfo`. -/
structure InternalSymDefInfo where
  name : Bytes
  placement : SymbolPlacement
  isHidden : Bool := false

/-- `VersionScript`: a Rust version script lists the exported names, a regular one is known by the names
    that it makes local. -/
inductive VersionScript where
  | rust (global : List Bytes)
  | regular (isLocal : Bytes → Bool)

/-- A linker script: its assignments, its `ENTRY` commands and its `VERSION` command. -/
structure LinkerScript where
  symbolDefs : List InternalSymDefInfo
  entries : List Bytes := []
  versionScript : Option VersionScript := none

/-- A stub library (a text description of a shared library). -/
structure StubLibrary where
  symbols : List Bytes
  weakSymbols : List Bytes

/-! ## Inputs of a linker plugin -/

/-- The kinds of plugin symbols. -/
inductive SymbolKind where
  | «def»
  | weakDef
  | undef
  | weakUndef
  | common
deriving DecidableEq

/-- A symbol as a plugin reports it. `visibility` is its raw value, read as an ELF visibility. -/
structure PluginSymbol where
  name : Bytes
  version : Option Bytes := none
  visibility : StVisibility := .stvDefault
  kind : Option SymbolKind
  size : Nat := 0
deriving DecidableEq

def PluginSymbol.isDefinition (s : PluginSymbol) : Bool :=
  s.kind = some .«def» || s.kind = some .weakDef || s.kind = some .common

/-- A file claimed by the plugin. -/
structure LtoInput where
  symbols : List PluginSymbol
  isArchiveEntry : Bool := false
  modifiers : Modifiers := {}
  /-- False once LTO has been performed: the symbols are ignored from then on. -/
  enabled : Bool := true
deriving DecidableEq

def LtoInput.isOptional (o : LtoInput) : Bool :=
  (o.isArchiveEntry || o.modifiers.archiveSemantics) && !o.modifiers.wholeArchive

/-! ## Files and groups -/

/-- `SequencedInput`: any input file. -/
inductive InputFile where
  | prelude (symbolDefinitions : List InternalSymDefInfo)
  | object (o : InputObject)
  | stubLibrary (s : StubLibrary)
  | linkerScript (s : LinkerScript)
  /-- The `__start_` / `__stop_` symbols, known by their names. -/
  | syntheticSymbols (names : List Bytes)
  | ltoInput (o : LtoInput)

namespace InputFile

def numSymbols : InputFile → Nat
  | .prelude defs => defs.length
  | .object o => o.symbols.length
  | .stubLibrary s => s.symbols.length + s.weakSymbols.length
  | .linkerScript s => s.symbolDefs.length
  | .syntheticSymbols names => names.length
  | .ltoInput o => o.symbols.length

/-- `SequencedInput::is_dynamic`. -/
def isDynamic : InputFile → Bool
  | .object o => o.isDynamic
  | .stubLibrary _ => true
  | _ => false

/-- `SequencedInput::symbol_strength`, which does not ask whether the file is loaded. -/
def symbolStrength (f : InputFile) (index : Nat) : SymbolStrength :=
  match f with
  | .object o =>
    match o.symbols[index]? with
    | some s => .of s
    | none => .undefined
  | .stubLibrary s => if index < s.symbols.length then .strong else .weak
  | _ => .undefined

/-- `input_symbol_visibility` for the symbol at `index`. -/
def symbolVisibility (f : InputFile) (index : Nat) : Visibility :=
  match f with
  | .object o =>
    match o.symbols[index]? with
    | some s => convertElfVisibility s.visibility
    | none => .default
  | .ltoInput o =>
    match o.symbols[index]? with
    | some s => convertElfVisibility s.visibility
    | none => .default
  | _ => .default

end InputFile

/-- `Group`. -/
inductive Group where
  | prelude (symbolDefinitions : List InternalSymDefInfo)
  | objects (files : List InputObject)
  | stubLibraries (files : List StubLibrary)
  | linkerScripts (files : List LinkerScript)
  | syntheticSymbols (names : List Bytes)
  | ltoInputs (files : List LtoInput)

namespace Group

/-- The files of a group, in their order. -/
def files : Group → List InputFile
  | .prelude defs => [.prelude defs]
  | .objects l => l.map .object
  | .stubLibraries l => l.map .stubLibrary
  | .linkerScripts l => l.map .linkerScript
  | .syntheticSymbols names => [.syntheticSymbols names]
  | .ltoInputs l => l.map .ltoInput

end Group

end Reld
