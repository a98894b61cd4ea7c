import Mathlib.Data.Option.NAry
import Reld.Lib.Cursors
import Reld.Elf.Versions

/-!
# `Dynsym.Tables` — how `.dynsym` and `.gnu.version` are filled

Each group of files has a part of both tables, as large as its files have asked for. Its files are written one after
the other, and each writes the symbols that it imports. The definitions are written last, by the epilogue, in chunks
that each get the front of what is left of both tables.
-/

namespace Reld.Dynsym

open Cursors

/-! ## Files -/

/-- A symbol of a file, as the tables read it. -/
structure FileSymbol where
  isCanonical : Bool
  flags : ValueFlags

/-- The symbols of a file. Their numbers follow each other. -/
structure SymbolRange where
  start : SymbolId
  symbols : List FileSymbol

/-- `FileLayout`. A shared object has the state of its versions. -/
inductive FileLayout where
  | prelude (symbols : SymbolRange)
  | object (symbols : SymbolRange)
  | dynamic (state : DynamicState) (symbols : SymbolRange)
  | linkerScript (symbols : SymbolRange)
  | syntheticSymbols (symbols : SymbolRange)
  | stubLibrary (symbols : SymbolRange)
  | epilogue
  | notLoaded

def FileLayout.isLinkerScript : FileLayout → Bool
  | .linkerScript _ => true
  | _ => false

/-- `DynamicSymbolDefinition`, with the version that the version script gives it. -/
structure DynamicSymbolDefinition where
  symbolId : SymbolId
  version : Nat

/-- The symbol of an entry of `.dynsym`: the null symbol, one that no file defines, one of a shared object, or one that
the output defines. -/
inductive DynamicSymbol where
  | null
  | undefined (symbolId : SymbolId)
  | imported (state : DynamicState) (localIndex : Nat)
  | definition (symDef : DynamicSymbolDefinition)

/-- What the tables read of a layout. There is an epilogue. -/
structure ElfLayout where
  outputKind : OutputKind
  groups : List (List FileLayout)
  verneedCount : Nat
  verdefCount : Nat
  fileLayout : SymbolId → FileLayout
  dynamicSymbolDefinitions : List DynamicSymbolDefinition
  epilogue_mem : ∃ group ∈ groups, FileLayout.epilogue ∈ group

variable (layout : ElfLayout)

/-! ## Sizes -/

/-- `finalise_sizes_for_symbol`: an imported symbol has an entry, unless it is copied. -/
def finaliseSizesForSymbol (flags : ValueFlags) : Nat :=
  if flags.isDynamic && flags.hasResolution && !flags.needsCopyRelocation then 1 else 0

/-- `finalise_symbol_sizes` -/
def finaliseSymbolSizes (range : SymbolRange) : Nat :=
  (range.symbols.map fun symbol => if symbol.isCanonical then finaliseSizesForSymbol symbol.flags else 0).sum

def needsDynsym : OutputKind → Bool
  | .dynamicExecutable _ => true
  | .sharedObject => true
  | .staticExecutable .relocatable => true
  | _ => false

def shouldOutputSymbolVersions : OutputKind → Bool
  | .dynamicExecutable _ => true
  | .sharedObject => true
  | _ => false

/-- `finalise_sizes`: the entries of `.dynsym` that a file asks for. The prelude has the null symbol. -/
def ElfLayout.finaliseSizes : FileLayout → Nat
  | .prelude symbols => (if needsDynsym layout.outputKind then 1 else 0) + finaliseSymbolSizes symbols
  | .object symbols => finaliseSymbolSizes symbols
  | .dynamic _ symbols => finaliseSymbolSizes symbols
  | .linkerScript symbols => finaliseSymbolSizes symbols
  | .syntheticSymbols symbols => finaliseSymbolSizes symbols
  | .stubLibrary symbols => finaliseSymbolSizes symbols
  | .epilogue => if layout.outputKind.needsDynamic then layout.dynamicSymbolDefinitions.length else 0
  | .notLoaded => 0

def ElfLayout.dynsymSize (group : List FileLayout) : Nat := (group.map layout.finaliseSizes).sum

/-- Whether versions are output at all: `apply_non_addressable_indexes` drops them if none is used. -/
def ElfLayout.versionsUsed : Bool :=
  shouldOutputSymbolVersions layout.outputKind && !(layout.verneedCount == 0 && layout.verdefCount == 0)

/-- `finalise_gnu_version_size`: a version for each entry of `.dynsym`. -/
def ElfLayout.gnuVersionSize (group : List FileLayout) : Nat :=
  if layout.versionsUsed then layout.dynsymSize group else 0

/-- `gnu_version_enabled` -/
def ElfLayout.gnuVersionEnabled : Bool := 0 < (layout.groups.map layout.gnuVersionSize).sum

/-! ## Writers -/

/-- The cursors of a group, or of a chunk of definitions. There is none for versions if there is no room for any. -/
structure TableWriter where
  dynsymWriter : Cursor DynamicSymbol
  versym : Option (Cursor Nat)

def TableWriter.new (dynsymSize gnuVersionSize : Nat) : TableWriter :=
  ⟨.new dynsymSize, if gnuVersionSize = 0 then none else some (.new gnuVersionSize)⟩

namespace TableWriter

/-- `define_symbol` -/
def defineSymbol (w : TableWriter) (symbol : DynamicSymbol) : Option TableWriter :=
  (w.dynsymWriter.push symbol).map fun dynsymWriter => { w with dynsymWriter := dynsymWriter }

/-- `write_symbol_version`, if there are versions. `none` stands for a version that is not there. -/
def writeSymbolVersion (w : TableWriter) (version : Option Nat) : Option TableWriter :=
  match w.versym with
  | none        => some w
  | some versym => version.bind fun version => (versym.push version).map fun versym => { w with versym := some versym }

/-- `take_dynsym_prefix`: a writer for a number of symbols, and what it leaves. -/
def takeDynsymPrefix (w : TableWriter) (numSymbols : Nat) : Option (TableWriter × TableWriter) :=
  (w.dynsymWriter.take numSymbols).bind fun dynsymWriter =>
    match w.versym with
    | none        => some (⟨.new numSymbols, none⟩, ⟨dynsymWriter, none⟩)
    | some versym =>
      (versym.take numSymbols).map fun versym => (⟨.new numSymbols, some (.new numSymbols)⟩, ⟨dynsymWriter, some versym⟩)

/-- The part that was taken is passed, as its writer has left it. -/
def pass (w part : TableWriter) : TableWriter :=
  ⟨w.dynsymWriter.pass part.dynsymWriter.table,
    Option.map₂ (fun versym versym' => versym.pass versym'.table) w.versym part.versym⟩

end TableWriter

/-! ## Files -/

/-- `resolutions_in_range`: the flags of the symbols of a file that have a resolution. A shared object does not ask
whether they are canonical. -/
def resolutionsInRange (onlyCanonical : Bool) (range : SymbolRange) : List (Nat × ValueFlags) :=
  range.symbols.zipIdx.filterMap fun (symbol, localIndex) =>
    if symbol.flags.hasResolution && (symbol.isCanonical || !onlyCanonical) then some (localIndex, symbol.flags) else none

/-- `write_prelude`: the null symbol, behind its version. -/
def ElfLayout.writePrelude (w : TableWriter) : Option TableWriter :=
  (if layout.gnuVersionEnabled then w.writeSymbolVersion (some verNdxGlobal) else some w).bind fun w =>
    if needsDynsym layout.outputKind then w.defineSymbol .null else some w

/-- `write_object`, for one symbol: only those that no shared object defines are left to write. -/
def ElfLayout.writeObjectSymbol (range : SymbolRange) (w : TableWriter) (resolution : Nat × ValueFlags) : Option TableWriter :=
  if resolution.2.isDynamic then
    (w.defineSymbol (.undefined (range.start + resolution.1))).bind fun w =>
      if layout.gnuVersionEnabled then w.writeSymbolVersion (some verNdxGlobal) else some w
  else some w

/-- `copy_symbol_version` -/
def importedVersion (state : DynamicState) (localIndex : Nat) : Option Nat :=
  (copySymbolVersion state.object state.mapping localIndex).toOption

/-- `write_dynamic_file`, for one symbol: those that are copied are defined by the epilogue. -/
def writeDynamicFileSymbol (state : DynamicState) (w : TableWriter) (resolution : Nat × ValueFlags) : Option TableWriter :=
  if resolution.2.needsCopyRelocation then some w
  else (w.defineSymbol (.imported state resolution.1)).bind fun w => w.writeSymbolVersion (importedVersion state resolution.1)

/-- `write_dynamic_symbol_definitions`, for one definition. -/
def ElfLayout.writeDynamicSymbolDefinition (w : TableWriter) (symDef : DynamicSymbolDefinition) : Option TableWriter :=
  match layout.fileLayout symDef.symbolId with
  | .object _ =>
    (w.defineSymbol (.definition symDef)).bind fun w => w.writeSymbolVersion (some symDef.version)
  | .dynamic state symbols =>
    (w.defineSymbol (.definition symDef)).bind fun w =>
      w.writeSymbolVersion (importedVersion state (symDef.symbolId - symbols.start))
  | .linkerScript _ => w.defineSymbol (.definition symDef)
  | .prelude _ =>
    (w.defineSymbol (.definition symDef)).bind fun w => w.writeSymbolVersion (some symDef.version)
  | _ => none

/-- Slices of a length, the last of which may be shorter. There are at most as many as there are definitions. -/
def chunksOf (chunkSize : Nat) : Nat → List DynamicSymbolDefinition → List (List DynamicSymbolDefinition)
  | 0, _ => []
  | _ + 1, [] => []
  | n + 1, symDef :: rest =>
    (symDef :: rest).take chunkSize :: chunksOf chunkSize n ((symDef :: rest).drop chunkSize)

def chunks (chunkSize : Nat) (symDefs : List DynamicSymbolDefinition) : List (List DynamicSymbolDefinition) :=
  chunksOf chunkSize symDefs.length symDefs

/-- `chunk_size` -/
def ElfLayout.chunkSize (currentNumThreads : Nat) : Nat :=
  max 10 (layout.dynamicSymbolDefinitions.length / 10 / currentNumThreads)

/-- A chunk of definitions, with a writer of its own. -/
def ElfLayout.writeChunk (w : TableWriter) (symDefs : List DynamicSymbolDefinition) : Option TableWriter :=
  (w.takeDynsymPrefix symDefs.length).bind fun (part, rest) =>
    (symDefs.foldlM layout.writeDynamicSymbolDefinition part).map fun part => rest.pass part

/-- `write_dynamic_symbol_definitions` -/
def ElfLayout.writeDynamicSymbolDefinitions (chunkSize : Nat) (w : TableWriter) : Option TableWriter :=
  (chunks chunkSize layout.dynamicSymbolDefinitions).foldlM layout.writeChunk w

/-- `write_file` -/
def ElfLayout.writeFile (chunkSize : Nat) (w : TableWriter) : FileLayout → Option TableWriter
  | .prelude _ => layout.writePrelude w
  | .object symbols => (resolutionsInRange true symbols).foldlM (layout.writeObjectSymbol symbols) w
  | .dynamic state symbols => (resolutionsInRange false symbols).foldlM (writeDynamicFileSymbol state) w
  | .epilogue => layout.writeDynamicSymbolDefinitions chunkSize w
  | .linkerScript _ | .syntheticSymbols _ | .stubLibrary _ | .notLoaded => some w

/-- `validate_empty` -/
def TableWriter.validateEmpty (w : TableWriter) : Bool :=
  w.dynsymWriter.free == 0 && w.versym.all (·.free == 0)

/-- The parts of `.dynsym` and `.gnu.version`. -/
structure Tables where
  dynsym : List (Option DynamicSymbol)
  gnuVersion : List (Option Nat)

def TableWriter.tables (w : TableWriter) : Tables := ⟨w.dynsymWriter.table, w.versym.elim [] (·.table)⟩

/-- A group writes its parts; `none` is an error or a panic. -/
def ElfLayout.writeGroup (chunkSize : Nat) (group : List FileLayout) : Option Tables :=
  (group.foldlM (layout.writeFile chunkSize) (.new (layout.dynsymSize group) (layout.gnuVersionSize group))).bind fun w =>
    if w.validateEmpty then some w.tables else none

/-- Both tables, group by group. -/
def ElfLayout.write (chunkSize : Nat) : Option Tables :=
  (layout.groups.mapM (layout.writeGroup chunkSize)).map fun parts =>
    ⟨parts.flatMap (·.dynsym), parts.flatMap (·.gnuVersion)⟩

end Reld.Dynsym
