import Mathlib.Data.List.Lex
import Mathlib.Data.List.Sort
import Mathlib.Data.List.Dedup
import Reld.Lib.Traverse
import Reld.Db.SymbolDb

/-!
# `Db.Load` — reading the symbols of a file

`read_symbols_for_group` writes one entry to each table for every symbol of a file, in order, and lists the
names under which the symbol is to be found. `SymbolLoad` is what is written for one symbol; the loaders
below compute it for the symbols of each kind of file.
-/

namespace Reld

/-- What loading writes for one symbol: its flags, whether its definition starts as itself (else as the
    undefined symbol), and the names put into the buckets for it. -/
structure SymbolLoad where
  flags : ValueFlags
  isDefined : Bool
  unversioned : Option Bytes := none
  versioned : Option (Bytes × Bytes) := none

/-- What the loaders know besides the file. -/
structure LoadContext where
  args : Args
  outputKind : OutputKind
  versionScript : Option VersionScript

/-! ## Regular objects -/

namespace LoadContext

variable (cx : LoadContext)

/-- `should_downgrade_to_local`. -/
def shouldDowngradeToLocal (name : Bytes) : Bool :=
  match cx.versionScript with
  | some (.rust _) => true
  | some (.regular isLocal) => isLocal name
  | none => false

/-- `downgrades_all`. -/
def downgradesAll : Bool :=
  match cx.versionScript with
  | some (.rust _) => true
  | _ => false

/-- Whether the export list, if there is one, has the symbol; a name that cannot be read counts. -/
def symbolIsExported (s : SymtabEntry) : Bool :=
  match cx.args.exportList, s.name with
  | some contains, some name => contains name
  | _, _ => true

/-- Whether `-Bsymbolic` and its variants apply to the symbol. -/
def bSymbolicApplies (s : SymtabEntry) : Bool :=
  match cx.args.bSymbolic with
  | .none => false
  | .all => true
  | .functions => s.isFunc
  | .nonWeak => !s.isWeak
  | .nonWeakFunctions => s.isFunc && !s.isWeak

/-- `is_symbol_non_interposable`. -/
def isSymbolNonInterposable (o : InputObject) (s : SymtabEntry) : Bool :=
  !s.isInterposable || s.isLocal || cx.outputKind.isStaticExecutable ||
    (!s.isUndefined &&
      (cx.outputKind.isExecutable ||
        (o.hasArchiveSemantics && cx.args.excludeLibs o.libName) ||
        (cx.bSymbolicApplies s && !(cx.args.exportList.isSome && cx.symbolIsExported s))))

/-- `RegularObjectSymbolLoader::compute_value_flags`. -/
def regularFlags (o : InputObject) (s : SymtabEntry) : ValueFlags :=
  let flags :=
    if s.isAbsolute then ValueFlags.ofList [.absolute]
    else if s.isIfunc then ValueFlags.ofList [.ifunc]
    else if s.isUndefined then ValueFlags.ofList [.absolute]
    else ValueFlags.empty
  if cx.isSymbolNonInterposable o s then flags.union (.ofList [.nonInterposable]) else flags

/-- The flags that a version script adds to a symbol of a regular object. -/
def downgradeFlags (s : SymtabEntry) (name : Bytes) : ValueFlags :=
  if cx.shouldDowngradeToLocal name then
    if !cx.downgradesAll && !s.isTls then .ofList [.downgradeToLocal, .nonInterposable]
    else .ofList [.downgradeToLocal]
  else .empty

end LoadContext

/-- The names that a symbol is put into the buckets under: an unversioned one if it can be referred to
    without a version, and a versioned one if it has a version. -/
def SymbolLoad.named (flags : ValueFlags) (info : RawSymbolName) : SymbolLoad :=
  { flags := flags
    isDefined := true
    unversioned := if info.isDefault then some info.name else none
    versioned := info.versionName.map (fun version => (info.name, version)) }

/-- `load_symbols` for one symbol of a regular object. -/
def loadRegularSymbol (cx : LoadContext) (o : InputObject) (s : SymtabEntry) :
    Except LinkError SymbolLoad :=
  let flags := cx.regularFlags o s
  if s.isUndefined then .ok { flags, isDefined := false }
  else if s.isLocal then .ok { flags, isDefined := true }
  else
    match s.name with
    | none => .error .symbolName
    | some nameBytes =>
      let info := RawSymbolName.parse nameBytes
      .ok (.named (flags.union (cx.downgradeFlags s info.name)) info)

/-! ## Shared objects -/

/-- `DynamicObjectSymbolLoader::compute_value_flags`. -/
def dynamicFlags (s : SymtabEntry) : ValueFlags :=
  let flags := ValueFlags.ofList [.dynamic]
  let flags := if s.isFunc || s.isIfunc then flags.union (.ofList [.function]) else flags
  if s.isUndefined then flags.union (.ofList [.absolute]) else flags

/-- `get_symbol_name_and_version`. -/
def symbolNameAndVersion (o : InputObject) (versionNames : List (Option Bytes)) (nameBytes : Bytes)
    (localIndex : Nat) : RawSymbolName :=
  match o.versym[localIndex]? with
  | some v =>
    { name := nameBytes, versionName := (versionNames[v.index]?).bind id, isDefault := !v.isHidden }
  | none => { name := nameBytes, versionName := none, isDefault := true }

/-- `load_symbols` for one symbol of a shared object. Hidden symbols are ignored. -/
def loadDynamicSymbol (o : InputObject) (versionNames : List (Option Bytes)) (localIndex : Nat)
    (s : SymtabEntry) : Except LinkError SymbolLoad :=
  let flags := dynamicFlags s
  if s.isUndefined || s.isHidden then .ok { flags, isDefined := false }
  else if s.isLocal then .ok { flags, isDefined := true }
  else
    match s.name with
    | none => .error .symbolName
    | some nameBytes => .ok (.named flags (symbolNameAndVersion o versionNames nameBytes localIndex))

/-! ## The other files -/

/-- `Prelude::load_symbols` for one definition. -/
def loadPreludeSymbol (d : InternalSymDefInfo) : SymbolLoad :=
  let hidden := if d.isHidden then ValueFlags.ofList [.downgradeToLocal] else ValueFlags.empty
  let defined (flags : List Flag) : SymbolLoad :=
    { flags := (ValueFlags.ofList flags).union hidden, isDefined := true, unversioned := some d.name }
  match d.placement with
  | .undefined => { flags := (ValueFlags.ofList [.absolute]).union hidden, isDefined := true }
  | .forceUndefined => { flags := (ValueFlags.ofList [.absolute]).union hidden, isDefined := true }
  | .platformSpecific _ => defined [.nonInterposable, .absolute]
  | .redirect r => defined (if r.loc = .none then [.nonInterposable, .absolute] else [.nonInterposable])
  | _ => defined [.nonInterposable]

/-- `load_linker_script_symbols` for one definition. -/
def loadLinkerScriptSymbol (d : InternalSymDefInfo) : SymbolLoad :=
  { flags := .ofList (if d.isHidden then [.nonInterposable, .downgradeToLocal] else [.nonInterposable])
    isDefined := true
    unversioned := some d.name }

/-- `load_stub_library_symbols` for one name. -/
def loadStubLibrarySymbol (name : Bytes) : SymbolLoad :=
  { flags := .ofList [.dynamic], isDefined := true, unversioned := some name }

/-- `load_lto_symbols` for one symbol. -/
def loadLtoSymbol (s : PluginSymbol) : SymbolLoad :=
  if s.isDefinition then
    match s.version with
    | some version => { flags := .empty, isDefined := true, versioned := some (s.name, version) }
    | none => { flags := .empty, isDefined := true, unversioned := some s.name }
  else { flags := .empty, isDefined := false }

/-! ## A whole file -/

/-- `mapM` with the index, for functions that may fail. -/
def mapIdxExcept {α β : Type} (f : Nat → α → Except LinkError β) (start : Nat) :
    List α → Except LinkError (List β)
  | [] => .ok []
  | a :: l => do
      let b ← f start a
      let bs ← mapIdxExcept f (start + 1) l
      return b :: bs

/-- `read_symbols_for_group` for one file. -/
def InputFile.loadSymbols (cx : LoadContext) : InputFile → Except LinkError (List SymbolLoad)
  | .prelude defs => .ok (defs.map loadPreludeSymbol)
  | .object o =>
    if o.isDynamic then do
      let versionNames ← o.versionNames
      mapIdxExcept (loadDynamicSymbol o versionNames) 0 o.symbols
    else mapIdxExcept (fun _ => loadRegularSymbol cx o) 0 o.symbols
  | .stubLibrary s => .ok ((s.symbols ++ s.weakSymbols).map loadStubLibrarySymbol)
  | .linkerScript s => .ok (s.symbolDefs.map loadLinkerScriptSymbol)
  | .syntheticSymbols _ => .ok []
  | .ltoInput o => .ok (o.symbols.map loadLtoSymbol)

/-! ## The names of a symbol

The names depend on the file alone, so they can be read off without loading it. -/

/-- The name under which an object defines the symbol at `index`, if it defines one. -/
def InputObject.definedName (o : InputObject) (index : Nat) : Option RawSymbolName :=
  match o.symbols[index]? with
  | none => none
  | some s =>
    if s.isUndefined || (o.isDynamic && s.isHidden) || s.isLocal then none
    else
      match s.name with
      | none => none
      | some nameBytes =>
        if o.isDynamic then
          match o.versionNames with
          | .ok versionNames => some (symbolNameAndVersion o versionNames nameBytes index)
          | .error _ => none
        else some (RawSymbolName.parse nameBytes)

/-- Whether the prelude defines a name for the symbol. -/
def InternalSymDefInfo.isNamed (d : InternalSymDefInfo) : Bool :=
  match d.placement with
  | .undefined => false
  | .forceUndefined => false
  | _ => true

namespace InputFile

/-- The unversioned name under which the symbol at `index` is put into the buckets. -/
def unversionedName (f : InputFile) (index : Nat) : Option Bytes :=
  match f with
  | .prelude defs => (defs[index]?).bind fun d => if d.isNamed then some d.name else none
  | .object o => (o.definedName index).bind fun info => if info.isDefault then some info.name else none
  | .stubLibrary s => (s.symbols ++ s.weakSymbols)[index]?
  | .linkerScript s => (s.symbolDefs[index]?).map InternalSymDefInfo.name
  | .syntheticSymbols names => names[index]?
  | .ltoInput o =>
    (o.symbols[index]?).bind fun s => if s.isDefinition && s.version.isNone then some s.name else none

/-- The versioned name under which the symbol at `index` is put into the buckets. -/
def versionedName (f : InputFile) (index : Nat) : Option (Bytes × Bytes) :=
  match f with
  | .object o =>
    (o.definedName index).bind fun info => info.versionName.map (fun version => (info.name, version))
  | .ltoInput o =>
    (o.symbols[index]?).bind fun s => if s.isDefinition then s.version.map (fun v => (s.name, v)) else none
  | _ => none

/-- Whether the definition of the symbol at `index` starts as the symbol itself. -/
def definesSymbol (f : InputFile) (index : Nat) : Bool :=
  match f with
  | .object o =>
    match o.symbols[index]? with
    | some s => !(s.isUndefined || (o.isDynamic && s.isHidden))
    | none => false
  | .ltoInput o =>
    match o.symbols[index]? with
    | some s => s.isDefinition
    | none => false
  | _ => decide (index < f.numSymbols)

end InputFile

/-! ## What loading writes -/

theorem mapIdxExcept_ok {α β : Type} {f : Nat → α → Except LinkError β} {l : List α} :
    ∀ {start : Nat} {bs : List β}, mapIdxExcept f start l = .ok bs →
      bs.length = l.length ∧
      ∀ i b, bs[i]? = some b → ∃ a, l[i]? = some a ∧ f (start + i) a = .ok b := by
  induction l with
  | nil =>
    intro start bs h
    obtain rfl := Except.ok.inj h
    exact ⟨rfl, fun i b hb => absurd hb (by simp)⟩
  | cons a l ih =>
    intro start bs h
    obtain ⟨b, hb, h⟩ := Traverse.bind_eq_ok.mp h
    obtain ⟨bs', hbs, h⟩ := Traverse.bind_eq_ok.mp h
    obtain rfl := Except.ok.inj h
    obtain ⟨hlen, hget⟩ := ih hbs
    refine ⟨by simp [hlen], ?_⟩
    intro i b' hi
    cases i with
    | zero => exact ⟨a, rfl, by rw [← Option.some.inj hi]; exact hb⟩
    | succ i =>
      obtain ⟨a', ha', hf⟩ := hget i b' (by simpa using hi)
      exact ⟨a', by simpa using ha', by rw [← hf]; congr 1; omega⟩

/-- The names that a load gives to a symbol, and whether the symbol is dynamic. -/
structure SymbolLoad.Agrees (load : SymbolLoad) (f : InputFile) (index : Nat) : Prop where
  isDefined : load.isDefined = f.definesSymbol index
  unversioned : load.unversioned = f.unversionedName index
  versioned : load.versioned = f.versionedName index
  dynamic : load.flags.contains .dynamic = f.isDynamic
  /-- A symbol of a library may be interposed and is exported. -/
  library : f.isDynamic = true →
    load.flags.contains .nonInterposable = false ∧ load.flags.contains .downgradeToLocal = false
  /-- No symbol starts with a reference from outside of the plugin. -/
  nonIrRef : load.flags.contains .hasNonIrRef = false

theorem regularFlags_nonIrRef (cx : LoadContext) (o : InputObject) (s : SymtabEntry) :
    (cx.regularFlags o s).contains .hasNonIrRef = false := by
  unfold LoadContext.regularFlags
  split_ifs <;> simp

theorem downgradeFlags_nonIrRef (cx : LoadContext) (s : SymtabEntry) (name : Bytes) :
    (cx.downgradeFlags s name).contains .hasNonIrRef = false := by
  unfold LoadContext.downgradeFlags
  split_ifs <;> simp

theorem dynamicFlags_library (s : SymtabEntry) :
    (dynamicFlags s).contains .nonInterposable = false ∧ (dynamicFlags s).contains .downgradeToLocal = false := by
  unfold dynamicFlags
  split_ifs <;> exact ⟨rfl, rfl⟩

theorem dynamicFlags_nonIrRef (s : SymtabEntry) : (dynamicFlags s).contains .hasNonIrRef = false := by
  unfold dynamicFlags
  split_ifs <;> rfl

theorem regularFlags_dynamic (cx : LoadContext) (o : InputObject) (s : SymtabEntry) :
    (cx.regularFlags o s).contains .dynamic = false := by
  unfold LoadContext.regularFlags
  split_ifs <;> simp

theorem downgradeFlags_dynamic (cx : LoadContext) (s : SymtabEntry) (name : Bytes) :
    (cx.downgradeFlags s name).contains .dynamic = false := by
  unfold LoadContext.downgradeFlags
  split_ifs <;> simp

theorem dynamicFlags_dynamic (s : SymtabEntry) : (dynamicFlags s).contains .dynamic = true := by
  unfold dynamicFlags
  split_ifs <;> simp

/-- Loading a symbol of a regular object. -/
theorem loadRegularSymbol_agrees {cx : LoadContext} {o : InputObject} {index : Nat} {s : SymtabEntry}
    {load : SymbolLoad} (hdyn : o.isDynamic = false) (hs : o.symbols[index]? = some s)
    (h : loadRegularSymbol cx o s = .ok load) : load.Agrees (.object o) index := by
  unfold loadRegularSymbol at h
  have hdefines : InputFile.definesSymbol (.object o) index = !s.isUndefined := by
    simp [InputFile.definesSymbol, hs, hdyn]
  have hlibrary : ∀ flags : ValueFlags, (InputFile.object o).isDynamic = true →
      flags.contains .nonInterposable = false ∧ flags.contains .downgradeToLocal = false := by
    intro flags h'
    have h' : o.isDynamic = true := h'
    rw [hdyn] at h'
    exact absurd h' Bool.false_ne_true
  by_cases hundef : s.isUndefined = true
  · rw [if_pos hundef] at h
    obtain rfl := Except.ok.inj h
    have hname : o.definedName index = none := by simp [InputObject.definedName, hs, hundef]
    exact ⟨by rw [hdefines, hundef]; rfl, by simp [InputFile.unversionedName, hname],
      by simp [InputFile.versionedName, hname], by rw [regularFlags_dynamic]; exact hdyn.symm,
      hlibrary _, regularFlags_nonIrRef cx o s⟩
  · rw [if_neg hundef] at h
    have hundef' : s.isUndefined = false := by simpa using hundef
    by_cases hlocal : s.isLocal = true
    · rw [if_pos hlocal] at h
      obtain rfl := Except.ok.inj h
      have hname : o.definedName index = none := by simp [InputObject.definedName, hs, hlocal]
      exact ⟨by rw [hdefines, hundef']; rfl, by simp [InputFile.unversionedName, hname],
        by simp [InputFile.versionedName, hname], by rw [regularFlags_dynamic]; exact hdyn.symm,
        hlibrary _, regularFlags_nonIrRef cx o s⟩
    · rw [if_neg hlocal] at h
      cases hn : s.name with
      | none => rw [hn] at h; exact absurd h (by simp)
      | some nameBytes =>
        rw [hn] at h
        obtain rfl := Except.ok.inj h
        have hname : o.definedName index = some (RawSymbolName.parse nameBytes) := by
          simp [InputObject.definedName, hs, hundef', hdyn, hlocal, hn]
        refine ⟨by rw [hdefines, hundef']; rfl, by simp [SymbolLoad.named, InputFile.unversionedName, hname],
          by simp [SymbolLoad.named, InputFile.versionedName, hname], ?_, hlibrary _, ?_⟩
        · simp only [SymbolLoad.named, ValueFlags.contains_union, regularFlags_dynamic, downgradeFlags_dynamic]
          exact hdyn.symm
        · simp only [SymbolLoad.named, ValueFlags.contains_union, regularFlags_nonIrRef,
            downgradeFlags_nonIrRef, Bool.or_self]

/-- Loading a symbol of a shared object. -/
theorem loadDynamicSymbol_agrees {o : InputObject} {versionNames : List (Option Bytes)} {index : Nat}
    {s : SymtabEntry} {load : SymbolLoad} (hdyn : o.isDynamic = true) (hs : o.symbols[index]? = some s)
    (hv : o.versionNames = .ok versionNames) (h : loadDynamicSymbol o versionNames index s = .ok load) :
    load.Agrees (.object o) index := by
  unfold loadDynamicSymbol at h
  have hdefines : InputFile.definesSymbol (.object o) index = !(s.isUndefined || s.isHidden) := by
    simp [InputFile.definesSymbol, hs, hdyn]
  by_cases hignored : (s.isUndefined || s.isHidden) = true
  · rw [if_pos hignored] at h
    obtain rfl := Except.ok.inj h
    have hname : o.definedName index = none := by
      simp [InputObject.definedName, hs, hdyn, hignored]
    exact ⟨by rw [hdefines, hignored]; rfl, by simp [InputFile.unversionedName, hname],
      by simp [InputFile.versionedName, hname], by rw [dynamicFlags_dynamic]; exact hdyn.symm,
      fun _ => dynamicFlags_library s, dynamicFlags_nonIrRef s⟩
  · rw [if_neg hignored] at h
    have hignored' : (s.isUndefined || s.isHidden) = false := by simpa using hignored
    by_cases hlocal : s.isLocal = true
    · rw [if_pos hlocal] at h
      obtain rfl := Except.ok.inj h
      have hname : o.definedName index = none := by simp [InputObject.definedName, hs, hlocal]
      exact ⟨by rw [hdefines, hignored']; rfl, by simp [InputFile.unversionedName, hname],
        by simp [InputFile.versionedName, hname], by rw [dynamicFlags_dynamic]; exact hdyn.symm,
        fun _ => dynamicFlags_library s, dynamicFlags_nonIrRef s⟩
    · rw [if_neg hlocal] at h
      cases hn : s.name with
      | none => rw [hn] at h; exact absurd h (by simp)
      | some nameBytes =>
        rw [hn] at h
        obtain rfl := Except.ok.inj h
        have hname : o.definedName index = some (symbolNameAndVersion o versionNames nameBytes index) := by
          have hlocal' : s.isLocal = false := by simpa using hlocal
          simp only [InputObject.definedName, hs, hdyn, Bool.true_and, hignored', Bool.false_or, hlocal', hn,
            hv, Bool.false_eq_true, if_false, if_true]
        refine ⟨by rw [hdefines, hignored']; rfl, by simp [SymbolLoad.named, InputFile.unversionedName, hname],
          by simp [SymbolLoad.named, InputFile.versionedName, hname], ?_,
          fun _ => dynamicFlags_library s, dynamicFlags_nonIrRef s⟩
        simp only [SymbolLoad.named, dynamicFlags_dynamic]
        exact hdyn.symm

theorem loadPreludeSymbol_agrees {defs : List InternalSymDefInfo} {index : Nat} {d : InternalSymDefInfo}
    (hd : defs[index]? = some d) : (loadPreludeSymbol d).Agrees (.prelude defs) index := by
  have hlt : index < defs.length := (List.getElem?_eq_some_iff.mp hd).1
  have hdefines : InputFile.definesSymbol (.prelude defs) index = true := by
    simp [InputFile.definesSymbol, InputFile.numSymbols, hlt]
  have hname : InputFile.unversionedName (.prelude defs) index = if d.isNamed then some d.name else none := by
    simp [InputFile.unversionedName, hd]
  refine ⟨?_, ?_, ?_, ?_, fun h => absurd h Bool.false_ne_true, ?_⟩
  · rw [hdefines]
    unfold loadPreludeSymbol
    cases d.placement <;> rfl
  · rw [hname]
    unfold loadPreludeSymbol InternalSymDefInfo.isNamed
    cases d.placement <;> rfl
  · unfold loadPreludeSymbol
    cases d.placement <;> rfl
  · unfold loadPreludeSymbol
    cases hp : d.placement <;> simp only <;> split_ifs <;> simp [InputFile.isDynamic]
  · unfold loadPreludeSymbol
    cases hp : d.placement <;> simp only <;> split_ifs <;> simp

/-- **Loading a file** writes one entry for each symbol, and the entries agree with the file. -/
theorem loadSymbols_agrees {cx : LoadContext} {f : InputFile} {loads : List SymbolLoad}
    (h : f.loadSymbols cx = .ok loads) :
    (∀ (i : Nat) (load : SymbolLoad), loads[i]? = some load → load.Agrees f i) ∧
    ((∀ names, f ≠ .syntheticSymbols names) → loads.length = f.numSymbols) := by
  cases f with
  | prelude defs =>
    obtain rfl := Except.ok.inj h
    refine ⟨?_, fun _ => by simp [InputFile.numSymbols]⟩
    intro i load hi
    rw [List.getElem?_map, Option.map_eq_some_iff] at hi
    obtain ⟨d, hd, rfl⟩ := hi
    exact loadPreludeSymbol_agrees hd
  | object o =>
    simp only [InputFile.loadSymbols] at h
    by_cases hdyn : o.isDynamic = true
    · rw [if_pos hdyn] at h
      obtain ⟨versionNames, hv, h⟩ := Traverse.bind_eq_ok.mp h
      obtain ⟨hlen, hget⟩ := mapIdxExcept_ok h
      refine ⟨?_, fun _ => hlen⟩
      intro i load hi
      obtain ⟨s, hs, hload⟩ := hget i load hi
      rw [Nat.zero_add] at hload
      exact loadDynamicSymbol_agrees hdyn hs hv hload
    · rw [if_neg hdyn] at h
      obtain ⟨hlen, hget⟩ := mapIdxExcept_ok h
      refine ⟨?_, fun _ => hlen⟩
      intro i load hi
      obtain ⟨s, hs, hload⟩ := hget i load hi
      exact loadRegularSymbol_agrees (by simpa using hdyn) hs hload
  | stubLibrary s =>
    obtain rfl := Except.ok.inj h
    refine ⟨?_, fun _ => by simp [InputFile.numSymbols]⟩
    intro i load hi
    rw [List.getElem?_map, Option.map_eq_some_iff] at hi
    obtain ⟨name, hname, rfl⟩ := hi
    have hlt : i < (s.symbols ++ s.weakSymbols).length := (List.getElem?_eq_some_iff.mp hname).1
    rw [List.length_append] at hlt
    exact ⟨by simp [loadStubLibrarySymbol, InputFile.definesSymbol, InputFile.numSymbols, hlt],
      by simp [loadStubLibrarySymbol, InputFile.unversionedName, hname], rfl,
      by simp [loadStubLibrarySymbol, InputFile.isDynamic], fun _ => ⟨rfl, rfl⟩, rfl⟩
  | linkerScript s =>
    obtain rfl := Except.ok.inj h
    refine ⟨?_, fun _ => by simp [InputFile.numSymbols]⟩
    intro i load hi
    rw [List.getElem?_map, Option.map_eq_some_iff] at hi
    obtain ⟨d, hd, rfl⟩ := hi
    have hlt : i < s.symbolDefs.length := (List.getElem?_eq_some_iff.mp hd).1
    refine ⟨by simp [loadLinkerScriptSymbol, InputFile.definesSymbol, InputFile.numSymbols, hlt],
      by simp [loadLinkerScriptSymbol, InputFile.unversionedName, hd], rfl, ?_,
      fun h => absurd h Bool.false_ne_true, ?_⟩
    · simp only [loadLinkerScriptSymbol]
      split_ifs <;> simp [InputFile.isDynamic]
    · simp only [loadLinkerScriptSymbol]
      split_ifs <;> rfl
  | syntheticSymbols names =>
    obtain rfl := Except.ok.inj h
    exact ⟨fun i load hi => absurd hi (by simp), fun hne => absurd rfl (hne names)⟩
  | ltoInput o =>
    obtain rfl := Except.ok.inj h
    refine ⟨?_, fun _ => by simp [InputFile.numSymbols]⟩
    intro i load hi
    rw [List.getElem?_map, Option.map_eq_some_iff] at hi
    obtain ⟨s, hs, rfl⟩ := hi
    unfold loadLtoSymbol
    by_cases hdef : s.isDefinition = true
    · rw [if_pos hdef]
      cases hv : s.version <;>
        exact ⟨by simp [InputFile.definesSymbol, hs, hdef],
          by simp [InputFile.unversionedName, hs, hdef, hv],
          by simp [InputFile.versionedName, hs, hdef, hv], rfl,
          fun h => absurd h Bool.false_ne_true, rfl⟩
    · rw [if_neg hdef]
      exact ⟨by simpa [InputFile.definesSymbol, hs] using hdef,
        by simp [InputFile.unversionedName, hs, hdef],
        by simp [InputFile.versionedName, hs, hdef], rfl, fun h => absurd h Bool.false_ne_true, rfl⟩

end Reld

/-!
# Adding a batch of files to the database

`add_inputs` puts the files of a batch into new groups, loads their symbols, appends what was loaded to the
tables, and fills the buckets with the pending names. It runs once for the command line and once more for
the output of a linker plugin. `apply_wrapped_symbol_overrides` rewrites the name map after each batch.
-/

namespace Reld

/-- `PerSymbolFlags`. -/
abbrev PerSymbolFlags := SymbolId → ValueFlags

/-- `LoadedInputs`. How the objects are split into groups depends on the number of threads and symbols, so
    the groups are given. -/
structure LoadedInputs where
  objects : List (List InputObject) := []
  linkerScripts : List LinkerScript := []
  stubLibraries : List StubLibrary := []
  ltoObjects : List (List LtoInput) := []

/-! ## The prelude -/

/-- `glob_undefined_names`: the names of global definitions in regular objects that match a pattern, sorted
    and without duplicates. -/
def globUndefinedNames (patterns : List (Bytes → Bool)) (objects : List InputObject) : List Bytes :=
  let names := objects.flatMap fun o =>
    if o.isDynamic then []
    else
      o.symbols.filterMap fun s =>
        if s.isLocal || s.isUndefined then none
        else
          match s.name with
          | some name => if !name.isEmpty && patterns.any (fun p => p name) then some name else none
          | none => none
  (names.insertionSort (fun a b => a.map UInt8.toNat ≤ b.map UInt8.toNat)).dedup

/-- `Prelude::new`. The undefined symbol is always symbol 0. -/
def preludeDefinitions (args : Args) (globUndefinedNames : List Bytes) : List InternalSymDefInfo :=
  { name := [], placement := .undefined, isHidden := true } ::
    (args.linkerDefinedSymbols ++
      args.forceUndefinedSymbolNames.map (fun name => { name, placement := .forceUndefined }) ++
      globUndefinedNames.map (fun name => { name, placement := .forceUndefined }) ++
      args.defsym.map (fun d => { name := d.1, placement := .redirect { expression := d.2, loc := .none } }))

/-! ## Groups and tables -/

/-- The groups that a batch adds: the prelude before the first batch, then objects, linker scripts, stub
    libraries and plugin inputs. -/
def newGroups (db : SymbolDb) (loaded : LoadedInputs) : List Group :=
  (if db.groups.isEmpty then
    [Group.prelude (preludeDefinitions db.args
      (globUndefinedNames db.args.undefinedGlobPatterns loaded.objects.flatten))]
  else []) ++
  loaded.objects.map .objects ++
  (if loaded.linkerScripts.isEmpty then [] else [.linkerScripts loaded.linkerScripts]) ++
  (if loaded.stubLibraries.isEmpty then [] else [.stubLibraries loaded.stubLibraries]) ++
  loaded.ltoObjects.map .ltoInputs

/-- `add_version_script_from_linker_scripts`. -/
def addVersionScripts : Option VersionScript → List LinkerScript → Except LinkError (Option VersionScript)
  | v, [] => .ok v
  | v, s :: rest =>
    match s.versionScript, v with
    | none, v => addVersionScripts v rest
    | some new, none => addVersionScripts (some new) rest
    | some _, some _ => .error .multipleVersionScripts

/-- `read_symbols`: the loads of all new files, one after another. -/
def readSymbols (cx : LoadContext) : List (FileId × InputFile) → Except LinkError (List SymbolLoad)
  | [] => .ok []
  | f :: fs => do
      let loads ← f.2.loadSymbols cx
      let rest ← readSymbols cx fs
      return loads ++ rest

/-- A table that goes on with the given entries from `start` on. -/
def extendTable {α : Type} (table : SymbolId → α) (start : SymbolId) (entries : List α) : SymbolId → α :=
  fun id => if id < start then table id else (entries[id - start]?).getD (table id)

/-- The initial definitions of the loaded symbols. -/
def initialDefinitions (start : SymbolId) (loads : List SymbolLoad) : List SymbolId :=
  loads.mapIdx (fun i load => if load.isDefined then start + i else 0)

/-- The pending symbols of a batch: the names chosen by `nameOf`, with the identifiers from `start` on. -/
def pendingFrom {N : Type} (nameOf : SymbolLoad → Option N) (start : SymbolId) :
    List SymbolLoad → List (N × SymbolId)
  | [] => []
  | load :: rest =>
    match nameOf load with
    | some n => (n, start) :: pendingFrom nameOf (start + 1) rest
    | none => pendingFrom nameOf (start + 1) rest

/-- `populate_symbol_db`: every bucket takes the pending symbols whose name hashes to it. -/
def populateBuckets (db : SymbolDb) (start : SymbolId) (loads : List SymbolLoad) : Nat → SymbolBucket :=
  fun b =>
    { names := (db.buckets b).names.addAll
        ((pendingFrom SymbolLoad.unversioned start loads).filter (fun p => db.nameBucket p.1 = b))
      versionedNames := (db.buckets b).versionedNames.addAll
        ((pendingFrom SymbolLoad.versioned start loads).filter
          (fun p => db.versionedNameBucket p.1.1 p.1.2 = b)) }

/-- `add_inputs`. -/
def addInputs (db : SymbolDb) (flags : PerSymbolFlags) (loaded : LoadedInputs) :
    Except LinkError (SymbolDb × PerSymbolFlags) := do
  let versionScript ← addVersionScripts db.versionScript loaded.linkerScripts
  let groups := newGroups db loaded
  let cx : LoadContext := { args := db.args, outputKind := db.outputKind, versionScript := versionScript }
  let loads ← readSymbols cx (enumerateFiles db.groups.length groups)
  let start := db.numSymbols
  let db' := { db with
    groups := db.groups ++ groups
    buckets := populateBuckets db start loads
    symbolDefinitions := extendTable db.symbolDefinitions start (initialDefinitions start loads)
    versionScript := versionScript
    entry := (loaded.linkerScripts.flatMap LinkerScript.entries).getLast?.or db.entry }
  return (db', extendTable flags start (loads.map SymbolLoad.flags))

/-- `SymbolDb::new`. -/
def SymbolDb.new (args : Args) (outputKind : OutputKind) (versionScript : Option VersionScript) : SymbolDb :=
  { args, outputKind, versionScript
    groups := []
    buckets := fun _ => .empty
    symbolDefinitions := fun _ => 0
    entry := none }

/-! ## `--wrap` -/

namespace SymbolDb

/-- `override_name`: let `name` point to `id`. -/
def overrideName (db : SymbolDb) (name : Bytes) (id : SymbolId) : SymbolDb :=
  { db with
    buckets := Function.update db.buckets (db.nameBucket name)
      { db.buckets (db.nameBucket name) with
        names := (db.buckets (db.nameBucket name)).names.override name id } }

def wrapName (name : Bytes) : Bytes := bytesOf "__wrap_" ++ name

def realName (name : Bytes) : Bytes := bytesOf "__real_" ++ name

/-- One name of `apply_wrapped_symbol_overrides`. The original symbol is looked up under `__real_` first,
    since on a second call the name itself already stands for its wrapper. -/
def applyWrappedSymbolOverride (db : SymbolDb) (name : Bytes) : SymbolDb :=
  let origId := (db.getUnversioned (realName name)).or (db.getUnversioned name)
  let db' :=
    match db.getUnversioned (wrapName name) with
    | some wrapId => db.overrideName name wrapId
    | none => db
  match origId with
  | some origId => db'.overrideName (realName name) origId
  | none => db'

/-- `apply_wrapped_symbol_overrides`. -/
def applyWrappedSymbolOverrides (db : SymbolDb) : SymbolDb :=
  db.args.symbolNamesToWrap.foldl applyWrappedSymbolOverride db

/-- `disable_lto_inputs`. -/
def disableLtoInputs (db : SymbolDb) : SymbolDb :=
  { db with
    groups := db.groups.map fun
      | .ltoInputs l => .ltoInputs (l.map fun o => { o with enabled := false })
      | g => g }

end SymbolDb

end Reld
