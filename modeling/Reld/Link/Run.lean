import Reld.Link.FirstPass

/-!
# `Link.Run` — the phases of a link as steps

A link goes through its phases one after another: inputs are added, wrapped names are moved, symbols are
resolved, alternatives are selected; with a linker plugin, the first four run once more for its output.
`LinkStep` is any one of these phases, so what holds along every chain of steps (`List.IsChain`) holds for
a link with a plugin, for one without, and for one that stops early.

No phase forgets a symbol or changes what its file says of it (`LinkStep.keepsSymbols`), and the buckets only
ever hold symbols under names that they have (`SymbolDb.WellNamed`).
-/

namespace Reld

/-! ## Phases that only change flags -/

/-- `mark_wrap_symbols_as_non_ir_ref`: the names involved in wrapping are referenced from outside of the
    plugin. -/
def markWrapSymbolsAsNonIrRef (db : SymbolDb) (flags : PerSymbolFlags) : PerSymbolFlags :=
  (db.args.symbolNamesToWrap.flatMap fun name =>
      [name, SymbolDb.wrapName name, SymbolDb.realName name]).foldl
    (fun flags lookupName =>
      match db.getUnversioned lookupName with
      | some symbolId => setFlags flags symbolId [.hasNonIrRef]
      | none => flags) flags

/-- The first loop of `handle_rust_version_script`: the exported names are global again. -/
def upgradeExported (db : SymbolDb) (global : List Bytes) (flags : PerSymbolFlags) : PerSymbolFlags :=
  global.foldl
    (fun flags symbol =>
      match db.getUnversioned symbol with
      | some symbolId =>
        Function.update flags (db.definition symbolId)
          ((flags (db.definition symbolId)).remove (.ofList [.downgradeToLocal]))
      | none => flags) flags

/-- `handle_rust_version_script`. What is still local after the upgrade is not interposable. -/
def handleRustVersionScript (db : SymbolDb) (global : List Bytes) (flags : PerSymbolFlags) :
    PerSymbolFlags :=
  fun id =>
    let flagsVal := upgradeExported db global flags id
    if flagsVal.contains .downgradeToLocal then flagsVal.union (.ofList [.nonInterposable]) else flagsVal

/-- What marking a name leaves of the other flags. -/
theorem markWrapSymbolsAsNonIrRef_contains (db : SymbolDb) (flags : PerSymbolFlags) (id : SymbolId) (x : Flag) :
    (markWrapSymbolsAsNonIrRef db flags id).contains x = true ↔ (flags id).contains x = true ∨
      (x = .hasNonIrRef ∧ ∃ name ∈ db.args.symbolNamesToWrap, ∃ lookupName ∈
        [name, SymbolDb.wrapName name, SymbolDb.realName name], db.getUnversioned lookupName = some id) := by
  have hfold : ∀ (names : List Bytes) (flags : PerSymbolFlags),
      (names.foldl (fun flags lookupName =>
        match db.getUnversioned lookupName with
        | some symbolId => setFlags flags symbolId [.hasNonIrRef]
        | none => flags) flags id).contains x = true ↔ (flags id).contains x = true ∨
          (x = .hasNonIrRef ∧ ∃ lookupName ∈ names, db.getUnversioned lookupName = some id) := by
    intro names
    induction names with
    | nil => intro flags; simp
    | cons name names ih =>
      intro flags
      rw [List.foldl_cons, ih]
      cases hlookup : db.getUnversioned name with
      | none => simp [hlookup]
      | some k =>
        simp only [setFlags_contains, Bool.or_eq_true, Bool.and_eq_true, decide_eq_true_eq,
          List.mem_cons, List.not_mem_nil, or_false, exists_eq_or_imp, hlookup, Option.some.injEq]
        constructor
        · rintro ((h | ⟨rfl, hx⟩) | ⟨hx, h⟩)
          · exact Or.inl h
          · exact Or.inr ⟨hx, Or.inl rfl⟩
          · exact Or.inr ⟨hx, Or.inr h⟩
        · rintro (h | ⟨hx, rfl | h⟩)
          · exact Or.inl (Or.inl h)
          · exact Or.inl (Or.inr ⟨rfl, hx⟩)
          · exact Or.inr ⟨hx, h⟩
  unfold markWrapSymbolsAsNonIrRef
  rw [hfold]
  refine or_congr_right (and_congr_right (fun _ => ?_))
  simp only [List.mem_flatMap]
  constructor
  · rintro ⟨lookupName, ⟨name, hname, hmem⟩, hlookup⟩
    exact ⟨name, hname, lookupName, hmem, hlookup⟩
  · rintro ⟨name, hname, lookupName, hmem, hlookup⟩
    exact ⟨lookupName, ⟨name, hname, hmem⟩, hlookup⟩

/-- The first loop only takes `DOWNGRADE_TO_LOCAL` away, from the definitions of the exported names. -/
theorem upgradeExported_contains (db : SymbolDb) (global : List Bytes) (flags : PerSymbolFlags) (id : SymbolId)
    (x : Flag) :
    (upgradeExported db global flags id).contains x = true ↔ (flags id).contains x = true ∧
      (x = .downgradeToLocal →
        ∀ symbol ∈ global, ∀ k, db.getUnversioned symbol = some k → db.definition k ≠ id) := by
  unfold upgradeExported
  induction global generalizing flags with
  | nil => simp
  | cons symbol global ih =>
    rw [List.foldl_cons, ih]
    cases hlookup : db.getUnversioned symbol with
    | none => simp [hlookup]
    | some k =>
      by_cases hid : db.definition k = id
      · subst hid
        simp only [Function.update_self, ValueFlags.contains_remove, ValueFlags.contains_ofList,
          Bool.and_eq_true, Bool.not_eq_true', decide_eq_false_iff_not, List.mem_cons,
          List.not_mem_nil, or_false, forall_eq_or_imp, hlookup, Option.some.injEq, forall_eq']
        constructor
        · rintro ⟨⟨h, hx⟩, _⟩
          exact ⟨h, fun hx' => absurd hx' hx⟩
        · rintro ⟨h, hx⟩
          exact ⟨⟨h, fun hx' => (hx hx').1 rfl⟩, fun hx' => (hx hx').2⟩
      · have hne : id ≠ db.definition k := fun heq => hid heq.symm
        simp [Function.update_of_ne hne, hlookup, hid]

/-! ## States and steps -/

/-- What the phases of a link pass on. -/
structure LinkState where
  db : SymbolDb
  flags : PerSymbolFlags
  resolver : Resolver

/-- The state before the first inputs. -/
def LinkState.new (args : Args) (outputKind : OutputKind) (versionScript : Option VersionScript) : LinkState :=
  { db := .new args outputKind versionScript, flags := fun _ => .empty, resolver := .new }

/-- One phase, without an error. -/
inductive LinkStep (s : LinkState) : LinkState → Prop
  | addInputs (loaded : LoadedInputs) {db : SymbolDb} {flags : PerSymbolFlags}
      (h : addInputs s.db s.flags loaded = .ok (db, flags)) :
      LinkStep s { s with db := db, flags := flags }
  | wrap : LinkStep s { s with db := s.db.applyWrappedSymbolOverrides }
  | resolve {db : SymbolDb} {flags : PerSymbolFlags} {r : Resolver}
      (h : ResolvesTo s.db s.flags s.resolver (db, flags, r)) :
      LinkStep s { db := db, flags := flags, resolver := r }
  | alternatives {db : SymbolDb} {flags : PerSymbolFlags}
      (h : ResolvesAlternatives s.db s.flags s.resolver (db, flags)) :
      LinkStep s { s with db := db, flags := flags }
  | markWrapped : LinkStep s { s with flags := markWrapSymbolsAsNonIrRef s.db s.flags }
  | disableLto : LinkStep s { s with db := s.db.disableLtoInputs }
  | rustVersionScript {global : List Bytes} (h : s.db.versionScript = some (.rust global)) :
      LinkStep s { s with flags := handleRustVersionScript s.db global s.flags }

/-! ## Plugin inputs after LTO -/

/-- A file when LTO has been performed. -/
def InputFile.disabled : InputFile → InputFile
  | .ltoInput o => .ltoInput { o with enabled := false }
  | f => f

namespace InputFile

variable (f : InputFile) (index : Nat)

@[simp] theorem disabled_numSymbols : f.disabled.numSymbols = f.numSymbols := by cases f <;> rfl

@[simp] theorem disabled_isDynamic : f.disabled.isDynamic = f.isDynamic := by cases f <;> rfl

@[simp] theorem disabled_unversionedName : f.disabled.unversionedName index = f.unversionedName index := by
  cases f <;> rfl

@[simp] theorem disabled_versionedName : f.disabled.versionedName index = f.versionedName index := by
  cases f <;> rfl

@[simp] theorem disabled_definesSymbol : f.disabled.definesSymbol index = f.definesSymbol index := by
  cases f <;> rfl

end InputFile

/-- The same symbol, its file disabled. -/
def disabledSymbol (p : (FileId × InputFile) × Nat) : (FileId × InputFile) × Nat :=
  ((p.1.1, p.1.2.disabled), p.2)

theorem enumerateFiles_disabled (disable : Group → Group)
    (h : ∀ g, (disable g).files = g.files.map InputFile.disabled) (gs : List Group) :
    ∀ first, enumerateFiles first (gs.map disable)
      = (enumerateFiles first gs).map (fun p => (p.1, p.2.disabled)) := by
  induction gs with
  | nil => intro first; rfl
  | cons g gs ih =>
    intro first
    rw [List.map_cons, enumerateFiles, enumerateFiles, List.map_append, ih, h]
    congr 1
    apply List.ext_getElem
    · simp
    · intro i _ _
      simp

namespace SymbolDb

theorem files_disableLtoInputs (db : SymbolDb) :
    db.disableLtoInputs.files = db.files.map (fun p => (p.1, p.2.disabled)) := by
  apply enumerateFiles_disabled
  intro g
  cases g with
  | prelude defs => rfl
  | syntheticSymbols names => rfl
  | _ l =>
    simp only [Group.files, List.map_map]
    rfl

theorem locate_disableLtoInputs (db : SymbolDb) (id : SymbolId) :
    db.disableLtoInputs.locate id = (db.locate id).map disabledSymbol := by
  unfold locate
  rw [files_disableLtoInputs]
  refine Segments.locate_map (fun p : FileId × InputFile => (p.1, p.2.disabled)) ?_ _ _
  intro p
  exact InputFile.disabled_numSymbols p.2

theorem numSymbols_disableLtoInputs (db : SymbolDb) : db.disableLtoInputs.numSymbols = db.numSymbols := by
  unfold numSymbols
  rw [files_disableLtoInputs]
  refine Segments.total_map (fun p : FileId × InputFile => (p.1, p.2.disabled)) ?_ _
  intro p
  exact InputFile.disabled_numSymbols p.2

end SymbolDb

/-! ## What every phase keeps -/

/-- The options, and the symbols with what their files say of them. New symbols may come after them. -/
structure KeepsSymbols (db db' : SymbolDb) : Prop where
  args : db'.args = db.args
  outputKind : db'.outputKind = db.outputKind
  count : db.numSymbols ≤ db'.numSymbols
  locate : ∀ id < db.numSymbols,
    db'.locate id = db.locate id ∨ db'.locate id = (db.locate id).map disabledSymbol

namespace KeepsSymbols

variable {db db' : SymbolDb}

theorem of_locate_eq (hargs : db'.args = db.args) (hkind : db'.outputKind = db.outputKind)
    (h : SameFiles db db') : KeepsSymbols db db' :=
  ⟨hargs, hkind, Nat.le_of_eq h.numSymbols.symm, fun id _ => Or.inl (h.locate id)⟩

variable {id : SymbolId}

/-- Whatever does not ask whether plugin inputs are enabled stays the same. -/
theorem locate_elim (h : KeepsSymbols db db') {β : Type} (F : Option ((FileId × InputFile) × Nat) → β)
    (hF : ∀ p, F (some (disabledSymbol p)) = F (some p)) (hid : id < db.numSymbols) :
    F (db'.locate id) = F (db.locate id) := by
  rcases h.locate id hid with heq | heq
  · rw [heq]
  · rw [heq]
    cases db.locate id with
    | none => rfl
    | some p => exact hF p

theorem unversionedName (h : KeepsSymbols db db') (hid : id < db.numSymbols) :
    db'.unversionedName id = db.unversionedName id :=
  h.locate_elim (fun o => o.bind fun p => p.1.2.unversionedName p.2)
    (fun p => InputFile.disabled_unversionedName p.1.2 p.2) hid

theorem versionedName (h : KeepsSymbols db db') (hid : id < db.numSymbols) :
    db'.versionedName id = db.versionedName id :=
  h.locate_elim (fun o => o.bind fun p => p.1.2.versionedName p.2)
    (fun p => InputFile.disabled_versionedName p.1.2 p.2) hid

theorem definesSymbol (h : KeepsSymbols db db') (hid : id < db.numSymbols) :
    db'.definesSymbol id = db.definesSymbol id := by
  unfold SymbolDb.definesSymbol
  rcases h.locate id hid with heq | heq <;> rw [heq]
  cases db.locate id with
  | none => rfl
  | some p => exact InputFile.disabled_definesSymbol p.1.2 p.2

theorem isDynamicSymbol (h : KeepsSymbols db db') (hid : id < db.numSymbols) :
    db'.isDynamicSymbol id = db.isDynamicSymbol id := by
  unfold SymbolDb.isDynamicSymbol
  rcases h.locate id hid with heq | heq <;> rw [heq]
  cases db.locate id with
  | none => rfl
  | some p => exact InputFile.disabled_isDynamic p.1.2

/-- A key keeps its definers. -/
theorem defines_iff (h : KeepsSymbols db db') {key : PreHashedSymbolName} (hid : id < db.numSymbols) :
    db'.Defines key id ↔ db.Defines key id := by
  cases key with
  | unversioned name =>
    show db'.unversionedName id = some name ↔ db.unversionedName id = some name
    rw [h.unversionedName hid]
  | versioned name version =>
    show db'.versionedName id = some (name, version) ↔ db.versionedName id = some (name, version)
    rw [h.versionedName hid]

theorem exists_defines (h : KeepsSymbols db db') (hid : ∃ key, db.Defines key id) :
    ∃ key, db'.Defines key id := by
  obtain ⟨key, hdefines⟩ := hid
  exact ⟨key, (h.defines_iff hdefines.lt_numSymbols).mpr hdefines⟩

theorem trans {db'' : SymbolDb} (h : KeepsSymbols db db') (h' : KeepsSymbols db' db'') : KeepsSymbols db db'' := by
  refine ⟨h'.args.trans h.args, h'.outputKind.trans h.outputKind, Nat.le_trans h.count h'.count, fun id hid => ?_⟩
  rcases h'.locate id (Nat.lt_of_lt_of_le hid h.count) with heq | heq <;> rw [heq]
  · exact h.locate id hid
  · right
    -- a disabled file stays disabled
    refine h.locate_elim (·.map disabledSymbol) (fun ⟨⟨_, f⟩, _⟩ => ?_) hid
    cases f <;> rfl

end KeepsSymbols

theorem AddedInputs.keepsSymbols {db db' : SymbolDb} {flags flags' : PerSymbolFlags} {loaded : LoadedInputs}
    (h : AddedInputs db flags loaded db' flags') : KeepsSymbols db db' := by
  refine ⟨h.args, h.outputKind, ?_, fun id hid => Or.inl (SymbolDb.locate_append_old h.groups hid)⟩
  rw [SymbolDb.numSymbols_append h.groups]
  exact Nat.le_add_right _ _

variable {s' s : LinkState}

/-- **Every phase keeps the symbols.** -/
theorem LinkStep.keepsSymbols (h : LinkStep s s') : KeepsSymbols s.db s'.db := by
  cases h with
  | addInputs loaded h => exact (addInputs_spec h).keepsSymbols
  | wrap =>
    have hmoved := namesMoved_applyWrappedSymbolOverrides s.db
    exact .of_locate_eq hmoved.args hmoved.outputKind ⟨hmoved.groups⟩
  | resolve h =>
    obtain ⟨_, _, hout⟩ := h.outcome
    rw [hout.db_eq]
    exact .of_locate_eq rfl rfl ⟨rfl⟩
  | alternatives h => exact .of_locate_eq h.frame.1 h.frame.2.1 ⟨h.frame.2.2.1⟩
  | markWrapped => exact .of_locate_eq rfl rfl ⟨rfl⟩
  | disableLto =>
    exact ⟨rfl, rfl, Nat.le_of_eq s.db.numSymbols_disableLtoInputs.symm,
      fun id _ => Or.inr (s.db.locate_disableLtoInputs id)⟩
  | rustVersionScript _ => exact .of_locate_eq rfl rfl ⟨rfl⟩

/-! ## The buckets -/

/-- The symbols that a bucket keeps under another one. -/
def SymbolDb.keptUnder (db : SymbolDb) (isVersioned : Bool) (b : Nat) (k : SymbolId) : List SymbolId :=
  if isVersioned then (db.buckets b).versionedNames.alternativesOf k else (db.buckets b).names.alternativesOf k

/-- The buckets hold named symbols, the versioned ones under their own names, and no empty list. `--wrap`
    lets an unversioned name stand for a symbol of another name. -/
structure SymbolDb.WellNamed (db : SymbolDb) : Prop where
  names : ∀ b n k, (db.buckets b).names.nameToId n = some k → ∃ m, db.unversionedName k = some m
  versionedNames : ∀ b n k, (db.buckets b).versionedNames.nameToId n = some k →
    db.versionedName k = some n
  kept : ∀ v b k id, id ∈ db.keptUnder v b k →
    (∃ key, db.Defines key k) ∧ ∃ key, db.Defines key id
  noEmpty : ∀ b, (db.buckets b).names.NoEmptyEntry
  versionedNoEmpty : ∀ b, (db.buckets b).versionedNames.NoEmptyEntry

namespace SymbolDb.WellNamed

variable {db : SymbolDb}

theorem new (args : Args) (outputKind : OutputKind) (versionScript : Option VersionScript) :
    (SymbolDb.new args outputKind versionScript).WellNamed :=
  ⟨fun _ _ _ h => absurd h (by simp [SymbolDb.new, SymbolBucket.empty, FirstTable.empty]),
    fun _ _ _ h => absurd h (by simp [SymbolDb.new, SymbolBucket.empty, FirstTable.empty]),
    fun v _ _ _ h => by cases v <;> exact absurd h List.not_mem_nil,
    fun _ => FirstTable.noEmptyEntry_of_empty rfl, fun _ => FirstTable.noEmptyEntry_of_empty rfl⟩

/-- The entries are the lists kept in the buckets that are not empty. -/
theorem mem_alternativeEntries (h : db.WellNamed) {e : AlternativeEntry} :
    e ∈ db.alternativeEntries ↔ e.bucket < db.args.availableThreads ∧ e.alternatives ≠ [] ∧
      db.keptUnder e.isVersioned e.bucket e.first = e.alternatives := by
  rw [Reld.mem_alternativeEntries, FirstTable.mem_entries_iff (h.noEmpty e.bucket),
    FirstTable.mem_entries_iff (h.versionedNoEmpty e.bucket)]
  unfold SymbolDb.keptUnder
  cases e.isVersioned <;> simp

variable {key : PreHashedSymbolName}

/-- A symbol that a name stands for is named. -/
theorem defines_of_lookup (h : db.WellNamed) {k : SymbolId} (hk : db.lookup key = some k) :
    ∃ key, db.Defines key k := by
  cases key with
  | unversioned name =>
    obtain ⟨m, hm⟩ := h.names _ _ _ hk
    exact ⟨.unversioned m, hm⟩
  | versioned name version => exact ⟨.versioned name version, h.versionedNames _ _ _ hk⟩

theorem lt_numSymbols (h : db.WellNamed) {k : SymbolId} (hk : db.lookup key = some k) : k < db.numSymbols := by
  obtain ⟨_, hdefines⟩ := h.defines_of_lookup hk
  exact hdefines.lt_numSymbols

/-- The symbols of a batch are in no bucket yet. -/
theorem fresh {N : Type} [DecidableEq N] {t : Nat → FirstTable N SymbolId}
    (ht : ∀ b n k, (t b).nameToId n = some k → k < db.numSymbols) (nameOf : SymbolId → Option N)
    (count : Nat) : ShardedTable.Fresh t (namedIds nameOf db.numSymbols count) := by
  refine ⟨namedIds_nodup _ _ _, ?_⟩
  intro b n k hk hmem
  obtain ⟨p, hp, rfl⟩ := List.mem_map.mp hmem
  exact absurd (mem_namedIds.mp hp).1 (Nat.not_le.mpr (ht b n p.2 hk))

theorem fresh_names (h : db.WellNamed) (nameOf : SymbolId → Option Bytes) (count : Nat) :
    ShardedTable.Fresh db.nameTables (namedIds nameOf db.numSymbols count) := by
  refine fresh (fun b n k hk => ?_) nameOf count
  obtain ⟨m, hm⟩ := h.names b n k hk
  exact SymbolDb.lt_numSymbols_of_unversionedName hm

theorem fresh_versionedNames (h : db.WellNamed) (nameOf : SymbolId → Option (Bytes × Bytes)) (count : Nat) :
    ShardedTable.Fresh db.versionedNameTables (namedIds nameOf db.numSymbols count) :=
  fresh (fun b n k hk => SymbolDb.lt_numSymbols_of_versionedName (h.versionedNames b n k hk)) nameOf count

/-- The lists do not matter for what the maps hold. -/
theorem of_values {db' : SymbolDb} (h : db.WellNamed) (hkeeps : KeepsSymbols db db')
    (hnames : ∀ b n k, (db'.buckets b).names.nameToId n = some k →
      ∃ b' m, (db.buckets b').names.nameToId m = some k)
    (hversioned : ∀ b n k, (db'.buckets b).versionedNames.nameToId n = some k →
      (db.buckets b).versionedNames.nameToId n = some k)
    (hkept : ∀ v b k id, id ∈ db'.keptUnder v b k → id ∈ db.keptUnder v b k)
    (hlist : ∀ b, (db'.buckets b).names.NoEmptyEntry)
    (hversionedList : ∀ b, (db'.buckets b).versionedNames.NoEmptyEntry) : db'.WellNamed := by
  refine ⟨?_, ?_, ?_, hlist, hversionedList⟩
  · intro b n k hk
    obtain ⟨b', m, hold⟩ := hnames b n k hk
    obtain ⟨name, hname⟩ := h.names b' m k hold
    exact ⟨name, (hkeeps.unversionedName (SymbolDb.lt_numSymbols_of_unversionedName hname)).trans hname⟩
  · intro b n k hk
    have hold := h.versionedNames b n k (hversioned b n k hk)
    exact (hkeeps.versionedName (SymbolDb.lt_numSymbols_of_versionedName hold)).trans hold
  · intro v b k id hid
    obtain ⟨hk, hid⟩ := h.kept v b k id (hkept v b k id hid)
    exact ⟨hkeeps.exists_defines hk, hkeeps.exists_defines hid⟩

end SymbolDb.WellNamed

namespace AddedInputs

variable {db db' : SymbolDb} {flags flags' : PerSymbolFlags} {loaded : LoadedInputs}

/-- **Lookup after a batch**: a name keeps its symbol, and a new one gets its first definer. -/
theorem lookup_or (h : AddedInputs db flags loaded db' flags') (key : PreHashedSymbolName) :
    db'.lookup key = (db.lookup key).or
      ((List.range' db.numSymbols (db'.numSymbols - db.numSymbols)).filter
        (fun id => id ∈ db'.definersOf key)).head? := by
  cases key with
  | unversioned name =>
    have hargs : db'.nameBucket = db.nameBucket := by
      unfold SymbolDb.nameBucket
      rw [h.args]
    show db'.getUnversioned name = _
    rw [SymbolDb.getUnversioned_eq_lookup, h.names, hargs, ShardedTable.lookup_addAll, idsOf_namedIds]
    simp only [SymbolDb.definersOf, SymbolDb.mem_definers_iff]
    rfl
  | versioned name version =>
    have hargs : db'.versionedBucketOf = db.versionedBucketOf := by
      unfold SymbolDb.versionedBucketOf SymbolDb.versionedNameBucket
      rw [h.args]
    show ShardedTable.lookup db'.versionedBucketOf db'.versionedNameTables (name, version) = _
    rw [h.versionedNames, hargs, ShardedTable.lookup_addAll, idsOf_namedIds]
    simp only [SymbolDb.definersOf, SymbolDb.mem_versionedDefiners_iff]
    rfl

variable {key : PreHashedSymbolName} {k : SymbolId}

theorem lookup_of_some (h : AddedInputs db flags loaded db' flags') (hk : db.lookup key = some k) :
    db'.lookup key = some k := by
  rw [h.lookup_or, hk]
  rfl

theorem lookup_cases (h : AddedInputs db flags loaded db' flags') (hk : db'.lookup key = some k) :
    db.lookup key = some k ∨ db'.Defines key k := by
  rw [h.lookup_or] at hk
  rcases Option.or_eq_some_iff.mp hk with hold | ⟨_, hnew⟩
  · exact Or.inl hold
  · have hmem := (List.mem_filter.mp (List.mem_of_mem_head? hnew)).2
    exact Or.inr (SymbolDb.mem_definersOf.mp (of_decide_eq_true hmem))

/-- **What a batch adds to the lists**: each new symbol whose key stands for another one is kept under
    that one. -/
theorem mem_keptUnder (h : AddedInputs db flags loaded db' flags') (hw : db.WellNamed) {v : Bool} {b : Nat}
    {id : SymbolId} :
    id ∈ db'.keptUnder v b k ↔ id ∈ db.keptUnder v b k ∨
      ∃ key, key.isVersioned = v ∧ db.keyBucket key = b ∧ db.numSymbols ≤ id ∧ db'.Defines key id ∧
        db'.lookup key = some k ∧ id ≠ k := by
  have hcount : ∀ {key : PreHashedSymbolName} {i : SymbolId}, db'.Defines key i →
      i < db.numSymbols + (db'.numSymbols - db.numSymbols) := by
    intro key i hi
    rw [Nat.add_sub_cancel' h.keepsSymbols.count]
    exact hi.lt_numSymbols
  cases v with
  | false =>
    have hargs : db'.nameBucket = db.nameBucket := by
      unfold SymbolDb.nameBucket
      rw [h.args]
    show id ∈ (db'.nameTables b).alternativesOf k ↔ _
    rw [h.names, ShardedTable.mem_alternativesOf_addAll (hw.fresh_names _ _), ← h.names, ← hargs]
    refine or_congr_right ?_
    constructor
    · rintro ⟨n, hmem, hb, hlookup, hne⟩
      obtain ⟨hlo, _, hname⟩ := mem_namedIds.mp hmem
      exact ⟨.unversioned n, rfl, (congrFun hargs n).symm.trans hb, hlo, hname, hlookup, hne⟩
    · rintro ⟨key, hv, hb, hlo, hdef, hlookup, hne⟩
      cases key with
      | unversioned n =>
        exact ⟨n, mem_namedIds.mpr ⟨hlo, hcount hdef, hdef⟩, (congrFun hargs n).trans hb, hlookup, hne⟩
      | versioned n version => exact absurd hv (by simp [PreHashedSymbolName.isVersioned])
  | true =>
    have hargs : db'.versionedBucketOf = db.versionedBucketOf := by
      unfold SymbolDb.versionedBucketOf SymbolDb.versionedNameBucket
      rw [h.args]
    show id ∈ (db'.versionedNameTables b).alternativesOf k ↔ _
    rw [h.versionedNames, ShardedTable.mem_alternativesOf_addAll (hw.fresh_versionedNames _ _),
      ← h.versionedNames, ← hargs]
    refine or_congr_right ?_
    constructor
    · rintro ⟨⟨n, version⟩, hmem, hb, hlookup, hne⟩
      obtain ⟨hlo, _, hname⟩ := mem_namedIds.mp hmem
      exact ⟨.versioned n version, rfl, (congrFun hargs (n, version)).symm.trans hb, hlo, hname, hlookup, hne⟩
    · rintro ⟨key, hv, hb, hlo, hdef, hlookup, hne⟩
      cases key with
      | unversioned n => exact absurd hv (by simp [PreHashedSymbolName.isVersioned])
      | versioned n version =>
        exact ⟨(n, version), mem_namedIds.mpr ⟨hlo, hcount hdef, hdef⟩,
          (congrFun hargs (n, version)).trans hb, hlookup, hne⟩

theorem wellNamed (h : AddedInputs db flags loaded db' flags') (hw : db.WellNamed) : db'.WellNamed := by
  have hkeeps := h.keepsSymbols
  refine ⟨?_, ?_, ?_, ?_, ?_⟩
  · intro b n k hk
    have hk' : (db'.nameTables b).nameToId n = some k := hk
    rw [h.names] at hk'
    rcases ShardedTable.nameToId_addAll_cases hk' with hold | hnew
    · obtain ⟨m, hm⟩ := hw.names b n k hold
      exact ⟨m, (hkeeps.unversionedName (SymbolDb.lt_numSymbols_of_unversionedName hm)).trans hm⟩
    · exact ⟨n, (mem_namedIds.mp hnew).2.2⟩
  · intro b n k hk
    have hk' : (db'.versionedNameTables b).nameToId n = some k := hk
    rw [h.versionedNames] at hk'
    rcases ShardedTable.nameToId_addAll_cases hk' with hold | hnew
    · have hm := hw.versionedNames b n k hold
      exact (hkeeps.versionedName (SymbolDb.lt_numSymbols_of_versionedName hm)).trans hm
    · exact (mem_namedIds.mp hnew).2.2
  · intro v b k id hid
    rcases (h.mem_keptUnder hw).mp hid with hold | ⟨key, _, _, _, hdefines, hlookup, _⟩
    · obtain ⟨hk, hid⟩ := hw.kept v b k id hold
      exact ⟨hkeeps.exists_defines hk, hkeeps.exists_defines hid⟩
    · refine ⟨?_, key, hdefines⟩
      rcases h.lookup_cases hlookup with hk | hk
      · exact hkeeps.exists_defines (hw.defines_of_lookup hk)
      · exact ⟨key, hk⟩
  · intro b
    show (db'.nameTables b).NoEmptyEntry
    rw [h.names]
    exact ShardedTable.noEmptyEntry_addAll hw.noEmpty _ b
  · intro b
    show (db'.versionedNameTables b).NoEmptyEntry
    rw [h.versionedNames]
    exact ShardedTable.noEmptyEntry_addAll hw.versionedNoEmpty _ b

end AddedInputs

/-- **Every phase keeps the buckets well named.** -/
theorem LinkStep.wellNamed (h : LinkStep s s') (hw : s.db.WellNamed) :
    s'.db.WellNamed := by
  have hkeeps := h.keepsSymbols
  have hsame : ∀ {db' : SymbolDb}, KeepsSymbols s.db db' → db'.buckets = s.db.buckets → db'.WellNamed := by
    intro db' hkeeps' hbuckets
    refine hw.of_values hkeeps' (fun b n k hk => ⟨b, n, hbuckets ▸ hk⟩) (fun b n k hk => hbuckets ▸ hk) ?_
      ?_ ?_
    · intro v b k id hid
      unfold SymbolDb.keptUnder at hid ⊢
      rwa [hbuckets] at hid
    · rw [hbuckets]
      exact hw.noEmpty
    · rw [hbuckets]
      exact hw.versionedNoEmpty
  cases h with
  | addInputs loaded h => exact (addInputs_spec h).wellNamed hw
  | wrap =>
    have hmoved := namesMoved_applyWrappedSymbolOverrides s.db
    refine hw.of_values hkeeps hmoved.values (fun b n k hk => hmoved.versionedNames b ▸ hk) ?_ ?_ ?_
    · intro v b k id hid
      unfold SymbolDb.keptUnder FirstTable.alternativesOf at hid ⊢
      rwa [hmoved.alternatives, hmoved.versionedNames] at hid
    · intro b k
      rw [hmoved.alternatives b]
      exact hw.noEmpty b k
    · intro b
      rw [hmoved.versionedNames b]
      exact hw.versionedNoEmpty b
  | resolve h =>
    obtain ⟨_, _, hout⟩ := h.outcome
    refine hsame hkeeps ?_
    rw [hout.db_eq]
  | alternatives h =>
    obtain ⟨_, _, _, hnames, hversioned⟩ := h.frame
    refine hw.of_values hkeeps (fun b n k hk => ⟨b, n, ?_⟩) (fun b n k hk => ?_) ?_ ?_ ?_
    · rw [hnames b] at hk
      exact hk
    · rw [hversioned b] at hk
      exact hk
    · intro v b k id hid
      unfold SymbolDb.keptUnder at hid
      rw [hnames, hversioned] at hid
      cases v <;> exact absurd hid List.not_mem_nil
    · intro b
      rw [hnames b]
      exact FirstTable.noEmptyEntry_of_empty rfl
    · intro b
      rw [hversioned b]
      exact FirstTable.noEmptyEntry_of_empty rfl
  | markWrapped => exact hsame hkeeps rfl
  | disableLto => exact hsame hkeeps rfl
  | rustVersionScript _ => exact hsame hkeeps rfl

/-- A phase that adds no inputs adds no groups, no symbols and no lists. -/
theorem LinkStep.added_or (h : LinkStep s s') :
    (∃ loaded, AddedInputs s.db s.flags loaded s'.db s'.flags) ∨
      ((s.db.groups = [] → s'.db.groups = []) ∧ s'.db.numSymbols = s.db.numSymbols ∧
        ∀ e ∈ s'.db.alternativeEntries, e ∈ s.db.alternativeEntries) := by
  cases h with
  | addInputs loaded h => exact Or.inl ⟨loaded, addInputs_spec h⟩
  | wrap =>
    have hmoved := namesMoved_applyWrappedSymbolOverrides s.db
    have hsame : SameFiles s.db s.db.applyWrappedSymbolOverrides := ⟨hmoved.groups⟩
    refine Or.inr ⟨hmoved.groups.trans, hsame.numSymbols, fun e he => ?_⟩
    rw [mem_alternativeEntries] at he ⊢
    rwa [hmoved.args, hmoved.alternatives, hmoved.versionedNames] at he
  | resolve h =>
    obtain ⟨_, _, hout⟩ := h.outcome
    rw [hout.db_eq]
    exact Or.inr ⟨fun hnil => hnil, rfl, fun e he => he⟩
  | alternatives h =>
    obtain ⟨_, _, hgroups, hnames, hversioned⟩ := h.frame
    have hsame : SameFiles s.db _ := ⟨hgroups⟩
    refine Or.inr ⟨hgroups.trans, hsame.numSymbols, fun e he => ?_⟩
    -- the pass takes all lists
    rw [mem_alternativeEntries, hnames, hversioned] at he
    rcases he with ⟨_, ⟨_, he⟩ | ⟨_, he⟩⟩ <;> exact absurd he List.not_mem_nil
  | markWrapped => exact Or.inr ⟨fun hnil => hnil, rfl, fun e he => he⟩
  | disableLto =>
    refine Or.inr ⟨fun hnil => ?_, s.db.numSymbols_disableLtoInputs, fun e he => he⟩
    show s.db.groups.map _ = []
    rw [hnil]
    rfl
  | rustVersionScript _ => exact Or.inr ⟨fun hnil => hnil, rfl, fun e he => he⟩

end Reld
