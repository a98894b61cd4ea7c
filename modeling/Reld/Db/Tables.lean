import Reld.Db.Load

/-!
# `Db.Tables` — what `add_inputs` leaves in the tables

The specification of `add_inputs`, as `addInputs_spec`: the earlier files and symbols stay as they are; a
new symbol starts with itself as its definition exactly if its file defines it; and every bucket has taken
the new symbols of its names, in the order of their identifiers.
-/

variable {f : InputFile} {fileId : FileId}

namespace Reld

/-! ## Files -/

theorem enumerateFiles_append (gs hs : List Group) :
    ∀ first, enumerateFiles first (gs ++ hs)
      = enumerateFiles first gs ++ enumerateFiles (first + gs.length) hs := by
  induction gs with
  | nil => intro first; rfl
  | cons g gs ih =>
    intro first
    rw [List.cons_append, enumerateFiles, enumerateFiles, ih, List.append_assoc, List.length_cons]
    congr 3
    omega

theorem mem_enumerateFiles {gs : List Group} : ∀ {first : Nat}, (fileId, f) ∈ enumerateFiles first gs ↔
      first ≤ fileId.group ∧
        ∃ g, gs[fileId.group - first]? = some g ∧ g.files[fileId.file]? = some f := by
  induction gs with
  | nil => intro first; simp [enumerateFiles]
  | cons g gs ih =>
    intro first
    rw [enumerateFiles, List.mem_append, ih, List.mem_mapIdx]
    constructor
    · rintro (⟨i, hi, heq⟩ | ⟨hle, g', hg', hf⟩)
      · obtain ⟨rfl, rfl⟩ := Prod.mk.inj heq
        exact ⟨Nat.le_refl _, g, by simp, by rw [List.getElem?_eq_getElem hi]⟩
      · refine ⟨by omega, g', ?_, hf⟩
        rw [show fileId.group - first = fileId.group - (first + 1) + 1 by omega]
        exact hg'
    · rintro ⟨hle, g', hg', hf⟩
      by_cases heq : fileId.group = first
      · left
        rw [heq, Nat.sub_self] at hg'
        obtain rfl : g = g' := Option.some.inj hg'
        obtain ⟨hi, hget⟩ := List.getElem?_eq_some_iff.mp hf
        refine ⟨fileId.file, hi, ?_⟩
        rw [hget, ← heq]
      · right
        refine ⟨by omega, g', ?_, hf⟩
        rw [show fileId.group - first = fileId.group - (first + 1) + 1 by omega] at hg'
        exact hg'

/-- The identifiers of the files of one group. -/
theorem mapIdx_keys (first : Nat) (l : List InputFile) :
    (l.mapIdx (fun i f => ((⟨first, i⟩ : FileId), f))).map Prod.fst
      = (List.range l.length).map (fun i => (⟨first, i⟩ : FileId)) := by
  apply List.ext_getElem
  · simp
  · intro i h₁ h₂
    simp

theorem enumerateFiles_keys_nodup (gs : List Group) :
    ∀ first, ((enumerateFiles first gs).map Prod.fst).Nodup := by
  induction gs with
  | nil => intro first; exact List.nodup_nil
  | cons g gs ih =>
    intro first
    rw [enumerateFiles, List.map_append, List.nodup_append, mapIdx_keys]
    refine ⟨?_, ih (first + 1), ?_⟩
    · refine List.nodup_range.map ?_
      intro i j hij
      exact congrArg FileId.file hij
    · intro a ha b hb heq
      obtain ⟨i, _, rfl⟩ := List.mem_map.mp ha
      obtain ⟨⟨fileId, f⟩, hmem, rfl⟩ := List.mem_map.mp hb
      have hle := (mem_enumerateFiles.mp hmem).1
      have hgroup : first = fileId.group := congrArg FileId.group heq
      omega

namespace SymbolDb

variable {db : SymbolDb}

theorem mem_files_iff : (fileId, f) ∈ db.files ↔ db.file fileId = some f := by
  unfold files file
  rw [mem_enumerateFiles]
  cases hg : db.groups[fileId.group]? with
  | none => simp
  | some g => simp

theorem files_keys_nodup (db : SymbolDb) : (db.files.map Prod.fst).Nodup := enumerateFiles_keys_nodup _ 0

/-- **The file of a symbol and its index** are inverse to the first identifier of the file. -/
theorem locate_eq_some_iff {id index : Nat} : db.locate id = some ((fileId, f), index) ↔
      db.file fileId = some f ∧ index < f.numSymbols ∧ id = db.symbolIdStart fileId + index := by
  unfold locate symbolIdStart
  rw [Segments.locate_eq_some_iff db.files_keys_nodup, mem_files_iff]
  rfl

variable {id : SymbolId}

theorem locate_isSome_iff : (db.locate id).isSome = true ↔ id < db.numSymbols :=
  Segments.locate_isSome_iff

/-! ## The names of symbols -/

/-- The unversioned name under which a symbol is put into the buckets. -/
def unversionedName (db : SymbolDb) (id : SymbolId) : Option Bytes :=
  (db.locate id).bind fun p => p.1.2.unversionedName p.2

/-- The versioned name under which a symbol is put into the buckets. -/
def versionedName (db : SymbolDb) (id : SymbolId) : Option (Bytes × Bytes) :=
  (db.locate id).bind fun p => p.1.2.versionedName p.2

/-- Whether the file of a symbol defines it. -/
def definesSymbol (db : SymbolDb) (id : SymbolId) : Bool :=
  match db.locate id with
  | some ((_, f), index) => f.definesSymbol index
  | none => false

/-- The symbols that define an unversioned name, in the order of their identifiers. -/
def definers (db : SymbolDb) (name : Bytes) : List SymbolId :=
  (List.range db.numSymbols).filter (fun id => db.unversionedName id = some name)

/-- The symbols that define a versioned name, in the order of their identifiers. -/
def versionedDefiners (db : SymbolDb) (name : Bytes × Bytes) : List SymbolId :=
  (List.range db.numSymbols).filter (fun id => db.versionedName id = some name)

theorem lt_numSymbols_of_unversionedName {n : Bytes} (h : db.unversionedName id = some n) : id < db.numSymbols := by
  rw [← locate_isSome_iff]
  cases hl : db.locate id with
  | none =>
    unfold unversionedName at h
    rw [hl] at h
    exact absurd h (by simp)
  | some p => rfl

theorem lt_numSymbols_of_versionedName {n : Bytes × Bytes} (h : db.versionedName id = some n) : id < db.numSymbols := by
  rw [← locate_isSome_iff]
  cases hl : db.locate id with
  | none =>
    unfold versionedName at h
    rw [hl] at h
    exact absurd h (by simp)
  | some p => rfl

theorem mem_definers_iff {n : Bytes} :
    id ∈ db.definers n ↔ db.unversionedName id = some n := by
  unfold definers
  rw [List.mem_filter, List.mem_range, decide_eq_true_eq]
  exact ⟨fun h => h.2, fun h => ⟨lt_numSymbols_of_unversionedName h, h⟩⟩

theorem mem_versionedDefiners_iff {n : Bytes × Bytes} :
    id ∈ db.versionedDefiners n ↔ db.versionedName id = some n := by
  unfold versionedDefiners
  rw [List.mem_filter, List.mem_range, decide_eq_true_eq]
  exact ⟨fun h => h.2, fun h => ⟨lt_numSymbols_of_versionedName h, h⟩⟩

end SymbolDb

/-- A symbol that is put into the buckets is defined by its file. -/
theorem InputFile.definesSymbol_of_name {index : Nat}
    (h : (f.unversionedName index).isSome = true ∨ (f.versionedName index).isSome = true) :
    f.definesSymbol index = true := by
  have hobject : ∀ o : InputObject, (o.definedName index).isSome = true →
      InputFile.definesSymbol (.object o) index = true := by
    intro o ho
    unfold InputObject.definedName at ho
    unfold InputFile.definesSymbol
    cases hs : o.symbols[index]? with
    | none => rw [hs] at ho; exact absurd ho (by simp)
    | some s =>
      rw [hs] at ho
      simp only at ho ⊢
      split_ifs at ho with hcond
      · exact absurd ho (by simp)
      all_goals simp_all
  cases f with
  | object o =>
    apply hobject
    cases hn : o.definedName index with
    | some info => rfl
    | none =>
      rcases h with h | h
      · simp [InputFile.unversionedName, hn] at h
      · simp [InputFile.versionedName, hn] at h
  | ltoInput o =>
    simp only [InputFile.unversionedName, InputFile.versionedName] at h
    cases hs : o.symbols[index]? with
    | none => simp [hs] at h
    | some s =>
      simp only [hs, Option.bind_some] at h
      simp only [InputFile.definesSymbol, hs]
      by_contra hdef
      simp [hdef] at h
  | prelude defs =>
    rcases h with h | h
    · simp only [InputFile.unversionedName] at h
      cases hd : defs[index]? with
      | none => simp [hd] at h
      | some d =>
        have hlt : index < defs.length := (List.getElem?_eq_some_iff.mp hd).1
        simp [InputFile.definesSymbol, InputFile.numSymbols, hlt]
    · exact absurd h (by simp [InputFile.versionedName])
  | linkerScript s =>
    rcases h with h | h
    · simp only [InputFile.unversionedName, Option.isSome_map] at h
      have hlt : index < s.symbolDefs.length := by simpa using h
      simp [InputFile.definesSymbol, InputFile.numSymbols, hlt]
    · exact absurd h (by simp [InputFile.versionedName])
  | stubLibrary s =>
    rcases h with h | h
    · simp only [InputFile.unversionedName] at h
      have hlt : index < (s.symbols ++ s.weakSymbols).length := by simpa using h
      rw [List.length_append] at hlt
      simp [InputFile.definesSymbol, InputFile.numSymbols, hlt]
    · exact absurd h (by simp [InputFile.versionedName])
  | syntheticSymbols names =>
    rcases h with h | h
    · simp only [InputFile.unversionedName] at h
      have hlt : index < names.length := by simpa using h
      simp [InputFile.definesSymbol, InputFile.numSymbols, hlt]
    · exact absurd h (by simp [InputFile.versionedName])

/-! ## Loading the files of a batch -/

/-- Loading some files writes one entry for each of their symbols, in order. -/
theorem readSymbols_agrees {cx : LoadContext} {fs : List (FileId × InputFile)} :
    ∀ {loads : List SymbolLoad}, readSymbols cx fs = .ok loads →
      (∀ p ∈ fs, ∀ names, p.2 ≠ .syntheticSymbols names) →
      loads.length = Segments.total symbolCount fs ∧
      ∀ (k : Nat) (load : SymbolLoad), loads[k]? = some load →
        ∃ p i, Segments.locate symbolCount fs k = some (p, i) ∧ load.Agrees p.2 i := by
  induction fs with
  | nil =>
    intro loads h _
    obtain rfl := Except.ok.inj h
    exact ⟨rfl, fun k load hk => absurd hk (by simp)⟩
  | cons f fs ih =>
    intro loads h hsyn
    obtain ⟨own, hf, h⟩ := Traverse.bind_eq_ok.mp h
    obtain ⟨rest, hrest, h⟩ := Traverse.bind_eq_ok.mp h
    obtain rfl := Except.ok.inj h
    obtain ⟨hagrees, hlen⟩ := loadSymbols_agrees hf
    have hlen := hlen (hsyn f List.mem_cons_self)
    obtain ⟨hlen', hget⟩ := ih hrest (fun p hp => hsyn p (List.mem_cons_of_mem _ hp))
    refine ⟨?_, ?_⟩
    · rw [List.length_append, hlen, hlen', Segments.total_cons]
      rfl
    · intro k load hk
      rw [Segments.locate]
      by_cases hlt : k < symbolCount f
      · rw [if_pos hlt]
        rw [List.getElem?_append_left (by rw [hlen]; exact hlt)] at hk
        exact ⟨f, k, rfl, hagrees k load hk⟩
      · rw [if_neg hlt]
        rw [List.getElem?_append_right (by rw [hlen]; exact Nat.le_of_not_lt hlt), hlen] at hk
        exact hget _ load hk

variable {loaded : LoadedInputs}

/-- No batch brings synthetic symbols. -/
theorem newGroups_not_synthetic {db : SymbolDb} {first : Nat} {p : FileId × InputFile}
    (hp : p ∈ enumerateFiles first (newGroups db loaded)) (names : List Bytes) :
    p.2 ≠ .syntheticSymbols names := by
  obtain ⟨fileId, f⟩ := p
  obtain ⟨_, g, hg, hf⟩ := mem_enumerateFiles.mp hp
  have hmem := List.mem_of_getElem? hg
  have hf := List.mem_of_getElem? hf
  rintro rfl
  unfold newGroups at hmem
  simp only [List.mem_append, List.mem_map, List.mem_ite_nil_left, List.mem_ite_nil_right, List.mem_singleton] at hmem
  rcases hmem with (((⟨_, rfl⟩ | ⟨l, _, rfl⟩) | ⟨_, rfl⟩) | ⟨_, rfl⟩) | ⟨l, _, rfl⟩
  all_goals simp [Group.files] at hf

/-! ## Pending symbols -/

/-- The identifiers from `start` on that have a name, with their names. -/
def namedIds {N : Type} (nameOf : SymbolId → Option N) (start count : Nat) : List (N × SymbolId) :=
  (List.range' start count).filterMap (fun id => (nameOf id).map (fun n => (n, id)))

variable {N : Type}

theorem pendingFrom_eq (sel : SymbolLoad → Option N) (loads : List SymbolLoad) :
    ∀ {start : Nat} {nameOf : SymbolId → Option N},
      (∀ k load, loads[k]? = some load → sel load = nameOf (start + k)) →
      pendingFrom sel start loads = namedIds nameOf start loads.length := by
  induction loads with
  | nil => intro start nameOf _; rfl
  | cons load rest ih =>
    intro start nameOf h
    have hhead : sel load = nameOf start := h 0 load rfl
    have htail : pendingFrom sel (start + 1) rest = namedIds nameOf (start + 1) rest.length := by
      apply ih
      intro k load' hk
      rw [show start + 1 + k = start + (k + 1) by omega]
      exact h (k + 1) load' (by simpa using hk)
    unfold namedIds
    rw [List.length_cons, List.range'_succ, List.filterMap_cons, pendingFrom, hhead, htail]
    cases nameOf start with
    | none => rfl
    | some n => rfl

theorem namedIds_ids (nameOf : SymbolId → Option N) (start count : Nat) :
    (namedIds nameOf start count).map Prod.snd
      = (List.range' start count).filter (fun id => (nameOf id).isSome) := by
  unfold namedIds
  induction List.range' start count with
  | nil => rfl
  | cons id l ih =>
    rw [List.filterMap_cons, List.filter_cons]
    cases h : nameOf id with
    | none => simpa using ih
    | some n => simpa using ih

theorem namedIds_nodup (nameOf : SymbolId → Option N) (start count : Nat) :
    ((namedIds nameOf start count).map Prod.snd).Nodup := by
  rw [namedIds_ids]
  exact List.Nodup.filter _ (List.nodup_range' 1)

theorem idsOf_namedIds [DecidableEq N] (nameOf : SymbolId → Option N) (start count : Nat) (n : N) :
    FirstTable.idsOf (namedIds nameOf start count) n
      = (List.range' start count).filter (fun id => nameOf id = some n) := by
  unfold namedIds FirstTable.idsOf
  induction List.range' start count with
  | nil => rfl
  | cons id l ih =>
    rw [List.filterMap_cons, List.filter_cons]
    cases h : nameOf id with
    | none => simpa using ih
    | some m =>
      by_cases hm : m = n
      · simpa [hm] using ih
      · simpa [hm] using ih

theorem mem_namedIds {nameOf : SymbolId → Option N} {start count : Nat} {p : N × SymbolId} :
    p ∈ namedIds nameOf start count ↔ start ≤ p.2 ∧ p.2 < start + count ∧ nameOf p.2 = some p.1 := by
  obtain ⟨n, id⟩ := p
  unfold namedIds
  simp only [List.mem_filterMap, List.mem_range'_1, Option.map_eq_some_iff, Prod.mk.injEq]
  constructor
  · rintro ⟨id', ⟨hlo, hhi⟩, m, hm, rfl, rfl⟩
    exact ⟨hlo, hhi, hm⟩
  · rintro ⟨hlo, hhi, hm⟩
    exact ⟨id, ⟨hlo, hhi⟩, n, hm, rfl, rfl⟩

/-! ## The specification of `add_inputs` -/

namespace SymbolDb

/-- The unversioned name tables of the buckets. -/
def nameTables (db : SymbolDb) : Nat → FirstTable Bytes SymbolId := fun b => (db.buckets b).names

/-- The versioned name tables of the buckets. -/
def versionedNameTables (db : SymbolDb) : Nat → FirstTable (Bytes × Bytes) SymbolId :=
  fun b => (db.buckets b).versionedNames

/-- `versionedNameBucket` of a pair. -/
def versionedBucketOf (db : SymbolDb) (n : Bytes × Bytes) : Nat := db.versionedNameBucket n.1 n.2

theorem getUnversioned_eq_lookup (db : SymbolDb) (n : Bytes) :
    db.getUnversioned n = ShardedTable.lookup db.nameBucket db.nameTables n := rfl

end SymbolDb

/-- What `add_inputs` does to the database and the flags. -/
structure AddedInputs (db : SymbolDb) (flags : PerSymbolFlags) (loaded : LoadedInputs)
    (db' : SymbolDb) (flags' : PerSymbolFlags) : Prop where
  args : db'.args = db.args
  outputKind : db'.outputKind = db.outputKind
  groups : db'.groups = db.groups ++ newGroups db loaded
  oldDefinitions : ∀ id < db.numSymbols, db'.symbolDefinitions id = db.symbolDefinitions id
  newDefinitions : ∀ id, db.numSymbols ≤ id → id < db'.numSymbols →
    db'.symbolDefinitions id = if db'.definesSymbol id then id else 0
  oldFlags : ∀ id < db.numSymbols, flags' id = flags id
  newFlags : ∀ id, db.numSymbols ≤ id → id < db'.numSymbols →
    (flags' id).contains .dynamic = db'.isDynamicSymbol id
  libraryFlags : ∀ id, db.numSymbols ≤ id → id < db'.numSymbols → db'.isDynamicSymbol id = true →
    (flags' id).contains .nonInterposable = false ∧ (flags' id).contains .downgradeToLocal = false
  nonIrFlags : ∀ id, db.numSymbols ≤ id → id < db'.numSymbols →
    (flags' id).contains .hasNonIrRef = false
  names : db'.nameTables = ShardedTable.addAll db.nameBucket db.nameTables
    (namedIds db'.unversionedName db.numSymbols (db'.numSymbols - db.numSymbols))
  versionedNames : db'.versionedNameTables = ShardedTable.addAll db.versionedBucketOf db.versionedNameTables
    (namedIds db'.versionedName db.numSymbols (db'.numSymbols - db.numSymbols))

namespace SymbolDb

variable {gs : List Group} {db' db : SymbolDb}

theorem files_append (h : db'.groups = db.groups ++ gs) :
    db'.files = db.files ++ enumerateFiles db.groups.length gs := by
  unfold files
  rw [h, enumerateFiles_append, Nat.zero_add]

theorem numSymbols_append (h : db'.groups = db.groups ++ gs) :
    db'.numSymbols
      = db.numSymbols + Segments.total symbolCount (enumerateFiles db.groups.length gs) := by
  unfold numSymbols
  rw [files_append h, Segments.total_append]

/-- New groups do not move the earlier symbols. -/
theorem locate_append_old (h : db'.groups = db.groups ++ gs) {id : SymbolId} (hid : id < db.numSymbols) :
    db'.locate id = db.locate id := by
  unfold locate
  rw [files_append h]
  exact Segments.locate_append_left hid _

theorem locate_append_new (h : db'.groups = db.groups ++ gs) {id : SymbolId} (hid : db.numSymbols ≤ id) :
    db'.locate id
      = Segments.locate symbolCount (enumerateFiles db.groups.length gs) (id - db.numSymbols) := by
  unfold locate
  rw [files_append h]
  exact Segments.locate_append_right hid _

end SymbolDb

theorem extendTable_old {α : Type} {table : SymbolId → α} {start : SymbolId} {entries : List α}
    {id : SymbolId} (h : id < start) : extendTable table start entries id = table id := if_pos h

theorem extendTable_new {α : Type} {table : SymbolId → α} {start : SymbolId} {entries : List α} {i : Nat}
    {a : α} (h : entries[i]? = some a) : extendTable table start entries (start + i) = a := by
  have hlt : ¬start + i < start := Nat.not_lt.mpr (Nat.le_add_right start i)
  simp [extendTable, hlt, h]

/-- **The specification of `add_inputs`.** -/
theorem addInputs_spec {db db' : SymbolDb} {flags flags' : PerSymbolFlags}
    (h : addInputs db flags loaded = .ok (db', flags')) : AddedInputs db flags loaded db' flags' := by
  obtain ⟨versionScript, -, h⟩ := Traverse.bind_eq_ok.mp h
  obtain ⟨loads, hl, h⟩ := Traverse.bind_eq_ok.mp h
  obtain ⟨hdb, hflags⟩ := Prod.mk.inj (Except.ok.inj h)
  obtain ⟨hlen, hget⟩ := readSymbols_agrees hl (fun p hp names => newGroups_not_synthetic hp names)
  have hgroups : db'.groups = db.groups ++ newGroups db loaded := by rw [← hdb]
  have hnum : db'.numSymbols = db.numSymbols + loads.length := by
    rw [SymbolDb.numSymbols_append hgroups, hlen]
  -- every new symbol has a load that agrees with its file
  have hload : ∀ k load, loads[k]? = some load → ∃ p i, db'.locate (db.numSymbols + k) = some (p, i) ∧
      load.Agrees p.2 i := by
    intro k load hk
    obtain ⟨p, i, hloc, hagrees⟩ := hget k load hk
    refine ⟨p, i, ?_, hagrees⟩
    rw [SymbolDb.locate_append_new hgroups (Nat.le_add_right _ _), Nat.add_sub_cancel_left]
    exact hloc
  have hexists : ∀ id, db.numSymbols ≤ id → id < db'.numSymbols →
      ∃ k load, id = db.numSymbols + k ∧ loads[k]? = some load := by
    intro id hlo hhi
    have hk : id - db.numSymbols < loads.length := by omega
    exact ⟨id - db.numSymbols, loads[id - db.numSymbols], by omega, List.getElem?_eq_getElem hk⟩
  have hcount : db'.numSymbols - db.numSymbols = loads.length := by omega
  -- the flags and the file of a new symbol
  have hnew : ∀ id, db.numSymbols ≤ id → id < db'.numSymbols → ∃ fileId f i, ∃ load : SymbolLoad,
      db'.locate id = some ((fileId, f), i) ∧ load.Agrees f i ∧ flags' id = load.flags := by
    intro id hlo hhi
    obtain ⟨k, load, rfl, hk⟩ := hexists id hlo hhi
    obtain ⟨⟨fileId, f⟩, i, hloc, hagrees⟩ := hload k load hk
    refine ⟨fileId, f, i, load, hloc, hagrees, ?_⟩
    rw [← hflags]
    apply extendTable_new
    rw [List.getElem?_map, hk]
    rfl
  refine ⟨by rw [← hdb], by rw [← hdb], hgroups, ?_, ?_, ?_, ?_, ?_, ?_, ?_, ?_⟩
  · intro id hid
    rw [← hdb]
    exact extendTable_old hid
  · intro id hlo hhi
    obtain ⟨k, load, rfl, hk⟩ := hexists id hlo hhi
    obtain ⟨⟨fileId, f⟩, i, hloc, hagrees⟩ := hload k load hk
    have hdef : db'.definesSymbol (db.numSymbols + k) = load.isDefined := by
      unfold SymbolDb.definesSymbol
      rw [hloc]
      exact hagrees.isDefined.symm
    rw [hdef, ← hdb]
    apply extendTable_new
    unfold initialDefinitions
    rw [List.getElem?_mapIdx, hk]
    rfl
  · intro id hid
    rw [← hflags]
    exact extendTable_old hid
  · intro id hlo hhi
    obtain ⟨fileId, f, i, load, hloc, hagrees, hflags⟩ := hnew id hlo hhi
    unfold SymbolDb.isDynamicSymbol
    rw [hflags, hloc]
    exact hagrees.dynamic
  · intro id hlo hhi hdyn
    obtain ⟨fileId, f, i, load, hloc, hagrees, hflags⟩ := hnew id hlo hhi
    unfold SymbolDb.isDynamicSymbol at hdyn
    rw [hloc] at hdyn
    rw [hflags]
    exact hagrees.library hdyn
  · intro id hlo hhi
    obtain ⟨fileId, f, i, load, hloc, hagrees, hflags⟩ := hnew id hlo hhi
    rw [hflags]
    exact hagrees.nonIrRef
  · rw [hcount, ← pendingFrom_eq SymbolLoad.unversioned loads, ← hdb]
    · rfl
    · intro k load hk
      obtain ⟨⟨fileId, f⟩, i, hloc, hagrees⟩ := hload k load hk
      unfold SymbolDb.unversionedName
      rw [hloc]
      exact hagrees.unversioned
  · rw [hcount, ← pendingFrom_eq SymbolLoad.versioned loads, ← hdb]
    · rfl
    · intro k load hk
      obtain ⟨⟨fileId, f⟩, i, hloc, hagrees⟩ := hload k load hk
      unfold SymbolDb.versionedName
      rw [hloc]
      exact hagrees.versioned

end Reld
