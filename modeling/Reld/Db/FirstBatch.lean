import Reld.Db.Tables
import Reld.Alternatives.Select

/-!
# `Db.FirstBatch` — the tables of the command line inputs

After the first batch, a name stands for the first symbol that defines it, and the buckets keep exactly the
lists of the names that are defined more than once (`AddedInputs.mem_alternativeEntries`). `--wrap` moves
names to other symbols, but neither adds nor forgets a symbol, and leaves the lists alone.
-/

namespace Reld

/-! ## Databases with the same files -/

/-- Whatever follows from the files alone is the same where the files are. -/
structure SameFiles (db db' : SymbolDb) : Prop where
  groups : db'.groups = db.groups

namespace SameFiles

variable {db db' : SymbolDb}

theorem files (h : SameFiles db db') : db'.files = db.files := by
  unfold SymbolDb.files
  rw [h.groups]

theorem numSymbols (h : SameFiles db db') : db'.numSymbols = db.numSymbols := by
  unfold SymbolDb.numSymbols
  rw [h.files]

theorem locate (h : SameFiles db db') (id : SymbolId) : db'.locate id = db.locate id := by
  unfold SymbolDb.locate
  rw [h.files]

theorem symbolStrength (h : SameFiles db db') (r : Resolver) (id : SymbolId) :
    Reld.symbolStrength db' r id = Reld.symbolStrength db r id := by
  unfold Reld.symbolStrength
  rw [h.locate]

end SameFiles

/-! ## Names -/

def PreHashedSymbolName.isVersioned : PreHashedSymbolName → Bool
  | .unversioned _ => false
  | .versioned _ _ => true

namespace SymbolDb

/-- The bucket of a key. -/
def keyBucket (db : SymbolDb) : PreHashedSymbolName → Nat
  | .unversioned name => db.nameBucket name
  | .versioned name version => db.versionedNameBucket name version

/-- The symbols that define a key, in the order of their identifiers. -/
def definersOf (db : SymbolDb) : PreHashedSymbolName → List SymbolId
  | .unversioned name => db.definers name
  | .versioned name version => db.versionedDefiners (name, version)

/-- Whether a symbol is put into the buckets under a key. -/
def Defines (db : SymbolDb) (key : PreHashedSymbolName) (id : SymbolId) : Prop :=
  match key with
  | .unversioned name => db.unversionedName id = some name
  | .versioned name version => db.versionedName id = some (name, version)

variable {key : PreHashedSymbolName} {db : SymbolDb} {id : SymbolId}

theorem mem_definersOf :
    id ∈ db.definersOf key ↔ db.Defines key id := by
  cases key with
  | unversioned name => exact mem_definers_iff
  | versioned name version => exact mem_versionedDefiners_iff

theorem Defines.definesSymbol (h : db.Defines key id) : db.definesSymbol id = true := by
  unfold SymbolDb.definesSymbol
  unfold Defines unversionedName versionedName at h
  cases hloc : db.locate id with
  | none =>
    rw [hloc] at h
    cases key <;> exact absurd h (by simp)
  | some p =>
    rw [hloc] at h
    apply InputFile.definesSymbol_of_name
    cases key with
    | unversioned name => exact Or.inl (by simpa using Option.isSome_of_eq_some h)
    | versioned name version => exact Or.inr (by simpa using Option.isSome_of_eq_some h)

theorem Defines.lt_numSymbols (h : db.Defines key id) : id < db.numSymbols := by
  cases key with
  | unversioned name => exact lt_numSymbols_of_unversionedName h
  | versioned name version => exact lt_numSymbols_of_versionedName h

end SymbolDb

namespace SymbolDb

/-! ## Lookup -/

/-- What the name maps hold for a key. -/
def lookup (db : SymbolDb) : PreHashedSymbolName → Option SymbolId
  | .unversioned name => db.getUnversioned name
  | .versioned name version =>
    (db.buckets (db.versionedNameBucket name version)).versionedNames.nameToId (name, version)

end SymbolDb

/-! ## The first batch -/

section FirstBatch

variable {args : Args} {outputKind : OutputKind} {versionScript : Option VersionScript}
  {flags : PerSymbolFlags} {loaded : LoadedInputs} {db : SymbolDb} {flags' : PerSymbolFlags}

theorem nameBucket_lt (db : SymbolDb) (name : Bytes) : db.nameBucket name < db.args.availableThreads :=
  Nat.mod_lt _ db.args.availableThreads_pos

/-- An entry of a database is a list that one of its buckets keeps. -/
theorem mem_alternativeEntries {db : SymbolDb} {e : AlternativeEntry} :
    e ∈ db.alternativeEntries ↔ e.bucket < db.args.availableThreads ∧
      ((e.isVersioned = false ∧ (⟨e.first, e.alternatives⟩ : Sigma (fun _ : SymbolId => List SymbolId)) ∈
          (db.buckets e.bucket).names.alternatives.entries) ∨
        (e.isVersioned = true ∧ (⟨e.first, e.alternatives⟩ : Sigma (fun _ : SymbolId => List SymbolId)) ∈
          (db.buckets e.bucket).versionedNames.alternatives.entries)) := by
  unfold SymbolDb.alternativeEntries SymbolBucket.entries
  simp only [List.mem_flatMap, List.mem_range, List.mem_append, List.mem_map]
  constructor
  · rintro ⟨b, hb, ⟨x, hx, rfl⟩ | ⟨x, hx, rfl⟩⟩
    · exact ⟨hb, Or.inl ⟨rfl, hx⟩⟩
    · exact ⟨hb, Or.inr ⟨rfl, hx⟩⟩
  · obtain ⟨b, isVersioned, first, alternatives⟩ := e
    rintro ⟨hb, ⟨hversioned, hmem⟩ | ⟨hversioned, hmem⟩⟩
    · obtain rfl : isVersioned = false := hversioned
      exact ⟨b, hb, Or.inl ⟨_, hmem, rfl⟩⟩
    · obtain rfl : isVersioned = true := hversioned
      exact ⟨b, hb, Or.inr ⟨_, hmem, rfl⟩⟩

end FirstBatch

/-! ## `--wrap` -/

/-- What `override_name` leaves alone. -/
structure NamesMoved (db db' : SymbolDb) : Prop where
  args : db'.args = db.args
  outputKind : db'.outputKind = db.outputKind
  groups : db'.groups = db.groups
  symbolDefinitions : db'.symbolDefinitions = db.symbolDefinitions
  versionScript : db'.versionScript = db.versionScript
  entry : db'.entry = db.entry
  alternatives : ∀ b, (db'.buckets b).names.alternatives = (db.buckets b).names.alternatives
  versionedNames : ∀ b, (db'.buckets b).versionedNames = (db.buckets b).versionedNames
  /-- A name stands for what some name stood for. -/
  moved : ∀ n k, db'.getUnversioned n = some k → ∃ m, db.getUnversioned m = some k
  /-- No name is forgotten. -/
  kept : ∀ n, (db.getUnversioned n).isSome = true → (db'.getUnversioned n).isSome = true
  /-- The name maps hold no other symbols. -/
  values : ∀ b n k, (db'.buckets b).names.nameToId n = some k →
    ∃ b' m, (db.buckets b').names.nameToId m = some k

theorem NamesMoved.refl (db : SymbolDb) : NamesMoved db db :=
  ⟨rfl, rfl, rfl, rfl, rfl, rfl, fun _ => rfl, fun _ => rfl, fun n _ h => ⟨n, h⟩, fun _ h => h,
    fun b n _ h => ⟨b, n, h⟩⟩

theorem NamesMoved.trans {a b c : SymbolDb} (h : NamesMoved a b) (h' : NamesMoved b c) : NamesMoved a c := by
  refine ⟨h'.args.trans h.args, h'.outputKind.trans h.outputKind, h'.groups.trans h.groups,
    h'.symbolDefinitions.trans h.symbolDefinitions, h'.versionScript.trans h.versionScript,
    h'.entry.trans h.entry, fun i => (h'.alternatives i).trans (h.alternatives i),
    fun i => (h'.versionedNames i).trans (h.versionedNames i), ?_, fun n hn => h'.kept n (h.kept n hn), ?_⟩
  · intro n k hk
    obtain ⟨m, hm⟩ := h'.moved n k hk
    exact h.moved m k hm
  · intro i n k hk
    obtain ⟨i', m, hm⟩ := h'.values i n k hk
    exact h.values i' m k hm

theorem getUnversioned_overrideName (db : SymbolDb) (name n : Bytes) (id : SymbolId) :
    (db.overrideName name id).getUnversioned n = if n = name then some id else db.getUnversioned n := by
  show (Function.update db.buckets (db.nameBucket name) _ (db.nameBucket n)).names.nameToId n = _
  by_cases hb : db.nameBucket n = db.nameBucket name
  · rw [hb, Function.update_self]
    show Function.update (db.buckets (db.nameBucket name)).names.nameToId name (some id) n = _
    by_cases hn : n = name
    · subst hn
      rw [Function.update_self, if_pos rfl]
    · rw [Function.update_of_ne hn, if_neg hn]
      unfold SymbolDb.getUnversioned
      rw [hb]
  · have hn : n ≠ name := fun h => hb (by rw [h])
    rw [Function.update_of_ne hb, if_neg hn]
    rfl

/-- Moving one more name to a symbol that some name stood for. -/
theorem NamesMoved.overrideName {db db' : SymbolDb} (h : NamesMoved db db') {m : Bytes} {id : SymbolId}
    (hm : db.getUnversioned m = some id) (name : Bytes) : NamesMoved db (db'.overrideName name id) := by
  refine ⟨h.args, h.outputKind, h.groups, h.symbolDefinitions, h.versionScript, h.entry, ?_, ?_, ?_, ?_, ?_⟩
  · intro b
    rw [← h.alternatives b]
    show (Function.update db'.buckets (db'.nameBucket name) _ b).names.alternatives = _
    by_cases hb : b = db'.nameBucket name
    · subst hb
      rw [Function.update_self]
      rfl
    · rw [Function.update_of_ne hb]
  · intro b
    rw [← h.versionedNames b]
    show (Function.update db'.buckets (db'.nameBucket name) _ b).versionedNames = _
    by_cases hb : b = db'.nameBucket name
    · subst hb
      rw [Function.update_self]
    · rw [Function.update_of_ne hb]
  · intro n k hk
    rw [getUnversioned_overrideName] at hk
    split_ifs at hk
    · exact ⟨m, hm.trans hk⟩
    · exact h.moved n k hk
  · intro n hn
    rw [getUnversioned_overrideName]
    split_ifs
    · rfl
    · exact h.kept n hn
  · intro b n k hk
    replace hk : (Function.update db'.buckets (db'.nameBucket name) _ b).names.nameToId n = some k := hk
    by_cases hb : b = db'.nameBucket name
    · subst hb
      rw [Function.update_self] at hk
      replace hk : Function.update (db'.buckets (db'.nameBucket name)).names.nameToId name (some id) n
          = some k := hk
      by_cases hn : n = name
      · subst hn
        rw [Function.update_self] at hk
        exact ⟨db.nameBucket m, m, hm.trans hk⟩
      · rw [Function.update_of_ne hn] at hk
        exact h.values _ n k hk
    · rw [Function.update_of_ne hb] at hk
      exact h.values b n k hk

theorem namesMoved_applyWrappedSymbolOverride (db : SymbolDb) (name : Bytes) :
    NamesMoved db (db.applyWrappedSymbolOverride name) := by
  have horiginal : ∀ {db' : SymbolDb} {origId : SymbolId}, NamesMoved db db' →
      (db.getUnversioned (SymbolDb.realName name)).or (db.getUnversioned name) = some origId →
      NamesMoved db (db'.overrideName (SymbolDb.realName name) origId) := by
    intro db' origId hwrap horig
    rcases Option.or_eq_some_iff.mp horig with hreal | ⟨_, hname⟩
    · exact hwrap.overrideName hreal _
    · exact hwrap.overrideName hname _
  unfold SymbolDb.applyWrappedSymbolOverride
  simp only
  split
  · rename_i origId horig
    apply horiginal _ horig
    split
    · rename_i wrapId hwrap
      exact (NamesMoved.refl db).overrideName hwrap name
    · exact .refl db
  · split
    · rename_i wrapId hwrap
      exact (NamesMoved.refl db).overrideName hwrap name
    · exact .refl db

/-- **`--wrap`** moves names only. -/
theorem namesMoved_applyWrappedSymbolOverrides (db : SymbolDb) :
    NamesMoved db db.applyWrappedSymbolOverrides := by
  have hall : ∀ (names : List Bytes) (db' : SymbolDb), NamesMoved db db' →
      NamesMoved db (names.foldl SymbolDb.applyWrappedSymbolOverride db') := by
    intro names
    induction names with
    | nil => intro db' h; exact h
    | cons name names ih =>
      intro db' h
      exact ih _ (h.trans (namesMoved_applyWrappedSymbolOverride db' name))
  exact hall _ db (.refl db)

end Reld
