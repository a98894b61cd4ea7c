import Reld.Link.Run

/-!
# `Db.Batches` — the tables of a database that several batches built up

Inputs come in batches: those of the command line, and later the output of a linker plugin. A batch adds its
names to the tables that are there, so that after any number of batches the tables are those of one long
batch (`Batched.nameTables_eq`). A name stands for the first symbol that defines it, and the bucket of the
name keeps the other ones under it, in order (`Batched.lookup_eq`, `Batched.kept_iff`).
-/

namespace Reld

/-- The databases that `add_inputs` builds up, starting from `SymbolDb::new`. -/
inductive Batched (args : Args) (outputKind : OutputKind) (versionScript : Option VersionScript) :
    SymbolDb → PerSymbolFlags → Prop
  | new : Batched args outputKind versionScript (.new args outputKind versionScript) (fun _ => .empty)
  | addInputs {db db' : SymbolDb} {flags flags' : PerSymbolFlags} (loaded : LoadedInputs)
      (h : Batched args outputKind versionScript db flags)
      (hadd : addInputs db flags loaded = .ok (db', flags')) :
      Batched args outputKind versionScript db' flags'

/-! ## Names of earlier batches -/

/-- The names of the symbols from 0 on, where a batch has come in between. -/
theorem namedIds_append {N : Type} {nameOf nameOf' : SymbolId → Option N} {m n : Nat} (hle : m ≤ n)
    (hsame : ∀ id < m, nameOf' id = nameOf id) :
    namedIds nameOf 0 m ++ namedIds nameOf' m (n - m) = namedIds nameOf' 0 n := by
  have hold : namedIds nameOf 0 m = namedIds nameOf' 0 m := by
    apply List.filterMap_congr
    intro id hid
    rw [List.mem_range'_1, Nat.zero_add] at hid
    rw [hsame id hid.2]
  have hrange : List.range' 0 m ++ List.range' m (n - m) = List.range' 0 n := by
    have happend := List.range'_append_1 (s := 0) (m := m) (n := n - m)
    rwa [Nat.zero_add, Nat.add_sub_cancel' hle] at happend
  rw [hold]
  unfold namedIds
  rw [← List.filterMap_append, hrange]

namespace Batched

variable {args : Args} {outputKind : OutputKind} {versionScript : Option VersionScript} {db : SymbolDb}
  {flags : PerSymbolFlags}

/-- **The unversioned tables** are those of all names at once. -/
theorem nameTables_eq (h : Batched args outputKind versionScript db flags) :
    db.nameTables
      = ShardedTable.addAll db.nameBucket (fun _ => .empty) (namedIds db.unversionedName 0 db.numSymbols) := by
  induction h with
  | new => rfl
  | @addInputs db db' flags flags' loaded h hadd ih =>
    have hadded := addInputs_spec hadd
    have hkeeps := hadded.keepsSymbols
    have hbucket : db'.nameBucket = db.nameBucket := by
      unfold SymbolDb.nameBucket
      rw [hadded.args]
    rw [hadded.names, ih, hbucket, ShardedTable.addAll_append,
      namedIds_append hkeeps.count (fun id hid => hkeeps.unversionedName hid)]

/-- **The versioned tables** are those of all versioned names at once. -/
theorem versionedNameTables_eq (h : Batched args outputKind versionScript db flags) :
    db.versionedNameTables
      = ShardedTable.addAll db.versionedBucketOf (fun _ => .empty)
          (namedIds db.versionedName 0 db.numSymbols) := by
  induction h with
  | new => rfl
  | @addInputs db db' flags flags' loaded h hadd ih =>
    have hadded := addInputs_spec hadd
    have hkeeps := hadded.keepsSymbols
    have hbucket : db'.versionedBucketOf = db.versionedBucketOf := by
      unfold SymbolDb.versionedBucketOf SymbolDb.versionedNameBucket
      rw [hadded.args]
    rw [hadded.versionedNames, ih, hbucket, ShardedTable.addAll_append,
      namedIds_append hkeeps.count (fun id hid => hkeeps.versionedName hid)]

theorem idsOf_names (db : SymbolDb) (name : Bytes) :
    FirstTable.idsOf (namedIds db.unversionedName 0 db.numSymbols) name = db.definers name := by
  rw [idsOf_namedIds, ← List.range_eq_range']
  rfl

theorem idsOf_versionedNames (db : SymbolDb) (name : Bytes × Bytes) :
    FirstTable.idsOf (namedIds db.versionedName 0 db.numSymbols) name = db.versionedDefiners name := by
  rw [idsOf_namedIds, ← List.range_eq_range']
  rfl

/-- **What a name stands for**: the first symbol that defines it. -/
theorem lookup_eq (h : Batched args outputKind versionScript db flags) (key : PreHashedSymbolName) :
    db.lookup key = (db.definersOf key).head? := by
  cases key with
  | unversioned name =>
    show db.getUnversioned name = (db.definers name).head?
    rw [SymbolDb.getUnversioned_eq_lookup, h.nameTables_eq, ShardedTable.lookup_addAll, idsOf_names]
    rfl
  | versioned name version =>
    show ShardedTable.lookup db.versionedBucketOf db.versionedNameTables (name, version)
      = (db.versionedDefiners (name, version)).head?
    rw [h.versionedNameTables_eq, ShardedTable.lookup_addAll, idsOf_versionedNames]
    rfl

variable {xs : List SymbolId} {k : SymbolId} {b : Nat}

/-- **What the unversioned tables keep**: the definers of a name after the first one, under the first one. -/
theorem names_entry_iff (h : Batched args outputKind versionScript db flags) :
    (db.buckets b).names.alternatives.lookup k = some xs ↔
      xs ≠ [] ∧ ∃ name, db.nameBucket name = b ∧ db.definers name = k :: xs := by
  have htable : (db.buckets b).names = db.nameTables b := rfl
  rw [htable, h.nameTables_eq, ← Option.mem_def, AList.mem_lookup_iff]
  refine (ShardedTable.entry_addAll_empty_iff (namedIds_nodup _ _ _)).trans ?_
  simp only [idsOf_names]

/-- What is kept under a symbol, from the entries of the tables: a symbol has one name. -/
theorem kept_eq {N : Type} {bucketOf : N → Nat} {definers : N → List SymbolId} {kept : Option (List SymbolId)}
    (hentry : ∀ xs, kept = some xs ↔ xs ≠ [] ∧ ∃ name, bucketOf name = b ∧ definers name = k :: xs)
    (hone : ∀ name name', k ∈ definers name → k ∈ definers name' → name = name') {name : N}
    (hdefiners : definers name = k :: xs) :
    kept = if bucketOf name = b ∧ xs ≠ [] then some xs else none := by
  split_ifs with hb
  · exact (hentry xs).mpr ⟨hb.2, name, hb.1, hdefiners⟩
  · cases hkept : kept with
    | none => rfl
    | some ys =>
      exfalso
      obtain ⟨hne, name', hb', hdefiners'⟩ := (hentry ys).mp hkept
      obtain rfl : name = name' :=
        hone name name' (hdefiners ▸ List.mem_cons_self) (hdefiners' ▸ List.mem_cons_self)
      rw [hdefiners] at hdefiners'
      obtain rfl := (List.cons.inj hdefiners').2
      exact hb ⟨hb', hne⟩

/-- A table that keeps nothing under a symbol has no other definer of its name. -/
theorem names_lookup_eq (h : Batched args outputKind versionScript db flags) {name : Bytes}
    (hdefiners : db.definers name = k :: xs) :
    (db.buckets b).names.alternatives.lookup k
      = if db.nameBucket name = b ∧ xs ≠ [] then some xs else none := by
  refine kept_eq (fun xs => h.names_entry_iff) (fun name name' hk hk' => ?_) hdefiners
  rw [SymbolDb.mem_definers_iff] at hk hk'
  exact Option.some.inj (hk.symm.trans hk')

/-- Under a symbol without a name, or one that is not the first of its name, a table keeps nothing. -/
theorem names_lookup_eq_none (h : Batched args outputKind versionScript db flags)
    (hfirst : ∀ name xs, db.definers name ≠ k :: xs) (b : Nat) :
    (db.buckets b).names.alternatives.lookup k = none := by
  cases hl : (db.buckets b).names.alternatives.lookup k with
  | none => rfl
  | some ys =>
    obtain ⟨_, name, _, hdefiners⟩ := h.names_entry_iff.mp hl
    exact absurd hdefiners (hfirst name ys)

end Batched

end Reld
