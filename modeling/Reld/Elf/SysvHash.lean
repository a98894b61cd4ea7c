import Reld.Elf.GnuHash

/-!
# `Elf.SysvHash` — the `.hash` table, and lookup through both tables

The bytes of `.hash` are reserved from the size of `.dynsym` before the addresses are known, and its chain
count is computed again from the start index of the definitions when the layout is finalised. The writer
links each definition behind the last one of its bucket, in whatever order the definitions stand.

The table is an instance of the linked layout of `Lib.HashBuckets`: the loop keeps the invariant `Linked`.
-/

namespace Reld

open HashBuckets

variable {gnuHash : Bytes → BitVec 32}

/-- `SYMTAB_ENTRY_SIZE`. -/
def symtabEntrySize : Nat := 24

/-- `SysvHashLayout`. -/
structure SysvHashLayout where
  bucketCount : Nat
  chainCount : Nat
deriving DecidableEq

/-- `SysvHashLayout::byte_size`. -/
def SysvHashLayout.byteSize (layout : SysvHashLayout) : Nat := (2 + layout.bucketCount + layout.chainCount) * 4

/-- The bytes of `.dynsym` after `finalise_sizes_epilogue`: those of the files before the epilogue, and
    those of the definitions. -/
def dynsymSize (outputKind : OutputKind) (dynsymBefore : Nat)
    (definitions : List (DynamicSymbolDefinition gnuHash)) : Nat :=
  dynsymBefore + if outputKind.needsDynamic then definitions.length * symtabEntrySize else 0

/-- `allocate_sysv_hash`: the layout and the bytes it reserves. -/
def allocateSysvHash (currentDynsymSize : Nat) (definitions : List (DynamicSymbolDefinition gnuHash)) :
    Except String (Option (SysvHashLayout × Nat)) :=
  if definitions.length = 0 then .ok none
  else if 2 ^ 32 ≤ currentDynsymSize / symtabEntrySize then .error "Too many dynamic symbols for .hash"
  else
    let sysvHashLayout : SysvHashLayout :=
      { bucketCount := (max (definitions.length / 2) 1).nextPowerOfTwo
        chainCount := currentDynsymSize / symtabEntrySize }
    .ok (some (sysvHashLayout, sysvHashLayout.byteSize))

/-- `EpilogueLayoutState::finalise_layout`: the index of the first definition, from the offset that the
    files before the epilogue have reached in `.dynsym`. -/
def dynsymStartIndex (dynsymBefore : Nat) : Except String Nat :=
  if 2 ^ 32 ≤ dynsymBefore / symtabEntrySize then .error "Too many dynamic symbols"
  else .ok (dynsymBefore / symtabEntrySize)

/-- `finalise_layout_epilogue`: the chain count is computed again. -/
def finaliseSysvHash (layout : SysvHashLayout) (startIndex : Nat)
    (definitions : List (DynamicSymbolDefinition gnuHash)) : Except String SysvHashLayout :=
  if 2 ^ 32 ≤ startIndex + definitions.length then .error "Too many dynamic symbols for .hash"
  else .ok { layout with chainCount := startIndex + definitions.length }

/-- `.hash` as written. -/
structure SysvHashTable where
  buckets : List Nat
  chains : List Nat
deriving DecidableEq

/-- The loop of `write_sysv_hash_table` over the definitions from the `i`-th on. -/
def SysvHashLayout.writeSymbols (layout : SysvHashLayout) (sysvHash : Bytes → BitVec 32) (startIndex : Nat) :
    List (DynamicSymbolDefinition gnuHash) → Nat → List Nat → List Nat → List (Option Nat) →
      Except String SysvHashTable
  | [], _, buckets, chains, _ => .ok { buckets := buckets, chains := chains }
  | symDef :: symDefs, i, buckets, chains, lastInBucket =>
    let symIndex := startIndex + i
    let bucket := (sysvHash symDef.name).toNat % layout.bucketCount
    if 2 ^ 32 ≤ symIndex then .error "Too many dynamic symbols for .hash"
    else match buckets[bucket]? with
      | none => .error "index out of bounds"
      | some 0 =>
        layout.writeSymbols sysvHash startIndex symDefs (i + 1) (buckets.set bucket symIndex) chains
          (lastInBucket.set bucket (some symIndex))
      | some (_ + 1) =>
        match lastInBucket[bucket]? with
        | some (some last) =>
          if last < chains.length then
            layout.writeSymbols sysvHash startIndex symDefs (i + 1) buckets (chains.set last symIndex)
              (lastInBucket.set bucket (some symIndex))
          else .error "index out of bounds"
        | _ => .error "Invalid .hash bucket chain construction"

/-- `write_sysv_hash_table` into a buffer of `size` bytes. -/
def writeSysvHashTable (layout : SysvHashLayout) (sysvHash : Bytes → BitVec 32) (startIndex : Nat)
    (definitions : List (DynamicSymbolDefinition gnuHash)) (size : Nat) :
    Except String (Option SysvHashTable) :=
  if layout.bucketCount = 0 ∨ layout.chainCount = 0 then .ok none
  else if size < layout.byteSize then .error "Insufficient .hash allocation"
  else
    (layout.writeSymbols sysvHash startIndex definitions 0 (List.replicate layout.bucketCount 0)
      (List.replicate layout.chainCount 0) (List.replicate layout.bucketCount none)).map some

/-! ## The loader -/

namespace SysvHashTable

/-- The bytes of the table: two counts, the buckets and the chains. -/
def byteSize (t : SysvHashTable) : Nat := (2 + t.buckets.length + t.chains.length) * 4

/-- The symbol indices that a loader compares for a hash: the bucket and its chain, until index `0`. The
    result is `none` when a chain leads out of the table or goes round. -/
def visit (t : SysvHashTable) (hash : BitVec 32) : Option (List Nat) := do
  let head ← t.buckets[hash.toNat % t.buckets.length]?
  walkLinks t.chains t.chains.length head

/-- The symbol that a loader finds for a name. -/
def find (t : SysvHashTable) (symbolName : Nat → Option Bytes) (hash : BitVec 32) (name : Bytes) :
    Option (Option Nat) :=
  (t.visit hash).map (·.find? (fun index => symbolName index = some name))

end SysvHashTable

/-! ## The writer's loop -/

/-- The bucket of a definition in a table with `bucketCount` buckets. -/
def sysvBucketOf (sysvHash : Bytes → BitVec 32) (bucketCount : Nat) (d : DynamicSymbolDefinition gnuHash) :
    Nat := (sysvHash d.name).toNat % bucketCount

variable {startIndex : Nat} {layout : SysvHashLayout} {lastInBucket : List (Option Nat)} {sysvHash : Bytes → BitVec 32}

/-- The loop completes the table that its first definitions have built. -/
theorem SysvHashLayout.writeSymbols_linked (hstart : 0 < startIndex) (hbuckets : 0 < layout.bucketCount)
    {done todo : List (DynamicSymbolDefinition gnuHash)} {buckets chains : List Nat}
    (hbucketsLen : buckets.length = layout.bucketCount) (hfits : startIndex + (done ++ todo).length ≤ chains.length)
    (hbound : chains.length < 2 ^ 32)
    (h : Linked (sysvBucketOf sysvHash layout.bucketCount) startIndex done buckets chains lastInBucket) :
    ∃ t lastInBucket', layout.writeSymbols sysvHash startIndex todo done.length buckets chains lastInBucket
        = .ok t ∧ t.buckets.length = layout.bucketCount ∧ t.chains.length = chains.length ∧
      Linked (sysvBucketOf sysvHash layout.bucketCount) startIndex (done ++ todo) t.buckets t.chains
        lastInBucket' := by
  induction todo generalizing done buckets chains lastInBucket with
  | nil =>
    rw [List.append_nil]
    exact ⟨_, lastInBucket, rfl, hbucketsLen, rfl, h⟩
  | cons d todo ih =>
    have hsplit : done ++ d :: todo = (done ++ [d]) ++ todo := by simp
    rw [hsplit] at hfits ⊢
    have hlen : done.length + 1 = (done ++ [d]).length := by simp
    have hindex : startIndex + done.length < chains.length := by
      simp only [List.length_append, List.length_singleton] at hfits
      omega
    have hin : sysvBucketOf sysvHash layout.bucketCount d < buckets.length := by
      rw [hbucketsLen]
      exact Nat.mod_lt _ hbuckets
    have hbucket : buckets[sysvBucketOf sysvHash layout.bucketCount d]? =
        some buckets[sysvBucketOf sysvHash layout.bucketCount d] := List.getElem?_eq_getElem hin
    have hfold : (sysvHash d.name).toNat % layout.bucketCount = sysvBucketOf sysvHash layout.bucketCount d :=
      rfl
    simp only [writeSymbols, hfold]
    rw [if_neg (by omega), hbucket]
    cases hhead : buckets[sysvBucketOf sysvHash layout.bucketCount d] with
    | zero =>
      rw [hhead] at hbucket
      rw [hlen]
      exact ih (by rw [List.length_set]; exact hbucketsLen) hfits hbound
        (h.insert_first hstart hbucket hindex)
    | succ head =>
      rw [hhead] at hbucket
      obtain ⟨z, hz, hzlt, hnext⟩ := h.insert_later hstart hbucket (Nat.succ_ne_zero head) hindex
      simp only [hz, if_pos hzlt]
      rw [hlen]
      have hkeep : (chains.set z (startIndex + done.length)).length = chains.length := List.length_set
      obtain ⟨t, last', ht, htb, htc, hlinked⟩ :=
        ih hbucketsLen (by rw [hkeep]; exact hfits) (by rw [hkeep]; exact hbound) hnext
      exact ⟨t, last', ht, htb, by rw [htc, hkeep], hlinked⟩

variable {definitions : List (DynamicSymbolDefinition gnuHash)}

/-- A table with room for every index is written, and links the definitions. -/
theorem writeSysvHashTable_linked (sysvHash : Bytes → BitVec 32) (hstart : 0 < startIndex)
    (hbuckets : 0 < layout.bucketCount) (hchains : layout.chainCount = startIndex + definitions.length)
    (hbound : layout.chainCount < 2 ^ 32) :
    ∃ t lastInBucket, writeSysvHashTable layout sysvHash startIndex definitions layout.byteSize =
        .ok (some t) ∧ t.buckets.length = layout.bucketCount ∧ t.chains.length = layout.chainCount ∧
      Linked (sysvBucketOf sysvHash layout.bucketCount) startIndex definitions t.buckets t.chains
        lastInBucket := by
  have hlen : (List.replicate layout.chainCount 0).length = layout.chainCount := List.length_replicate
  obtain ⟨t, lastInBucket, ht, htb, htc, hlinked⟩ :=
    SysvHashLayout.writeSymbols_linked hstart hbuckets (List.length_replicate)
      (by rw [hlen, List.nil_append, hchains]) (by rw [hlen]; exact hbound)
      (Linked.replicate (fun d : DynamicSymbolDefinition gnuHash => sysvBucketOf sysvHash layout.bucketCount d)
        startIndex layout.bucketCount layout.chainCount)
  refine ⟨t, lastInBucket, ?_, htb, by rw [htc, hlen], hlinked⟩
  rw [writeSysvHashTable, if_neg (by omega), if_neg (Nat.lt_irrefl _)]
  exact congrArg (Except.map some) ht

/-- The table serves the definitions it links. -/
theorem serves_of_linked {t : SysvHashTable} (hnames : (definitions.map (·.name)).Nodup)
    (hbuckets : 0 < t.buckets.length) (hfits : startIndex + definitions.length ≤ t.chains.length)
    (h : Linked (sysvBucketOf sysvHash t.buckets.length) startIndex definitions t.buckets t.chains lastInBucket) :
    Serves (fun name => t.visit (sysvHash name))
      (fun name => t.find (dynsymName startIndex definitions) (sysvHash name) name)
      definitions startIndex := by
  have hvisit : ∀ name, t.visit (sysvHash name) =
      some (entriesOf (sysvBucketOf sysvHash t.buckets.length)
        ((sysvHash name).toNat % t.buckets.length) definitions startIndex) := by
    intro name
    have hlt : (sysvHash name).toNat % t.buckets.length < t.buckets.length := Nat.mod_lt _ hbuckets
    have hhead := List.getElem?_eq_getElem hlt
    rw [SysvHashTable.visit, hhead, Option.bind_eq_bind, Option.bind_some]
    exact h.walk hfits hhead
  have hmem : ∀ j d, definitions[j]? = some d →
      startIndex + j ∈ entriesOf (sysvBucketOf sysvHash t.buckets.length)
        ((sysvHash d.name).toNat % t.buckets.length) definitions startIndex :=
    fun j d hd => mem_entriesOf.mpr ⟨j, d, hd, rfl, rfl⟩
  constructor
  · intro name
    refine ⟨_, hvisit name, fun index hindex => ?_⟩
    obtain ⟨j, d, hd, -, hj⟩ := mem_entriesOf.mp hindex
    exact ⟨j, (List.getElem?_eq_some_iff.mp hd).1, hj⟩
  · intro j d hd
    exact ⟨_, hvisit d.name, hmem j d hd⟩
  · intro j d hd
    show (t.visit (sysvHash d.name)).map _ = _
    rw [hvisit, Option.map_some]
    refine congrArg some (find?_of_unique (hmem j d hd) ?_ (fun i hi hname => ?_))
    · rw [decide_eq_true_iff, dynsymName_add, hd, Option.map_some]
    · rw [decide_eq_true_iff, dynsymName] at hname
      split at hname
      · cases hname
      · have := index_eq_of_name hnames hd hname
        omega
  · intro name hundefined
    show (t.visit (sysvHash name)).map _ = _
    rw [hvisit, Option.map_some, find?_eq_none_of_undefined hundefined]
    intro i hi
    rwa [decide_eq_true_iff] at hi

variable {outputKind : OutputKind}

/-- **The SysV hash table.** The chain count computed when the layout is finalised is the one for which bytes
    were reserved, and the writer's table has that size and serves the definitions. -/
theorem sysv_hash_serves (sysvHash : Bytes → BitVec 32) (hkind : outputKind.needsDynamic = true)
    (hnames : (definitions.map (·.name)).Nodup) {dynsymBefore reserved : Nat}
    (hindex : dynsymStartIndex dynsymBefore = .ok startIndex) (hstart : 1 ≤ startIndex) {allocated : SysvHashLayout}
    (halloc : allocateSysvHash (dynsymSize outputKind dynsymBefore definitions) definitions =
      .ok (some (allocated, reserved))) (hfinal : finaliseSysvHash allocated startIndex definitions = .ok layout) :
    ∃ t, writeSysvHashTable layout sysvHash startIndex definitions reserved = .ok (some t) ∧
      t.byteSize = reserved ∧
      Serves (fun name => t.visit (sysvHash name))
        (fun name => t.find (dynsymName startIndex definitions) (sysvHash name) name)
        definitions startIndex := by
  rw [allocateSysvHash] at halloc
  split at halloc
  · simp at halloc
  split at halloc
  · simp at halloc
  rw [Except.ok.injEq, Option.some.injEq, Prod.mk.injEq] at halloc
  obtain ⟨hallocated, hreserved⟩ := halloc
  rw [finaliseSysvHash] at hfinal
  split at hfinal
  · cases hfinal
  next hcount =>
  rw [Except.ok.injEq] at hfinal
  rw [dynsymStartIndex] at hindex
  split at hindex
  · cases hindex
  rw [Except.ok.injEq] at hindex
  -- the two chain counts agree, so the reserved bytes are those of the final layout
  have hchain : allocated.chainCount = startIndex + definitions.length := by
    rw [← hallocated, ← hindex]
    show dynsymSize outputKind dynsymBefore definitions / symtabEntrySize = _
    rw [dynsymSize, if_pos hkind, Nat.add_mul_div_right _ _ (by decide)]
  have hlayout : layout = allocated := by rw [← hfinal, ← hchain]
  rw [hallocated] at hreserved
  rw [hlayout, ← hreserved]
  have hbuckets : 0 < allocated.bucketCount := by
    rw [← hallocated]
    exact Nat.pos_of_isPowerOfTwo (Nat.isPowerOfTwo_nextPowerOfTwo _)
  obtain ⟨t, lastInBucket, hwrite, htb, htc, hlinked⟩ :=
    writeSysvHashTable_linked sysvHash hstart hbuckets hchain (by omega)
  refine ⟨t, hwrite, ?_, ?_⟩
  · rw [SysvHashTable.byteSize, SysvHashLayout.byteSize, htb, htc]
  · rw [← htb] at hlinked hbuckets
    exact serves_of_linked hnames hbuckets (by rw [htc, hchain]) hlinked

/-- Unless there are too many dynamic symbols, a table is reserved for a nonempty list. -/
theorem allocateSysvHash_some (hkind : outputKind.needsDynamic = true) (hne : definitions ≠ []) {dynsymBefore : Nat}
    (hindex : dynsymStartIndex dynsymBefore = .ok startIndex) (hfits : startIndex + definitions.length < 2 ^ 32) :
    ∃ allocated reserved layout,
      allocateSysvHash (dynsymSize outputKind dynsymBefore definitions) definitions =
        .ok (some (allocated, reserved)) ∧
      finaliseSysvHash allocated startIndex definitions = .ok layout := by
  rw [dynsymStartIndex] at hindex
  split at hindex
  · cases hindex
  rw [Except.ok.injEq] at hindex
  have hcount : dynsymSize outputKind dynsymBefore definitions / symtabEntrySize =
      startIndex + definitions.length := by
    rw [← hindex, dynsymSize, if_pos hkind, Nat.add_mul_div_right _ _ (by decide)]
  have hlen : definitions.length ≠ 0 := fun h => hne (List.length_eq_zero_iff.mp h)
  rw [allocateSysvHash, if_neg hlen, hcount, if_neg (by omega)]
  exact ⟨_, _, _, rfl, if_neg (by omega)⟩

/-- **Lookup through the hash tables.** Sorting keeps the definitions; the `.gnu.hash` table fills its
    reserved bytes and serves them; and so does the `.hash` table, which is left out when there is no
    definition and refused when the indices do not fit in 32 bits. -/
theorem hash_tables_serve (sysvHash : Bytes → BitVec 32) {outputKind : OutputKind}
    (hkind : outputKind.needsDynamic = true) (hashStyle : HashStyle)
    {definitions : List (DynamicSymbolDefinition gnuHash)} (hnames : (definitions.map (·.name)).Nodup)
    {dynsymBefore startIndex : Nat} (hindex : dynsymStartIndex dynsymBefore = .ok startIndex)
    (hstart : 1 ≤ startIndex) :
    let sorted := (createGnuHashLayout hashStyle outputKind definitions).2
    sorted.Perm definitions ∧
    (∀ layout, (createGnuHashLayout hashStyle outputKind definitions).1 = some layout →
      ∃ t, writeGnuHashTables { layout with symbolBase := startIndex } sorted layout.allocate = .ok (t, 0) ∧
        Serves (fun name => t.visit (gnuHash name))
          (fun name => t.find (dynsymName startIndex sorted) (gnuHash name) name) sorted startIndex) ∧
    (sorted = [] → allocateSysvHash (dynsymSize outputKind dynsymBefore sorted) sorted = .ok none) ∧
    (2 ^ 32 ≤ startIndex + sorted.length → ∀ allocated,
      finaliseSysvHash allocated startIndex sorted = .error "Too many dynamic symbols for .hash") ∧
    (sorted ≠ [] → startIndex + sorted.length < 2 ^ 32 → ∃ allocated reserved layout t,
      allocateSysvHash (dynsymSize outputKind dynsymBefore sorted) sorted = .ok (some (allocated, reserved)) ∧
      finaliseSysvHash allocated startIndex sorted = .ok layout ∧
      writeSysvHashTable layout sysvHash startIndex sorted reserved = .ok (some t) ∧
      t.byteSize = reserved ∧
      Serves (fun name => t.visit (sysvHash name))
        (fun name => t.find (dynsymName startIndex sorted) (sysvHash name) name) sorted startIndex) := by
  intro sorted
  have hperm : sorted.Perm definitions := createGnuHashLayout_perm hashStyle outputKind definitions
  have hnames' : (sorted.map (·.name)).Nodup := (hperm.map _).nodup_iff.mpr hnames
  refine ⟨hperm, fun layout hlayout => gnu_hash_serves hnames hlayout hstart, ?_, ?_, ?_⟩
  · intro hnil
    rw [allocateSysvHash, hnil]
    rfl
  · intro hmany allocated
    rw [finaliseSysvHash, if_pos hmany]
  · intro hne hfits
    obtain ⟨allocated, reserved, layout, halloc, hfinal⟩ := allocateSysvHash_some hkind hne hindex hfits
    obtain ⟨t, hwrite, hsize, hserves⟩ :=
      sysv_hash_serves sysvHash hkind hnames' hindex hstart halloc hfinal
    exact ⟨allocated, reserved, layout, t, halloc, hfinal, hwrite, hsize, hserves⟩

/-- Two definitions `a` and `b` behind the null symbol: both tables find them. -/
theorem hash_tables_serve_two :
    let gnuHash : Bytes → BitVec 32 := fun name => name.foldl (fun h c => h * 33 + c.toNat) 5381
    let sysvHash : Bytes → BitVec 32 := fun name => name.foldl (fun h c => h * 16 + c.toNat) 0
    let definitions : List (DynamicSymbolDefinition gnuHash) :=
      [createDynamicSymbolDefinition gnuHash (bytesOf "b") 1,
       createDynamicSymbolDefinition gnuHash (bytesOf "a") 2]
    let sorted := (createGnuHashLayout .both .sharedObject definitions).2
    ∃ t u layout size, writeGnuHashTables { GnuHashLayout.ofCount 2 with symbolBase := 1 } sorted
        (GnuHashLayout.ofCount 2).allocate = .ok (t, 0) ∧
      writeSysvHashTable layout sysvHash 1 sorted size = .ok (some u) ∧
      ∀ d ∈ definitions, ∃ index,
        t.find (dynsymName 1 sorted) (gnuHash d.name) d.name = some (some index) ∧
        u.find (dynsymName 1 sorted) (sysvHash d.name) d.name = some (some index) := by
  intro gnuHash sysvHash definitions sorted
  have hnames : (definitions.map (·.name)).Nodup := by decide
  have hindex : dynsymStartIndex 24 = .ok 1 := rfl
  obtain ⟨hperm, hgnu, -, -, hsysv⟩ := hash_tables_serve sysvHash
    (show OutputKind.sharedObject.needsDynamic = true from rfl) .both hnames hindex (Nat.le_refl 1)
  have hlen : sorted.length = 2 := hperm.length_eq
  have hne : sorted ≠ [] := List.ne_nil_of_length_pos (by omega)
  have hfits : 1 + sorted.length < 2 ^ 32 := by
    rw [hlen]
    decide
  obtain ⟨t, ht, hserves⟩ := hgnu (GnuHashLayout.ofCount 2) rfl
  obtain ⟨_, size, layout, u, -, -, hu, -, hserves'⟩ := hsysv hne hfits
  refine ⟨t, u, layout, size, ht, hu, fun d hd => ?_⟩
  obtain ⟨j, hj⟩ := List.getElem?_of_mem (hperm.mem_iff.mpr hd)
  exact ⟨1 + j, hserves.finds j d hj, hserves'.finds j d hj⟩

end Reld
