import Mathlib.Data.List.Lex
import Mathlib.Data.Prod.Lex
import Mathlib.Data.BitVec
import Reld.Lib.HashBuckets
import Reld.Db.SymbolDb

/-!
# `Elf.GnuHash` — the `.gnu.hash` table

`create_gnu_hash_layout` sorts the dynamic symbol definitions by hash bucket, so that the definitions of a
bucket are adjacent in `.dynsym`, and `write_gnu_hash_tables` fills the bloom filter, the buckets and the
chain words in one walk over the sorted definitions. The index of the first definition in `.dynsym` is only
known after the sort, when the layout is finalised.

The table is an instance of the run layout of `Lib.HashBuckets`: the low bits of the chain words are the
marks `runEnds`, and the buckets are `setRunHeads`.
-/

namespace Reld

open HashBuckets

/-- `HashStyle`. -/
inductive HashStyle where
  | sysv
  | gnu
  | both
deriving DecidableEq

def HashStyle.includesGnu : HashStyle → Bool
  | .gnu => true
  | .both => true
  | .sysv => false

def HashStyle.includesSysv : HashStyle → Bool
  | .sysv => true
  | .both => true
  | .gnu => false

def OutputKind.needsDynamic : OutputKind → Bool
  | .staticExecutable .nonRelocatable => false
  | .relocatable => false
  | _ => true

/-- `DynamicSymbolDefinition`, with the hash that `create_dynamic_symbol_definition` computes from the
    name. The hash function is the one of the `object` crate. -/
structure DynamicSymbolDefinition (gnuHash : Bytes → BitVec 32) where
  symbolId : Nat
  name : Bytes
  hash : BitVec 32
  hash_eq : hash = gnuHash name

/-- `create_dynamic_symbol_definition`: the name is the part of the symbol's name before its version. -/
def createDynamicSymbolDefinition (gnuHash : Bytes → BitVec 32) (symbolName : Bytes) (symbolId : Nat) :
    DynamicSymbolDefinition gnuHash :=
  let name := (RawSymbolName.parse symbolName).name
  { symbolId := symbolId, name := name, hash := gnuHash name, hash_eq := rfl }

/-- `GnuHashLayout`. -/
structure GnuHashLayout where
  numDefs : Nat
  bucketCount : Nat
  bloomShift : Nat
  bloomCount : Nat
  symbolBase : Nat
deriving DecidableEq

variable {gnuHash : Bytes → BitVec 32}

namespace GnuHashLayout

/-- `bucket_for_hash`. -/
def bucketForHash (layout : GnuHashLayout) (hash : BitVec 32) : Nat := hash.toNat % layout.bucketCount

/-- The bucket of a definition. -/
def bucketOf (layout : GnuHashLayout) (d : DynamicSymbolDefinition gnuHash) : Nat :=
  layout.bucketForHash d.hash

/-- The sort key: the bucket, then the bytes of the name. -/
def sortKey (layout : GnuHashLayout) (d : DynamicSymbolDefinition gnuHash) : Nat ×ₗ List Nat :=
  toLex (layout.bucketOf d, d.name.map UInt8.toNat)

/-- `GnuHashLayout::allocate`: the bytes reserved for the header, one bloom word, the buckets and the
    chains. -/
def allocate (layout : GnuHashLayout) : Nat := 16 + 8 * 1 + 4 * layout.bucketCount + 4 * layout.numDefs

end GnuHashLayout

/-- The layout that `create_gnu_hash_layout` chooses for a number of definitions: about two of them to a
    bucket. `symbol_base` is set when the layout is finalised. -/
def GnuHashLayout.ofCount (numDefs : Nat) : GnuHashLayout :=
  { numDefs := numDefs
    bucketCount := (numDefs / 2).nextPowerOfTwo
    bloomShift := 6
    bloomCount := 1
    symbolBase := 0 }

/-- `par_sort_unstable_by_key` with the sort key. Names are distinct, so are the keys, and every sort,
    stable or not, gives this list. -/
def GnuHashLayout.sortDefinitions (layout : GnuHashLayout)
    (definitions : List (DynamicSymbolDefinition gnuHash)) : List (DynamicSymbolDefinition gnuHash) :=
  definitions.mergeSort (fun a b => decide (layout.sortKey a ≤ layout.sortKey b))

/-- `create_gnu_hash_layout`: the layout, and the definitions sorted by bucket. -/
def createGnuHashLayout (hashStyle : HashStyle) (outputKind : OutputKind)
    (definitions : List (DynamicSymbolDefinition gnuHash)) :
    Option GnuHashLayout × List (DynamicSymbolDefinition gnuHash) :=
  if !hashStyle.includesGnu || !outputKind.needsDynamic then (none, definitions)
  else
    let gnuHashLayout := GnuHashLayout.ofCount definitions.length
    (some gnuHashLayout, gnuHashLayout.sortDefinitions definitions)

/-- `.gnu.hash` as written: the header, the bloom words, the buckets and the chain words. -/
structure GnuHashTable where
  bucketCount : Nat
  bloomShift : Nat
  bloomCount : Nat
  symbolBase : Nat
  bloom : List (BitVec 64)
  buckets : List Nat
  chains : List (BitVec 32)
deriving DecidableEq

namespace GnuHashLayout

/-- The two bloom bits of a hash. -/
def bloomBits (layout : GnuHashLayout) (hash : BitVec 32) : BitVec 64 :=
  ((1 : BitVec 64) <<< (hash.toNat % 64)) ||| ((1 : BitVec 64) <<< ((hash >>> layout.bloomShift).toNat % 64))

/-- The chain word of a symbol: its hash with bit 0 telling whether it is the last of its chain. -/
def chainWord (hash : BitVec 32) (lastInChain : Bool) : BitVec 32 :=
  if lastInChain then (hash &&& ~~~1) ||| 1 else hash &&& ~~~1

/-- The loop of `write_gnu_hash_tables` over the definitions from the `i`-th on: the bloom words, the
    buckets and the chain words. -/
def writeSymbols (layout : GnuHashLayout) :
    Bool → List (DynamicSymbolDefinition gnuHash) → Nat → List (BitVec 64) → List Nat →
      List (BitVec 64) × List Nat × List (BitVec 32)
  | _, [], _, bloom, buckets => (bloom, buckets, [])
  | startOfChain, symDef :: symDefs, i, bloom, buckets =>
    let hash := symDef.hash
    let bloomIndex := (hash.toNat / 64) % layout.bloomCount
    let bloom := bloom.modify bloomIndex (· ||| layout.bloomBits hash)
    let bucket := layout.bucketForHash hash
    let buckets := if startOfChain then buckets.set bucket (i + layout.symbolBase) else buckets
    let lastInChain := symDefs.head?.all (fun next => layout.bucketForHash next.hash ≠ bucket)
    let rest := layout.writeSymbols lastInChain symDefs (i + 1) bloom buckets
    (rest.1, rest.2.1, chainWord hash lastInChain :: rest.2.2)

end GnuHashLayout

/-- `write_gnu_hash_tables` into a buffer of `size` bytes: the table and the bytes left over. -/
def writeGnuHashTables (layout : GnuHashLayout) (definitions : List (DynamicSymbolDefinition gnuHash))
    (size : Nat) : Except String (GnuHashTable × Nat) :=
  if size < 16 then .error "Insufficient .gnu.hash allocation"
  else if size - 16 < 8 * layout.bloomCount then .error "Insufficient bytes for .gnu.hash bloom filter"
  else if size - 16 - 8 * layout.bloomCount < 4 * layout.bucketCount then
    .error "Insufficient bytes for .gnu.hash buckets"
  else if size - 16 - 8 * layout.bloomCount - 4 * layout.bucketCount < 4 * definitions.length then
    .error "Insufficient bytes for .gnu.hash chains"
  else
    let written := layout.writeSymbols true definitions 0 (List.replicate layout.bloomCount 0)
      (List.replicate layout.bucketCount 0)
    .ok ({ bucketCount := layout.bucketCount
           bloomShift := layout.bloomShift
           bloomCount := layout.bloomCount
           symbolBase := layout.symbolBase
           bloom := written.1
           buckets := written.2.1
           chains := written.2.2 },
      size - 16 - 8 * layout.bloomCount - 4 * layout.bucketCount - 4 * definitions.length)

/-! ## The loader -/

namespace GnuHashTable

/-- The symbol indices whose chain words a loader reads for a hash: none when the bloom word rejects the
    hash or the bucket is empty, otherwise the chain from the bucket on until a word with low bit 1. The
    result is `none` when the loader reads outside the table. -/
def visit (t : GnuHashTable) (hash : BitVec 32) : Option (List Nat) := do
  let word ← t.bloom[(hash.toNat / 64) % t.bloomCount]?
  if word.getLsbD (hash.toNat % 64) && word.getLsbD ((hash >>> t.bloomShift).toNat % 64) then
    let bucket ← t.buckets[hash.toNat % t.bucketCount]?
    if bucket = 0 then return []
    else if bucket < t.symbolBase then none
    else walkRun ((t.chains.drop (bucket - t.symbolBase)).map (·.getLsbD 0)) bucket
  else return []

/-- Whether the loader takes the symbol at an index: the chain word has the hash but for its low bit, and
    the dynamic symbol has the name. -/
def accepts (t : GnuHashTable) (symbolName : Nat → Option Bytes) (hash : BitVec 32) (name : Bytes)
    (index : Nat) : Bool :=
  (t.chains[index - t.symbolBase]?).any (fun word => (word ^^^ hash) >>> 1 = 0) && symbolName index = some name

/-- The symbol that a loader finds for a name. -/
def find (t : GnuHashTable) (symbolName : Nat → Option Bytes) (hash : BitVec 32) (name : Bytes) :
    Option (Option Nat) :=
  (t.visit hash).map (·.find? (t.accepts symbolName hash name))

end GnuHashTable

/-- The names of the `.dynsym` entries from `start` on, one for each definition. -/
def dynsymName (start : Nat) (definitions : List (DynamicSymbolDefinition gnuHash)) (index : Nat) :
    Option Bytes :=
  if index < start then none else (definitions[index - start]?).map (·.name)

/-! ## What the writer's loop computes -/

namespace GnuHashLayout

variable (layout : GnuHashLayout)

theorem buckets_writeSymbols (fresh : Bool) (l : List (DynamicSymbolDefinition gnuHash)) (i : Nat)
    (bloom : List (BitVec 64)) (buckets : List Nat) :
    (layout.writeSymbols fresh l i bloom buckets).2.1 =
      setRunHeads layout.bucketOf fresh l (layout.symbolBase + i) buckets := by
  induction l generalizing fresh i bloom buckets with
  | nil => rfl
  | cons d l ih =>
    rw [writeSymbols, setRunHeads, ih, Nat.add_comm i layout.symbolBase]
    rfl

theorem chains_writeSymbols (fresh : Bool) (l : List (DynamicSymbolDefinition gnuHash)) (i : Nat)
    (bloom : List (BitVec 64)) (buckets : List Nat) :
    (layout.writeSymbols fresh l i bloom buckets).2.2 =
      List.zipWith (fun d e => chainWord d.hash e) l (runEnds layout.bucketOf l) := by
  induction l generalizing fresh i bloom buckets with
  | nil => rfl
  | cons d l ih =>
    rw [writeSymbols, runEnds, List.zipWith_cons_cons, ih]
    rfl

@[simp] theorem getLsbD_chainWord (hash : BitVec 32) (e : Bool) : (chainWord hash e).getLsbD 0 = e := by
  cases e <;> simp [chainWord]

/-- The chain word keeps the hash but for its low bit. -/
theorem chainWord_matches (hash : BitVec 32) (e : Bool) : (chainWord hash e ^^^ hash) >>> 1 = 0 := by
  apply BitVec.eq_of_getLsbD_eq
  intro i _
  have hone : (1 : BitVec 32).getLsbD (1 + i) = false := by
    simp
  rw [BitVec.getLsbD_ushiftRight, BitVec.getLsbD_xor]
  -- bits from 1 on are those of the hash, whatever the mark
  have hword : (chainWord hash e).getLsbD (1 + i) = hash.getLsbD (1 + i) := by
    by_cases hi : 1 + i < 32
    · cases e
      · rw [chainWord, if_neg Bool.false_ne_true, BitVec.getLsbD_and, BitVec.getLsbD_not, hone]
        simp [hi]
      · rw [chainWord, if_pos rfl, BitVec.getLsbD_or, BitVec.getLsbD_and, BitVec.getLsbD_not, hone]
        simp [hi]
    · rw [BitVec.getLsbD_of_ge _ _ (by omega), BitVec.getLsbD_of_ge _ _ (by omega)]
  rw [hword, Bool.xor_self]
  exact BitVec.getLsbD_zero.symm

theorem map_getLsbD_chains (l : List (DynamicSymbolDefinition gnuHash)) (es : List Bool)
    (hlen : es.length = l.length) :
    (List.zipWith (fun d e => chainWord d.hash e) l es).map (·.getLsbD 0) = es := by
  induction l generalizing es with
  | nil =>
    rw [List.length_nil, List.length_eq_zero_iff] at hlen
    rw [hlen]
    rfl
  | cons d l ih =>
    cases es with
    | nil => simp at hlen
    | cons e es =>
      rw [List.zipWith_cons_cons, List.map_cons, getLsbD_chainWord, ih es (by simpa using hlen)]

/-- The bloom words let a hash pass: both its bits are set in its word. -/
def Passes (bloom : List (BitVec 64)) (hash : BitVec 32) : Prop :=
  ∃ word, bloom[(hash.toNat / 64) % layout.bloomCount]? = some word ∧
    word.getLsbD (hash.toNat % 64) = true ∧
    word.getLsbD ((hash >>> layout.bloomShift).toNat % 64) = true

variable {layout}

variable {bloom : List (BitVec 64)} {hash : BitVec 32}

theorem Passes.modify (h : layout.Passes bloom hash) (j : Nat) (bits : BitVec 64) :
    layout.Passes (bloom.modify j (· ||| bits)) hash := by
  obtain ⟨word, hword, h1, h2⟩ := h
  rw [Passes, List.getElem?_modify, hword]
  by_cases hj : j = (hash.toNat / 64) % layout.bloomCount
  · simp only [if_pos hj]
    exact ⟨word ||| bits, rfl, by rw [BitVec.getLsbD_or, h1, Bool.true_or],
      by rw [BitVec.getLsbD_or, h2, Bool.true_or]⟩
  · simp only [if_neg hj]
    exact ⟨word, rfl, h1, h2⟩

theorem getLsbD_shiftOne {n : Nat} (hn : n < 64) : ((1 : BitVec 64) <<< n).getLsbD n = true := by
  simp [hn]

/-- Setting the bits of a hash lets it pass. -/
theorem passes_modify_self (hindex : (hash.toNat / 64) % layout.bloomCount < bloom.length) :
    layout.Passes (bloom.modify ((hash.toNat / 64) % layout.bloomCount) (· ||| layout.bloomBits hash))
      hash := by
  rw [Passes, List.getElem?_modify, List.getElem?_eq_getElem hindex]
  simp only [if_true]
  refine ⟨_, rfl, ?_, ?_⟩
  · rw [BitVec.getLsbD_or, bloomBits, BitVec.getLsbD_or, getLsbD_shiftOne (Nat.mod_lt _ (by decide)),
      Bool.true_or, Bool.or_true]
  · rw [BitVec.getLsbD_or, bloomBits, BitVec.getLsbD_or, getLsbD_shiftOne (Nat.mod_lt _ (by decide)),
      Bool.or_true, Bool.or_true]

theorem passes_writeSymbols {fresh : Bool} {l : List (DynamicSymbolDefinition gnuHash)} {i : Nat} {buckets : List Nat}
    (hcount : (hash.toNat / 64) % layout.bloomCount < bloom.length)
    (h : layout.Passes bloom hash ∨ ∃ d ∈ l, d.hash = hash) :
    layout.Passes (layout.writeSymbols fresh l i bloom buckets).1 hash := by
  induction l generalizing fresh i bloom buckets with
  | nil => exact h.resolve_right (by simp)
  | cons d l ih =>
    refine ih (by rw [List.length_modify]; exact hcount) ?_
    rcases h with h | ⟨c, hc, rfl⟩
    · exact Or.inl (h.modify _ _)
    · rcases List.mem_cons.mp hc with rfl | hc'
      · exact Or.inl (passes_modify_self hcount)
      · exact Or.inr ⟨c, hc', rfl⟩

@[simp] theorem length_bloom_writeSymbols (fresh : Bool) (l : List (DynamicSymbolDefinition gnuHash))
    (i : Nat) (bloom : List (BitVec 64)) (buckets : List Nat) :
    (layout.writeSymbols fresh l i bloom buckets).1.length = bloom.length := by
  induction l generalizing fresh i bloom buckets with
  | nil => rfl
  | cons d l ih => rw [writeSymbols, ih, List.length_modify]

end GnuHashLayout

/-! ## Lookup -/

/-- What the loader's rule needs of the table: it was written from definitions sorted by bucket. -/
structure WrittenFrom (t : GnuHashTable) (layout : GnuHashLayout)
    (sorted : List (DynamicSymbolDefinition gnuHash)) : Prop where
  written : ∃ size rest, writeGnuHashTables layout sorted size = .ok (t, rest)
  sorted : SortedBy layout.bucketOf sorted
  bloomCount : 0 < layout.bloomCount
  bucketCount : 0 < layout.bucketCount
  symbolBase : 0 < layout.symbolBase

namespace WrittenFrom

variable {t : GnuHashTable} {layout : GnuHashLayout} {sorted : List (DynamicSymbolDefinition gnuHash)}

theorem table_eq (h : WrittenFrom t layout sorted) :
    t = { bucketCount := layout.bucketCount
          bloomShift := layout.bloomShift
          bloomCount := layout.bloomCount
          symbolBase := layout.symbolBase
          bloom := (layout.writeSymbols true sorted 0 (List.replicate layout.bloomCount 0)
            (List.replicate layout.bucketCount 0)).1
          buckets := (layout.writeSymbols true sorted 0 (List.replicate layout.bloomCount 0)
            (List.replicate layout.bucketCount 0)).2.1
          chains := (layout.writeSymbols true sorted 0 (List.replicate layout.bloomCount 0)
            (List.replicate layout.bucketCount 0)).2.2 } := by
  obtain ⟨size, rest, hwrite⟩ := h.written
  simp only [writeGnuHashTables] at hwrite
  split at hwrite
  · cases hwrite
  split at hwrite
  · cases hwrite
  split at hwrite
  · cases hwrite
  split at hwrite
  · cases hwrite
  simp only [Except.ok.injEq, Prod.mk.injEq] at hwrite
  exact hwrite.1.symm

/-- The bucket of a hash holds the index of its first definition, or `0`. -/
theorem bucket_eq (h : WrittenFrom t layout sorted) (hash : BitVec 32) :
    t.buckets[hash.toNat % t.bucketCount]? =
      some ((entriesOf layout.bucketOf (layout.bucketForHash hash) sorted layout.symbolBase).head?.getD 0) := by
  have hlt : hash.toNat % layout.bucketCount < layout.bucketCount := Nat.mod_lt _ h.bucketCount
  rw [h.table_eq]
  show (layout.writeSymbols true sorted 0 _ _).2.1[hash.toNat % layout.bucketCount]? = _
  rw [layout.buckets_writeSymbols, Nat.add_zero,
    getElem?_setRunHeads h.sorted _ (by rw [List.length_replicate]; exact hlt), if_pos (Or.inl rfl),
    List.getElem?_replicate, if_pos hlt]
  show ((entriesOf layout.bucketOf (hash.toNat % layout.bucketCount) sorted layout.symbolBase).head?.or _) = _
  rw [GnuHashLayout.bucketForHash]
  cases (entriesOf layout.bucketOf (hash.toNat % layout.bucketCount) sorted layout.symbolBase).head? <;> rfl

theorem marks_eq (h : WrittenFrom t layout sorted) :
    t.chains.map (·.getLsbD 0) = runEnds layout.bucketOf sorted := by
  rw [h.table_eq]
  show (layout.writeSymbols true sorted 0 _ _).2.2.map _ = _
  rw [layout.chains_writeSymbols]
  exact GnuHashLayout.map_getLsbD_chains _ _ (length_runEnds sorted)

/-- A hash that passes the bloom word is looked up in its bucket. -/
theorem visit_of_passes (h : WrittenFrom t layout sorted) {hash : BitVec 32}
    (hpasses : layout.Passes t.bloom hash) :
    t.visit hash = some (entriesOf layout.bucketOf (layout.bucketForHash hash) sorted layout.symbolBase) := by
  obtain ⟨word, hword, h1, h2⟩ := hpasses
  obtain ⟨hbloom, hshift, hbase⟩ : t.bloomCount = layout.bloomCount ∧ t.bloomShift = layout.bloomShift ∧
      t.symbolBase = layout.symbolBase := by
    rw [h.table_eq]
    exact ⟨rfl, rfl, rfl⟩
  simp only [GnuHashTable.visit, hbloom, hshift, hword, h1, h2, Bool.and_self, if_true, h.bucket_eq,
    Option.bind_eq_bind, Option.bind_some]
  cases hhead : (entriesOf layout.bucketOf (layout.bucketForHash hash) sorted layout.symbolBase).head? with
  | none =>
    rw [List.head?_eq_none_iff.mp hhead]
    rfl
  | some first =>
    have hle := (le_of_mem_entriesOf (List.mem_of_mem_head? hhead)).1
    have hpos := h.symbolBase
    rw [Option.getD_some, if_neg (by omega), hbase, if_neg (by omega), List.map_drop, h.marks_eq]
    exact walkRun_of_first h.sorted hhead

/-- **The loader stops.** It visits the definitions of the bucket, or nothing when the bloom word rejects
    the hash. -/
theorem visit_eq (h : WrittenFrom t layout sorted) (hash : BitVec 32) :
    t.visit hash = some [] ∨
    t.visit hash = some (entriesOf layout.bucketOf (layout.bucketForHash hash) sorted layout.symbolBase) := by
  by_cases hpasses : layout.Passes t.bloom hash
  · exact Or.inr (h.visit_of_passes hpasses)
  · refine Or.inl ?_
    have hindex : (hash.toNat / 64) % t.bloomCount < t.bloom.length := by
      rw [h.table_eq]
      show (hash.toNat / 64) % layout.bloomCount < (layout.writeSymbols true sorted 0 _ _).1.length
      rw [GnuHashLayout.length_bloom_writeSymbols, List.length_replicate]
      exact Nat.mod_lt _ h.bloomCount
    have hcounts : t.bloomCount = layout.bloomCount ∧ t.bloomShift = layout.bloomShift := by
      rw [h.table_eq]
      exact ⟨rfl, rfl⟩
    simp only [GnuHashTable.visit, List.getElem?_eq_getElem hindex, Option.bind_eq_bind, Option.bind_some]
    rw [if_neg]
    · rfl
    · intro hbits
      rw [Bool.and_eq_true] at hbits
      rw [hcounts.2] at hbits
      refine hpasses ⟨_, ?_, hbits⟩
      rw [← hcounts.1]
      exact List.getElem?_eq_getElem hindex

/-- The index of a definition is visited when the loader looks up its hash. -/
theorem visit_of_mem (h : WrittenFrom t layout sorted) {d : DynamicSymbolDefinition gnuHash}
    (hd : d ∈ sorted) :
    t.visit d.hash =
      some (entriesOf layout.bucketOf (layout.bucketOf d) sorted layout.symbolBase) := by
  refine h.visit_of_passes ?_
  rw [h.table_eq]
  refine GnuHashLayout.passes_writeSymbols ?_ (Or.inr ⟨d, hd, rfl⟩)
  rw [List.length_replicate]
  exact Nat.mod_lt _ h.bloomCount

end WrittenFrom

/-! ## Lookup by name -/

/-- A hash table serves the definitions whose `.dynsym` entries begin at `start`: every lookup stops and
    visits only indices of definitions, a defined name is visited and found at its own index, and no other
    name is found. -/
structure Serves (visit : Bytes → Option (List Nat)) (find : Bytes → Option (Option Nat))
    (definitions : List (DynamicSymbolDefinition gnuHash)) (start : Nat) : Prop where
  stops : ∀ name, ∃ visited, visit name = some visited ∧
    ∀ index ∈ visited, ∃ j < definitions.length, index = start + j
  visits : ∀ j d, definitions[j]? = some d → ∃ visited, visit d.name = some visited ∧ start + j ∈ visited
  finds : ∀ j d, definitions[j]? = some d → find d.name = some (some (start + j))
  rejects : ∀ name, (∀ d ∈ definitions, d.name ≠ name) → find name = some none

theorem find?_of_unique {p : Nat → Bool} {l : List Nat} {i : Nat} (hi : i ∈ l) (hp : p i = true)
    (hunique : ∀ j ∈ l, p j = true → j = i) : l.find? p = some i := by
  cases hfound : l.find? p with
  | none => exact absurd hp (List.find?_eq_none.mp hfound i hi)
  | some j => rw [hunique j (List.mem_of_find?_eq_some hfound) (List.find?_some hfound)]

theorem dynsymName_add (start j : Nat) (definitions : List (DynamicSymbolDefinition gnuHash)) :
    dynsymName start definitions (start + j) = (definitions[j]?).map (·.name) := by
  rw [dynsymName, if_neg (by omega), Nat.add_sub_cancel_left]

variable {definitions : List (DynamicSymbolDefinition gnuHash)}

/-- Definitions with distinct names are told apart by their names. -/
theorem index_eq_of_name (hnames : (definitions.map (·.name)).Nodup) {i j : Nat} {d : DynamicSymbolDefinition gnuHash}
    (hj : definitions[j]? = some d) (hname : (definitions[i]?).map (·.name) = some d.name) : i = j := by
  obtain ⟨hjlt, hdj⟩ := List.getElem?_eq_some_iff.mp hj
  obtain ⟨c, hc, hcd⟩ := Option.map_eq_some_iff.mp hname
  obtain ⟨hilt, hci⟩ := List.getElem?_eq_some_iff.mp hc
  have hi : i < (definitions.map (·.name)).length := by rwa [List.length_map]
  have hj' : j < (definitions.map (·.name)).length := by rwa [List.length_map]
  have hsame : (definitions.map (·.name))[i] = (definitions.map (·.name))[j] := by
    rw [List.getElem_map, List.getElem_map, hci, hdj, hcd]
  exact hnames.getElem_inj_iff.mp hsame

/-- A walk that visits only definitions finds no undefined name. -/
theorem find?_eq_none_of_undefined {start : Nat} {name : Bytes} (hundefined : ∀ d ∈ definitions, d.name ≠ name)
    (p : Nat → Bool) (hp : ∀ i, p i = true → dynsymName start definitions i = some name) (visited : List Nat) :
    visited.find? p = none := by
  refine List.find?_eq_none.mpr (fun i _ hpi => ?_)
  have hname := hp i hpi
  rw [dynsymName] at hname
  split at hname
  · cases hname
  · obtain ⟨d, hd, hdn⟩ := Option.map_eq_some_iff.mp hname
    exact hundefined d (List.mem_of_getElem? hd) hdn

namespace WrittenFrom

variable {t : GnuHashTable} {layout : GnuHashLayout} {sorted : List (DynamicSymbolDefinition gnuHash)}

/-- The loader takes a definition at its own index. -/
theorem accepts_self (h : WrittenFrom t layout sorted) {j : Nat} {d : DynamicSymbolDefinition gnuHash}
    (hd : sorted[j]? = some d) :
    t.accepts (dynsymName layout.symbolBase sorted) d.hash d.name (layout.symbolBase + j) = true := by
  have hbase : t.symbolBase = layout.symbolBase := by rw [h.table_eq]
  have hchain : ∃ e, t.chains[j]? = some (GnuHashLayout.chainWord d.hash e) := by
    have hmark : j < (runEnds layout.bucketOf sorted).length := by
      rw [length_runEnds]
      exact (List.getElem?_eq_some_iff.mp hd).1
    refine ⟨(runEnds layout.bucketOf sorted)[j], ?_⟩
    rw [h.table_eq]
    show (layout.writeSymbols true sorted 0 _ _).2.2[j]? = _
    rw [layout.chains_writeSymbols, List.getElem?_zipWith, hd, List.getElem?_eq_getElem hmark]
  obtain ⟨e, he⟩ := hchain
  rw [GnuHashTable.accepts, hbase, Nat.add_sub_cancel_left, he, dynsymName_add, hd]
  simp [GnuHashLayout.chainWord_matches]

theorem serves (h : WrittenFrom t layout sorted) (hnames : (sorted.map (·.name)).Nodup) :
    Serves (fun name => t.visit (gnuHash name))
      (fun name => t.find (dynsymName layout.symbolBase sorted) (gnuHash name) name)
      sorted layout.symbolBase := by
  have haccepts : ∀ hash name i, t.accepts (dynsymName layout.symbolBase sorted) hash name i = true →
      dynsymName layout.symbolBase sorted i = some name := by
    intro hash name i hi
    rw [GnuHashTable.accepts, Bool.and_eq_true, decide_eq_true_iff] at hi
    exact hi.2
  have hvisit : ∀ j d, sorted[j]? = some d →
      ∃ visited, t.visit (gnuHash d.name) = some visited ∧ layout.symbolBase + j ∈ visited := by
    intro j d hd
    refine ⟨_, by rw [← d.hash_eq]; exact h.visit_of_mem (List.mem_of_getElem? hd), ?_⟩
    exact mem_entriesOf.mpr ⟨j, d, hd, rfl, rfl⟩
  constructor
  · intro name
    rcases h.visit_eq (gnuHash name) with hv | hv
    · exact ⟨[], hv, by simp⟩
    · refine ⟨_, hv, fun index hindex => ?_⟩
      obtain ⟨j, d, hd, -, hj⟩ := mem_entriesOf.mp hindex
      exact ⟨j, (List.getElem?_eq_some_iff.mp hd).1, hj⟩
  · exact hvisit
  · intro j d hd
    obtain ⟨visited, hv, hmem⟩ := hvisit j d hd
    show (t.visit (gnuHash d.name)).map _ = _
    rw [hv, Option.map_some]
    refine congrArg some (find?_of_unique hmem ?_ (fun i hi hacc => ?_))
    · rw [← d.hash_eq]
      exact h.accepts_self hd
    · -- another index with this name would be a second definition of it
      have hname := haccepts _ _ _ hacc
      rw [dynsymName] at hname
      split at hname
      · cases hname
      · have := index_eq_of_name hnames hd hname
        omega
  · intro name hundefined
    show (t.visit (gnuHash name)).map _ = _
    have hnone := find?_eq_none_of_undefined hundefined _ (haccepts (gnuHash name) name)
    rcases h.visit_eq (gnuHash name) with hv | hv
    · rw [hv, Option.map_some, hnone]
    · rw [hv, Option.map_some, hnone]

end WrittenFrom

/-! ## The sort -/

theorem sortedBy_sortDefinitions (layout : GnuHashLayout)
    (definitions : List (DynamicSymbolDefinition gnuHash)) :
    SortedBy layout.bucketOf (layout.sortDefinitions definitions) := by
  refine (List.pairwise_mergeSort ?_ ?_ definitions).imp ?_
  · intro a b c hab hbc
    rw [decide_eq_true_iff] at hab hbc ⊢
    exact le_trans hab hbc
  · intro a b
    rw [Bool.or_eq_true, decide_eq_true_iff, decide_eq_true_iff]
    exact le_total _ _
  · intro a b hab
    rw [decide_eq_true_iff, Prod.Lex.le_iff] at hab
    rcases hab with hlt | ⟨heq, -⟩
    · exact Nat.le_of_lt hlt
    · exact Nat.le_of_eq heq

theorem createGnuHashLayout_perm (hashStyle : HashStyle) (outputKind : OutputKind)
    (definitions : List (DynamicSymbolDefinition gnuHash)) :
    (createGnuHashLayout hashStyle outputKind definitions).2.Perm definitions := by
  rw [createGnuHashLayout]
  split
  · exact List.Perm.refl _
  · exact List.mergeSort_perm _ _

variable {layout : GnuHashLayout} {outputKind : OutputKind} {hashStyle : HashStyle}

theorem createGnuHashLayout_some (h : (createGnuHashLayout hashStyle outputKind definitions).1 = some layout) :
    layout = GnuHashLayout.ofCount definitions.length ∧
      (createGnuHashLayout hashStyle outputKind definitions).2 = layout.sortDefinitions definitions := by
  rw [createGnuHashLayout] at h ⊢
  split at h
  · cases h
  · next hstyle =>
      rw [if_neg hstyle]
      rw [Option.some.injEq] at h
      exact ⟨h.symm, by rw [← h]⟩

/-- The writer uses up the bytes that were reserved. -/
theorem writeGnuHashTables_allocate (hcount : layout.numDefs = definitions.length) (hbloom : layout.bloomCount = 1) :
    ∃ t, writeGnuHashTables layout definitions layout.allocate = .ok (t, 0) := by
  have hsize : layout.allocate = 16 + 8 * layout.bloomCount + 4 * layout.bucketCount +
      4 * definitions.length := by
    rw [GnuHashLayout.allocate, hbloom, hcount]
  have hrest : layout.allocate - 16 - 8 * layout.bloomCount - 4 * layout.bucketCount -
      4 * definitions.length = 0 := by omega
  rw [writeGnuHashTables, if_neg (by omega), if_neg (by omega), if_neg (by omega), if_neg (by omega), hrest]
  exact ⟨_, rfl⟩

/-- **The GNU hash table.** The writer fills the reserved bytes exactly, and the table serves the
    definitions in the order of the sort. -/
theorem gnu_hash_serves (hnames : (definitions.map (·.name)).Nodup)
    (hcreate : (createGnuHashLayout hashStyle outputKind definitions).1 = some layout) {startIndex : Nat}
    (hstart : 1 ≤ startIndex) :
    ∃ t, writeGnuHashTables { layout with symbolBase := startIndex }
        (createGnuHashLayout hashStyle outputKind definitions).2 layout.allocate = .ok (t, 0) ∧
      Serves (fun name => t.visit (gnuHash name))
        (fun name => t.find (dynsymName startIndex (createGnuHashLayout hashStyle outputKind definitions).2)
          (gnuHash name) name)
        (createGnuHashLayout hashStyle outputKind definitions).2 startIndex := by
  have hperm := createGnuHashLayout_perm hashStyle outputKind definitions
  obtain ⟨hlayout, hsorted⟩ := createGnuHashLayout_some hcreate
  rw [hsorted] at hperm ⊢
  have hcount : layout.numDefs = (layout.sortDefinitions definitions).length := by
    rw [hperm.length_eq, hlayout]
    rfl
  have hbloom : layout.bloomCount = 1 := by
    rw [hlayout]
    rfl
  have hwrite : ∃ t, writeGnuHashTables { layout with symbolBase := startIndex }
      (layout.sortDefinitions definitions) layout.allocate = .ok (t, 0) :=
    writeGnuHashTables_allocate hcount hbloom
  obtain ⟨t, ht⟩ := hwrite
  refine ⟨t, ht, ?_⟩
  have hfrom : WrittenFrom t { layout with symbolBase := startIndex } (layout.sortDefinitions definitions) :=
    { written := ⟨_, 0, ht⟩
      sorted := sortedBy_sortDefinitions layout definitions
      bloomCount := Nat.lt_of_lt_of_eq Nat.one_pos hbloom.symm
      bucketCount := by rw [hlayout]; exact Nat.pos_of_isPowerOfTwo (Nat.isPowerOfTwo_nextPowerOfTwo _)
      symbolBase := hstart }
  exact hfrom.serves ((hperm.map _).nodup_iff.mpr hnames)

end Reld
