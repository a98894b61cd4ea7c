import Reld.Resolve.Run

/-!
# `Resolve.Chunking` — the symbols of an object, chunk by chunk

`work_items_do` splits the symbols of an object into consecutive chunks, and `resolve_symbols` handles one
of them. `chunkLoop_symbols` says that the chunks together are the whole table, in order, each symbol with
its index in the chunk; `resolveSymbols_eq` writes the result for a chunk as one outcome for each of its
symbols. The only thing in an outcome that depends on the chunk is the index at which the version of the
name is looked up.
-/

namespace Reld

/-! ## Sequences of outcomes -/

/-- The outcomes one after another. -/
def Outcome.sequence (l : List Outcome) : Outcome := l.foldr Outcome.andThen ([], none)

namespace Outcome

@[simp] theorem sequence_nil : sequence [] = ([], none) := rfl

@[simp] theorem sequence_cons (a : Outcome) (l : List Outcome) :
    sequence (a :: l) = a.andThen (sequence l) := rfl

/-- Nothing fails exactly if no outcome does. -/
theorem sequence_ok_iff {l : List Outcome} : (sequence l).2 = none ↔ ∀ a ∈ l, a.2 = none := by
  induction l with
  | nil => simp
  | cons a l ih =>
    rw [sequence_cons, List.forall_mem_cons, ← ih]
    unfold andThen
    cases ha : a.2 with
    | some e => simp
    | none => simp

/-- Where nothing fails, the effects are those of all outcomes. -/
theorem sequence_effects {l : List Outcome} (h : (sequence l).2 = none) :
    (sequence l).1 = l.flatMap Prod.fst := by
  induction l with
  | nil => rfl
  | cons a l ih =>
    have hall := sequence_ok_iff.mp h
    have ha : a.2 = none := hall a List.mem_cons_self
    have hl : (sequence l).2 = none := sequence_ok_iff.mpr (fun b hb => hall b (List.mem_cons_of_mem _ hb))
    rw [sequence_cons, List.flatMap_cons, ← ih hl]
    unfold andThen
    rw [ha]

/-- Lists of outcomes, each carried out until something fails: nothing fails exactly if no outcome in any
    list does, and then all effects come about. -/
theorem map_sequence_ok_iff (ls : List (List Outcome)) :
    (∀ a ∈ ls.map sequence, a.2 = none) ↔ ∀ a ∈ ls.flatten, a.2 = none := by
  constructor
  · intro h a ha
    obtain ⟨l, hl, ha⟩ := List.mem_flatten.mp ha
    exact sequence_ok_iff.mp (h _ (List.mem_map_of_mem hl)) a ha
  · intro h a ha
    obtain ⟨l, hl, rfl⟩ := List.mem_map.mp ha
    exact sequence_ok_iff.mpr (fun b hb => h b (List.mem_flatten.mpr ⟨l, hl, hb⟩))

theorem map_sequence_effects {ls : List (List Outcome)} (h : ∀ a ∈ ls.flatten, a.2 = none) :
    (ls.map sequence).flatMap Prod.fst = ls.flatten.flatMap Prod.fst := by
  induction ls with
  | nil => rfl
  | cons l ls ih =>
    have hl : (sequence l).2 = none :=
      sequence_ok_iff.mpr (fun a ha => h a (List.mem_append_left _ ha))
    rw [List.map_cons, List.flatMap_cons, List.flatten_cons, List.flatMap_append,
      sequence_effects hl, ih (fun a ha => h a (List.mem_append_right _ ha))]

end Outcome

/-! ## Chunks -/

/-- The symbols of a chunk: the index in the file, the index in the chunk, and the definition. -/
def WorkItem.symbols (item : WorkItem) : List (Nat × Nat × SymbolId) :=
  item.definitionsOut.mapIdx (fun l d => (item.symbolStartOffset + l, l, d))

/-- The symbols of a whole file when chunks of `chunkSize` symbols start at `start`. -/
def fileSymbols (chunkSize start : Nat) (definitionsOut : List SymbolId) : List (Nat × Nat × SymbolId) :=
  definitionsOut.mapIdx (fun i d => (start + i, i % chunkSize, d))

variable {chunkSize : Nat}

/-- A chunk that holds all symbols there are. -/
theorem mapIdx_mod_of_length_le {start : Nat} {l : List SymbolId} (h : l.length ≤ chunkSize) :
    l.mapIdx (fun i d => (start + i, i, d)) = fileSymbols chunkSize start l := by
  unfold fileSymbols
  apply List.ext_getElem
  · simp
  · intro i h₁ h₂
    rw [List.length_mapIdx] at h₁
    simp only [List.getElem_mapIdx]
    rcases Nat.lt_or_ge i chunkSize with hi | hi
    · rw [Nat.mod_eq_of_lt hi]
    · omega

/-- The first chunk and the symbols after it. -/
theorem fileSymbols_take_drop {start : Nat} {l : List SymbolId} (h : chunkSize ≤ l.length) :
    fileSymbols chunkSize start l
      = (l.take chunkSize).mapIdx (fun i d => (start + i, i, d))
        ++ fileSymbols chunkSize (start + chunkSize) (l.drop chunkSize) := by
  have hlen : (l.take chunkSize).length = chunkSize := by rw [List.length_take]; omega
  conv_lhs => rw [← List.take_append_drop chunkSize l]
  unfold fileSymbols
  rw [List.mapIdx_append, hlen]
  congr 1
  · apply List.ext_getElem
    · simp
    · intro i h₁ h₂
      rw [List.length_mapIdx, hlen] at h₁
      simp only [List.getElem_mapIdx]
      rw [Nat.mod_eq_of_lt h₁]
  · apply List.ext_getElem
    · simp
    · intro i h₁ h₂
      simp only [List.getElem_mapIdx]
      rw [Nat.add_comm i chunkSize, Nat.add_mod_left, Nat.add_assoc]

/-- **The chunks are the whole table**: every symbol is in exactly one chunk, in order. -/
theorem chunkLoop_symbols (fileId : FileId) (hpos : 0 < chunkSize) (fuel : Nat) :
    ∀ {start : Nat} {definitionsOut : List SymbolId}, definitionsOut.length ≤ fuel →
      (chunkLoop fileId chunkSize fuel start definitionsOut).flatMap WorkItem.symbols
        = fileSymbols chunkSize start definitionsOut := by
  induction fuel with
  | zero =>
    intro start defs hlen
    obtain rfl := List.eq_nil_of_length_eq_zero (Nat.le_zero.mp hlen)
    rfl
  | succ fuel ih =>
    intro start defs hlen
    rw [chunkLoop]
    rcases Nat.lt_or_ge chunkSize defs.length with hlt | hge
    · have hmin : min chunkSize defs.length = chunkSize := Nat.min_eq_left (Nat.le_of_lt hlt)
      have hrest : (defs.drop chunkSize).isEmpty = false := by
        rw [List.isEmpty_eq_false_iff, ne_eq, List.drop_eq_nil_iff]
        omega
      simp only [hmin, hrest, Bool.false_eq_true, if_false, List.flatMap_cons]
      rw [ih (by rw [List.length_drop]; omega), fileSymbols_take_drop (Nat.le_of_lt hlt)]
      rfl
    · have hmin : min chunkSize defs.length = defs.length := Nat.min_eq_right hge
      have hrest : (defs.drop defs.length).isEmpty = true := by simp
      simp only [hmin, hrest, if_true, List.flatMap_cons, List.flatMap_nil, List.append_nil,
        List.take_length]
      exact mapIdx_mod_of_length_le hge

theorem chunkLoop_fileId {fileId : FileId} {fuel : Nat} :
    ∀ {start : Nat} {definitionsOut : List SymbolId} {item : WorkItem},
      item ∈ chunkLoop fileId chunkSize fuel start definitionsOut → item.fileId = fileId := by
  induction fuel with
  | zero =>
    intro start defs item h
    rw [List.mem_singleton.mp h]
  | succ fuel ih =>
    intro start defs item h
    simp only [chunkLoop] at h
    split_ifs at h
    · rw [List.mem_singleton.mp h]
    · rcases List.mem_cons.mp h with rfl | h
      · rfl
      · exact ih h

/-! ## One outcome for each symbol -/

variable (db : SymbolDb)

/-- What resolving the symbol at `index` of an object does, if its version is looked up at
    `versionIndex`. -/
def objectSymbolOutcome (fileId : FileId) (o : InputObject) (verneed : List (Option Bytes))
    (index versionIndex : Nat) (definition : SymbolId) : Outcome :=
  match o.symbols[index]? with
  | none => ([], none)
  | some s => resolveObjectSymbol db fileId o verneed (index - versionIndex) versionIndex s definition

theorem resolveSymbolsLoop_eq (fileId : FileId) (o : InputObject) (verneed : List (Option Bytes))
    (start : Nat) (defs : List SymbolId) :
    ∀ i, resolveSymbolsLoop db fileId o verneed start i ((o.symbols.drop (start + i)).zip defs)
      = Outcome.sequence (defs.mapIdx (fun l d =>
          objectSymbolOutcome db fileId o verneed (start + (i + l)) (i + l) d)) := by
  induction defs with
  | nil => intro i; rw [List.zip_nil_right]; rfl
  | cons d defs ih =>
    intro i
    rw [List.mapIdx_cons, Outcome.sequence_cons]
    have htail : defs.mapIdx (fun l d =>
          objectSymbolOutcome db fileId o verneed (start + (i + (l + 1))) (i + (l + 1)) d)
        = defs.mapIdx (fun l d =>
          objectSymbolOutcome db fileId o verneed (start + (i + 1 + l)) (i + 1 + l) d) := by
      apply List.ext_getElem
      · simp
      · intro l h₁ h₂
        simp only [List.getElem_mapIdx]
        rw [show i + (l + 1) = i + 1 + l by omega]
    rw [htail, ← ih (i + 1)]
    rcases Nat.lt_or_ge (start + i) o.symbols.length with hlt | hge
    · rw [List.drop_eq_getElem_cons hlt, List.zip_cons_cons, resolveSymbolsLoop]
      have hhead : objectSymbolOutcome db fileId o verneed (start + (i + 0)) (i + 0) d
          = resolveObjectSymbol db fileId o verneed start i o.symbols[start + i] d := by
        simp [objectSymbolOutcome, List.getElem?_eq_getElem hlt]
      rw [hhead, Nat.add_assoc]
    · have hnone : o.symbols[start + i]? = none := List.getElem?_eq_none hge
      have hhead : objectSymbolOutcome db fileId o verneed (start + (i + 0)) (i + 0) d = ([], none) := by
        simp [objectSymbolOutcome, hnone]
      rw [hhead, List.drop_eq_nil_of_le hge, List.drop_eq_nil_of_le (by omega : _ ≤ start + (i + 1))]
      rfl

/-- **The result for a chunk**, symbol by symbol. -/
theorem resolveSymbols_eq {fileId : FileId} {o : InputObject} {verneed : List (Option Bytes)}
    (hv : o.verneedNamesByIndex = .ok verneed) (item : WorkItem) :
    resolveSymbols db fileId o item.symbolStartOffset item.definitionsOut
      = Outcome.sequence (item.symbols.map fun t =>
          objectSymbolOutcome db fileId o verneed t.1 t.2.1 t.2.2) := by
  unfold resolveSymbols
  rw [hv]
  have hloop := resolveSymbolsLoop_eq db fileId o verneed item.symbolStartOffset item.definitionsOut 0
  simp only [Nat.add_zero, Nat.zero_add] at hloop
  simp only [hloop]
  congr 1
  unfold WorkItem.symbols
  apply List.ext_getElem
  · simp
  · intro l h₁ h₂
    simp

end Reld

/-!
# Whether chunks resolve like the whole table

`resolve_symbols` adds the start of the chunk to the index of a symbol wherever it needs the index in the
table, except where it looks up the version of the name. So the version of a symbol is taken from the entry
of `.gnu.version` at its index **in the chunk**. For an object of one chunk that is the same; for a larger
one the results are those of the whole table exactly if the wrong versions make no difference
(`chunked_results_iff`).
-/

namespace Reld

variable (db : SymbolDb)

/-! ## The two ways -/

/-- The outcomes of the chunks of an object. -/
def chunkedOutcomes (fileId : FileId) (o : InputObject) (chunkSize : Nat) (definitionsOut : List SymbolId) :
    List Outcome :=
  (chunkLoop fileId chunkSize definitionsOut.length 0 definitionsOut).map
    (fun item => resolveSymbols db fileId o item.symbolStartOffset item.definitionsOut)

/-- Two ways of resolving an object have the same results: both fail, or both succeed with the same
    definitions, undefined symbols and requests, in any order. -/
def SameResults (as bs : List Outcome) : Prop :=
  ((∃ a ∈ as, a.2 ≠ none) ∧ ∃ b ∈ bs, b.2 ≠ none) ∨
    ((∀ a ∈ as, a.2 = none) ∧ (∀ b ∈ bs, b.2 = none) ∧
      (definitionsOf (as.flatMap Prod.fst)).Perm (definitionsOf (bs.flatMap Prod.fst)) ∧
      (undefinedOf (as.flatMap Prod.fst)).Perm (undefinedOf (bs.flatMap Prod.fst)) ∧
      (requestsOf (as.flatMap Prod.fst)).Perm (requestsOf (bs.flatMap Prod.fst)))

/-! ## The condition -/

/-- `s` is the symbol at `index` of an object, and `resolve_symbols` does not pass over it. -/
def IsResolved (o : InputObject) (definitionsOut : List SymbolId) (index : Nat) (s : SymtabEntry) : Prop :=
  o.symbols[index]? = some s ∧
    ∃ definition, definitionsOut[index]? = some definition ∧ skipsSymbol o index s definition = false

/-- The key of a reference if its version is looked up at `versionIndex`. -/
def lookupKey (o : InputObject) (verneed : List (Option Bytes)) (nameBytes : Bytes) (versionIndex : Nat) :
    PreHashedSymbolName :=
  .fromRaw (rawSymbolName nameBytes o.versym verneed versionIndex)

/-- Two keys are as good as each other for a reference: they are equal, or they find the same symbol and the
    reference is not recorded, so that the key does not matter afterwards. -/
def SameReference (fileId : FileId) (s : SymtabEntry) (key key' : PreHashedSymbolName) : Prop :=
  key = key' ∨
    ∃ symbolId, db.get key s.isInterposable = some symbolId ∧ db.get key' s.isInterposable = some symbolId ∧
      recordsReference db fileId s.isWeak symbolId = false

/-- No symbol of the object loses by having its version looked up at its index in the chunk. -/
def ChunksKeepReferences (fileId : FileId) (o : InputObject) (chunkSize : Nat)
    (definitionsOut : List SymbolId) : Prop :=
  match o.verneedNamesByIndex with
  | .error _ => True
  | .ok verneed =>
    (∃ index s, IsResolved o definitionsOut index s ∧ s.name = none) ∨
      ∀ index s nameBytes, IsResolved o definitionsOut index s → s.name = some nameBytes →
        SameReference db fileId s (lookupKey o verneed nameBytes (index % chunkSize))
          (lookupKey o verneed nameBytes index)

/-! ## Symbol by symbol -/

/-- The outcomes of all symbols of an object, where the version of the symbol at `index` is looked up at
    `versionIndexOf index`. -/
def symbolOutcomes (fileId : FileId) (o : InputObject) (verneed : List (Option Bytes))
    (versionIndexOf : Nat → Nat) (definitionsOut : List SymbolId) : List Outcome :=
  definitionsOut.mapIdx (fun index d => objectSymbolOutcome db fileId o verneed index (versionIndexOf index) d)

variable {db} {fileId : FileId} {o : InputObject} {verneed : List (Option Bytes)} {chunkSize : Nat}
  {defs : List SymbolId} {versionIndexOf : Nat → Nat}

/-- The attributes of a reference if its version is looked up at `versionIndex`. -/
def attributesAt (o : InputObject) (verneed : List (Option Bytes)) (s : SymtabEntry) (nameBytes : Bytes)
    (versionIndex : Nat) : SymbolAttributes :=
  { nameInfo := rawSymbolName nameBytes o.versym verneed versionIndex
    defaultVisibility := s.isInterposable
    isWeak := s.isWeak }

variable {index : Nat}

/-- The outcome of a symbol that is passed over is empty, whatever its version. -/
theorem objectSymbolOutcome_skipped {versionIndex : Nat} {d : SymbolId} (hle : versionIndex ≤ index)
    (h : ∀ s, o.symbols[index]? = some s → skipsSymbol o index s d = true) :
    objectSymbolOutcome db fileId o verneed index versionIndex d = ([], none) := by
  unfold objectSymbolOutcome
  cases hs : o.symbols[index]? with
  | none => rfl
  | some s =>
    have hskip := h s hs
    have hindex : index - versionIndex + versionIndex = index := Nat.sub_add_cancel hle
    simp [resolveObjectSymbol, hindex, hskip]

variable {s : SymtabEntry}

/-- The outcome of a symbol that is resolved. -/
theorem objectSymbolOutcome_resolved {versionIndex : Nat} {d : SymbolId} (hle : versionIndex ≤ index)
    (hs : o.symbols[index]? = some s) (hskip : skipsSymbol o index s d = false) :
    objectSymbolOutcome db fileId o verneed index versionIndex d
      = match s.name with
        | none => ([], some .symbolName)
        | some nameBytes =>
          (resolveSymbol db (db.symbolIdStart fileId + index) (attributesAt o verneed s nameBytes versionIndex)
            o.isDynamic fileId false, none) := by
  have hindex : index - versionIndex + versionIndex = index := Nat.sub_add_cancel hle
  simp only [objectSymbolOutcome, hs, resolveObjectSymbol, hindex, hskip, Bool.false_eq_true, if_false]
  rfl

/-- Every member of the list of outcomes is the outcome of some symbol. -/
theorem mem_symbolOutcomes {a : Outcome} :
    a ∈ symbolOutcomes db fileId o verneed versionIndexOf defs ↔
      ∃ index d, defs[index]? = some d ∧
        a = objectSymbolOutcome db fileId o verneed index (versionIndexOf index) d := by
  unfold symbolOutcomes
  rw [List.mem_mapIdx]
  constructor
  · rintro ⟨index, hlt, rfl⟩
    exact ⟨index, defs[index], List.getElem?_eq_getElem hlt, rfl⟩
  · rintro ⟨index, d, hd, rfl⟩
    obtain ⟨hlt, hget⟩ := List.getElem?_eq_some_iff.mp hd
    exact ⟨index, hlt, by rw [hget]⟩

/-- A failure is that of a symbol whose name cannot be read, wherever versions are looked up. -/
theorem symbolOutcomes_fail_iff (hle : ∀ index, versionIndexOf index ≤ index) :
    (∃ a ∈ symbolOutcomes db fileId o verneed versionIndexOf defs, a.2 ≠ none) ↔
      ∃ index s, IsResolved o defs index s ∧ s.name = none := by
  constructor
  · rintro ⟨a, ha, hfail⟩
    obtain ⟨index, d, hd, rfl⟩ := mem_symbolOutcomes.mp ha
    have hresolved : ∃ s, o.symbols[index]? = some s ∧ skipsSymbol o index s d = false := by
      by_contra hnot
      apply hfail
      rw [objectSymbolOutcome_skipped (hle index)]
      intro s hs
      by_contra hskip
      exact hnot ⟨s, hs, by simpa using hskip⟩
    obtain ⟨s, hs, hskip⟩ := hresolved
    refine ⟨index, s, ⟨hs, d, hd, hskip⟩, ?_⟩
    rw [objectSymbolOutcome_resolved (hle index) hs hskip] at hfail
    cases hn : s.name with
    | none => rfl
    | some nameBytes =>
      rw [hn] at hfail
      exact absurd rfl hfail
  · rintro ⟨index, s, ⟨hs, d, hd, hskip⟩, hn⟩
    refine ⟨_, mem_symbolOutcomes.mpr ⟨index, d, hd, rfl⟩, ?_⟩
    rw [objectSymbolOutcome_resolved (hle index) hs hskip, hn]
    simp

variable {e : Effect}

/-- The effects of all symbols are those of the references of the resolved ones. -/
theorem mem_symbolOutcomes_effects (hle : ∀ index, versionIndexOf index ≤ index) :
    e ∈ (symbolOutcomes db fileId o verneed versionIndexOf defs).flatMap Prod.fst ↔
      ∃ index s nameBytes, IsResolved o defs index s ∧ s.name = some nameBytes ∧
        e ∈ resolveSymbol db (db.symbolIdStart fileId + index)
          (attributesAt o verneed s nameBytes (versionIndexOf index)) o.isDynamic fileId false := by
  rw [List.mem_flatMap]
  constructor
  · rintro ⟨a, ha, he⟩
    obtain ⟨index, d, hd, rfl⟩ := mem_symbolOutcomes.mp ha
    have hresolved : ∃ s, o.symbols[index]? = some s ∧ skipsSymbol o index s d = false := by
      by_contra hnot
      rw [objectSymbolOutcome_skipped (hle index)] at he
      · exact absurd he List.not_mem_nil
      · intro s hs
        by_contra hskip
        exact hnot ⟨s, hs, by simpa using hskip⟩
    obtain ⟨s, hs, hskip⟩ := hresolved
    rw [objectSymbolOutcome_resolved (hle index) hs hskip] at he
    cases hn : s.name with
    | none =>
      rw [hn] at he
      exact absurd he List.not_mem_nil
    | some nameBytes =>
      rw [hn] at he
      exact ⟨index, s, nameBytes, ⟨hs, d, hd, hskip⟩, hn, he⟩
  · rintro ⟨index, s, nameBytes, ⟨hs, d, hd, hskip⟩, hn, he⟩
    refine ⟨_, mem_symbolOutcomes.mpr ⟨index, d, hd, rfl⟩, ?_⟩
    rw [objectSymbolOutcome_resolved (hle index) hs hskip, hn]
    exact he

/-! ## Chunks as symbols -/

variable (db fileId defs) in
/-- The outcomes of the chunks are those of the symbols, grouped. -/
theorem chunkedOutcomes_eq (hpos : 0 < chunkSize) (hv : o.verneedNamesByIndex = .ok verneed) :
    ∃ groups : List (List Outcome), chunkedOutcomes db fileId o chunkSize defs = groups.map Outcome.sequence ∧
      groups.flatten = symbolOutcomes db fileId o verneed (fun index => index % chunkSize) defs := by
  let items := chunkLoop fileId chunkSize defs.length 0 defs
  refine ⟨items.map (fun item => item.symbols.map fun t =>
    objectSymbolOutcome db fileId o verneed t.1 t.2.1 t.2.2), ?_, ?_⟩
  · unfold chunkedOutcomes
    rw [List.map_map]
    apply List.map_congr_left
    intro item _
    exact resolveSymbols_eq db hv item
  · have hsymbols : items.flatMap WorkItem.symbols = fileSymbols chunkSize 0 defs :=
      chunkLoop_symbols fileId hpos defs.length (Nat.le_refl _)
    rw [← List.flatMap_def, ← List.map_flatMap, hsymbols]
    unfold fileSymbols symbolOutcomes
    apply List.ext_getElem
    · simp
    · intro i h₁ h₂
      simp

/-- The whole table in one chunk. -/
theorem resolveSymbols_whole (hv : o.verneedNamesByIndex = .ok verneed) :
    resolveSymbols db fileId o 0 defs = Outcome.sequence (symbolOutcomes db fileId o verneed (fun index => index) defs) := by
  rw [resolveSymbols_eq db hv { fileId := fileId, symbolStartOffset := 0, definitionsOut := defs }]
  congr 1
  unfold WorkItem.symbols symbolOutcomes
  apply List.ext_getElem
  · simp
  · intro i h₁ h₂
    simp

/-- Grouping outcomes does not change their results. -/
theorem sameResults_map_sequence {as bs : List (List Outcome)} :
    SameResults (as.map Outcome.sequence) (bs.map Outcome.sequence) ↔ SameResults as.flatten bs.flatten := by
  have hfail : ∀ ls : List (List Outcome),
      (∃ a ∈ ls.map Outcome.sequence, a.2 ≠ none) ↔ ∃ a ∈ ls.flatten, a.2 ≠ none := by
    intro ls
    have hok := not_congr (Outcome.map_sequence_ok_iff ls)
    push Not at hok
    exact hok
  unfold SameResults
  rw [hfail as, hfail bs, Outcome.map_sequence_ok_iff, Outcome.map_sequence_ok_iff]
  refine or_congr_right ⟨?_, ?_⟩
  · rintro ⟨has, hbs, hresults⟩
    rw [Outcome.map_sequence_effects has, Outcome.map_sequence_effects hbs] at hresults
    exact ⟨has, hbs, hresults⟩
  · rintro ⟨has, hbs, hresults⟩
    rw [Outcome.map_sequence_effects has, Outcome.map_sequence_effects hbs]
    exact ⟨has, hbs, hresults⟩

/-- **Chunks and the whole table, symbol by symbol**: the results are the same exactly if the outcomes of
    the symbols have the same results. -/
theorem sameResults_iff_symbols (hpos : 0 < chunkSize) (hv : o.verneedNamesByIndex = .ok verneed) :
    SameResults (chunkedOutcomes db fileId o chunkSize defs) [resolveSymbols db fileId o 0 defs] ↔
      SameResults (symbolOutcomes db fileId o verneed (fun index => index % chunkSize) defs)
        (symbolOutcomes db fileId o verneed (fun index => index) defs) := by
  obtain ⟨groups, hchunked, hflat⟩ := chunkedOutcomes_eq db fileId defs hpos hv
  have hwhole : [resolveSymbols db fileId o 0 defs]
      = [symbolOutcomes db fileId o verneed (fun index => index) defs].map Outcome.sequence := by
    rw [resolveSymbols_whole hv]
    rfl
  have hwholeFlat : [symbolOutcomes db fileId o verneed (fun index => index) defs].flatten
      = symbolOutcomes db fileId o verneed (fun index => index) defs := List.flatten_singleton
  rw [hchunked, hwhole, sameResults_map_sequence, hflat, hwholeFlat]

/-! ## Two version indices for each symbol -/

/-- The index of a symbol in its chunk is not larger than its index in the table. -/
theorem chunkIndex_le (index : Nat) : index % chunkSize ≤ index := Nat.mod_le _ _

variable {nameBytes : Bytes}

/-- A reference that does not lose has the same results. -/
theorem resolveSymbol_same {v v' : Nat} (index : Nat) (isDynamic : Bool)
    (h : SameReference db fileId s (lookupKey o verneed nameBytes v) (lookupKey o verneed nameBytes v')) :
    let effects v := resolveSymbol db (db.symbolIdStart fileId + index) (attributesAt o verneed s nameBytes v)
      isDynamic fileId false
    definitionsOf (effects v) = definitionsOf (effects v') ∧ undefinedOf (effects v) = undefinedOf (effects v')
      ∧ requestsOf (effects v) = requestsOf (effects v') := by
  intro effects
  rcases h with hkey | ⟨symbolId, hget, hget', hrecord⟩
  · have heffects : effects v = effects v' := by
      show resolveSymbol _ _ _ _ _ _ = resolveSymbol _ _ _ _ _ _
      have hraw : PreHashedSymbolName.fromRaw (attributesAt o verneed s nameBytes v).nameInfo
          = .fromRaw (attributesAt o verneed s nameBytes v').nameInfo := hkey
      unfold resolveSymbol referenceFileEffects
      rw [hraw]
      rfl
    rw [heffects]
    exact ⟨rfl, rfl, rfl⟩
  · obtain ⟨hd, hu, hr⟩ : definitionsOf (effects v) = _ ∧ undefinedOf (effects v) = _ ∧
        requestsOf (effects v) = _ := resolveSymbol_some hget
    obtain ⟨hd', hu', hr'⟩ : definitionsOf (effects v') = _ ∧ undefinedOf (effects v') = _ ∧
        requestsOf (effects v') = _ := resolveSymbol_some hget'
    have hrecord' : ∀ w, recordsReference db fileId (attributesAt o verneed s nameBytes w).isWeak symbolId
        = false := fun _ => hrecord
    rw [hrecord', if_neg Bool.false_ne_true] at hu hu'
    exact ⟨by rw [hd, hd'], by rw [hu, hu'], by rw [hr, hr']; rfl⟩

/-- A reference with the same definition and the same records does not lose. -/
theorem sameReference_of_results {v v' : Nat} (index : Nat) (isDynamic : Bool) (hdefinitions : ∀ k,
      Effect.define (db.symbolIdStart fileId + index) k
          ∈ resolveSymbol db (db.symbolIdStart fileId + index) (attributesAt o verneed s nameBytes v)
            isDynamic fileId false ↔
        Effect.define (db.symbolIdStart fileId + index) k
          ∈ resolveSymbol db (db.symbolIdStart fileId + index) (attributesAt o verneed s nameBytes v')
            isDynamic fileId false) (hrecords : ∀ u : UndefinedSymbol, u.symbolId = db.symbolIdStart fileId + index →
      (Effect.recordUndefined u
          ∈ resolveSymbol db (db.symbolIdStart fileId + index) (attributesAt o verneed s nameBytes v)
            isDynamic fileId false ↔
        Effect.recordUndefined u
          ∈ resolveSymbol db (db.symbolIdStart fileId + index) (attributesAt o verneed s nameBytes v')
            isDynamic fileId false)) :
    SameReference db fileId s (lookupKey o verneed nameBytes v) (lookupKey o verneed nameBytes v') := by
  have hnone : ∀ w, db.get (lookupKey o verneed nameBytes w) s.isInterposable = none →
      resolveSymbol db (db.symbolIdStart fileId + index) (attributesAt o verneed s nameBytes w) isDynamic
          fileId false
        = [.recordUndefined
            { ignoreIfLoaded := none, name := lookupKey o verneed nameBytes w
              symbolId := db.symbolIdStart fileId + index }] := fun w hw => resolveSymbol_none hw
  have hsome : ∀ w k, db.get (lookupKey o verneed nameBytes w) s.isInterposable = some k →
      definitionsOf (resolveSymbol db (db.symbolIdStart fileId + index)
          (attributesAt o verneed s nameBytes w) isDynamic fileId false)
        = [(db.symbolIdStart fileId + index, k)] := fun w k hw => (resolveSymbol_some hw).1
  have hget_of_define : ∀ w k, Effect.define (db.symbolIdStart fileId + index) k
        ∈ resolveSymbol db (db.symbolIdStart fileId + index) (attributesAt o verneed s nameBytes w)
          isDynamic fileId false ↔
      db.get (lookupKey o verneed nameBytes w) s.isInterposable = some k := by
    intro w k
    rw [← mem_definitionsOf]
    cases hw : db.get (lookupKey o verneed nameBytes w) s.isInterposable with
    | none =>
      rw [hnone w hw]
      simp [definitionsOf]
    | some k' =>
      rw [hsome w k' hw]
      simp [eq_comm]
  have hsame : db.get (lookupKey o verneed nameBytes v) s.isInterposable
      = db.get (lookupKey o verneed nameBytes v') s.isInterposable := by
    apply Option.ext
    intro k
    rw [← hget_of_define v k, ← hget_of_define v' k]
    exact hdefinitions k
  cases hv : db.get (lookupKey o verneed nameBytes v) s.isInterposable with
  | none =>
    left
    have hv' := hsame ▸ hv
    have hmem := (hrecords
      { ignoreIfLoaded := none, name := lookupKey o verneed nameBytes v, symbolId := _ } rfl).mp (by
        rw [hnone v hv]
        exact List.mem_singleton.mpr rfl)
    rw [hnone v' hv'] at hmem
    injection List.mem_singleton.mp hmem with hu
    exact congrArg UndefinedSymbol.name hu
  | some k =>
    have hv' := hsame ▸ hv
    cases hrecord : recordsReference db fileId s.isWeak k with
    | false => exact Or.inr ⟨k, hv, hv', hrecord⟩
    | true =>
      left
      have hundefined : ∀ w, db.get (lookupKey o verneed nameBytes w) s.isInterposable = some k →
          undefinedOf (resolveSymbol db (db.symbolIdStart fileId + index)
            (attributesAt o verneed s nameBytes w) isDynamic fileId false)
          = [{ ignoreIfLoaded := some (db.fileIdForSymbol k), name := lookupKey o verneed nameBytes w
               symbolId := db.symbolIdStart fileId + index }] := by
        intro w hw
        exact (resolveSymbol_some hw).2.1.trans (if_pos hrecord)
      have hmem := (hrecords { ignoreIfLoaded := some (db.fileIdForSymbol k)
                               name := lookupKey o verneed nameBytes v, symbolId := _ } rfl).mp (by
        rw [← mem_undefinedOf, hundefined v hv]
        exact List.mem_singleton.mpr rfl)
      rw [← mem_undefinedOf, hundefined v' hv', List.mem_singleton] at hmem
      exact congrArg UndefinedSymbol.name hmem

/-- The effects of a reference that name its symbol are its own. -/
theorem resolveSymbol_owner {id : SymbolId} {attributes : SymbolAttributes} {isDynamic fromIr : Bool}
    (he : e ∈ resolveSymbol db id attributes isDynamic fileId fromIr) :
    (∀ a b, e = .define a b → a = id) ∧ ∀ u, e = .recordUndefined u → u.symbolId = id := by
  cases hget : db.get (.fromRaw attributes.nameInfo) attributes.defaultVisibility with
  | none =>
    rw [resolveSymbol_none hget, List.mem_singleton] at he
    subst he
    refine ⟨fun a b h => absurd h (by simp), fun u h => ?_⟩
    injection h with h
    rw [← h]
  | some k =>
    obtain ⟨hd, hu, _⟩ : definitionsOf (resolveSymbol db id attributes isDynamic fileId fromIr) = _ ∧
        undefinedOf (resolveSymbol db id attributes isDynamic fileId fromIr) = _ ∧ _ :=
      resolveSymbol_some hget
    refine ⟨?_, ?_⟩
    · rintro a b rfl
      rw [← mem_definitionsOf, hd, List.mem_singleton] at he
      exact congrArg Prod.fst he
    · rintro u rfl
      rw [← mem_undefinedOf, hu] at he
      split_ifs at he
      · rw [List.mem_singleton.mp he]
      · exact absurd he List.not_mem_nil

/-- An effect that names a resolved symbol is one of its own reference. -/
theorem mem_symbolOutcomes_own (hle : ∀ index, versionIndexOf index ≤ index) (hresolved : IsResolved o defs index s)
    (hn : s.name = some nameBytes) (he : (∃ k, e = .define (db.symbolIdStart fileId + index) k) ∨
      ∃ u : UndefinedSymbol, e = .recordUndefined u ∧ u.symbolId = db.symbolIdStart fileId + index) :
    e ∈ (symbolOutcomes db fileId o verneed versionIndexOf defs).flatMap Prod.fst ↔
      e ∈ resolveSymbol db (db.symbolIdStart fileId + index)
        (attributesAt o verneed s nameBytes (versionIndexOf index)) o.isDynamic fileId false := by
  rw [mem_symbolOutcomes_effects hle]
  constructor
  · rintro ⟨index', s', nameBytes', hresolved', hn', hmem⟩
    have howner := resolveSymbol_owner hmem
    have hindex : index' = index := by
      rcases he with ⟨k, rfl⟩ | ⟨u, rfl, hu⟩
      · exact (Nat.add_left_cancel (howner.1 _ _ rfl)).symm
      · exact (Nat.add_left_cancel (hu.symm.trans (howner.2 u rfl))).symm
    subst hindex
    obtain rfl : s' = s := Option.some.inj (hresolved'.1.symm.trans hresolved.1)
    obtain rfl : nameBytes' = nameBytes := Option.some.inj (hn'.symm.trans hn)
    exact hmem
  · intro hmem
    exact ⟨index, s, nameBytes, hresolved, hn, hmem⟩

/-- The results of one outcome. -/
def resultsOf (a : Outcome) : List (SymbolId × SymbolId) × List UndefinedSymbol × List FileId :=
  (definitionsOf a.1, undefinedOf a.1, requestsOf a.1)

/-- Outcomes with the same results one by one have the same results together. -/
theorem results_eq_of_map {as bs : List Outcome} (h : as.map resultsOf = bs.map resultsOf) :
    definitionsOf (as.flatMap Prod.fst) = definitionsOf (bs.flatMap Prod.fst) ∧
      undefinedOf (as.flatMap Prod.fst) = undefinedOf (bs.flatMap Prod.fst) ∧
      requestsOf (as.flatMap Prod.fst) = requestsOf (bs.flatMap Prod.fst) := by
  have hall : ∀ l : List Outcome, definitionsOf (l.flatMap Prod.fst) = (l.map resultsOf).flatMap (·.1) ∧
      undefinedOf (l.flatMap Prod.fst) = (l.map resultsOf).flatMap (·.2.1) ∧
      requestsOf (l.flatMap Prod.fst) = (l.map resultsOf).flatMap (·.2.2) := by
    intro l
    induction l with
    | nil => exact ⟨rfl, rfl, rfl⟩
    | cons a l ih =>
      obtain ⟨hd, hu, hr⟩ := ih
      rw [List.flatMap_cons, definitionsOf_append, undefinedOf_append, requestsOf_append, hd, hu, hr]
      exact ⟨rfl, rfl, rfl⟩
  obtain ⟨hd, hu, hr⟩ := hall as
  obtain ⟨hd', hu', hr'⟩ := hall bs
  rw [hd, hu, hr, hd', hu', hr', h]
  exact ⟨rfl, rfl, rfl⟩

/-- Every symbol of the object loses nothing exactly if all outcomes together have the same results. -/
theorem sameResults_symbols_iff :
    SameResults (symbolOutcomes db fileId o verneed (fun index => index % chunkSize) defs)
        (symbolOutcomes db fileId o verneed (fun index => index) defs) ↔
      (∃ index s, IsResolved o defs index s ∧ s.name = none) ∨
        ∀ index s nameBytes, IsResolved o defs index s → s.name = some nameBytes →
          SameReference db fileId s (lookupKey o verneed nameBytes (index % chunkSize))
            (lookupKey o verneed nameBytes index) := by
  have hfail : (∃ a ∈ symbolOutcomes db fileId o verneed (fun index => index % chunkSize) defs, a.2 ≠ none)
      ↔ _ := symbolOutcomes_fail_iff chunkIndex_le
  have hfail' : (∃ a ∈ symbolOutcomes db fileId o verneed (fun index => index) defs, a.2 ≠ none)
      ↔ _ := symbolOutcomes_fail_iff Nat.le_refl
  unfold SameResults
  rw [hfail, hfail', and_self]
  by_cases hname : ∃ index s, IsResolved o defs index s ∧ s.name = none
  · exact iff_of_true (Or.inl hname) (Or.inl hname)
  have hok : ∀ versionIndexOf : Nat → Nat, (∀ index, versionIndexOf index ≤ index) →
      ∀ a ∈ symbolOutcomes db fileId o verneed versionIndexOf defs, a.2 = none := by
    intro versionIndexOf hle
    by_contra hnot
    push Not at hnot
    exact hname ((symbolOutcomes_fail_iff hle).mp hnot)
  refine or_congr_right ⟨?_, ?_⟩
  · rintro ⟨_, _, hdefinitions, hrecords, _⟩ index s nameBytes hresolved hn
    apply sameReference_of_results index o.isDynamic
    · intro k
      refine (mem_symbolOutcomes_own chunkIndex_le hresolved hn (Or.inl ⟨k, rfl⟩)).symm.trans
        (Iff.trans ?_ (mem_symbolOutcomes_own Nat.le_refl hresolved hn (Or.inl ⟨k, rfl⟩)))
      rw [← mem_definitionsOf, ← mem_definitionsOf]
      exact hdefinitions.mem_iff
    · intro u hu
      refine (mem_symbolOutcomes_own chunkIndex_le hresolved hn (Or.inr ⟨u, rfl, hu⟩)).symm.trans
        (Iff.trans ?_ (mem_symbolOutcomes_own Nat.le_refl hresolved hn (Or.inr ⟨u, rfl, hu⟩)))
      rw [← mem_undefinedOf, ← mem_undefinedOf]
      exact hrecords.mem_iff
  · intro h
    refine ⟨hok _ chunkIndex_le, hok _ Nat.le_refl, ?_⟩
    have hmap : (symbolOutcomes db fileId o verneed (fun index => index % chunkSize) defs).map resultsOf
        = (symbolOutcomes db fileId o verneed (fun index => index) defs).map resultsOf := by
      unfold symbolOutcomes
      apply List.ext_getElem
      · simp
      · intro index h₁ h₂
        simp only [List.length_map, List.length_mapIdx] at h₁
        simp only [List.getElem_map, List.getElem_mapIdx]
        have hd : defs[index]? = some defs[index] := List.getElem?_eq_getElem h₁
        by_cases hresolved : ∃ s, o.symbols[index]? = some s ∧ skipsSymbol o index s defs[index] = false
        · obtain ⟨s, hs, hskip⟩ := hresolved
          rw [objectSymbolOutcome_resolved (chunkIndex_le index) hs hskip,
            objectSymbolOutcome_resolved (Nat.le_refl index) hs hskip]
          cases hn : s.name with
          | none => rfl
          | some nameBytes =>
            have hsame := h index s nameBytes ⟨hs, _, hd, hskip⟩ hn
            obtain ⟨hdef, hundef, hreq⟩ := resolveSymbol_same index o.isDynamic hsame
            simp only [resultsOf]
            rw [hdef, hundef, hreq]
        · have hskip : ∀ s, o.symbols[index]? = some s → skipsSymbol o index s defs[index] = true := by
            intro s hs
            by_contra hnot
            exact hresolved ⟨s, hs, by simpa using hnot⟩
          rw [objectSymbolOutcome_skipped (chunkIndex_le index) hskip,
            objectSymbolOutcome_skipped (Nat.le_refl index) hskip]
    obtain ⟨hdef, hundef, hreq⟩ := results_eq_of_map hmap
    rw [hdef, hundef, hreq]
    exact ⟨.refl _, .refl _, .refl _⟩

/-! ## The whole object -/

theorem chunkLoop_ne_nil {fuel start : Nat} : chunkLoop fileId chunkSize fuel start defs ≠ [] := by
  cases fuel with
  | zero => simp [chunkLoop]
  | succ fuel =>
    simp only [chunkLoop]
    split_ifs <;> simp

/-- Where the needed versions cannot be read, every chunk fails. -/
theorem resolveSymbols_verneed_error {e : LinkError} (hv : o.verneedNamesByIndex = .error e) (start : Nat) :
    resolveSymbols db fileId o start defs = ([], some e) := by
  unfold resolveSymbols
  rw [hv]

theorem sameResults_iff_keepReferences (hpos : 0 < chunkSize) :
    SameResults (chunkedOutcomes db fileId o chunkSize defs) [resolveSymbols db fileId o 0 defs] ↔
      ChunksKeepReferences db fileId o chunkSize defs := by
  unfold ChunksKeepReferences
  cases hv : o.verneedNamesByIndex with
  | ok verneed => rw [sameResults_iff_symbols hpos hv, sameResults_symbols_iff]
  | error e =>
    refine iff_of_true (Or.inl ⟨?_, ?_⟩) trivial
    · obtain ⟨item, hitem⟩ : ∃ item, item ∈ chunkLoop fileId chunkSize defs.length 0 defs :=
        List.exists_mem_of_ne_nil _ chunkLoop_ne_nil
      refine ⟨_, List.mem_map_of_mem hitem, ?_⟩
      rw [resolveSymbols_verneed_error hv]
      simp
    · refine ⟨_, List.mem_singleton.mpr rfl, ?_⟩
      rw [resolveSymbols_verneed_error hv]
      simp

/-- **Resolving an object in chunks** has the same results as resolving its whole symbol table at once
    exactly if no reference loses by having its version looked up at its index in the chunk. -/
theorem chunked_results_iff (db : SymbolDb) (fileId : FileId) (o : InputObject) (chunkSize : Nat)
    (definitionsOut : List SymbolId) (hpos : 0 < chunkSize) :
    SameResults (chunkedOutcomes db fileId o chunkSize definitionsOut)
        [resolveSymbols db fileId o 0 definitionsOut] ↔
      ChunksKeepReferences db fileId o chunkSize definitionsOut :=
  sameResults_iff_keepReferences hpos

/-! ## A shared object of two chunks -/

/-- An undefined reference to `foo`. -/
def fooReference : SymtabEntry := { name := some (bytesOf "foo"), shndx := .undef }

/-- The symbols of a library: the null symbol, some local ones, and a reference. -/
def librarySymbols (locals : Nat) : List SymtabEntry :=
  { name := some [], bind := .stbLocal, shndx := .undef } ::
    (List.replicate locals { name := some (bytesOf "x"), bind := .stbLocal } ++ [fooReference])

/-- The versions of these symbols: only the last one has a version. -/
def libraryVersym (locals : Nat) : List Versym :=
  { index := 0 } :: (List.replicate locals { index := 0 } ++ [{ index := 2 }])

/-- A shared object whose last symbol is a reference to `foo@V1`. -/
def versionedLibrary (locals : Nat) : InputObject :=
  { symbols := librarySymbols locals
    isDynamic := true
    versym := libraryVersym locals
    vernauxs := [{ other := 2, name := some (bytesOf "V1") }] }

/-- The database of a link with that object alone: nothing defines a name. -/
def versionedLibraryDb (locals : Nat) : SymbolDb :=
  { SymbolDb.new { availableThreads := 1, availableThreads_pos := Nat.one_pos, hashBytes := List.length }
      (.dynamicExecutable .relocatable) none with
    groups := [.prelude [{ name := [], placement := .undefined, isHidden := true }],
      .objects [versionedLibrary locals]]
    symbolDefinitions := fun id => if 2 ≤ id ∧ id ≤ locals + 1 then id else 0 }

/-- The definitions of that object when it is loaded. -/
def versionedLibraryDefinitions (locals : Nat) : List SymbolId :=
  definitionSlice (versionedLibraryDb locals) ⟨1, 0⟩ (.object (versionedLibrary locals))

theorem chunked_results_iff_witness :
    0 < maxSymbolsPerWorkItem ∧
      (SameResults
          (chunkedOutcomes (versionedLibraryDb 3) ⟨1, 0⟩ (versionedLibrary 3) maxSymbolsPerWorkItem
            (versionedLibraryDefinitions 3))
          [resolveSymbols (versionedLibraryDb 3) ⟨1, 0⟩ (versionedLibrary 3) 0
            (versionedLibraryDefinitions 3)] ↔
        ChunksKeepReferences (versionedLibraryDb 3) ⟨1, 0⟩ (versionedLibrary 3) maxSymbolsPerWorkItem
          (versionedLibraryDefinitions 3)) :=
  ⟨by decide, chunked_results_iff (versionedLibraryDb 3) ⟨1, 0⟩ (versionedLibrary 3) maxSymbolsPerWorkItem
    (versionedLibraryDefinitions 3) (by decide)⟩

theorem librarySymbols_last (locals : Nat) : (librarySymbols locals)[locals + 1]? = some fooReference := by
  unfold librarySymbols
  rw [List.getElem?_cons_succ, List.getElem?_append_right (by rw [List.length_replicate]),
    List.length_replicate, Nat.sub_self]
  rfl

theorem libraryVersym_last (locals : Nat) :
    (libraryVersym locals)[locals + 1]? = some { index := 2 } := by
  unfold libraryVersym
  rw [List.getElem?_cons_succ, List.getElem?_append_right (by rw [List.length_replicate]),
    List.length_replicate, Nat.sub_self]
  rfl

theorem fooReference_isResolved (locals : Nat) :
    IsResolved (versionedLibrary locals) (versionedLibraryDefinitions locals) (locals + 1) fooReference := by
  have hlength : (InputFile.object (versionedLibrary locals)).numSymbols = locals + 2 := by
    show (librarySymbols locals).length = locals + 2
    simp [librarySymbols]
  refine ⟨librarySymbols_last locals, 0, ?_, ?_⟩
  · unfold versionedLibraryDefinitions definitionSlice
    rw [hlength, List.getElem?_map, List.getElem?_range (Nat.lt_succ_self _), Option.map_some]
    have hstart : (versionedLibraryDb locals).symbolIdStart ⟨1, 0⟩ = 1 := rfl
    have hafter : ¬(2 ≤ 1 + (locals + 1) ∧ 1 + (locals + 1) ≤ locals + 1) := by omega
    exact congrArg some (if_neg hafter)
  · have hindex : decide (locals + 1 = 0) = false := decide_eq_false (Nat.succ_ne_zero locals)
    unfold skipsSymbol
    rfl

/-- The library loses the version of its last symbol if that symbol starts a chunk. -/
theorem versionedLibrary_results_differ {locals : Nat} (hpos : 0 < chunkSize)
    (hchunk : (locals + 1) % chunkSize = 0) :
    ¬SameResults
        (chunkedOutcomes (versionedLibraryDb locals) ⟨1, 0⟩ (versionedLibrary locals) chunkSize
          (versionedLibraryDefinitions locals))
        [resolveSymbols (versionedLibraryDb locals) ⟨1, 0⟩ (versionedLibrary locals) 0
          (versionedLibraryDefinitions locals)] := by
  rw [sameResults_iff_keepReferences hpos]
  have hverneed : (versionedLibrary locals).verneedNamesByIndex
      = .ok [none, none, some (bytesOf "V1")] := rfl
  have hget : ∀ key allowDynamic, (versionedLibraryDb locals).get key allowDynamic = none := by
    intro key allowDynamic
    cases key <;> rfl
  unfold ChunksKeepReferences
  rintro (⟨index, s, ⟨hs, _⟩, hn⟩ | h)
  · -- every name can be read
    have hmem : s ∈ librarySymbols locals := List.mem_of_getElem? hs
    rcases List.mem_cons.mp hmem with rfl | hmem
    · exact absurd hn (by simp)
    · rcases List.mem_append.mp hmem with hmem | hmem
      · rw [(List.mem_replicate.mp hmem).2] at hn
        exact absurd hn (by simp)
      · rw [List.mem_singleton.mp hmem] at hn
        exact absurd hn (by decide)
  · rcases h (locals + 1) fooReference (bytesOf "foo") (fooReference_isResolved locals) rfl with
      hkey | ⟨k, hsome, _⟩
    · have hfirst : (versionedLibrary locals).versym[0]? = some { index := 0 } := rfl
      have hlast : (versionedLibrary locals).versym[locals + 1]? = some { index := 2 } :=
        libraryVersym_last locals
      simp only [lookupKey, rawSymbolName, verneedVersionName, hchunk, hfirst, hlast] at hkey
      exact absurd hkey (by decide)
    · rw [hget] at hsome
      exact absurd hsome (by simp)

/-- **The version of a reference in the second chunk is lost**: `foo@V1`, symbol 5000 of a shared object, is
    recorded as `foo`. -/
theorem chunked_results_differ :
    ¬SameResults
        (chunkedOutcomes (versionedLibraryDb 4999) ⟨1, 0⟩ (versionedLibrary 4999) maxSymbolsPerWorkItem
          (versionedLibraryDefinitions 4999))
        [resolveSymbols (versionedLibraryDb 4999) ⟨1, 0⟩ (versionedLibrary 4999) 0
          (versionedLibraryDefinitions 4999)] :=
  versionedLibrary_results_differ (by decide) (by decide)

end Reld
