import Mathlib.Data.Prod.Lex
import Reld.Lib.Argmax
import Reld.Resolve.Run

/-!
# `Alternatives.Select` — choosing among several definitions

`select_symbol` goes over the definitions of a name with a `SymbolPrioritySelector`, leaving out dynamic
ones, and falls back to the first definition in a loaded shared object, and then to the first definition.
`selectSymbol_argmax` says what that comes to: the first of the definitions of greatest rank.
-/

namespace Reld

/-! ## Strength of a symbol after resolution -/

/-- The strength of a plugin symbol. -/
def PluginSymbol.strength (s : PluginSymbol) : SymbolStrength :=
  match s.kind with
  | some .«def» => .strong
  | some .weakDef => .weak
  | some .common => .common s.size
  | _ => .undefined

/-- The strength of a symbol of a plugin input, which is ignored once LTO has been performed. -/
def LtoInput.symbolStrength (o : LtoInput) (index : Nat) : SymbolStrength :=
  if o.enabled then
    match o.symbols[index]? with
    | some s => s.strength
    | none => .undefined
  else .undefined

variable (db : SymbolDb) (flags : PerSymbolFlags) (r : Resolver) {l : List SymbolId}

/-- `SymbolDb::symbol_strength`: a symbol of a file that is not loaded is undefined, and so are those of the
    prelude and of linker scripts. -/
def symbolStrength (id : SymbolId) : SymbolStrength :=
  match db.locate id with
  | none => .undefined
  | some ((fileId, f), index) =>
    match r.resolvedFile fileId f, f with
    | .object, f => f.symbolStrength index
    | .dynamic, f => f.symbolStrength index
    | .stubLibrary, f => f.symbolStrength index
    | .ltoInput, .ltoInput o => o.symbolStrength index
    | _, _ => .undefined

/-- `is_in_comdat_group`. -/
def isInComdatGroup (id : SymbolId) : Bool :=
  match db.locate id with
  | none => false
  | some ((fileId, f), index) =>
    match r.resolvedFile fileId f, f with
    | .object, .object o => (o.symbols[index]?).any o.isInGroupSection
    | _, _ => false

/-! ## Selection -/

/-- The first loop of `select_symbol` for one definition. -/
def considerNonDynamic (s : SymbolPrioritySelector) (id : SymbolId) :
    Except LinkError SymbolPrioritySelector :=
  if (flags id).contains .dynamic then .ok s
  else
    match symbolStrength db r id, s.firstStrong with
    | .strong, some existing =>
      if (!isInComdatGroup db r existing || !isInComdatGroup db r id) &&
          !db.args.allowMultipleDefinitions then
        .error .duplicateSymbols
      else .ok (s.consider id .strong)
    | strength, _ => .ok (s.consider id strength)

/-- `select_symbol`. -/
def selectSymbol (firstId : SymbolId) (alternatives : List SymbolId) : Except LinkError SymbolId := do
  let s ← (firstId :: alternatives).foldlM (considerNonDynamic db flags r) .new
  match s.best with
  | some best => return best
  | none =>
    match (firstId :: alternatives).find? (fun alt => symbolStrength db r alt ≠ .undefined) with
    | some alt => return alt
    | none => return firstId

/-! ## Ranks -/

/-- The rank of a strength: strong definitions before common ones, the larger common ones first, and weak
    ones last. -/
def SymbolStrength.rank : SymbolStrength → ℕ ×ₗ ℕ
  | .strong => toLex (4, 0)
  | .common size => toLex (3, size)
  | .weak => toLex (2, 0)
  | .gnuUnique => toLex (2, 0)
  | .undefined => toLex (0, 0)

/-- The rank of a definition: a dynamic one comes after all others that count. -/
def definitionRank (id : SymbolId) : ℕ ×ₗ ℕ :=
  if symbolStrength db r id ≠ .undefined ∧ (flags id).contains .dynamic = true then toLex (1, 0)
  else (symbolStrength db r id).rank

namespace SymbolPrioritySelector

/-- What a selector knows after some candidates: its best one is the first of the greatest, and each slot
    has a candidate of the strength it is for. -/
structure Summarises (strength : SymbolId → SymbolStrength) (l : List SymbolId)
    (s : SymbolPrioritySelector) : Prop where
  best : s.best = l.argmax (fun id => (strength id).rank)
  strong : ∀ c, s.firstStrong = some c → strength c = .strong
  common : ∀ size c, s.maxCommon = some (size, c) → strength c = .common size
  weak : ∀ c, s.firstWeak = some c → (strength c).rank = toLex (2, 0)

theorem summarises_new (strength : SymbolId → SymbolStrength) : Summarises strength [] .new :=
  ⟨rfl, fun c h => absurd h (by simp [new]), fun size c h => absurd h (by simp [new]),
    fun c h => absurd h (by simp [new])⟩

/-- The slot that is filled first has the best candidate. -/
theorem best_eq (firstStrong : Option SymbolId) (maxCommon : Option (Nat × SymbolId))
    (firstWeak : Option SymbolId) :
    SymbolPrioritySelector.best ⟨firstStrong, maxCommon, firstWeak⟩
      = match firstStrong, maxCommon with
        | some c, _ => some c
        | none, some (_, c) => some c
        | none, none => firstWeak := by
  cases firstStrong <;> cases maxCommon <;> rfl

variable {strength : SymbolId → SymbolStrength} {s : SymbolPrioritySelector}

/-- One more candidate: the best one changes exactly if the new one ranks higher. The cases are the strength
    of the candidate and the slots that are filled. -/
theorem best_consider (h : Summarises strength l s) {id : SymbolId} (hid : strength id ≠ .undefined) :
    (s.consider id (strength id)).best
      = match s.best with
        | none => some id
        | some c => if (strength c).rank < (strength id).rank then some id else some c := by
  obtain ⟨_, hstrong, hcommon, hweak⟩ := h
  obtain ⟨firstStrong, maxCommon, firstWeak⟩ := s
  cases firstStrong with
  | some c =>
    have hc : (strength c).rank = toLex (4, 0) := by rw [hstrong c rfl]; rfl
    have hnot : ¬(strength c).rank < (strength id).rank := by
      rw [hc]
      cases strength id <;> simp [SymbolStrength.rank, Prod.Lex.toLex_lt_toLex]
    simp only [best_eq, if_neg hnot]
    cases hs : strength id with
    | common size =>
      cases maxCommon with
      | none => rfl
      | some p =>
        simp only [SymbolPrioritySelector.consider]
        split_ifs <;> rfl
    | undefined => exact absurd hs hid
    | strong => rfl
    | weak => cases firstWeak <;> rfl
    | gnuUnique => cases firstWeak <;> rfl
  | none =>
    cases maxCommon with
    | some p =>
      have hp : (strength p.2).rank = toLex (3, p.1) := by rw [hcommon p.1 p.2 rfl]; rfl
      simp only [best_eq, hp]
      cases hs : strength id with
      | common size =>
        simp only [SymbolPrioritySelector.consider, SymbolStrength.rank, Prod.Lex.toLex_lt_toLex]
        by_cases hsize : size ≤ p.1
        · simp [hsize, best_eq]
        · simp [hsize, best_eq, Nat.lt_of_not_le hsize]
      | undefined => exact absurd hs hid
      | strong => simp [SymbolPrioritySelector.consider, best_eq, SymbolStrength.rank,
          Prod.Lex.toLex_lt_toLex]
      | weak | gnuUnique => cases firstWeak <;> simp [SymbolPrioritySelector.consider, best_eq,
          SymbolStrength.rank, Prod.Lex.toLex_lt_toLex]
    | none =>
      cases firstWeak with
      | none => cases hs : strength id <;> first | rfl | exact absurd hs hid
      | some c =>
        simp only [best_eq, hweak c rfl]
        cases hs : strength id <;>
          first
            | exact absurd hs hid
            | simp [SymbolPrioritySelector.consider, best_eq, SymbolStrength.rank,
                Prod.Lex.toLex_lt_toLex]

theorem Summarises.consider (h : Summarises strength l s) {id : SymbolId} (hid : strength id ≠ .undefined) :
    Summarises strength (l ++ [id]) (s.consider id (strength id)) := by
  refine ⟨?_, ?_, ?_, ?_⟩
  · rw [best_consider h hid, h.best, List.argmax_concat]
    cases l.argmax (fun id => (strength id).rank) <;> rfl
  · intro c hc
    cases hs : strength id <;> rw [hs] at hc <;> simp only [SymbolPrioritySelector.consider] at hc
    case strong =>
      split_ifs at hc
      · rw [← Option.some.inj hc, hs]
      · exact h.strong c hc
    case common =>
      split at hc
      · split_ifs at hc <;> exact h.strong c hc
      · exact h.strong c hc
    all_goals first | exact h.strong c hc | (split_ifs at hc <;> exact h.strong c hc)
  · intro size c hc
    cases hs : strength id <;> rw [hs] at hc <;> simp only [SymbolPrioritySelector.consider] at hc
    case common =>
      split at hc
      · split_ifs at hc
        · exact h.common size c hc
        · obtain ⟨rfl, rfl⟩ := Prod.mk.inj (Option.some.inj hc)
          exact hs
      · obtain ⟨rfl, rfl⟩ := Prod.mk.inj (Option.some.inj hc)
        exact hs
    all_goals first | exact h.common size c hc | (split_ifs at hc <;> exact h.common size c hc)
  · intro c hc
    cases hs : strength id <;> rw [hs] at hc <;> simp only [SymbolPrioritySelector.consider] at hc
    case weak | gnuUnique =>
      split_ifs at hc
      · rw [← Option.some.inj hc, hs]
        rfl
      · exact h.weak c hc
    case common =>
      split at hc
      · split_ifs at hc <;> exact h.weak c hc
      · exact h.weak c hc
    all_goals first | exact h.weak c hc | (split_ifs at hc <;> exact h.weak c hc)

end SymbolPrioritySelector

/-! ## The selected definition -/

variable {db flags r}

/-- Whether the first loop considers a definition: it is not dynamic, and counts. -/
def isCandidate (db : SymbolDb) (flags : PerSymbolFlags) (r : Resolver) (id : SymbolId) : Bool :=
  !(flags id).contains .dynamic && decide (symbolStrength db r id ≠ .undefined)

variable {id : SymbolId}

theorem considerNonDynamic_ok {s s' : SymbolPrioritySelector} (h : considerNonDynamic db flags r s id = .ok s') :
    (isCandidate db flags r id = false ∧ s' = s) ∨
      (isCandidate db flags r id = true ∧ s' = s.consider id (symbolStrength db r id)) := by
  unfold considerNonDynamic at h
  unfold isCandidate
  cases hdyn : (flags id).contains .dynamic with
  | true =>
    rw [if_pos hdyn] at h
    exact Or.inl ⟨rfl, (Except.ok.inj h).symm⟩
  | false =>
    rw [if_neg (by rw [hdyn]; exact Bool.false_ne_true)] at h
    have hconsider : s' = s.consider id (symbolStrength db r id) := by
      split at h
      · rename_i hstrong _
        split_ifs at h
        rw [hstrong, Except.ok.inj h]
      · exact (Except.ok.inj h).symm
    cases hs : symbolStrength db r id with
    | undefined =>
      rw [hs] at hconsider
      exact Or.inl ⟨by simp, hconsider⟩
    | _ =>
      rw [hs] at hconsider
      exact Or.inr ⟨by simp, hconsider⟩

/-- The first loop keeps the selector up to date. -/
theorem foldlM_considerNonDynamic {s : SymbolPrioritySelector}
    (h : l.foldlM (considerNonDynamic db flags r) .new = .ok s) :
    SymbolPrioritySelector.Summarises (symbolStrength db r) (l.filter (isCandidate db flags r)) s := by
  refine Traverse.foldlM_ok_induct (I := fun l s => SymbolPrioritySelector.Summarises (symbolStrength db r)
    (l.filter (isCandidate db flags r)) s) [] (fun done id s s' _ hs hid => ?_) (SymbolPrioritySelector.summarises_new _) h
  rw [List.filter_append]
  rcases considerNonDynamic_ok hid with ⟨hcand, rfl⟩ | ⟨hcand, rfl⟩
  · rwa [List.filter_cons_of_neg (by rw [hcand]; exact Bool.false_ne_true), List.filter_nil, List.append_nil]
  · have hcount : symbolStrength db r id ≠ .undefined := by
      simpa using (Bool.and_eq_true_iff.mp hcand).2
    rw [List.filter_cons_of_pos hcand]
    exact hs.consider hcount

theorem definitionRank_of_candidate (h : isCandidate db flags r id = true) :
    definitionRank db flags r id = (symbolStrength db r id).rank := by
  have hdyn : (flags id).contains .dynamic = false := by
    simpa using (Bool.and_eq_true_iff.mp h).1
  unfold definitionRank
  rw [if_neg (by simp [hdyn])]

theorem definitionRank_of_not_candidate (h : isCandidate db flags r id = false) :
    definitionRank db flags r id
      = if symbolStrength db r id = .undefined then toLex (0, 0) else toLex (1, 0) := by
  unfold isCandidate at h
  unfold definitionRank
  by_cases hs : symbolStrength db r id = .undefined
  · simp [hs, SymbolStrength.rank]
  · have hdyn : (flags id).contains .dynamic = true := by
      by_contra hnot
      simp [hnot, hs] at h
    simp [hs, hdyn]

/-- Candidates rank above all others. -/
theorem definitionRank_lt {a b : SymbolId} (ha : isCandidate db flags r a = true)
    (hb : isCandidate db flags r b = false) :
    definitionRank db flags r b < definitionRank db flags r a := by
  rw [definitionRank_of_candidate ha, definitionRank_of_not_candidate hb]
  have hs : symbolStrength db r a ≠ .undefined := by simpa using (Bool.and_eq_true_iff.mp ha).2
  cases hstrength : symbolStrength db r a with
  | undefined => exact absurd hstrength hs
  | _ => split_ifs <;> simp [SymbolStrength.rank, Prod.Lex.toLex_lt_toLex]

variable {alternatives : List SymbolId} {firstId selected : SymbolId}

/-- **What `select_symbol` selects** is the first of the definitions of greatest rank. -/
theorem selectSymbol_argmax (h : selectSymbol db flags r firstId alternatives = .ok selected) :
    (firstId :: alternatives).argmax (definitionRank db flags r) = some selected := by
  unfold selectSymbol at h
  generalize hl : firstId :: alternatives = l at h ⊢
  obtain ⟨s, hfold, h⟩ := Traverse.bind_eq_ok.mp h
  have hsum := foldlM_considerNonDynamic hfold
  have hbest := hsum.best
  have hcandidates : (l.filter (isCandidate db flags r)).argmax (definitionRank db flags r) = s.best := by
    rw [hbest]
    apply List.argmax_congr
    intro a ha
    exact definitionRank_of_candidate (List.mem_filter.mp ha).2
  cases hb : s.best with
  | some best =>
    -- some definition outside of shared objects counts
    rw [hb] at h hcandidates
    obtain rfl := Except.ok.inj h
    have hne : l.filter (isCandidate db flags r) ≠ [] := by
      intro hnil
      rw [hnil] at hcandidates
      exact absurd hcandidates (by simp)
    rw [List.argmax_filter (p := isCandidate db flags r) (fun a _ b _ => definitionRank_lt) hne]
    exact hcandidates
  | none =>
    rw [hb] at h hcandidates
    have hnone : ∀ a ∈ l, isCandidate db flags r a = false := by
      intro a ha
      have hnil := List.argmax_eq_none.mp hcandidates
      have := List.filter_eq_nil_iff.mp hnil a ha
      simpa using this
    have hrank : ∀ a ∈ l, definitionRank db flags r a
        = if symbolStrength db r a = .undefined then toLex (0, 0) else toLex (1, 0) :=
      fun a ha => definitionRank_of_not_candidate (hnone a ha)
    cases hfind : l.find? (fun alt => symbolStrength db r alt ≠ .undefined) with
    | some alt =>
      -- the first definition in a loaded shared object
      rw [hfind] at h
      obtain rfl := Except.ok.inj h
      rw [List.argmax_filter (p := fun alt => symbolStrength db r alt ≠ .undefined)]
      · rw [List.argmax_const (r := toLex (1, 0)), List.head?_filter, hfind]
        intro a ha
        obtain ⟨ha, hs⟩ := List.mem_filter.mp ha
        rw [hrank a ha, if_neg (by simpa using hs)]
      · intro a ha b hb hpa hpb
        have hpa : symbolStrength db r a ≠ .undefined := by simpa using hpa
        have hpb : symbolStrength db r b = .undefined := by simpa using hpb
        rw [hrank a ha, hrank b hb, if_neg hpa, if_pos hpb, Prod.Lex.toLex_lt_toLex]
        exact Or.inl Nat.zero_lt_one
      · intro hnil
        have hmem := List.mem_of_find?_eq_some hfind
        have hp := List.find?_some hfind
        have := List.filter_eq_nil_iff.mp hnil alt hmem
        exact this hp
    | none =>
      rw [hfind] at h
      obtain rfl := Except.ok.inj h
      rw [List.argmax_const (r := toLex (0, 0)), ← hl]
      · rfl
      · intro a ha
        have hs := List.find?_eq_none.mp hfind a ha
        rw [hrank a ha, if_pos (by simpa using hs)]

/-- The selected definition is one of the definitions. -/
theorem selectSymbol_mem (h : selectSymbol db flags r firstId alternatives = .ok selected) :
    selected ∈ firstId :: alternatives :=
  List.argmax_mem (selectSymbol_argmax h)

end Reld

/-!
# `resolve_alternative_symbol_definitions`

Every list of alternatives that the buckets keep is taken out, one of its symbols is selected, and all of
its symbols get the selected one as their definition. The buckets are processed in parallel, and a symbol
with a default version may be in two lists, so the definitions are written in some order: any order that
keeps the unversioned lists of a bucket before its versioned ones (`ResolvesAlternatives`).
-/

namespace Reld

/-! ## The lists of alternatives -/

/-- An entry of the alternatives of a bucket: the first definition of a name and the others. -/
structure AlternativeEntry where
  bucket : Nat
  isVersioned : Bool
  first : SymbolId
  alternatives : List SymbolId
deriving DecidableEq

/-- All definitions of an entry. -/
def AlternativeEntry.ids (e : AlternativeEntry) : List SymbolId := e.first :: e.alternatives

/-- The entries of one bucket. -/
def SymbolBucket.entries (b : Nat) (bucket : SymbolBucket) : List AlternativeEntry :=
  bucket.names.alternatives.entries.map (fun e => ⟨b, false, e.1, e.2⟩) ++
    bucket.versionedNames.alternatives.entries.map (fun e => ⟨b, true, e.1, e.2⟩)

/-- The entries of all buckets. -/
def SymbolDb.alternativeEntries (db : SymbolDb) : List AlternativeEntry :=
  (List.range db.args.availableThreads).flatMap (fun b => (db.buckets b).entries b)

/-- The buckets without their alternatives. -/
def SymbolDb.takeAlternatives (db : SymbolDb) : SymbolDb :=
  { db with
    buckets := fun b =>
      { names := (db.buckets b).names.takeAlternatives
        versionedNames := (db.buckets b).versionedNames.takeAlternatives } }

/-! ## Visibility -/

/-- The most restrictive visibility of the definitions of an entry. -/
def entryVisibility (db : SymbolDb) (e : AlternativeEntry) : Visibility :=
  e.alternatives.foldl (fun v id => v.max (db.inputSymbolVisibility id)) (db.inputSymbolVisibility e.first)

/-- `handle_non_default_visibility`. Symbols of shared libraries stay as they are. -/
def handleNonDefaultVisibility (visibility : Visibility) (flags : PerSymbolFlags) (id : SymbolId) :
    PerSymbolFlags :=
  match visibility with
  | .hidden =>
    if (flags id).contains .dynamic then flags else setFlags flags id [.nonInterposable, .downgradeToLocal]
  | .«protected» =>
    if (flags id).contains .dynamic then flags else setFlags flags id [.nonInterposable]
  | .default => flags

/-- The flags after an entry has been processed. -/
def entryFlags (db : SymbolDb) (flags : PerSymbolFlags) (e : AlternativeEntry) : PerSymbolFlags :=
  if entryVisibility db e ≠ .default then
    e.ids.foldl (handleNonDefaultVisibility (entryVisibility db e)) flags
  else flags

/-! ## The pass -/

/-- `update_definition`, with the table it comes from. -/
structure DefinitionWrite where
  bucket : Nat
  isVersioned : Bool
  symbolId : SymbolId
  definition : SymbolId
deriving DecidableEq

/-- The writes for an entry: every definition gets the selected one. -/
def entryWrites (e : AlternativeEntry) (selected : SymbolId) : List DefinitionWrite :=
  e.ids.map (fun id => ⟨e.bucket, e.isVersioned, id, selected⟩)

/-- Carry out a write. -/
def writeDefinition (definitions : SymbolId → SymbolId) (w : DefinitionWrite) : SymbolId → SymbolId :=
  Function.update definitions w.symbolId w.definition

/-- `a` may come before `b`: not if both are from one bucket and only `a` is from a versioned list. -/
def DefinitionWrite.MayPrecede (a b : DefinitionWrite) : Prop :=
  a.bucket = b.bucket → a.isVersioned = true → b.isVersioned = true

/-- `resolve_alternative_symbol_definitions` succeeds with the given result, for some order of the writes
    and of the entries. -/
structure ResolvesAlternatives (db : SymbolDb) (flags : PerSymbolFlags) (r : Resolver)
    (result : SymbolDb × PerSymbolFlags) : Prop where
  outcome : ∃ (selected : AlternativeEntry → SymbolId) (order : List DefinitionWrite)
      (entryOrder : List AlternativeEntry),
    (∀ e ∈ db.alternativeEntries, selectSymbol db flags r e.first e.alternatives = .ok (selected e)) ∧
    order.Perm (db.alternativeEntries.flatMap (fun e => entryWrites e (selected e))) ∧
    order.Pairwise DefinitionWrite.MayPrecede ∧
    entryOrder.Perm db.alternativeEntries ∧
    result = ({ db.takeAlternatives with symbolDefinitions := order.foldl writeDefinition db.symbolDefinitions },
      entryOrder.foldl (entryFlags db) flags)

/-! ## Definitions after the pass -/

/-- After some writes, a table holds for an index the old value or one that was written. -/
theorem foldl_writeDefinition (order : List DefinitionWrite) :
    ∀ (definitions : SymbolId → SymbolId) (id : SymbolId),
      (order.foldl writeDefinition definitions id = definitions id ∧ ∀ w ∈ order, w.symbolId ≠ id) ∨
        ∃ w ∈ order, w.symbolId = id ∧ order.foldl writeDefinition definitions id = w.definition := by
  induction order with
  | nil => intro definitions id; exact Or.inl ⟨rfl, fun w hw => absurd hw List.not_mem_nil⟩
  | cons w order ih =>
    intro definitions id
    rw [List.foldl_cons]
    rcases ih (writeDefinition definitions w) id with ⟨hsame, hnone⟩ | ⟨w', hw', hid, hvalue⟩
    · by_cases hw : w.symbolId = id
      · right
        refine ⟨w, List.mem_cons_self, hw, ?_⟩
        rw [hsame, ← hw]
        exact Function.update_self _ _ _
      · left
        refine ⟨?_, ?_⟩
        · rw [hsame]
          exact Function.update_of_ne (fun heq => hw heq.symm) _ _
        · intro v hv
          rcases List.mem_cons.mp hv with rfl | hv
          · exact hw
          · exact hnone v hv
    · exact Or.inr ⟨w', List.mem_cons_of_mem _ hw', hid, hvalue⟩

variable {db : SymbolDb} {flags : PerSymbolFlags} {r : Resolver} {db' : SymbolDb} {flags' : PerSymbolFlags}

/-- **The definitions after the pass**: a symbol of some entry has the selected one of an entry it is in,
    and any other symbol keeps its definition. -/
theorem ResolvesAlternatives.definitions (h : ResolvesAlternatives db flags r (db', flags'))
    (id : SymbolId) :
    (db'.symbolDefinitions id = db.symbolDefinitions id ∧ ∀ e ∈ db.alternativeEntries, id ∉ e.ids) ∨
      ∃ e ∈ db.alternativeEntries, id ∈ e.ids ∧
        selectSymbol db flags r e.first e.alternatives = .ok (db'.symbolDefinitions id) := by
  obtain ⟨selected, order, entryOrder, hselected, hperm, _, _, hresult⟩ := h.outcome
  obtain ⟨rfl, rfl⟩ := Prod.mk.inj hresult
  have hmem : ∀ w, w ∈ order ↔ ∃ e ∈ db.alternativeEntries, ∃ i ∈ e.ids,
      w = ⟨e.bucket, e.isVersioned, i, selected e⟩ := by
    intro w
    rw [hperm.mem_iff, List.mem_flatMap]
    refine exists_congr (fun e => and_congr_right (fun _ => ?_))
    unfold entryWrites
    rw [List.mem_map]
    exact exists_congr (fun i => and_congr_right (fun _ => eq_comm))
  rcases foldl_writeDefinition order db.symbolDefinitions id with ⟨hsame, hnone⟩ | ⟨w, hw, hid, hvalue⟩
  · left
    refine ⟨hsame, ?_⟩
    intro e he hi
    exact hnone _ ((hmem _).mpr ⟨e, he, id, hi, rfl⟩) rfl
  · right
    obtain ⟨e, he, i, hi, rfl⟩ := (hmem w).mp hw
    obtain rfl : i = id := hid
    refine ⟨e, he, hi, ?_⟩
    show selectSymbol db flags r e.first e.alternatives
      = .ok (order.foldl writeDefinition db.symbolDefinitions i)
    rw [hvalue]
    exact hselected e he

/-- The pass changes definitions and alternatives only. -/
theorem ResolvesAlternatives.frame (h : ResolvesAlternatives db flags r (db', flags')) :
    db'.args = db.args ∧ db'.outputKind = db.outputKind ∧ db'.groups = db.groups ∧
      (∀ b, (db'.buckets b).names = (db.buckets b).names.takeAlternatives) ∧
      ∀ b, (db'.buckets b).versionedNames = (db.buckets b).versionedNames.takeAlternatives := by
  obtain ⟨selected, order, entryOrder, _, _, _, _, hresult⟩ := h.outcome
  obtain ⟨rfl, rfl⟩ := Prod.mk.inj hresult
  exact ⟨rfl, rfl, rfl, fun _ => rfl, fun _ => rfl⟩

/-! ## Flags after the pass -/

theorem handleNonDefaultVisibility_contains (v : Visibility) (flags : PerSymbolFlags) (id i : SymbolId)
    (x : Flag) :
    (handleNonDefaultVisibility v flags id i).contains x
      = ((flags i).contains x ||
          (decide (i = id) && !(flags i).contains .dynamic && decide (x ∈ visibilityFlags v))) := by
  cases v with
  | default => simp [handleNonDefaultVisibility, visibilityFlags]
  | hidden | «protected» =>
    unfold handleNonDefaultVisibility
    by_cases hi : i = id
    · subst hi
      cases (flags i).contains .dynamic <;> simp [setFlags_contains, visibilityFlags]
    · split_ifs <;> simp [setFlags_contains, hi]

theorem foldl_handleNonDefaultVisibility (v : Visibility) (ids : List SymbolId) :
    ∀ (flags : PerSymbolFlags) (i : SymbolId) (x : Flag),
      (ids.foldl (handleNonDefaultVisibility v) flags i).contains x
        = ((flags i).contains x ||
            (decide (i ∈ ids) && !(flags i).contains .dynamic && decide (x ∈ visibilityFlags v))) := by
  induction ids with
  | nil => intro flags i x; simp
  | cons id ids ih =>
    intro flags i x
    have hdynamic : (handleNonDefaultVisibility v flags id i).contains .dynamic
        = (flags i).contains .dynamic := by
      rw [handleNonDefaultVisibility_contains]
      cases v <;> simp [visibilityFlags]
    rw [List.foldl_cons, ih, hdynamic, handleNonDefaultVisibility_contains]
    by_cases hi : i = id
    · subst hi
      cases (flags i).contains x <;> cases (flags i).contains .dynamic <;>
        cases decide (x ∈ visibilityFlags v) <;> simp
    · simp [hi]

/-- The flags after one entry. -/
theorem entryFlags_contains (db : SymbolDb) (flags : PerSymbolFlags) (e : AlternativeEntry) (i : SymbolId)
    (x : Flag) :
    (entryFlags db flags e i).contains x
      = ((flags i).contains x ||
          (decide (i ∈ e.ids) && !(flags i).contains .dynamic &&
            decide (x ∈ visibilityFlags (entryVisibility db e)))) := by
  unfold entryFlags
  split_ifs with hv
  · exact foldl_handleNonDefaultVisibility _ _ _ _ _
  · have hdefault : entryVisibility db e = .default := by simpa using hv
    simp [hdefault, visibilityFlags]

theorem foldl_entryFlags (db : SymbolDb) (entries : List AlternativeEntry) :
    ∀ (flags : PerSymbolFlags) (i : SymbolId) (x : Flag),
      (entries.foldl (entryFlags db) flags i).contains x = true ↔
        (flags i).contains x = true ∨
          ((flags i).contains .dynamic = false ∧
            ∃ e ∈ entries, i ∈ e.ids ∧ x ∈ visibilityFlags (entryVisibility db e)) := by
  induction entries with
  | nil => intro flags i x; simp
  | cons e entries ih =>
    intro flags i x
    have hdynamic : (entryFlags db flags e i).contains .dynamic = (flags i).contains .dynamic := by
      rw [entryFlags_contains]
      cases entryVisibility db e <;> simp [visibilityFlags]
    rw [List.foldl_cons, ih, hdynamic, entryFlags_contains]
    simp only [Bool.or_eq_true, Bool.and_eq_true, decide_eq_true_eq, Bool.not_eq_true',
      List.mem_cons, exists_eq_or_imp]
    constructor
    · rintro ((h | ⟨⟨hi, hdyn⟩, hx⟩) | ⟨hdyn, h⟩)
      · exact Or.inl h
      · exact Or.inr ⟨hdyn, Or.inl ⟨hi, hx⟩⟩
      · exact Or.inr ⟨hdyn, Or.inr h⟩
    · rintro (h | ⟨hdyn, ⟨hi, hx⟩ | h⟩)
      · exact Or.inl (Or.inl h)
      · exact Or.inl (Or.inr ⟨⟨hi, hdyn⟩, hx⟩)
      · exact Or.inr ⟨hdyn, h⟩

/-- **The flags after the pass**: a symbol that is not dynamic gets the flags of the visibility of each
    entry it is in. -/
theorem ResolvesAlternatives.flags_iff (h : ResolvesAlternatives db flags r (db', flags')) (i : SymbolId)
    (x : Flag) :
    (flags' i).contains x = true ↔
      (flags i).contains x = true ∨
        ((flags i).contains .dynamic = false ∧
          ∃ e ∈ db.alternativeEntries, i ∈ e.ids ∧ x ∈ visibilityFlags (entryVisibility db e)) := by
  obtain ⟨selected, order, entryOrder, _, _, _, hentries, hresult⟩ := h.outcome
  obtain ⟨rfl, rfl⟩ := Prod.mk.inj hresult
  rw [foldl_entryFlags]
  simp only [hentries.mem_iff]

/-! ## One of the orders -/

/-- The selected definition of an entry. -/
def selectedOf (db : SymbolDb) (flags : PerSymbolFlags) (r : Resolver) (e : AlternativeEntry) : SymbolId :=
  match selectSymbol db flags r e.first e.alternatives with
  | .ok selected => selected
  | .error _ => e.first

/-- Whether an entry has no duplicate definitions. -/
def entrySucceeds (db : SymbolDb) (flags : PerSymbolFlags) (r : Resolver) (e : AlternativeEntry) : Bool :=
  match selectSymbol db flags r e.first e.alternatives with
  | .ok _ => true
  | .error _ => false

/-- The pass bucket after bucket, the unversioned entries of a bucket first. -/
def resolveAlternativesInOrder (db : SymbolDb) (flags : PerSymbolFlags) (r : Resolver) :
    Except LinkError (SymbolDb × PerSymbolFlags) :=
  if db.alternativeEntries.all (entrySucceeds db flags r) then
    .ok ({ db.takeAlternatives with
        symbolDefinitions := (db.alternativeEntries.flatMap (fun e =>
          entryWrites e (selectedOf db flags r e))).foldl writeDefinition db.symbolDefinitions },
      db.alternativeEntries.foldl (entryFlags db) flags)
  else .error .duplicateSymbols

theorem mem_entries_bucket {b : Nat} {bucket : SymbolBucket} {e : AlternativeEntry}
    (h : e ∈ bucket.entries b) : e.bucket = b := by
  rcases List.mem_append.mp h with h | h
  · obtain ⟨x, _, rfl⟩ := List.mem_map.mp h
    rfl
  · obtain ⟨x, _, rfl⟩ := List.mem_map.mp h
    rfl

/-- Bucket after bucket is one of the orders. -/
theorem mayPrecede_entryWrites (db : SymbolDb) (selected : AlternativeEntry → SymbolId) :
    (db.alternativeEntries.flatMap (fun e => entryWrites e (selected e))).Pairwise
      DefinitionWrite.MayPrecede := by
  have hwrite : ∀ e w, w ∈ entryWrites e (selected e) → w.bucket = e.bucket ∧ w.isVersioned = e.isVersioned := by
    intro e w hw
    obtain ⟨i, _, rfl⟩ := List.mem_map.mp hw
    exact ⟨rfl, rfl⟩
  have hentries : db.alternativeEntries.Pairwise
      (fun a b => a.bucket = b.bucket → a.isVersioned = true → b.isVersioned = true) := by
    unfold SymbolDb.alternativeEntries
    rw [List.pairwise_flatMap]
    refine ⟨?_, ?_⟩
    · intro b _
      unfold SymbolBucket.entries
      rw [List.pairwise_append]
      refine ⟨?_, ?_, ?_⟩
      · rw [List.pairwise_map]
        exact List.pairwise_of_forall (fun x y _ h => absurd h (by simp))
      · rw [List.pairwise_map]
        exact List.pairwise_of_forall (fun x y _ _ => rfl)
      · intro a ha c hc _ hversioned
        obtain ⟨x, _, rfl⟩ := List.mem_map.mp ha
        exact absurd hversioned (by simp)
    · refine List.nodup_range.imp ?_
      intro b b' hne a ha c hc heq
      rw [mem_entries_bucket ha, mem_entries_bucket hc] at heq
      exact absurd heq hne
  rw [List.pairwise_flatMap]
  refine ⟨?_, ?_⟩
  · intro e _
    unfold entryWrites
    rw [List.pairwise_map]
    exact List.pairwise_of_forall (fun x y _ h => h)
  · refine hentries.imp ?_
    intro a b hab x hx y hy hbucket hversioned
    obtain ⟨hxb, hxv⟩ := hwrite a x hx
    obtain ⟨hyb, hyv⟩ := hwrite b y hy
    rw [hyv]
    exact hab (hxb ▸ hyb ▸ hbucket) (hxv ▸ hversioned)

theorem resolveAlternativesInOrder_resolves {db : SymbolDb} {flags : PerSymbolFlags} {r : Resolver}
    {result : SymbolDb × PerSymbolFlags} (h : resolveAlternativesInOrder db flags r = .ok result) :
    ResolvesAlternatives db flags r result := by
  unfold resolveAlternativesInOrder at h
  split_ifs at h with hall
  obtain rfl := Except.ok.inj h
  refine ⟨selectedOf db flags r, _, _, ?_, .refl _, mayPrecede_entryWrites db _, .refl _, rfl⟩
  intro e he
  have hok := List.all_eq_true.mp hall e he
  unfold entrySucceeds at hok
  unfold selectedOf
  cases hs : selectSymbol db flags r e.first e.alternatives with
  | ok selected => rfl
  | error e => rw [hs] at hok; exact absurd hok (by simp)

end Reld
