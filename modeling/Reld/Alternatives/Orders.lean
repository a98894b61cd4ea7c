import Reld.Db.Batches
import Reld.Lib.Tasks

/-!
# `Alternatives.Orders` — the orders of `resolve_alternative_symbol_definitions`

The buckets are processed in parallel, each with its unversioned alternatives before its versioned ones, and a map
hands out its entries in any order. A symbol with a default version may be in a list under each of its two names,
and both lists write its definition: the last write counts. `orderIndependent_iff` says when no order makes a
difference.
-/

namespace Reld

/-! ## Duplicates -/

section Duplicates

variable (db : SymbolDb) (flags : PerSymbolFlags) (r : Resolver)

/-- A strong definition outside of shared objects. -/
def isStrongDefinition (id : SymbolId) : Bool :=
  !(flags id).contains .dynamic && decide (symbolStrength db r id = .strong)

def strongDefinitions (ids : List SymbolId) : List SymbolId := ids.filter (isStrongDefinition db flags r)

/-- Two strong definitions are too many: one is not in a COMDAT group, and duplicates are not allowed. -/
def ClashesWith (first id : SymbolId) : Prop :=
  db.args.allowMultipleDefinitions = false ∧
    ¬(isInComdatGroup db r first = true ∧ isInComdatGroup db r id = true)

/-- Some strong definition clashes with the first one. -/
def HasDuplicates (ids : List SymbolId) : Prop :=
  match strongDefinitions db flags r ids with
  | [] => False
  | first :: rest => ∃ id ∈ rest, ClashesWith db r first id

variable {db flags r}

theorem SymbolPrioritySelector.firstStrong_consider (s : SymbolPrioritySelector) (id : SymbolId)
    {strength : SymbolStrength} (h : strength ≠ .strong) :
    (s.consider id strength).firstStrong = s.firstStrong := by
  cases strength with
  | strong => exact absurd rfl h
  | undefined => rfl
  | weak | gnuUnique => unfold SymbolPrioritySelector.consider; split_ifs <;> rfl
  | common size =>
    unfold SymbolPrioritySelector.consider
    cases s.maxCommon with
    | none => rfl
    | some p => dsimp only; split_ifs <;> rfl

variable {s : SymbolPrioritySelector} {id : SymbolId}

/-- Definitions that are not strong leave the slot for strong ones alone. -/
theorem considerNonDynamic_other (h : isStrongDefinition db flags r id = false) :
    ∃ s', considerNonDynamic db flags r s id = .ok s' ∧ s'.firstStrong = s.firstStrong := by
  unfold isStrongDefinition at h
  unfold considerNonDynamic
  cases hdyn : (flags id).contains .dynamic with
  | true => exact ⟨s, rfl, rfl⟩
  | false =>
    have hstrong : symbolStrength db r id ≠ .strong := by simpa [hdyn] using h
    refine ⟨s.consider id (symbolStrength db r id), ?_, s.firstStrong_consider id hstrong⟩
    rw [if_neg Bool.false_ne_true]
    split
    · rename_i heq _
      exact absurd heq hstrong
    · rfl

/-- The first strong definition takes the slot. -/
theorem considerNonDynamic_first (h : isStrongDefinition db flags r id = true) (hs : s.firstStrong = none) :
    ∃ s', considerNonDynamic db flags r s id = .ok s' ∧ s'.firstStrong = some id := by
  obtain ⟨hdyn, hstrong⟩ : (flags id).contains .dynamic = false ∧ symbolStrength db r id = .strong := by
    simpa [isStrongDefinition] using h
  refine ⟨s.consider id .strong, ?_, by simp [SymbolPrioritySelector.consider, hs]⟩
  simp [considerNonDynamic, hdyn, hstrong, hs]

/-- Another strong definition is fine in a COMDAT group together with the first one, or if duplicates are. -/
theorem considerNonDynamic_later {first : SymbolId} (h : isStrongDefinition db flags r id = true)
    (hs : s.firstStrong = some first) :
    (ClashesWith db r first id ∧ considerNonDynamic db flags r s id = .error .duplicateSymbols) ∨
      (¬ClashesWith db r first id ∧
        ∃ s', considerNonDynamic db flags r s id = .ok s' ∧ s'.firstStrong = some first) := by
  obtain ⟨hdyn, hstrong⟩ : (flags id).contains .dynamic = false ∧ symbolStrength db r id = .strong := by
    simpa [isStrongDefinition] using h
  have hkept : (s.consider id .strong).firstStrong = some first := by
    simp [SymbolPrioritySelector.consider, hs]
  have hcond : ((!isInComdatGroup db r first || !isInComdatGroup db r id) &&
      !db.args.allowMultipleDefinitions) = true ↔ ClashesWith db r first id := by
    unfold ClashesWith
    cases isInComdatGroup db r first <;> cases isInComdatGroup db r id <;> simp
  simp only [considerNonDynamic, hdyn, hstrong, hs, Bool.false_eq_true, if_false]
  by_cases hclash : ClashesWith db r first id
  · exact Or.inl ⟨hclash, if_pos (hcond.mpr hclash)⟩
  · exact Or.inr ⟨hclash, _, if_neg (fun h => hclash (hcond.mp h)), hkept⟩

/-- After a strong definition, no other one may clash with it. -/
theorem foldlM_considerNonDynamic_later {first : SymbolId} {ids : List SymbolId} :
    ∀ {s : SymbolPrioritySelector}, s.firstStrong = some first →
      ((∃ s', ids.foldlM (considerNonDynamic db flags r) s = .ok s') ↔
        ∀ id ∈ strongDefinitions db flags r ids, ¬ClashesWith db r first id) := by
  induction ids with
  | nil => intro s _; exact ⟨fun _ id hid => absurd hid List.not_mem_nil, fun _ => ⟨s, rfl⟩⟩
  | cons id ids ih =>
    intro s hs
    rw [List.foldlM_cons]
    unfold strongDefinitions
    cases hstrong : isStrongDefinition db flags r id with
    | false =>
      obtain ⟨s₁, hok, hs₁⟩ := considerNonDynamic_other (s := s) hstrong
      rw [hok, List.filter_cons_of_neg (by simp [hstrong])]
      exact ih (hs₁.trans hs)
    | true =>
      rw [List.filter_cons_of_pos hstrong, List.forall_mem_cons]
      rcases considerNonDynamic_later hstrong hs with ⟨hclash, herr⟩ | ⟨hclash, s₁, hok, hs₁⟩
      · rw [herr]
        exact ⟨fun ⟨s', h⟩ => absurd h (by simp [bind, Except.bind]), fun h => absurd hclash h.1⟩
      · rw [hok, and_iff_right hclash]
        exact ih hs₁

theorem foldlM_considerNonDynamic_ok_iff {ids : List SymbolId} :
    ∀ {s : SymbolPrioritySelector}, s.firstStrong = none →
      ((∃ s', ids.foldlM (considerNonDynamic db flags r) s = .ok s') ↔ ¬HasDuplicates db flags r ids) := by
  induction ids with
  | nil => intro s _; exact ⟨fun _ h => h, fun _ => ⟨s, rfl⟩⟩
  | cons id ids ih =>
    intro s hs
    rw [List.foldlM_cons]
    unfold HasDuplicates strongDefinitions
    cases hstrong : isStrongDefinition db flags r id with
    | false =>
      obtain ⟨s₁, hok, hs₁⟩ := considerNonDynamic_other (s := s) hstrong
      rw [hok, List.filter_cons_of_neg (by simp [hstrong])]
      exact ih (hs₁.trans hs)
    | true =>
      obtain ⟨s₁, hok, hs₁⟩ := considerNonDynamic_first (s := s) hstrong hs
      rw [hok, List.filter_cons_of_pos hstrong]
      refine (foldlM_considerNonDynamic_later hs₁).trans ?_
      simp [strongDefinitions]

/-- **When `select_symbol` selects a definition**: there are no duplicates, and it is the first of greatest rank. -/
theorem selectSymbol_eq_ok {firstId selected : SymbolId} {alternatives : List SymbolId} :
    selectSymbol db flags r firstId alternatives = .ok selected ↔
      ¬HasDuplicates db flags r (firstId :: alternatives) ∧
        (firstId :: alternatives).argmax (definitionRank db flags r) = some selected := by
  have hsucceeds : (∃ selected, selectSymbol db flags r firstId alternatives = .ok selected) ↔
      ∃ s', (firstId :: alternatives).foldlM (considerNonDynamic db flags r) .new = .ok s' := by
    unfold selectSymbol
    cases (firstId :: alternatives).foldlM (considerNonDynamic db flags r) .new with
    | error e => simp [bind, Except.bind]
    | ok s =>
      refine ⟨fun _ => ⟨s, rfl⟩, fun _ => ?_⟩
      cases hbest : s.best with
      | some best => exact ⟨best, by simp [bind, Except.bind, hbest]; rfl⟩
      | none =>
        cases hfind : (firstId :: alternatives).find? (fun alt => symbolStrength db r alt ≠ .undefined) with
        | some alt => exact ⟨alt, by simp only [bind, Except.bind, hbest]; rfl⟩
        | none => exact ⟨firstId, by simp only [bind, Except.bind, hbest]; rfl⟩
  constructor
  · intro h
    exact ⟨(foldlM_considerNonDynamic_ok_iff rfl).mp (hsucceeds.mp ⟨_, h⟩), selectSymbol_argmax h⟩
  · rintro ⟨hduplicates, hbest⟩
    obtain ⟨selected', h⟩ := hsucceeds.mpr ((foldlM_considerNonDynamic_ok_iff rfl).mpr hduplicates)
    have hsame := (selectSymbol_argmax h).symm.trans hbest
    rw [h, Option.some.inj hsame]

end Duplicates

/-! ## Actions -/

/-- What the tasks share. -/
structure AlternativesState where
  definitions : SymbolId → SymbolId
  flags : PerSymbolFlags

/-- A single access to what the tasks share. -/
inductive AlternativesEffect where
  | updateDefinition (id selected : SymbolId)
  | handleVisibility (visibility : Visibility) (id : SymbolId)

def AlternativesEffect.apply (s : AlternativesState) : AlternativesEffect → AlternativesState
  | .updateDefinition id selected => { s with definitions := Function.update s.definitions id selected }
  | .handleVisibility v id => { s with flags := handleNonDefaultVisibility v s.flags id }

/-- The loop over the alternatives goes on with an entry, or with an access of the one it is at. -/
inductive AlternativesAction where
  | entry (e : AlternativeEntry)
  | effect (x : AlternativesEffect)

/-- The accesses for an entry with the given selection. -/
def entryEffects (db : SymbolDb) (e : AlternativeEntry) (selected : SymbolId) : List AlternativesEffect :=
  e.ids.map (AlternativesEffect.updateDefinition · selected) ++
    if entryVisibility db e ≠ .default then
      e.ids.map (AlternativesEffect.handleVisibility (entryVisibility db e))
    else []

/-- A turn of `process_alternatives`. An entry with duplicates is left as it is, and the error is queued. -/
def processAlternatives (db : SymbolDb) (r : Resolver) (a : AlternativesAction) (s : AlternativesState) :
    AlternativesState × List AlternativesAction :=
  match a with
  | .entry e =>
    match selectSymbol db s.flags r e.first e.alternatives with
    | .ok selected => (s, (entryEffects db e selected).map .effect)
    | .error _ => (s, [])
  | .effect x => (x.apply s, [])

/-- What the buckets have to do: all their unversioned alternatives in some order, then their versioned ones. -/
structure StartsAlternatives (db : SymbolDb) (todo : Nat → List AlternativesAction) : Prop where
  bucket : ∀ b < db.args.availableThreads, ∃ unversioned versioned : List AlternativeEntry,
    unversioned.Perm (((db.buckets b).entries b).filter (fun e => !e.isVersioned)) ∧
    versioned.Perm (((db.buckets b).entries b).filter (fun e => e.isVersioned)) ∧
    todo b = (unversioned ++ versioned).map .entry
  others : ∀ b, db.args.availableThreads ≤ b → todo b = []

/-- A run of `resolve_alternative_symbol_definitions` that leaves the definitions. -/
def LeavesDefinitions (db : SymbolDb) (flags : PerSymbolFlags) (r : Resolver)
    (definitions : SymbolId → SymbolId) : Prop :=
  ∃ todo c, StartsAlternatives db todo ∧
    Threads.Reachable (processAlternatives db r) ⟨⟨db.symbolDefinitions, flags⟩, todo⟩ c ∧
    c.Finished ∧ c.shared.definitions = definitions

/-- Every order leaves the same definitions. -/
def OrderIndependent (db : SymbolDb) (flags : PerSymbolFlags) (r : Resolver) : Prop :=
  ∀ definitions definitions', LeavesDefinitions db flags r definitions →
    LeavesDefinitions db flags r definitions' → definitions = definitions'

/-! ## Effects of a bucket -/

variable {db : SymbolDb} {flags : PerSymbolFlags} {r : Resolver}

/-- What a run keeps: no symbol becomes dynamic or stops being it. -/
def SameDynamic (flags : PerSymbolFlags) (s : AlternativesState) : Prop :=
  ∀ id, (s.flags id).contains .dynamic = (flags id).contains .dynamic

variable {s : AlternativesState}

/-- `select_symbol` looks at no other flag. -/
theorem selectSymbol_congr (h : SameDynamic flags s) (firstId : SymbolId) (alternatives : List SymbolId) :
    selectSymbol db s.flags r firstId alternatives = selectSymbol db flags r firstId alternatives := by
  have hconsider : considerNonDynamic db s.flags r = considerNonDynamic db flags r := by
    funext selector id
    unfold considerNonDynamic
    rw [h id]
  unfold selectSymbol
  rw [hconsider]

theorem SameDynamic.apply (h : SameDynamic flags s) (x : AlternativesEffect) :
    SameDynamic flags (x.apply s) := by
  intro i
  cases x with
  | updateDefinition id selected => exact h i
  | handleVisibility v id =>
    show (handleNonDefaultVisibility v s.flags id i).contains .dynamic = _
    rw [handleNonDefaultVisibility_contains, h i]
    cases v <;> simp [visibilityFlags]

/-- The accesses that an action comes to. -/
def expandAction (db : SymbolDb) (flags : PerSymbolFlags) (r : Resolver) :
    AlternativesAction → List AlternativesEffect
  | .entry e =>
    match selectSymbol db flags r e.first e.alternatives with
    | .ok selected => entryEffects db e selected
    | .error _ => []
  | .effect x => [x]

theorem flatMap_expandAction_effect (effects : List AlternativesEffect) :
    (effects.map AlternativesAction.effect).flatMap (expandAction db flags r) = effects := by
  induction effects with
  | nil => rfl
  | cons x effects ih => rw [List.map_cons, List.flatMap_cons, ih]; rfl

theorem expands_processAlternatives (db : SymbolDb) (flags : PerSymbolFlags) (r : Resolver) :
    Threads.Expands (processAlternatives db r) (SameDynamic flags) AlternativesEffect.apply
      (expandAction db flags r) where
  keeps s x h := h.apply x
  act a s h := by
    cases a with
    | effect x => exact ⟨[x], rfl, rfl⟩
    | entry e =>
      refine ⟨[], ?_, ?_⟩
      · unfold processAlternatives
        dsimp only
        split <;> rfl
      · unfold processAlternatives
        simp only [expandAction, selectSymbol_congr h]
        cases selectSymbol db flags r e.first e.alternatives with
        | ok selected => exact (flatMap_expandAction_effect _).symm
        | error _ => rfl

/-- How many turns an action takes. -/
def AlternativesAction.turns : AlternativesAction → Nat
  | .entry e => 2 * e.ids.length + 1
  | .effect _ => 1

theorem turns_processAlternatives (a : AlternativesAction) (s : AlternativesState) :
    ((processAlternatives db r a s).2.map AlternativesAction.turns).sum < a.turns := by
  cases a with
  | effect x => exact Nat.one_pos
  | entry e =>
    have hone : ∀ effects : List AlternativesEffect,
        ((effects.map AlternativesAction.effect).map AlternativesAction.turns).sum = effects.length := by
      intro effects
      induction effects with
      | nil => rfl
      | cons x effects ih =>
        rw [List.map_cons, List.map_cons, List.sum_cons, ih, List.length_cons, Nat.add_comm]
        rfl
    unfold processAlternatives
    dsimp only
    split
    · rw [hone]
      unfold entryEffects AlternativesAction.turns
      split_ifs <;> simp <;> omega
    · exact Nat.succ_pos _

/-! ## Last writes -/

/-- The definition that an access writes for a symbol. -/
def AlternativesEffect.writesTo (id : SymbolId) : AlternativesEffect → Option SymbolId
  | .updateDefinition i selected => if i = id then some selected else none
  | .handleVisibility _ _ => none

/-- The last write of a definition counts. -/
theorem definitions_foldl_apply (effects : List AlternativesEffect) (s : AlternativesState) (id : SymbolId) :
    (effects.foldl AlternativesEffect.apply s).definitions id
      = ((effects.filterMap (AlternativesEffect.writesTo id)).getLast?).getD (s.definitions id) := by
  induction effects using List.reverseRecOn with
  | nil => rfl
  | append_singleton effects x ih =>
    cases x with
    | handleVisibility v i => simpa [AlternativesEffect.apply, AlternativesEffect.writesTo] using ih
    | updateDefinition i selected =>
      by_cases hi : i = id
      · subst hi
        simp [AlternativesEffect.apply, AlternativesEffect.writesTo]
      · simpa [AlternativesEffect.apply, AlternativesEffect.writesTo, hi, Function.update_of_ne (Ne.symm hi)]
          using ih

/-- An entry writes its selection, if it has one, to each of its definitions. -/
def EntrySelects (db : SymbolDb) (flags : PerSymbolFlags) (r : Resolver) (e : AlternativeEntry)
    (selected : SymbolId) : Prop :=
  ¬HasDuplicates db flags r e.ids ∧ e.ids.argmax (definitionRank db flags r) = some selected

variable {e : AlternativeEntry} {selected : SymbolId}

theorem expandAction_ok (h : selectSymbol db flags r e.first e.alternatives = .ok selected) :
    expandAction db flags r (.entry e) = entryEffects db e selected := by
  simp only [expandAction, h]

theorem expandAction_error {err : LinkError} (h : selectSymbol db flags r e.first e.alternatives = .error err) :
    expandAction db flags r (.entry e) = [] := by
  simp only [expandAction, h]

theorem EntrySelects.unique {selected' : SymbolId} (h : EntrySelects db flags r e selected)
    (h' : EntrySelects db flags r e selected') :
    selected = selected' :=
  Option.some.inj (h.2.symm.trans h'.2)

theorem exists_entrySelects (h : ¬HasDuplicates db flags r e.ids) :
    ∃ selected, EntrySelects db flags r e selected := by
  cases hbest : e.ids.argmax (definitionRank db flags r) with
  | none => exact absurd (List.argmax_eq_none.mp hbest) (List.cons_ne_nil _ _)
  | some selected => exact ⟨selected, h, hbest⟩

variable {id : SymbolId}

theorem mem_writes_entry :
    selected ∈ (expandAction db flags r (.entry e)).filterMap (AlternativesEffect.writesTo id) ↔
      id ∈ e.ids ∧ EntrySelects db flags r e selected := by
  have hselects : EntrySelects db flags r e selected ↔
      selectSymbol db flags r e.first e.alternatives = .ok selected := selectSymbol_eq_ok.symm
  rw [hselects, List.mem_filterMap]
  cases hselect : selectSymbol db flags r e.first e.alternatives with
  | error err => simp [expandAction_error hselect]
  | ok selected' =>
    rw [expandAction_ok hselect]
    constructor
    · rintro ⟨x, hx, hwrites⟩
      rcases List.mem_append.mp hx with hx | hx
      · obtain ⟨i, hi, rfl⟩ := List.mem_map.mp hx
        simp only [AlternativesEffect.writesTo] at hwrites
        split_ifs at hwrites with heq
        obtain rfl := heq
        exact ⟨hi, by rw [Option.some.inj hwrites]⟩
      · -- visibility is not a definition
        split_ifs at hx
        · obtain ⟨i, _, rfl⟩ := List.mem_map.mp hx
          exact absurd hwrites (by simp [AlternativesEffect.writesTo])
        · exact absurd hx List.not_mem_nil
    · rintro ⟨hid, hsame⟩
      obtain rfl := Except.ok.inj hsame
      refine ⟨.updateDefinition id selected', List.mem_append_left _ ?_, by simp [AlternativesEffect.writesTo]⟩
      exact List.mem_map_of_mem hid

/-- The definitions that entries write for a symbol, one after another. -/
def writesOf (db : SymbolDb) (flags : PerSymbolFlags) (r : Resolver) (id : SymbolId)
    (entries : List AlternativeEntry) : List SymbolId :=
  ((entries.map AlternativesAction.entry).flatMap (expandAction db flags r)).filterMap
    (AlternativesEffect.writesTo id)

theorem writesOf_append (id : SymbolId) (entries entries' : List AlternativeEntry) :
    writesOf db flags r id (entries ++ entries')
      = writesOf db flags r id entries ++ writesOf db flags r id entries' := by
  simp [writesOf]

theorem mem_writesOf {entries : List AlternativeEntry} :
    selected ∈ writesOf db flags r id entries ↔
      ∃ e ∈ entries, id ∈ e.ids ∧ EntrySelects db flags r e selected := by
  unfold writesOf
  rw [List.filterMap_flatMap, List.mem_flatMap]
  constructor
  · rintro ⟨a, ha, hmem⟩
    obtain ⟨e, he, rfl⟩ := List.mem_map.mp ha
    exact ⟨e, he, mem_writes_entry.mp hmem⟩
  · rintro ⟨e, he, hmem⟩
    exact ⟨.entry e, List.mem_map_of_mem he, mem_writes_entry.mpr hmem⟩

theorem mem_alternativeEntries_bucket :
    e ∈ db.alternativeEntries ↔
      e.bucket < db.args.availableThreads ∧ e ∈ (db.buckets e.bucket).entries e.bucket := by
  unfold SymbolDb.alternativeEntries
  rw [List.mem_flatMap]
  constructor
  · rintro ⟨b, hb, he⟩
    obtain rfl := mem_entries_bucket he
    exact ⟨List.mem_range.mp hb, he⟩
  · rintro ⟨hb, he⟩
    exact ⟨e.bucket, List.mem_range.mpr hb, he⟩

/-- An entry may be the last to write a definition: it selects, and no entry that its bucket processes later on
does so for the symbol. -/
structure MayWriteLast (db : SymbolDb) (flags : PerSymbolFlags) (r : Resolver) (id : SymbolId)
    (e : AlternativeEntry) (selected : SymbolId) : Prop where
  entry : e ∈ db.alternativeEntries
  mem : id ∈ e.ids
  selects : EntrySelects db flags r e selected
  last : e.isVersioned = false → ∀ later ∈ db.alternativeEntries, later.bucket = e.bucket →
    later.isVersioned = true → id ∈ later.ids → HasDuplicates db flags r later.ids

/-- **What a run leaves** for a symbol: its definition as it was, if no entry selects for it, or what an entry
selects that may be the last. -/
theorem LeavesDefinitions.definition {definitions : SymbolId → SymbolId}
    (h : LeavesDefinitions db flags r definitions) (id : SymbolId) :
    (definitions id = db.symbolDefinitions id ∧
      ∀ e ∈ db.alternativeEntries, id ∈ e.ids → HasDuplicates db flags r e.ids) ∨
      ∃ e, MayWriteLast db flags r id e (definitions id) := by
  obtain ⟨todo, c, hstarts, hreach, hfinished, rfl⟩ := h
  obtain ⟨trace, hshared, htodo⟩ := hreach.trace (expands_processAlternatives db flags r) (fun _ => rfl)
  rw [hshared, definitions_foldl_apply]
  have hthread : ∀ t, (todo t).flatMap (expandAction db flags r) = Threads.effectsOf t trace := by
    intro t
    rw [htodo t, hfinished t, List.flatMap_nil, List.append_nil]
  cases hlast : ((trace.map Prod.snd).filterMap (AlternativesEffect.writesTo id)).getLast? with
  | none =>
    refine Or.inl ⟨rfl, ?_⟩
    intro e he hid
    by_contra hduplicates
    -- the selection of the entry would have been written
    obtain ⟨hb, hentry⟩ := mem_alternativeEntries_bucket.mp he
    obtain ⟨unversioned, versioned, hunversioned, hversioned, heq⟩ := hstarts.bucket _ hb
    obtain ⟨selected, hselects⟩ := exists_entrySelects hduplicates
    have hmem : e ∈ unversioned ++ versioned := by
      rw [List.mem_append, hunversioned.mem_iff, hversioned.mem_iff, List.mem_filter, List.mem_filter]
      cases hv : e.isVersioned with
      | false => exact Or.inl ⟨hentry, rfl⟩
      | true => exact Or.inr ⟨hentry, rfl⟩
    have hwrites : selected ∈ writesOf db flags r id (unversioned ++ versioned) :=
      mem_writesOf.mpr ⟨e, hmem, hid, hselects⟩
    unfold writesOf at hwrites
    rw [← heq, hthread, List.mem_filterMap] at hwrites
    obtain ⟨x, hx, hwrites⟩ := hwrites
    have hnone := List.filterMap_eq_nil_iff.mp (List.getLast?_eq_none_iff.mp hlast) x
      (List.mem_map_of_mem (Threads.mem_effectsOf.mp hx))
    rw [hnone] at hwrites
    exact absurd hwrites (by simp)
  | some selected =>
    right
    obtain ⟨t, ht⟩ := Threads.exists_getLast_effectsOf hlast
    rw [← hthread] at ht
    have hb : t < db.args.availableThreads := by
      by_contra hb
      rw [hstarts.others t (Nat.le_of_not_lt hb)] at ht
      exact absurd ht (by simp)
    obtain ⟨unversioned, versioned, hunversioned, hversioned, heq⟩ := hstarts.bucket t hb
    rw [heq] at ht
    have hlast : (writesOf db flags r id (unversioned ++ versioned)).getLast? = some selected := ht
    rw [writesOf_append, List.getLast?_append] at hlast
    have hbucket : ∀ e, e ∈ (db.buckets t).entries t → e.bucket = t ∧ e ∈ db.alternativeEntries := by
      intro e he
      obtain rfl := mem_entries_bucket he
      exact ⟨rfl, mem_alternativeEntries_bucket.mpr ⟨hb, he⟩⟩
    -- the last write is from a versioned entry, or no versioned entry of the bucket writes
    rcases Option.or_eq_some_iff.mp hlast with hlast | ⟨hnone, hlast⟩
    · obtain ⟨e, he, hid, hselects⟩ := mem_writesOf.mp (List.mem_of_getLast? hlast)
      obtain ⟨he, hv⟩ := List.mem_filter.mp (hversioned.mem_iff.mp he)
      refine ⟨e, (hbucket e he).2, hid, hselects, ?_⟩
      intro hunversioned
      rw [hunversioned] at hv
      exact absurd hv Bool.false_ne_true
    · obtain ⟨e, he, hid, hselects⟩ := mem_writesOf.mp (List.mem_of_getLast? hlast)
      obtain ⟨he, hv⟩ := List.mem_filter.mp (hunversioned.mem_iff.mp he)
      refine ⟨e, (hbucket e he).2, hid, hselects, ?_⟩
      intro _ later hlater hsame hv' hid'
      by_contra hduplicates
      obtain ⟨selected', hselects'⟩ := exists_entrySelects hduplicates
      obtain ⟨_, hlater⟩ := mem_alternativeEntries_bucket.mp hlater
      rw [hsame, (hbucket e he).1] at hlater
      have hwrites : selected' ∈ writesOf db flags r id versioned :=
        mem_writesOf.mpr ⟨later, hversioned.mem_iff.mpr (List.mem_filter.mpr ⟨hlater, hv'⟩), hid', hselects'⟩
      rw [List.getLast?_eq_none_iff.mp hnone] at hwrites
      exact absurd hwrites List.not_mem_nil

/-! ## Every last write -/

/-- A list with an element at its end. -/
def moveLast {α : Type} [DecidableEq α] (a : α) (l : List α) : List α := if a ∈ l then l.erase a ++ [a] else l

theorem moveLast_perm {α : Type} [DecidableEq α] (a : α) (l : List α) : (moveLast a l).Perm l := by
  unfold moveLast
  split_ifs with h
  · exact (List.perm_append_singleton a (l.erase a)).trans (List.perm_cons_erase h).symm
  · exact .refl l

theorem moveLast_mem {α : Type} [DecidableEq α] {a : α} {l : List α} (h : a ∈ l) :
    moveLast a l = l.erase a ++ [a] := if_pos h

theorem getLast?_append_of_forall_eq {α : Type} {l l' : List α} {a : α} (hmem : a ∈ l')
    (hall : ∀ x ∈ l', x = a) : (l ++ l').getLast? = some a := by
  rw [List.getLast?_append_of_ne_nil _ (List.ne_nil_of_mem hmem),
    List.getLast?_eq_getLast_of_ne_nil (List.ne_nil_of_mem hmem), hall _ (List.getLast_mem _)]

/-- **Each entry that may be the last to write is the last one in some run**: its bucket comes last, and the entry
comes last among those of its kind. -/
theorem MayWriteLast.leavesDefinitions (h : MayWriteLast db flags r id e selected) :
    ∃ definitions, LeavesDefinitions db flags r definitions ∧ definitions id = selected := by
  obtain ⟨hentry, hid, hselects, hlast⟩ := h
  obtain ⟨hb, hentry⟩ := mem_alternativeEntries_bucket.mp hentry
  let unversioned := fun b => moveLast e (((db.buckets b).entries b).filter (fun e => !e.isVersioned))
  let versioned := fun b => moveLast e (((db.buckets b).entries b).filter (fun e => e.isVersioned))
  let todo : Nat → List AlternativesAction := fun b =>
    if b < db.args.availableThreads then (unversioned b ++ versioned b).map .entry else []
  have hstarts : StartsAlternatives db todo := by
    refine ⟨?_, ?_⟩
    · intro b hb
      exact ⟨unversioned b, versioned b, moveLast_perm _ _, moveLast_perm _ _, if_pos hb⟩
    · intro b hb
      exact if_neg (Nat.not_lt.mpr hb)
  let order := moveLast e.bucket (List.range db.args.availableThreads)
  have horder : order.Perm (List.range db.args.availableThreads) := moveLast_perm _ _
  obtain ⟨c, hreach, hfinished, hshared⟩ := Threads.exists_runThreads (expands_processAlternatives db flags r)
    AlternativesAction.turns turns_processAlternatives order ⟨⟨db.symbolDefinitions, flags⟩, todo⟩
    (horder.nodup_iff.mpr List.nodup_range)
    (by
      intro b hb
      refine hstarts.others b (Nat.le_of_not_lt (fun hlt => hb ?_))
      exact horder.mem_iff.mpr (List.mem_range.mpr hlt))
    (fun _ => rfl)
  refine ⟨c.shared.definitions, ⟨todo, c, hstarts, hreach, hfinished, rfl⟩, ?_⟩
  have htodo : (todo e.bucket).flatMap (expandAction db flags r)
      = ((unversioned e.bucket ++ versioned e.bucket).map .entry).flatMap (expandAction db flags r) := by
    rw [show todo e.bucket = _ from if_pos hb]
  have hbucket : ∃ front, (writesOf db flags r id (unversioned e.bucket ++ versioned e.bucket))
      = front ++ writesOf db flags r id [e] := by
    cases hv : e.isVersioned with
    | true =>
      have hmem : e ∈ ((db.buckets e.bucket).entries e.bucket).filter (fun e => e.isVersioned) :=
        List.mem_filter.mpr ⟨hentry, hv⟩
      refine ⟨writesOf db flags r id (unversioned e.bucket ++
        (((db.buckets e.bucket).entries e.bucket).filter (fun e => e.isVersioned)).erase e), ?_⟩
      rw [← writesOf_append, List.append_assoc, ← moveLast_mem hmem]
    | false =>
      have hmem : e ∈ ((db.buckets e.bucket).entries e.bucket).filter (fun e => !e.isVersioned) :=
        List.mem_filter.mpr ⟨hentry, by simp [hv]⟩
      -- the versioned entries that come after it do not write the symbol
      have hnone : writesOf db flags r id (versioned e.bucket) = [] := by
        rw [List.eq_nil_iff_forall_not_mem]
        intro x hx
        obtain ⟨later, hlater, hid', hselects'⟩ := mem_writesOf.mp hx
        obtain ⟨hlater, hv'⟩ := List.mem_filter.mp ((moveLast_perm _ _).mem_iff.mp hlater)
        have hsame := mem_entries_bucket hlater
        refine hselects'.1 (hlast hv later (mem_alternativeEntries_bucket.mpr ?_) hsame hv' hid')
        rw [hsame]
        exact ⟨hb, hlater⟩
      refine ⟨writesOf db flags r id
        ((((db.buckets e.bucket).entries e.bucket).filter (fun e => !e.isVersioned)).erase e), ?_⟩
      rw [writesOf_append, hnone, List.append_nil, ← writesOf_append, ← moveLast_mem hmem]
  obtain ⟨front, hfront⟩ := hbucket
  rw [hshared, definitions_foldl_apply]
  have horder : order = (List.range db.args.availableThreads).erase e.bucket ++ [e.bucket] :=
    moveLast_mem (List.mem_range.mpr hb)
  have hwrites : (((todo e.bucket).flatMap (expandAction db flags r)).filterMap
      (AlternativesEffect.writesTo id)) = front ++ writesOf db flags r id [e] := by
    rw [htodo]
    exact hfront
  rw [horder, List.flatMap_append, List.filterMap_append, List.flatMap_singleton, hwrites, ← List.append_assoc,
    getLast?_append_of_forall_eq (mem_writesOf.mpr ⟨e, List.mem_singleton_self e, hid, hselects⟩)]
  · rfl
  · intro x hx
    obtain ⟨e', he', _, hselects'⟩ := mem_writesOf.mp hx
    obtain rfl := List.mem_singleton.mp he'
    exact hselects'.unique hselects

/-- **When the order makes no difference**: the entries that may be the last to write a definition agree. -/
theorem orderIndependent_iff :
    OrderIndependent db flags r ↔
      ∀ id e selected e' selected', MayWriteLast db flags r id e selected →
        MayWriteLast db flags r id e' selected' → selected = selected' := by
  constructor
  · intro h id e selected e' selected' hlast hlast'
    obtain ⟨definitions, hleaves, rfl⟩ := hlast.leavesDefinitions
    obtain ⟨definitions', hleaves', rfl⟩ := hlast'.leavesDefinitions
    rw [h _ _ hleaves hleaves']
  · intro h definitions definitions' hleaves hleaves'
    funext id
    rcases hleaves.definition id with ⟨hsame, hnone⟩ | ⟨e, he⟩
    · rcases hleaves'.definition id with ⟨hsame', _⟩ | ⟨e', he'⟩
      · rw [hsame, hsame']
      · exact absurd (hnone e' he'.entry he'.mem) he'.selects.1
    · rcases hleaves'.definition id with ⟨_, hnone'⟩ | ⟨e', he'⟩
      · exact absurd (hnone' e he.entry he.mem) he.selects.1
      · exact h id e _ e' _ he he'

/-! ## A default version that two libraries define -/

def twoThreads : Args :=
  { availableThreads := 2, availableThreads_pos := Nat.two_pos, hashBytes := List.length }

/-- Two shared objects that define `foo@@VER`, and a regular object that defines `foo`. -/
def defaultVersionInputs : LoadedInputs :=
  let library : InputObject :=
    { symbols := [nullSymbol, { name := some (bytesOf "foo") }], isDynamic := true,
      versym := [⟨0, false⟩, ⟨2, false⟩], verdefNum := 2,
      verdefs := [⟨1, some (bytesOf "lib")⟩, ⟨2, some (bytesOf "VER")⟩] }
  { objects := [[library, library, { symbols := [nullSymbol, { name := some (bytesOf "foo") }] }]] }

/-- The database with these inputs. -/
def defaultVersionDb : SymbolDb × PerSymbolFlags :=
  firstBatch twoThreads (.dynamicExecutable .nonRelocatable) defaultVersionInputs

/-- All three files are loaded. -/
def defaultVersionResolver : Resolver := { Resolver.new with loaded := [⟨1, 0⟩, ⟨1, 1⟩, ⟨1, 2⟩] }

/-- **The order makes a difference**: the definition of `foo` in the first library is that of the regular object or
itself, as the bucket of `foo` or that of `foo@VER` comes last. -/
theorem definitions_depend_on_order :
    ¬∀ (args : Args) (outputKind : OutputKind) (versionScript : Option VersionScript) (db : SymbolDb)
      (flags : PerSymbolFlags) (r : Resolver), Batched args outputKind versionScript db flags →
      OrderIndependent db flags r := by
  intro h
  have hbatched : Batched twoThreads (.dynamicExecutable .nonRelocatable) none defaultVersionDb.1 defaultVersionDb.2 :=
    .addInputs defaultVersionInputs .new rfl
  have hversioned : ∀ e ∈ defaultVersionDb.1.alternativeEntries, e.bucket = 1 → ¬e.isVersioned = true := by decide
  have hobject : MayWriteLast defaultVersionDb.1 defaultVersionDb.2 defaultVersionResolver 2
      ⟨1, false, 2, [4, 6]⟩ 6 :=
    ⟨by decide, by decide, selectSymbol_eq_ok.mp (by decide),
      fun _ later hlater hbucket hv => absurd hv (hversioned later hlater hbucket)⟩
  have hlibrary : MayWriteLast defaultVersionDb.1 defaultVersionDb.2 defaultVersionResolver 2
      ⟨0, true, 2, [4]⟩ 2 :=
    ⟨by decide, by decide, selectSymbol_eq_ok.mp (by decide), fun hv => absurd hv (by decide)⟩
  obtain ⟨definitions, hleaves, hid⟩ := hobject.leavesDefinitions
  obtain ⟨definitions', hleaves', hid'⟩ := hlibrary.leavesDefinitions
  rw [h _ _ _ _ _ defaultVersionResolver hbatched definitions definitions' hleaves hleaves', hid'] at hid
  exact absurd hid (by decide)

end Reld
