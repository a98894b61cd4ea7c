import Reld.Link.Invariant

/-!
# `Resolve.Canonicalise` — `canonicalise_undefined_symbols`

The symbols that stayed undefined get a canonical symbol for each name: a start/stop symbol if the name has a
custom section, or else the last symbol that refers to the name. The visibility of a reference is passed on
to the definition that its name has in the name map, whichever that is (`CanonicaliseInv.flags`).
-/

namespace Reld

/-! ## Start and stop symbols -/

/-- The section that a `__start_` or `__stop_` name is about. -/
def startStopSection (name : Bytes) : Option Bytes :=
  ((bytesOf "__start_").isPrefixOf? name).or ((bytesOf "__stop_").isPrefixOf? name)

/-- Whether `allocate_start_stop_symbol_id` allocates a symbol. `isCustomSection` tells the names that
    `custom_name_to_id` knows. -/
def allocatesStartStop (isCustomSection : Bytes → Bool) (name : Bytes) : Bool :=
  (startStopSection name).any isCustomSection

/-- One more name for the group of synthetic symbols, which is the last one. -/
def addSyntheticName (name : Bytes) : List Group → List Group
  | [] => []
  | [.syntheticSymbols names] => [.syntheticSymbols (names ++ [name])]
  | g :: gs => g :: addSyntheticName name gs

/-- `add_synthetic_symbol`. The new symbol comes after all others. -/
def addSyntheticSymbol (db : SymbolDb) (flags : PerSymbolFlags) (name : Bytes) : SymbolDb × PerSymbolFlags :=
  ({ db with
      groups := addSyntheticName name db.groups
      buckets := Function.update db.buckets (db.nameBucket name)
        { db.buckets (db.nameBucket name) with
          names := (db.buckets (db.nameBucket name)).names.add (name, db.numSymbols) }
      symbolDefinitions := Function.update db.symbolDefinitions db.numSymbols db.numSymbols },
    Function.update flags db.numSymbols (.ofList [.nonInterposable]))

/-! ## Visibility -/

/-- `apply_visibility_to_definition`. Only the second case asks whether the definition is dynamic. -/
def applyVisibilityToDefinition (flags : PerSymbolFlags) (definitionId : SymbolId) (visibility : Visibility) :
    PerSymbolFlags :=
  match visibility with
  | .hidden => setFlags flags definitionId [.nonInterposable, .downgradeToLocal]
  | .«protected» =>
    if (flags definitionId).contains .dynamic then flags else setFlags flags definitionId [.nonInterposable]
  | .default => flags

/-- The visibility of a reference is applied to the definition of its name, if the name has one. -/
def applyReferenceVisibility (db : SymbolDb) (flags : PerSymbolFlags) (name : Bytes) (visibility : Visibility) :
    PerSymbolFlags :=
  if visibility ≠ .default then
    match db.getUnversioned name with
    | some defId => applyVisibilityToDefinition flags (db.definition defId) visibility
    | none => flags
  else flags

/-! ## The loop -/

/-- The variables of the loop. -/
structure CanonicaliseState where
  db : SymbolDb
  flags : PerSymbolFlags
  nameToId : Bytes → Option SymbolId
  versionedNameToId : Bytes × Bytes → Option SymbolId

/-- The flag of an undefined symbol that gets no start/stop symbol: it may be defined at run time, or else
    it stays null. -/
def undefinedFlag (db : SymbolDb) (r : Resolver) (symbolId : SymbolId) : Flag :=
  if db.inputSymbolVisibility symbolId = .default ∧ (db.outputKind.isSharedObject = true ∨
      (db.outputKind.isStaticExecutable = false ∧ symbolStrength db r symbolId = .weak)) then .dynamic
  else .nonInterposable

/-- The body of the loop for an unversioned name. -/
def canonicaliseUnversioned (r : Resolver) (isCustomSection : Bytes → Bool) (s : CanonicaliseState)
    (symbolId : SymbolId) (name : Bytes) : CanonicaliseState :=
  match s.nameToId name with
  | none =>
    if allocatesStartStop isCustomSection name then
      let added := addSyntheticSymbol s.db s.flags name
      { s with
        db := added.1.replaceDefinition symbolId s.db.numSymbols
        flags := added.2
        nameToId := Function.update s.nameToId name (some s.db.numSymbols) }
    else
      { s with
        db := s.db.replaceDefinition symbolId symbolId
        flags := applyReferenceVisibility s.db
          (setFlags s.flags symbolId [undefinedFlag s.db r symbolId]) name
          (s.db.inputSymbolVisibility symbolId)
        nameToId := Function.update s.nameToId name (some symbolId) }
  | some entry =>
    let db := s.db.replaceDefinition symbolId (s.db.definition entry)
    { s with
      db := db
      flags := applyReferenceVisibility db s.flags name (db.inputSymbolVisibility symbolId) }

/-- The body of the loop for a versioned name. -/
def canonicaliseVersioned (s : CanonicaliseState) (symbolId : SymbolId) (name : Bytes × Bytes) :
    CanonicaliseState :=
  match s.versionedNameToId name with
  | none => { s with versionedNameToId := Function.update s.versionedNameToId name (some symbolId) }
  | some entry => { s with db := s.db.replaceDefinition symbolId entry }

/-- The body of the loop for a symbol that is undefined after all. -/
def canonicaliseOne (r : Resolver) (isCustomSection : Bytes → Bool) (s : CanonicaliseState)
    (u : UndefinedSymbol) : CanonicaliseState :=
  match u.name with
  | .unversioned name => canonicaliseUnversioned r isCustomSection s u.symbolId name
  | .versioned name version => canonicaliseVersioned s u.symbolId (name, version)

/-- Whether the file that defines a recorded symbol ended up loaded. -/
def UndefinedSymbol.isDefined (db : SymbolDb) (r : Resolver) (u : UndefinedSymbol) : Bool :=
  u.ignoreIfLoaded.any (isLoaded db r)

/-- `canonicalise_undefined_symbols`, with the new group for the start/stop symbols. The symbols are taken
    in the reverse order of their identifiers. -/
def canonicaliseUndefinedSymbols (s : LinkState) (isCustomSection : Bytes → Bool) : CanonicaliseState :=
  (s.resolver.undefinedSymbols.insertionSort (fun a b => b.symbolId ≤ a.symbolId)).foldl
    (fun t u =>
      if u.isDefined s.db s.resolver then t else canonicaliseOne s.resolver isCustomSection t u)
    { db := { s.db with groups := s.db.groups ++ [.syntheticSymbols []] }
      flags := s.flags
      nameToId := fun _ => none
      versionedNameToId := fun _ => none }

/-- The symbols that are undefined after all, in the order in which they are canonicalised. -/
def stillUndefined (s : LinkState) : List UndefinedSymbol :=
  (s.resolver.undefinedSymbols.insertionSort (fun a b => b.symbolId ≤ a.symbolId)).filter
    (fun u => !u.isDefined s.db s.resolver)

theorem mem_stillUndefined {s : LinkState} {u : UndefinedSymbol} :
    u ∈ stillUndefined s ↔ u ∈ s.resolver.undefinedSymbols ∧ u.isDefined s.db s.resolver = false := by
  unfold stillUndefined
  rw [List.mem_filter, List.mem_insertionSort, Bool.not_eq_true']

theorem canonicaliseUndefinedSymbols_eq (s : LinkState) (isCustomSection : Bytes → Bool) :
    canonicaliseUndefinedSymbols s isCustomSection
      = (stillUndefined s).foldl (canonicaliseOne s.resolver isCustomSection)
        { db := { s.db with groups := s.db.groups ++ [.syntheticSymbols []] }
          flags := s.flags
          nameToId := fun _ => none
          versionedNameToId := fun _ => none } := by
  unfold canonicaliseUndefinedSymbols stillUndefined
  rw [List.foldl_filter]
  congr 1
  funext t u
  cases u.isDefined s.db s.resolver <;> rfl

/-! ## Synthetic symbols -/

theorem addSyntheticName_append (name : Bytes) (gs : List Group) (names : List Bytes) :
    addSyntheticName name (gs ++ [.syntheticSymbols names]) = gs ++ [.syntheticSymbols (names ++ [name])] := by
  induction gs with
  | nil => rfl
  | cons g gs ih =>
    rw [List.cons_append, List.cons_append, ← ih]
    cases gs <;> cases g <;> rfl

/-- A name table after one more name. -/
theorem getUnversioned_addSyntheticSymbol (db : SymbolDb) (flags : PerSymbolFlags) (name n : Bytes) :
    (addSyntheticSymbol db flags name).1.getUnversioned n
      = (db.getUnversioned n).or (if n = name then some db.numSymbols else none) := by
  show (Function.update db.buckets (db.nameBucket name) _ (db.nameBucket n)).names.nameToId n = _
  have hadd : ((db.buckets (db.nameBucket name)).names.add (name, db.numSymbols)).nameToId n
      = ((db.buckets (db.nameBucket name)).names.nameToId n).or
        (if n = name then some db.numSymbols else none) := by
    have hall := FirstTable.nameToId_addAll [(name, db.numSymbols)]
      (db.buckets (db.nameBucket name)).names n
    refine hall.trans ?_
    by_cases hn : n = name
    · subst hn
      simp [FirstTable.idsOf]
    · have hne : name ≠ n := fun h => hn h.symm
      simp [FirstTable.idsOf, hn, hne]
  by_cases hb : db.nameBucket n = db.nameBucket name
  · rw [hb, Function.update_self]
    refine hadd.trans ?_
    unfold SymbolDb.getUnversioned
    rw [hb]
  · have hn : n ≠ name := fun h => hb (by rw [h])
    rw [Function.update_of_ne hb, if_neg hn, Option.or_none]
    rfl

/-! ## The flags of visibility -/

theorem applyVisibilityToDefinition_contains (flags : PerSymbolFlags) (d : SymbolId) (v : Visibility)
    (id : SymbolId) (x : Flag) :
    (applyVisibilityToDefinition flags d v id).contains x = true ↔ (flags id).contains x = true ∨
      (id = d ∧ x ∈ visibilityFlags v ∧ (v = .hidden ∨ (flags id).contains .dynamic = false)) := by
  cases v with
  | default => simp [applyVisibilityToDefinition, visibilityFlags]
  | hidden => simp [applyVisibilityToDefinition, setFlags_contains, visibilityFlags]
  | «protected» =>
    unfold applyVisibilityToDefinition
    by_cases hid : id = d
    · subst hid
      cases (flags id).contains .dynamic <;> simp [setFlags_contains, visibilityFlags]
    · cases (flags d).contains .dynamic <;> simp [hid, setFlags_contains]

theorem applyReferenceVisibility_contains (db : SymbolDb) (flags : PerSymbolFlags) (name : Bytes)
    (v : Visibility) (id : SymbolId) (x : Flag) :
    (applyReferenceVisibility db flags name v id).contains x = true ↔ (flags id).contains x = true ∨
      ∃ k, db.getUnversioned name = some k ∧ db.definition k = id ∧ x ∈ visibilityFlags v ∧
        (v = .hidden ∨ (flags id).contains .dynamic = false) := by
  unfold applyReferenceVisibility
  by_cases hv : v = .default
  · subst hv
    simp [visibilityFlags]
  · rw [if_pos hv]
    cases hlookup : db.getUnversioned name with
    | none => simp
    | some k =>
      simp only [applyVisibilityToDefinition_contains, Option.some.injEq, exists_eq_left']
      rw [eq_comm (a := id)]

/-! ## One symbol after another -/

/-- The visibility of a reference that is still undefined, at place `i` of the loop, sets the flag `x` of
    `id`: its name has the definition `id`, and it is not the one that gets a start/stop symbol. -/
def PassesOnVisibility (s : LinkState) (isCustomSection : Bytes → Bool) (done : List UndefinedSymbol)
    (u : UndefinedSymbol) (id : SymbolId) (x : Flag) : Prop :=
  ∃ name k, u.name = .unversioned name ∧
    (allocatesStartStop isCustomSection name = true → ∃ v ∈ done, v.name = u.name) ∧
    s.db.getUnversioned name = some k ∧ s.db.definition k = id ∧
    x ∈ visibilityFlags (s.db.inputSymbolVisibility u.symbolId) ∧
    (s.db.inputSymbolVisibility u.symbolId = .hidden ∨ (s.flags id).contains .dynamic = false)

/-- What holds of the variables of the loop after the symbols in `done`. -/
structure CanonicaliseInv (s : LinkState) (isCustomSection : Bytes → Bool) (done : List UndefinedSymbol)
    (t : CanonicaliseState) : Prop where
  groups : ∃ names, t.db.groups = s.db.groups ++ [.syntheticSymbols names]
  args : t.db.args = s.db.args
  definitions : ∀ id, s.db.definesSymbol id = true → t.db.symbolDefinitions id = s.db.symbolDefinitions id
  kept : ∀ n k, s.db.getUnversioned n = some k → t.db.getUnversioned n = some k
  added : ∀ n k, t.db.getUnversioned n = some k → s.db.getUnversioned n = some k ∨
    (s.db.numSymbols ≤ k ∧ t.db.symbolDefinitions k = k)
  vacant : ∀ n, t.nameToId n = none ↔ ∀ u ∈ done, u.name ≠ .unversioned n
  flags : ∀ id, s.db.definesSymbol id = true → ∀ x, (t.flags id).contains x = true ↔
    (s.flags id).contains x = true ∨
      ∃ before u after, done = before ++ u :: after ∧ PassesOnVisibility s isCustomSection before u id x

namespace CanonicaliseInv

variable {s : LinkState} {isCustomSection : Bytes → Bool} {done : List UndefinedSymbol}
  {t : CanonicaliseState}

theorem start : CanonicaliseInv s isCustomSection []
    { db := { s.db with groups := s.db.groups ++ [.syntheticSymbols []] }
      flags := s.flags
      nameToId := fun _ => none
      versionedNameToId := fun _ => none } := by
  refine ⟨⟨[], rfl⟩, rfl, fun _ _ => rfl, fun _ _ h => h, fun _ _ h => Or.inl h, fun n => by simp, ?_⟩
  intro id _ x
  refine (or_iff_left ?_).symm
  rintro ⟨before, u, after, hnil, _⟩
  exact absurd hnil (by simp)

variable {id : SymbolId}

/-- The symbols before the loop are where they were. -/
theorem keepsSymbols (h : CanonicaliseInv s isCustomSection done t) (hid : id < s.db.numSymbols) :
    t.db.locate id = s.db.locate id := by
  obtain ⟨names, hgroups⟩ := h.groups
  exact SymbolDb.locate_append_old hgroups hid

theorem numSymbols_le (h : CanonicaliseInv s isCustomSection done t) : s.db.numSymbols ≤ t.db.numSymbols := by
  obtain ⟨names, hgroups⟩ := h.groups
  rw [SymbolDb.numSymbols_append hgroups]
  exact Nat.le_add_right _ _

theorem inputSymbolVisibility (h : CanonicaliseInv s isCustomSection done t) (hid : id < s.db.numSymbols) :
    t.db.inputSymbolVisibility id = s.db.inputSymbolVisibility id := by
  unfold SymbolDb.inputSymbolVisibility
  rw [h.keepsSymbols hid]

/-- A name that had a symbol has the same definition all along. -/
theorem definition_eq (hs : LinkInv s) (h : CanonicaliseInv s isCustomSection done t) {n : Bytes}
    {k : SymbolId} (hk : s.db.getUnversioned n = some k) : t.db.definition k = s.db.definition k := by
  have hlookup : s.db.lookup (.unversioned n) = some k := hk
  obtain ⟨key, hdefines⟩ := hs.wellNamed.defines_of_lookup hlookup
  have hdef := hdefines.definesSymbol
  unfold SymbolDb.definition
  rw [h.definitions k hdef, h.definitions _ (hs.definitions k hdef).1]

/-- The places of a list with one more element. -/
theorem exists_split_concat {α : Type} {l : List α} {a : α} {Q : List α → α → Prop} :
    (∃ before u after, l ++ [a] = before ++ u :: after ∧ Q before u) ↔
      (∃ before u after, l = before ++ u :: after ∧ Q before u) ∨ Q l a := by
  constructor
  · rintro ⟨before, u, after, heq, hQ⟩
    rcases List.eq_nil_or_concat after with rfl | ⟨after', b, rfl⟩
    · obtain ⟨rfl, hu⟩ := List.append_inj' heq rfl
      obtain rfl : a = u := by simpa using hu
      exact Or.inr hQ
    · refine Or.inl ⟨before, u, after', ?_, hQ⟩
      have heq' : l ++ [a] = (before ++ u :: after') ++ [b] := by
        rw [heq]
        simp
      exact (List.append_inj' heq' rfl).1
  · rintro (⟨before, u, after, rfl, hQ⟩ | hQ)
    · exact ⟨before, u, after ++ [a], by simp, hQ⟩
    · exact ⟨l, a, [], rfl, hQ⟩

variable {u : UndefinedSymbol}

/-- How the visibility of one more reference is passed on. -/
theorem flags_concat (h : CanonicaliseInv s isCustomSection done t) {name : Bytes} (hname : u.name = .unversioned name)
    (hlast : allocatesStartStop isCustomSection name = true → ∃ v ∈ done, v.name = u.name) {db : SymbolDb}
    (hnames : db.getUnversioned = t.db.getUnversioned)
    (hdefinition : ∀ n k, s.db.getUnversioned n = some k → db.definition k = s.db.definition k)
    (hadded : ∀ n k, t.db.getUnversioned n = some k → s.db.numSymbols ≤ k → db.definition k = k)
    {flags : PerSymbolFlags} (hflags : ∀ id, id ≠ u.symbolId → flags id = t.flags id)
    (hundefined : s.db.definesSymbol u.symbolId = false) (hid : s.db.definesSymbol id = true) (x : Flag) :
    (applyReferenceVisibility db flags name (s.db.inputSymbolVisibility u.symbolId) id).contains x = true ↔
      (s.flags id).contains x = true ∨
        ∃ before v after, done ++ [u] = before ++ v :: after ∧
          PassesOnVisibility s isCustomSection before v id x := by
  have hne : id ≠ u.symbolId := by
    rintro rfl
    rw [hundefined] at hid
    exact absurd hid Bool.false_ne_true
  have hdynamic : (flags id).contains .dynamic = (s.flags id).contains .dynamic := by
    rw [hflags id hne, Bool.eq_iff_iff, h.flags id hid]
    refine or_iff_left ?_
    rintro ⟨_, v, _, _, _, _, _, _, _, _, hx, _⟩
    cases hv : s.db.inputSymbolVisibility v.symbolId <;> rw [hv] at hx <;> exact absurd hx (by decide)
  rw [applyReferenceVisibility_contains, hflags id hne, h.flags id hid, ← hflags id hne, hdynamic,
    exists_split_concat, or_assoc]
  refine or_congr_right (or_congr_right ?_)
  constructor
  · rintro ⟨k, hk, hdef, hx, hguard⟩
    rw [hnames] at hk
    rcases h.added name k hk with hold | ⟨hle, _⟩
    · exact ⟨name, k, hname, hlast, hold, (hdefinition name k hold).symm.trans hdef, hx, hguard⟩
    · -- a start/stop symbol is its own definition
      rw [hadded name k hk hle] at hdef
      have hlt := SymbolDb.lt_numSymbols_of_definesSymbol hid
      exact absurd hle (Nat.not_le.mpr (hdef ▸ hlt))
  · rintro ⟨name', k, hname', _, hk, hdef, hx, hguard⟩
    obtain rfl := PreHashedSymbolName.unversioned.inj (hname'.symm.trans hname)
    exact ⟨k, hnames ▸ h.kept name' k hk, (hdefinition name' k hk).trans hdef, hx, hguard⟩

/-- The name of a start/stop symbol is its own definition. -/
theorem definition_added (hs : LinkInv s) (h : CanonicaliseInv s isCustomSection done t) {n : Bytes}
    {k : SymbolId} (hk : t.db.getUnversioned n = some k) (hle : s.db.numSymbols ≤ k) :
    t.db.symbolDefinitions k = k := by
  rcases h.added n k hk with hold | ⟨_, hself⟩
  · have hlookup : s.db.lookup (.unversioned n) = some k := hold
    exact absurd hle (Nat.not_le.mpr (hs.wellNamed.lt_numSymbols hlookup))
  · exact hself

/-- Writing the definition of an undefined symbol. -/
theorem replaceDefinition_spec (hs : LinkInv s) (h : CanonicaliseInv s isCustomSection done t)
    {symbolId : SymbolId} (hlt : symbolId < s.db.numSymbols) (hundefined : s.db.definesSymbol symbolId = false)
    (d : SymbolId) :
    (∀ id, s.db.definesSymbol id = true →
      (t.db.replaceDefinition symbolId d).symbolDefinitions id = s.db.symbolDefinitions id) ∧
    (∀ n k, s.db.getUnversioned n = some k →
      (t.db.replaceDefinition symbolId d).definition k = s.db.definition k) ∧
    ∀ n k, t.db.getUnversioned n = some k → s.db.numSymbols ≤ k →
      (t.db.replaceDefinition symbolId d).symbolDefinitions k = k := by
  have hdefined : ∀ id, s.db.definesSymbol id = true →
      (t.db.replaceDefinition symbolId d).symbolDefinitions id = s.db.symbolDefinitions id := by
    intro id hid
    have hne : id ≠ symbolId := by
      rintro rfl
      rw [hundefined] at hid
      exact absurd hid Bool.false_ne_true
    exact (Function.update_of_ne hne _ _).trans (h.definitions id hid)
  refine ⟨hdefined, ?_, ?_⟩
  · intro n k hk
    have hlookup : s.db.lookup (.unversioned n) = some k := hk
    obtain ⟨key, hdefines⟩ := hs.wellNamed.defines_of_lookup hlookup
    have hdef := hdefines.definesSymbol
    unfold SymbolDb.definition
    rw [hdefined k hdef, hdefined _ (hs.definitions k hdef).1]
  · intro n k hk hle
    have hne : k ≠ symbolId := fun heq => absurd hle (Nat.not_le.mpr (heq ▸ hlt))
    exact (Function.update_of_ne hne _ _).trans (h.definition_added hs hk hle)

theorem vacant_update {name : Bytes} (h : CanonicaliseInv s isCustomSection done t) (hname : u.name = .unversioned name)
    (id : SymbolId) (n : Bytes) :
    Function.update t.nameToId name (some id) n = none ↔ ∀ v ∈ done ++ [u], v.name ≠ .unversioned n := by
  simp only [List.mem_append, List.mem_singleton, or_imp, forall_and, forall_eq, hname, ← h.vacant]
  by_cases hn : n = name
  · subst hn
    simp
  · rw [Function.update_of_ne hn]
    refine (and_iff_left ?_).symm
    intro heq
    exact hn (PreHashedSymbolName.unversioned.inj heq).symm

/-- **One more symbol.** -/
theorem step (hs : LinkInv s) (h : CanonicaliseInv s isCustomSection done t) (hlt : u.symbolId < s.db.numSymbols)
    (hundefined : s.db.definesSymbol u.symbolId = false) :
    CanonicaliseInv s isCustomSection (done ++ [u]) (canonicaliseOne s.resolver isCustomSection t u) := by
  have hle := h.numSymbols_le
  unfold canonicaliseOne
  cases hname : u.name with
  | unversioned name =>
    simp only
    unfold canonicaliseUnversioned
    cases hentry : t.nameToId name with
    | none =>
      by_cases hstart : allocatesStartStop isCustomSection name = true
      · -- a start/stop symbol takes the name
        rw [if_pos hstart]
        obtain ⟨names, hgroups⟩ := h.groups
        have hnew : ∀ {id}, id < s.db.numSymbols → id ≠ t.db.numSymbols :=
          fun hid heq => absurd hle (Nat.not_le.mpr (heq ▸ hid))
        obtain ⟨hdefined, _, hself⟩ := h.replaceDefinition_spec hs hlt hundefined t.db.numSymbols
        have hwrite : ∀ id, id ≠ t.db.numSymbols →
            ((addSyntheticSymbol t.db t.flags name).1.replaceDefinition u.symbolId
                t.db.numSymbols).symbolDefinitions id
              = (t.db.replaceDefinition u.symbolId t.db.numSymbols).symbolDefinitions id := by
          intro id hid
          show Function.update (Function.update t.db.symbolDefinitions _ _) _ _ id
            = Function.update t.db.symbolDefinitions _ _ id
          by_cases heq : id = u.symbolId
          · subst heq
            rw [Function.update_self, Function.update_self]
          · rw [Function.update_of_ne heq, Function.update_of_ne heq, Function.update_of_ne hid]
        refine ⟨⟨names ++ [name], ?_⟩, h.args, ?_, ?_, ?_, fun n => h.vacant_update hname _ n, ?_⟩
        · show addSyntheticName name t.db.groups = _
          rw [hgroups, addSyntheticName_append]
        · intro id hid
          exact (hwrite id (hnew (SymbolDb.lt_numSymbols_of_definesSymbol hid))).trans (hdefined id hid)
        · intro n k hk
          show (addSyntheticSymbol t.db t.flags name).1.getUnversioned n = some k
          rw [getUnversioned_addSyntheticSymbol, h.kept n k hk]
          rfl
        · intro n k hk
          replace hk : (addSyntheticSymbol t.db t.flags name).1.getUnversioned n = some k := hk
          rw [getUnversioned_addSyntheticSymbol] at hk
          rcases Option.or_eq_some_iff.mp hk with hk | ⟨_, hk⟩
          · rcases h.added n k hk with hold | ⟨hlo, _⟩
            · exact Or.inl hold
            · refine Or.inr ⟨hlo, ?_⟩
              by_cases heq : k = t.db.numSymbols
              · subst heq
                have hne : t.db.numSymbols ≠ u.symbolId := fun heq => hnew hlt heq.symm
                show Function.update (Function.update t.db.symbolDefinitions _ _) _ _ _ = _
                rw [Function.update_of_ne hne, Function.update_self]
              · exact (hwrite k heq).trans (hself n k hk hlo)
          · split_ifs at hk
            obtain rfl := Option.some.inj hk
            have hne : t.db.numSymbols ≠ u.symbolId := fun heq => hnew hlt heq.symm
            refine Or.inr ⟨hle, ?_⟩
            show Function.update (Function.update t.db.symbolDefinitions _ _) _ _ _ = _
            rw [Function.update_of_ne hne, Function.update_self]
        · intro id hid x
          have hne := hnew (SymbolDb.lt_numSymbols_of_definesSymbol hid)
          show ((Function.update t.flags t.db.numSymbols _) id).contains x = true ↔ _
          rw [Function.update_of_ne hne, h.flags id hid, exists_split_concat]
          refine or_congr_right (or_iff_left ?_).symm
          -- the visibility of the first reference to a start/stop symbol is not passed on
          rintro ⟨name', k, hname', hlast, _⟩
          obtain rfl := PreHashedSymbolName.unversioned.inj (hname'.symm.trans hname)
          obtain ⟨v, hv, heq⟩ := hlast hstart
          exact (h.vacant name').mp hentry v hv (heq.trans hname)
      · rw [if_neg hstart]
        obtain ⟨hdefined, hdefinition, hself⟩ := h.replaceDefinition_spec hs hlt hundefined u.symbolId
        refine ⟨h.groups, h.args, hdefined, h.kept, ?_, fun n => h.vacant_update hname _ n, ?_⟩
        · intro n k hk
          rcases h.added n k hk with hold | ⟨hlo, _⟩
          · exact Or.inl hold
          · exact Or.inr ⟨hlo, hself n k hk hlo⟩
        · intro id hid x
          rw [h.inputSymbolVisibility hlt]
          refine h.flags_concat hname (fun hcustom => absurd hcustom hstart) rfl
            (fun n k hk => h.definition_eq hs hk) (fun n k hk hlo => ?_) ?_ hundefined hid x
          · unfold SymbolDb.definition
            rw [h.definition_added hs hk hlo, h.definition_added hs hk hlo]
          · intro i hi
            exact Function.update_of_ne hi _ _
    | some entry =>
      simp only
      obtain ⟨hdefined, hdefinition, hself⟩ :=
        h.replaceDefinition_spec hs hlt hundefined (t.db.definition entry)
      have hseen : ∃ v ∈ done, v.name = .unversioned name := by
        by_contra hnone
        rw [(h.vacant name).mpr (fun v hv heq => hnone ⟨v, hv, heq⟩)] at hentry
        exact absurd hentry (by simp)
      refine ⟨h.groups, h.args, hdefined, h.kept, ?_, ?_, ?_⟩
      · intro n k hk
        rcases h.added n k hk with hold | ⟨hlo, _⟩
        · exact Or.inl hold
        · exact Or.inr ⟨hlo, hself n k hk hlo⟩
      · intro n
        rw [h.vacant n]
        simp only [List.mem_append, List.mem_singleton, or_imp, forall_and, forall_eq, hname]
        refine (and_iff_left_of_imp ?_).symm
        intro hnone heq
        obtain ⟨v, hv, hvname⟩ := hseen
        exact hnone v hv (hvname.trans heq)
      · intro id hid x
        have hvisibility : (t.db.replaceDefinition u.symbolId (t.db.definition entry)).inputSymbolVisibility
            u.symbolId = s.db.inputSymbolVisibility u.symbolId := h.inputSymbolVisibility hlt
        have hnames : (t.db.replaceDefinition u.symbolId (t.db.definition entry)).getUnversioned
            = t.db.getUnversioned := rfl
        rw [hvisibility]
        refine h.flags_concat hname (fun _ => ?_) hnames hdefinition (fun n k hk hlo => ?_) (fun _ _ => rfl)
          hundefined hid x
        · rw [hname]
          exact hseen
        · exact (congrArg _ (hself n k hk hlo)).trans (hself n k hk hlo)
  | versioned name version =>
    simp only
    have hvacant : ∀ n, t.nameToId n = none ↔ ∀ v ∈ done ++ [u], v.name ≠ .unversioned n := by
      intro n
      rw [h.vacant n]
      simp only [List.mem_append, List.mem_singleton, or_imp, forall_and, forall_eq, hname]
      exact (and_iff_left (by simp)).symm
    have hflags : ∀ id, s.db.definesSymbol id = true → ∀ x, (t.flags id).contains x = true ↔
        (s.flags id).contains x = true ∨ ∃ before v after, done ++ [u] = before ++ v :: after ∧
          PassesOnVisibility s isCustomSection before v id x := by
      intro id hid x
      rw [h.flags id hid, exists_split_concat]
      refine or_congr_right (or_iff_left ?_).symm
      rintro ⟨name', k, hname', _⟩
      exact absurd (hname'.symm.trans hname) (by simp)
    unfold canonicaliseVersioned
    cases t.versionedNameToId (name, version) with
    | none => exact ⟨h.groups, h.args, h.definitions, h.kept, h.added, hvacant, hflags⟩
    | some entry =>
      obtain ⟨hdefined, _, hself⟩ := h.replaceDefinition_spec hs hlt hundefined entry
      refine ⟨h.groups, h.args, hdefined, h.kept, ?_, hvacant, hflags⟩
      intro n k hk
      rcases h.added n k hk with hold | ⟨hlo, _⟩
      · exact Or.inl hold
      · exact Or.inr ⟨hlo, hself n k hk hlo⟩

/-- **The whole loop.** -/
theorem run (hs : LinkInv s) {l : List UndefinedSymbol}
    (hl : ∀ u ∈ l, u.symbolId < s.db.numSymbols ∧ s.db.definesSymbol u.symbolId = false) :
    ∀ {done : List UndefinedSymbol} {t : CanonicaliseState}, CanonicaliseInv s isCustomSection done t →
      CanonicaliseInv s isCustomSection (done ++ l) (l.foldl (canonicaliseOne s.resolver isCustomSection) t) := by
  induction l with
  | nil =>
    intro done t h
    rw [List.append_nil]
    exact h
  | cons u l ih =>
    intro done t h
    obtain ⟨hlt, hundefined⟩ := hl u List.mem_cons_self
    have hnext := ih (fun v hv => hl v (List.mem_cons_of_mem _ hv)) (h.step hs hlt hundefined)
    rwa [List.append_assoc] at hnext

end CanonicaliseInv

/-- **The specification of `canonicalise_undefined_symbols`.** -/
theorem canonicaliseUndefinedSymbols_spec {s : LinkState} (hs : LinkInv s) (isCustomSection : Bytes → Bool) :
    CanonicaliseInv s isCustomSection (stillUndefined s) (canonicaliseUndefinedSymbols s isCustomSection) := by
  rw [canonicaliseUndefinedSymbols_eq]
  exact CanonicaliseInv.run hs (fun u hu => hs.records u (mem_stillUndefined.mp hu).1) CanonicaliseInv.start

end Reld

/-!
# Symbols of shared objects stay interposable

A symbol that a shared object defines must not be made local or non-interposable, since that would keep it
from being resolved at run time. No phase before canonicalisation does so (`LinkInv.library`); the last one
does for a symbol that is the definition of a name with a hidden reference (`shared_symbol_unrestricted_iff`).
-/

namespace Reld

/-! ## Symbols of shared objects -/

/-- A symbol that a shared object defines. -/
def IsSharedSymbol (db : SymbolDb) (id : SymbolId) : Prop :=
  ∃ fileId o index, db.locate id = some ((fileId, .object o), index) ∧ o.isDynamic = true ∧
    db.definesSymbol id = true

/-- The symbol is neither local nor non-interposable. -/
def Unrestricted (flags : PerSymbolFlags) (id : SymbolId) : Prop :=
  (flags id).contains .nonInterposable = false ∧ (flags id).contains .downgradeToLocal = false

/-- A hidden reference is still undefined, though its name has the definition `id`. The first reference to
    the start/stop name of a custom section does not count. -/
def HiddenReferenceTo (s : LinkState) (isCustomSection : Bytes → Bool) (id : SymbolId) : Prop :=
  ∃ before u after name k, stillUndefined s = before ++ u :: after ∧ u.name = .unversioned name ∧
    s.db.inputSymbolVisibility u.symbolId = .hidden ∧
    s.db.getUnversioned name = some k ∧ s.db.definition k = id ∧
    (allocatesStartStop isCustomSection name = true → ∃ v ∈ before, v.name = u.name)

namespace IsSharedSymbol

variable {db : SymbolDb} {id : SymbolId}

theorem isDynamicSymbol (h : IsSharedSymbol db id) : db.isDynamicSymbol id = true := by
  obtain ⟨_, o, _, hloc, hdyn, _⟩ := h
  unfold SymbolDb.isDynamicSymbol
  rw [hloc]
  exact hdyn

theorem lt_numSymbols (h : IsSharedSymbol db id) : id < db.numSymbols := by
  obtain ⟨_, _, _, hloc, _⟩ := h
  exact SymbolDb.locate_isSome_iff.mp (Option.isSome_of_eq_some hloc)

theorem definesSymbol (h : IsSharedSymbol db id) : db.definesSymbol id = true := h.choose_spec.choose_spec.choose_spec.2.2

end IsSharedSymbol

/-- Canonicalisation leaves a symbol of a shared object alone exactly if no hidden reference leads to it. -/
theorem canonicalise_unrestricted_iff {s : LinkState} (hs : LinkInv s) (isCustomSection : Bytes → Bool)
    {id : SymbolId} (hid : IsSharedSymbol s.db id) :
    Unrestricted (canonicaliseUndefinedSymbols s isCustomSection).flags id ↔
      ¬HiddenReferenceTo s isCustomSection id := by
  have hspec := canonicaliseUndefinedSymbols_spec hs isCustomSection
  have hdynamic : (s.flags id).contains .dynamic = true :=
    (hs.dynamic id hid.lt_numSymbols).trans hid.isDynamicSymbol
  obtain ⟨hinterposable, hlocal⟩ := hs.library id hid.lt_numSymbols hid.isDynamicSymbol
  -- only hidden references pass a flag on to a dynamic symbol, and they pass on both
  have hflag : ∀ x, (s.flags id).contains x = false → x ∈ visibilityFlags .hidden →
      (((canonicaliseUndefinedSymbols s isCustomSection).flags id).contains x = true ↔
        HiddenReferenceTo s isCustomSection id) := by
    intro x hold hx
    rw [hspec.flags id hid.definesSymbol]
    constructor
    · rintro (hset | ⟨before, u, after, hsplit, name, k, hname, hfirst, hk, hdef, _, hguard⟩)
      · rw [hold] at hset
        exact absurd hset Bool.false_ne_true
      · rcases hguard with hhidden | hnone
        · exact ⟨before, u, after, name, k, hsplit, hname, hhidden, hk, hdef, hfirst⟩
        · rw [hdynamic] at hnone
          exact absurd hnone (by simp)
    · rintro ⟨before, u, after, name, k, hsplit, hname, hhidden, hk, hdef, hfirst⟩
      exact Or.inr ⟨before, u, after, hsplit, name, k, hname, hfirst, hk, hdef, hhidden ▸ hx, Or.inl hhidden⟩
  unfold Unrestricted
  rw [← Bool.not_eq_true, ← Bool.not_eq_true, hflag _ hinterposable (by decide), hflag _ hlocal (by decide)]
  exact and_self_iff

/-! ## Whole links -/

/-- **Symbols of shared objects in a link**: in every chain of phases that ends with canonicalisation, such a
    symbol is never made local or non-interposable exactly if no hidden reference that is still undefined
    leads to it at the end. -/
theorem shared_symbol_unrestricted_iff {args : Args} {outputKind : OutputKind}
    {versionScript : Option VersionScript} {states : List LinkState}
    (hrun : (LinkState.new args outputKind versionScript :: states).IsChain LinkStep)
    {s : LinkState} (hs : s ∈ LinkState.new args outputKind versionScript :: states)
    (isCustomSection : Bytes → Bool) {id : SymbolId} (hid : IsSharedSymbol s.db id) :
    ((∀ s' ∈ LinkState.new args outputKind versionScript :: states, IsSharedSymbol s'.db id →
        Unrestricted s'.flags id) ∧
      Unrestricted (canonicaliseUndefinedSymbols s isCustomSection).flags id) ↔
      ¬HiddenReferenceTo s isCustomSection id := by
  have hinv := LinkInv.of_isChain hrun (LinkInv.new args outputKind versionScript)
  rw [← canonicalise_unrestricted_iff (hinv s hs) isCustomSection hid]
  refine and_iff_right ?_
  intro s' hs' hid'
  exact (hinv s' hs').library id hid'.lt_numSymbols hid'.isDynamicSymbol

/-! ## The first phases as a run -/

/-- The states that a first pass goes through. -/
def FirstPass.states {args : Args} {outputKind : OutputKind} {versionScript : Option VersionScript}
    {loaded : LoadedInputs} (p : FirstPass args outputKind versionScript loaded) : List LinkState :=
  [{ db := p.input, flags := p.inputFlags, resolver := .new },
    { db := p.wrapped, flags := p.inputFlags, resolver := .new },
    { db := p.resolved, flags := p.resolvedFlags, resolver := p.resolver },
    { db := p.db, flags := p.flags, resolver := p.resolver }]

/-- A first pass is a chain of phases. -/
theorem FirstPass.isChain {args : Args} {outputKind : OutputKind} {versionScript : Option VersionScript}
    {loaded : LoadedInputs} (p : FirstPass args outputKind versionScript loaded) :
    (LinkState.new args outputKind versionScript :: p.states).IsChain LinkStep :=
  .cons_cons (.addInputs loaded p.added) (.cons_cons .wrap
    (.cons_cons (.resolve p.resolves) (.cons_cons (.alternatives p.alternatives) (.singleton _))))

/-! ## A hidden reference to a symbol of a library -/

/-- An object with a hidden reference to `foo`, and a shared object that defines `foo`. -/
def hiddenInputs : LoadedInputs :=
  { objects := [[
      { symbols := [nullSymbol,
          { name := some (bytesOf "foo"), visibility := .stvHidden, shndx := .undef }] },
      { symbols := [nullSymbol, { name := some (bytesOf "foo") }], isDynamic := true }]] }

/-- The first pass over these inputs. -/
def hiddenPass : FirstPass plainArgs (.dynamicExecutable .nonRelocatable) none hiddenInputs :=
  .inOrder (firstBatch plainArgs (.dynamicExecutable .nonRelocatable) hiddenInputs) 10 rfl
    (Or.inl (by decide)) ⟨rfl, rfl, rfl⟩ rfl

/-- The state after it. -/
def hiddenState : LinkState := { db := hiddenPass.db, flags := hiddenPass.flags, resolver := hiddenPass.resolver }

theorem hiddenState_mem :
    hiddenState ∈ LinkState.new plainArgs (.dynamicExecutable .nonRelocatable) none :: hiddenPass.states :=
  List.mem_cons_of_mem _ (List.mem_cons_of_mem _ (List.mem_cons_of_mem _ (List.mem_cons_of_mem _
    List.mem_cons_self)))

/-- **Every link**: each state of a chain of phases has the invariant, and no later one loses a symbol or changes it. -/
theorem link_keeps_symbols {args : Args} {outputKind : OutputKind} {versionScript : Option VersionScript}
    {states : List LinkState} (hrun : (LinkState.new args outputKind versionScript :: states).IsChain LinkStep) :
    (∀ s ∈ states, LinkInv s) ∧ states.Pairwise fun s s' => KeepsSymbols s.db s'.db := by
  refine ⟨fun s hs => LinkInv.of_isChain hrun (.new ..) s (List.mem_cons_of_mem _ hs), ?_⟩
  let keeps (s s' : LinkState) := KeepsSymbols s.db s'.db
  have : Trans keeps keeps keeps := ⟨KeepsSymbols.trans⟩
  exact (hrun.imp (S := keeps) fun _ _ h => h.keepsSymbols).pairwise.of_cons

theorem link_keeps_symbols_hidden : hiddenPass.states.Pairwise fun s s' => KeepsSymbols s.db s'.db :=
  (link_keeps_symbols hiddenPass.isChain).2

/-- Symbol 4 is the `foo` of the shared object. -/
theorem hiddenState_isSharedSymbol : IsSharedSymbol hiddenState.db 4 :=
  ⟨⟨1, 1⟩, _, 1, rfl, rfl, rfl⟩

theorem shared_symbol_unrestricted_iff_witness :
    ((∀ s' ∈ LinkState.new plainArgs (.dynamicExecutable .nonRelocatable) none :: hiddenPass.states,
        IsSharedSymbol s'.db 4 → Unrestricted s'.flags 4) ∧
      Unrestricted (canonicaliseUndefinedSymbols hiddenState (fun _ => false)).flags 4) ↔
      ¬HiddenReferenceTo hiddenState (fun _ => false) 4 :=
  shared_symbol_unrestricted_iff hiddenPass.isChain hiddenState_mem (fun _ => false)
    hiddenState_isSharedSymbol

/-- **A hidden reference makes a symbol of a shared object local.** -/
theorem hidden_reference_restricts :
    ¬∀ (args : Args) (outputKind : OutputKind) (versionScript : Option VersionScript)
      (states : List LinkState),
      (LinkState.new args outputKind versionScript :: states).IsChain LinkStep →
      ∀ s ∈ LinkState.new args outputKind versionScript :: states, ∀ isCustomSection id,
        IsSharedSymbol s.db id →
          Unrestricted (canonicaliseUndefinedSymbols s isCustomSection).flags id := by
  intro h
  have hflags := h _ _ _ _ hiddenPass.isChain _ hiddenState_mem (fun _ => false) 4 hiddenState_isSharedSymbol
  exact absurd hflags.2 (by decide)

end Reld
