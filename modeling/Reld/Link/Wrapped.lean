import Reld.Link.Run

/-!
# `Link.Wrapped` — lists of definitions and wrapped names

The lists of alternatives are kept under the symbol that the name map holds. `--wrap` lets a name stand for
a symbol of another name, so a later batch that defines the name is kept under that symbol. A list has the
definitions of one name as long as no batch does that (`entriesAgree_iff_keepsNames`).
-/

namespace Reld

/-! ## Duplicates -/

section Duplicates

variable {db : SymbolDb} {flags : PerSymbolFlags} {r : Resolver}

variable (db flags r) in
/-- `select_symbol` stops at `id` since `existing` is strong as well, and reports the two. -/
def ReportsDuplicates (ids : List SymbolId) (existing id : SymbolId) : Prop :=
  ∃ before after s, ids = before ++ id :: after ∧
    before.foldlM (considerNonDynamic db flags r) .new = .ok s ∧ s.firstStrong = some existing ∧
    considerNonDynamic db flags r s id = .error .duplicateSymbols

/-- A selector only holds definitions that it has seen. -/
theorem holds_foldlM_considerNonDynamic {l : List SymbolId} {s s' : SymbolPrioritySelector}
    (h : l.foldlM (considerNonDynamic db flags r) s = .ok s') : ∀ c, s'.Holds c → s.Holds c ∨ c ∈ l := by
  refine Traverse.foldlM_ok_induct (I := fun l s' => ∀ c, s'.Holds c → s.Holds c ∨ c ∈ l) []
    (fun done id s s' _ hs hid c hc => ?_) (fun c hc => Or.inl hc) h
  have hdone {c} (h : s.Holds c) := (hs c h).imp_right (List.mem_append_left [id])
  rcases considerNonDynamic_ok hid with ⟨_, rfl⟩ | ⟨_, rfl⟩
  · exact hdone hc
  · rcases SymbolPrioritySelector.holds_consider hc with hc | rfl
    · exact hdone hc
    · exact Or.inr List.mem_append_cons_self

theorem ReportsDuplicates.mem {ids : List SymbolId} {existing id : SymbolId}
    (h : ReportsDuplicates db flags r ids existing id) : existing ∈ ids ∧ id ∈ ids := by
  obtain ⟨before, after, s, rfl, hfold, hstrong, _⟩ := h
  refine ⟨List.mem_append_left _ ?_, List.mem_append_cons_self⟩
  rcases holds_foldlM_considerNonDynamic hfold _ (Or.inl hstrong) with hnew | hmem
  · exact absurd hnew (SymbolPrioritySelector.not_holds_new existing)
  · exact hmem

end Duplicates

/-! ## Lists of one name -/

namespace SymbolDb

/-- Every list has the definers of one key. -/
def ConsistentEntries (db : SymbolDb) : Prop :=
  ∀ e ∈ db.alternativeEntries, ∃ key : PreHashedSymbolName, key.isVersioned = e.isVersioned ∧
    ∀ id ∈ e.ids, db.Defines key id

/-- Every list has the definers of one key, what is selected for them is a definer of the key as well, and
    so are two symbols that are reported as duplicates. -/
structure EntriesAgree (db : SymbolDb) : Prop where
  entries : db.ConsistentEntries
  selected : ∀ flags r, ∀ e ∈ db.alternativeEntries, ∀ selected,
    selectSymbol db flags r e.first e.alternatives = .ok selected →
    ∀ id ∈ e.ids, ∃ key, db.Defines key id ∧ db.Defines key selected
  duplicates : ∀ flags r, ∀ e ∈ db.alternativeEntries, ∀ existing id,
    ReportsDuplicates db flags r e.ids existing id →
    ∃ key, db.Defines key e.first ∧ db.Defines key existing ∧ db.Defines key id

/-- Selection stays in the list. -/
theorem ConsistentEntries.entriesAgree {db : SymbolDb} (h : db.ConsistentEntries) : db.EntriesAgree := by
  refine ⟨h, ?_, ?_⟩
  · intro flags r e he selected hselect id hid
    obtain ⟨key, _, hdefines⟩ := h e he
    exact ⟨key, hdefines id hid, hdefines selected (selectSymbol_mem hselect)⟩
  · intro flags r e he existing id hreport
    obtain ⟨key, _, hdefines⟩ := h e he
    exact ⟨key, hdefines _ List.mem_cons_self, hdefines _ hreport.mem.1, hdefines _ hreport.mem.2⟩

/-- The symbols that are new in `db'` meet their names standing for symbols of these names, if for any. -/
def KeepsNames (db db' : SymbolDb) : Prop :=
  ∀ id name k, db.numSymbols ≤ id → db'.unversionedName id = some name → db.getUnversioned name = some k →
    db.unversionedName k = some name

/-- A symbol has one key of each kind. -/
theorem Defines.unique {db : SymbolDb} {key key' : PreHashedSymbolName} {id : SymbolId}
    (h : db.Defines key id) (h' : db.Defines key' id) (hv : key.isVersioned = key'.isVersioned) :
    key = key' := by
  cases key with
  | unversioned n =>
    cases key' with
    | unversioned n' =>
      have hn : db.unversionedName id = some n := h
      have hn' : db.unversionedName id = some n' := h'
      rw [Option.some.inj (hn.symm.trans hn')]
    | versioned n' version' => exact absurd hv (by simp [PreHashedSymbolName.isVersioned])
  | versioned n version =>
    cases key' with
    | unversioned n' => exact absurd hv (by simp [PreHashedSymbolName.isVersioned])
    | versioned n' version' =>
      have hn : db.versionedName id = some (n, version) := h
      have hn' : db.versionedName id = some (n', version') := h'
      obtain ⟨rfl, rfl⟩ := Prod.mk.inj (Option.some.inj (hn.symm.trans hn'))
      rfl

/-- The lists agree if each kept symbol has a key of the symbol that it is kept under. -/
theorem WellNamed.consistentEntries_iff {db : SymbolDb} (hw : db.WellNamed) :
    db.ConsistentEntries ↔ ∀ v b k id, b < db.args.availableThreads → id ∈ db.keptUnder v b k →
      ∃ key : PreHashedSymbolName, key.isVersioned = v ∧ db.Defines key k ∧ db.Defines key id := by
  constructor
  · intro h v b k id hb hid
    have hne : db.keptUnder v b k ≠ [] := List.ne_nil_of_mem hid
    have he : (⟨b, v, k, db.keptUnder v b k⟩ : AlternativeEntry) ∈ db.alternativeEntries :=
      hw.mem_alternativeEntries.mpr ⟨hb, hne, rfl⟩
    obtain ⟨key, hv, hdefines⟩ := h _ he
    exact ⟨key, hv, hdefines k List.mem_cons_self, hdefines id (List.mem_cons_of_mem _ hid)⟩
  · intro h e he
    obtain ⟨hb, hne, hkept⟩ := hw.mem_alternativeEntries.mp he
    obtain ⟨id, hid⟩ := List.exists_mem_of_ne_nil _ hne
    obtain ⟨key, hv, hfirst, _⟩ := h e.isVersioned e.bucket e.first id hb (hkept ▸ hid)
    refine ⟨key, hv, ?_⟩
    intro i hi
    rcases List.mem_cons.mp hi with rfl | hi
    · exact hfirst
    · obtain ⟨key', hv', hfirst', hdefines⟩ := h e.isVersioned e.bucket e.first i hb (hkept ▸ hi)
      rw [hfirst.unique hfirst' (hv.trans hv'.symm)]
      exact hdefines

end SymbolDb

/-! ## One batch -/

/-- **A batch keeps the lists consistent** exactly if its symbols meet their names standing for symbols of
    these names. -/
theorem AddedInputs.consistentEntries_iff {db db' : SymbolDb} {flags flags' : PerSymbolFlags}
    {loaded : LoadedInputs} (h : AddedInputs db flags loaded db' flags') (hw : db.WellNamed)
    (hconsistent : db.ConsistentEntries) : db'.ConsistentEntries ↔ db.KeepsNames db' := by
  have hkeeps := h.keepsSymbols
  have hw' := h.wellNamed hw
  rw [hw'.consistentEntries_iff]
  constructor
  · intro hall id name k hid hname hk
    have hlookup : db.lookup (.unversioned name) = some k := hk
    have hdefines : db'.Defines (.unversioned name) id := hname
    have hlt : k < db.numSymbols := hw.lt_numSymbols hlookup
    have hkept : id ∈ db'.keptUnder false (db.nameBucket name) k :=
      (h.mem_keptUnder hw).mpr (Or.inr ⟨.unversioned name, rfl, rfl, hid, hname,
        h.lookup_of_some hlookup,
        fun heq => absurd hid (Nat.not_le.mpr (heq ▸ hlt))⟩)
    obtain ⟨key, hv, hdefK, hdefId⟩ := hall false _ k id (by rw [h.args]; exact nameBucket_lt db name) hkept
    have hkey : key = .unversioned name := hdefId.unique hdefines hv
    rw [hkey] at hdefK
    exact (hkeeps.unversionedName hlt).symm.trans hdefK
  · intro hnames v b k id hb hid
    rcases (h.mem_keptUnder hw).mp hid with hold | ⟨key, hv, _, hlo, hdef, hlookup, _⟩
    · -- an old pair
      obtain ⟨key, hv, hdefK, hdefId⟩ :=
        hw.consistentEntries_iff.mp hconsistent v b k id (h.args ▸ hb) hold
      exact ⟨key, hv, (hkeeps.defines_iff hdefK.lt_numSymbols).mpr hdefK,
        (hkeeps.defines_iff hdefId.lt_numSymbols).mpr hdefId⟩
    · refine ⟨key, hv, ?_, hdef⟩
      rcases h.lookup_cases hlookup with hk | hk
      · have hlt := hw.lt_numSymbols hk
        cases key with
        | unversioned name =>
          exact (hkeeps.unversionedName hlt).trans (hnames id name k hlo hdef hk)
        | versioned name version =>
          -- no option moves versioned names
          exact (hkeeps.versionedName hlt).trans (hw.versionedNames _ _ _ hk)
      · exact hk

/-- The same for any phase. -/
theorem LinkStep.consistentEntries_iff {s s' : LinkState} (h : LinkStep s s') (hw : s.db.WellNamed)
    (hconsistent : s.db.ConsistentEntries) : s'.db.ConsistentEntries ↔ s.db.KeepsNames s'.db := by
  rcases h.added_or with ⟨loaded, hadded⟩ | ⟨_, hcount, hentries⟩
  · exact hadded.consistentEntries_iff hw hconsistent
  · have hkeeps := h.keepsSymbols
    refine iff_of_true ?_ ?_
    · intro e he
      obtain ⟨key, hv, hdefines⟩ := hconsistent e (hentries e he)
      refine ⟨key, hv, fun id hid => ?_⟩
      have hdef := hdefines id hid
      exact (hkeeps.defines_iff hdef.lt_numSymbols).mpr hdef
    · intro id name k hid hname _
      have hlt := SymbolDb.lt_numSymbols_of_unversionedName hname
      rw [hcount] at hlt
      exact absurd hid (Nat.not_le.mpr hlt)

/-! ## Whole links -/

/-- From a state with consistent lists on. -/
theorem consistentEntries_iff_of_isChain {states : List LinkState} :
    ∀ {s : LinkState}, (s :: states).IsChain LinkStep → s.db.WellNamed → s.db.ConsistentEntries →
      ((∀ s' ∈ states, s'.db.ConsistentEntries) ↔
        (s :: states).IsChain (fun a b => a.db.KeepsNames b.db)) := by
  induction states with
  | nil => intro s _ _ _; simp
  | cons s' states ih =>
    intro s hchain hw hconsistent
    obtain ⟨hstep, hrest⟩ := List.isChain_cons_cons.mp hchain
    rw [List.isChain_cons_cons, List.forall_mem_cons, hstep.consistentEntries_iff hw hconsistent]
    refine and_congr_right (fun hnames => ?_)
    exact ih hrest (hstep.wellNamed hw) ((hstep.consistentEntries_iff hw hconsistent).mpr hnames)

/-- **The lists of a link**: in every chain of phases, all lists have the definitions of one name, and
    selection and duplicate reports stay among them, exactly if no batch defines a name that stands for a
    symbol of another name when the batch is added. -/
theorem entriesAgree_iff_keepsNames {args : Args} {outputKind : OutputKind}
    {versionScript : Option VersionScript} {states : List LinkState}
    (h : (LinkState.new args outputKind versionScript :: states).IsChain LinkStep) :
    (∀ s ∈ states, s.db.EntriesAgree) ↔
      (LinkState.new args outputKind versionScript :: states).IsChain (fun a b => a.db.KeepsNames b.db) := by
  have hempty : (LinkState.new args outputKind versionScript).db.ConsistentEntries := by
    intro e he
    rw [mem_alternativeEntries] at he
    rcases he with ⟨_, ⟨_, he⟩ | ⟨_, he⟩⟩ <;> exact absurd he List.not_mem_nil
  rw [← consistentEntries_iff_of_isChain h (SymbolDb.WellNamed.new args outputKind versionScript) hempty]
  exact forall₂_congr (fun s _ => ⟨fun hs => hs.entries, fun hs => hs.entriesAgree⟩)

/-! ## A wrapped name in the output of a plugin -/

/-- Options with `--wrap=foo`. -/
def wrapArgs : Args := { plainArgs with symbolNamesToWrap := [bytesOf "foo"] }

/-- An object that defines `foo` and `__wrap_foo`. -/
def wrapInputs : LoadedInputs :=
  { objects := [[{ symbols := [nullSymbol, { name := some (bytesOf "foo") },
      { name := some (bytesOf "__wrap_foo") }] }]] }

/-- An object that defines `foo`. -/
def fooOutput : LoadedInputs :=
  { objects := [[{ symbols := [nullSymbol, { name := some (bytesOf "foo") }] }]] }

/-- A state after one more batch, where that succeeds. -/
def LinkState.addOrSame (s : LinkState) (loaded : LoadedInputs) : LinkState :=
  match addInputs s.db s.flags loaded with
  | .ok (db, flags) => { s with db := db, flags := flags }
  | .error _ => s

/-- The states after the object, after `--wrap` and after the output of the plugin. -/
def wrapStates : List LinkState :=
  let first := (LinkState.new wrapArgs (.staticExecutable .nonRelocatable) none).addOrSame wrapInputs
  let wrapped := { first with db := first.db.applyWrappedSymbolOverrides }
  [first, wrapped, wrapped.addOrSame fooOutput]

theorem wrapStates_isChain :
    (LinkState.new wrapArgs (.staticExecutable .nonRelocatable) none :: wrapStates).IsChain LinkStep :=
  .cons_cons (.addInputs wrapInputs rfl) (.cons_cons .wrap (.cons_cons (.addInputs fooOutput rfl) (.singleton _)))

theorem entriesAgree_iff_keepsNames_witness :
    (∀ s ∈ wrapStates, s.db.EntriesAgree) ↔
      (LinkState.new wrapArgs (.staticExecutable .nonRelocatable) none :: wrapStates).IsChain
        (fun a b => a.db.KeepsNames b.db) :=
  entriesAgree_iff_keepsNames wrapStates_isChain

/-- **A list of two names**: the new `foo` is kept under `__wrap_foo`. -/
theorem wrapped_name_mixes_entries :
    ¬∀ (args : Args) (outputKind : OutputKind) (versionScript : Option VersionScript)
      (states : List LinkState),
      (LinkState.new args outputKind versionScript :: states).IsChain LinkStep →
        ∀ s ∈ states, s.db.EntriesAgree := by
  intro h
  have hagree := h _ _ _ _ wrapStates_isChain _
    (List.mem_cons_of_mem _ (List.mem_cons_of_mem _ List.mem_cons_self))
  -- symbol 3 is `__wrap_foo`, and symbol 5 is the new `foo`
  obtain ⟨key, hv, hdefines⟩ := hagree.entries ⟨0, false, 3, [5]⟩ (by decide)
  have hfirst := hdefines 3 List.mem_cons_self
  have hnew := hdefines 5 (List.mem_cons_of_mem _ List.mem_cons_self)
  cases key with
  | unversioned name =>
    -- a definer of the key has the name `name`
    exact absurd (hfirst.trans hnew.symm) (by decide)
  | versioned name version => exact absurd hv (by simp [PreHashedSymbolName.isVersioned])

end Reld
