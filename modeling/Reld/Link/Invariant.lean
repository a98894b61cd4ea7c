import Reld.Link.Run

/-!
# `Link.Invariant` — what holds in every state of a link

`LinkInv` collects what the phases keep: the buckets are well named, symbols that a file defines stay
defined, records are about symbols that their files do not define, and the flags tell the symbols of shared
libraries, which no phase makes local or non-interposable.
-/

variable {id : SymbolId} {key : PreHashedSymbolName}

namespace Reld

/-! ## What a lookup finds -/

namespace SymbolDb

variable {db : SymbolDb}

/-- A symbol selected outside of shared libraries is a candidate that is in none of them. -/
theorem selectNonDynamic_some {candidates : List SymbolId} (h : db.selectNonDynamic candidates = some id) :
    id ∈ candidates ∧ db.isDynamicSymbol id = false := by
  apply List.foldlRecOn candidates _
    (motive := fun s : SymbolPrioritySelector => ∀ c, s.Holds c → c ∈ candidates ∧ db.isDynamicSymbol c = false) _ _ id
    (SymbolPrioritySelector.holds_of_best h)
  · exact fun c hc => absurd hc (SymbolPrioritySelector.not_holds_new c)
  · -- the selector only ever holds such candidates
    intro s hs alt halt c hc
    cases hloc : db.locate alt with
    | none =>
      rw [hloc] at hc
      exact hs c hc
    | some p =>
      rw [hloc] at hc
      simp only at hc
      split_ifs at hc with hdyn
      · exact hs c hc
      · rcases SymbolPrioritySelector.holds_consider hc with hc | rfl
        · exact hs c hc
        · refine ⟨halt, ?_⟩
          unfold isDynamicSymbol
          rw [hloc]
          simpa using hdyn

/-- A lookup finds what the maps hold, or something that is kept under it. -/
theorem get_cases {allowDynamic : Bool} (h : db.get key allowDynamic = some id) :
    (db.lookup key = some id ∧ (allowDynamic = false → db.isDynamicSymbol id = false)) ∨
      (allowDynamic = false ∧ db.isDynamicSymbol id = false ∧ ∃ b k, id ∈ db.keptUnder false b k) := by
  have hallow : ∀ (b : Nat) (k : SymbolId), db.lookup key = some k →
      db.allowOrReplace (db.buckets b) allowDynamic k = some id →
      (db.lookup key = some id ∧ (allowDynamic = false → db.isDynamicSymbol id = false)) ∨
        (allowDynamic = false ∧ db.isDynamicSymbol id = false ∧ ∃ b k, id ∈ db.keptUnder false b k) := by
    intro b k hk hid
    unfold allowOrReplace at hid
    by_cases hskip : (!allowDynamic && db.isDynamicSymbol k) = true
    · rw [if_pos hskip] at hid
      right
      have hallow : allowDynamic = false := by
        have := (Bool.and_eq_true_iff.mp hskip).1
        simpa using this
      obtain ⟨l, hl, hselect⟩ := Option.bind_eq_some_iff.mp hid
      obtain ⟨hmem, hdyn⟩ := selectNonDynamic_some hselect
      refine ⟨hallow, hdyn, b, k, ?_⟩
      show id ∈ ((db.buckets b).names.alternatives.lookup k).getD []
      rw [hl]
      exact hmem
    · rw [if_neg hskip] at hid
      obtain rfl := Option.some.inj hid
      refine Or.inl ⟨hk, fun hallow => ?_⟩
      rw [hallow] at hskip
      simpa using hskip
  cases key with
  | unversioned name | versioned name version =>
    obtain ⟨k, hk, hid⟩ := Option.bind_eq_some_iff.mp h
    exact hallow _ k hk hid

/-- References that are not of default visibility never find a symbol of a shared library. -/
theorem get_false_not_dynamic (h : db.get key false = some id) : db.isDynamicSymbol id = false := by
  rcases get_cases h with ⟨_, hdyn⟩ | ⟨_, hdyn, _⟩
  · exact hdyn rfl
  · exact hdyn

end SymbolDb

/-! ## The invariant -/

/-- What holds in every state of a link. -/
structure LinkInv (s : LinkState) : Prop where
  wellNamed : s.db.WellNamed
  /-- Symbol 0 is the undefined symbol, which has no name and belongs to the prelude. -/
  zero : s.db.groups = [] ∨
    ∃ fileId defs, s.db.locate 0 = some ((fileId, .prelude defs), 0) ∧ ∀ key, ¬s.db.Defines key 0
  definitions : ∀ id, s.db.definesSymbol id = true →
    s.db.definesSymbol (s.db.symbolDefinitions id) = true ∧ (id ≠ 0 → s.db.symbolDefinitions id ≠ 0)
  records : ∀ u ∈ s.resolver.undefinedSymbols,
    u.symbolId < s.db.numSymbols ∧ s.db.definesSymbol u.symbolId = false
  dynamic : ∀ id < s.db.numSymbols, (s.flags id).contains .dynamic = s.db.isDynamicSymbol id
  library : ∀ id < s.db.numSymbols, s.db.isDynamicSymbol id = true →
    (s.flags id).contains .nonInterposable = false ∧ (s.flags id).contains .downgradeToLocal = false

theorem SymbolDb.lt_numSymbols_of_definesSymbol {db : SymbolDb} (h : db.definesSymbol id = true) :
    id < db.numSymbols := by
  rw [← SymbolDb.locate_isSome_iff]
  unfold SymbolDb.definesSymbol at h
  cases hloc : db.locate id with
  | none => rw [hloc] at h; exact absurd h (by simp)
  | some p => rfl

namespace LinkInv

theorem new (args : Args) (outputKind : OutputKind) (versionScript : Option VersionScript) :
    LinkInv (.new args outputKind versionScript) := by
  refine ⟨.new args outputKind versionScript, Or.inl rfl, ?_, ?_, ?_, ?_⟩
  · intro id h
    have hlt := SymbolDb.lt_numSymbols_of_definesSymbol h
    exact absurd hlt (Nat.not_lt_zero id)
  · intro u hu
    exact absurd hu List.not_mem_nil
  · intro id hid
    exact absurd hid (Nat.not_lt_zero id)
  · intro id hid
    exact absurd hid (Nat.not_lt_zero id)

variable {s s' : LinkState}

/-- A named symbol is not symbol 0. -/
theorem ne_zero_of_defines (h : LinkInv s) (hdefines : s.db.Defines key id) : id ≠ 0 := by
  rintro rfl
  rcases h.zero with hnil | ⟨_, _, _, hzero⟩
  · have hcount : s.db.numSymbols = 0 := by
      unfold SymbolDb.numSymbols SymbolDb.files
      rw [hnil]
      rfl
    exact absurd hdefines.lt_numSymbols (by rw [hcount]; exact Nat.lt_irrefl 0)
  · exact hzero key hdefines

/-- A reference is not at a symbol that its file defines. -/
theorem not_definesSymbol_of_resolves (h : LinkInv s) {fileId : FileId} {f : InputFile} {ref : Reference}
    (href : ResolutionOutcome.Resolves s.db s.resolver fileId f ref) :
    ref.symbolId < s.db.numSymbols ∧ s.db.definesSymbol ref.symbolId = false := by
  obtain ⟨index, hloc, hundefined⟩ := reference_locate href.file href.mem
  have hlt := SymbolDb.locate_isSome_iff.mp (Option.isSome_of_eq_some hloc)
  refine ⟨hlt, ?_⟩
  have hdefines : s.db.definesSymbol ref.symbolId = f.definesSymbol index := by
    unfold SymbolDb.definesSymbol
    rw [hloc]
  rcases hundefined with hzero | hfalse
  · by_contra hnot
    have hdef : s.db.definesSymbol ref.symbolId = true := by simpa using hnot
    by_cases hid : ref.symbolId = 0
    · -- symbol 0 is one of the prelude, which has no references
      rcases h.zero with hnil | ⟨fileId', defs, hprelude, _⟩
      · have hf := href.file
        unfold SymbolDb.file at hf
        rw [hnil] at hf
        exact absurd hf (by simp)
      · rw [hid, hprelude] at hloc
        have hf : InputFile.prelude defs = f := congrArg (fun x => x.1.2) (Option.some.inj hloc)
        have hmem := href.mem
        rw [← hf] at hmem
        exact absurd hmem List.not_mem_nil
    · exact (h.definitions _ hdef).2 hid hzero
  · rw [hdefines]
    exact hfalse

/-! ### The steps -/

/-- Symbol 0 stays where it is. -/
theorem zero_step (h : LinkInv s) (hstep : LinkStep s s') :
    s'.db.groups = [] ∨
      ∃ fileId defs, s'.db.locate 0 = some ((fileId, .prelude defs), 0) ∧ ∀ key, ¬s'.db.Defines key 0 := by
  have hkeeps := hstep.keepsSymbols
  rcases h.zero with hnil | ⟨fileId, defs, hloc, hzero⟩
  · rcases hstep.added_or with ⟨loaded, hadded⟩ | ⟨hgroups, _⟩
    · -- the first batch brings the prelude
      right
      obtain ⟨gs, hnew, hgs⟩ := newGroups_of_empty loaded hnil
      have hgroups := hadded.groups
      rw [hnil, List.nil_append, hnew] at hgroups
      have hloc := (preludeFirst_of_groups hgroups hgs (Nat.succ_pos _)).locate_lt 0 (Nat.succ_pos _)
      refine ⟨_, _, hloc, ?_⟩
      intro key hdefines
      cases key with
      | unversioned name =>
        have hname : s'.db.unversionedName 0 = some name := hdefines
        unfold SymbolDb.unversionedName at hname
        rw [hloc] at hname
        exact absurd hname (by simp [InputFile.unversionedName, preludeDefinitions, InternalSymDefInfo.isNamed])
      | versioned name version =>
        have hname : s'.db.versionedName 0 = some (name, version) := hdefines
        unfold SymbolDb.versionedName at hname
        rw [hloc] at hname
        exact absurd hname (by simp [InputFile.versionedName])
    · exact Or.inl (hgroups hnil)
  · have hlt := SymbolDb.locate_isSome_iff.mp (Option.isSome_of_eq_some hloc)
    refine Or.inr ⟨fileId, defs, ?_, fun key hdefines => hzero key ((hkeeps.defines_iff hlt).mp hdefines)⟩
    rcases hkeeps.locate 0 hlt with heq | heq
    · rw [heq, hloc]
    · rw [heq, hloc]
      rfl

/-- A phase that leaves the definitions of defined symbols alone, or replaces them by named symbols. -/
theorem definitions_of_cases (h : LinkInv s) (hkeeps : KeepsSymbols s.db s'.db)
    (hcount : s'.db.numSymbols = s.db.numSymbols)
    (hcases : ∀ id, s.db.definesSymbol id = true →
      s'.db.symbolDefinitions id = s.db.symbolDefinitions id ∨
        ∃ key, s.db.Defines key (s'.db.symbolDefinitions id)) :
    ∀ id, s'.db.definesSymbol id = true →
      s'.db.definesSymbol (s'.db.symbolDefinitions id) = true ∧ (id ≠ 0 → s'.db.symbolDefinitions id ≠ 0) := by
  intro id hid
  have hlt := SymbolDb.lt_numSymbols_of_definesSymbol hid
  rw [hcount] at hlt
  rw [hkeeps.definesSymbol hlt] at hid
  have hnew : ∀ {k : SymbolId}, s.db.definesSymbol k = true → s'.db.definesSymbol k = true := by
    intro k hk
    rw [hkeeps.definesSymbol (SymbolDb.lt_numSymbols_of_definesSymbol hk)]
    exact hk
  rcases hcases id hid with hsame | ⟨key, hdefines⟩
  · rw [hsame]
    exact ⟨hnew (h.definitions id hid).1, (h.definitions id hid).2⟩
  · exact ⟨hnew hdefines.definesSymbol, fun _ => h.ne_zero_of_defines hdefines⟩

theorem definitions_step (h : LinkInv s) (hstep : LinkStep s s') :
    ∀ id, s'.db.definesSymbol id = true →
      s'.db.definesSymbol (s'.db.symbolDefinitions id) = true ∧ (id ≠ 0 → s'.db.symbolDefinitions id ≠ 0) := by
  have hkeeps := hstep.keepsSymbols
  cases hstep with
  | addInputs loaded hadd =>
    have hadded := addInputs_spec hadd
    intro id hid
    by_cases hlt : id < s.db.numSymbols
    · rw [hkeeps.definesSymbol hlt] at hid
      obtain ⟨hdef, hne⟩ := h.definitions id hid
      rw [hadded.oldDefinitions id hlt, hkeeps.definesSymbol (SymbolDb.lt_numSymbols_of_definesSymbol hdef)]
      exact ⟨hdef, hne⟩
    · -- a new symbol starts as its own definition
      rw [hadded.newDefinitions id (Nat.not_lt.mp hlt) (SymbolDb.lt_numSymbols_of_definesSymbol hid),
        if_pos hid]
      exact ⟨hid, fun hne => hne⟩
  | wrap =>
    have hmoved := namesMoved_applyWrappedSymbolOverrides s.db
    have hsame : SameFiles s.db s.db.applyWrappedSymbolOverrides := ⟨hmoved.groups⟩
    exact h.definitions_of_cases hkeeps hsame.numSymbols
      (fun id _ => Or.inl (congrFun hmoved.symbolDefinitions id))
  | resolve hresolve =>
    obtain ⟨_, _, hout⟩ := hresolve.outcome
    refine h.definitions_of_cases hkeeps (by rw [hout.db_eq]; rfl) ?_
    intro id hid
    rcases hout.definition_cases id with ⟨hsame, _⟩ | hforce | ⟨fileId, f, ref, href, rfl, _⟩
    · exact Or.inl hsame
    · obtain ⟨_, _, d, _, _, _, hlookup⟩ := hforce
      have hlookup : s.db.lookup (.unversioned d.name) = some _ := hlookup
      exact Or.inr (h.wellNamed.defines_of_lookup hlookup)
    · rw [(h.not_definesSymbol_of_resolves href).2] at hid
      exact absurd hid Bool.false_ne_true
  | alternatives halt =>
    have hsame : SameFiles s.db _ := ⟨halt.frame.2.2.1⟩
    refine h.definitions_of_cases hkeeps hsame.numSymbols ?_
    intro id _
    rcases halt.definitions id with ⟨heq, _⟩ | ⟨e, he, _, hselect⟩
    · exact Or.inl heq
    · right
      obtain ⟨_, hne, hkept⟩ := h.wellNamed.mem_alternativeEntries.mp he
      obtain ⟨alt, hmem⟩ := List.exists_mem_of_ne_nil _ hne
      rcases List.mem_cons.mp (selectSymbol_mem hselect) with hfirst | hselected
      · rw [hfirst]
        exact (h.wellNamed.kept _ _ _ _ (hkept ▸ hmem)).1
      · exact (h.wellNamed.kept _ _ _ _ (hkept ▸ hselected)).2
  | markWrapped => exact h.definitions
  | disableLto =>
    exact h.definitions_of_cases hkeeps s.db.numSymbols_disableLtoInputs (fun id _ => Or.inl rfl)
  | rustVersionScript _ => exact h.definitions

theorem records_step (h : LinkInv s) (hstep : LinkStep s s') :
    ∀ u ∈ s'.resolver.undefinedSymbols,
      u.symbolId < s'.db.numSymbols ∧ s'.db.definesSymbol u.symbolId = false := by
  have hkeeps := hstep.keepsSymbols
  have hold : ∀ {id : SymbolId}, id < s.db.numSymbols ∧ s.db.definesSymbol id = false →
      id < s'.db.numSymbols ∧ s'.db.definesSymbol id = false := by
    rintro id ⟨hlt, hdef⟩
    exact ⟨Nat.lt_of_lt_of_le hlt hkeeps.count, (hkeeps.definesSymbol hlt).trans hdef⟩
  cases hstep with
  | resolve hresolve =>
    obtain ⟨_, _, hout⟩ := hresolve.outcome
    intro u hu
    rcases hout.mem_undefined.mp hu with hu | ⟨fileId, f, ref, href, hrecord⟩
    · exact hold (h.records u hu)
    · rw [(Reference.record_some hrecord).1]
      exact hold (h.not_definesSymbol_of_resolves href)
  | _ => exact fun u hu => hold (h.records u hu)

/-- **No phase makes a symbol of a shared library local or non-interposable**, and the flags keep telling
    these symbols. -/
theorem flags_step (h : LinkInv s) (hstep : LinkStep s s') :
    (∀ id < s'.db.numSymbols, (s'.flags id).contains .dynamic = s'.db.isDynamicSymbol id) ∧
      ∀ id < s'.db.numSymbols, s'.db.isDynamicSymbol id = true →
        (s'.flags id).contains .nonInterposable = false ∧
          (s'.flags id).contains .downgradeToLocal = false := by
  have hkeeps := hstep.keepsSymbols
  -- where no symbol is added, it is enough to look at each flag of each symbol
  have hsame : s'.db.numSymbols = s.db.numSymbols →
      (∀ id, (s'.flags id).contains .dynamic = (s.flags id).contains .dynamic) →
      (∀ id < s.db.numSymbols, s.db.isDynamicSymbol id = true →
        (s'.flags id).contains .nonInterposable = false ∧
          (s'.flags id).contains .downgradeToLocal = false) →
      (∀ id < s'.db.numSymbols, (s'.flags id).contains .dynamic = s'.db.isDynamicSymbol id) ∧
        ∀ id < s'.db.numSymbols, s'.db.isDynamicSymbol id = true →
          (s'.flags id).contains .nonInterposable = false ∧
            (s'.flags id).contains .downgradeToLocal = false := by
    intro hcount hdynamic hlibrary
    refine ⟨?_, ?_⟩
    · intro id hid
      rw [hcount] at hid
      rw [hdynamic, hkeeps.isDynamicSymbol hid]
      exact h.dynamic id hid
    · intro id hid hdyn
      rw [hcount] at hid
      rw [hkeeps.isDynamicSymbol hid] at hdyn
      exact hlibrary id hid hdyn
  cases hstep with
  | addInputs loaded hadd =>
    have hadded := addInputs_spec hadd
    refine ⟨?_, ?_⟩
    · intro id hid
      by_cases hlt : id < s.db.numSymbols
      · rw [hkeeps.isDynamicSymbol hlt, ← h.dynamic id hlt]
        exact congrArg (fun f => ValueFlags.contains f .dynamic) (hadded.oldFlags id hlt)
      · exact hadded.newFlags id (Nat.not_lt.mp hlt) hid
    · intro id hid hdyn
      by_cases hlt : id < s.db.numSymbols
      · rw [hkeeps.isDynamicSymbol hlt] at hdyn
        have hflags := h.library id hlt hdyn
        rw [← hadded.oldFlags id hlt] at hflags
        exact hflags
      · exact hadded.libraryFlags id (Nat.not_lt.mp hlt) hid hdyn
  | wrap =>
    have hmoved := namesMoved_applyWrappedSymbolOverrides s.db
    have hfiles : SameFiles s.db s.db.applyWrappedSymbolOverrides := ⟨hmoved.groups⟩
    exact hsame hfiles.numSymbols (fun _ => rfl) h.library
  | @resolve db' flags' r' hresolve =>
    obtain ⟨_, _, hout⟩ := hresolve.outcome
    refine hsame (by rw [hout.db_eq]; rfl) hout.flags_dynamic ?_
    intro id hid hdyn
    have hclean : ∀ x, x ≠ .hasNonIrRef → (s.flags id).contains x = false →
        (flags' id).contains x = false := by
      intro x hx hold
      by_contra hnot
      rcases (hout.flags_iff id x).mp (by simpa using hnot) with hset | ⟨heq, _⟩ |
        ⟨fileId, f, ref, _, hget, ⟨_, heq⟩ | ⟨hvis, _⟩⟩
      · rw [hold] at hset
        exact absurd hset Bool.false_ne_true
      · exact hx heq
      · exact hx heq
      · -- such a reference does not find a symbol of a library
        rw [hvis] at hget
        rw [SymbolDb.get_false_not_dynamic hget] at hdyn
        exact absurd hdyn Bool.false_ne_true
    exact ⟨hclean _ (by decide) (h.library id hid hdyn).1, hclean _ (by decide) (h.library id hid hdyn).2⟩
  | @alternatives db' flags' halt =>
    have hfiles : SameFiles s.db _ := ⟨halt.frame.2.2.1⟩
    refine hsame hfiles.numSymbols ?_ ?_
    · intro id
      rw [Bool.eq_iff_iff, halt.flags_iff]
      refine ⟨fun hset => ?_, Or.inl⟩
      rcases hset with hset | ⟨_, e, _, _, hx⟩
      · exact hset
      · cases hv : entryVisibility s.db e <;> rw [hv] at hx <;> exact absurd hx (by decide)
    · intro id hid hdyn
      have hflag := (h.dynamic id hid).trans hdyn
      have hclean : ∀ x, (s.flags id).contains x = false → (flags' id).contains x = false := by
        intro x hold
        by_contra hnot
        rcases (halt.flags_iff id x).mp (by simpa using hnot) with hset | ⟨hnone, _⟩
        · rw [hold] at hset
          exact absurd hset Bool.false_ne_true
        · rw [hflag] at hnone
          exact absurd hnone (by simp)
      exact ⟨hclean _ (h.library id hid hdyn).1, hclean _ (h.library id hid hdyn).2⟩
  | markWrapped =>
    have hflags : ∀ id x, x ≠ .hasNonIrRef → (markWrapSymbolsAsNonIrRef s.db s.flags id).contains x
        = (s.flags id).contains x := by
      intro id x hx
      rw [Bool.eq_iff_iff, markWrapSymbolsAsNonIrRef_contains]
      exact or_iff_left (fun h => hx h.1)
    refine hsame rfl (fun id => hflags id _ (by decide)) ?_
    intro id hid hdyn
    rw [hflags id _ (by decide), hflags id _ (by decide)]
    exact h.library id hid hdyn
  | disableLto => exact hsame s.db.numSymbols_disableLtoInputs (fun _ => rfl) h.library
  | @rustVersionScript global _ =>
    have hdowngrade : ∀ id, (upgradeExported s.db global s.flags id).contains .downgradeToLocal = true →
        (s.flags id).contains .downgradeToLocal = true :=
      fun id h => ((upgradeExported_contains s.db global s.flags id _).mp h).1
    have hother : ∀ id x, x ≠ .downgradeToLocal → (upgradeExported s.db global s.flags id).contains x
        = (s.flags id).contains x := by
      intro id x hx
      rw [Bool.eq_iff_iff, upgradeExported_contains]
      exact and_iff_left (fun h => absurd h hx)
    refine hsame rfl (fun id => ?_) ?_
    · unfold handleRustVersionScript
      simp only
      split_ifs
      · rw [ValueFlags.contains_union, hother id _ (by decide)]
        simp
      · exact hother id _ (by decide)
    · intro id hid hdyn
      obtain ⟨hinterposable, hlocal⟩ := h.library id hid hdyn
      have hnot : (upgradeExported s.db global s.flags id).contains .downgradeToLocal = false := by
        by_contra hset
        rw [hdowngrade id (by simpa using hset)] at hlocal
        exact absurd hlocal (by simp)
      have heq : handleRustVersionScript s.db global s.flags id = upgradeExported s.db global s.flags id := by
        unfold handleRustVersionScript
        simp [hnot]
      show (handleRustVersionScript s.db global s.flags id).contains _ = false ∧
        (handleRustVersionScript s.db global s.flags id).contains _ = false
      rw [heq, hother id _ (by decide)]
      exact ⟨hinterposable, hnot⟩

/-- **Every phase keeps the invariant.** -/
theorem step (h : LinkInv s) (hstep : LinkStep s s') : LinkInv s' :=
  ⟨hstep.wellNamed h.wellNamed, h.zero_step hstep, h.definitions_step hstep, h.records_step hstep,
    (h.flags_step hstep).1, (h.flags_step hstep).2⟩

/-- **Every state of a link** has it. -/
theorem of_isChain {states : List LinkState} :
    ∀ {s : LinkState}, (s :: states).IsChain LinkStep → LinkInv s → ∀ s' ∈ s :: states, LinkInv s' := by
  induction states with
  | nil =>
    intro s _ h s' hs'
    rw [List.mem_singleton.mp hs']
    exact h
  | cons next states ih =>
    intro s hchain h s' hs'
    obtain ⟨hstep, hrest⟩ := List.isChain_cons_cons.mp hchain
    rcases List.mem_cons.mp hs' with rfl | hs'
    · exact h
    · exact ih hrest (h.step hstep) s' hs'

end LinkInv

end Reld
