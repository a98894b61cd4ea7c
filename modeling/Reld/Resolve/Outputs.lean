import Reld.Resolve.Selection

/-!
# `Resolve.Outputs` — the tables after a resolution run

The outputs of a run without errors are those of the effects of the prelude and the linker scripts, and of
the references of the selected files, in some order (`ResolvesTo.spec`). What the order may change is
little: every slot of the definitions is written at most once, flags are only added, and the records of
undefined symbols are sorted later.
-/

namespace Reld

/-! ## Effects, one after another -/

/-- The flags that an effect may put on a symbol, and whether it does so for dynamic symbols. -/
def Effect.flagsOn (e : Effect) (id : SymbolId) : List Flag × Bool :=
  match e with
  | .orFlags i l => if i = id then (l, true) else ([], true)
  | .orFlagsUnlessDynamic i l => if i = id then (l, false) else ([], true)
  | _ => ([], true)

/-- No effect makes a symbol dynamic. -/
def Effect.KeepsDynamic (e : Effect) : Prop := ∀ id, Flag.dynamic ∉ (e.flagsOn id).1

theorem apply_flags (out : ResolveOutputs) (e : Effect) (id : SymbolId) (x : Flag) :
    ((out.apply e).flags id).contains x = true ↔
      (out.flags id).contains x = true ∨
        (x ∈ (e.flagsOn id).1 ∧ ((e.flagsOn id).2 = true ∨ (out.flags id).contains .dynamic = false)) := by
  cases e with
  | orFlags i l =>
    simp only [ResolveOutputs.apply, Effect.flagsOn, setFlags, Function.update_apply]
    by_cases h : id = i
    · simp [h]
    · simp [h, Ne.symm h]
  | orFlagsUnlessDynamic i l =>
    simp only [ResolveOutputs.apply, Effect.flagsOn]
    by_cases h : id = i
    · subst h
      cases hdyn : (out.flags id).contains .dynamic <;> simp [setFlags]
    · rw [if_neg (Ne.symm h)]
      cases hdyn : (out.flags i).contains .dynamic <;> simp [setFlags, h]
  | _ => simp [ResolveOutputs.apply, Effect.flagsOn]

theorem apply_dynamic {out : ResolveOutputs} {e : Effect} (he : e.KeepsDynamic) (id : SymbolId) :
    ((out.apply e).flags id).contains .dynamic = (out.flags id).contains .dynamic := by
  have h := apply_flags out e id .dynamic
  have hnot := he id
  cases ha : ((out.apply e).flags id).contains .dynamic <;>
    cases hb : (out.flags id).contains .dynamic <;> simp_all

/-- **Flags after some effects**: the old ones, and those of the effects, where the guarded effects leave
    dynamic symbols alone. -/
theorem foldl_apply_flags (effects : List Effect) :
    ∀ {out : ResolveOutputs}, (∀ e ∈ effects, e.KeepsDynamic) → ∀ (id : SymbolId) (x : Flag),
      ((effects.foldl ResolveOutputs.apply out).flags id).contains x = true ↔
        (out.flags id).contains x = true ∨
          ∃ e ∈ effects, x ∈ (e.flagsOn id).1 ∧
            ((e.flagsOn id).2 = true ∨ (out.flags id).contains .dynamic = false) := by
  induction effects with
  | nil => intro out _ id x; simp
  | cons e effects ih =>
    intro out hkeep id x
    have he := hkeep e List.mem_cons_self
    rw [List.foldl_cons, ih (fun e' he' => hkeep e' (List.mem_cons_of_mem _ he')), apply_flags,
      apply_dynamic he]
    simp [or_assoc]

theorem apply_definitions (out : ResolveOutputs) (e : Effect) (id : SymbolId) :
    ((out.apply e).definitions id = out.definitions id ∧ ∀ k, e ≠ .define id k) ∨
      ∃ k, e = .define id k ∧ (out.apply e).definitions id = k := by
  cases e with
  | define i k =>
    by_cases h : i = id
    · subst h
      exact Or.inr ⟨k, rfl, Function.update_self _ _ _⟩
    · refine Or.inl ⟨Function.update_of_ne (Ne.symm h) _ _, ?_⟩
      intro k' heq
      injection heq with hi
      exact h hi
  | orFlagsUnlessDynamic i l =>
    refine Or.inl ⟨?_, fun k h => absurd h (by simp)⟩
    simp only [ResolveOutputs.apply]
    split_ifs <;> rfl
  | _ => exact Or.inl ⟨rfl, fun k h => absurd h (by simp)⟩

/-- **Definitions after some effects**: a slot has its old value, or one that was written to it. -/
theorem foldl_apply_definitions (effects : List Effect) :
    ∀ (out : ResolveOutputs) (id : SymbolId),
      ((effects.foldl ResolveOutputs.apply out).definitions id = out.definitions id ∧
          ∀ k, Effect.define id k ∉ effects) ∨
        ∃ k, Effect.define id k ∈ effects ∧
          (effects.foldl ResolveOutputs.apply out).definitions id = k := by
  induction effects with
  | nil => intro out id; exact Or.inl ⟨rfl, fun k => List.not_mem_nil⟩
  | cons e effects ih =>
    intro out id
    rcases ih (out.apply e) id with ⟨hsame, hnone⟩ | ⟨k, hk, hvalue⟩
    · rcases apply_definitions out e id with ⟨hsame', hnone'⟩ | ⟨k, rfl, hvalue'⟩
      · left
        refine ⟨hsame.trans hsame', ?_⟩
        intro k hk
        rcases List.mem_cons.mp hk with heq | hk
        · exact hnone' k heq.symm
        · exact hnone k hk
      · exact Or.inr ⟨k, List.mem_cons_self, hsame.trans hvalue'⟩
    · exact Or.inr ⟨k, List.mem_cons_of_mem _ hk, hvalue⟩

theorem apply_undefined {out : ResolveOutputs} {e : Effect} :
    (out.apply e).undefinedSymbols = out.undefinedSymbols ++ undefinedOf [e] := by
  cases e with
  | orFlagsUnlessDynamic i l =>
    simp only [ResolveOutputs.apply]
    split_ifs <;> simp [undefinedOf]
  | _ => simp [ResolveOutputs.apply, undefinedOf]

/-- The records after some effects. -/
theorem foldl_apply_undefined (effects : List Effect) :
    ∀ out : ResolveOutputs, (effects.foldl ResolveOutputs.apply out).undefinedSymbols
      = out.undefinedSymbols ++ undefinedOf effects := by
  induction effects with
  | nil => intro out; simp [undefinedOf]
  | cons e effects ih =>
    intro out
    have hcons : undefinedOf (e :: effects) = undefinedOf [e] ++ undefinedOf effects :=
      undefinedOf_append [e] effects
    rw [List.foldl_cons, ih, apply_undefined, hcons, List.append_assoc]

/-! ## The effects of a run -/

variable (db : SymbolDb)

/-- The effects of the new prelude and the new linker scripts. -/
def rootEffects (r : Resolver) : List Effect :=
  ((newFiles db r).filter (fun p => !p.2.isLoadable)).flatMap
    (fun p => (startItemsOf db p).flatMap (fun w => (processObject db w).1))

/-- The effects of the references of a file. -/
def referenceEffects (fileId : FileId) : List Effect :=
  match db.file fileId with
  | some f => (fileReferences db fileId f).flatMap (Reference.effects db fileId f)
  | none => []

variable {db}

theorem itemsOf_effects {fileId : FileId} (hload : ∃ f, db.file fileId = some f ∧ f.isLoadable = true)
    (hok : ∀ item ∈ itemsOf db fileId, (processObject db item).2 = none) :
    (itemsOf db fileId).flatMap (fun w => (processObject db w).1) = referenceEffects db fileId := by
  obtain ⟨f, hf, hload⟩ := hload
  have hitems : itemsOf db fileId = workItems db fileId (definitionSlice db fileId f) := by
    simp only [itemsOf, hf]
  rw [hitems] at hok ⊢
  unfold referenceEffects
  rw [hf]
  exact workItems_effects hf hload hok

/-- A list of files, split by whether they can be loaded. -/
theorem flatMap_filter_perm {α β : Type} (p : α → Bool) (g : α → List β) (l : List α) :
    (l.flatMap g).Perm ((l.filter (fun a => !p a)).flatMap g ++ (l.filter p).flatMap g) := by
  have hperm : l.Perm (l.filter (fun a => !p a) ++ l.filter p) :=
    (List.filter_append_perm p l).symm.trans List.perm_append_comm
  have h := hperm.flatMap_right g
  rwa [List.flatMap_append] at h

/-- The effects of the start items: those of the prelude and the scripts, and those of the files that are
    loaded from the start. -/
theorem startItems_effects {r : Resolver}
    (hok : ∀ item ∈ startItems db r, (processObject db item).2 = none) :
    ((startItems db r).flatMap (fun w => (processObject db w).1)).Perm
      (rootEffects db r ++ (startLoaded db r).flatMap (referenceEffects db)) := by
  have hsplit := flatMap_filter_perm (fun p : FileId × InputFile => p.2.isLoadable)
    (fun p => (startItemsOf db p).flatMap (fun w => (processObject db w).1)) (newFiles db r)
  have hloaded : ((newFiles db r).filter (fun p => p.2.isLoadable)).flatMap
        (fun p => (startItemsOf db p).flatMap (fun w => (processObject db w).1))
      = (startLoaded db r).flatMap (referenceEffects db) := by
    have hmem : ∀ p ∈ newFiles db r, p.2.isLoadable = true →
        (startItemsOf db p).flatMap (fun w => (processObject db w).1)
          = if startsLoaded p then referenceEffects db p.1 else [] := by
      intro p hp hload
      have hf := (mem_newFiles.mp hp).1
      split_ifs with hstart
      · have hitems := startItemsOf_loaded hf hstart
        rw [hitems]
        apply itemsOf_effects ⟨p.2, hf, hload⟩
        intro item hitem
        exact hok item (List.mem_flatMap.mpr ⟨p, hp, hitems ▸ hitem⟩)
      · rw [startItemsOf_optional hload (by simpa using hstart)]
        rfl
    have hall : ∀ l : List (FileId × InputFile), (∀ p ∈ l, p ∈ newFiles db r) →
        (l.filter (fun p => p.2.isLoadable)).flatMap
            (fun p => (startItemsOf db p).flatMap (fun w => (processObject db w).1))
          = ((l.filter startsLoaded).map Prod.fst).flatMap (referenceEffects db) := by
      intro l
      induction l with
      | nil => intro _; rfl
      | cons p l ih =>
        intro hl
        have hrest := ih (fun q hq => hl q (List.mem_cons_of_mem _ hq))
        have hp := hmem p (hl p List.mem_cons_self)
        cases hload : p.2.isLoadable with
        | false =>
          have hstart : startsLoaded p = false := by simp [startsLoaded, hload]
          rw [List.filter_cons_of_neg (by simp [hload]), List.filter_cons_of_neg (by simp [hstart])]
          exact hrest
        | true =>
          rw [List.filter_cons_of_pos (p := fun p : FileId × InputFile => p.2.isLoadable) hload,
            List.flatMap_cons, hp hload, hrest]
          cases hstart : startsLoaded p with
          | true =>
            rw [List.filter_cons_of_pos hstart, List.map_cons, List.flatMap_cons, if_pos rfl]
          | false =>
            rw [List.filter_cons_of_neg (by simp [hstart]), if_neg Bool.false_ne_true]
            rfl
    exact hall _ (fun p hp => hp)
  unfold startItems
  rw [List.flatMap_assoc]
  rw [hloaded] at hsplit
  exact hsplit

/-! ## What a run leaves -/

/-- What a resolution run without errors leaves, in terms of the files it loaded and of the effects that were
    carried out, in some order. -/
structure ResolutionOutcome (db : SymbolDb) (flags : PerSymbolFlags) (r : Resolver)
    (db' : SymbolDb) (flags' : PerSymbolFlags) (r' : Resolver) (loaded : List FileId)
    (effects : List Effect) : Prop where
  nodup : loaded.Nodup
  loaded_iff : ∀ fileId, fileId ∈ loaded ↔ Selected db r (rootNames db r) fileId
  effects_perm : effects.Perm (rootEffects db r ++ loaded.flatMap (referenceEffects db))
  db_eq : db' = { db with symbolDefinitions := db'.symbolDefinitions }
  definitions : db'.symbolDefinitions = (effects.foldl ResolveOutputs.apply
    { definitions := db.symbolDefinitions, flags := flags, undefinedSymbols := [] }).definitions
  flags : flags' = (effects.foldl ResolveOutputs.apply
    { definitions := db.symbolDefinitions, flags := flags, undefinedSymbols := [] }).flags
  undefinedSymbols : r'.undefinedSymbols = r.undefinedSymbols ++ undefinedOf effects
  loaded_perm : r'.loaded.Perm (r.loaded ++ loaded)
  resolvedGroups : r'.resolvedGroups = db.groups.length

/-- **The specification of `resolve_symbols_and_select_archive_entries`.** -/
theorem ResolvesTo.outcome {flags flags' : PerSymbolFlags} {r r' : Resolver} {db' : SymbolDb}
    (h : ResolvesTo db flags r (db', flags', r')) :
    ∃ loaded effects, ResolutionOutcome db flags r db' flags' r' loaded effects := by
  obtain ⟨s, hends, herr, _, hresult⟩ := h.ends
  obtain ⟨rfl, hrest⟩ := Prod.mk.inj hresult
  obtain ⟨rfl, rfl⟩ := Prod.mk.inj hrest
  obtain ⟨items, hrun⟩ := exists_processes db hends.run
  obtain ⟨w, hw, hdone, hsim⟩ := processes_simulates hrun
  have hinv := Worklist.inv_run (Worklist.inv_initial (P := selectionProblem db r) (startItems db r)) hw
  have hend : w.pending = [] := hsim.pending ▸ hends.pending_nil
  obtain ⟨hout, herrors⟩ := processes_outputs db hrun
  have hok : ∀ item ∈ w.done, (processObject db item).2 = none := by
    rw [hdone]
    exact (herrors.mp herr).2
  obtain ⟨_, _, _, hstart, _⟩ := initialResolveState_spec db r flags
  have hload : ∀ g ∈ startLoaded db r ++ w.claimed, ∃ f, db.file g = some f ∧ f.isLoadable = true := by
    intro g hg
    rcases List.mem_append.mp hg with hg | hg
    · exact isLoadable_of_startLoaded hg
    · cases hinv.sound g hg with
      | seed _ _ hc => exact isLoadable_of_claimable hc
      | step _ _ _ hc => exact isLoadable_of_claimable hc
  have hpushed : (s.loaded ++ s.loadedLtoObjects).Perm (startLoaded db r ++ w.claimed) :=
    hsim.queues.pushed_perm hload
  refine ⟨startLoaded db r ++ w.claimed, items.flatMap (fun w => (processObject db w).1), hsim.nodup,
    loaded_iff_selected hinv hend hok, ?_, rfl, ?_, ?_, ?_, ?_, rfl⟩
  · -- the items of the run are the start items and those of the claimed files
    have hitems := hinv.items
    rw [hend, List.append_nil, hdone] at hitems
    have hstartOk : ∀ item ∈ startItems db r, (processObject db item).2 = none := by
      intro item hitem
      apply hok item
      rw [hdone]
      exact hitems.mem_iff.mpr (List.mem_append_left _ hitem)
    have hstartItems := startItems_effects hstartOk
    have hclaimed : (w.claimed.flatMap (itemsOf db)).flatMap (fun w => (processObject db w).1)
        = w.claimed.flatMap (referenceEffects db) := by
      rw [List.flatMap_assoc]
      apply List.flatMap_congr
      intro g hg
      apply itemsOf_effects (hload g (List.mem_append_right _ hg))
      intro item hitem
      exact hok item (itemsOf_done hinv hend (List.mem_append_right _ hg) hitem)
    have hperm := hitems.flatMap_right (fun w => (processObject db w).1)
    rw [List.flatMap_append] at hperm
    have hproblem : (selectionProblem db r).items = itemsOf db := rfl
    rw [hproblem, hclaimed] at hperm
    rw [List.flatMap_append, ← List.append_assoc]
    exact hperm.trans (hstartItems.append_right _)
  · show s.outputs.definitions = _
    rw [hout, hstart]
  · show s.outputs.flags = _
    rw [hout, hstart]
  · show r.undefinedSymbols ++ s.outputs.undefinedSymbols = _
    rw [hout, hstart, foldl_apply_undefined]
    rfl
  · show (r.loaded ++ s.loaded ++ s.loadedLtoObjects).Perm _
    rw [List.append_assoc]
    exact hpushed.append_left _

end Reld
