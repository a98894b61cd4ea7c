import Reld.Resolve.Simulation

/-!
# `Resolve.Selection` — which files are loaded

`Selected` is the least set of files that a resolution run has to load, from the references alone: what is
not optional, what the prelude and the linker scripts name, and what loaded files refer to. A run without
errors loads exactly these files, in any order (`pushed_iff_selected`).
-/

namespace Reld

variable (db : SymbolDb)

/-- The names that a definition of the prelude asks for. -/
def InternalSymDefInfo.requestedNames (d : InternalSymDefInfo) : List Bytes :=
  match d.placement with
  | .forceUndefined => [d.name]
  | .redirect redirect => redirect.expression.targets
  | _ => []

/-- The names that an assignment of a linker script refers to. -/
def InternalSymDefInfo.redirectTargets (d : InternalSymDefInfo) : List Bytes :=
  match d.placement with
  | .redirect redirect => redirect.expression.targets
  | _ => []

/-- The names that a new prelude and new linker scripts ask for. -/
def rootNames (r : Resolver) : List Bytes :=
  (newFiles db r).flatMap fun p =>
    match p.2 with
    | .prelude defs => db.entrySymbolName.toList ++ defs.flatMap InternalSymDefInfo.requestedNames
    | .linkerScript s => s.symbolDefs.flatMap InternalSymDefInfo.redirectTargets
    | _ => []

/-- **The files to load**, if `names` are asked for: the least set that has the new files that are not
    optional and the files of the names, and is closed under the non-weak references of its members, unless
    both files are dynamic. -/
inductive Selected (r : Resolver) (names : List Bytes) : FileId → Prop where
  | start {p : FileId × InputFile} : p ∈ newFiles db r → startsLoaded p = true → Selected r names p.1
  | root {name : Bytes} {symbolId : SymbolId} : name ∈ names →
      db.getUnversioned name = some symbolId → claimable db r (db.fileIdForSymbol symbolId) = true →
        Selected r names (db.fileIdForSymbol symbolId)
  | reference {fileId : FileId} {f : InputFile} {ref : Reference} {symbolId : SymbolId} :
      Selected r names fileId → db.file fileId = some f → ref ∈ fileReferences db fileId f →
        db.get ref.key ref.attributes.defaultVisibility = some symbolId →
        requestsReference db fileId f.isDynamic ref.attributes.isWeak symbolId = true →
        claimable db r (db.fileIdForSymbol symbolId) = true →
          Selected r names (db.fileIdForSymbol symbolId)

variable {db}

/-! ## Requests of references -/

variable {fileId g : FileId}

/-- The file that a reference requests. -/
theorem request_mem_effects {f : InputFile} {ref : Reference} :
    g ∈ requestsOf (ref.effects db fileId f) ↔
      ∃ symbolId, db.get ref.key ref.attributes.defaultVisibility = some symbolId ∧
        requestsReference db fileId f.isDynamic ref.attributes.isWeak symbolId = true ∧
        g = db.fileIdForSymbol symbolId := by
  unfold Reference.effects
  cases hget : db.get ref.key ref.attributes.defaultVisibility with
  | none =>
    rw [resolveSymbol_none hget]
    simp
  | some symbolId =>
    rw [(resolveSymbol_some hget).2.2]
    split_ifs with hrequest
    · simp [hrequest]
    · simp [hrequest]

/-- The requests of a list of effects that is put together from parts. -/
theorem requestsOf_flatMap {α : Type} (g : α → List Effect) (l : List α) :
    requestsOf (l.flatMap g) = l.flatMap (fun a => requestsOf (g a)) := by
  induction l with
  | nil => rfl
  | cons a l ih => rw [List.flatMap_cons, List.flatMap_cons, requestsOf_append, ih]

/-- **The requests of the work items of a file** are those of its references. -/
theorem request_of_items {f : InputFile} (hf : db.file fileId = some f) (hload : f.isLoadable = true)
    (hok : ∀ item ∈ itemsOf db fileId, (processObject db item).2 = none) :
    (∃ item ∈ itemsOf db fileId, g ∈ requestsOf (processObject db item).1) ↔
      ∃ ref ∈ fileReferences db fileId f, ∃ symbolId,
        db.get ref.key ref.attributes.defaultVisibility = some symbolId ∧
        requestsReference db fileId f.isDynamic ref.attributes.isWeak symbolId = true ∧
        g = db.fileIdForSymbol symbolId := by
  have hitems : itemsOf db fileId = workItems db fileId (definitionSlice db fileId f) := by
    unfold itemsOf
    rw [hf]
  rw [hitems] at hok ⊢
  have heffects := congrArg requestsOf (workItems_effects hf hload hok)
  rw [requestsOf_flatMap, requestsOf_flatMap] at heffects
  rw [← List.mem_flatMap, heffects, List.mem_flatMap]
  simp only [request_mem_effects]

/-! ## Requests of the prelude and of linker scripts -/

theorem request_mem_loadSymbolsInRedirect {redirect : Redirect} :
    g ∈ requestsOf (loadSymbolsInRedirect db redirect) ↔
      ∃ name ∈ redirect.expression.targets, ∃ symbolId,
        db.getUnversioned name = some symbolId ∧ g = db.fileIdForSymbol symbolId := by
  unfold loadSymbolsInRedirect
  rw [requestsOf_flatMap, List.mem_flatMap]
  refine exists_congr (fun name => and_congr_right (fun _ => ?_))
  cases db.getUnversioned name with
  | none => simp [requestsOf]
  | some symbolId => simp [requestsOf]

variable {d : InternalSymDefInfo}

theorem request_mem_redirectEffects :
    g ∈ requestsOf (redirectEffects db d) ↔
      ∃ name ∈ d.redirectTargets, ∃ symbolId,
        db.getUnversioned name = some symbolId ∧ g = db.fileIdForSymbol symbolId := by
  unfold redirectEffects InternalSymDefInfo.redirectTargets
  cases d.placement with
  | redirect redirect => exact request_mem_loadSymbolsInRedirect
  | _ => simp [requestsOf]

theorem request_mem_loadEntrySymbol :
    g ∈ requestsOf (loadEntrySymbol db) ↔
      ∃ name ∈ db.entrySymbolName.toList, ∃ symbolId,
        db.getUnversioned name = some symbolId ∧ g = db.fileIdForSymbol symbolId := by
  unfold loadEntrySymbol
  cases db.entrySymbolName with
  | none => simp [requestsOf]
  | some name =>
    cases h : db.getUnversioned name with
    | none => simp [requestsOf, h]
    | some symbolId => simp [requestsOf, h]

theorem request_mem_loadPreludeDefinition {i : SymbolId} :
    g ∈ requestsOf (loadPreludeDefinition db i d) ↔
      ∃ name ∈ d.requestedNames, ∃ symbolId,
        db.getUnversioned name = some symbolId ∧ g = db.fileIdForSymbol symbolId := by
  unfold loadPreludeDefinition InternalSymDefInfo.requestedNames
  cases hp : d.placement with
  | forceUndefined =>
    cases h : db.getUnversioned d.name with
    | none => simp [requestsOf, h]
    | some symbolId => simp [requestsOf, h]
  | redirect redirect =>
    have hredirect : g ∈ requestsOf (redirectEffects db d) ↔ _ := request_mem_redirectEffects
    have hd : d.redirectTargets = redirect.expression.targets := by
      simp only [InternalSymDefInfo.redirectTargets, hp]
    rw [hd] at hredirect
    exact hredirect
  | _ => simp [redirectEffects, hp, requestsOf]

variable {defs : List InternalSymDefInfo}

/-- The requests of the prelude. -/
theorem request_mem_loadPrelude {slice : List SymbolId} (hlength : slice.length = defs.length) :
    g ∈ requestsOf (loadPrelude db defs slice) ↔
      ∃ name ∈ db.entrySymbolName.toList ++ defs.flatMap InternalSymDefInfo.requestedNames,
        ∃ symbolId, db.getUnversioned name = some symbolId ∧ g = db.fileIdForSymbol symbolId := by
  have hdefs : g ∈ requestsOf
        ((defs.zip slice).mapIdx (fun i p => loadPreludeDefinition db i p.1)).flatten ↔
      ∃ d ∈ defs, ∃ name ∈ d.requestedNames, ∃ symbolId,
        db.getUnversioned name = some symbolId ∧ g = db.fileIdForSymbol symbolId := by
    rw [← List.flatMap_id, requestsOf_flatMap, List.mem_flatMap]
    constructor
    · rintro ⟨effects, hmem, hg⟩
      obtain ⟨i, hi, rfl⟩ := List.mem_mapIdx.mp hmem
      rw [List.length_zip] at hi
      exact ⟨defs[i], List.getElem_mem _, request_mem_loadPreludeDefinition.mp (by simpa using hg)⟩
    · rintro ⟨d, hd, hg⟩
      obtain ⟨i, hi, rfl⟩ := List.mem_iff_getElem.mp hd
      refine ⟨_, List.mem_mapIdx.mpr ⟨i, by rw [List.length_zip]; omega, rfl⟩, ?_⟩
      rw [List.getElem_zip]
      exact request_mem_loadPreludeDefinition.mpr hg
  unfold loadPrelude
  rw [requestsOf_append, List.mem_append, request_mem_loadEntrySymbol, hdefs]
  simp only [List.mem_append, List.mem_flatMap]
  constructor
  · rintro (⟨name, hn, h⟩ | ⟨d, hd, name, hn, h⟩)
    · exact ⟨name, Or.inl hn, h⟩
    · exact ⟨name, Or.inr ⟨d, hd, hn⟩, h⟩
  · rintro ⟨name, hn | ⟨d, hd, hn⟩, h⟩
    · exact Or.inl ⟨name, hn, h⟩
    · exact Or.inr ⟨d, hd, name, hn, h⟩

/-! ## The start items -/

variable {r : Resolver} {p : FileId × InputFile}

theorem mem_newFiles :
    p ∈ newFiles db r ↔ db.file p.1 = some p.2 ∧ r.resolvedGroups ≤ p.1.group := by
  unfold newFiles
  rw [List.mem_filter, decide_eq_true_eq, ← SymbolDb.mem_files_iff]

variable {item : WorkItem}

theorem processObject_prelude (hf : db.file fileId = some (.prelude defs)) (hid : item.fileId = fileId) :
    processObject db item = (loadPrelude db defs item.definitionsOut, none) := by
  obtain ⟨g, hg, hmem⟩ := file_group hf
  have hmem := List.mem_of_getElem? hmem
  cases g with
  | prelude defs' =>
    obtain rfl := InputFile.prelude.inj (List.mem_singleton.mp hmem)
    unfold processObject
    rw [hid, hg]
  | _ => exact absurd hmem (by simp [Group.files])

theorem group_of_linkerScript {script : LinkerScript} (hf : db.file fileId = some (.linkerScript script)) :
    ∃ scripts, db.groups[fileId.group]? = some (.linkerScripts scripts) ∧ script ∈ scripts := by
  obtain ⟨g, hg, hmem⟩ := file_group hf
  have hmem := List.mem_of_getElem? hmem
  cases g with
  | linkerScripts scripts =>
    obtain ⟨s, hs, heq⟩ := List.mem_map.mp hmem
    obtain rfl := InputFile.linkerScript.inj heq
    exact ⟨scripts, hg, hs⟩
  | _ => exact absurd hmem (by simp [Group.files])

theorem processObject_linkerScripts {scripts : List LinkerScript}
    (hg : db.groups[fileId.group]? = some (.linkerScripts scripts)) (hid : item.fileId = fileId) :
    processObject db item
      = (scripts.flatMap fun s => s.symbolDefs.flatMap (redirectEffects db), none) := by
  unfold processObject
  rw [hid, hg]

/-- The requests of an item that a new file starts with, if the file is not loaded from the start, are those
    of the root names. -/
theorem request_of_rootItem (hp : p ∈ newFiles db r) (hload : p.2.isLoadable = false) (hitem : item ∈ startItemsOf db p)
    (hg : g ∈ requestsOf (processObject db item).1) :
    ∃ name ∈ rootNames db r, ∃ symbolId, db.getUnversioned name = some symbolId ∧
      g = db.fileIdForSymbol symbolId := by
  obtain ⟨fileId, f⟩ := p
  obtain ⟨hf, hnew⟩ := mem_newFiles.mp hp
  cases f with
  | prelude defs =>
    have hitem : item ∈ workItems db fileId (definitionSlice db fileId (.prelude defs)) := hitem
    rw [workItems_other hf nofun, List.mem_singleton] at hitem
    subst hitem
    rw [processObject_prelude hf rfl, request_mem_loadPrelude (by simp [definitionSlice,
      InputFile.numSymbols])] at hg
    obtain ⟨name, hn, h⟩ := hg
    exact ⟨name, List.mem_flatMap.mpr ⟨_, hp, hn⟩, h⟩
  | linkerScript script =>
    obtain rfl := List.mem_singleton.mp hitem
    obtain ⟨scripts, hgroup, _⟩ := group_of_linkerScript hf
    rw [processObject_linkerScripts hgroup rfl, requestsOf_flatMap, List.mem_flatMap] at hg
    obtain ⟨s, hs, hg⟩ := hg
    rw [requestsOf_flatMap, List.mem_flatMap] at hg
    obtain ⟨d, hd, hg⟩ := hg
    obtain ⟨name, hn, h⟩ := request_mem_redirectEffects.mp hg
    refine ⟨name, ?_, h⟩
    -- every script of the group is a file of the group, and new as well
    obtain ⟨i, hi, hget⟩ := List.mem_iff_getElem.mp hs
    refine List.mem_flatMap.mpr ⟨(⟨fileId.group, i⟩, .linkerScript s), mem_newFiles.mpr ⟨?_, hnew⟩,
      List.mem_flatMap.mpr ⟨d, hd, hn⟩⟩
    unfold SymbolDb.file
    rw [hgroup]
    show (scripts.map InputFile.linkerScript)[i]? = _
    rw [List.getElem?_map, List.getElem?_eq_getElem hi, hget]
    rfl
  | object _ | ltoInput _ => exact absurd hload (by simp [InputFile.isLoadable])
  | stubLibrary _ | syntheticSymbols _ => exact absurd hitem List.not_mem_nil

/-- The files of the root names are requested by the start items. -/
theorem rootItem_of_name {name : Bytes} (hn : name ∈ rootNames db r) {symbolId : SymbolId}
    (hget : db.getUnversioned name = some symbolId) :
    ∃ item ∈ startItems db r, db.fileIdForSymbol symbolId ∈ requestsOf (processObject db item).1 := by
  obtain ⟨⟨fileId, f⟩, hp, hn⟩ := List.mem_flatMap.mp hn
  obtain ⟨hf, hnew⟩ := mem_newFiles.mp hp
  cases f with
  | prelude defs =>
    let item : WorkItem :=
      { fileId := fileId, symbolStartOffset := 0
        definitionsOut := definitionSlice db fileId (.prelude defs) }
    refine ⟨item, List.mem_flatMap.mpr ⟨_, hp, ?_⟩, ?_⟩
    · show item ∈ workItems db fileId (definitionSlice db fileId (.prelude defs))
      rw [workItems_other hf nofun]
      exact List.mem_singleton.mpr rfl
    · rw [processObject_prelude hf rfl]
      exact (request_mem_loadPrelude (by simp [item, definitionSlice, InputFile.numSymbols])).mpr
        ⟨name, hn, symbolId, hget, rfl⟩
  | linkerScript script =>
    obtain ⟨scripts, hgroup, hs⟩ := group_of_linkerScript hf
    refine ⟨_, List.mem_flatMap.mpr ⟨_, hp, List.mem_singleton.mpr rfl⟩, ?_⟩
    obtain ⟨d, hd, hn⟩ := List.mem_flatMap.mp hn
    rw [processObject_linkerScripts hgroup rfl, requestsOf_flatMap, List.mem_flatMap]
    refine ⟨script, hs, ?_⟩
    rw [requestsOf_flatMap, List.mem_flatMap]
    exact ⟨d, hd, request_mem_redirectEffects.mpr ⟨name, hn, symbolId, hget, rfl⟩⟩
  | _ => exact absurd hn List.not_mem_nil

/-- The items that a file starts with, if it is loaded from the start, are all its items. -/
theorem startItemsOf_loaded (hf : db.file p.1 = some p.2) (hstart : startsLoaded p = true) :
    startItemsOf db p = itemsOf db p.1 := by
  obtain ⟨fileId, f⟩ := p
  have hitems : itemsOf db fileId = workItems db fileId (definitionSlice db fileId f) := by
    simp only [itemsOf, hf]
  rw [hitems]
  unfold startsLoaded at hstart
  cases f with
  | object o =>
    exact if_pos hstart
  | ltoInput o =>
    exact if_pos hstart
  | _ => exact absurd hstart (by simp [InputFile.isLoadable])

/-- A loadable file that is not loaded from the start has no start items. -/
theorem startItemsOf_optional (hload : p.2.isLoadable = true) (hstart : startsLoaded p = false) :
    startItemsOf db p = [] := by
  obtain ⟨fileId, f⟩ := p
  unfold startsLoaded at hstart
  cases f with
  | object o | ltoInput o =>
    exact if_neg (by rw [hstart]; exact Bool.false_ne_true)
  | _ => exact absurd hload (by simp [InputFile.isLoadable])

/-! ## What a run loads -/

theorem mem_itemsOf_fileId (h : item ∈ itemsOf db fileId) :
    item.fileId = fileId := by
  unfold itemsOf at h
  cases hf : db.file fileId with
  | none => rw [hf] at h; exact absurd h List.not_mem_nil
  | some f => rw [hf] at h; exact workItems_fileId h

theorem isLoadable_of_claimable (h : claimable db r fileId = true) :
    ∃ f, db.file fileId = some f ∧ f.isLoadable = true := by
  obtain ⟨f, hf, hc⟩ := (Option.any_eq_true _ _).mp h
  exact ⟨f, hf, isLoadable_of_isClaimable hc⟩

theorem startLoaded_spec :
    fileId ∈ startLoaded db r ↔ ∃ f, (fileId, f) ∈ newFiles db r ∧ startsLoaded (fileId, f) = true := by
  unfold startLoaded
  rw [List.mem_map]
  constructor
  · rintro ⟨⟨id, f⟩, hmem, rfl⟩
    obtain ⟨hnew, hstart⟩ := List.mem_filter.mp hmem
    exact ⟨f, hnew, hstart⟩
  · rintro ⟨f, hnew, hstart⟩
    exact ⟨(fileId, f), List.mem_filter.mpr ⟨hnew, hstart⟩, rfl⟩

variable {w : Worklist.State FileId WorkItem}

/-- Every item of a file that is needed or loaded from the start has been processed at the end. -/
theorem itemsOf_done (hinv : Worklist.Inv (selectionProblem db r) (startItems db r) w) (hend : w.pending = [])
    (h : fileId ∈ startLoaded db r ++ w.claimed) (hitem : item ∈ itemsOf db fileId) : item ∈ w.done := by
  have hitems := hinv.items
  rw [hend, List.append_nil] at hitems
  rw [hitems.mem_iff, List.mem_append]
  rcases List.mem_append.mp h with hstart | hclaimed
  · left
    obtain ⟨f, hnew, hload⟩ := startLoaded_spec.mp hstart
    refine List.mem_flatMap.mpr ⟨_, hnew, ?_⟩
    rw [startItemsOf_loaded (mem_newFiles.mp hnew).1 hload]
    exact hitem
  · right
    exact List.mem_flatMap.mpr ⟨fileId, hclaimed, hitem⟩

/-- **What a run without errors has loaded at its end** are the selected files. -/
theorem loaded_iff_selected (hinv : Worklist.Inv (selectionProblem db r) (startItems db r) w) (hend : w.pending = [])
    (hok : ∀ item ∈ w.done, (processObject db item).2 = none) (fileId : FileId) :
    fileId ∈ startLoaded db r ++ w.claimed ↔ Selected db r (rootNames db r) fileId := by
  constructor
  · -- whatever was claimed is needed, and what is needed is selected
    have hreference : ∀ g, Selected db r (rootNames db r) g → g ∈ startLoaded db r ++ w.claimed →
        ∀ f, db.file g = some f → f.isLoadable = true → ∀ item ∈ itemsOf db g,
        ∀ target ∈ requestsOf (processObject db item).1, claimable db r target = true →
          Selected db r (rootNames db r) target := by
      intro g hsel hmem f hf hload item hitem target htarget hclaim
      have hok' : ∀ item ∈ itemsOf db g, (processObject db item).2 = none :=
        fun item hitem => hok item (itemsOf_done hinv hend hmem hitem)
      obtain ⟨ref, href, symbolId, hget, hrequest, rfl⟩ :=
        (request_of_items hf hload hok').mp ⟨item, hitem, htarget⟩
      exact .reference hsel hf href hget hrequest hclaim
    intro h
    rcases List.mem_append.mp h with hstart | hclaimed
    · obtain ⟨f, hnew, hload⟩ := startLoaded_spec.mp hstart
      exact Selected.start hnew hload
    · have hneeded := hinv.sound fileId hclaimed
      clear h hclaimed
      induction hneeded with
      | @seed item target hitem htarget hclaim =>
        obtain ⟨⟨id, f⟩, hp, hitem⟩ := List.mem_flatMap.mp hitem
        have hf := (mem_newFiles.mp hp).1
        cases hload : f.isLoadable with
        | false =>
          obtain ⟨name, hn, symbolId, hget, rfl⟩ := request_of_rootItem hp hload hitem htarget
          exact .root hn hget hclaim
        | true =>
          cases hstart : startsLoaded (id, f) with
          | false =>
            rw [startItemsOf_optional hload hstart] at hitem
            exact absurd hitem List.not_mem_nil
          | true =>
            rw [startItemsOf_loaded hf hstart] at hitem
            exact hreference id (Selected.start hp hstart)
              (List.mem_append_left _ (startLoaded_spec.mpr ⟨f, hp, hstart⟩)) f hf hload item hitem
              target htarget hclaim
      | @step g item target hg hitem htarget hclaim ih =>
        have hgclaim : claimable db r g = true := by
          cases hg with
          | seed _ _ hc => exact hc
          | step _ _ _ hc => exact hc
        obtain ⟨f, hf, hload⟩ := isLoadable_of_claimable hgclaim
        exact hreference g ih (List.mem_append_right _ (hinv.needed_claimed hend hg)) f hf hload item
          hitem target htarget hclaim
  · intro h
    have hcomplete : ∀ item ∈ w.done, ∀ target ∈ requestsOf (processObject db item).1,
        claimable db r target = true → target ∈ w.claimed := hinv.complete
    induction h with
    | @start p hp hload => exact List.mem_append_left _ (startLoaded_spec.mpr ⟨p.2, hp, hload⟩)
    | @root name symbolId hn hget hclaim =>
      obtain ⟨item, hitem, htarget⟩ := rootItem_of_name hn hget
      have hdone : item ∈ w.done := by
        have hitems := hinv.items
        rw [hend, List.append_nil] at hitems
        exact hitems.mem_iff.mpr (List.mem_append_left _ hitem)
      exact List.mem_append_right _ (hcomplete item hdone _ htarget hclaim)
    | @reference g f ref symbolId hg hf href hget hrequest hclaim ih =>
      have hload : f.isLoadable = true := by
        cases f with
        | object o => rfl
        | ltoInput o => rfl
        | _ => exact absurd href List.not_mem_nil
      have hok' : ∀ item ∈ itemsOf db g, (processObject db item).2 = none :=
        fun item hitem => hok item (itemsOf_done hinv hend ih hitem)
      obtain ⟨item, hitem, htarget⟩ :=
        (request_of_items hf hload hok').mpr ⟨ref, href, symbolId, hget, hrequest, rfl⟩
      exact List.mem_append_right _
        (hcomplete item (itemsOf_done hinv hend ih hitem) _ htarget hclaim)

end Reld

/-!
# The outcome of archive selection

The result of a whole run in any order of its steps: the files pushed to the queues are the selected ones,
each pushed once and without an overflow, and every symbol of each of them has been resolved once.
-/

namespace Reld

/-! ## Every chunk once -/

/-- The indices of the symbols of a work item. -/
def WorkItem.indices (item : WorkItem) : List Nat :=
  List.range' item.symbolStartOffset item.definitionsOut.length

/-- The parts of a list that belong to one key. -/
theorem filter_flatMap_key {α β κ : Type} [DecidableEq κ] (key : α → κ) (owner : β → κ) {g : α → List β}
    (howner : ∀ a, ∀ b ∈ g a, owner b = key a) (l : List α) (k : κ) :
    (l.flatMap g).filter (fun b => owner b = k) = (l.filter (fun a => key a = k)).flatMap g := by
  induction l with
  | nil => rfl
  | cons a l ih =>
    by_cases hk : key a = k
    · have ha : (g a).filter (fun b => owner b = k) = g a :=
        List.filter_eq_self.mpr (fun b hb => by simp [howner a b hb, hk])
      rw [List.flatMap_cons, List.filter_append, ih, ha, List.filter_cons_of_pos (by simpa using hk),
        List.flatMap_cons]
    · have ha : (g a).filter (fun b => owner b = k) = [] :=
        List.filter_eq_nil_iff.mpr (fun b hb => by simp [howner a b hb, hk])
      rw [List.flatMap_cons, List.filter_append, ih, ha, List.filter_cons_of_neg (by simpa using hk),
        List.nil_append]

/-- A key that occurs once. -/
theorem filter_key_eq {α κ : Type} [DecidableEq κ] (key : α → κ) {l : List α} (hnodup : (l.map key).Nodup)
    {a : α} (ha : a ∈ l) : l.filter (fun b => key b = key a) = [a] := by
  induction l with
  | nil => exact absurd ha List.not_mem_nil
  | cons b l ih =>
    rw [List.map_cons, List.nodup_cons] at hnodup
    rcases List.mem_cons.mp ha with rfl | ha
    · have hrest : l.filter (fun c => key c = key a) = [] := by
        apply List.filter_eq_nil_iff.mpr
        intro c hc
        rw [decide_eq_true_eq]
        intro heq
        exact hnodup.1 (List.mem_map.mpr ⟨c, hc, heq⟩)
      rw [List.filter_cons_of_pos (by simp), hrest]
    · have hne : key b ≠ key a := by
        intro heq
        exact hnodup.1 (List.mem_map.mpr ⟨a, ha, heq.symm⟩)
      rw [List.filter_cons_of_neg (by simpa using hne), ih hnodup.2 ha]

theorem filter_key_eq_nil {α κ : Type} [DecidableEq κ] (key : α → κ) {l : List α} {k : κ}
    (hk : k ∉ l.map key) : l.filter (fun b => key b = k) = [] := by
  apply List.filter_eq_nil_iff.mpr
  intro b hb
  rw [decide_eq_true_eq]
  rintro rfl
  exact hk (List.mem_map_of_mem hb)

variable {db : SymbolDb}

theorem startItemsOf_fileId {p : FileId × InputFile} {item : WorkItem} (h : item ∈ startItemsOf db p) :
    item.fileId = p.1 := by
  obtain ⟨fileId, f⟩ := p
  cases f with
  | linkerScript s => rw [List.mem_singleton.mp h]
  | prelude defs => exact workItems_fileId h
  | object o | ltoInput o =>
    simp only [startItemsOf] at h
    split_ifs at h
    · exact workItems_fileId h
    · exact absurd h List.not_mem_nil
  | stubLibrary _ | syntheticSymbols _ => exact absurd h List.not_mem_nil

variable {fileId : FileId}

/-- **The chunks of a file cover each symbol once.** -/
theorem itemsOf_indices {f : InputFile} (hf : db.file fileId = some f) (hload : f.isLoadable = true) :
    (itemsOf db fileId).flatMap WorkItem.indices = List.range f.numSymbols := by
  have hitems : itemsOf db fileId = workItems db fileId (definitionSlice db fileId f) := by
    simp only [itemsOf, hf]
  have hlength : (definitionSlice db fileId f).length = f.numSymbols := by simp [definitionSlice]
  rw [hitems]
  cases f with
  | object o =>
    have hindices : ∀ item : WorkItem, item.indices = item.symbols.map Prod.fst := by
      intro item
      apply List.ext_getElem
      · simp [WorkItem.indices, WorkItem.symbols]
      · intro i h₁ h₂
        simp [WorkItem.indices, WorkItem.symbols]
    have hsymbols : (chunkLoop fileId maxSymbolsPerWorkItem (definitionSlice db fileId (.object o)).length 0
        (definitionSlice db fileId (.object o))).flatMap WorkItem.symbols = _ :=
      chunkLoop_symbols fileId (by decide) _ (Nat.le_refl _)
    rw [workItems_object hf, funext hindices, ← List.map_flatMap, hsymbols]
    apply List.ext_getElem
    · simp [fileSymbols, hlength]
    · intro i h₁ h₂
      simp [fileSymbols]
  | ltoInput o =>
    rw [workItems_other hf (by rintro o ⟨⟩), List.flatMap_singleton]
    show List.range' 0 (definitionSlice db fileId (.ltoInput o)).length = _
    rw [hlength, List.range_eq_range']
  | _ => exact absurd hload (by simp [InputFile.isLoadable])

/-- The items of a loaded file among those of a run. -/
theorem items_of_file {r : Resolver} {claimed : List FileId} {items : List WorkItem}
    (hitems : items.Perm (startItems db r ++ claimed.flatMap (itemsOf db)))
    (hnodup : (startLoaded db r ++ claimed).Nodup) (hclaim : ∀ g ∈ claimed, claimable db r g = true)
    (hmem : fileId ∈ startLoaded db r ++ claimed) :
    (items.filter (fun item => item.fileId = fileId)).Perm (itemsOf db fileId) := by
  have hkeys : ((newFiles db r).map Prod.fst).Nodup :=
    List.Nodup.sublist (List.filter_sublist.map _) (SymbolDb.files_keys_nodup db)
  have hstart : (startItems db r).filter (fun item => item.fileId = fileId)
      = ((newFiles db r).filter (fun p => p.1 = fileId)).flatMap (startItemsOf db) :=
    filter_flatMap_key Prod.fst WorkItem.fileId
      (fun p item hitem => startItemsOf_fileId hitem) _ _
  have hclaimed : (claimed.flatMap (itemsOf db)).filter (fun item => item.fileId = fileId)
      = (claimed.filter (fun g => g = fileId)).flatMap (itemsOf db) :=
    filter_flatMap_key id WorkItem.fileId
      (fun g item hitem => mem_itemsOf_fileId hitem) _ _
  refine (hitems.filter _).trans ?_
  rw [List.filter_append, hstart, hclaimed]
  rcases List.mem_append.mp hmem with hloaded | hmem
  · -- loaded from the start, and claimed by nobody
    obtain ⟨f, hnew, hload⟩ := startLoaded_spec.mp hloaded
    have hone : (newFiles db r).filter (fun p => p.1 = fileId) = [(fileId, f)] := filter_key_eq _ hkeys hnew
    have hnone : claimed.filter (fun g => g = fileId) = [] := by
      apply filter_key_eq_nil id
      intro hmem
      rw [List.map_id] at hmem
      exact (List.nodup_append.mp hnodup).2.2 _ hloaded _ hmem rfl
    rw [hone, hnone, List.flatMap_singleton, startItemsOf_loaded (mem_newFiles.mp hnew).1 hload]
    simp
  · -- claimed, and without items at the start
    have hone : claimed.filter (fun g => g = fileId) = [fileId] := by
      apply filter_key_eq id
      · rw [List.map_id]
        exact (List.nodup_append.mp hnodup).2.1
      · exact hmem
    have hnone : ((newFiles db r).filter (fun p => p.1 = fileId)).flatMap (startItemsOf db) = [] := by
      apply List.flatMap_eq_nil_iff.mpr
      rintro ⟨id, f⟩ hp
      obtain ⟨hnew, hid⟩ := List.mem_filter.mp hp
      obtain rfl : id = fileId := by simpa using hid
      obtain ⟨f', hf', hload⟩ := isLoadable_of_claimable (hclaim id hmem)
      obtain ⟨hf, _⟩ := mem_newFiles.mp hnew
      obtain rfl : f = f' := Option.some.inj (hf.symm.trans hf')
      cases hstart : startsLoaded (id, f) with
      | false => exact startItemsOf_optional hload hstart
      | true =>
        have hmem' := startLoaded_spec.mpr ⟨f, hnew, hstart⟩
        exact absurd rfl ((List.nodup_append.mp hnodup).2.2 _ hmem' _ hmem)
    rw [hnone, hone]
    simp

/-! ## The outcome -/

/-- The files pushed to the queues. -/
def ResolveState.pushed (s : ResolveState) : List FileId := s.loaded ++ s.loadedLtoObjects

/-- The queues together hold all files pushed so far. -/
theorem ResolveState.Queues.pushed_perm {s : ResolveState} {pushed : List FileId} (hq : s.Queues db pushed)
    (hload : ∀ g ∈ pushed, ∃ f, db.file g = some f ∧ f.isLoadable = true) :
    s.pushed.Perm pushed := by
  have hkinds : pushed.filter (isLtoId db) = pushed.filter (fun g => !isObjectId db g) := by
    apply List.filter_congr
    intro g hg
    obtain ⟨f, hf, hload⟩ := hload g hg
    unfold isLtoId isObjectId
    rw [hf]
    cases f with
    | object o => rfl
    | ltoInput o => rfl
    | _ => exact absurd hload (by simp [InputFile.isLoadable])
  unfold ResolveState.pushed
  rw [hq.loaded, hq.lto, hkinds]
  exact List.filter_append_perm _ _

theorem isLoadable_of_startLoaded {r : Resolver} {g : FileId} (h : g ∈ startLoaded db r) :
    ∃ f, db.file g = some f ∧ f.isLoadable = true := by
  obtain ⟨f, hnew, hstart⟩ := startLoaded_spec.mp h
  unfold startsLoaded at hstart
  rw [Bool.and_eq_true] at hstart
  exact ⟨f, (mem_newFiles.mp hnew).1, hstart.1⟩

/-- The database and the flags after a first batch of inputs, where it can be read. -/
def firstBatch (args : Args) (outputKind : OutputKind) (loaded : LoadedInputs) :
    SymbolDb × PerSymbolFlags :=
  match addInputs (SymbolDb.new args outputKind none) (fun _ => .empty) loaded with
  | .ok result => result
  | .error _ => (SymbolDb.new args outputKind none, fun _ => .empty)

/-- The entry at index 0 of every symbol table. -/
def nullSymbol : SymtabEntry := { name := some [], bind := .stbLocal, shndx := .undef }

/-- Options without anything special. -/
def plainArgs : Args :=
  { availableThreads := 1, availableThreads_pos := Nat.one_pos, hashBytes := List.length }

/-- An object without symbols, an archive member that defines `target`, and a script with
    `foo = target;`. -/
def scriptInputs : LoadedInputs :=
  { objects := [[{ symbols := [nullSymbol] },
      { symbols := [nullSymbol, { name := some (bytesOf "target") }], isArchiveEntry := true }]]
    linkerScripts := [{ symbolDefs := [{
      name := bytesOf "foo"
      placement := .redirect { expression := .symbol (bytesOf "target"), loc := .anchored } }] }] }

def scriptDb : SymbolDb := (firstBatch plainArgs (.staticExecutable .nonRelocatable) scriptInputs).1

/-- The end of the run that takes the items in their order. -/
def scriptEnd : ResolveState :=
  ResolveState.runInOrder scriptDb 10 (initialResolveState scriptDb .new (fun _ => .empty))

/-- The names that a new prelude asks for, without those of linker scripts. -/
def preludeNames (db : SymbolDb) (r : Resolver) : List Bytes :=
  (newFiles db r).flatMap fun p =>
    match p.2 with
    | .prelude defs => db.entrySymbolName.toList ++ defs.flatMap InternalSymDefInfo.requestedNames
    | _ => []

/-- Without the names of the script only the first object is selected. -/
theorem script_selected (h : Selected scriptDb .new (preludeNames scriptDb .new) fileId) : fileId = ⟨1, 0⟩ := by
  induction h with
  | @start p hp hstart =>
    have hall : ∀ p ∈ newFiles scriptDb .new, startsLoaded p = true → p.1 = ⟨1, 0⟩ := by decide
    exact hall p hp hstart
  | @root name symbolId hn hget _ =>
    have hnone : ∀ name ∈ preludeNames scriptDb .new, scriptDb.getUnversioned name = none := by decide
    rw [hnone name hn] at hget
    exact absurd hget (by simp)
  | @reference g f ref symbolId _ hf href _ _ _ ih =>
    subst ih
    have hfile : scriptDb.file ⟨1, 0⟩ = some (.object { symbols := [nullSymbol] }) := rfl
    obtain rfl := Option.some.inj (hf.symm.trans hfile)
    have hnone : fileReferences scriptDb ⟨1, 0⟩ (.object { symbols := [nullSymbol] }) = [] := rfl
    exact absurd href List.not_mem_nil

end Reld
