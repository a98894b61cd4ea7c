import Mathlib.Data.List.Perm.Subperm
import Reld.Db.Tables
import Reld.Resolve.References

/-!
# `Resolve.Simulation` — a resolution run as a worklist

`resolve_symbols_and_select_archive_entries` is an instance of `Worklist`: the targets are the files whose
slice can be taken, the items are chunks of symbols, and the requests of an item are those among its
effects. `Simulates` relates the two states; `processes_simulates` carries it through a run in any order,
together with the outputs. The queues never overflow, since every file is pushed once.
-/

namespace Reld

variable (db : SymbolDb)

/-! ## Runs with their items -/

/-- A run that processes the given items, in this order. -/
inductive Processes : ResolveState → List WorkItem → ResolveState → Prop where
  | refl (s : ResolveState) : Processes s [] s
  | tail {s s' : ResolveState} {items pre post : List WorkItem} {item : WorkItem} :
      Processes s items s' → s'.pending = pre ++ item :: post →
        Processes s (items ++ [item]) (({ s' with pending := pre ++ post }).processItem db item)

variable {s : ResolveState}

/-- Every run processes some items. -/
theorem exists_processes {s' : ResolveState} (h : Relation.ReflTransGen (ResolveState.Step db) s s') :
    ∃ items, Processes db s items s' := by
  induction h with
  | refl => exact ⟨[], .refl s⟩
  | tail _ hstep ih =>
    obtain ⟨items, hrun⟩ := ih
    obtain ⟨pre, item, post, hpending, rfl⟩ := hstep
    exact ⟨items ++ [item], .tail hrun hpending⟩

/-! ## Outputs and errors -/

namespace ResolveState

@[simp] theorem pushLoaded_outputs (s : ResolveState) (fileId : FileId) :
    (s.pushLoaded db fileId).outputs = s.outputs ∧ (s.pushLoaded db fileId).error = s.error := by
  unfold pushLoaded
  split_ifs <;> exact ⟨rfl, rfl⟩

@[simp] theorem pushLoadedLto_outputs (s : ResolveState) (fileId : FileId) :
    (s.pushLoadedLto db fileId).outputs = s.outputs ∧ (s.pushLoadedLto db fileId).error = s.error := by
  unfold pushLoadedLto
  split_ifs <;> exact ⟨rfl, rfl⟩

theorem workItemsDo_outputs (s : ResolveState) (fileId : FileId) (defs : List SymbolId) :
    (s.workItemsDo db fileId defs).outputs = s.outputs ∧ (s.workItemsDo db fileId defs).error = s.error := by
  unfold workItemsDo
  split
  · exact pushLoaded_outputs db s fileId
  · exact pushLoadedLto_outputs db s fileId
  · exact ⟨rfl, rfl⟩

theorem tryRequestFileId_outputs (s : ResolveState) (fileId : FileId) :
    (s.tryRequestFileId db fileId).outputs = s.outputs ∧ (s.tryRequestFileId db fileId).error = s.error := by
  unfold tryRequestFileId
  split
  · exact ⟨rfl, rfl⟩
  · exact workItemsDo_outputs db _ fileId _

/-- An effect acts on the outputs as `ResolveOutputs.apply` says. -/
theorem applyEffect_outputs (s : ResolveState) (e : Effect) :
    (s.applyEffect db e).outputs = s.outputs.apply e ∧ (s.applyEffect db e).error = s.error := by
  cases e with
  | request fileId => exact tryRequestFileId_outputs db s fileId
  | _ => exact ⟨rfl, rfl⟩

theorem foldl_applyEffect_outputs (effects : List Effect) :
    ∀ s : ResolveState, (effects.foldl (applyEffect db) s).outputs
        = effects.foldl ResolveOutputs.apply s.outputs ∧
      (effects.foldl (applyEffect db) s).error = s.error := by
  induction effects with
  | nil => intro s; exact ⟨rfl, rfl⟩
  | cons e effects ih =>
    intro s
    obtain ⟨hout, herr⟩ := applyEffect_outputs db s e
    obtain ⟨hout', herr'⟩ := ih (s.applyEffect db e)
    rw [List.foldl_cons, List.foldl_cons, hout', herr', hout, herr]
    exact ⟨rfl, rfl⟩

theorem processItem_outputs (s : ResolveState) (item : WorkItem) :
    (s.processItem db item).outputs = (processObject db item).1.foldl ResolveOutputs.apply s.outputs ∧
      (s.processItem db item).error = s.error.or (processObject db item).2 := by
  obtain ⟨hout, herr⟩ := foldl_applyEffect_outputs db (processObject db item).1 s
  rw [← hout, ← herr]
  exact ⟨rfl, rfl⟩

end ResolveState

variable {items : List WorkItem}

/-- **The outputs of a run** are those of its items, one after another; it fails if an item does. -/
theorem processes_outputs {s' : ResolveState} (h : Processes db s items s') :
    s'.outputs = (items.flatMap (fun w => (processObject db w).1)).foldl ResolveOutputs.apply s.outputs ∧
      (s'.error = none ↔ s.error = none ∧ ∀ item ∈ items, (processObject db item).2 = none) := by
  induction h with
  | refl => simp
  | @tail s' items pre post item _ hpending ih =>
    obtain ⟨hout, herr⟩ := ResolveState.processItem_outputs db { s' with pending := pre ++ post } item
    rw [hout, herr, List.flatMap_append, List.foldl_append, List.flatMap_singleton]
    refine ⟨by rw [ih.1], ?_⟩
    show (s'.error.or (processObject db item).2) = none ↔ _
    rw [Option.or_eq_none_iff, ih.2, List.forall_mem_append, List.forall_mem_singleton, and_assoc]

/-! ## Queues -/

/-- Whether a file is an object. -/
def InputFile.isObject : InputFile → Bool
  | .object _ => true
  | _ => false

/-- Whether an identifier is that of an object, or of a plugin input. -/
def isObjectId (fileId : FileId) : Bool := (db.file fileId).any InputFile.isObject

def isLtoId (fileId : FileId) : Bool := (db.file fileId).any InputFile.isLto

/-- The identifiers of the files of one kind. -/
def idsOfKind (kind : InputFile → Bool) : List FileId := (db.files.filter (fun p => kind p.2)).map Prod.fst

variable {db}

variable {fileId : FileId} {kind : InputFile → Bool}

theorem mem_idsOfKind :
    fileId ∈ idsOfKind db kind ↔ (db.file fileId).any kind = true := by
  unfold idsOfKind
  rw [List.mem_map, Option.any_eq_true]
  constructor
  · rintro ⟨⟨id, f⟩, hmem, rfl⟩
    obtain ⟨hmem, hkind⟩ := List.mem_filter.mp hmem
    exact ⟨f, SymbolDb.mem_files_iff.mp hmem, hkind⟩
  · rintro ⟨f, hf, hkind⟩
    exact ⟨(fileId, f), List.mem_filter.mpr ⟨SymbolDb.mem_files_iff.mpr hf, hkind⟩, rfl⟩

/-- The files of one kind in some groups. -/
theorem length_filter_enumerateFiles (kind : InputFile → Bool) (gs : List Group) :
    ∀ first, ((enumerateFiles first gs).filter (fun p => kind p.2)).length
      = (gs.map (fun g => (g.files.filter kind).length)).sum := by
  induction gs with
  | nil => intro first; rfl
  | cons g gs ih =>
    intro first
    have hgroup : ((g.files.mapIdx (fun i f => ((⟨first, i⟩ : FileId), f))).filter (fun p => kind p.2)).length
        = (g.files.filter kind).length := by
      rw [← List.countP_eq_length_filter, ← List.countP_eq_length_filter]
      have hsnd : (g.files.mapIdx (fun i f => ((⟨first, i⟩ : FileId), f))).map Prod.snd = g.files := by
        apply List.ext_getElem
        · simp
        · intro i h₁ h₂
          simp
      conv_rhs => rw [← hsnd, List.countP_map]
      rfl
    rw [enumerateFiles, List.filter_append, List.length_append, hgroup, ih, List.map_cons, List.sum_cons]

theorem numRegularObjects_eq : db.numRegularObjects = (idsOfKind db InputFile.isObject).length := by
  unfold idsOfKind SymbolDb.files SymbolDb.numRegularObjects
  rw [List.length_map, length_filter_enumerateFiles]
  congr 1
  apply List.map_congr_left
  intro g _
  cases g <;> simp [Group.files, InputFile.isObject, List.filter_map, Function.comp_def]

theorem numLtoObjects_eq : db.numLtoObjects = (idsOfKind db InputFile.isLto).length := by
  unfold idsOfKind SymbolDb.files SymbolDb.numLtoObjects
  rw [List.length_map, length_filter_enumerateFiles]
  congr 1
  apply List.map_congr_left
  intro g _
  cases g <;> simp [Group.files, InputFile.isLto, List.filter_map, Function.comp_def]

variable {pushed : List FileId}

/-- A queue with room for all files of a kind has room for one more that is not in it. -/
theorem length_lt_of_not_mem (hnodup : pushed.Nodup) (hkind : ∀ g ∈ pushed, (db.file g).any kind = true)
    (hnew : fileId ∉ pushed) (hfile : (db.file fileId).any kind = true) :
    pushed.length < (idsOfKind db kind).length := by
  have hsub : (fileId :: pushed).Subperm (idsOfKind db kind) := by
    apply List.Nodup.subperm (List.nodup_cons.mpr ⟨hnew, hnodup⟩)
    intro g hg
    rcases List.mem_cons.mp hg with rfl | hg
    · exact mem_idsOfKind.mpr hfile
    · exact mem_idsOfKind.mpr (hkind g hg)
  have hle := hsub.length_le
  rw [List.length_cons] at hle
  omega

variable (db) in
/-- The queues hold the files pushed so far, each in its queue, and nothing has overflowed. -/
structure ResolveState.Queues (s : ResolveState) (pushed : List FileId) : Prop where
  loaded : s.loaded = pushed.filter (isObjectId db)
  lto : s.loadedLtoObjects = pushed.filter (isLtoId db)
  panicked : s.panicked = false

/-- **Loading one more file** pushes it to its queue and adds its work items. -/
theorem ResolveState.workItemsDo_push {f : InputFile} (defs : List SymbolId) (hq : s.Queues db pushed)
    (hnodup : pushed.Nodup) (hnew : fileId ∉ pushed) (hf : db.file fileId = some f) (hload : f.isLoadable = true) :
    (s.workItemsDo db fileId defs).Queues db (pushed ++ [fileId]) ∧
      (s.workItemsDo db fileId defs).pending = s.pending ++ workItems db fileId defs ∧
      (s.workItemsDo db fileId defs).takes = s.takes := by
  cases f with
  | object o =>
    obtain ⟨files, hgroup, _⟩ := group_of_object hf
    have hobject : isObjectId db fileId = true := by simp [isObjectId, hf, InputFile.isObject]
    have hlto : isLtoId db fileId = false := by simp [isLtoId, hf, InputFile.isLto]
    have hroom : s.loaded.length < max db.numRegularObjects 1 := by
      rw [hq.loaded, numRegularObjects_eq]
      have hlt := length_lt_of_not_mem (hnodup.filter (isObjectId db))
        (fun g hg => (List.mem_filter.mp hg).2) (fun hmem => hnew (List.mem_filter.mp hmem).1) hobject
      omega
    unfold workItemsDo
    rw [hgroup]
    simp only [pushLoaded, if_pos hroom]
    refine ⟨⟨?_, ?_, hq.panicked⟩, trivial, trivial⟩
    · rw [List.filter_append, hq.loaded]
      simp [hobject]
    · rw [List.filter_append, hq.lto]
      simp [hlto]
  | ltoInput o =>
    obtain ⟨files, hgroup, _⟩ := group_of_ltoInput hf
    have hobject : isObjectId db fileId = false := by simp [isObjectId, hf, InputFile.isObject]
    have hlto : isLtoId db fileId = true := by simp [isLtoId, hf, InputFile.isLto]
    have hroom : s.loadedLtoObjects.length < max db.numLtoObjects 1 := by
      rw [hq.lto, numLtoObjects_eq]
      have hlt := length_lt_of_not_mem (hnodup.filter (isLtoId db))
        (fun g hg => (List.mem_filter.mp hg).2) (fun hmem => hnew (List.mem_filter.mp hmem).1) hlto
      omega
    unfold workItemsDo
    rw [hgroup]
    simp only [pushLoadedLto, if_pos hroom]
    refine ⟨⟨?_, ?_, hq.panicked⟩, trivial, trivial⟩
    · rw [List.filter_append, hq.loaded]
      simp [hobject]
    · rw [List.filter_append, hq.lto]
      simp [hlto]
  | _ => exact absurd hload (by simp [InputFile.isLoadable])

/-! ## The set-up -/

variable (db) in
/-- The files of the groups that a run is about. -/
def newFiles (r : Resolver) : List (FileId × InputFile) :=
  db.files.filter (fun p => r.resolvedGroups ≤ p.1.group)

variable (db) in
/-- The work items that a new file starts with. -/
def startItemsOf (p : FileId × InputFile) : List WorkItem :=
  match p.2 with
  | .prelude _ => workItems db p.1 (definitionSlice db p.1 p.2)
  | .linkerScript _ =>
    [{ fileId := p.1, symbolStartOffset := 0, definitionsOut := definitionSlice db p.1 p.2 }]
  | f => if f.isLoadable && !f.isOptional then workItems db p.1 (definitionSlice db p.1 p.2) else []

variable (db) in
/-- The work items that a run starts with. -/
def startItems (r : Resolver) : List WorkItem := (newFiles db r).flatMap (startItemsOf db)

/-- Whether a new file is loaded from the start. -/
def startsLoaded (p : FileId × InputFile) : Bool := p.2.isLoadable && !p.2.isOptional

variable (db) in
/-- The files that are loaded from the start. -/
def startLoaded (r : Resolver) : List FileId := ((newFiles db r).filter startsLoaded).map Prod.fst

theorem workItemsDo_other (s : ResolveState) {f : InputFile} (defs : List SymbolId) (hf : db.file fileId = some f)
    (hload : f.isLoadable = false) :
    s.workItemsDo db fileId defs = { s with pending := s.pending ++ workItems db fileId defs } := by
  obtain ⟨g, hg, hmem⟩ := file_group hf
  have hmem := List.mem_of_getElem? hmem
  unfold ResolveState.workItemsDo
  rw [hg]
  cases g with
  | objects files | ltoInputs files =>
    obtain ⟨o, _, rfl⟩ := List.mem_map.mp hmem
    exact absurd hload (by simp [InputFile.isLoadable])
  | _ => rfl

variable {p : FileId × InputFile}

/-- Setting up one file. -/
theorem setUpFile_spec (hq : s.Queues db pushed) (hnodup : pushed.Nodup) (hnew : p.1 ∉ pushed)
    (hf : db.file p.1 = some p.2) :
    (setUpFile db s p).Queues db (pushed ++ if startsLoaded p then [p.1] else []) ∧
      (setUpFile db s p).pending = s.pending ++ startItemsOf db p ∧
      (setUpFile db s p).takes = s.takes := by
  obtain ⟨fileId, f⟩ := p
  have hsame : s.Queues db (pushed ++ []) := by rwa [List.append_nil]
  cases f with
  | prelude defs =>
    have hdo := workItemsDo_other s (definitionSlice db fileId (.prelude defs)) hf rfl
    simp only [setUpFile, hdo]
    exact ⟨⟨hsame.loaded, hsame.lto, hsame.panicked⟩, rfl, trivial⟩
  | linkerScript script => exact ⟨⟨hsame.loaded, hsame.lto, hsame.panicked⟩, rfl, rfl⟩
  | stubLibrary stub => exact ⟨hsame, (List.append_nil _).symm, rfl⟩
  | syntheticSymbols names => exact ⟨hsame, (List.append_nil _).symm, rfl⟩
  | object o | ltoInput o =>
    cases hopt : o.isOptional with
    | true =>
      simp only [setUpFile, startsLoaded, startItemsOf, InputFile.isOptional, hopt, if_true, Bool.not_true,
        Bool.and_false, Bool.false_eq_true, if_false]
      exact ⟨hsame, (List.append_nil _).symm, trivial⟩
    | false =>
      simp only [setUpFile, startsLoaded, startItemsOf, InputFile.isOptional, hopt, Bool.not_false,
        Bool.and_true, Bool.false_eq_true, if_false]
      exact ResolveState.workItemsDo_push _ hq hnodup hnew hf rfl

variable (db) in
theorem setUpFile_outputs (s : ResolveState) (p : FileId × InputFile) :
    (setUpFile db s p).outputs = s.outputs ∧ (setUpFile db s p).error = s.error := by
  obtain ⟨fileId, f⟩ := p
  cases f with
  | prelude defs => exact ResolveState.workItemsDo_outputs db s fileId _
  | object o | ltoInput o =>
    simp only [setUpFile]
    split_ifs
    · exact ⟨rfl, rfl⟩
    · exact ResolveState.workItemsDo_outputs db s fileId _
  | _ => exact ⟨rfl, rfl⟩

/-- Setting up some files, one after another. -/
theorem foldl_setUpFile_spec (l : List (FileId × InputFile)) :
    ∀ {s : ResolveState} {pushed : List FileId}, s.Queues db pushed →
      (pushed ++ l.map Prod.fst).Nodup → (∀ p ∈ l, db.file p.1 = some p.2) →
      (l.foldl (setUpFile db) s).Queues db (pushed ++ (l.filter startsLoaded).map Prod.fst) ∧
        (l.foldl (setUpFile db) s).pending = s.pending ++ l.flatMap (startItemsOf db) ∧
        (l.foldl (setUpFile db) s).takes = s.takes ∧
        (l.foldl (setUpFile db) s).outputs = s.outputs ∧
        (l.foldl (setUpFile db) s).error = s.error := by
  induction l with
  | nil =>
    intro s pushed hq _ _
    simpa using hq
  | cons p l ih =>
    intro s pushed hq hnodup hf
    have hnew : p.1 ∉ pushed := by
      intro hmem
      have hdisjoint := (List.nodup_append.mp hnodup).2.2
      exact hdisjoint _ hmem _ List.mem_cons_self rfl
    obtain ⟨hq', hpending, htakes⟩ :=
      setUpFile_spec hq (List.nodup_append.mp hnodup).1 hnew (hf p List.mem_cons_self)
    obtain ⟨hout, herr⟩ := setUpFile_outputs db s p
    have hnodup' : ((pushed ++ if startsLoaded p then [p.1] else []) ++ l.map Prod.fst).Nodup := by
      refine List.Nodup.sublist ?_ hnodup
      rw [List.append_assoc]
      apply List.Sublist.append_left
      split_ifs
      · exact List.Sublist.refl _
      · exact List.sublist_cons_self _ _
    obtain ⟨hq'', hpending', htakes', hout', herr'⟩ :=
      ih hq' hnodup' (fun q hq => hf q (List.mem_cons_of_mem _ hq))
    rw [List.foldl_cons]
    refine ⟨?_, ?_, htakes'.trans htakes, hout'.trans hout, herr'.trans herr⟩
    · rw [List.filter_cons]
      rw [List.append_assoc] at hq''
      split_ifs at hq'' ⊢ with hload
      · exact hq''
      · exact hq''
    · rw [hpending', hpending, List.flatMap_cons, List.append_assoc]

variable (db) in
/-- Whether the slice of a file can be taken at the start of a run. -/
def claimable (r : Resolver) (fileId : FileId) : Bool :=
  (db.file fileId).any (fun f => isClaimable r (fileId, f))

/-- The slices that can be taken at the start of a run. -/
theorem initialTakes_eq (r : Resolver) (fileId : FileId) :
    (match db.file fileId with
      | some f => if isClaimable r (fileId, f) then some (definitionSlice db fileId f) else none
      | none => none)
      = if claimable db r fileId then (db.file fileId).map (definitionSlice db fileId) else none := by
  unfold claimable
  cases db.file fileId with
  | none => simp
  | some f => simp

variable (db) in
/-- **The start of a run**: its items, its loaded files, and the slices that can be taken. -/
theorem initialResolveState_spec (r : Resolver) (flags : PerSymbolFlags) :
    (initialResolveState db r flags).Queues db (startLoaded db r) ∧
      (initialResolveState db r flags).pending = startItems db r ∧
      (∀ fileId, (initialResolveState db r flags).takes fileId
        = if claimable db r fileId then (db.file fileId).map (definitionSlice db fileId) else none) ∧
      (initialResolveState db r flags).outputs
        = { definitions := db.symbolDefinitions, flags := flags, undefinedSymbols := [] } ∧
      (initialResolveState db r flags).error = none := by
  have hnodup : ([] ++ (newFiles db r).map Prod.fst).Nodup :=
    List.Nodup.sublist (List.filter_sublist.map _) (SymbolDb.files_keys_nodup db)
  have hfiles : ∀ p ∈ newFiles db r, db.file p.1 = some p.2 := by
    intro p hp
    exact SymbolDb.mem_files_iff.mp (List.mem_filter.mp hp).1
  let empty : ResolveState :=
    { pending := []
      takes := fun fileId =>
        match db.file fileId with
        | some f => if isClaimable r (fileId, f) then some (definitionSlice db fileId f) else none
        | none => none
      loaded := [], loadedLtoObjects := []
      outputs := { definitions := db.symbolDefinitions, flags := flags, undefinedSymbols := [] }
      error := none, panicked := false }
  have hempty : empty.Queues db [] := ⟨rfl, rfl, rfl⟩
  obtain ⟨hq, hpending, htakes, hout, herr⟩ := foldl_setUpFile_spec (newFiles db r) hempty hnodup hfiles
  refine ⟨hq, hpending, ?_, hout, herr⟩
  intro fileId
  rw [← initialTakes_eq]
  exact congrFun htakes fileId

/-! ## The simulation -/

variable (db) in
/-- The work items of a file, by its identifier. -/
def itemsOf (fileId : FileId) : List WorkItem :=
  match db.file fileId with
  | some f => workItems db fileId (definitionSlice db fileId f)
  | none => []

variable (db) in
/-- A resolution run as a worklist problem. -/
def selectionProblem (r : Resolver) : Worklist.Problem FileId WorkItem :=
  { claimable := claimable db r
    items := itemsOf db
    requests := fun item => requestsOf (processObject db item).1 }

variable (db) in
/-- A worklist state and a state of the run agree. -/
structure Simulates (r : Resolver) (w : Worklist.State FileId WorkItem) (s : ResolveState) : Prop where
  pending : s.pending = w.pending
  takes : ∀ fileId, s.takes fileId
    = if claimable db r fileId = true ∧ fileId ∉ w.claimed then
        (db.file fileId).map (definitionSlice db fileId)
      else none
  queues : s.Queues db (startLoaded db r ++ w.claimed)
  nodup : (startLoaded db r ++ w.claimed).Nodup

variable {r : Resolver}

theorem isLoadable_of_isClaimable (h : isClaimable r p = true) :
    p.2.isLoadable = true := by
  obtain ⟨fileId, f⟩ := p
  unfold isClaimable remainsClaimable at h
  cases f <;> first | rfl | (simp [Resolver.resolvedFile, InputFile.isOptional] at h)

/-- A file that is loaded from the start cannot be claimed. -/
theorem not_claimable_of_startLoaded (h : fileId ∈ startLoaded db r) :
    claimable db r fileId = false := by
  obtain ⟨⟨id, f⟩, hmem, rfl⟩ := List.mem_map.mp h
  obtain ⟨hnew, hstart⟩ := List.mem_filter.mp hmem
  obtain ⟨hfile, hgroup⟩ := List.mem_filter.mp hnew
  have hgroup : r.resolvedGroups ≤ id.group := by simpa using hgroup
  have hnotOptional : f.isOptional = false := by
    unfold startsLoaded at hstart
    simp only [Bool.and_eq_true, Bool.not_eq_true'] at hstart
    exact hstart.2
  unfold claimable isClaimable
  rw [SymbolDb.mem_files_iff.mp hfile, Option.any_some, if_neg (Nat.not_lt.mpr hgroup)]
  exact hnotOptional

theorem startLoaded_nodup (r : Resolver) : (startLoaded db r).Nodup :=
  List.Nodup.sublist ((List.filter_sublist.trans List.filter_sublist).map _) (SymbolDb.files_keys_nodup db)

theorem simulates_initial (r : Resolver) (flags : PerSymbolFlags) :
    Simulates db r (Worklist.initial (startItems db r)) (initialResolveState db r flags) := by
  obtain ⟨hq, hpending, htakes, _, _⟩ := initialResolveState_spec db r flags
  refine ⟨hpending, ?_, ?_, ?_⟩
  · intro fileId
    rw [htakes]
    simp [Worklist.initial]
  · simpa [Worklist.initial] using hq
  · simpa [Worklist.initial] using startLoaded_nodup r

/-- **A request is a claim.** -/
theorem simulates_request {w : Worklist.State FileId WorkItem} (h : Simulates db r w s) (fileId : FileId) :
    Simulates db r (Worklist.claim (selectionProblem db r) w fileId) (s.tryRequestFileId db fileId) := by
  unfold ResolveState.tryRequestFileId
  by_cases hclaim : claimable db r fileId = true ∧ fileId ∉ w.claimed
  · obtain ⟨f, hf, hisClaimable⟩ := (Option.any_eq_true _ _).mp hclaim.1
    have htake : s.takes fileId = some (definitionSlice db fileId f) := by
      rw [h.takes, if_pos hclaim, hf]
      rfl
    have hnew : fileId ∉ startLoaded db r ++ w.claimed := by
      rw [List.mem_append]
      rintro (hstart | hmem)
      · exact absurd hclaim.1 (by simp [not_claimable_of_startLoaded hstart])
      · exact hclaim.2 hmem
    obtain ⟨hq, hpending, htakes⟩ := ResolveState.workItemsDo_push
      (s := { s with takes := Function.update s.takes fileId none }) (definitionSlice db fileId f)
      ⟨h.queues.loaded, h.queues.lto, h.queues.panicked⟩ h.nodup hnew hf
      (isLoadable_of_isClaimable hisClaimable)
    have hw : Worklist.claim (selectionProblem db r) w fileId
        = { w with claimed := w.claimed ++ [fileId], pending := w.pending ++ itemsOf db fileId } :=
      if_pos hclaim
    rw [htake, hw]
    refine ⟨?_, ?_, ?_, ?_⟩
    · show _ = w.pending ++ itemsOf db fileId
      rw [hpending, ← h.pending]
      unfold itemsOf
      rw [hf]
    · intro g
      rw [htakes]
      show Function.update s.takes fileId none g = _
      by_cases hg : g = fileId
      · subst hg
        simp
      · rw [Function.update_of_ne hg, h.takes]
        simp [hg]
    · rwa [List.append_assoc] at hq
    · show (startLoaded db r ++ (w.claimed ++ [fileId])).Nodup
      rw [← List.append_assoc]
      exact List.nodup_append.mpr ⟨h.nodup, List.nodup_singleton _, by
        intro a ha b hb heq
        rw [List.mem_singleton.mp hb] at heq
        exact hnew (heq ▸ ha)⟩
  · have htake : s.takes fileId = none := by rw [h.takes, if_neg hclaim]
    have hw : Worklist.claim (selectionProblem db r) w fileId = w := if_neg hclaim
    rw [htake, hw]
    exact h

theorem simulates_effects (effects : List Effect) :
    ∀ {w : Worklist.State FileId WorkItem} {s : ResolveState}, Simulates db r w s →
      Simulates db r ((requestsOf effects).foldl (Worklist.claim (selectionProblem db r)) w)
        (effects.foldl (ResolveState.applyEffect db) s) := by
  induction effects with
  | nil => intro w s h; exact h
  | cons e effects ih =>
    intro w s h
    cases e with
    | request fileId => exact ih (simulates_request h fileId)
    | _ => exact ih ⟨h.pending, h.takes, ⟨h.queues.loaded, h.queues.lto, h.queues.panicked⟩, h.nodup⟩

/-- **A run is a worklist run**, whatever the order of its steps. -/
theorem processes_simulates {flags : PerSymbolFlags} (h : Processes db (initialResolveState db r flags) items s) :
    ∃ w, Relation.ReflTransGen (Worklist.Step (selectionProblem db r)) (Worklist.initial (startItems db r)) w ∧
      w.done = items ∧ Simulates db r w s := by
  induction h with
  | refl => exact ⟨_, .refl, rfl, simulates_initial r flags⟩
  | @tail s items pre post item _ hpending ih =>
    obtain ⟨w, hrun, hdone, hsim⟩ := ih
    have hpending' : w.pending = pre ++ item :: post := hsim.pending ▸ hpending
    let popped : Worklist.State FileId WorkItem :=
      { w with pending := pre ++ post, done := w.done ++ [item] }
    have hsim' : Simulates db r popped { s with pending := pre ++ post } :=
      ⟨rfl, hsim.takes, ⟨hsim.queues.loaded, hsim.queues.lto, hsim.queues.panicked⟩, hsim.nodup⟩
    have hafter := simulates_effects (processObject db item).1 hsim'
    refine ⟨Worklist.process (selectionProblem db r) { w with pending := pre ++ post } item,
      .tail hrun ⟨pre, item, post, hpending', rfl⟩, ?_, ?_⟩
    · show ((requestsOf (processObject db item).1).foldl (Worklist.claim (selectionProblem db r)) popped).done
        = items ++ [item]
      rw [(Worklist.claims_foldl (P := selectionProblem db r) (requestsOf (processObject db item).1)
        popped).done_eq, ← hdone]
    · exact ⟨hafter.pending, hafter.takes,
        ⟨hafter.queues.loaded, hafter.queues.lto, hafter.queues.panicked⟩, hafter.nodup⟩

end Reld
