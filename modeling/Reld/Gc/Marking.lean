import Reld.Gc.Needed
import Reld.Gc.WorkerMoves

/-!
# `Gc.Marking` — the same result for every interleaving

Whatever is performed or sent is needed, whatever the interleaving (`Marking.sound`). What an access or an item asks for
is performed, is about to be, or need not be asked for again because a symbol has a resolution already; then its
definition has been asked for (`Answered`). When no thread is left, all that is needed has been done (`every_interleaving`).
-/

namespace Reld.Gc

open Tasks

/-- The configurations of the phase. -/
abbrev Phase := GcConfig WorkItem LoadedSections Access GraphState

variable {G : GcInputs} {c c' : Phase} {a : GcAction} {access' : Access} {s : SymbolId}

/-! ## What an access does to the flags -/

/-- The flags that an access adds to a symbol. -/
def Access.adds (s : SymbolId) : Access → ValueFlags
  | .reference ref => if s = ref.symbolId then ref.flagsToAdd else .empty
  | .ifuncFlags symbolId => if s = symbolId then .ofList [.got, .plt] else .empty
  | .request symbolId => if s = symbolId then .ofList [.direct] else .empty
  | .mark symbolId flag => if s = symbolId then .ofList [flag] else .empty
  | .exportDynamic symbolId => if s = symbolId then .ofList [.exportDynamic] else .empty
  | .pushStartStop _ _ | .popStartStop _ => .empty

theorem hasResolution_union (f g : ValueFlags) : (f.union g).hasResolution = (f.hasResolution || g.hasResolution) := by
  simp only [ValueFlags.hasResolution, List.any_cons, List.any_nil, ValueFlags.contains_union, Bool.or_false]
  ac_rfl

theorem flags_fetchOr (state : GraphState) (symbolId : SymbolId) (flags : ValueFlags) :
    ((GcInputs.fetchOr state symbolId flags).flags s).hasResolution =
      ((state.flags s).hasResolution || (if s = symbolId then flags else .empty).hasResolution) := by
  by_cases hs : s = symbolId
  · subst hs
    simp [GcInputs.fetchOr, hasResolution_union]
  · simp only [GcInputs.fetchOr, Function.update_of_ne hs, if_neg hs]
    simp [ValueFlags.hasResolution]

theorem access_flags (G : GcInputs) (access : Access) (state : GraphState) :
    ((G.access access state).1.flags s).hasResolution =
      ((state.flags s).hasResolution || (access.adds s).hasResolution) := by
  cases access with
  | pushStartStop sectionId request => simp [GcInputs.access, Access.adds, ValueFlags.hasResolution]
  | popStartStop sectionId =>
    unfold GcInputs.access
    simp only
    split <;> simp [Access.adds, ValueFlags.hasResolution]
  | _ => exact flags_fetchOr state _ _

/-! ## Soundness -/

/-- An action that is needed. -/
def GcInputs.Sound (G : GcInputs) : GcAction → Prop
  | .send (.loadGlobalSymbol symbolId) | .sendToSlot (.loadGlobalSymbol symbolId) => Needed G (.definition symbolId)
  | .send (.copyRelocateSymbol _) | .sendToSlot (.copyRelocateSymbol _) => True
  | .send item | .sendToSlot item => Needed G (.item item)
  | .access (.ifuncFlags symbolId) => ∃ ref, Needed G (.access (.reference ref)) ∧ ref.symbolId = symbolId ∧
    (G.flags symbolId).isIfunc = true ∧ G.outputKind.isStaticExecutable = true
  | .access a => Needed G (.access a)

theorem sound_activate {g : Nat} (hg : g < G.groups.length) (h : a ∈ G.activate g) : G.Sound a := by
  have haction := activate_action h
  cases a with
  | send item =>
    cases item with
    | loadSection request => exact .sent hg h
    | exportDynamic symbolId => exact .sent hg h
    | loadGlobalSymbol symbolId => exact haction.elim
    | copyRelocateSymbol symbolId => trivial
  | sendToSlot item => exact haction.elim
  | access access =>
    cases access with
    | ifuncFlags symbolId => exact haction.elim
    | _ => exact .activated hg h

variable {item : WorkItem}

/-- What a needed item asks for is needed. -/
theorem sound_workActions (hitem : G.Sound (.send item)) (h : a ∈ G.workActions item) : G.Sound a := by
  cases item with
  | loadGlobalSymbol symbolId =>
    rcases List.mem_append.1 h with h | h
    · obtain ⟨request, hrequest, rfl⟩ := Option.map_eq_some_iff.1 (Option.mem_toList.1 h)
      exact .section_ hitem hrequest
    · obtain ⟨sectionId, hsection, rfl⟩ := Option.map_eq_some_iff.1 (Option.mem_toList.1 h)
      exact .startStop hitem hsection
  | copyRelocateSymbol symbolId => cases h
  | loadSection request =>
    obtain ⟨ref, href, rfl⟩ := List.mem_map.1 h
    exact .referenced hitem href
  | exportDynamic symbolId =>
    simp only [GcInputs.workActions] at h
    split at h
    · rename_i hexports
      obtain rfl := List.mem_singleton.1 h
      exact .exported hitem hexports
    · cases h

variable {access : Access} {state : GraphState}

/-- What a needed access asks for is needed, if what waits for start and stop symbols is. -/
theorem sound_next (hsound : G.Sound (.access access))
    (hflags : ∀ s, (G.flags s).hasResolution = true → (state.flags s).hasResolution = true)
    (hwaits : ∀ sectionId, ∀ request ∈ state.startStopSections sectionId,
      Needed G (.access (.pushStartStop sectionId request))) (h : a ∈ (G.access access state).2) : G.Sound a := by
  -- a symbol that has no resolution now had none before the phase
  have hdefinition : ∀ {b : Access} {symbolId : SymbolId}, Needed G (.access b) → b.asks = some symbolId →
      (state.flags symbolId).hasResolution = false → Needed G (.definition symbolId) := by
    intro b symbolId hneeded hasks hnone
    apply Needed.definition hneeded hasks
    cases hinitial : (G.flags symbolId).hasResolution with
    | false => rfl
    | true =>
      rw [hflags _ hinitial] at hnone
      cases hnone
  cases access with
  | reference ref =>
    rcases List.mem_append.1 h with h | h
    · split at h
      · cases h
      · rename_i hnone
        rcases List.mem_append.1 h with h | h
        · split at h
          · rename_i hifunc
            obtain rfl := List.mem_singleton.1 h
            rw [Bool.and_eq_true] at hifunc
            exact ⟨ref, hsound, rfl, hifunc⟩
          · cases h
        · obtain rfl := List.mem_singleton.1 h
          exact hdefinition hsound rfl (by simpa using hnone)
    · split at h
      · obtain rfl := List.mem_singleton.1 h
        trivial
      · cases h
  | ifuncFlags symbolId => cases h
  | request symbolId =>
    simp only [GcInputs.access] at h
    split at h
    · cases h
    · rename_i hnone
      obtain rfl := List.mem_singleton.1 h
      exact hdefinition hsound rfl (by simpa using hnone)
  | mark symbolId flag => cases h
  | exportDynamic symbolId =>
    simp only [GcInputs.access] at h
    split at h
    · cases h
    · rename_i hnone
      obtain ⟨request, hrequest, rfl⟩ := Option.map_eq_some_iff.1 (Option.mem_toList.1 h)
      exact .section_ (hdefinition hsound rfl (by simpa using hnone)) hrequest
  | pushStartStop sectionId request => cases h
  | popStartStop sectionId =>
    simp only [GcInputs.access] at h
    split at h
    · cases h
    · rename_i request requests hrequests
      rcases List.mem_cons.1 h with rfl | h
      · apply Needed.popped hsound (hwaits sectionId request _)
        rw [hrequests]
        exact List.mem_cons_self
      · obtain rfl := List.mem_singleton.1 h
        exact hsound

/-! ## Completeness -/

/-- An action has been performed, or a thread is about to. -/
def Due (c : Phase) (a : GcAction) : Prop := a ∈ c.shared.performed ∨ ∃ e, Pending c e a

/-- An item has been sent, or a thread is about to. -/
def Coming (c : Phase) (item : WorkItem) : Prop := Due c (.send item) ∨ Due c (.sendToSlot item)

/-- The definition of a symbol has been asked for, or there is nothing else that its request would load. -/
def Answered (G : GcInputs) (c : Phase) (s : SymbolId) : Prop :=
  Coming c (.loadGlobalSymbol s) ∨
    G.startStopOf s = none ∧ ∀ request, G.sectionOf s = some request → Coming c (.loadSection request)

def hadResolution (G : GcInputs) (s : SymbolId) : Prop := (G.flags s).hasResolution = true

def hasResolution (c : Phase) (s : SymbolId) : Prop := (c.shared.graph.flags s).hasResolution = true

/-- What holds of every state of a run without errors. -/
structure Marking (G : GcInputs) (c : Phase) : Prop where
  sound : ∀ a, Due c a → G.Sound a
  waiting : ∀ sectionId, ∀ request ∈ c.shared.graph.startStopSections sectionId,
    Needed G (.access (.pushStartStop sectionId request))
  flags : ∀ s, hasResolution c s ↔
    hadResolution G s ∨ ∃ access, .access access ∈ c.shared.performed ∧ (access.adds s).hasResolution = true
  answered : ∀ s, hasResolution c s → hadResolution G s ∨ Answered G c s
  asked : ∀ access s, .access access ∈ c.shared.performed → access.asks = some s → hadResolution G s ∨ Answered G c s
  ifuncAsked : ∀ e s, Pending c e (.access (.ifuncFlags s)) → hadResolution G s ∨ Answered G c s
  ifunc : ∀ ref, .access (.reference ref) ∈ c.shared.performed → (G.flags ref.symbolId).isIfunc = true →
    G.outputKind.isStaticExecutable = true → hasResolution c ref.symbolId ∨ Due c (.access (.ifuncFlags ref.symbolId))
  done : ∀ item ∈ c.shared.processed, ∀ a ∈ G.workActions item, Due c a
  pushed : ∀ sectionId request, .access (.pushStartStop sectionId request) ∈ c.shared.performed →
    request ∈ c.shared.graph.startStopSections sectionId ∨ Coming c (.loadSection request)
  early : ∀ e sectionId request, Pending c e (.access (.pushStartStop sectionId request)) → e = true
  late : ∀ e sectionId, Pending c e (.access (.popStartStop sectionId)) → ¬ Activating c
  popped : ∀ sectionId, Due c (.access (.popStartStop sectionId)) →
    (∃ e, Pending c e (.access (.popStartStop sectionId))) ∨
      c.shared.graph.startStopSections sectionId = [] ∧ ¬ Activating c
  files : ∀ g loaded, HasFiles c g loaded → ∀ request, request ∈ loaded ↔
    request.fileId.group = g ∧ G.Loads request ∧ .loadSection request ∈ c.shared.processed
  activated : ∀ g < G.groups.length, ∀ a ∈ G.activate g, Due c a

theorem Coming.mono (hdue : ∀ a, Due c a → Due c' a) (h : Coming c item) : Coming c' item :=
  h.imp (hdue _) (hdue _)

theorem Answered.mono (hdue : ∀ a, Due c a → Due c' a) (h : Answered G c s) : Answered G c' s :=
  h.imp (·.mono hdue) fun h => ⟨h.1, fun request hrequest => (h.2 request hrequest).mono hdue⟩

variable {e : Bool}

theorem pending_activating (h : Pending c e a) (he : e = true) : Activating c := by
  obtain ⟨t, ht, hactivating, -⟩ := h
  exact ⟨t, ht, hactivating.trans he⟩

theorem flags_initial (h : Marking G c) (s : SymbolId) (hs : (G.flags s).hasResolution = true) :
    (c.shared.graph.flags s).hasResolution = true :=
  (h.flags s).2 (Or.inl hs)

/-! ## The first state -/

theorem marking_initial (G : GcInputs) : Marking G G.initial := by
  have hpending : ∀ e a, Pending G.initial e a → e = true ∧ ∃ g < G.groups.length, a ∈ G.activate g := by
    rintro e a ⟨t, ht, hactivating, ha⟩
    obtain ⟨g, hg, rfl⟩ := List.mem_map.1 ht
    exact ⟨hactivating.symm, g, List.mem_range.1 hg, ha⟩
  have hdue : ∀ a, Due G.initial a → ∃ g < G.groups.length, a ∈ G.activate g := by
    rintro a (h | ⟨e, h⟩)
    · cases h
    · exact (hpending e a h).2
  -- no activation pops or adds the flags of an ifunc
  have hnever : ∀ a, (∃ g < G.groups.length, a ∈ G.activate g) → (∀ s, a ≠ .access (.ifuncFlags s)) ∧
      ∀ sectionId, a ≠ .access (.popStartStop sectionId) := by
    rintro a ⟨g, -, ha⟩
    have haction := activate_action ha
    constructor
    · rintro s rfl
      exact haction
    · rintro sectionId rfl
      exact haction
  constructor
  · intro a ha
    obtain ⟨g, hg, ha⟩ := hdue a ha
    exact sound_activate hg ha
  · intro sectionId request hrequest
    cases hrequest
  · intro s
    refine ⟨Or.inl, ?_⟩
    rintro (h | ⟨access, h, -⟩)
    · exact h
    · cases h
  · exact fun s hs => Or.inl hs
  · intro access s h
    cases h
  · intro e s h
    exact absurd rfl ((hnever _ (hpending e _ h).2).1 s)
  · intro ref h
    cases h
  · intro item h
    cases h
  · intro sectionId request h
    cases h
  · exact fun e sectionId request h => (hpending e _ h).1
  · intro e sectionId h
    exact absurd rfl ((hnever _ (hpending e _ h).2).2 sectionId)
  · intro sectionId h
    exact absurd rfl ((hnever _ (hdue _ h)).2 sectionId)
  · rintro g loaded ⟨group, rfl, rfl, ⟨t, ht, hgroup⟩ | hwaits | ⟨index, hw⟩⟩ request
    · obtain ⟨g, -, rfl⟩ := List.mem_map.1 ht
      obtain rfl := Option.some.inj hgroup
      refine ⟨fun h => absurd h List.not_mem_nil, ?_⟩
      rintro ⟨-, -, h⟩
      cases h
    · cases hwaits
    · cases hw
  · intro g hg a ha
    exact Or.inr ⟨true, _, List.mem_map.2 ⟨g, List.mem_range.2 hg, rfl⟩, rfl, ha⟩

/-! ## Steps that access nothing -/

/-- A step that performs nothing may leave actions behind. -/
theorem Marking.unperformed (h : Marking G c) (hperformed : c'.shared.performed = c.shared.performed)
    (hgraph : c'.shared.graph = c.shared.graph) (hkept : ∀ e a, Pending c e a → Pending c' e a)
    (hactivating : Activating c' → Activating c) (hsound : ∀ e a, Pending c' e a → G.Sound a)
    (hifunc : ∀ e s, Pending c' e (.access (.ifuncFlags s)) → Pending c e (.access (.ifuncFlags s)))
    (hdone : ∀ item ∈ c'.shared.processed, ∀ a ∈ G.workActions item, Due c' a)
    (hearly : ∀ e sectionId request, Pending c' e (.access (.pushStartStop sectionId request)) → e = true)
    (hlate : ∀ e sectionId, Pending c' e (.access (.popStartStop sectionId)) → ¬ Activating c)
    (hfiles : ∀ g loaded, HasFiles c' g loaded → ∀ request, request ∈ loaded ↔
      request.fileId.group = g ∧ G.Loads request ∧ .loadSection request ∈ c'.shared.processed) : Marking G c' := by
  have hdue : ∀ a, Due c a → Due c' a := by
    rintro a (ha | ⟨e, ha⟩)
    · exact Or.inl (by rw [hperformed]; exact ha)
    · exact Or.inr ⟨e, hkept e a ha⟩
  have hres : ∀ s, hasResolution c' s ↔ hasResolution c s := by
    intro s
    rw [hasResolution, hasResolution, hgraph]
  constructor
  · rintro a (ha | ⟨e, ha⟩)
    · rw [hperformed] at ha
      exact h.sound a (Or.inl ha)
    · exact hsound e a ha
  · rw [hgraph]
    exact h.waiting
  · intro s
    rw [hres, hperformed]
    exact h.flags s
  · intro s hs
    exact (h.answered s ((hres s).1 hs)).imp id (·.mono hdue)
  · intro access s ha hasks
    rw [hperformed] at ha
    exact (h.asked access s ha hasks).imp id (·.mono hdue)
  · exact fun e s ha => (h.ifuncAsked e s (hifunc e s ha)).imp id (·.mono hdue)
  · intro ref ha hisIfunc hstatic
    rw [hperformed] at ha
    exact (h.ifunc ref ha hisIfunc hstatic).imp (hres _).2 (hdue _)
  · exact hdone
  · intro sectionId request ha
    rw [hperformed] at ha
    rw [hgraph]
    exact (h.pushed sectionId request ha).imp id (·.mono hdue)
  · exact hearly
  · exact fun e sectionId ha hactive => hlate e sectionId ha (hactivating hactive)
  · rintro sectionId (ha | ⟨e, ha⟩)
    · rw [hperformed] at ha
      rw [hgraph]
      rcases h.popped sectionId (Or.inl ha) with ⟨e, hpending⟩ | ⟨hempty, hnot⟩
      · exact Or.inl ⟨e, hkept e _ hpending⟩
      · exact Or.inr ⟨hempty, fun hactive => hnot (hactivating hactive)⟩
    · exact Or.inl ⟨e, ha⟩
  · exact hfiles
  · exact fun g hg a ha => hdue a (h.activated g hg a ha)

/-- The items ask for no start or stop symbols but those of the group that waits, and for no flags of an ifunc. -/
theorem workActions_access (h : a ∈ G.workActions item) :
    (∀ s, a ≠ .access (.ifuncFlags s)) ∧ (∀ sectionId request, a ≠ .access (.pushStartStop sectionId request)) ∧
      ∀ sectionId, a = .access (.popStartStop sectionId) → G.shouldDelayProcessing (G.fileId item).group = true := by
  cases item with
  | loadGlobalSymbol symbolId =>
    rcases List.mem_append.1 h with h | h
    · obtain ⟨request, -, rfl⟩ := Option.map_eq_some_iff.1 (Option.mem_toList.1 h)
      refine ⟨fun _ heq => ?_, fun _ _ heq => ?_, fun _ heq => ?_⟩ <;> cases heq
    · obtain ⟨sectionId, hsection, rfl⟩ := Option.map_eq_some_iff.1 (Option.mem_toList.1 h)
      refine ⟨fun _ heq => ?_, fun _ _ heq => ?_, fun _ _ => ?_⟩
      · cases heq
      · cases heq
      unfold GcInputs.startStopOf at hsection
      split at hsection
      · rename_i symbols hfile
        obtain ⟨files, hfiles, hfile⟩ := Option.bind_eq_some_iff.1 hfile
        simp only [GcInputs.shouldDelayProcessing, GcInputs.filesOf, GcInputs.fileId, hfiles, Option.getD_some]
        exact List.any_eq_true.2 ⟨_, List.mem_of_getElem? hfile, rfl⟩
      · cases hsection
  | copyRelocateSymbol symbolId => cases h
  | loadSection request =>
    obtain ⟨ref, -, rfl⟩ := List.mem_map.1 h
    refine ⟨fun _ heq => ?_, fun _ _ heq => ?_, fun _ heq => ?_⟩ <;> cases heq
  | exportDynamic symbolId =>
    simp only [GcInputs.workActions] at h
    split at h
    · obtain rfl := List.mem_singleton.1 h
      refine ⟨fun _ heq => ?_, fun _ _ heq => ?_, fun _ heq => ?_⟩ <;> cases heq
    · cases h

theorem sound_of_sent (h : Marking G c) (hsent : item ∈ c.shared.sent) : G.Sound (.send item) := by
  obtain ⟨action, haction, hitem⟩ := List.mem_filterMap.1 hsent
  have hsound := h.sound action (Or.inl haction)
  cases action with
  | send item' =>
    obtain rfl := Option.some.inj hitem
    exact hsound
  | sendToSlot item' =>
    obtain rfl := Option.some.inj hitem
    cases item' <;> exact hsound
  | access access => cases hitem

theorem Marking.process (h : Marking G c) {files files' : LoadedSections} {actions : List GcAction}
    (hsent : item ∈ c.shared.sent) (hfile : HasFiles c (G.fileId item).group files)
    (hwork : G.doWork item files = some (files', actions)) (hperformed : c'.shared.performed = c.shared.performed)
    (hprocessed : c'.shared.processed = item :: c.shared.processed) (hgraph : c'.shared.graph = c.shared.graph)
    (hkept : ∀ e a, Pending c e a → Pending c' e a) (hnew : ∀ a ∈ actions, Pending c' false a)
    (hold : ∀ e a, Pending c' e a → Pending c e a ∨ e = false ∧ a ∈ actions)
    (hfiles : ∀ g loaded, HasFiles c' g loaded →
      g = (G.fileId item).group ∧ loaded = files' ∨ g ≠ (G.fileId item).group ∧ HasFiles c g loaded)
    (hlate : G.shouldDelayProcessing (G.fileId item).group = true → ¬ Activating c)
    (hactivating : Activating c' → Activating c) : Marking G c' := by
  have hactions : ∀ a ∈ actions, a ∈ G.workActions item := by
    intro a ha
    rcases doWork_actions hwork with rfl | ⟨rfl, -⟩
    · exact ha
    · cases ha
  have hdue : ∀ a, Due c a → Due c' a := by
    rintro a (ha | ⟨e, ha⟩)
    · exact Or.inl (by rw [hperformed]; exact ha)
    · exact Or.inr ⟨e, hkept e a ha⟩
  apply h.unperformed hperformed hgraph hkept hactivating
  · intro e a ha
    rcases hold e a ha with ha | ⟨-, ha⟩
    · exact h.sound a (Or.inr ⟨e, ha⟩)
    · exact sound_workActions (sound_of_sent h hsent) (hactions a ha)
  · intro e s ha
    rcases hold e _ ha with ha | ⟨-, ha⟩
    · exact ha
    · exact absurd rfl ((workActions_access (hactions _ ha)).1 s)
  · intro item' hitem' a ha
    rw [hprocessed] at hitem'
    rcases List.mem_cons.1 hitem' with rfl | hitem'
    · rcases doWork_actions hwork with rfl | ⟨-, request, hrequest, rfl⟩
      · exact Or.inr ⟨false, hnew a ha⟩
      · -- the section was loaded by an earlier item, which has asked for all of it
        exact hdue a (h.done _ ((h.files _ _ hfile request).1 hrequest).2.2 a ha)
    · exact hdue a (h.done item' hitem' a ha)
  · intro e sectionId request ha
    rcases hold e _ ha with ha | ⟨-, ha⟩
    · exact h.early e sectionId request ha
    · exact absurd rfl ((workActions_access (hactions _ ha)).2.1 sectionId request)
  · intro e sectionId ha
    rcases hold e _ ha with ha | ⟨-, ha⟩
    · exact h.late e sectionId ha
    · exact hlate ((workActions_access (hactions _ ha)).2.2 sectionId rfl)
  · intro g loaded hhas request
    rw [hprocessed, List.mem_cons]
    rcases hfiles g loaded hhas with ⟨rfl, rfl⟩ | ⟨hg, hhas⟩
    · rw [mem_doWork hwork, h.files _ _ hfile request]
      constructor
      · rintro (⟨hgroup, hloads, hmem⟩ | ⟨rfl, hloads⟩)
        · exact ⟨hgroup, hloads, Or.inr hmem⟩
        · exact ⟨rfl, hloads, Or.inl rfl⟩
      · rintro ⟨hgroup, hloads, heq | hmem⟩
        · exact Or.inr ⟨heq.symm, hloads⟩
        · exact Or.inl ⟨hgroup, hloads, hmem⟩
    · rw [h.files g loaded hhas request]
      refine and_congr_right fun hgroup => and_congr_right fun _ => ?_
      constructor
      · exact Or.inr
      · rintro (rfl | hmem)
        · exact absurd hgroup.symm hg
        · exact hmem

/-! ## Steps that perform an action -/

/-- What the first access to a symbol without a resolution asks for. -/
theorem asks_next (hsound : G.Sound (.access access)) (hasks : access.asks = some s)
    (hnone : (state.flags s).hasResolution = false) :
    .send (.loadGlobalSymbol s) ∈ (G.access access state).2 ∨ G.startStopOf s = none ∧
      ∀ request, G.sectionOf s = some request → .send (.loadSection request) ∈ (G.access access state).2 := by
  cases access with
  | reference ref =>
    obtain rfl := Option.some.inj hasks
    refine Or.inl (List.mem_append_left _ ?_)
    rw [if_neg (by simpa using hnone)]
    exact List.mem_append_right _ (List.mem_singleton.2 rfl)
  | request symbolId =>
    obtain rfl := Option.some.inj hasks
    refine Or.inl ?_
    simp only [GcInputs.access, hnone]
    exact List.mem_singleton.2 rfl
  | exportDynamic symbolId =>
    obtain rfl := Option.some.inj hasks
    refine Or.inr ⟨Needed.valid hsound, fun request hrequest => ?_⟩
    simp only [GcInputs.access, hnone, hrequest]
    exact List.mem_singleton.2 rfl
  | ifuncFlags symbolId => cases hasks
  | mark symbolId flag => cases hasks
  | pushStartStop sectionId request => cases hasks
  | popStartStop sectionId => cases hasks

variable {request : SectionLoadRequest} {sectionId : OutputSectionId}

/-- The sections that wait behind an access. -/
theorem waiting_access (h : request ∈ (G.access access state).1.startStopSections sectionId) :
    request ∈ state.startStopSections sectionId ∨ access = .pushStartStop sectionId request := by
  cases access with
  | pushStartStop sectionId' request' =>
    by_cases hs : sectionId = sectionId'
    · subst hs
      simp only [GcInputs.access, Function.update_self, List.mem_append, List.mem_singleton] at h
      exact h.imp id fun h => by rw [h]
    · simp only [GcInputs.access, Function.update_of_ne hs] at h
      exact Or.inl h
  | popStartStop sectionId' =>
    simp only [GcInputs.access] at h
    split at h
    · exact Or.inl h
    · rename_i request' requests hrequests
      by_cases hs : sectionId = sectionId'
      · subst hs
        simp only [Function.update_self] at h
        exact Or.inl (by rw [hrequests]; exact List.mem_cons_of_mem _ h)
      · simp only [Function.update_of_ne hs] at h
        exact Or.inl h
  | reference ref => exact Or.inl h
  | ifuncFlags symbolId => exact Or.inl h
  | request symbolId => exact Or.inl h
  | mark symbolId flag => exact Or.inl h
  | exportDynamic symbolId => exact Or.inl h

/-- A section that waits goes on waiting or is sent. -/
theorem waiting_kept (h : request ∈ state.startStopSections sectionId) :
    request ∈ (G.access access state).1.startStopSections sectionId ∨
      .sendToSlot (.loadSection request) ∈ (G.access access state).2 := by
  cases access with
  | pushStartStop sectionId' request' =>
    refine Or.inl ?_
    by_cases hs : sectionId = sectionId'
    · subst hs
      simp only [GcInputs.access, Function.update_self]
      exact List.mem_append_left _ h
    · simp only [GcInputs.access, Function.update_of_ne hs]
      exact h
  | popStartStop sectionId' =>
    simp only [GcInputs.access]
    split
    · exact Or.inl h
    · rename_i request' requests hrequests
      by_cases hs : sectionId = sectionId'
      · subst hs
        rw [hrequests] at h
        rcases List.mem_cons.1 h with rfl | h
        · exact Or.inr List.mem_cons_self
        · simp only [Function.update_self]
          exact Or.inl h
      · simp only [Function.update_of_ne hs]
        exact Or.inl h
  | reference ref => exact Or.inl h
  | ifuncFlags symbolId => exact Or.inl h
  | request symbolId => exact Or.inl h
  | mark symbolId flag => exact Or.inl h
  | exportDynamic symbolId => exact Or.inl h

/-- What an access leaves behind: a pop comes from a pop, the flags of an ifunc from a reference, and no push does. -/
theorem next_access (h : .access access' ∈ (G.access access state).2) :
    (∃ ref, access = .reference ref ∧ access' = .ifuncFlags ref.symbolId) ∨
      ∃ sectionId, access = .popStartStop sectionId ∧ access' = .popStartStop sectionId := by
  cases access with
  | reference ref =>
    rcases List.mem_append.1 h with h | h
    · split at h
      · cases h
      · rcases List.mem_append.1 h with h | h
        · split at h
          · cases List.mem_singleton.1 h
            exact Or.inl ⟨ref, rfl, rfl⟩
          · cases h
        · cases List.mem_singleton.1 h
    · split at h
      · cases List.mem_singleton.1 h
      · cases h
  | ifuncFlags symbolId => cases h
  | request symbolId =>
    simp only [GcInputs.access] at h
    split at h
    · cases h
    · cases List.mem_singleton.1 h
  | mark symbolId flag => cases h
  | exportDynamic symbolId =>
    simp only [GcInputs.access] at h
    split at h
    · cases h
    · obtain ⟨request, -, hrequest⟩ := Option.map_eq_some_iff.1 (Option.mem_toList.1 h)
      cases hrequest
  | pushStartStop sectionId request => cases h
  | popStartStop sectionId =>
    simp only [GcInputs.access] at h
    split at h
    · cases h
    · rcases List.mem_cons.1 h with h | h
      · cases h
      · cases List.mem_singleton.1 h
        exact Or.inr ⟨sectionId, rfl, rfl⟩

/-- An item is sent. -/
theorem Marking.sends (h : Marking G c) {action : GcAction} (haction : ∀ access, action ≠ .access access)
    (hpending : Pending c e action) (hperformed : c'.shared.performed = action :: c.shared.performed)
    (hprocessed : c'.shared.processed = c.shared.processed) (hgraph : c'.shared.graph = c.shared.graph)
    (hkept : ∀ e a, Pending c e a → a = action ∨ Pending c' e a) (hold : ∀ e a, Pending c' e a → Pending c e a)
    (hfiles : ∀ g loaded, HasFiles c' g loaded → HasFiles c g loaded) (hactivating : Activating c' → Activating c) :
    Marking G c' := by
  have hdue : ∀ a, Due c a → Due c' a := by
    rintro a (ha | ⟨e, ha⟩)
    · exact Or.inl (by rw [hperformed]; exact List.mem_cons_of_mem _ ha)
    · rcases hkept e a ha with rfl | ha
      · exact Or.inl (by rw [hperformed]; exact List.mem_cons_self)
      · exact Or.inr ⟨e, ha⟩
  have hmem : ∀ access, Action.access access ∈ c'.shared.performed ↔ Action.access access ∈ c.shared.performed := by
    intro access
    rw [hperformed, List.mem_cons, or_iff_right]
    exact fun heq => haction access heq.symm
  have hres : ∀ s, hasResolution c' s ↔ hasResolution c s := by
    intro s
    rw [hasResolution, hasResolution, hgraph]
  have hpops : ∀ e sectionId, Pending c e (.access (.popStartStop sectionId)) →
      Pending c' e (.access (.popStartStop sectionId)) := by
    intro e sectionId ha
    rcases hkept e _ ha with heq | ha
    · exact absurd heq.symm (haction _)
    · exact ha
  constructor
  · rintro a (ha | ⟨e', ha⟩)
    · rw [hperformed] at ha
      rcases List.mem_cons.1 ha with rfl | ha
      · exact h.sound a (Or.inr ⟨e, hpending⟩)
      · exact h.sound a (Or.inl ha)
    · exact h.sound a (Or.inr ⟨e', hold e' a ha⟩)
  · rw [hgraph]
    exact h.waiting
  · intro s
    rw [hres, h.flags s]
    simp only [hmem]
  · intro s hs
    exact (h.answered s ((hres s).1 hs)).imp id (·.mono hdue)
  · exact fun access s ha hasks => (h.asked access s ((hmem _).1 ha) hasks).imp id (·.mono hdue)
  · exact fun e s ha => (h.ifuncAsked e s (hold e _ ha)).imp id (·.mono hdue)
  · exact fun ref ha hisIfunc hstatic => (h.ifunc ref ((hmem _).1 ha) hisIfunc hstatic).imp (hres _).2 (hdue _)
  · intro item hitem a ha
    rw [hprocessed] at hitem
    exact hdue a (h.done item hitem a ha)
  · intro sectionId request ha
    rw [hgraph]
    exact (h.pushed sectionId request ((hmem _).1 ha)).imp id (·.mono hdue)
  · exact fun e sectionId request ha => h.early e sectionId request (hold e _ ha)
  · exact fun e sectionId ha hactive => h.late e sectionId (hold e _ ha) (hactivating hactive)
  · intro sectionId ha
    rw [hgraph]
    have hbefore : Due c (.access (.popStartStop sectionId)) := by
      rcases ha with ha | ⟨e, ha⟩
      · exact Or.inl ((hmem _).1 ha)
      · exact Or.inr ⟨e, hold e _ ha⟩
    rcases h.popped sectionId hbefore with ⟨e, ha⟩ | ⟨hempty, hnot⟩
    · exact Or.inl ⟨e, hpops e sectionId ha⟩
    · exact Or.inr ⟨hempty, fun hactive => hnot (hactivating hactive)⟩
  · intro g loaded hhas request
    rw [hprocessed]
    exact h.files g loaded (hfiles g loaded hhas) request
  · exact fun g hg a ha => hdue a (h.activated g hg a ha)

/-- The shared state is accessed. -/
theorem Marking.accesses (h : Marking G c) (hpending : Pending c e (.access access))
    (hperformed : c'.shared.performed = .access access :: c.shared.performed)
    (hprocessed : c'.shared.processed = c.shared.processed)
    (hgraph : c'.shared.graph = (G.access access c.shared.graph).1)
    (hkept : ∀ e a, Pending c e a → a = .access access ∨ Pending c' e a)
    (hnew : ∀ a ∈ (G.access access c.shared.graph).2, Pending c' e a)
    (hold : ∀ e' a, Pending c' e' a → Pending c e' a ∨ e' = e ∧ a ∈ (G.access access c.shared.graph).2)
    (hfiles : ∀ g loaded, HasFiles c' g loaded → HasFiles c g loaded) (hactivating : Activating c' → Activating c) :
    Marking G c' := by
  have hsound : G.Sound (.access access) := h.sound _ (Or.inr ⟨e, hpending⟩)
  have hdue : ∀ a, Due c a → Due c' a := by
    rintro a (ha | ⟨e, ha⟩)
    · exact Or.inl (by rw [hperformed]; exact List.mem_cons_of_mem _ ha)
    · rcases hkept e a ha with rfl | ha
      · exact Or.inl (by rw [hperformed]; exact List.mem_cons_self)
      · exact Or.inr ⟨e, ha⟩
  have hmem : ∀ access', Action.access access' ∈ c'.shared.performed ↔
      access' = access ∨ Action.access access' ∈ c.shared.performed := by
    intro access'
    rw [hperformed, List.mem_cons]
    simp only [Action.access.injEq]
  have hres : ∀ s, hasResolution c' s ↔ hasResolution c s ∨ (access.adds s).hasResolution = true := by
    intro s
    rw [hasResolution, hasResolution, hgraph, access_flags, Bool.or_eq_true]
  -- a symbol that an access asks for is answered now, or was when it got its resolution
  have hasked : ∀ s, access.asks = some s → hadResolution G s ∨ Answered G c' s := by
    intro s hasks
    cases hnone : (c.shared.graph.flags s).hasResolution with
    | true => exact (h.answered s hnone).imp id (·.mono hdue)
    | false =>
      refine Or.inr ?_
      rcases asks_next hsound hasks hnone with hnext | ⟨hstartStop, hnext⟩
      · exact Or.inl (Or.inl (Or.inr ⟨e, hnew _ hnext⟩))
      · exact Or.inr ⟨hstartStop, fun request hrequest => Or.inl (Or.inr ⟨e, hnew _ (hnext request hrequest)⟩)⟩
  constructor
  · rintro a (ha | ⟨e', ha⟩)
    · rw [hperformed] at ha
      rcases List.mem_cons.1 ha with rfl | ha
      · exact hsound
      · exact h.sound a (Or.inl ha)
    · rcases hold e' a ha with ha | ⟨-, ha⟩
      · exact h.sound a (Or.inr ⟨e', ha⟩)
      · exact sound_next hsound (flags_initial h) h.waiting ha
  · intro sectionId request hrequest
    rw [hgraph] at hrequest
    rcases waiting_access hrequest with hrequest | rfl
    · exact h.waiting sectionId request hrequest
    · exact hsound
  · intro s
    rw [hres, h.flags s]
    simp only [hmem, or_and_right, exists_or, exists_eq_left, or_assoc]
    exact or_congr_right or_comm
  · intro s hs
    rcases (hres s).1 hs with hs | hadds
    · exact (h.answered s hs).imp id (·.mono hdue)
    · cases access with
      | reference ref | request symbolId | exportDynamic symbolId =>
        simp only [Access.adds] at hadds
        split at hadds
        · rename_i heq
          exact hasked s (by rw [heq]; rfl)
        · cases hadds
      | ifuncFlags symbolId =>
        simp only [Access.adds] at hadds
        split at hadds
        · rename_i heq
          subst heq
          exact (h.ifuncAsked e s hpending).imp id (·.mono hdue)
        · cases hadds
      | mark symbolId flag =>
        simp only [Access.adds] at hadds
        split at hadds
        · rename_i heq
          subst heq
          obtain ⟨hsection, hstartStop⟩ := Needed.valid hsound
          refine Or.inr (Or.inr ⟨hstartStop, fun request hrequest => ?_⟩)
          rw [hsection] at hrequest
          cases hrequest
        · cases hadds
      | pushStartStop sectionId request => cases hadds
      | popStartStop sectionId => cases hadds
  · intro access' s ha hasks
    rcases (hmem access').1 ha with rfl | ha
    · exact hasked s hasks
    · exact (h.asked access' s ha hasks).imp id (·.mono hdue)
  · intro e' s ha
    rcases hold e' _ ha with ha | ⟨-, ha⟩
    · exact (h.ifuncAsked e' s ha).imp id (·.mono hdue)
    · rcases next_access ha with ⟨ref, rfl, heq⟩ | ⟨_, -, heq⟩
      · cases heq
        exact hasked _ rfl
      · cases heq
  · intro ref ha hisIfunc hstatic
    rcases (hmem _).1 ha with rfl | ha
    · cases hnone : (c.shared.graph.flags ref.symbolId).hasResolution with
      | true => exact Or.inl ((hres _).2 (Or.inl hnone))
      | false =>
        refine Or.inr (Or.inr ⟨e, hnew _ (List.mem_append_left _ ?_)⟩)
        rw [if_neg (by simp [hnone])]
        refine List.mem_append_left _ ?_
        rw [if_pos (by rw [hisIfunc, hstatic]; rfl)]
        exact List.mem_singleton.2 rfl
    · exact (h.ifunc ref ha hisIfunc hstatic).imp (fun hs => (hres _).2 (Or.inl hs)) (hdue _)
  · intro item hitem a ha
    rw [hprocessed] at hitem
    exact hdue a (h.done item hitem a ha)
  · intro sectionId request ha
    rw [hgraph]
    rcases (hmem _).1 ha with rfl | ha
    · refine Or.inl ?_
      simp only [GcInputs.access, Function.update_self]
      exact List.mem_append_right _ (List.mem_singleton.2 rfl)
    · rcases h.pushed sectionId request ha with hwaits | hcoming
      · exact (waiting_kept hwaits).imp id fun hnext => Or.inr (Or.inr ⟨e, hnew _ hnext⟩)
      · exact Or.inr (hcoming.mono hdue)
  · intro e' sectionId request ha
    rcases hold e' _ ha with ha | ⟨-, ha⟩
    · exact h.early e' sectionId request ha
    · rcases next_access ha with ⟨_, -, heq⟩ | ⟨_, -, heq⟩
      · cases heq
      · cases heq
  · intro e' sectionId ha hactive
    rcases hold e' _ ha with ha | ⟨-, ha⟩
    · exact h.late e' sectionId ha (hactivating hactive)
    · rcases next_access ha with ⟨_, -, heq⟩ | ⟨sectionId', rfl, -⟩
      · cases heq
      · exact h.late e sectionId' hpending (hactivating hactive)
  · intro sectionId ha
    rw [hgraph]
    by_cases hpop : access = .popStartStop sectionId
    · -- the pop goes on unless nothing waits, and nothing is pushed any more
      subst hpop
      cases hrequests : c.shared.graph.startStopSections sectionId with
      | nil =>
        refine Or.inr ⟨?_, fun hactive => h.late e sectionId hpending (hactivating hactive)⟩
        simp only [GcInputs.access, hrequests]
      | cons request requests =>
        refine Or.inl ⟨e, hnew _ ?_⟩
        simp only [GcInputs.access, hrequests]
        exact List.mem_cons_of_mem _ (List.mem_singleton.2 rfl)
    · have hbefore : Due c (.access (.popStartStop sectionId)) ∨ ∃ e, Pending c' e (.access (.popStartStop sectionId)) := by
        rcases ha with ha | ha
        · rcases (hmem _).1 ha with heq | ha
          · exact absurd heq.symm hpop
          · exact Or.inl (Or.inl ha)
        · exact Or.inr ha
      rcases hbefore with hbefore | hafter
      · rcases h.popped sectionId hbefore with ⟨e', ha⟩ | ⟨hempty, hnot⟩
        · rcases hkept e' _ ha with heq | ha
          · exact absurd (Action.access.inj heq).symm hpop
          · exact Or.inl ⟨e', ha⟩
        · refine Or.inr ⟨?_, fun hactive => hnot (hactivating hactive)⟩
          rw [List.eq_nil_iff_forall_not_mem]
          intro request hrequest
          rcases waiting_access hrequest with hrequest | rfl
          · rw [hempty] at hrequest
            cases hrequest
          · exact hnot (pending_activating hpending (h.early e sectionId request hpending))
      · exact Or.inl hafter
  · intro g loaded hhas request
    rw [hprocessed]
    exact h.files g loaded (hfiles g loaded hhas) request
  · exact fun g hg a ha => hdue a (h.activated g hg a ha)

/-! ## Every interleaving -/

/-- **Every step without an error keeps what is known of the marking.** -/
theorem Marking.move (h : Marking G c) (hactivating : Activating c' → Activating c) (hmove : Move G.program c c') :
    Marking G c' := by
  cases hmove with
  | perform action e hpending hperformed hprocessed hgraph hkept hnew hold hfiles =>
    cases action with
    | access access => exact h.accesses hpending hperformed hprocessed hgraph hkept hnew hold hfiles hactivating
    | send item | sendToSlot item =>
      exact h.sends (fun _ heq => by cases heq) hpending hperformed hprocessed hgraph hkept
        (fun e a ha => (hold e a ha).elim id fun ha => absurd ha.2 List.not_mem_nil) hfiles hactivating
  | process item files files' actions hsent hfile hwork hperformed hprocessed hgraph hkept hnew hold hfiles hlate =>
    exact h.process hsent hfile hwork hperformed hprocessed hgraph hkept hnew hold hfiles hlate hactivating
  | quiet hperformed hprocessed hgraph hpending hfiles =>
    apply h.unperformed hperformed hgraph (fun e a => (hpending e a).2) hactivating
    · exact fun e a ha => h.sound a (Or.inr ⟨e, (hpending e a).1 ha⟩)
    · exact fun e s => (hpending e _).1
    · intro item hitem a ha
      rw [hprocessed] at hitem
      refine (h.done item hitem a ha).imp (fun ha => ?_) fun ⟨e, ha⟩ => ⟨e, (hpending e a).2 ha⟩
      rw [hperformed]
      exact ha
    · exact fun e sectionId request ha => h.early e sectionId request ((hpending e _).1 ha)
    · exact fun e sectionId ha => h.late e sectionId ((hpending e _).1 ha)
    · intro g loaded hhas request
      rw [hprocessed]
      exact h.files g loaded (hfiles g loaded hhas) request

theorem marking_of_reachable (hreach : Reachable G.program.act G.initial c) (herrors : c.shared.errors = false) :
    Marking G c :=
  moves_induction hreach herrors (marking_initial G) fun _ _ h hactivating hmove => h.move hactivating hmove

/-! ## The result -/

/-- The sections that the workers have loaded. -/
def loadedSections (c : Phase) : Set SectionLoadRequest :=
  {request | ∃ g worker, (c.shared.workerSlots g).worker = some worker ∧ request ∈ worker.files}

/-- The symbols that have a resolution. -/
def loadedSymbols (c : Phase) : Set SymbolId := {s | hasResolution c s}

def neededSections (G : GcInputs) : Set SectionLoadRequest :=
  {request | Needed G (.item (.loadSection request)) ∧ G.Loads request}

/-- The symbols that had a resolution, those that a needed access gives one, and the ifuncs that a static executable
refers to. -/
def neededSymbols (G : GcInputs) : Set SymbolId :=
  {s | hadResolution G s ∨ ∃ access, Needed G (.access access) ∧ ((access.adds s).hasResolution = true ∨
    ∃ ref, access = .reference ref ∧ ref.symbolId = s ∧ (G.flags s).isIfunc = true ∧
      G.outputKind.isStaticExecutable = true)}

theorem not_pending (htasks : c.tasks = []) : ¬ Pending c e a := by
  unfold Pending
  rw [htasks]
  exact pendingIn_nil

theorem due_iff (htasks : c.tasks = []) : Due c a ↔ a ∈ c.shared.performed := by
  refine ⟨fun h => h.elim id ?_, Or.inl⟩
  rintro ⟨e, h⟩
  exact absurd h (not_pending htasks)

/-- An item that was sent has a group. -/
theorem group_of_sent (h : Marking G c) (hsent : item ∈ c.shared.sent) :
    (G.fileId item).group < G.groups.length := by
  have hsound := sound_of_sent h hsent
  cases item with
  | loadSection request => exact Needed.valid hsound
  | loadGlobalSymbol symbolId => exact G.group_lt symbolId
  | copyRelocateSymbol symbolId => exact G.group_lt symbolId
  | exportDynamic symbolId => exact G.group_lt symbolId

/-- What has been done when no thread is left. -/
def Fulfilled (G : GcInputs) (c : Phase) : Fact → Prop
  | .access access => .access access ∈ c.shared.performed
  | .definition s => Answered G c s
  | .item item => item ∈ c.shared.processed

/-- **When no thread is left, all that is needed has been done.** -/
theorem fulfilled_of_needed (h : Marking G c) (htasks : c.tasks = [])
    (hprocessed : ∀ item, item ∈ c.shared.processed ↔ item ∈ c.shared.sent) {fact : Fact} (hneeded : Needed G fact) :
    Fulfilled G c fact := by
  have hsent : ∀ {item}, Coming c item → item ∈ c.shared.processed := by
    intro item hcoming
    rw [hprocessed]
    rcases hcoming with ha | ha
    · exact List.mem_filterMap.2 ⟨_, (due_iff htasks).1 ha, rfl⟩
    · exact List.mem_filterMap.2 ⟨_, (due_iff htasks).1 ha, rfl⟩
  induction hneeded with
  | activated hg ha => exact (due_iff htasks).1 (h.activated _ hg _ ha)
  | sent hg ha => exact hsent (Or.inl (h.activated _ hg _ ha))
  | definition hneeded hasks hnone ih =>
    rcases h.asked _ _ ih hasks with hhad | hanswered
    · rw [hadResolution, hnone] at hhad
      cases hhad
    · exact hanswered
  | section_ hneeded hsection ih =>
    rcases ih with hcoming | ⟨-, hcoming⟩
    · apply hsent
      refine Or.inl (h.done _ (hsent hcoming) _ (List.mem_append_left _ ?_))
      rw [hsection]
      exact List.mem_singleton.2 rfl
    · exact hsent (hcoming _ hsection)
  | startStop hneeded hsection ih =>
    rcases ih with hcoming | ⟨hnone, -⟩
    · refine (due_iff htasks).1 (h.done _ (hsent hcoming) _ (List.mem_append_right _ ?_))
      rw [hsection]
      exact List.mem_singleton.2 rfl
    · rw [hsection] at hnone
      cases hnone
  | popped hpop hpush ihpop ihpush =>
    -- the pops end when nothing waits, so that what was pushed has been sent
    rcases h.popped _ (Or.inl ihpop) with ⟨e, hpending⟩ | ⟨hempty, -⟩
    · exact absurd hpending (not_pending htasks)
    · rcases h.pushed _ _ ihpush with hwaits | hcoming
      · rw [hempty] at hwaits
        cases hwaits
      · exact hsent hcoming
  | referenced hneeded href ih =>
    exact (due_iff htasks).1 (h.done _ ih _ (List.mem_map.2 ⟨_, href, rfl⟩))
  | exported hneeded hexports ih =>
    refine (due_iff htasks).1 (h.done _ ih _ ?_)
    rw [GcInputs.workActions, if_pos hexports]
    exact List.mem_singleton.2 rfl

/-- The sections that are loaded in the end are those that are needed. -/
theorem loadedSections_eq (h : Marking G c) (htasks : c.tasks = [])
    (hprocessed : ∀ item, item ∈ c.shared.processed ↔ item ∈ c.shared.sent)
    (hworkers : ∀ g < G.groups.length, ∃ worker, c.shared.workerSlots g = { work := [], worker := some worker } ∧
      worker.index = g ∧ worker.localWork = []) :
    loadedSections c = neededSections G := by
  ext request
  constructor
  · rintro ⟨g, worker, hworker, hmem⟩
    have hfiles := h.files worker.index worker.files ⟨worker, rfl, rfl, Or.inr (Or.inr ⟨g, hworker⟩)⟩ request
    obtain ⟨-, hloads, hdone⟩ := hfiles.1 hmem
    exact ⟨sound_of_sent h ((hprocessed _).1 hdone), hloads⟩
  · rintro ⟨hneeded, hloads⟩
    obtain ⟨worker, hslot, hg, -⟩ := hworkers _ (Needed.valid hneeded)
    have hworker : (c.shared.workerSlots request.fileId.group).worker = some worker := by rw [hslot]
    have hfiles := h.files worker.index worker.files ⟨worker, rfl, rfl, Or.inr (Or.inr ⟨_, hworker⟩)⟩ request
    exact ⟨_, worker, hworker, hfiles.2 ⟨hg.symm, hloads, fulfilled_of_needed h htasks hprocessed hneeded⟩⟩

/-- The symbols that have a resolution in the end are those that need one. -/
theorem loadedSymbols_eq (h : Marking G c) (htasks : c.tasks = [])
    (hprocessed : ∀ item, item ∈ c.shared.processed ↔ item ∈ c.shared.sent) : loadedSymbols c = neededSymbols G := by
  ext s
  constructor
  · intro hs
    rcases (h.flags s).1 hs with hhad | ⟨access, hperformed, hadds⟩
    · exact Or.inl hhad
    · have hsound := h.sound _ (Or.inl hperformed)
      cases access with
      | ifuncFlags symbolId =>
        obtain ⟨ref, hneeded, rfl, hifunc⟩ := hsound
        simp only [Access.adds] at hadds
        split at hadds
        · rename_i heq
          subst heq
          exact Or.inr ⟨_, hneeded, Or.inr ⟨ref, rfl, rfl, hifunc⟩⟩
        · cases hadds
      | _ => exact Or.inr ⟨_, hsound, Or.inl hadds⟩
  · rintro (hhad | ⟨access, hneeded, hadds | ⟨ref, rfl, rfl, hifunc, hstatic⟩⟩)
    · exact (h.flags s).2 (Or.inl hhad)
    · exact (h.flags s).2 (Or.inr ⟨access, fulfilled_of_needed h htasks hprocessed hneeded, hadds⟩)
    · rcases h.ifunc ref (fulfilled_of_needed h htasks hprocessed hneeded) hifunc hstatic with hs | hdue
      · exact hs
      · refine (h.flags _).2 (Or.inr ⟨_, (due_iff htasks).1 hdue, ?_⟩)
        simp [Access.adds, ValueFlags.hasResolution]

/-- **When no thread is left, every item that was sent has been processed once and every worker is in its slot with
nothing to do; which sections and symbols are loaded does not depend on the interleaving.** -/
theorem every_interleaving (hreach : Reachable G.program.act G.initial c) (htasks : c.tasks = [])
    (herrors : c.shared.errors = false) :
    c.shared.processed.Perm c.shared.sent ∧
      (∀ g < G.groups.length, ∃ worker, c.shared.workerSlots g = { work := [], worker := some worker } ∧
        worker.index = g ∧ worker.localWork = []) ∧
      ∀ c', Reachable G.program.act G.initial c' → c'.tasks = [] → c'.shared.errors = false →
        loadedSections c' = loadedSections c ∧ loadedSymbols c' = loadedSymbols c := by
  have hresult : ∀ c, Reachable G.program.act G.initial c → c.tasks = [] → c.shared.errors = false →
      (c.shared.processed.Perm c.shared.sent ∧
        ∀ g < G.groups.length, ∃ worker, c.shared.workerSlots g = { work := [], worker := some worker } ∧
          worker.index = g ∧ worker.localWork = []) ∧
        loadedSections c = neededSections G ∧ loadedSymbols c = neededSymbols G := by
    intro c hreach htasks herrors
    have h := marking_of_reachable hreach herrors
    obtain ⟨r, tasks⟩ := c
    obtain rfl : tasks = [] := htasks
    have hdone := workers_done hreach herrors fun item hsent => group_of_sent h hsent
    have hprocessed : ∀ item, item ∈ r.processed ↔ item ∈ r.sent := fun item => hdone.1.mem_iff
    exact ⟨hdone, loadedSections_eq h rfl hprocessed hdone.2,
      loadedSymbols_eq h rfl hprocessed⟩
  obtain ⟨⟨hperm, hworkers⟩, hsections, hsymbols⟩ := hresult c hreach htasks herrors
  refine ⟨hperm, hworkers, fun c' hreach' htasks' herrors' => ?_⟩
  obtain ⟨-, hsections', hsymbols'⟩ := hresult c' hreach' htasks' herrors'
  exact ⟨hsections'.trans hsections.symm, hsymbols'.trans hsymbols.symm⟩

/-- An object refers to a symbol of a second one and to a start symbol for whose section the second one has an input
section, which nothing else refers to. -/
def startStopInputs : GcInputs where
  groups :=
    [[.object {
        sections := [{
          slot := .mustLoad, outputSectionId := 40
          references := some [⟨1, .ofList [.direct]⟩, ⟨2, .ofList [.direct]⟩] }]
        startSymbolId := 3, symbols := [] }],
      [.object {
        sections := [{ slot := .unloaded false, outputSectionId := 40 }, { slot := .unloaded true, outputSectionId := 60 }]
        startSymbolId := 1, symbols := [{ sectionIndex := some 0 }] }],
      [.syntheticSymbols { startSymbolId := 2, symbolDefinitions := [{ sectionId := some 60 }] }]]
  definition := id
  fileIdForSymbol := fun s => if s = 1 then ⟨1, 0⟩ else if s = 2 then ⟨2, 0⟩ else ⟨0, 0⟩
  flags := fun _ => .empty
  outputKind := .staticExecutable .nonRelocatable
  shouldGcSections := true
  exportAllDynamicSymbols := false
  hasExportList := false
  file_of_symbol := by
    rintro (_ | _ | _ | g) files (_ | f) file hfiles hfile s hs <;> cases hfiles <;> cases hfile <;>
      simp_all [GcFile.symbolIds, InternalSymbols.symbolIds]
  group_lt := by
    intro s
    simp only [List.length_cons, List.length_nil]
    split
    · decide
    · split <;> decide

/-- In every interleaving the section is loaded that only the start symbol keeps. -/
theorem every_interleaving_startStop :
    (runLast startStopInputs.program.act 40 startStopInputs.initial).shared.processed.length = 5 ∧
      ∀ c, Reachable startStopInputs.program.act startStopInputs.initial c → c.tasks = [] → c.shared.errors = false →
        ⟨⟨1, 0⟩, 1⟩ ∈ loadedSections c := by
  refine ⟨by decide, fun c hreach htasks herrors => ?_⟩
  have hsame := (every_interleaving (reachable_runLast 40 startStopInputs.initial) (by decide) (by decide)).2.2 c hreach
    htasks herrors
  rw [hsame.1]
  exact ⟨1, _, rfl, by decide⟩

end Reld.Gc
