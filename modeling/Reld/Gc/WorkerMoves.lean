import Reld.Gc.WorkersDone

/-!
# `Gc.WorkerMoves` — what a step of a worker shows

Seen from the files, a step performs one pending action, processes one item that was sent, or only moves workers and
work about (`Move`). Behind that the protocol is not needed any more: what the files do is proved from the moves alone.
A worker of the delayed group works only when no group is being activated (`Late`).
-/

namespace Reld.Gc

open Tasks

variable {ι ρ α σ : Type}

/-- The configurations of a run. -/
abbrev GcConfig (ι ρ α σ : Type) := Config (GraphResources ι ρ α σ) (WorkerTask ι ρ α)

/-- The actions that are left in a thread. -/
def WorkerTask.actions : WorkerTask ι ρ α → List (Action ι α)
  | .activating _ actions | .working _ actions _ => actions
  | .countDown | .popDelayed => []

def WorkerTask.isActivating : WorkerTask ι ρ α → Bool
  | .activating _ _ => true
  | _ => false

/-- A group is being activated. -/
def Activating (c : GcConfig ι ρ α σ) : Prop := ∃ t ∈ c.tasks, t.isActivating = true

/-- An action is left in one of the threads, in an activation or behind one. -/
def PendingIn (tasks : List (WorkerTask ι ρ α)) (activating : Bool) (action : Action ι α) : Prop :=
  ∃ t ∈ tasks, t.isActivating = activating ∧ action ∈ t.actions

/-- An action is to be performed. -/
def Pending (c : GcConfig ι ρ α σ) (activating : Bool) (action : Action ι α) : Prop :=
  PendingIn c.tasks activating action

/-- The files of a group, wherever its worker is. -/
def HasFiles (c : GcConfig ι ρ α σ) (g : Nat) (files : ρ) : Prop :=
  ∃ group : GroupState ι ρ, group.index = g ∧ group.files = files ∧
    ((∃ t ∈ c.tasks, t.group? = some group) ∨ group ∈ c.shared.delayProcessing ∨
      ∃ index, (c.shared.workerSlots index).worker = some group)

/-- What an action makes its worker do next. -/
def Program.next (p : Program ι ρ α σ) (graph : σ) : Action ι α → List (Action ι α)
  | .access a => (p.access a graph).2
  | _ => []

/-- The shared state of the files behind an action. -/
def Program.after (p : Program ι ρ α σ) (graph : σ) : Action ι α → σ
  | .access a => (p.access a graph).1
  | _ => graph

/-- A step, as the files see it. -/
inductive Move (p : Program ι ρ α σ) (c c' : GcConfig ι ρ α σ) : Prop where
  | perform (action : Action ι α) (activating : Bool) (hpending : Pending c activating action)
      (hperformed : c'.shared.performed = action :: c.shared.performed)
      (hprocessed : c'.shared.processed = c.shared.processed)
      (hgraph : c'.shared.graph = p.after c.shared.graph action)
      (hkept : ∀ e a, Pending c e a → a = action ∨ Pending c' e a)
      (hnew : ∀ a ∈ p.next c.shared.graph action, Pending c' activating a)
      (hold : ∀ e a, Pending c' e a → Pending c e a ∨ e = activating ∧ a ∈ p.next c.shared.graph action)
      (hfiles : ∀ g files, HasFiles c' g files → HasFiles c g files)
  | process (item : ι) (files files' : ρ) (actions : List (Action ι α)) (hsent : item ∈ c.shared.sent)
      (hfile : HasFiles c (p.group item) files) (hwork : p.doWork item files = some (files', actions))
      (hperformed : c'.shared.performed = c.shared.performed)
      (hprocessed : c'.shared.processed = item :: c.shared.processed) (hgraph : c'.shared.graph = c.shared.graph)
      (hkept : ∀ e a, Pending c e a → Pending c' e a) (hnew : ∀ a ∈ actions, Pending c' false a)
      (hold : ∀ e a, Pending c' e a → Pending c e a ∨ e = false ∧ a ∈ actions)
      (hfiles : ∀ g files, HasFiles c' g files →
        g = p.group item ∧ files = files' ∨ g ≠ p.group item ∧ HasFiles c g files)
      (hlate : p.delays (p.group item) = true → ¬ Activating c)
  | quiet (hperformed : c'.shared.performed = c.shared.performed)
      (hprocessed : c'.shared.processed = c.shared.processed) (hgraph : c'.shared.graph = c.shared.graph)
      (hpending : ∀ e a, Pending c' e a ↔ Pending c e a)
      (hfiles : ∀ g files, HasFiles c' g files → HasFiles c g files)

/-- The worker of the delayed group has no thread and is not parked while a group is activated. -/
structure Late (p : Program ι ρ α σ) (c : GcConfig ι ρ α σ) : Prop where
  working : ∀ t ∈ c.tasks, t.isActivating = false → ∀ group ∈ t.group?, p.delays group.index = true → ¬ Activating c
  parked : ∀ g, ∀ w ∈ (c.shared.workerSlots g).worker, p.delays g = true → ¬ Activating c
  draining : ∀ t ∈ c.tasks, 0 < drains t → ¬ Activating c

section

variable {t : WorkerTask ι ρ α} {front behind new tasks tasks' : List (WorkerTask ι ρ α)} {e : Bool} {a : Action ι α}

@[simp] theorem pendingIn_nil : ¬ PendingIn ([] : List (WorkerTask ι ρ α)) e a := by
  rintro ⟨t, ht, -⟩
  cases ht

@[simp] theorem pendingIn_cons :
    PendingIn (t :: tasks) e a ↔ (t.isActivating = e ∧ a ∈ t.actions) ∨ PendingIn tasks e a := by
  simp [PendingIn]

@[simp] theorem pendingIn_append : PendingIn (tasks ++ tasks') e a ↔ PendingIn tasks e a ∨ PendingIn tasks' e a := by
  simp [PendingIn, or_and_right, exists_or]

theorem pendingIn_middle : PendingIn (front ++ t :: behind) e a ↔
    (t.isActivating = e ∧ a ∈ t.actions) ∨ PendingIn (front ++ behind) e a := by
  simp only [pendingIn_append, pendingIn_cons]
  exact or_left_comm

variable {t' : WorkerTask ι ρ α}

theorem mem_middle : t' ∈ front ++ t :: behind ↔ t' = t ∨ t' ∈ front ++ behind := by
  simp only [List.mem_append, List.mem_cons]
  exact or_left_comm

variable {p : Program ι ρ α σ} {r : GraphResources ι ρ α σ} {group : GroupState ι ρ}

theorem pendingIn_of_idle (hidle : ∀ t ∈ tasks, t.actions = []) : ¬ PendingIn tasks e a := by
  rintro ⟨t, ht, -, ha⟩
  rw [hidle t ht] at ha
  cases ha

theorem actions_afterWork (next : AfterWork) :
    ∀ t ∈ (afterWork next : List (WorkerTask ι ρ α)), t.actions = [] ∧ t.isActivating = false ∧ t.group? = none := by
  cases next <;> simp [afterWork, WorkerTask.actions, WorkerTask.isActivating, WorkerTask.group?]

/-! ## Activations -/

variable {action : Action ι α}

/-- Whoever is spawned was parked. -/
theorem spawned_of_perform (h : t ∈ (p.perform action group r).spawned) :
    ∃ g w, t = .working w [] .ends ∧ (r.workerSlots g).worker = some w := by
  have hspawned : ∀ g, ∀ t ∈ ({ r with performed := action :: r.performed }.spawned g),
      ∃ g w, t = .working w [] .ends ∧ (r.workerSlots g).worker = some w := by
    intro g t ht
    obtain ⟨w, hw, rfl⟩ := Option.map_eq_some_iff.1 (Option.mem_toList.1 ht)
    exact ⟨g, w, rfl, hw⟩
  unfold Program.perform at h
  cases action with
  | send item =>
    simp only at h
    split at h
    · cases h
    · exact hspawned _ t h
  | sendToSlot item => exact hspawned _ t h
  | access a => cases h

/-- An action takes workers out of their slots and puts none back. -/
theorem worker_of_perform {g : Nat} {w : GroupState ι ρ}
    (h : ((p.perform action group r).resources.workerSlots g).worker = some w) : (r.workerSlots g).worker = some w := by
  have hsent : ∀ index item, (({ r with performed := action :: r.performed }.sendWork index item).workerSlots g).worker =
      some w → (r.workerSlots g).worker = some w := by
    intro index item hw
    by_cases hg : g = index
    · simp only [GraphResources.sendWork, GraphResources.setSlot, hg, Function.update_self] at hw
      cases hw
    · simpa only [GraphResources.sendWork, GraphResources.setSlot, Function.update_of_ne hg] using hw
  unfold Program.perform at h
  cases action with
  | send item =>
    simp only at h
    split at h
    · exact h
    · exact hsent _ _ h
  | sendToSlot item => exact hsent _ _ h
  | access a => exact h

theorem perform_group (p : Program ι ρ α σ) (action : Action ι α) (group : GroupState ι ρ)
    (r : GraphResources ι ρ α σ) : (p.perform action group r).group.index = group.index ∧
      (p.perform action group r).group.files = group.files ∧
      (p.perform action group r).resources.delayProcessing = r.delayProcessing := by
  unfold Program.perform
  cases action with
  | send item =>
    simp only
    split <;> exact ⟨rfl, rfl, rfl⟩
  | sendToSlot item => exact ⟨rfl, rfl, rfl⟩
  | access a => exact ⟨rfl, rfl, rfl⟩

/-- No step starts an activation. -/
theorem activating_of_act (ht' : t' ∈ (p.act t r).2) (h : t'.isActivating = true) :
    t.isActivating = true := by
  unfold Program.act at ht'
  split at ht'
  · rfl
  · rfl
  · rcases List.mem_cons.1 ht' with rfl | ht'
    · cases h
    · obtain ⟨_, _, rfl, -⟩ := spawned_of_perform ht'
      cases h
  · split at ht'
    · split at ht'
      · obtain rfl := List.mem_singleton.1 ht'
        cases h
      · rw [(actions_afterWork _ _ ht').2.1] at h
        cases h
    · simp only at ht'
      split at ht'
      · rw [(actions_afterWork _ _ ht').2.1] at h
        cases h
      · obtain rfl := List.mem_singleton.1 ht'
        cases h
  · split at ht'
    · obtain rfl := List.mem_singleton.1 ht'
      cases h
    · cases ht'
  · split at ht'
    · cases ht'
    · obtain rfl := List.mem_singleton.1 ht'
      cases h

variable {c c' : GcConfig ι ρ α σ}

theorem activating_of_step (hstep : Step p.act c c') (h : Activating c') : Activating c := by
  obtain ⟨front, t, behind, htasks, rfl⟩ := hstep
  obtain ⟨t', ht', hactivating⟩ := h
  rcases List.mem_append.1 ht' with ht' | ht'
  · exact ⟨t, by rw [htasks]; exact mem_middle.2 (Or.inl rfl), activating_of_act ht' hactivating⟩
  · exact ⟨t', by rw [htasks]; exact mem_middle.2 (Or.inr ht'), hactivating⟩

theorem late_initial (p : Program ι ρ α σ) (graph : σ) : Late p (p.initial graph) := by
  have hactivating : ∀ t ∈ (p.initial graph).tasks, t.isActivating = true ∧ drains t = 0 := by
    intro t ht
    obtain ⟨g, -, rfl⟩ := List.mem_map.1 ht
    exact ⟨rfl, rfl⟩
  constructor
  · intro t ht hnot
    rw [(hactivating t ht).1] at hnot
    cases hnot
  · intro g w hw
    cases hw
  · intro t ht hdrains
    rw [(hactivating t ht).2] at hdrains
    cases hdrains

variable {r' : GraphResources ι ρ α σ}

/-- It is enough to look at the threads that a step leaves and at the slots that it changes. -/
theorem Late.step_of (h : Late p ⟨r, front ++ t :: behind⟩)
    (hactivating : Activating (⟨r', new ++ (front ++ behind)⟩ : GcConfig ι ρ α σ) →
      Activating (⟨r, front ++ t :: behind⟩ : GcConfig ι ρ α σ))
    (hworking : ∀ t' ∈ new, t'.isActivating = false → ∀ group ∈ t'.group?, p.delays group.index = true →
      ¬ Activating (⟨r, front ++ t :: behind⟩ : GcConfig ι ρ α σ))
    (hparked : ∀ g, ∀ w ∈ (r'.workerSlots g).worker, p.delays g = true →
      ¬ Activating (⟨r, front ++ t :: behind⟩ : GcConfig ι ρ α σ))
    (hdraining : ∀ t' ∈ new, 0 < drains t' → ¬ Activating (⟨r', new ++ (front ++ behind)⟩ : GcConfig ι ρ α σ)) :
    Late p ⟨r', new ++ (front ++ behind)⟩ := by
  constructor
  · intro t' ht' hnot group hgroup hdelays hactive
    rcases List.mem_append.1 ht' with ht' | ht'
    · exact hworking t' ht' hnot group hgroup hdelays (hactivating hactive)
    · exact h.working t' (mem_middle.2 (Or.inr ht')) hnot group hgroup hdelays (hactivating hactive)
  · exact fun g w hw hdelays hactive => hparked g w hw hdelays (hactivating hactive)
  · intro t' ht' hdrains hactive
    rcases List.mem_append.1 ht' with ht' | ht'
    · exact hdraining t' ht' hdrains hactive
    · exact h.draining t' (mem_middle.2 (Or.inr ht')) hdrains (hactivating hactive)

theorem Late.perform (again : GroupState ι ρ → WorkerTask ι ρ α) (h : Late p ⟨r, front ++ t :: behind⟩)
    (hslots : SlotsOk p r) (hgroup : t.group? = some group) (hagain : ∀ group', (again group').group? = some group')
    (hsame : ∀ group', (again group').isActivating = t.isActivating) (hdrains : ∀ group', drains (again group') = drains t)
    (action : Action ι α)
    (hactivating : Activating (⟨(p.perform action group r).resources, again (p.perform action group r).group ::
      (p.perform action group r).spawned ++ (front ++ behind)⟩ : GcConfig ι ρ α σ) →
        Activating (⟨r, front ++ t :: behind⟩ : GcConfig ι ρ α σ)) :
    Late p ⟨(p.perform action group r).resources,
      again (p.perform action group r).group :: (p.perform action group r).spawned ++ (front ++ behind)⟩ := by
  have ht : t ∈ front ++ t :: behind := mem_middle.2 (Or.inl rfl)
  apply h.step_of hactivating
  · intro t' ht' hnot group' hgroup' hdelays
    rcases List.mem_cons.1 ht' with rfl | ht'
    · rw [hagain] at hgroup'
      cases hgroup'
      rw [hsame] at hnot
      rw [(perform_group p action group r).1] at hdelays
      exact h.working t ht hnot group hgroup hdelays
    · obtain ⟨g, w, ht', hw⟩ := spawned_of_perform ht'
      subst ht'
      obtain rfl : w = group' := Option.some.inj hgroup'
      obtain ⟨-, -, hindex⟩ := hslots.parked g w hw
      rw [hindex] at hdelays
      exact h.parked g w hw hdelays
  · exact fun g w hw hdelays => h.parked g w (worker_of_perform hw) hdelays
  · intro t' ht' hpositive hactive
    rcases List.mem_cons.1 ht' with rfl | ht'
    · rw [hdrains] at hpositive
      exact h.draining t ht hpositive (hactivating hactive)
    · obtain ⟨g, w, rfl, -⟩ := spawned_of_perform ht'
      cases hpositive

theorem drains_afterWork (next : AfterWork) (ht' : t' ∈ afterWork next) :
    drains t' = next.drains := by
  cases next with
  | ends => cases ht'
  | countsDown =>
    obtain rfl := List.mem_singleton.1 ht'
    rfl
  | popsDelayed =>
    obtain rfl := List.mem_singleton.1 ht'
    rfl

variable [DecidableEq ι]

/-- **No step lets the delayed group work while a group is activated.** -/
theorem Late.step (h : Late p c) (hheld : Held p c) (hstep : Step p.act c c') : Late p c' := by
  have hactivating : Activating c' → Activating c := activating_of_step hstep
  obtain ⟨front, t, behind, htasks, rfl⟩ := hstep
  obtain ⟨r, tasks⟩ := c
  obtain rfl : tasks = front ++ t :: behind := htasks
  have ht : t ∈ front ++ t :: behind := mem_middle.2 (Or.inl rfl)
  cases t with
  | activating group actions =>
    cases actions with
    | cons action rest =>
      exact h.perform (fun group' => .activating group' _) hheld.slotsOk rfl (fun _ => rfl) (fun _ => rfl)
        (fun _ => rfl) action hactivating
    | nil =>
      unfold Program.act at hactivating ⊢
      simp only at hactivating ⊢
      split
      · rename_i hdelays
        rw [if_pos hdelays] at hactivating
        apply h.step_of hactivating
        · intro t' ht' _ group' hgroup'
          obtain rfl := List.mem_singleton.1 ht'
          cases hgroup'
        · exact h.parked
        · intro t' ht' hpositive
          obtain rfl := List.mem_singleton.1 ht'
          cases hpositive
      · rename_i hdelays
        rw [if_neg hdelays] at hactivating
        apply h.step_of hactivating
        · intro t' ht' _ group' hgroup' hdelays'
          obtain rfl := List.mem_singleton.1 ht'
          cases hgroup'
          exact absurd hdelays' hdelays
        · exact h.parked
        · intro t' ht' hpositive
          obtain rfl := List.mem_singleton.1 ht'
          cases hpositive
  | working group actions next =>
    have hdraining := fun hpositive : 0 < next.drains => h.draining _ ht hpositive
    have hworking := fun hdelays => h.working _ ht rfl group rfl hdelays
    cases actions with
    | cons action rest =>
      exact h.perform (fun group' => .working group' _ next) hheld.slotsOk rfl (fun _ => rfl) (fun _ => rfl)
        (fun _ => rfl) action hactivating
    | nil =>
      unfold Program.act at hactivating ⊢
      cases hlocal : group.localWork with
      | cons item localWork =>
        simp only [hlocal] at hactivating ⊢
        cases hwork : p.doWork item group.files with
        | some done =>
          simp only [hwork] at hactivating ⊢
          apply h.step_of hactivating
          · intro t' ht' _ group' hgroup' hdelays
            obtain rfl := List.mem_singleton.1 ht'
            cases hgroup'
            exact hworking hdelays
          · exact h.parked
          · intro t' ht' hpositive hactive
            obtain rfl := List.mem_singleton.1 ht'
            exact hdraining hpositive (hactivating hactive)
        | none =>
          simp only [hwork] at hactivating ⊢
          apply h.step_of hactivating
          · intro t' ht' _ group' hgroup'
            rw [(actions_afterWork _ _ ht').2.2] at hgroup'
            cases hgroup'
          · exact h.parked
          · intro t' ht' hpositive hactive
            rw [drains_afterWork _ ht'] at hpositive
            exact hdraining hpositive (hactivating hactive)
      | nil =>
        simp only [hlocal] at hactivating ⊢
        split
        · rename_i hempty
          rw [if_pos hempty] at hactivating
          apply h.step_of hactivating
          · intro t' ht' _ group' hgroup'
            rw [(actions_afterWork _ _ ht').2.2] at hgroup'
            cases hgroup'
          · intro g w hw hdelays
            by_cases hg : g = group.index
            · subst hg
              exact hworking hdelays
            · simp only [GraphResources.setSlot, Function.update_of_ne hg] at hw
              exact h.parked g w hw hdelays
          · intro t' ht' hpositive hactive
            rw [drains_afterWork _ ht'] at hpositive
            exact hdraining hpositive (hactivating hactive)
        · rename_i hwork
          rw [if_neg hwork] at hactivating
          apply h.step_of hactivating
          · intro t' ht' _ group' hgroup' hdelays
            obtain rfl := List.mem_singleton.1 ht'
            cases hgroup'
            exact hworking hdelays
          · intro g w hw hdelays
            apply h.parked g w _ hdelays
            by_cases hg : g = group.index
            · simpa only [GraphResources.setSlot, hg, Function.update_self] using hw
            · simpa only [GraphResources.setSlot, Function.update_of_ne hg] using hw
          · intro t' ht' hpositive hactive
            obtain rfl := List.mem_singleton.1 ht'
            exact hdraining hpositive (hactivating hactive)
  | countDown =>
    unfold Program.act at hactivating ⊢
    simp only at hactivating ⊢
    apply h.step_of hactivating
    · intro t' ht' _ group' hgroup'
      split at ht'
      · obtain rfl := List.mem_singleton.1 ht'
        cases hgroup'
      · cases ht'
    · exact h.parked
    · -- the count is zero only when no thread counts any more, and every activation does
      intro t' ht' hpositive hactive
      split at ht'
      · rename_i hzero
        rw [if_pos hzero] at hactive
        have hcounted := hheld.counted
        rw [total_middle] at hcounted
        have hone : counts (.countDown : WorkerTask ι ρ α) = 1 := rfl
        simp only [hone] at hcounted
        obtain ⟨t'', ht'', hactive⟩ := hactive
        rcases List.mem_cons.1 ht'' with rfl | ht''
        · cases hactive
        · have hnone := weight_eq_zero (by omega : total counts (front ++ behind) = 0) ht''
          cases t'' with
          | activating group actions => cases hnone
          | working group actions next => cases hactive
          | countDown => cases hactive
          | popDelayed => cases hactive
      · cases ht'
  | popDelayed =>
    have hdraining := h.draining _ ht Nat.one_pos
    unfold Program.act at hactivating ⊢
    cases hdelayed : r.delayProcessing with
    | nil =>
      simp only [hdelayed] at hactivating ⊢
      apply h.step_of hactivating
      · exact fun t' ht' => absurd ht' List.not_mem_nil
      · exact h.parked
      · exact fun t' ht' => absurd ht' List.not_mem_nil
    | cons group delayed =>
      simp only [hdelayed] at hactivating ⊢
      apply h.step_of hactivating
      · exact fun _ _ _ _ _ _ => hdraining
      · exact h.parked
      · exact fun _ _ _ hactive => hdraining (hactivating hactive)

/-! ## Moves -/

omit [DecidableEq ι] in
/-- An action takes the files of its group along and leaves the others where they are. -/
theorem files_of_perform {again : GroupState ι ρ → WorkerTask ι ρ α} (hgroup : t.group? = some group)
    (hagain : ∀ group', (again group').group? = some group') {g : Nat} {files : ρ}
    (h : HasFiles (⟨(p.perform action group r).resources, again (p.perform action group r).group ::
      (p.perform action group r).spawned ++ (front ++ behind)⟩ : GcConfig ι ρ α σ) g files) :
    HasFiles (⟨r, front ++ t :: behind⟩ : GcConfig ι ρ α σ) g files := by
  obtain ⟨hindex, hfiles, hdelayed⟩ := perform_group p action group r
  obtain ⟨group', rfl, rfl, ⟨t', ht', hgroup'⟩ | hwaits | ⟨index, hparked⟩⟩ := h
  · rcases List.mem_cons.1 ht' with rfl | ht'
    · rw [hagain] at hgroup'
      obtain rfl := Option.some.inj hgroup'
      exact ⟨group, hindex.symm, hfiles.symm, Or.inl ⟨t, mem_middle.2 (Or.inl rfl), hgroup⟩⟩
    · rcases List.mem_append.1 ht' with ht' | ht'
      · obtain ⟨index, w, rfl, hw⟩ := spawned_of_perform ht'
        obtain rfl := Option.some.inj hgroup'
        exact ⟨w, rfl, rfl, Or.inr (Or.inr ⟨index, hw⟩)⟩
      · exact ⟨group', rfl, rfl, Or.inl ⟨t', mem_middle.2 (Or.inr ht'), hgroup'⟩⟩
  · rw [hdelayed] at hwaits
    exact ⟨group', rfl, rfl, Or.inr (Or.inl hwaits)⟩
  · exact ⟨group', rfl, rfl, Or.inr (Or.inr ⟨index, worker_of_perform hparked⟩)⟩

omit [DecidableEq ι] in
/-- What an action does to the history and to the shared state of the files. -/
theorem perform_history (p : Program ι ρ α σ) (action : Action ι α) (group : GroupState ι ρ)
    (r : GraphResources ι ρ α σ) :
    (p.perform action group r).resources.performed = action :: r.performed ∧
      (p.perform action group r).resources.processed = r.processed ∧
      (p.perform action group r).resources.graph = p.after r.graph action ∧
      (p.perform action group r).actions = p.next r.graph action := by
  unfold Program.perform
  cases action with
  | send item =>
    simp only
    split <;> exact ⟨rfl, rfl, rfl, rfl⟩
  | sendToSlot item => exact ⟨rfl, rfl, rfl, rfl⟩
  | access a => exact ⟨rfl, rfl, rfl, rfl⟩

omit [DecidableEq ι] in
theorem move_of_perform (again : GroupState ι ρ → WorkerTask ι ρ α) (hgroup : t.group? = some group)
    (hagain : ∀ group', (again group').group? = some group')
    (hsame : ∀ group', (again group').isActivating = t.isActivating) {action : Action ι α} {rest : List (Action ι α)}
    (hactions : t.actions = action :: rest)
    (hrest : ∀ group', (again group').actions = (p.perform action group r).actions ++ rest) :
    Move p ⟨r, front ++ t :: behind⟩ ⟨(p.perform action group r).resources,
      again (p.perform action group r).group :: (p.perform action group r).spawned ++ (front ++ behind)⟩ := by
  obtain ⟨hperformed, hprocessed, hgraph, hnext⟩ := perform_history p action group r
  have hidle : ∀ e a, ¬ PendingIn (p.perform action group r).spawned e a := by
    intro e a
    apply pendingIn_of_idle
    intro t' ht'
    obtain ⟨_, _, rfl, -⟩ := spawned_of_perform ht'
    rfl
  -- what is left: what the action adds, the rest of the thread, and the other threads
  have hpending : ∀ e a, PendingIn (again (p.perform action group r).group :: (p.perform action group r).spawned ++
      (front ++ behind)) e a ↔
        t.isActivating = e ∧ (a ∈ p.next r.graph action ∨ a ∈ rest) ∨ PendingIn (front ++ behind) e a := by
    intro e a
    rw [List.cons_append, pendingIn_cons, pendingIn_append, hsame, hrest, hnext, List.mem_append]
    simp [hidle]
  refine .perform action t.isActivating ?_ hperformed hprocessed hgraph ?_ ?_ ?_ ?_
  · exact pendingIn_middle.2 (Or.inl ⟨rfl, by rw [hactions]; exact List.mem_cons_self⟩)
  · intro e a ha
    rcases pendingIn_middle.1 ha with ⟨he, ha⟩ | ha
    · rw [hactions] at ha
      rcases List.mem_cons.1 ha with rfl | ha
      · exact Or.inl rfl
      · exact Or.inr ((hpending e a).2 (Or.inl ⟨he, Or.inr ha⟩))
    · exact Or.inr ((hpending e a).2 (Or.inr ha))
  · exact fun a ha => (hpending _ a).2 (Or.inl ⟨rfl, Or.inl ha⟩)
  · intro e a ha
    rcases (hpending e a).1 ha with ⟨he, ha | ha⟩ | ha
    · exact Or.inr ⟨he.symm, ha⟩
    · exact Or.inl (pendingIn_middle.2 (Or.inl ⟨he, by rw [hactions]; exact List.mem_cons_of_mem _ ha⟩))
    · exact Or.inl (pendingIn_middle.2 (Or.inr ha))
  · exact fun g files hfiles => files_of_perform hgroup hagain hfiles

omit [DecidableEq ι] in
/-- A step of a thread without actions that moves only workers and queues. -/
theorem move_of_quiet (hactions : t.actions = []) (hidle : ∀ t' ∈ new, t'.actions = [])
    (hperformed : r'.performed = r.performed) (hprocessed : r'.processed = r.processed) (hgraph : r'.graph = r.graph)
    (hnew : ∀ t' ∈ new, ∀ group', t'.group? = some group' →
      HasFiles (⟨r, front ++ t :: behind⟩ : GcConfig ι ρ α σ) group'.index group'.files)
    (hdelayed : ∀ group' ∈ r'.delayProcessing,
      HasFiles (⟨r, front ++ t :: behind⟩ : GcConfig ι ρ α σ) group'.index group'.files)
    (hparked : ∀ g group', (r'.workerSlots g).worker = some group' →
      HasFiles (⟨r, front ++ t :: behind⟩ : GcConfig ι ρ α σ) group'.index group'.files) :
    Move p ⟨r, front ++ t :: behind⟩ ⟨r', new ++ (front ++ behind)⟩ := by
  refine .quiet hperformed hprocessed hgraph ?_ ?_
  · intro e a
    have hadded : PendingIn (new ++ (front ++ behind)) e a ↔ PendingIn new e a ∨ PendingIn (front ++ behind) e a :=
      pendingIn_append
    simp only [Pending, pendingIn_middle, hactions, hadded, List.not_mem_nil, and_false, false_or,
      pendingIn_of_idle hidle]
  · rintro g files ⟨group', rfl, rfl, ⟨t', ht', hgroup'⟩ | hwaits | ⟨index, hw⟩⟩
    · rcases List.mem_append.1 ht' with ht' | ht'
      · exact hnew t' ht' group' hgroup'
      · exact ⟨group', rfl, rfl, Or.inl ⟨t', mem_middle.2 (Or.inr ht'), hgroup'⟩⟩
    · exact hdelayed group' hwaits
    · exact hparked index group' hw

/-- While a thread has the worker of a group, the worker is nowhere else. -/
theorem Held.only (h : Held p ⟨r, front ++ t :: behind⟩) (hgroup : t.group? = some group) {group' : GroupState ι ρ}
    (hother : (∃ t' ∈ front ++ behind, t'.group? = some group') ∨ group' ∈ r.delayProcessing ∨
      ∃ g, (r.workerSlots g).worker = some group') : group'.index ≠ group.index := by
  intro hindex
  have honly := h.holders group.index
  have ht : holds group.index t = 1 := by simp [holds, hgroup]
  rw [total_middle, ht] at honly
  have hle : r.parked group.index + total (holds group.index) (front ++ behind) + r.delayed group.index = 0 := by
    simp only at honly
    split at honly <;> omega
  rcases hother with ⟨t', ht', hgroup'⟩ | hwaits | ⟨g, hw⟩
  · have hholds : holds group.index t' = 1 := by simp [holds, hgroup', hindex]
    have hzero := weight_eq_zero (by omega : total (holds group.index) (front ++ behind) = 0) ht'
    omega
  · have hpositive : 0 < r.delayed group.index := List.countP_pos_iff.2 ⟨group', hwaits, by simp [hindex]⟩
    omega
  · obtain ⟨-, -, hg⟩ := h.slotsOk.parked g group' hw
    have hone : r.parked group.index = 1 := by
      unfold GraphResources.parked
      rw [← hindex, hg, hw]
      rfl
    omega

/-- A thread processes an item, that was sent, with the files of the item's group. -/
theorem move_of_process {next : AfterWork} {item : ι} {localWork : List ι} {files : ρ} {actions : List (Action ι α)}
    (hheld : Held p ⟨r, front ++ .working group [] next :: behind⟩)
    (hlate : Late p ⟨r, front ++ .working group [] next :: behind⟩) (hlocal : group.localWork = item :: localWork)
    (hwork : p.doWork item group.files = some (files, actions)) :
    Move p ⟨r, front ++ .working group [] next :: behind⟩ ⟨{ r with processed := item :: r.processed },
      [.working { group with localWork, files } actions next] ++ (front ++ behind)⟩ := by
  have ht : .working group [] next ∈ front ++ .working group [] next :: behind := mem_middle.2 (Or.inl rfl)
  have hitem : item ∈ group.localWork := by
    rw [hlocal]
    exact List.mem_cons_self
  have hgroup : p.group item = group.index := hheld.own rfl item hitem
  have hsent : item ∈ r.sent := by
    have honce := hheld.once item
    have hqueued : 0 < queued item (.working group [] next : WorkerTask ι ρ α) := List.count_pos_iff.2 hitem
    have hle := weight_le_total (queued item) ht
    simp only at honce
    exact List.count_pos_iff.1 (by omega)
  have hpending : ∀ e a, PendingIn ([.working { group with localWork, files } actions next] ++ (front ++ behind)) e a ↔
      e = false ∧ a ∈ actions ∨ PendingIn (front ++ .working group [] next :: behind) e a := by
    intro e a
    rw [List.singleton_append, pendingIn_cons, pendingIn_middle]
    simp [WorkerTask.isActivating, WorkerTask.actions, eq_comm]
  refine .process item group.files files actions hsent ⟨group, hgroup.symm, rfl, Or.inl ⟨_, ht, rfl⟩⟩ hwork rfl rfl rfl
    ?_ ?_ ?_ ?_ ?_
  · exact fun e a ha => (hpending e a).2 (Or.inr ha)
  · exact fun a ha => (hpending false a).2 (Or.inl ⟨rfl, ha⟩)
  · intro e a ha
    rcases (hpending e a).1 ha with ha | ha
    · exact Or.inr ha
    · exact Or.inl ha
  · rintro g files' ⟨group', rfl, rfl, ⟨t', ht', hgroup'⟩ | hwaits | ⟨index, hw⟩⟩
    · rcases List.mem_cons.1 ht' with rfl | ht'
      · obtain rfl := Option.some.inj hgroup'
        exact Or.inl ⟨hgroup.symm, rfl⟩
      · refine Or.inr ⟨?_, group', rfl, rfl, Or.inl ⟨t', mem_middle.2 (Or.inr ht'), hgroup'⟩⟩
        rw [hgroup]
        exact hheld.only rfl (Or.inl ⟨t', ht', hgroup'⟩)
    · refine Or.inr ⟨?_, group', rfl, rfl, Or.inr (Or.inl hwaits)⟩
      rw [hgroup]
      exact hheld.only rfl (Or.inr (Or.inl hwaits))
    · refine Or.inr ⟨?_, group', rfl, rfl, Or.inr (Or.inr ⟨index, hw⟩)⟩
      rw [hgroup]
      exact hheld.only rfl (Or.inr (Or.inr ⟨index, hw⟩))
  · intro hdelays
    rw [hgroup] at hdelays
    exact hlate.working _ ht rfl group rfl hdelays

/-- **Every step without an error is a move.** -/
theorem move_of_step (hheld : Held p c) (hlate : Late p c) (hstep : Step p.act c c')
    (herrors : c'.shared.errors = false) : Move p c c' := by
  obtain ⟨front, t, behind, htasks, rfl⟩ := hstep
  obtain ⟨r, tasks⟩ := c
  obtain rfl : tasks = front ++ t :: behind := htasks
  have ht : t ∈ front ++ t :: behind := mem_middle.2 (Or.inl rfl)
  have hparked : ∀ g group', (r.workerSlots g).worker = some group' →
      HasFiles (⟨r, front ++ t :: behind⟩ : GcConfig ι ρ α σ) group'.index group'.files :=
    fun g group' hw => ⟨group', rfl, rfl, Or.inr (Or.inr ⟨g, hw⟩)⟩
  have hdelayed : ∀ group' ∈ r.delayProcessing,
      HasFiles (⟨r, front ++ t :: behind⟩ : GcConfig ι ρ α σ) group'.index group'.files :=
    fun group' hwaits => ⟨group', rfl, rfl, Or.inr (Or.inl hwaits)⟩
  have hhas : ∀ group', t.group? = some group' →
      HasFiles (⟨r, front ++ t :: behind⟩ : GcConfig ι ρ α σ) group'.index group'.files :=
    fun group' hgroup => ⟨group', rfl, rfl, Or.inl ⟨t, ht, hgroup⟩⟩
  cases t with
  | activating group actions =>
    cases actions with
    | cons action rest =>
      exact move_of_perform (fun group' => .activating group' _) rfl (fun _ => rfl) (fun _ => rfl) rfl
        (fun _ => rfl)
    | nil =>
      unfold Program.act
      simp only
      split
      · refine move_of_quiet rfl ?_ rfl rfl rfl ?_ ?_ ?_
        · intro t' ht'
          obtain rfl := List.mem_singleton.1 ht'
          rfl
        · intro t' ht' group' hgroup'
          obtain rfl := List.mem_singleton.1 ht'
          cases hgroup'
        · intro group' hwaits
          rcases List.mem_cons.1 hwaits with rfl | hwaits
          · exact hhas _ rfl
          · exact hdelayed group' hwaits
        · exact hparked
      · refine move_of_quiet rfl ?_ rfl rfl rfl ?_ ?_ ?_
        · intro t' ht'
          obtain rfl := List.mem_singleton.1 ht'
          rfl
        · intro t' ht' group' hgroup'
          obtain rfl := List.mem_singleton.1 ht'
          exact hhas group' hgroup'
        · exact hdelayed
        · exact hparked
  | working group actions next =>
    cases actions with
    | cons action rest =>
      exact move_of_perform (fun group' => .working group' _ next) rfl (fun _ => rfl) (fun _ => rfl) rfl
        (fun _ => rfl)
    | nil =>
      unfold Program.act at herrors ⊢
      cases hlocal : group.localWork with
      | cons item localWork =>
        simp only [hlocal] at herrors ⊢
        cases hwork : p.doWork item group.files with
        | some done => exact move_of_process hheld hlate hlocal hwork
        | none =>
          rw [hwork] at herrors
          cases herrors
      | nil =>
        simp only [hlocal]
        split
        · refine move_of_quiet rfl (fun t' ht' => (actions_afterWork next t' ht').1) rfl rfl rfl ?_ ?_ ?_
          · intro t' ht' group' hgroup'
            rw [(actions_afterWork next t' ht').2.2] at hgroup'
            cases hgroup'
          · exact hdelayed
          · intro g group' hw
            by_cases hg : g = group.index
            · simp only [GraphResources.setSlot, hg, Function.update_self] at hw
              obtain rfl := Option.some.inj hw
              exact hhas _ rfl
            · simp only [GraphResources.setSlot, Function.update_of_ne hg] at hw
              exact hparked g group' hw
        · refine move_of_quiet rfl ?_ rfl rfl rfl ?_ ?_ ?_
          · intro t' ht'
            obtain rfl := List.mem_singleton.1 ht'
            rfl
          · intro t' ht' group' hgroup'
            obtain rfl := List.mem_singleton.1 ht'
            obtain rfl := Option.some.inj hgroup'
            exact hhas group rfl
          · exact hdelayed
          · intro g group' hw
            apply hparked g group'
            by_cases hg : g = group.index
            · simpa only [GraphResources.setSlot, hg, Function.update_self] using hw
            · simpa only [GraphResources.setSlot, Function.update_of_ne hg] using hw
  | countDown =>
    unfold Program.act
    simp only
    refine move_of_quiet rfl ?_ rfl rfl rfl ?_ ?_ ?_
    · intro t' ht'
      split at ht'
      · obtain rfl := List.mem_singleton.1 ht'
        rfl
      · cases ht'
    · intro t' ht' group' hgroup'
      split at ht'
      · obtain rfl := List.mem_singleton.1 ht'
        cases hgroup'
      · cases ht'
    · exact hdelayed
    · exact hparked
  | popDelayed =>
    unfold Program.act
    cases hwaiting : r.delayProcessing with
    | nil =>
      simp only [hwaiting]
      refine move_of_quiet rfl (fun t' ht' => absurd ht' List.not_mem_nil) rfl rfl rfl ?_ ?_ ?_
      · exact fun t' ht' => absurd ht' List.not_mem_nil
      · exact hdelayed
      · exact hparked
    | cons group delayed =>
      simp only [hwaiting]
      refine move_of_quiet rfl ?_ rfl rfl rfl ?_ ?_ ?_
      · intro t' ht'
        obtain rfl := List.mem_singleton.1 ht'
        rfl
      · intro t' ht' group' hgroup'
        obtain rfl := List.mem_singleton.1 ht'
        obtain rfl := Option.some.inj hgroup'
        apply hdelayed group
        rw [hwaiting]
        exact List.mem_cons_self
      · intro group' hwaits
        apply hdelayed group'
        rw [hwaiting]
        exact List.mem_cons_of_mem _ hwaits
      · exact hparked

/-- **What every move keeps holds in every state that a run without errors reaches.** -/
theorem moves_induction {inv : GcConfig ι ρ α σ → Prop} {graph : σ} (hreach : Reachable p.act (p.initial graph) c)
    (herrors : c.shared.errors = false) (hinit : inv (p.initial graph))
    (hmove : ∀ c c', inv c → (Activating c' → Activating c) → Move p c c' → inv c') : inv c := by
  have hlate : Late p c ∧ inv c := by
    induction hreach with
    | refl => exact ⟨late_initial p graph, hinit⟩
    | tail hfirst hstep ih =>
      have hbefore := errors_of_step hstep herrors
      obtain ⟨hlate, hinv⟩ := ih hbefore
      have hheld := held_of_reachable hfirst hbefore
      exact ⟨hlate.step hheld hstep,
        hmove _ _ hinv (activating_of_step hstep) (move_of_step hheld hlate hstep herrors)⟩
  exact hlate.2

end

end Reld.Gc
