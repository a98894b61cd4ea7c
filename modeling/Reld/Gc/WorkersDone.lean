import Reld.Gc.Workers

/-!
# `Gc.WorkersDone` — no work is lost and every worker parks

At any time each group has its worker in one place: parked in its slot, with a thread, or with the groups that are
delayed. A parked worker has an empty slot and an empty queue, and every item that was sent is in one queue or has been
processed (`Held`). Each step keeps that as long as there is no error. In the end all workers are parked
and everything that was sent has been processed once (`workers_done`).
-/

variable {next : AfterWork}

namespace Reld.Gc

open Tasks

variable {ι ρ α σ : Type}

/-! ## What is where -/

/-- The group that a thread works for. -/
def WorkerTask.group? : WorkerTask ι ρ α → Option (GroupState ι ρ)
  | .activating group _ | .working group _ _ => some group
  | .countDown | .popDelayed => none

/-- Whether a thread has the worker of a group. -/
def holds (g : Nat) (t : WorkerTask ι ρ α) : Nat := if t.group?.any (·.index = g) then 1 else 0

def AfterWork.counts : AfterWork → Nat
  | .countsDown => 1
  | _ => 0

def AfterWork.drains : AfterWork → Nat
  | .popsDelayed => 1
  | _ => 0

/-- Whether a thread will count down. -/
def counts : WorkerTask ι ρ α → Nat
  | .activating _ _ | .countDown => 1
  | .working _ _ next => next.counts
  | .popDelayed => 0

/-- Whether a thread is to take what is delayed. -/
def drains : WorkerTask ι ρ α → Nat
  | .activating _ _ | .countDown => 0
  | .working _ _ next => next.drains
  | .popDelayed => 1

/-- How often an item is in the queue of a thread's worker. -/
def queued [DecidableEq ι] (item : ι) (t : WorkerTask ι ρ α) : Nat :=
  (t.group?.map (·.localWork.count item)).getD 0

namespace GraphResources

variable (r : GraphResources ι ρ α σ)

def parked (g : Nat) : Nat := if (r.workerSlots g).worker.isSome then 1 else 0

def delayed (g : Nat) : Nat := r.delayProcessing.countP (·.index = g)

/-- The items that were sent. -/
def sent : List ι := r.performed.filterMap Action.item?

end GraphResources

/-- A group's queue has only items of the group. -/
def GroupState.OwnWork (p : Program ι ρ α σ) (group : GroupState ι ρ) : Prop :=
  ∀ item ∈ group.localWork, p.group item = group.index

/-- The slots: their work is for their group, and a parked worker has nothing to do. -/
structure SlotsOk (p : Program ι ρ α σ) (r : GraphResources ι ρ α σ) : Prop where
  own : ∀ g, ∀ item ∈ (r.workerSlots g).work, p.group item = g
  parked : ∀ g, ∀ w ∈ (r.workerSlots g).worker, (r.workerSlots g).work = [] ∧ w.localWork = [] ∧ w.index = g

/-- Every worker is in one place, and so is every item that was sent and not processed. -/
structure Held [DecidableEq ι] (p : Program ι ρ α σ) (c : Config (GraphResources ι ρ α σ) (WorkerTask ι ρ α)) :
    Prop where
  slots : SlotsOk p c.shared
  ownWork : ∀ t ∈ c.tasks, ∀ group ∈ t.group?, group.OwnWork p
  ownDelayed : ∀ group ∈ c.shared.delayProcessing, group.OwnWork p
  holders : ∀ g, c.shared.parked g + total (holds g) c.tasks + c.shared.delayed g = if g < p.numGroups then 1 else 0
  counted : c.shared.activationsRemaining = total counts c.tasks
  drained : c.shared.delayProcessing ≠ [] → 0 < total counts c.tasks + total drains c.tasks
  once : ∀ item, c.shared.sent.count item = c.shared.processed.count item +
    (c.shared.workerSlots (p.group item)).work.count item + total (queued item) c.tasks +
      (c.shared.delayProcessing.map (·.localWork.count item)).sum

/-! ## The first state -/

section

variable [DecidableEq ι] {p : Program ι ρ α σ}

theorem held_initial (p : Program ι ρ α σ) (graph : σ) : Held p (p.initial graph) := by
  have hzero : ∀ item : ι, total (queued item) (p.initial graph).tasks = 0 := by
    simp [Program.initial, total, Function.comp_def, queued, WorkerTask.group?]
  refine ⟨⟨fun _ _ h => absurd h List.not_mem_nil, fun _ _ h => by cases h⟩, ?_, fun _ h => absurd h List.not_mem_nil,
    ?_, ?_, fun h => absurd rfl h, ?_⟩
  · intro t ht group hgroup item hitem
    obtain ⟨index, -, rfl⟩ := List.mem_map.1 ht
    cases hgroup
    cases hitem
  · intro g
    have hholds : total (holds g) (p.initial graph).tasks = if g < p.numGroups then 1 else 0 := by
      simp only [Program.initial, total, List.map_map, Function.comp_def, holds, WorkerTask.group?, Option.any_some,
        decide_eq_true_eq]
      induction p.numGroups with
      | zero => rfl
      | succ n ih =>
        rw [List.range_succ, List.map_append, List.sum_append, ih]
        simp only [List.map_cons, List.map_nil, List.sum_cons, List.sum_nil, Nat.add_zero]
        split <;> split <;> split <;> omega
    rw [hholds]
    simp [Program.initial, GraphResources.parked, GraphResources.delayed]
  · simp [Program.initial, total, Function.comp_def, counts]
  · intro item
    rw [hzero]
    rfl

/-! ## One action -/

variable {r : GraphResources ι ρ α σ} {group : GroupState ι ρ} {action : Action ι α}

/-- What an action keeps, with the work that it moves. -/
structure PerformKeeps (p : Program ι ρ α σ) (r : GraphResources ι ρ α σ) (group : GroupState ι ρ)
    (done : Program.Performed ι ρ α σ) : Prop where
  slots : SlotsOk p done.resources
  ownWork : group.OwnWork p → done.group.OwnWork p
  index : done.group.index = group.index
  files : done.group.files = group.files
  spawned : ∀ t ∈ done.spawned, ∃ w, t = .working w [] .ends ∧ w.localWork = [] ∧
    (r.workerSlots w.index).worker = some w
  parked : ∀ g, done.resources.parked g + total (holds g) done.spawned = r.parked g
  delayed : done.resources.delayProcessing = r.delayProcessing
  remaining : done.resources.activationsRemaining = r.activationsRemaining
  processed : done.resources.processed = r.processed
  errors : done.resources.errors = r.errors
  once : ∀ item, done.resources.sent.count item + (r.workerSlots (p.group item)).work.count item +
      group.localWork.count item = r.sent.count item +
        (done.resources.workerSlots (p.group item)).work.count item + done.group.localWork.count item

theorem sendWork_keeps (hslots : SlotsOk p r) (group : GroupState ι ρ) {item : ι} (haction : action.item? = some item) :
    PerformKeeps p r group
      { resources := { r with performed := action :: r.performed }.sendWork (p.group item) item, group
        spawned := { r with performed := action :: r.performed }.spawned (p.group item) } := by
  constructor
  · constructor
    · intro g item' hitem'
      by_cases hg : g = p.group item
      · subst hg
        simp only [GraphResources.sendWork, GraphResources.setSlot, Function.update_self, List.mem_cons] at hitem'
        rcases hitem' with rfl | hitem'
        · rfl
        · exact hslots.own _ _ hitem'
      · simp only [GraphResources.sendWork, GraphResources.setSlot, Function.update_of_ne hg] at hitem'
        exact hslots.own g _ hitem'
    · intro g w hw
      by_cases hg : g = p.group item
      · subst hg
        simp only [GraphResources.sendWork, GraphResources.setSlot, Function.update_self] at hw
        cases hw
      · simp only [GraphResources.sendWork, GraphResources.setSlot, Function.update_of_ne hg] at hw ⊢
        exact hslots.parked g w hw
  · exact id
  · rfl
  · rfl
  · intro t ht
    obtain ⟨w, hw, rfl⟩ := Option.map_eq_some_iff.1 (Option.mem_toList.1 ht)
    obtain ⟨-, hlocal, hindex⟩ := hslots.parked _ w hw
    exact ⟨w, rfl, hlocal, by rw [hindex]; exact hw⟩
  · intro g
    have hspawned : total (holds g) ({ r with performed := action :: r.performed }.spawned (p.group item)) =
        if g = p.group item then r.parked g else 0 := by
      unfold GraphResources.spawned GraphResources.parked
      cases hw : (r.workerSlots (p.group item)).worker with
      | none =>
        split
        · rename_i hg
          simp [hg, hw]
        · simp
      | some w =>
        obtain ⟨-, -, hindex⟩ := hslots.parked _ w hw
        simp only [Option.map_some, Option.toList_some, total_cons, total_nil, holds, WorkerTask.group?, Option.any_some,
          hindex, decide_eq_true_eq, Nat.add_zero]
        split
        · rename_i hg
          rw [if_pos hg.symm, ← hg, hw]
          rfl
        · rename_i hg
          rw [if_neg (Ne.symm hg)]
    rw [hspawned]
    unfold GraphResources.parked GraphResources.sendWork GraphResources.setSlot
    by_cases hg : g = p.group item
    · subst hg
      simp [Function.update_self]
    · simp [hg]
  · rfl
  · rfl
  · rfl
  · rfl
  · intro item'
    have hsent : (action :: r.performed).filterMap Action.item? = item :: r.sent := List.filterMap_cons_some haction
    simp only [GraphResources.sent, GraphResources.sendWork, GraphResources.setSlot] at hsent ⊢
    rw [hsent]
    by_cases hitem : p.group item' = p.group item
    · rw [hitem, Function.update_self, List.count_cons, List.count_cons]
      omega
    · have hne : item ≠ item' := fun h => hitem (h ▸ rfl)
      rw [Function.update_of_ne hitem, List.count_cons_of_ne hne]

theorem perform_keeps (hslots : SlotsOk p r) (action : Action ι α) (group : GroupState ι ρ) :
    PerformKeeps p r group (p.perform action group r) := by
  have hquiet : ∀ (g : Nat), (GraphResources.parked r g) + total (holds g) ([] : List (WorkerTask ι ρ α)) = r.parked g :=
    fun g => by simp
  cases action with
  | sendToSlot item => exact sendWork_keeps hslots group rfl
  | access a =>
    refine ⟨⟨hslots.own, hslots.parked⟩, id, rfl, rfl, fun _ h => absurd h List.not_mem_nil, hquiet, rfl, rfl, rfl, rfl, ?_⟩
    intro item
    rfl
  | send item =>
    unfold Program.perform
    simp only
    by_cases hown : p.group item = group.index
    · rw [if_pos hown]
      refine ⟨⟨hslots.own, hslots.parked⟩, ?_, rfl, rfl, fun _ h => absurd h List.not_mem_nil, hquiet, rfl, rfl, rfl, rfl, ?_⟩
      · intro hwork item' hitem'
        rcases List.mem_cons.1 hitem' with rfl | hitem'
        · exact hown
        · exact hwork item' hitem'
      · intro item'
        have hsent : (Action.send item :: r.performed).filterMap Action.item? = item :: r.sent :=
          List.filterMap_cons_some rfl
        simp only [GraphResources.sent] at hsent ⊢
        rw [hsent, List.count_cons, List.count_cons]
        omega
    · rw [if_neg hown]
      exact sendWork_keeps hslots group rfl

/-! ## One step -/

variable {t : WorkerTask ι ρ α} {front behind new : List (WorkerTask ι ρ α)} {r' : GraphResources ι ρ α σ}

/-- What a step has to show: what it takes from its thread it leaves in the new threads or in the shared state. -/
theorem Held.step_of (h : Held p ⟨r, front ++ t :: behind⟩) (hslots : SlotsOk p r')
    (hownWork : ∀ t' ∈ new, ∀ group ∈ t'.group?, group.OwnWork p)
    (hownDelayed : ∀ group ∈ r'.delayProcessing, group.OwnWork p)
    (hholders : ∀ g, r'.parked g + total (holds g) new + r'.delayed g = r.parked g + holds g t + r.delayed g)
    (hcounted : r'.activationsRemaining + counts t = r.activationsRemaining + total counts new)
    (hdrained : r'.delayProcessing ≠ [] → 0 < total counts new + total drains new ∨ 0 < r'.activationsRemaining ∨
      r.delayProcessing ≠ [] ∧ counts t + drains t = 0)
    (honce : ∀ item, r'.sent.count item + r.processed.count item + (r.workerSlots (p.group item)).work.count item +
      queued item t + (r.delayProcessing.map (·.localWork.count item)).sum =
        r.sent.count item + r'.processed.count item + (r'.workerSlots (p.group item)).work.count item +
          total (queued item) new + (r'.delayProcessing.map (·.localWork.count item)).sum) :
    Held p ⟨r', new ++ (front ++ behind)⟩ := by
  have hrest : ∀ weight : WorkerTask ι ρ α → Nat, total weight (new ++ (front ++ behind)) + weight t =
      total weight new + total weight (front ++ t :: behind) := by
    intro weight
    rw [total_append, total_middle]
    omega
  refine ⟨hslots, ?_, hownDelayed, ?_, ?_, ?_, ?_⟩
  · intro t' ht' group hgroup
    rcases List.mem_append.1 ht' with ht' | ht'
    · exact hownWork t' ht' group hgroup
    · refine h.ownWork t' ?_ group hgroup
      rcases List.mem_append.1 ht' with ht' | ht'
      · exact List.mem_append_left _ ht'
      · exact List.mem_append_right _ (List.mem_cons_of_mem _ ht')
  · intro g
    have := h.holders g
    have := hholders g
    have := hrest (holds g)
    simp only at *
    omega
  · have := h.counted
    have := hrest counts
    simp only at *
    omega
  · intro hdelayed
    have hcounts := hrest counts
    have hdrains := hrest drains
    have := h.counted
    simp only at *
    rcases hdrained hdelayed with hnew | hremaining | ⟨hbefore, hzero⟩
    · simp only [total_append]
      omega
    · omega
    · have := h.drained hbefore
      simp only at this
      omega
  · intro item
    have := h.once item
    have := honce item
    have := hrest (queued item)
    simp only at *
    omega

theorem Held.slotsOk {tasks : List (WorkerTask ι ρ α)} (h : Held p ⟨r, tasks⟩) : SlotsOk p r := h.slots

theorem Held.own (h : Held p ⟨r, front ++ t :: behind⟩) (hgroup : t.group? = some group) : group.OwnWork p :=
  h.ownWork t List.mem_append_cons_self group hgroup

/-- The thread that works for a group performs an action; `again` is the thread behind it. -/
theorem Held.perform (again : GroupState ι ρ → WorkerTask ι ρ α) (h : Held p ⟨r, front ++ t :: behind⟩)
    (hgroup : t.group? = some group) (hagain : ∀ group', (again group').group? = some group')
    (hcounts : ∀ group', counts (again group') = counts t) (hdrains : ∀ group', drains (again group') = drains t)
    (action : Action ι α) :
    Held p ⟨(p.perform action group r).resources,
      again (p.perform action group r).group :: (p.perform action group r).spawned ++ (front ++ behind)⟩ := by
  have hkeeps := perform_keeps h.slotsOk action group
  have hspawned : ∀ (weight : WorkerTask ι ρ α → Nat), (∀ w : GroupState ι ρ, w.localWork = [] →
      weight (.working w [] .ends) = 0) → total weight (p.perform action group r).spawned = 0 := by
    intro weight hweight
    have hall : ∀ t' ∈ (p.perform action group r).spawned, weight t' = 0 := by
      intro t' ht'
      obtain ⟨w, rfl, hlocal, -⟩ := hkeeps.spawned t' ht'
      exact hweight w hlocal
    rw [total, List.sum_eq_zero_iff_forall_eq_nat]
    simpa using hall
  have hzero := hspawned counts (fun _ _ => rfl)
  have hnone := hspawned drains (fun _ _ => rfl)
  apply h.step_of hkeeps.slots
  · intro t' ht' group' hgroup'
    rcases List.mem_cons.1 ht' with rfl | ht'
    · rw [hagain] at hgroup'
      cases hgroup'
      exact hkeeps.ownWork (h.own hgroup)
    · obtain ⟨w, rfl, hlocal, -⟩ := hkeeps.spawned t' ht'
      cases hgroup'
      intro item hitem
      rw [hlocal] at hitem
      cases hitem
  · rw [hkeeps.delayed]
    exact h.ownDelayed
  · intro g
    have hparked := hkeeps.parked g
    have hholds : holds g (again (p.perform action group r).group) = holds g t := by
      simp [holds, hagain, hgroup, hkeeps.index]
    rw [total_cons, hholds, GraphResources.delayed, hkeeps.delayed, ← GraphResources.delayed]
    omega
  · rw [total_cons, hcounts, hzero, hkeeps.remaining]
    rfl
  · rw [hkeeps.delayed, total_cons, total_cons, hcounts, hdrains, hzero, hnone]
    intro hdelayed
    have hbefore := h.drained hdelayed
    have hcounted := h.counted
    by_cases hpositive : 0 < counts t + drains t
    · left
      omega
    · exact Or.inr (Or.inr ⟨hdelayed, by omega⟩)
  · intro item
    have honce := hkeeps.once item
    have hqueued : queued item t = group.localWork.count item := by simp [queued, hgroup]
    have hqueued' : queued item (again (p.perform action group r).group) =
        (p.perform action group r).group.localWork.count item := by simp [queued, hagain]
    have hidle := hspawned (queued item) (fun w hlocal => by simp [queued, WorkerTask.group?, hlocal])
    rw [total_cons, hqueued, hqueued', hidle, hkeeps.processed, hkeeps.delayed]
    omega

theorem weights_afterWork (next : AfterWork) :
    (∀ g, total (holds g) (afterWork next : List (WorkerTask ι ρ α)) = 0) ∧
    total counts (afterWork next : List (WorkerTask ι ρ α)) = next.counts ∧
    total drains (afterWork next : List (WorkerTask ι ρ α)) = next.drains ∧
    (∀ item, total (queued item) (afterWork next : List (WorkerTask ι ρ α)) = 0) ∧
    ∀ t ∈ (afterWork next : List (WorkerTask ι ρ α)), t.group? = none := by
  cases next <;>
    simp [afterWork, holds, counts, drains, queued, WorkerTask.group?, AfterWork.counts, AfterWork.drains]

/-- A thread that finds nothing to do parks its worker. -/
theorem Held.park (h : Held p ⟨r, front ++ .working group [] next :: behind⟩) (hlocal : group.localWork = [])
    (hwork : (r.workerSlots group.index).work = []) :
    Held p ⟨r.setSlot group.index { r.workerSlots group.index with worker := some group },
      afterWork next ++ (front ++ behind)⟩ := by
  obtain ⟨hholds, hcounts, hdrains, hqueued, hgroups⟩ := weights_afterWork (ι := ι) (ρ := ρ) (α := α) next
  have hslots := h.slotsOk
  apply h.step_of
  · constructor
    · intro g item hitem
      by_cases hg : g = group.index
      · subst hg
        simp only [GraphResources.setSlot, Function.update_self, hwork] at hitem
        cases hitem
      · simp only [GraphResources.setSlot, Function.update_of_ne hg] at hitem
        exact hslots.own g item hitem
    · intro g w hw
      by_cases hg : g = group.index
      · subst hg
        simp only [GraphResources.setSlot, Function.update_self, Option.mem_def, Option.some.injEq] at hw ⊢
        subst hw
        exact ⟨hwork, hlocal, rfl⟩
      · simp only [GraphResources.setSlot, Function.update_of_ne hg] at hw ⊢
        exact hslots.parked g w hw
  · intro t' ht' group' hgroup'
    rw [hgroups t' ht'] at hgroup'
    cases hgroup'
  · exact h.ownDelayed
  · intro g
    rw [hholds]
    by_cases hg : g = group.index
    · -- the worker has its thread, so that it is not parked yet
      subst hg
      have honly := h.holders group.index
      have hmiddle : holds group.index (.working group [] next : WorkerTask ι ρ α) = 1 := by
        simp [holds, WorkerTask.group?]
      rw [total_middle, hmiddle] at honly
      have hfree : r.parked group.index = 0 := by
        simp only at honly
        split at honly <;> omega
      have hparked : (r.setSlot group.index { r.workerSlots group.index with worker := some group }).parked group.index =
          1 := by
        simp [GraphResources.parked, GraphResources.setSlot]
      rw [hfree, hmiddle, hparked]
      rfl
    · have hparked : (r.setSlot group.index { r.workerSlots group.index with worker := some group }).parked g =
          r.parked g := by
        simp [GraphResources.parked, GraphResources.setSlot, hg]
      have hother : holds g (.working group [] next : WorkerTask ι ρ α) = 0 := by
        simp [holds, WorkerTask.group?, Ne.symm hg]
      rw [hparked, hother]
      rfl
  · rw [hcounts]
    rfl
  · intro hdelayed
    rw [hcounts, hdrains]
    by_cases hpositive : 0 < next.counts + next.drains
    · exact Or.inl hpositive
    · exact Or.inr (Or.inr ⟨hdelayed, by simp only [counts, drains]; omega⟩)
  · intro item
    have hwork' : ((r.setSlot group.index { r.workerSlots group.index with worker := some group }).workerSlots
        (p.group item)).work = (r.workerSlots (p.group item)).work := by
      by_cases hg : p.group item = group.index
      · simp [GraphResources.setSlot, hg]
      · simp [GraphResources.setSlot, hg]
    have hzero : queued item (.working group [] next : WorkerTask ι ρ α) = 0 := by
      simp [queued, WorkerTask.group?, hlocal]
    rw [hqueued, hzero, hwork']
    rfl

/-- A thread that finds work in its slot takes it. -/
theorem Held.takeSlot (h : Held p ⟨r, front ++ .working group [] next :: behind⟩) (hlocal : group.localWork = []) :
    Held p ⟨r.setSlot group.index { r.workerSlots group.index with work := [] },
      [.working { group with localWork := (r.workerSlots group.index).work } [] next] ++ (front ++ behind)⟩ := by
  have hslots := h.slotsOk
  apply h.step_of
  · constructor
    · intro g item hitem
      by_cases hg : g = group.index
      · subst hg
        simp only [GraphResources.setSlot, Function.update_self] at hitem
        cases hitem
      · simp only [GraphResources.setSlot, Function.update_of_ne hg] at hitem
        exact hslots.own g item hitem
    · intro g w hw
      by_cases hg : g = group.index
      · subst hg
        simp only [GraphResources.setSlot, Function.update_self] at hw ⊢
        exact ⟨trivial, (hslots.parked _ w hw).2⟩
      · simp only [GraphResources.setSlot, Function.update_of_ne hg] at hw ⊢
        exact hslots.parked g w hw
  · intro t' ht' group' hgroup'
    obtain rfl := List.mem_singleton.1 ht'
    cases hgroup'
    exact fun item hitem => hslots.own _ item hitem
  · exact h.ownDelayed
  · intro g
    have hparked : (r.setSlot group.index { r.workerSlots group.index with work := [] }).parked g = r.parked g := by
      by_cases hg : g = group.index
      · simp [GraphResources.parked, GraphResources.setSlot, hg]
      · simp [GraphResources.parked, GraphResources.setSlot, hg]
    rw [hparked, total_cons, total_nil]
    rfl
  · rw [total_cons, total_nil]
    rfl
  · intro hdelayed
    by_cases hpositive : 0 < next.counts + next.drains
    · exact Or.inl hpositive
    · exact Or.inr (Or.inr ⟨hdelayed, by simp only [counts, drains]; omega⟩)
  · intro item
    have hzero : queued item (.working group [] next : WorkerTask ι ρ α) = 0 := by
      simp [queued, WorkerTask.group?, hlocal]
    -- the items of the slot have gone into the queue
    have hmoved : ((r.setSlot group.index { r.workerSlots group.index with work := [] }).workerSlots
        (p.group item)).work.count item + (r.workerSlots group.index).work.count item =
          (r.workerSlots (p.group item)).work.count item := by
      by_cases hg : p.group item = group.index
      · simp [GraphResources.setSlot, hg]
      · have hnone : (r.workerSlots group.index).work.count item = 0 :=
          List.count_eq_zero.2 fun hitem => hg (hslots.own _ item hitem)
        simp [GraphResources.setSlot, hg, hnone]
    rw [total_cons, total_nil, hzero]
    have hqueue : queued item (.working { group with localWork := (r.workerSlots group.index).work } [] next :
        WorkerTask ι ρ α) = (r.workerSlots group.index).work.count item := rfl
    have hsent : (r.setSlot group.index { r.workerSlots group.index with work := [] }).sent = r.sent := rfl
    have hprocessed : (r.setSlot group.index { r.workerSlots group.index with work := [] }).processed = r.processed := rfl
    have hdelayed : (r.setSlot group.index { r.workerSlots group.index with work := [] }).delayProcessing =
        r.delayProcessing := rfl
    rw [hsent, hprocessed, hdelayed]
    omega

/-- The group with the synthetic symbols waits for the others. -/
theorem Held.delay (h : Held p ⟨r, front ++ .activating group [] :: behind⟩) :
    Held p ⟨{ r with delayProcessing := group :: r.delayProcessing }, [.countDown] ++ (front ++ behind)⟩ := by
  apply h.step_of
  · exact ⟨h.slotsOk.own, h.slotsOk.parked⟩
  · intro t' ht' group' hgroup'
    obtain rfl := List.mem_singleton.1 ht'
    cases hgroup'
  · intro group' hgroup'
    rcases List.mem_cons.1 hgroup' with rfl | hgroup'
    · exact h.own rfl
    · exact h.ownDelayed group' hgroup'
  · intro g
    have hparked : ({ r with delayProcessing := group :: r.delayProcessing } : GraphResources ι ρ α σ).parked g =
        r.parked g := rfl
    simp only [total_cons, total_nil, holds, WorkerTask.group?, GraphResources.delayed, List.countP_cons, Option.any_some,
      Option.any_none, decide_eq_true_eq, Bool.false_eq_true, if_false]
    omega
  · rfl
  · exact fun _ => Or.inl (Nat.lt_add_right _ Nat.one_pos)
  · intro item
    simp only [total_cons, total_nil, queued, WorkerTask.group?, Option.map_some, Option.map_none, Option.getD_some,
      Option.getD_none, List.map_cons, List.sum_cons, GraphResources.sent]
    omega

/-- Another group goes on with its work. -/
theorem Held.activated (h : Held p ⟨r, front ++ .activating group [] :: behind⟩) :
    Held p ⟨r, [.working group [] .countsDown] ++ (front ++ behind)⟩ := by
  apply h.step_of h.slotsOk
  · intro t' ht' group' hgroup'
    obtain rfl := List.mem_singleton.1 ht'
    cases hgroup'
    exact h.own rfl
  · exact h.ownDelayed
  · exact fun g => rfl
  · rfl
  · exact fun _ => Or.inl (Nat.lt_add_right _ Nat.one_pos)
  · intro item
    simp only [total_cons, total_nil, queued, WorkerTask.group?]
    omega

/-- An item of the queue is processed. -/
theorem Held.process {item : ι} {localWork : List ι} {actions : List (Action ι α)}
    (h : Held p ⟨r, front ++ .working group [] next :: behind⟩) (hlocal : group.localWork = item :: localWork)
    (files : ρ) : Held p ⟨{ r with processed := item :: r.processed },
      [.working { group with localWork, files } actions next] ++ (front ++ behind)⟩ := by
  have hown := h.own rfl
  apply h.step_of
  · exact ⟨h.slotsOk.own, h.slotsOk.parked⟩
  · intro t' ht' group' hgroup'
    obtain rfl := List.mem_singleton.1 ht'
    cases hgroup'
    intro item' hitem'
    apply hown item'
    rw [hlocal]
    exact List.mem_cons_of_mem _ hitem'
  · exact h.ownDelayed
  · exact fun g => rfl
  · rfl
  · intro hdelayed
    by_cases hpositive : 0 < next.counts + next.drains
    · exact Or.inl hpositive
    · exact Or.inr (Or.inr ⟨hdelayed, by simp only [counts, drains]; omega⟩)
  · intro item'
    simp only [total_cons, total_nil, queued, WorkerTask.group?, Option.map_some, Option.getD_some, hlocal,
      List.count_cons, GraphResources.sent]
    omega

/-- An activation is over; the last one goes on with what is delayed. -/
theorem Held.countDown (h : Held p ⟨r, front ++ .countDown :: behind⟩) :
    Held p ⟨{ r with activationsRemaining := r.activationsRemaining - 1 },
      (if r.activationsRemaining - 1 = 0 then [.popDelayed] else []) ++ (front ++ behind)⟩ := by
  have hcounted := h.counted
  rw [total_middle] at hcounted
  have hone : counts (.countDown : WorkerTask ι ρ α) = 1 := rfl
  simp only [hone] at hcounted
  apply h.step_of
  · exact ⟨h.slotsOk.own, h.slotsOk.parked⟩
  · intro t' ht' group' hgroup'
    split at ht'
    · obtain rfl := List.mem_singleton.1 ht'
      cases hgroup'
    · cases ht'
  · exact h.ownDelayed
  · intro g
    split <;> rfl
  · split <;> simp [counts] <;> omega
  · intro _
    by_cases hzero : r.activationsRemaining - 1 = 0
    · rw [if_pos hzero]
      exact Or.inl Nat.one_pos
    · exact Or.inr (Or.inl (Nat.pos_of_ne_zero hzero))
  · intro item
    split <;> rfl

theorem Held.popNone (h : Held p ⟨r, front ++ .popDelayed :: behind⟩) (hdelayed : r.delayProcessing = []) :
    Held p ⟨r, [] ++ (front ++ behind)⟩ := by
  apply h.step_of h.slotsOk (fun _ h => absurd h List.not_mem_nil) h.ownDelayed (fun _ => rfl) rfl
  · exact fun hne => absurd hdelayed hne
  · exact fun item => rfl

theorem Held.pop {delayed : List (GroupState ι ρ)} (h : Held p ⟨r, front ++ .popDelayed :: behind⟩)
    (hdelayed : r.delayProcessing = group :: delayed) :
    Held p ⟨{ r with delayProcessing := delayed }, [.working group [] .popsDelayed] ++ (front ++ behind)⟩ := by
  apply h.step_of
  · exact ⟨h.slotsOk.own, h.slotsOk.parked⟩
  · intro t' ht' group' hgroup'
    obtain rfl := List.mem_singleton.1 ht'
    cases hgroup'
    apply h.ownDelayed group
    rw [hdelayed]
    exact List.mem_cons_self
  · intro group' hgroup'
    apply h.ownDelayed group'
    rw [hdelayed]
    exact List.mem_cons_of_mem _ hgroup'
  · intro g
    have hparked : ({ r with delayProcessing := delayed } : GraphResources ι ρ α σ).parked g = r.parked g := rfl
    simp only [total_cons, total_nil, holds, WorkerTask.group?, GraphResources.delayed, hdelayed, List.countP_cons,
      Option.any_some, Option.any_none, decide_eq_true_eq, Bool.false_eq_true, if_false]
    omega
  · rfl
  · exact fun _ => Or.inl Nat.one_pos
  · intro item
    simp only [total_cons, total_nil, queued, WorkerTask.group?, Option.map_some, Option.map_none, Option.getD_some,
      Option.getD_none, hdelayed, List.map_cons, List.sum_cons, GraphResources.sent]
    omega

omit [DecidableEq ι] in
theorem errors_of_step {c c' : Config (GraphResources ι ρ α σ) (WorkerTask ι ρ α)} (hstep : Step p.act c c')
    (h : c'.shared.errors = false) : c.shared.errors = false := by
  obtain ⟨front, t, behind, -, rfl⟩ := hstep
  have hperform : ∀ (action : Action ι α) (group : GroupState ι ρ),
      (p.perform action group c.shared).resources.errors = c.shared.errors := by
    intro action group
    unfold Program.perform
    cases action with
    | send item =>
      simp only
      split <;> rfl
    | sendToSlot item => rfl
    | access a => rfl
  unfold Program.act at h
  split at h
  · rwa [hperform] at h
  · split at h <;> exact h
  · rwa [hperform] at h
  · split at h
    · split at h
      · exact h
      · cases h
    · simp only at h
      split at h <;> exact h
  · exact h
  · split at h <;> exact h

/-- **Every step without an error keeps each worker and each item in one place.** -/
theorem Held.step {c c' : Config (GraphResources ι ρ α σ) (WorkerTask ι ρ α)} (h : Held p c) (hstep : Step p.act c c')
    (herrors : c'.shared.errors = false) : Held p c' := by
  obtain ⟨front, t, behind, htasks, rfl⟩ := hstep
  obtain ⟨r, tasks⟩ := c
  obtain rfl : tasks = front ++ t :: behind := htasks
  cases t with
  | activating group actions =>
    cases actions with
    | cons action rest =>
      exact h.perform (fun group' => .activating group' _) rfl (fun _ => rfl) (fun _ => rfl) (fun _ => rfl) action
    | nil =>
      unfold Program.act
      simp only
      split
      · exact h.delay
      · exact h.activated
  | working group actions next =>
    cases actions with
    | cons action rest =>
      exact h.perform (fun group' => .working group' _ next) rfl (fun _ => rfl) (fun _ => rfl) (fun _ => rfl)
        action
    | nil =>
      unfold Program.act at herrors ⊢
      cases hlocal : group.localWork with
      | cons item localWork =>
        simp only [hlocal] at herrors ⊢
        cases hwork : p.doWork item group.files with
        | some done => exact h.process hlocal done.1
        | none =>
          rw [hwork] at herrors
          cases herrors
      | nil =>
        simp only [hlocal]
        split
        · rename_i hwork
          exact h.park hlocal hwork
        · exact h.takeSlot hlocal
  | countDown => exact h.countDown
  | popDelayed =>
    unfold Program.act
    cases hdelayed : r.delayProcessing with
    | nil =>
      simp only [hdelayed]
      exact h.popNone hdelayed
    | cons group delayed =>
      simp only [hdelayed]
      exact h.pop hdelayed

/-- What holds of a run without errors. -/
theorem held_of_reachable {graph : σ} {c : Config (GraphResources ι ρ α σ) (WorkerTask ι ρ α)}
    (hreach : Reachable p.act (p.initial graph) c) (herrors : c.shared.errors = false) : Held p c := by
  induction hreach with
  | refl => exact held_initial p graph
  | tail _ hstep ih => exact (ih (errors_of_step hstep herrors)).step hstep herrors

/-- When no thread is left, all workers are parked and everything that was sent has been processed once. -/
theorem workers_done {graph : σ} {r : GraphResources ι ρ α σ} (hreach : Reachable p.act (p.initial graph) ⟨r, []⟩)
    (herrors : r.errors = false) (hsent : ∀ item ∈ r.sent, p.group item < p.numGroups) :
    r.processed.Perm r.sent ∧ ∀ g < p.numGroups, ∃ worker, r.workerSlots g = { work := [], worker := some worker } ∧
      worker.index = g ∧ worker.localWork = [] := by
  have h := held_of_reachable hreach herrors
  have hdelayed : r.delayProcessing = [] := by
    by_contra hne
    exact absurd (h.drained hne) (Nat.lt_irrefl 0)
  have hslots : ∀ g < p.numGroups, ∃ worker, r.workerSlots g = { work := [], worker := some worker } ∧
      worker.index = g ∧ worker.localWork = [] := by
    intro g hg
    have hone := h.holders g
    simp only [total_nil, GraphResources.delayed, hdelayed, List.countP_nil, if_pos hg, GraphResources.parked] at hone
    cases hworker : (r.workerSlots g).worker with
    | none =>
      rw [hworker] at hone
      cases hone
    | some worker =>
      obtain ⟨hwork, hlocal, hindex⟩ := h.slots.parked g worker hworker
      refine ⟨worker, ?_, hindex, hlocal⟩
      rw [← hwork, ← hworker]
  refine ⟨?_, hslots⟩
  rw [List.perm_iff_count]
  intro item
  have honce := h.once item
  simp only [hdelayed, total_nil, List.map_nil, List.sum_nil, Nat.add_zero] at honce
  by_cases hitem : item ∈ r.sent
  · obtain ⟨worker, hslot, -⟩ := hslots (p.group item) (hsent item hitem)
    simp only [hslot, List.count_nil, Nat.add_zero] at honce
    exact honce.symm
  · rw [List.count_eq_zero.2 hitem] at honce ⊢
    omega

end

end Reld.Gc
