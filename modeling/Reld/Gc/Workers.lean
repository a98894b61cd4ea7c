import Reld.Lib.Tasks

/-!
# `Gc.Workers` — the workers of the layout phase

Every group of input files has a worker, the state of the group with a queue of its own. A worker runs until its queue
and its slot are empty and then parks itself in the slot; whoever sends work to a parked worker takes it out of the
slot and spawns a thread for it. The groups are activated in parallel first; the group of the synthetic symbols waits
until all are.

What the files of a group do with a work item is a parameter here (`Program`). Each access to what the threads share is a
step of its own (`Action`), so that a run is any interleaving of these accesses.
-/

namespace Reld.Gc

open Tasks

variable {ι ρ α σ : Type}

/-- The next access of a worker to the state that the threads share. -/
inductive Action (ι α : Type) where
  /-- `LocalWorkQueue::send_work`. -/
  | send (item : ι)
  /-- `GraphResources::send_work`, which does not look whose group it is. -/
  | sendToSlot (item : ι)
  /-- Any other access. -/
  | access (a : α)
deriving DecidableEq

/-- The item that an action sends. -/
def Action.item? : Action ι α → Option ι
  | .send item | .sendToSlot item => some item
  | .access _ => none

/-- What the workers run. -/
structure Program (ι ρ α σ : Type) where
  numGroups : Nat
  /-- The group of `file_id`. -/
  group : ι → Nat
  /-- `create_layout_state` for the files of a group. -/
  create : Nat → ρ
  /-- `activate` for the files of a group. -/
  activate : Nat → List (Action ι α)
  /-- Whether the group has the synthetic symbols. -/
  delays : Nat → Bool
  /-- `do_work`; `none` is an error. -/
  doWork : ι → ρ → Option (ρ × List (Action ι α))
  /-- An access, and what it makes its worker do next. -/
  access : α → σ → σ × List (Action ι α)

/-- `GroupState` with the `LocalWorkQueue`, the item pushed last in front. -/
structure GroupState (ι ρ : Type) where
  index : Nat
  localWork : List ι := []
  files : ρ

/-- `WorkerSlot`. -/
structure WorkerSlot (ι ρ : Type) where
  work : List ι := []
  worker : Option (GroupState ι ρ) := none

/-- `GraphResources`. The last two fields are the history of the run. -/
structure GraphResources (ι ρ α σ : Type) where
  workerSlots : Nat → WorkerSlot ι ρ := fun _ => {}
  delayProcessing : List (GroupState ι ρ) := []
  activationsRemaining : Nat
  /-- Whether an error was reported. -/
  errors : Bool := false
  /-- What the actions access. -/
  graph : σ
  performed : List (Action ι α) := []
  processed : List ι := []

/-- What a thread does behind `do_pending_work`. -/
inductive AfterWork where
  /-- It was spawned for the worker. -/
  | ends
  /-- It activated the group. -/
  | countsDown
  /-- It was the last activation. -/
  | popsDelayed

/-- A thread, at some point of what it does. -/
inductive WorkerTask (ι ρ α : Type) where
  /-- In the activation of the files. -/
  | activating (group : GroupState ι ρ) (actions : List (Action ι α))
  /-- In `do_pending_work`, with the actions that are left of the current item. -/
  | working (group : GroupState ι ρ) (actions : List (Action ι α)) (next : AfterWork)
  /-- In front of `activations_remaining.fetch_sub`. -/
  | countDown
  /-- In front of `delay_processing.pop`. -/
  | popDelayed

def afterWork : AfterWork → List (WorkerTask ι ρ α)
  | .ends        => []
  | .countsDown  => [.countDown]
  | .popsDelayed => [.popDelayed]

namespace GraphResources

variable (r : GraphResources ι ρ α σ)

def setSlot (index : Nat) (slot : WorkerSlot ι ρ) : GraphResources ι ρ α σ :=
  { r with workerSlots := Function.update r.workerSlots index slot }

/-- `send_work`, under the lock of the slot: the work is pushed, and the worker is taken if it is parked. -/
def sendWork (index : Nat) (item : ι) : GraphResources ι ρ α σ :=
  r.setSlot index { work := item :: (r.workerSlots index).work, worker := none }

/-- The thread that is spawned for the worker that was parked. -/
def spawned (index : Nat) : List (WorkerTask ι ρ α) :=
  ((r.workerSlots index).worker.map fun worker => .working worker [] .ends).toList

end GraphResources

namespace Program

variable (p : Program ι ρ α σ)

/-- What one action changes: the shared state, the queue of the worker, and what comes next in it and beside it. -/
structure Performed (ι ρ α σ : Type) where
  resources : GraphResources ι ρ α σ
  group : GroupState ι ρ
  actions : List (Action ι α) := []
  spawned : List (WorkerTask ι ρ α) := []

def perform (action : Action ι α) (group : GroupState ι ρ) (r : GraphResources ι ρ α σ) : Performed ι ρ α σ :=
  let r := { r with performed := action :: r.performed }
  match action with
  | .send item =>
    if p.group item = group.index then { resources := r, group := { group with localWork := item :: group.localWork } }
    else { resources := r.sendWork (p.group item) item, group, spawned := r.spawned (p.group item) }
  | .sendToSlot item =>
    { resources := r.sendWork (p.group item) item, group, spawned := r.spawned (p.group item) }
  | .access a =>
    let accessed := p.access a r.graph
    { resources := { r with graph := accessed.1 }, group, actions := accessed.2 }

/-- One step of a thread. -/
def act : WorkerTask ι ρ α → GraphResources ι ρ α σ → GraphResources ι ρ α σ × List (WorkerTask ι ρ α)
  | .activating group (action :: rest), r =>
    let done := p.perform action group r
    (done.resources, .activating done.group (done.actions ++ rest) :: done.spawned)
  | .activating group [], r =>
    if p.delays group.index then ({ r with delayProcessing := group :: r.delayProcessing }, [.countDown])
    else (r, [.working group [] .countsDown])
  | .working group (action :: rest) next, r =>
    let done := p.perform action group r
    (done.resources, .working done.group (done.actions ++ rest) next :: done.spawned)
  | .working group [] next, r =>
    match group.localWork with
    | item :: localWork =>
      match p.doWork item group.files with
      | some (files, actions) =>
        ({ r with processed := item :: r.processed }, [.working { group with localWork, files } actions next])
      -- The worker is dropped with its queue.
      | none => ({ r with errors := true }, afterWork next)
    | [] =>
      let slot := r.workerSlots group.index
      if slot.work = [] then (r.setSlot group.index { slot with worker := some group }, afterWork next)
      else (r.setSlot group.index { slot with work := [] }, [.working { group with localWork := slot.work } [] next])
  | .countDown, r =>
    ({ r with activationsRemaining := r.activationsRemaining - 1 },
      if r.activationsRemaining - 1 = 0 then [.popDelayed] else [])
  | .popDelayed, r =>
    match r.delayProcessing with
    | [] => (r, [])
    | group :: delayed => ({ r with delayProcessing := delayed }, [.working group [] .popsDelayed])

/-- `queue_initial_group_processing`: a thread for every group. -/
def initial (graph : σ) : Config (GraphResources ι ρ α σ) (WorkerTask ι ρ α) :=
  { shared := { activationsRemaining := p.numGroups, graph }
    tasks := (List.range p.numGroups).map fun index =>
      .activating { index, files := p.create index } (p.activate index) }

end Program

end Reld.Gc
