import Mathlib.Data.List.Count
import Reld.Merge.Buckets

/-!
# `Merge.Handover` — no bucket is lost, whatever the order

What has been done so far is kept beside the tasks (`Progress`): how many groups have been taken, in how many slots a
group has put its strings, how many groups a bucket has applied and where it is. The slots follow from that
(`SlotOk`), a bucket is in one place and a group in at most one task (`TasksOk`), and vectors are either left to be
reserved, held by a task, or in a slot (`PoolOk`).
-/

namespace Reld.Merge

open Tasks

variable (hashing : MergeHashing) (groups : List SectionGroup)

/-! ## What the buckets should be -/

/-- The strings of a group for a bucket. -/
def groupVectors (g i : Nat) : List StringToMerge :=
  ((groups[g]?.bind (splitGroup hashing)).map (·.buckets i)).getD []

/-- A bucket that has applied a number of groups one after the other. -/
def bucketAfter (i : Nat) : Nat → Option WorkedBucket
  | 0     => some ({ index := i }, [])
  | k + 1 => (bucketAfter i k).bind fun bucket =>
    (WorkedBucket.apply bucket (groupVectors hashing groups k i)).map WorkedBucket.advance

/-- Where a bucket is: in the slot of the group that it waits for, with a task, or among the finished ones. -/
inductive Place where
  | waiting
  | running
  | finished
deriving DecidableEq

structure Progress where
  popped : Nat
  swapped : Nat → Nat
  next : Nat → Nat
  place : Nat → Place

/-- What does not depend on the tasks: a bucket is never ahead of the slots. -/
structure Progress.Valid (p : Progress) : Prop where
  popped_le : p.popped ≤ groups.length
  unpopped : ∀ g, p.popped ≤ g → p.swapped g = 0
  split : ∀ g, 0 < p.swapped g → (groups[g]?.bind (splitGroup hashing)).isSome
  applied : ∀ i < mergeStringBuckets, ∀ g < p.next i, i < p.swapped g
  waiting : ∀ i < mergeStringBuckets, p.place i = .waiting → p.next i < groups.length
  finished : ∀ i < mergeStringBuckets, p.place i = .finished → p.next i = groups.length

/-- The bucket waits for the strings of the group. -/
def Progress.WaitsFor (p : Progress) (i g : Nat) : Prop := p.place i = .waiting ∧ p.next i = g

/-- What is in a slot. -/
def SlotOk (p : Progress) (g i : Nat) : StringsSlot → Prop
  | .empty => ¬ p.WaitsFor i g ∧ (i < p.swapped g → g < p.next i)
  | .waitingForStrings bucket => p.WaitsFor i g ∧ p.swapped g ≤ i ∧ bucketAfter hashing groups i g = some bucket
  | .strings strings =>
    ¬ p.WaitsFor i g ∧ i < p.swapped g ∧ p.next i ≤ g ∧ strings = groupVectors hashing groups g i

/-- The bucket is with a task and has applied `k` groups; it is `bucket`. -/
structure BucketOk (p : Progress) (k : Nat) (index : Nat) (bucket : WorkedBucket) : Prop where
  index_lt : index < mergeStringBuckets
  running : p.place index = .running
  next : p.next index = k
  bucket : bucketAfter hashing groups index k = some bucket

/-- The group is with a task that has filled `i` slots. -/
structure GroupOk (p : Progress) (g i : Nat) : Prop where
  popped : g < p.popped
  swapped : p.swapped g = i

def TaskOk (p : Progress) (unprocessed : List SectionGroup) : MergeTask → Prop
  | .spawnInputs => True
  | .input remaining => remaining = mergeStringBuckets
  | .takeVecs group taken remaining =>
    taken + remaining = mergeStringBuckets ∧ groups[group.index]? = some group ∧ GroupOk p group.index 0
  | .swapSlots index buckets i remaining =>
    remaining = 0 ∧ i ≤ mergeStringBuckets ∧ (i < mergeStringBuckets → GroupOk p index i ∧
      (groups[index]?.bind (splitGroup hashing)).isSome ∧ ∀ j, buckets j = groupVectors hashing groups index j)
  | .unreserve remaining => remaining = 0 ∨ unprocessed = []
  | .work bucket =>
    BucketOk hashing groups p bucket.1.nextInputGroupIndex bucket.1.index bucket
  | .returnVec bucket =>
    BucketOk hashing groups p (bucket.1.nextInputGroupIndex + 1) bucket.1.index bucket.advance
  | .addAvailable bucket =>
    BucketOk hashing groups p (bucket.1.nextInputGroupIndex + 1) bucket.1.index bucket.advance
  | .trySpawn bucket =>
    BucketOk hashing groups p (bucket.1.nextInputGroupIndex + 1) bucket.1.index bucket.advance

/-! ## Weights -/

/-- The task works on the group. -/
def holdsGroup (g : Nat) : MergeTask → Nat
  | .takeVecs group _ _ => if group.index = g then 1 else 0
  | .swapSlots index _ i _ => if index = g ∧ i < mergeStringBuckets then 1 else 0
  | _ => 0

/-- The task has the bucket. -/
def holdsBucket (i : Nat) : MergeTask → Nat
  | .work bucket | .returnVec bucket | .addAvailable bucket | .trySpawn bucket => if bucket.1.index = i then 1 else 0
  | _ => 0

/-- The vectors that have been reserved and are with the task, or on their way back. -/
def reserved : MergeTask → Nat
  | .input remaining | .unreserve remaining => remaining
  | .takeVecs _ taken remaining => taken + remaining
  | .swapSlots _ _ i remaining => mergeStringBuckets - i + remaining
  | .returnVec _ | .addAvailable _ => 1
  | _ => 0

/-- The vectors that the task has taken out of the pool. -/
def takenOut : MergeTask → Nat
  | .takeVecs _ taken _ => taken
  | .swapSlots _ _ i _ => mergeStringBuckets - i
  | .returnVec _ => 1
  | _ => 0

/-- The task tries to reserve. -/
def spawns : MergeTask → Nat
  | .spawnInputs | .trySpawn _ => 1
  | _ => 0

def StringsSlot.isStrings : StringsSlot → Bool
  | .strings _ => true
  | _ => false

/-- The slots that hold strings. -/
def stringsSlots (slots : Nat → StringsSlot) (n : Nat) : Nat := (List.range n).countP fun k => (slots k).isStrings

/-! ## The invariant -/

/-- Each group that has been taken is with one task until its slots are filled, and each running bucket is with
one. -/
structure TasksOk (p : Progress) (unprocessed : List SectionGroup) (tasks : List MergeTask) : Prop where
  ok : ∀ t ∈ tasks, TaskOk hashing groups p unprocessed t
  groups : ∀ g, total (holdsGroup g) tasks = if g < p.popped ∧ p.swapped g < mergeStringBuckets then 1 else 0
  buckets : ∀ i < mergeStringBuckets, total (holdsBucket i) tasks = if p.place i = .running then 1 else 0

/-- The finished buckets. -/
structure FinishedOk (p : Progress) (finished : List WorkedBucket) : Prop where
  ok : ∀ bucket ∈ finished, bucket.1.index < mergeStringBuckets ∧
    bucketAfter hashing groups bucket.1.index groups.length = some bucket
  once : ∀ i < mergeStringBuckets, (finished.map (·.1.index)).count i = if p.place i = .finished then 1 else 0

/-- No vector is lost; and if a group is left that could be split, somebody tries to. -/
structure PoolOk (pool : ReusePool) (unprocessed : List SectionGroup) (inSlots : Nat) (tasks : List MergeTask) :
    Prop where
  available : pool.available + total reserved tasks + inSlots = pool.capacity
  vecs : pool.stringVecs + total takenOut tasks + inSlots ≤ pool.capacity
  live : unprocessed = [] ∨ pool.available < mergeStringBuckets ∨ 0 < total spawns tasks

structure Handover (p : Progress) (c : Config SplitResources MergeTask) : Prop where
  count : c.shared.numInputGroups = groups.length
  unprocessed : c.shared.unprocessed = groups.drop p.popped
  valid : p.Valid hashing groups
  slots : ∀ g < groups.length, ∀ i < mergeStringBuckets, SlotOk hashing groups p g i (c.shared.slot g i)
  tasks : TasksOk hashing groups p c.shared.unprocessed c.tasks
  finished : FinishedOk hashing groups p c.shared.finishedBuckets
  pool : PoolOk c.shared.reusePool c.shared.unprocessed
    (stringsSlots c.shared.stringsByBucketAndGroup (groups.length * mergeStringBuckets)) c.tasks
  noPanic : c.shared.panicked = false

section

variable {hashing groups} {p p' : Progress} {u u' : List SectionGroup} {t : MergeTask} {new front behind : List MergeTask}
  {r : SplitResources}

/-! ## Buckets -/

variable {b' b : MergeStringsSectionBucket}

theorem addString_counters {string : Bytes} {bucketIndex : Nat} {value : BucketOffset}
    (h : b.addString string bucketIndex = some (b', value)) :
    b'.index = b.index ∧ b'.nextInputGroupIndex = b.nextInputGroupIndex := by
  obtain ⟨_, -, heq⟩ := Option.map_eq_some_iff.mp h
  cases heq
  unfold MergeStringsSectionBucket.entry
  split <;> exact ⟨rfl, rfl⟩

variable {strings : List StringToMerge}

theorem processSplitOutput_counters {stored : List (OffsetOut × BucketOffset)}
    (h : b.processSplitOutput strings = some (b', stored)) :
    b'.index = b.index ∧ b'.nextInputGroupIndex = b.nextInputGroupIndex := by
  induction strings generalizing b stored with
  | nil =>
    cases h
    exact ⟨rfl, rfl⟩
  | cons string strings ih =>
    obtain ⟨added, hadded, hrest⟩ := Option.bind_eq_some_iff.mp h
    obtain ⟨rest, hbehind, heq⟩ := Option.map_eq_some_iff.mp hrest
    cases heq
    have hfront := addString_counters hadded
    have hback := ih hbehind
    exact ⟨hback.1.trans hfront.1, hback.2.trans hfront.2⟩

variable {bucket worked : WorkedBucket}

theorem apply_counters (h : bucket.apply strings = some worked) :
    worked.1.index = bucket.1.index ∧ worked.1.nextInputGroupIndex = bucket.1.nextInputGroupIndex := by
  obtain ⟨done, hdone, rfl⟩ := Option.map_eq_some_iff.mp h
  exact processSplitOutput_counters hdone

variable {i : Nat}

theorem bucketAfter_succ {k : Nat} (h : bucketAfter hashing groups i k = some bucket)
    (hworked : bucket.apply (groupVectors hashing groups k i) = some worked) :
    bucketAfter hashing groups i (k + 1) = some worked.advance := by
  rw [bucketAfter, h, Option.bind_some, hworked, Option.map_some]

/-- A bucket keeps its index, and counts the groups. -/
theorem bucketAfter_counters {k : Nat} (h : bucketAfter hashing groups i k = some bucket) :
    bucket.1.index = i ∧ bucket.1.nextInputGroupIndex = k := by
  induction k generalizing bucket with
  | zero =>
    cases h
    exact ⟨rfl, rfl⟩
  | succ k ih =>
    obtain ⟨before, hbefore, h⟩ := Option.bind_eq_some_iff.mp h
    obtain ⟨worked, hworked, rfl⟩ := Option.map_eq_some_iff.mp h
    obtain ⟨hindex, hnext⟩ := ih hbefore
    obtain ⟨hindex', hnext'⟩ := apply_counters hworked
    exact ⟨hindex'.trans hindex, congrArg (· + 1) (hnext'.trans hnext)⟩

/-! ## Slots -/

variable {g : Nat}

theorem stringBucketOffset_inj {g' i' : Nat} (hi : i < mergeStringBuckets) (hi' : i' < mergeStringBuckets) :
    stringBucketOffset g i = stringBucketOffset g' i' ↔ g = g' ∧ i = i' := by
  have h16 : mergeStringBuckets = 16 := by decide
  unfold stringBucketOffset
  rw [h16] at hi hi' ⊢
  omega

theorem stringBucketOffset_lt (hg : g < groups.length) (hi : i < mergeStringBuckets) :
    stringBucketOffset g i < groups.length * mergeStringBuckets := by
  have h16 : mergeStringBuckets = 16 := by decide
  unfold stringBucketOffset
  rw [h16] at hi ⊢
  omega

theorem slot_setSlot_self (g i : Nat) (slot : StringsSlot) : (r.setSlot g i slot).slot g i = slot :=
  Function.update_self _ _ _

theorem slot_setSlot_of_ne {g' i' : Nat} (hi : i < mergeStringBuckets) (hi' : i' < mergeStringBuckets)
    (hne : ¬ (g' = g ∧ i' = i)) (slot : StringsSlot) : (r.setSlot g i slot).slot g' i' = r.slot g' i' :=
  Function.update_of_ne (fun heq => hne ((stringBucketOffset_inj hi' hi).mp heq)) _ _

/-- One slot changes. -/
theorem stringsSlots_update (slots : Nat → StringsSlot) {n k : Nat} (hk : k < n) (slot : StringsSlot) :
    stringsSlots (Function.update slots k slot) n + (slots k).isStrings.toNat =
      stringsSlots slots n + slot.isStrings.toNat := by
  have houtside : ∀ m ≤ k, stringsSlots (Function.update slots k slot) m = stringsSlots slots m := by
    intro m hm
    refine List.countP_congr fun j hj => ?_
    rw [Function.update_of_ne (by have := List.mem_range.mp hj; omega)]
  induction n with
  | zero => omega
  | succ n ih =>
    have hsucc : ∀ f : Nat → StringsSlot, stringsSlots f (n + 1) = stringsSlots f n + (f n).isStrings.toNat := by
      intro f
      rw [stringsSlots, List.range_succ, List.countP_append, stringsSlots]
      cases hf : (f n).isStrings <;> simp [hf]
    rw [hsucc, hsucc]
    rcases Nat.lt_or_eq_of_le (Nat.le_of_lt_succ hk) with hlt | rfl
    · have := ih hlt
      rw [Function.update_of_ne (Nat.ne_of_gt hlt)]
      omega
    · rw [Function.update_self, houtside k (Nat.le_refl k)]
      omega

/-- What is in a slot depends on its group and its bucket only. -/
theorem SlotOk.congr {slot : StringsSlot} (h : SlotOk hashing groups p g i slot)
    (hwaits : p'.WaitsFor i g ↔ p.WaitsFor i g) (hswapped : i < p'.swapped g ↔ i < p.swapped g)
    (hnext : g < p'.next i ↔ g < p.next i) : SlotOk hashing groups p' g i slot := by
  cases slot with
  | empty =>
    obtain ⟨hnot, himp⟩ := h
    exact ⟨mt hwaits.mp hnot, fun hi => hnext.mpr (himp (hswapped.mp hi))⟩
  | waitingForStrings bucket =>
    obtain ⟨hw, hle, hbucket⟩ := h
    exact ⟨hwaits.mpr hw, Nat.le_of_not_lt (mt hswapped.mp (Nat.not_lt.mpr hle)), hbucket⟩
  | strings strings =>
    obtain ⟨hnot, hlt, hle, heq⟩ := h
    exact ⟨mt hwaits.mp hnot, hswapped.mpr hlt, Nat.le_of_not_lt (mt hnext.mp (Nat.not_lt.mpr hle)), heq⟩

/-! ## Tasks -/

/-- A task depends on the group and the bucket that it holds only. -/
theorem TaskOk.congr (h : TaskOk hashing groups p u t) (hpopped : p.popped ≤ p'.popped) (hu : u = [] → u' = [])
    (hgroup : ∀ g, holdsGroup g t = 1 → p'.swapped g = p.swapped g)
    (hbucket : ∀ i < mergeStringBuckets, holdsBucket i t = 1 → p'.place i = p.place i ∧ p'.next i = p.next i) :
    TaskOk hashing groups p' u' t := by
  have hmoved : ∀ {k i : Nat} {bucket : WorkedBucket}, BucketOk hashing groups p k i bucket →
      holdsBucket i t = 1 → BucketOk hashing groups p' k i bucket := by
    intro k i bucket hok hholds
    obtain ⟨hplace, hnext⟩ := hbucket i hok.index_lt hholds
    exact ⟨hok.index_lt, hplace.trans hok.running, hnext.trans hok.next, hok.bucket⟩
  cases t with
  | spawnInputs     => exact h
  | input remaining => exact h
  | takeVecs group taken remaining =>
    obtain ⟨hsum, hget, hgroup'⟩ := h
    exact ⟨hsum, hget, hgroup'.popped.trans_le hpopped, (hgroup _ (if_pos rfl)).trans hgroup'.swapped⟩
  | swapSlots index buckets i remaining =>
    obtain ⟨hremaining, hi, hrest⟩ := h
    refine ⟨hremaining, hi, fun hlt => ?_⟩
    obtain ⟨hgroup', hvectors⟩ := hrest hlt
    exact ⟨⟨hgroup'.popped.trans_le hpopped, (hgroup _ (if_pos ⟨rfl, hlt⟩)).trans hgroup'.swapped⟩, hvectors⟩
  | unreserve remaining => exact h.imp_right hu
  | work bucket => exact hmoved h (if_pos rfl)
  | returnVec bucket => exact hmoved h (if_pos rfl)
  | addAvailable bucket => exact hmoved h (if_pos rfl)
  | trySpawn bucket => exact hmoved h (if_pos rfl)

theorem holdsBucket_of_ok (h : TaskOk hashing groups p u t) (hholds : holdsBucket i t = 1) :
    i < mergeStringBuckets ∧ p.place i = .running := by
  have hindex : ∀ {k : Nat} {bucket bucket' : WorkedBucket}, BucketOk hashing groups p k bucket.1.index bucket' →
      (if bucket.1.index = i then 1 else 0) = 1 → i < mergeStringBuckets ∧ p.place i = .running := by
    intro k bucket bucket' hok hif
    by_cases heq : bucket.1.index = i
    · exact heq ▸ ⟨hok.index_lt, hok.running⟩
    · simp [heq] at hif
  cases t with
  | work bucket => exact hindex h hholds
  | returnVec bucket => exact hindex h hholds
  | addAvailable bucket => exact hindex h hholds
  | trySpawn bucket => exact hindex h hholds
  | _ => cases hholds

/-- **A task goes on.** What it changes is its own: no other task holds its group or its bucket. -/
theorem TasksOk.step (h : TasksOk hashing groups p u (front ++ t :: behind)) (hpopped : p.popped ≤ p'.popped)
    (hu : u = [] → u' = []) (hswapped : ∀ g, p'.swapped g = p.swapped g ∨ holdsGroup g t = 1)
    (hmoved : ∀ i < mergeStringBuckets, p'.place i = p.place i ∧ p'.next i = p.next i ∨ p.place i ≠ .running ∨
      holdsBucket i t = 1)
    (hok : ∀ t' ∈ new, TaskOk hashing groups p' u' t')
    (hgroups : ∀ g, total (holdsGroup g) new + (if g < p.popped ∧ p.swapped g < mergeStringBuckets then 1 else 0) =
      holdsGroup g t + if g < p'.popped ∧ p'.swapped g < mergeStringBuckets then 1 else 0)
    (hbuckets : ∀ i < mergeStringBuckets, total (holdsBucket i) new + (if p.place i = .running then 1 else 0) =
      holdsBucket i t + if p'.place i = .running then 1 else 0) :
    TasksOk hashing groups p' u' (new ++ (front ++ behind)) := by
  have hother : ∀ t' ∈ front ++ behind, TaskOk hashing groups p u t' := by
    intro t' ht'
    refine h.ok t' ?_
    rcases List.mem_append.mp ht' with hfront | hbehind
    · exact List.mem_append_left _ hfront
    · exact List.mem_append_right _ (List.mem_cons_of_mem t hbehind)
  refine ⟨List.forall_mem_append.mpr ⟨hok, fun t' ht' => ?_⟩, fun g => ?_, fun i hi => ?_⟩
  · refine (hother t' ht').congr hpopped hu (fun g hholds => ?_) fun i hi hholds => ?_
    · -- the group is with `t'`, so that it is not with `t`
      have hall := h.groups g
      rw [total_middle] at hall
      have hle := weight_le_total (holdsGroup g) ht'
      refine (hswapped g).resolve_right fun hheld => ?_
      split at hall <;> omega
    · have hall := h.buckets i hi
      rw [total_middle] at hall
      have hle := weight_le_total (holdsBucket i) ht'
      have hrunning := (holdsBucket_of_ok (hother t' ht') hholds).2
      rw [if_pos hrunning] at hall
      rcases hmoved i hi with hsame | hnot | hheld
      · exact hsame
      · exact absurd hrunning hnot
      · omega
  · have hall := h.groups g
    rw [total_middle] at hall
    have := hgroups g
    rw [total_append]
    omega
  · have hall := h.buckets i hi
    rw [total_middle] at hall
    have := hbuckets i hi
    rw [total_append]
    omega

end

end Reld.Merge
