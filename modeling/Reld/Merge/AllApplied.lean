import Reld.Merge.HandoverSteps
import Reld.Merge.Pooled

/-!
# `Merge.AllApplied` — every run merges all strings

Whatever order the tasks are taken in, when none is left each bucket has applied all groups one after the other, and
nothing is left behind (`merge_tasks_finish`). So a run builds what `addInputSections` does
(`finished_addInputSections`).
-/

namespace Reld.Merge

open Tasks Traverse

/-- The groups of a merged section: `split_sections` numbers them, and there is one. -/
structure MergeGroups where
  groups : List SectionGroup
  indexed : groups.map (·.index) = List.range' 0 groups.length
  nonempty : groups ≠ []

theorem MergeGroups.index_eq (input : MergeGroups) (k : Nat) (group : SectionGroup)
    (h : input.groups[k]? = some group) : group.index = k := by
  have hindex : (input.groups.map (·.index))[k]? = some group.index := by rw [List.getElem?_map, h]; rfl
  have hk := (List.getElem?_eq_some_iff.mp h).1
  rw [input.indexed, List.getElem?_range' hk, Option.some.injEq] at hindex
  omega

/-- A pool with all its vectors left to be reserved, as it is in front of a section. -/
structure ReusePool.Full (pool : ReusePool) : Prop where
  available : pool.available = pool.capacity
  vecs : pool.stringVecs ≤ pool.capacity

variable {hashing : MergeHashing}

/-! ## Runs -/

theorem spawnLoop_keeps (again : MergeTask) (behind : List MergeTask) (r : SplitResources) :
    (spawnLoop again behind r).1.errors = r.errors ∧
      (spawnLoop again behind r).1.reusePool.capacity = r.reusePool.capacity := by
  unfold spawnLoop SplitResources.tryReserve
  split <;> rename_i heq <;> split at heq <;> cases heq <;> exact ⟨rfl, rfl⟩

theorem workRound_keeps (bucket : WorkedBucket) (r : SplitResources) :
    ((workRound bucket r).1.errors = false → r.errors = false) ∧
      (workRound bucket r).1.reusePool.capacity = r.reusePool.capacity := by
  unfold workRound
  split
  · split
    · split
      · exact ⟨nofun, rfl⟩
      · exact ⟨id, rfl⟩
    · exact ⟨id, rfl⟩
  · split <;> exact ⟨id, rfl⟩

/-- An error stays, and so does the capacity. -/
theorem act_keeps (hashing : MergeHashing) (t : MergeTask) (r : SplitResources) :
    ((t.act hashing r).1.errors = false → r.errors = false) ∧
      (t.act hashing r).1.reusePool.capacity = r.reusePool.capacity := by
  have hloop := fun again behind => spawnLoop_keeps again behind r
  cases t with
  | spawnInputs     => exact ⟨fun h => (hloop _ _).1 ▸ h, (hloop _ _).2⟩
  | trySpawn bucket => exact ⟨fun h => (hloop _ _).1 ▸ h, (hloop _ _).2⟩
  | input remaining | swapSlots index buckets i remaining | returnVec bucket =>
    simp only [MergeTask.act]
    split <;> exact ⟨id, rfl⟩
  | takeVecs group taken remaining =>
    simp only [MergeTask.act]
    split
    · split <;> exact ⟨id, rfl⟩
    · split
      · exact ⟨nofun, rfl⟩
      · exact ⟨id, rfl⟩
  | unreserve remaining => exact ⟨id, rfl⟩
  | work bucket => exact workRound_keeps bucket r
  | addAvailable bucket => exact ⟨id, rfl⟩

section

variable {groups : List SectionGroup} {p : Progress} {c c' : Config SplitResources MergeTask}
  {front behind : List MergeTask} {r : SplitResources}

theorem Handover.workRound {bucket : WorkedBucket}
    (h : Handover hashing groups p ⟨r, front ++ .work bucket :: behind⟩)
    (hok : (Reld.Merge.workRound bucket r).1.errors = false) :
    ∃ p', Handover hashing groups p'
      ⟨(Reld.Merge.workRound bucket r).1, (Reld.Merge.workRound bucket r).2 ++ (front ++ behind)⟩ := by
  have hcount : r.numInputGroups = groups.length := h.count
  unfold Reld.Merge.workRound at hok ⊢
  by_cases hmore : bucket.1.nextInputGroupIndex < groups.length
  · rw [if_pos (hcount.symm ▸ hmore)] at hok ⊢
    cases hslot : r.slot bucket.1.nextInputGroupIndex bucket.1.index with
    | strings strings =>
      cases hworked : bucket.apply strings with
      | none => simp [hslot, hworked] at hok
      | some worked =>
        simp only [hworked]
        exact ⟨_, h.takeStrings hmore hslot hworked⟩
    | empty => exact ⟨_, h.wait hmore (by rw [hslot]; rfl)⟩
    | waitingForStrings other => exact ⟨_, h.wait hmore (by rw [hslot]; rfl)⟩
  · obtain ⟨hroom, hfinished⟩ := h.finish hmore
    rw [if_neg (fun hless => hmore (hcount ▸ hless)), if_pos hroom]
    exact ⟨_, hfinished⟩

/-- **Each step keeps the invariant**, as long as no task reports an error. -/
theorem handover_step (hindexed : ∀ (k : Nat) (group : SectionGroup), groups[k]? = some group → group.index = k)
    (h : Handover hashing groups p c) (hstep : Step (MergeTask.act hashing) c c')
    (hok : c'.shared.errors = false) : ∃ p', Handover hashing groups p' c' := by
  obtain ⟨front, t, behind, htasks, rfl⟩ := hstep
  obtain ⟨r, tasks⟩ := c
  obtain rfl : tasks = front ++ t :: behind := htasks
  cases t with
  | spawnInputs => exact ⟨p, h.spawnLoop ⟨rfl, rfl, rfl⟩ (by simp) (fun _ => rfl) (fun _ => rfl) ⟨rfl, rfl⟩⟩
  | trySpawn bucket =>
    refine ⟨p, h.spawnLoop ⟨rfl, rfl, rfl⟩ (fun t' ht' => ?_) (fun _ => rfl) (fun _ => rfl) ⟨rfl, rfl⟩⟩
    exact List.mem_singleton.mp ht' ▸ h.taskOk
  | input remaining =>
    cases hunprocessed : r.unprocessed with
    | nil =>
      simp only [MergeTask.act, hunprocessed]
      exact ⟨p, h.popNone hunprocessed⟩
    | cons group rest =>
      simp only [MergeTask.act, hunprocessed]
      exact ⟨_, h.pop hindexed hunprocessed⟩
  | takeVecs group taken remaining =>
    by_cases htaken : taken < mergeStringBuckets
    · cases remaining with
      | zero =>
        have hsum := h.taskOk.1
        omega
      | succ remaining =>
        simp only [MergeTask.act, if_pos htaken]
        exact ⟨p, h.takeVec⟩
    · simp only [MergeTask.act, if_neg htaken] at hok ⊢
      cases hout : Reld.Merge.splitGroup hashing group with
      | none     => simp [hout] at hok
      | some out => exact ⟨p, h.splitGroup htaken hout⟩
  | swapSlots index buckets i remaining =>
    by_cases hi : i < mergeStringBuckets
    · simp only [MergeTask.act, if_pos hi]
      exact ⟨_, h.swap hi⟩
    · simp only [MergeTask.act, if_neg hi]
      obtain ⟨hremaining, hle, -⟩ := h.taskOk
      have hall : i = mergeStringBuckets := Nat.le_antisymm hle (Nat.le_of_not_lt hi)
      refine ⟨p, h.quiet [.unreserve remaining] r.reusePool
        (fun t' ht' => List.mem_singleton.mp ht' ▸ .inl hremaining) (fun g => ?_) (fun _ => rfl)
        (h.poolOk.step rfl ?_ ?_ (.inr (.inr (.inr ⟨id, Nat.le_refl _, rfl⟩))))⟩
      · simp [holdsGroup, hi]
      · simp [reserved, hall]
      · simp [takenOut]
  | unreserve remaining => exact ⟨p, h.unreserve⟩
  | work bucket => exact h.workRound hok
  | returnVec bucket =>
    obtain ⟨hroom, hreturned⟩ := h.returnVec
    simp only [MergeTask.act, if_pos hroom]
    exact ⟨p, hreturned⟩
  | addAvailable bucket => exact ⟨p, h.addAvailable⟩

/-- Nothing has been done, and all buckets wait for the first group. -/
theorem handover_start (input : MergeGroups) {pool : ReusePool} (hpool : pool.Full) :
    Handover hashing input.groups ⟨0, fun _ => 0, fun _ => 0, fun _ => .waiting⟩ (mergeStart input.groups pool) where
  count := rfl
  unprocessed := rfl
  valid := ⟨Nat.zero_le _, fun _ _ => rfl, fun _ h => absurd h (Nat.lt_irrefl 0), fun _ _ _ h => absurd h (Nat.not_lt_zero _),
    fun _ _ _ => List.length_pos_of_ne_nil input.nonempty, fun _ _ h => nomatch h⟩
  slots := fun g hg i hi => by
    show SlotOk hashing input.groups _ g i (if stringBucketOffset g i < mergeStringBuckets then _ else _)
    cases g with
    | zero =>
      rw [if_pos (by unfold stringBucketOffset; omega), stringBucketOffset, Nat.zero_mul, Nat.zero_add]
      exact ⟨⟨rfl, rfl⟩, Nat.zero_le i, rfl⟩
    | succ g =>
      have h16 : mergeStringBuckets = 16 := by decide
      rw [if_neg (by unfold stringBucketOffset; rw [h16]; omega)]
      exact ⟨fun hwaits => absurd hwaits.2.symm (Nat.succ_ne_zero g), fun hi => absurd hi (Nat.not_lt_zero i)⟩
  tasks := ⟨by simp [mergeStart, TaskOk], fun g => by simp [mergeStart, holdsGroup],
    fun i _ => by simp [mergeStart, holdsBucket]⟩
  finished := ⟨by simp [mergeStart, createSplitResources], fun i _ => by simp [mergeStart, createSplitResources]⟩
  pool := by
    have hnone : ∀ n, stringsSlots (createSplitResources input.groups pool).stringsByBucketAndGroup n = 0 := by
      intro n
      refine List.countP_eq_zero.mpr fun k _ => ?_
      simp only [createSplitResources]
      split <;> exact Bool.false_ne_true
    refine ⟨?_, ?_, .inr (.inr Nat.one_pos)⟩
    · rw [mergeStart, hnone]
      exact hpool.available
    · rw [mergeStart, hnone]
      exact hpool.vecs
  noPanic := rfl

/-- In every state that is reached without an error the invariant holds. -/
theorem handover_reachable (input : MergeGroups) {pool : ReusePool} (hpool : pool.Full)
    (hreach : Reachable (MergeTask.act hashing) (mergeStart input.groups pool) c) :
    (c.shared.errors = false → ∃ p, Handover hashing input.groups p c) ∧
      c.shared.reusePool.capacity = pool.capacity := by
  let inv : Config SplitResources MergeTask → Prop := fun c =>
    (c.shared.errors = false → ∃ p, Handover hashing input.groups p c) ∧
      c.shared.reusePool.capacity = pool.capacity
  have hinit : inv (mergeStart input.groups pool) := ⟨fun _ => ⟨_, handover_start input hpool⟩, rfl⟩
  refine hreach.induction hinit ?_
  rintro c c' ⟨hinv, hcapacity⟩ hstep
  obtain ⟨front, t, behind, htasks, rfl⟩ := id hstep
  have hkeeps := act_keeps hashing t c.shared
  refine ⟨fun hok => ?_, hkeeps.2.trans hcapacity⟩
  obtain ⟨p, h⟩ := hinv (hkeeps.1 hok)
  exact handover_step input.index_eq h hstep hok

/-! ## No task is left -/

theorem stringsSlots_eq_zero (hslots : ∀ g < groups.length, ∀ i < mergeStringBuckets, (r.slot g i).isStrings = false) :
    stringsSlots r.stringsByBucketAndGroup (groups.length * mergeStringBuckets) = 0 := by
  refine List.countP_eq_zero.mpr fun k hk => ?_
  have hk' := List.mem_range.mp hk
  have hoffset : stringBucketOffset (k / mergeStringBuckets) (k % mergeStringBuckets) = k := Nat.div_add_mod' _ _
  have hslot := hslots (k / mergeStringBuckets) (Nat.div_lt_of_lt_mul (Nat.mul_comm _ _ ▸ hk'))
    (k % mergeStringBuckets) (Nat.mod_lt _ (by decide))
  rw [SplitResources.slot, hoffset] at hslot
  rw [hslot]
  exact Bool.false_ne_true

/-- A bucket that waits does so for a group that has not filled its slot. -/
theorem Handover.waiting_slot (h : Handover hashing groups p c) {i : Nat} (hi : i < mergeStringBuckets)
    (hplace : p.place i = .waiting) : p.next i < groups.length ∧ p.swapped (p.next i) ≤ i := by
  have hlt := h.valid.waiting i hi hplace
  have hok := h.slots _ hlt i hi
  refine ⟨hlt, ?_⟩
  cases hslot : c.shared.slot (p.next i) i with
  | empty =>
    rw [hslot] at hok
    exact absurd ⟨hplace, rfl⟩ hok.1
  | strings strings =>
    rw [hslot] at hok
    exact absurd ⟨hplace, rfl⟩ hok.1
  | waitingForStrings bucket =>
    rw [hslot] at hok
    exact hok.2.1

/-- Strings in a slot have not been applied. -/
theorem Handover.strings_slot (h : Handover hashing groups p c) {g i : Nat} (hg : g < groups.length)
    (hi : i < mergeStringBuckets) (hslot : (c.shared.slot g i).isStrings = true) :
    i < p.swapped g ∧ p.next i ≤ g := by
  have hok := h.slots g hg i hi
  cases hs : c.shared.slot g i with
  | strings strings =>
    rw [hs] at hok
    exact ⟨hok.2.1, hok.2.2.1⟩
  | empty =>
    rw [hs] at hslot
    cases hslot
  | waitingForStrings bucket =>
    rw [hs] at hslot
    cases hslot

section Idle

variable (h : Handover hashing groups p c) (hidle : c.tasks = [])
include h hidle

/-- The groups that have been taken have filled their slots. -/
theorem Handover.idle_swapped {g : Nat} (hg : g < p.popped) : mergeStringBuckets ≤ p.swapped g := by
  have hgroup := h.tasks.groups g
  rw [hidle, total_nil] at hgroup
  by_contra hless
  rw [if_pos ⟨hg, Nat.lt_of_not_le hless⟩] at hgroup
  cases hgroup

theorem Handover.idle_place {i : Nat} (hi : i < mergeStringBuckets) : p.place i = .waiting ∨ p.place i = .finished := by
  have hbucket := h.tasks.buckets i hi
  rw [hidle, total_nil] at hbucket
  cases hplace : p.place i with
  | waiting  => exact .inl rfl
  | finished => exact .inr rfl
  | running  =>
    rw [hplace] at hbucket
    cases hbucket

/-- The vectors are all left to be reserved, if none is in a slot. -/
theorem Handover.idle_available
    (hslots : ∀ g < groups.length, ∀ i < mergeStringBuckets, ¬ (c.shared.slot g i).isStrings = true) :
    c.shared.reusePool.available = c.shared.reusePool.capacity := by
  have havailable := h.pool.available
  rw [hidle, total_nil, stringsSlots_eq_zero fun g hg i hi => Bool.eq_false_iff.mpr (hslots g hg i hi)] at havailable
  exact havailable

/-- All groups have been taken: else every bucket would wait for the next one, and there would be vectors for it. -/
theorem Handover.idle_popped (hcapacity : mergeStringBuckets ≤ c.shared.reusePool.capacity) :
    p.popped = groups.length := by
  by_contra hne
  have hlt : p.popped < groups.length := Nat.lt_of_le_of_ne h.valid.popped_le hne
  have hnone := h.valid.unpopped p.popped (Nat.le_refl _)
  have hnext : ∀ i < mergeStringBuckets, p.next i = p.popped := by
    intro i hi
    have hnot : p.next i ≤ p.popped := by
      by_contra hahead
      have happlied := h.valid.applied i hi p.popped (Nat.lt_of_not_le hahead)
      rw [hnone] at happlied
      exact Nat.not_lt_zero i happlied
    refine Nat.le_antisymm hnot (Nat.le_of_not_lt fun hless => ?_)
    have hfilled := h.idle_swapped hidle hless
    rcases h.idle_place hidle hi with hwaiting | hfinished
    · have := (h.waiting_slot hi hwaiting).2
      omega
    · have := h.valid.finished i hi hfinished
      omega
  have havailable := h.idle_available hidle fun g hg i hi hslot => by
    obtain ⟨hswapped, hle⟩ := h.strings_slot hg hi hslot
    rw [hnext i hi] at hle
    rw [h.valid.unpopped g hle] at hswapped
    exact Nat.not_lt_zero i hswapped
  rcases h.pool.live with hdone | hfew | htries
  · rw [h.unprocessed, List.drop_eq_nil_iff] at hdone
    omega
  · omega
  · rw [hidle] at htries
    exact Nat.lt_irrefl 0 htries

theorem Handover.idle_finished (hpopped : p.popped = groups.length) {i : Nat} (hi : i < mergeStringBuckets) :
    p.place i = .finished := by
  refine (h.idle_place hidle hi).resolve_left fun hwaiting => ?_
  obtain ⟨hlt, hle⟩ := h.waiting_slot hi hwaiting
  have := h.idle_swapped hidle (hpopped.symm ▸ hlt)
  omega

end Idle

/-! ## One after the other -/

theorem processGroups_concat (b : MergeStringsSectionBucket) (vectors : List (List StringToMerge))
    (strings : List StringToMerge) :
    b.processGroups (vectors ++ [strings]) =
      (b.processGroups vectors).bind fun done =>
        (WorkedBucket.apply done strings).map WorkedBucket.advance := by
  induction vectors generalizing b with
  | nil =>
    rw [List.nil_append, MergeStringsSectionBucket.processGroups, MergeStringsSectionBucket.processGroups,
      Option.bind_some, WorkedBucket.apply]
    cases b.processSplitOutput strings with
    | none      => rfl
    | some done => simp [MergeStringsSectionBucket.processGroups, WorkedBucket.advance]
  | cons first vectors ih =>
    rw [List.cons_append, MergeStringsSectionBucket.processGroups, MergeStringsSectionBucket.processGroups]
    cases b.processSplitOutput first with
    | none      => rfl
    | some done =>
      rw [Option.bind_some, Option.bind_some, ih]
      cases MergeStringsSectionBucket.processGroups _ vectors with
      | none      => rfl
      | some rest =>
        simp only [Option.bind_some, Option.map_some, WorkedBucket.apply, Option.map_map]
        cases rest.1.processSplitOutput strings with
        | none      => rfl
        | some last => simp [WorkedBucket.advance]

theorem bucketAfter_eq (i k : Nat) :
    bucketAfter hashing groups i k = ({ index := i } : MergeStringsSectionBucket).processGroups
      ((List.range k).map fun g => groupVectors hashing groups g i) := by
  induction k with
  | zero => rfl
  | succ k ih => rw [bucketAfter, ih, List.range_succ, List.map_append, List.map_singleton, processGroups_concat]

theorem groupVectors_eq {outs : List SplitOutput} (houts : groups.mapM (splitGroup hashing) = some outs) (i : Nat) :
    (List.range groups.length).map (fun g => groupVectors hashing groups g i) = outs.map (·.buckets i) := by
  have hmap := mapM_eq_some.mp houts
  have hlength : groups.length = outs.length := by
    simpa using congrArg List.length hmap
  refine List.ext_getElem? fun g => ?_
  by_cases hg : g < groups.length
  · have hout : groups[g]?.bind (splitGroup hashing) = outs[g]? := by
      have hget := congrArg (·[g]?) hmap
      simp only [List.getElem?_map] at hget
      rw [List.getElem?_eq_getElem hg, List.getElem?_eq_getElem (hlength ▸ hg), Option.map_some, Option.map_some,
        Option.some.injEq] at hget
      rw [List.getElem?_eq_getElem hg, Option.bind_some, hget, List.getElem?_eq_getElem (hlength ▸ hg)]
    rw [List.getElem?_map, List.getElem?_map, List.getElem?_range hg, Option.map_some, groupVectors, hout,
      List.getElem?_eq_getElem (hlength ▸ hg), Option.map_some, Option.getD_some]
  · rw [List.getElem?_eq_none (by simpa using hg), List.getElem?_eq_none (by simpa [← hlength] using hg)]

/-- Each bucket once. -/
theorem finished_perm {finished : List WorkedBucket} (h : FinishedOk hashing groups p finished)
    (hall : ∀ i < mergeStringBuckets, p.place i = .finished) {done : Nat → WorkedBucket}
    (hdone : ∀ bucket ∈ finished, bucket = done bucket.1.index) :
    finished.Perm ((List.range mergeStringBuckets).map done) := by
  have hindexes : (finished.map (·.1.index)).Perm (List.range mergeStringBuckets) := by
    refine List.perm_iff_count.mpr fun i => ?_
    rw [List.count_range]
    by_cases hi : i < mergeStringBuckets
    · rw [h.once i hi, hall i hi, if_pos rfl, if_pos hi]
    · rw [if_neg hi]
      refine List.count_eq_zero.mpr fun hmem => hi ?_
      obtain ⟨bucket, hbucket, rfl⟩ := List.mem_map.mp hmem
      exact (h.ok bucket hbucket).1
  have hmap : finished = (finished.map (·.1.index)).map done := by
    rw [List.map_map]
    conv_lhs => rw [← List.map_id finished]
    exact List.map_congr_left fun bucket hbucket => hdone bucket hbucket
  rw [hmap]
  exact hindexes.map done

/-- The buckets that have applied all groups. -/
structure MergeOutcome (hashing : MergeHashing) (groups : List SectionGroup) (outs : List SplitOutput)
    (done : Nat → WorkedBucket) (finished : List WorkedBucket) : Prop where
  split : groups.mapM (splitGroup hashing) = some outs
  applied : ∀ i < mergeStringBuckets,
    ({ index := i } : MergeStringsSectionBucket).processGroups (outs.map (·.buckets i)) = some (done i)
  once : finished.Perm ((List.range mergeStringBuckets).map done)

/-- What is left when no task is. -/
theorem Handover.outcome (h : Handover hashing groups p c) (hidle : c.tasks = [])
    (hcapacity : mergeStringBuckets ≤ c.shared.reusePool.capacity) :
    c.shared.unprocessed = [] ∧ c.shared.reusePool.available = c.shared.reusePool.capacity ∧
      ∃ outs done, MergeOutcome hashing groups outs done c.shared.finishedBuckets := by
  have hpopped := h.idle_popped hidle hcapacity
  have hfinished := fun i hi => h.idle_finished hidle hpopped (i := i) hi
  have hsplit : ∀ group ∈ groups, (Reld.Merge.splitGroup hashing group).isSome := by
    intro group hgroup
    obtain ⟨g, hget⟩ := List.getElem?_of_mem hgroup
    have hg := (List.getElem?_eq_some_iff.mp hget).1
    have hswapped := h.idle_swapped hidle (hpopped.symm ▸ hg)
    have := h.valid.split g (Nat.lt_of_lt_of_le (by decide) hswapped)
    rwa [hget, Option.bind_some] at this
  obtain ⟨outs, houts⟩ := mapM_isSome hsplit
  have hbucket : ∀ i, bucketAfter hashing groups i groups.length =
      ({ index := i } : MergeStringsSectionBucket).processGroups (outs.map (·.buckets i)) := fun i => by
    rw [bucketAfter_eq, groupVectors_eq houts]
  refine ⟨?_, h.idle_available hidle fun g hg i hi hslot => ?_, outs,
    fun i => (bucketAfter hashing groups i groups.length).getD ({ index := i }, []), houts, fun i hi => ?_,
    finished_perm h.finished hfinished fun bucket hb => ?_⟩
  · rw [h.unprocessed, hpopped, List.drop_length]
  · have := (h.strings_slot hg hi hslot).2
    rw [h.valid.finished i hi (hfinished i hi)] at this
    omega
  · -- the bucket is among the finished ones
    have honce := h.finished.once i hi
    rw [hfinished i hi, if_pos rfl] at honce
    obtain ⟨bucket, hmem, rfl⟩ := List.mem_map.mp (List.count_pos_iff.mp (honce.symm ▸ Nat.one_pos))
    rw [← hbucket, (h.finished.ok bucket hmem).2, Option.getD_some]
  · rw [(h.finished.ok bucket hb).2, Option.getD_some]

end

/-- **When no task is left, each bucket is finished once and has applied all groups one after the other**; no group
and no vector is missing. -/
theorem merge_tasks_finish (hashing : MergeHashing) (input : MergeGroups) {pool : ReusePool} (hpool : pool.Full)
    (hcapacity : mergeStringBuckets ≤ pool.capacity) {c : Config SplitResources MergeTask}
    (hreach : Reachable (MergeTask.act hashing) (mergeStart input.groups pool) c) (hidle : c.tasks = [])
    (hok : c.shared.errors = false) :
    c.shared.panicked = false ∧ c.shared.unprocessed = [] ∧ c.shared.reusePool.available = pool.capacity ∧
      ∃ (outs : List SplitOutput) (done : Nat → WorkedBucket),
        input.groups.mapM (splitGroup hashing) = some outs ∧
        (∀ i < mergeStringBuckets,
          ({ index := i } : MergeStringsSectionBucket).processGroups (outs.map (·.buckets i)) = some (done i)) ∧
        c.shared.finishedBuckets.Perm ((List.range mergeStringBuckets).map done) := by
  obtain ⟨hinv, hkept⟩ := handover_reachable input hpool hreach
  obtain ⟨p, h⟩ := hinv hok
  obtain ⟨hunprocessed, havailable, outs, done, hsplit, happlied, honce⟩ := h.outcome hidle (hkept.symm ▸ hcapacity)
  exact ⟨h.noPanic, hunprocessed, havailable.trans hkept, outs, done, hsplit, happlied, honce⟩

/-- A group with one section that is no string. -/
def oneGroup : MergeGroups := ⟨[⟨0, [⟨[1], 0, false⟩], ⟨0, 256, []⟩, 0, 256⟩], rfl, by simp⟩

def oneGroupHashing : MergeHashing := ⟨List.length, fun _ _ => true⟩

def oneGroupRun : Config SplitResources MergeTask :=
  runLast (MergeTask.act oneGroupHashing) 140 (mergeStart oneGroup.groups ⟨0, 16, 16⟩)

theorem oneGroupRun_done : oneGroupRun.tasks.isEmpty = true ∧ oneGroupRun.shared.errors = false := by
  decide +kernel

theorem merge_tasks_finish_one :
    oneGroupRun.shared.unprocessed = [] ∧ oneGroupRun.shared.reusePool.available = 16 ∧
      oneGroupRun.shared.finishedBuckets.length = 16 := by
  obtain ⟨-, hunprocessed, havailable, _, _, -, -, honce⟩ := @merge_tasks_finish oneGroupHashing oneGroup
    ⟨0, 16, 16⟩ ⟨rfl, by decide⟩ (by decide) oneGroupRun (reachable_runLast 140 _)
    (List.isEmpty_iff.mp oneGroupRun_done.1) oneGroupRun_done.2
  exact ⟨hunprocessed, havailable, honce.length_eq.trans (by simp [mergeStringBuckets, mergeStringBucketBits])⟩

/-- **A run over the groups of `split_sections` ends with the buckets of `addInputSections`.** -/
theorem finished_addInputSections (hashing : MergeHashing) (input : MergeSections) (hne : input.sections ≠ [])
    (size : GroupSize) {pool : ReusePool} (hpool : pool.Full) (hcapacity : mergeStringBuckets ≤ pool.capacity)
    {c : Config SplitResources MergeTask}
    (hreach : Reachable (MergeTask.act hashing) (mergeStart (splitSections input.sections size) pool) c)
    (hidle : c.tasks = []) (hok : c.shared.errors = false) :
    ∃ done, c.shared.finishedBuckets.Perm ((List.range mergeStringBuckets).map done) ∧
      addInputSections hashing input.sections size =
        some (finishMerge ((List.range mergeStringBuckets).map done)) := by
  have hspec := splitSections_spec input size
  have hgroups : splitSections input.sections size ≠ [] := by
    obtain ⟨sec, behind, hsections⟩ := List.exists_cons_of_ne_nil hne
    rw [splitSections, hsections, splitFrom]
    exact List.cons_ne_nil _ _
  obtain ⟨hinv, hkept⟩ := handover_reachable ⟨_, hspec.indexed, hgroups⟩ hpool hreach
  obtain ⟨p, h⟩ := hinv hok
  obtain ⟨-, -, outs, done, houtcome⟩ := h.outcome hidle (hkept.symm ▸ hcapacity)
  refine ⟨done, houtcome.once, ?_⟩
  have hdone : (List.range mergeStringBuckets).mapM (fun i =>
      ({ index := i } : MergeStringsSectionBucket).processGroups (outs.map (·.buckets i))) =
        some ((List.range mergeStringBuckets).map done) := by
    rw [mapM_eq_some, List.map_map]
    exact List.map_congr_left fun i hi => houtcome.applied i (List.mem_range.mp hi)
  rw [addInputSections, houtcome.split, Option.bind_some, hdone, Option.map_some]

theorem finished_addInputSections_one :
    ∃ merged, addInputSections oneGroupHashing [⟨[1], 0, false⟩] ⟨256, by decide, by decide⟩ = some merged := by
  have hsplit : splitSections [⟨[1], 0, false⟩] ⟨256, by decide, by decide⟩ = oneGroup.groups := by
    rw [splitSections, splitFrom, dif_pos (by decide)]
    show _ :: splitFrom _ _ _ [] 0 = _
    rw [splitFrom]
    rfl
  obtain ⟨_, -, h⟩ := @finished_addInputSections oneGroupHashing ⟨[⟨[1], 0, false⟩], ⟨rfl, trivial⟩, by simp⟩
    (List.cons_ne_nil _ _) ⟨256, by decide, by decide⟩ ⟨0, 16, 16⟩ ⟨rfl, by decide⟩ (by decide) oneGroupRun
    (by rw [hsplit]; exact reachable_runLast 140 _) (List.isEmpty_iff.mp oneGroupRun_done.1) oneGroupRun_done.2
  exact ⟨_, h⟩

end Reld.Merge
