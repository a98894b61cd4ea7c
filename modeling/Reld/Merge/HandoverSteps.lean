import Reld.Merge.Handover

/-!
# `Merge.HandoverSteps` — each operation keeps the invariant

One lemma for each operation of a task. Most change nothing but the pool and the task itself (`Handover.quiet`); those
on a slot hand a bucket or its strings over.
-/

namespace Reld.Merge

open Tasks

section

variable {hashing : MergeHashing} {groups : List SectionGroup} {p : Progress} {t : MergeTask}
  {new front behind : List MergeTask} {r : SplitResources} {u u' : List SectionGroup} {pool pool' : ReusePool}
  {inSlots inSlots' : Nat}

/-! ## The pool -/

theorem takenOut_le_reserved (t : MergeTask) : takenOut t ≤ reserved t := by
  cases t <;> simp [takenOut, reserved]

theorem PoolOk.step (h : PoolOk pool u inSlots (front ++ t :: behind)) (hcapacity : pool'.capacity = pool.capacity)
    (havailable : pool'.available + total reserved new + inSlots' = pool.available + reserved t + inSlots)
    (hvecs : pool'.stringVecs + total takenOut new + inSlots' ≤ pool.stringVecs + takenOut t + inSlots)
    (hlive : u' = [] ∨ pool'.available < mergeStringBuckets ∨ 0 < total spawns new ∨
      (u = [] → u' = []) ∧ pool'.available ≤ pool.available ∧ spawns t = 0) :
    PoolOk pool' u' inSlots' (new ++ (front ++ behind)) := by
  have hall := h.available
  have hvecs' := h.vecs
  have hlive' := h.live
  rw [total_middle] at hall hvecs' hlive'
  refine ⟨?_, ?_, ?_⟩
  · rw [total_append]
    omega
  · rw [total_append]
    omega
  · rw [total_append]
    rcases hlive with hdone | hfew | htries | ⟨hu, hle, hspawns⟩
    · exact .inl hdone
    · exact .inr (.inl hfew)
    · exact .inr (.inr (by omega))
    · rcases hlive' with hdone | hfew | htries
      · exact .inl (hu hdone)
      · exact .inr (.inl (by omega))
      · exact .inr (.inr (by omega))

/-! ## Operations on the pool -/

/-- Nothing changes but the pool and the task. -/
theorem Handover.quiet (new : List MergeTask) (pool : ReusePool) (h : Handover hashing groups p ⟨r, front ++ t :: behind⟩)
    (hok : ∀ t' ∈ new, TaskOk hashing groups p r.unprocessed t')
    (hgroups : ∀ g, total (holdsGroup g) new = holdsGroup g t)
    (hbuckets : ∀ i, total (holdsBucket i) new = holdsBucket i t)
    (hpool : PoolOk pool r.unprocessed (stringsSlots r.stringsByBucketAndGroup (groups.length * mergeStringBuckets))
      (new ++ (front ++ behind))) :
    Handover hashing groups p ⟨{ r with reusePool := pool }, new ++ (front ++ behind)⟩ where
  count := h.count
  unprocessed := h.unprocessed
  valid := h.valid
  slots := h.slots
  tasks := h.tasks.step (Nat.le_refl _) id (fun _ => .inl rfl) (fun _ _ => .inl ⟨rfl, rfl⟩) hok
    (fun g => by rw [hgroups g]) (fun i _ => by rw [hbuckets i])
  finished := h.finished
  pool := hpool
  noPanic := h.noPanic

theorem Handover.poolOk {tasks : List MergeTask} (h : Handover hashing groups p ⟨r, tasks⟩) :
    PoolOk r.reusePool r.unprocessed
      (stringsSlots r.stringsByBucketAndGroup (groups.length * mergeStringBuckets)) tasks := h.pool

/-- The task that is taken. -/
theorem Handover.taskOk (h : Handover hashing groups p ⟨r, front ++ t :: behind⟩) :
    TaskOk hashing groups p r.unprocessed t :=
  h.tasks.ok t List.mem_append_cons_self

theorem Handover.spawnLoop {next : List MergeTask} (h : Handover hashing groups p ⟨r, front ++ t :: behind⟩)
    (hweights : reserved t = 0 ∧ takenOut t = 0 ∧ spawns t = 1)
    (hok : ∀ t' ∈ next, TaskOk hashing groups p r.unprocessed t')
    (hgroups : ∀ g, total (holdsGroup g) next = holdsGroup g t)
    (hbuckets : ∀ i, total (holdsBucket i) next = holdsBucket i t)
    (hnext : total reserved next = 0 ∧ total takenOut next = 0) :
    Handover hashing groups p
      ⟨(Reld.Merge.spawnLoop t next r).1, (Reld.Merge.spawnLoop t next r).2 ++ (front ++ behind)⟩ := by
  unfold Reld.Merge.spawnLoop SplitResources.tryReserve
  by_cases hfew : r.reusePool.available < mergeStringBuckets
  · rw [if_pos hfew]
    exact h.quiet next r.reusePool hok hgroups hbuckets
      (h.poolOk.step rfl (by omega) (by omega) (.inr (.inl hfew)))
  · rw [if_neg hfew]
    refine h.quiet [.input mergeStringBuckets, t]
      { r.reusePool with available := r.reusePool.available - mergeStringBuckets }
      (fun t' ht' => ?_) (fun g => ?_) (fun i => ?_) (h.poolOk.step rfl ?_ ?_ (.inr (.inr (.inl ?_))))
    · rcases List.mem_cons.mp ht' with rfl | ht'
      · exact rfl
      · exact List.mem_singleton.mp ht' ▸ h.taskOk
    · simp [holdsGroup]
    · simp [holdsBucket]
    · simp only [total_cons, total_nil, reserved]
      omega
    · simp only [total_cons, total_nil, takenOut]
      omega
    · simp only [total_cons, hweights.2.2]
      omega

variable {remaining : Nat}

theorem Handover.unreserve (h : Handover hashing groups p ⟨r, front ++ .unreserve remaining :: behind⟩) :
    Handover hashing groups p ⟨r.setAvailable (r.reusePool.available + remaining), [] ++ (front ++ behind)⟩ := by
  refine h.quiet [] { r.reusePool with available := r.reusePool.available + remaining } (by simp)
    (fun _ => rfl) (fun _ => rfl) (h.poolOk.step rfl ?_ (Nat.le_refl _) ?_)
  · rfl
  · rcases h.taskOk with rfl | hdone
    · exact .inr (.inr (.inr ⟨id, Nat.le_refl _, rfl⟩))
    · exact .inl hdone

variable {bucket : WorkedBucket}

theorem Handover.returnVec (h : Handover hashing groups p ⟨r, front ++ .returnVec bucket :: behind⟩) :
    r.reusePool.stringVecs < r.reusePool.capacity ∧
      Handover hashing groups p
        ⟨r.setStringVecs (r.reusePool.stringVecs + 1), [.addAvailable bucket] ++ (front ++ behind)⟩ := by
  have hvecs := h.poolOk.vecs
  rw [total_middle] at hvecs
  refine ⟨by simp only [takenOut] at hvecs; omega, ?_⟩
  refine h.quiet [.addAvailable bucket] { r.reusePool with stringVecs := r.reusePool.stringVecs + 1 }
    (fun t' ht' => List.mem_singleton.mp ht' ▸ h.taskOk) (fun _ => rfl) (fun _ => rfl)
    (h.poolOk.step rfl rfl ?_ (.inr (.inr (.inr ⟨id, Nat.le_refl _, rfl⟩))))
  simp only [total_cons, total_nil, takenOut]
  omega

theorem Handover.addAvailable (h : Handover hashing groups p ⟨r, front ++ .addAvailable bucket :: behind⟩) :
    Handover hashing groups p
      ⟨r.setAvailable (r.reusePool.available + 1), [.trySpawn bucket] ++ (front ++ behind)⟩ :=
  h.quiet [.trySpawn bucket] { r.reusePool with available := r.reusePool.available + 1 }
    (fun t' ht' => List.mem_singleton.mp ht' ▸ h.taskOk) (fun _ => rfl) (fun _ => rfl)
    (h.poolOk.step rfl (by simp only [total_cons, total_nil, reserved]) (by simp [takenOut])
      (.inr (.inr (.inl Nat.one_pos))))

/-! ## Operations with a group -/

variable {group : SectionGroup}

theorem Handover.takeVec {taken : Nat}
    (h : Handover hashing groups p ⟨r, front ++ .takeVecs group taken (remaining + 1) :: behind⟩) :
    Handover hashing groups p
      ⟨r.setStringVecs (r.reusePool.stringVecs - 1), [.takeVecs group (taken + 1) remaining] ++ (front ++ behind)⟩ := by
  obtain ⟨hsum, hrest⟩ := h.taskOk
  refine h.quiet [.takeVecs group (taken + 1) remaining]
    { r.reusePool with stringVecs := r.reusePool.stringVecs - 1 }
    (fun t' ht' => ?_) (fun _ => rfl) (fun _ => rfl) ⟨?_, ?_, ?_⟩
  · rw [List.mem_singleton.mp ht']
    exact ⟨by omega, hrest⟩
  · have hall := h.poolOk.available
    simp only [total_append, total_cons, total_nil, reserved] at hall ⊢
    omega
  · -- a vector that is made anew has been reserved before
    have hall := h.poolOk.available
    have hvecs := h.poolOk.vecs
    have hle := total_le_total takenOut_le_reserved (front ++ behind)
    simp only [total_append, total_cons, total_nil, reserved, takenOut] at hall hvecs hle ⊢
    omega
  · have hlive := h.poolOk.live
    simpa [spawns] using hlive

theorem Handover.splitGroup {taken : Nat} {out : SplitOutput}
    (h : Handover hashing groups p ⟨r, front ++ .takeVecs group taken remaining :: behind⟩)
    (htaken : ¬ taken < mergeStringBuckets) (hout : Reld.Merge.splitGroup hashing group = some out) :
    Handover hashing groups p ⟨r, [.swapSlots group.index out.buckets 0 remaining] ++ (front ++ behind)⟩ := by
  obtain ⟨hsum, hget, hgroup⟩ := h.taskOk
  have hvectors : groups[group.index]?.bind (Reld.Merge.splitGroup hashing) = some out := by
    rw [hget, Option.bind_some, hout]
  refine h.quiet [.swapSlots group.index out.buckets 0 remaining] r.reusePool (fun t' ht' => ?_) (fun g => ?_) (fun _ => rfl) (h.poolOk.step rfl ?_ ?_
    (.inr (.inr (.inr ⟨id, Nat.le_refl _, rfl⟩))))
  · rw [List.mem_singleton.mp ht']
    refine ⟨by omega, Nat.zero_le _, fun _ => ⟨hgroup, by rw [hvectors]; rfl, fun j => ?_⟩⟩
    rw [groupVectors, hvectors]
    rfl
  · simp [holdsGroup, mergeStringBuckets, mergeStringBucketBits]
  · simp only [total_cons, total_nil, reserved]
    omega
  · simp only [total_cons, total_nil, takenOut]
    omega

theorem Handover.popNone (h : Handover hashing groups p ⟨r, front ++ .input remaining :: behind⟩)
    (hnone : r.unprocessed = []) :
    Handover hashing groups p ⟨r, [.unreserve remaining] ++ (front ++ behind)⟩ :=
  h.quiet [.unreserve remaining] r.reusePool (fun _ ht' => List.mem_singleton.mp ht' ▸ .inr hnone) (fun _ => rfl) (fun _ => rfl)
    (h.poolOk.step rfl rfl (Nat.le_refl _) (.inl hnone))

theorem Handover.pop {rest : List SectionGroup} (h : Handover hashing groups p ⟨r, front ++ .input remaining :: behind⟩)
    (hindexed : ∀ (k : Nat) (group : SectionGroup), groups[k]? = some group → group.index = k)
    (hsome : r.unprocessed = group :: rest) :
    Handover hashing groups { p with popped := p.popped + 1 }
      ⟨{ r with unprocessed := rest }, [.takeVecs group 0 remaining] ++ (front ++ behind)⟩ := by
  have hdrop : groups.drop p.popped = group :: rest := h.unprocessed.symm.trans hsome
  have hget : groups[p.popped]? = some group := by
    rw [← List.head?_drop, hdrop, List.head?_cons]
  have hlt : p.popped < groups.length := (List.getElem?_eq_some_iff.mp hget).1
  have hindex := hindexed _ _ hget
  have hzero := h.valid.unpopped p.popped (Nat.le_refl _)
  refine ⟨h.count, ?_, ?_, fun g hg i hi => (h.slots g hg i hi).congr Iff.rfl Iff.rfl Iff.rfl, ?_, ?_, ?_, h.noPanic⟩
  · rw [← List.tail_drop, hdrop, List.tail_cons]
  · exact { h.valid with
      popped_le := hlt
      unpopped := fun g hg => h.valid.unpopped g (Nat.le_of_succ_le hg) }
  · refine h.tasks.step (Nat.le_succ _) (fun hnil => ?_) (fun _ => .inl rfl) (fun _ _ => .inl ⟨rfl, rfl⟩)
      (fun t' ht' => ?_) (fun g => ?_) (fun _ _ => rfl)
    · rw [hsome] at hnil
      cases hnil
    · rw [List.mem_singleton.mp ht']
      refine ⟨(Nat.zero_add _).trans h.taskOk, hindex.symm ▸ hget, ?_, ?_⟩
      · rw [hindex]
        exact Nat.lt_succ_self _
      · rw [hindex]
        exact hzero
    · have h16 : 0 < mergeStringBuckets := by decide
      simp only [total_cons, total_nil, holdsGroup, hindex]
      rcases Nat.lt_trichotomy g p.popped with hless | rfl | hmore
      · simp [hless, Nat.ne_of_gt hless, Nat.lt_succ_of_lt hless]
      · simp [hzero, h16]
      · simp [Nat.not_lt.mpr (Nat.le_of_lt hmore), Nat.ne_of_lt hmore, Nat.not_lt.mpr (Nat.succ_le_of_lt hmore)]
  · exact ⟨h.finished.ok, h.finished.once⟩
  · refine h.poolOk.step rfl ?_ (Nat.le_refl _) (.inr (.inr (.inr ⟨fun hnil => ?_, Nat.le_refl _, rfl⟩)))
    · simp [reserved]
    · rw [hsome] at hnil
      cases hnil

/-! ## Strings come to a slot -/

instance (p : Progress) (i g : Nat) : Decidable (p.WaitsFor i g) := inferInstanceAs (Decidable (_ ∧ _))

/-- The group has filled the slot of a bucket, which goes on if it has waited there. -/
def Progress.swap (p : Progress) (g i : Nat) : Progress :=
  { p with
    swapped := Function.update p.swapped g (i + 1)
    place := if p.WaitsFor i g then Function.update p.place i .running else p.place }

theorem swapped_swap_self (g i : Nat) : (p.swap g i).swapped g = i + 1 := Function.update_self _ _ _

variable {g : Nat}

theorem swapped_swap_of_ne {g' : Nat} (hne : g' ≠ g) (i : Nat) : (p.swap g i).swapped g' = p.swapped g' :=
  Function.update_of_ne hne _ _

variable {i j : Nat}

/-- Only a bucket that has waited there is somewhere else. -/
theorem place_swap (hplace : (p.swap g i).place j ≠ p.place j) : j = i ∧ p.WaitsFor i g := by
  unfold Progress.swap at hplace
  split at hplace
  case isTrue hwaits =>
    refine ⟨?_, hwaits⟩
    by_contra hne
    exact hplace (Function.update_of_ne hne _ _)
  case isFalse => exact absurd rfl hplace

theorem place_swap_self (hwaits : p.WaitsFor i g) : (p.swap g i).place i = .running := by
  unfold Progress.swap
  dsimp only
  rw [if_pos hwaits, Function.update_self]

theorem not_waitsFor_swap (g i : Nat) : ¬ (p.swap g i).WaitsFor i g := by
  intro hwaits
  by_cases hold : p.WaitsFor i g
  · have := place_swap_self hold
    rw [hwaits.1] at this
    cases this
  · by_cases hsame : (p.swap g i).place i = p.place i
    · exact hold ⟨hsame ▸ hwaits.1, hwaits.2⟩
    · exact hold (place_swap hsame).2

theorem waitsFor_swap {g' : Nat} (hne : ¬ (g' = g ∧ j = i)) :
    (p.swap g i).WaitsFor j g' ↔ p.WaitsFor j g' := by
  by_cases hsame : (p.swap g i).place j = p.place j
  · unfold Progress.WaitsFor
    rw [hsame]
    rfl
  · obtain ⟨rfl, hwaits⟩ := place_swap hsame
    have hrunning := place_swap_self hwaits
    constructor
    · intro h
      rw [h.1] at hrunning
      cases hrunning
    · exact fun h => absurd ⟨h.2.symm.trans hwaits.2, rfl⟩ hne

theorem valid_swap (h : p.Valid hashing groups) (hgroup : GroupOk p g i)
    (hsplit : (groups[g]?.bind (Reld.Merge.splitGroup hashing)).isSome) : (p.swap g i).Valid hashing groups where
  popped_le := h.popped_le
  unpopped := fun g' hg' => by
    have hne : g' ≠ g := fun heq => absurd hgroup.popped (Nat.not_lt.mpr (heq ▸ hg'))
    exact (swapped_swap_of_ne hne i).trans (h.unpopped g' hg')
  split := fun g' hg' => by
    rcases eq_or_ne g' g with rfl | hne
    · exact hsplit
    · exact h.split g' (swapped_swap_of_ne hne i ▸ hg')
  applied := fun j hj g' hg' => by
    have hold := h.applied j hj g' hg'
    rcases eq_or_ne g' g with rfl | hne
    · rw [hgroup.swapped] at hold
      exact (Nat.lt_succ_of_lt hold).trans_eq (swapped_swap_self g' i).symm
    · exact hold.trans_eq (swapped_swap_of_ne hne i).symm
  waiting := fun j hj hplace => by
    by_cases hsame : (p.swap g i).place j = p.place j
    · exact h.waiting j hj (hsame ▸ hplace)
    · obtain ⟨rfl, hwaits⟩ := place_swap hsame
      rw [place_swap_self hwaits] at hplace
      cases hplace
  finished := fun j hj hplace => by
    by_cases hsame : (p.swap g i).place j = p.place j
    · exact h.finished j hj (hsame ▸ hplace)
    · obtain ⟨rfl, hwaits⟩ := place_swap hsame
      rw [place_swap_self hwaits] at hplace
      cases hplace

/-- What is spawned for the slot. -/
def woken : StringsSlot → List MergeTask
  | .waitingForStrings bucket => [.work bucket]
  | _ => []

theorem swapStringsSlot_eq (index : Nat) (buckets : Nat → List StringToMerge) (i remaining : Nat) :
    swapStringsSlot index buckets i remaining r =
      (r.setSlot index i (.strings (buckets i)), .swapSlots index buckets (i + 1) remaining :: woken (r.slot index i)) := by
  unfold swapStringsSlot woken
  cases r.slot index i <;> rfl

/-- The bucket that goes on. -/
theorem woken_ok {slot : StringsSlot} (hi : i < mergeStringBuckets) (hslot : SlotOk hashing groups p g i slot) :
    (∀ t ∈ woken slot, TaskOk hashing groups (p.swap g i) u t) ∧
      ∀ j, total (holdsBucket j) (woken slot) = if j = i ∧ p.WaitsFor i g then 1 else 0 := by
  cases slot with
  | empty | strings strings =>
    refine ⟨fun t ht => absurd ht List.not_mem_nil, fun j => ?_⟩
    rw [if_neg fun h => hslot.1 h.2]
    rfl
  | waitingForStrings bucket =>
    obtain ⟨hwaits, -, hbucket⟩ := hslot
    obtain ⟨rfl, rfl⟩ := bucketAfter_counters hbucket
    refine ⟨fun t ht => ?_, fun j => ?_⟩
    · rw [List.mem_singleton.mp ht]
      exact ⟨hi, place_swap_self hwaits, hwaits.2, hbucket⟩
    · simp [woken, holdsBucket, hwaits, eq_comm]

theorem woken_weights (slot : StringsSlot) :
    (∀ g, total (holdsGroup g) (woken slot) = 0) ∧ total reserved (woken slot) = 0 ∧
      total takenOut (woken slot) = 0 := by
  cases slot <;> exact ⟨fun _ => rfl, rfl, rfl⟩

theorem Handover.swap {index : Nat} {buckets : Nat → List StringToMerge}
    (h : Handover hashing groups p ⟨r, front ++ .swapSlots index buckets i remaining :: behind⟩)
    (hi : i < mergeStringBuckets) :
    Handover hashing groups (p.swap index i) ⟨(swapStringsSlot index buckets i remaining r).1,
      (swapStringsSlot index buckets i remaining r).2 ++ (front ++ behind)⟩ := by
  obtain ⟨hremaining, -, hrest⟩ := h.taskOk
  obtain ⟨hgroup, hsplit, hvectors⟩ := hrest hi
  have hg : index < groups.length := hgroup.popped.trans_le h.valid.popped_le
  have hslot : SlotOk hashing groups p index i (r.slot index i) := h.slots index hg i hi
  have hbehind : p.next i ≤ index := by
    by_contra hahead
    have := h.valid.applied i hi index (Nat.lt_of_not_le hahead)
    rw [hgroup.swapped] at this
    exact Nat.lt_irrefl i this
  obtain ⟨hwoken, hwokenBucket⟩ := woken_ok (u := r.unprocessed) hi hslot
  obtain ⟨hwokenGroup, hwokenReserved, hwokenTaken⟩ := woken_weights (r.slot index i)
  rw [swapStringsSlot_eq]
  refine ⟨h.count, h.unprocessed, valid_swap h.valid hgroup hsplit, fun g' hg' j hj => ?_, ?_, ?_, ?_, h.noPanic⟩
  · by_cases hsame : g' = index ∧ j = i
    · obtain ⟨rfl, rfl⟩ := hsame
      rw [slot_setSlot_self]
      exact ⟨not_waitsFor_swap g' j, (Nat.lt_succ_self j).trans_eq (swapped_swap_self g' j).symm, hbehind,
        hvectors j⟩
    · rw [slot_setSlot_of_ne hi hj hsame]
      refine (h.slots g' hg' j hj).congr (waitsFor_swap hsame) ?_ Iff.rfl
      rcases eq_or_ne g' index with rfl | hne
      · rw [swapped_swap_self, hgroup.swapped]
        omega
      · rw [swapped_swap_of_ne hne]
  · refine h.tasks.step (Nat.le_refl _) id (fun g' => ?_) (fun j hj => ?_) (fun t' ht' => ?_) (fun g' => ?_)
      (fun j hj => ?_)
    · rcases eq_or_ne g' index with rfl | hne
      · exact .inr (if_pos ⟨rfl, hi⟩)
      · exact .inl (swapped_swap_of_ne hne i)
    · by_cases hsame : (p.swap index i).place j = p.place j
      · exact .inl ⟨hsame, rfl⟩
      · obtain ⟨rfl, hwaits⟩ := place_swap hsame
        exact .inr (.inl fun hrunning => by rw [hwaits.1] at hrunning; cases hrunning)
    · rcases List.mem_cons.mp ht' with rfl | ht'
      · exact ⟨hremaining, hi, fun _ => ⟨⟨hgroup.popped, swapped_swap_self _ _⟩, hsplit, hvectors⟩⟩
      · exact hwoken t' ht'
    · rw [total_cons, hwokenGroup]
      rcases eq_or_ne g' index with rfl | hne
      · have hpopped : (p.swap g' i).popped = p.popped := rfl
        simp only [holdsGroup, swapped_swap_self, hgroup.swapped, hpopped, hgroup.popped, hi, true_and]
        omega
      · have hpopped : (p.swap index i).popped = p.popped := rfl
        simp [holdsGroup, swapped_swap_of_ne hne, hpopped, hne.symm]
    · rw [total_cons, hwokenBucket]
      by_cases hsame : (p.swap index i).place j = p.place j
      · rw [hsame, if_neg]
        · rfl
        · rintro ⟨rfl, hwaits⟩
          rw [place_swap_self hwaits, hwaits.1] at hsame
          cases hsame
      · obtain ⟨rfl, hwaits⟩ := place_swap hsame
        rw [place_swap_self hwaits, hwaits.1, if_pos ⟨rfl, hwaits⟩]
        rfl
  · refine ⟨h.finished.ok, fun j hj => ?_⟩
    refine (h.finished.once j hj).trans ?_
    by_cases hsame : (p.swap index i).place j = p.place j
    · rw [hsame]
    · obtain ⟨rfl, hwaits⟩ := place_swap hsame
      rw [place_swap_self hwaits, hwaits.1]
      rfl
  · have hslots := stringsSlots_update r.stringsByBucketAndGroup (stringBucketOffset_lt hg hi)
      (.strings (buckets i))
    have hempty : (r.stringsByBucketAndGroup (stringBucketOffset index i)).isStrings = false := by
      cases hs : r.slot index i with
      | strings strings =>
        rw [hs] at hslot
        have hlt := hslot.2.1
        rw [hgroup.swapped] at hlt
        exact absurd hlt (Nat.lt_irrefl i)
      | empty => exact (congrArg StringsSlot.isStrings hs).trans rfl
      | waitingForStrings bucket => exact (congrArg StringsSlot.isStrings hs).trans rfl
    rw [hempty] at hslots
    refine h.poolOk.step rfl ?_ ?_ (.inr (.inr (.inr ⟨id, Nat.le_refl _, rfl⟩)))
    · rw [total_cons, hwokenReserved]
      simp only [reserved, SplitResources.setSlot, StringsSlot.isStrings, Bool.toNat_true, Bool.toNat_false] at hslots ⊢
      omega
    · rw [total_cons, hwokenTaken]
      simp only [takenOut, SplitResources.setSlot, StringsSlot.isStrings, Bool.toNat_true, Bool.toNat_false] at hslots ⊢
      omega

/-! ## A bucket comes to a slot -/

/-- The bucket has applied another group. -/
def Progress.take (p : Progress) (i : Nat) : Progress := { p with next := Function.update p.next i (p.next i + 1) }

/-- The bucket is somewhere else. -/
def Progress.move (p : Progress) (i : Nat) (place : Place) : Progress :=
  { p with place := Function.update p.place i place }

theorem next_take_self (i : Nat) : (p.take i).next i = p.next i + 1 := Function.update_self _ _ _

theorem next_take_of_ne (hne : j ≠ i) : (p.take i).next j = p.next j := Function.update_of_ne hne _ _

theorem place_move_self (i : Nat) (place : Place) : (p.move i place).place i = place := Function.update_self _ _ _

theorem place_move_of_ne (hne : j ≠ i) (place : Place) : (p.move i place).place j = p.place j :=
  Function.update_of_ne hne _ _

/-- A running bucket waits for nothing. -/
theorem not_waitsFor_of_running (h : p.place i = .running) : ¬ p.WaitsFor i g := by
  intro hwaits
  rw [hwaits.1] at h
  cases h

theorem ahead_le (h : p.Valid hashing groups) (hi : i < mergeStringBuckets) : p.next i ≤ groups.length := by
  by_contra hahead
  have happlied := h.applied i hi groups.length (Nat.lt_of_not_le hahead)
  rw [h.unpopped groups.length h.popped_le] at happlied
  exact Nat.not_lt_zero i happlied

theorem slotEmpty_isStrings {slot : StringsSlot} (h : r.slot g i = slot) :
    (r.stringsByBucketAndGroup (stringBucketOffset g i)).isStrings = slot.isStrings :=
  congrArg StringsSlot.isStrings h

/-- The strings are there: the bucket applies them. -/
theorem Handover.takeStrings {worked : WorkedBucket} {strings : List StringToMerge}
    (h : Handover hashing groups p ⟨r, front ++ .work bucket :: behind⟩)
    (hmore : bucket.1.nextInputGroupIndex < groups.length)
    (hslot : r.slot bucket.1.nextInputGroupIndex bucket.1.index = .strings strings)
    (hworked : bucket.apply strings = some worked) :
    Handover hashing groups (p.take bucket.1.index)
      ⟨r.setSlot bucket.1.nextInputGroupIndex bucket.1.index .empty, [.returnVec worked] ++ (front ++ behind)⟩ := by
  obtain ⟨hi, hrunning, hnext, hbucket⟩ := h.taskOk
  have hok : SlotOk hashing groups p bucket.1.nextInputGroupIndex bucket.1.index (.strings strings) :=
    hslot ▸ h.slots _ hmore _ hi
  obtain ⟨-, hswapped, -, rfl⟩ := hok
  obtain ⟨hindex', hnext'⟩ := apply_counters hworked
  have hplace : ∀ j, (p.take bucket.1.index).place j = p.place j := fun _ => rfl
  have hnextOf : ∀ j, j ≠ bucket.1.index → (p.take bucket.1.index).next j = p.next j := fun j => next_take_of_ne
  have hnextSelf := next_take_self (p := p) bucket.1.index
  refine ⟨h.count, h.unprocessed, ?_, fun g hg j hj => ?_, ?_, ⟨h.finished.ok, h.finished.once⟩, ?_, h.noPanic⟩
  · exact {
      popped_le := h.valid.popped_le
      unpopped := h.valid.unpopped
      split := h.valid.split
      applied := fun j hj g hg => by
        rcases eq_or_ne j bucket.1.index with rfl | hne
        · rw [hnextSelf, hnext] at hg
          rcases Nat.lt_or_eq_of_le (Nat.le_of_lt_succ hg) with hless | rfl
          · exact h.valid.applied _ hj g (hnext.symm ▸ hless)
          · exact hswapped
        · exact h.valid.applied j hj g (hnextOf j hne ▸ hg)
      waiting := fun j hj hwaiting => by
        rcases eq_or_ne j bucket.1.index with rfl | hne
        · exact absurd (hrunning.symm.trans hwaiting) (by simp)
        · exact hnextOf j hne ▸ h.valid.waiting j hj hwaiting
      finished := fun j hj hfinished => by
        rcases eq_or_ne j bucket.1.index with rfl | hne
        · exact absurd (hrunning.symm.trans hfinished) (by simp)
        · exact (hnextOf j hne).trans (h.valid.finished j hj hfinished) }
  · by_cases hsame : g = bucket.1.nextInputGroupIndex ∧ j = bucket.1.index
    · obtain ⟨rfl, rfl⟩ := hsame
      rw [slot_setSlot_self]
      refine ⟨not_waitsFor_of_running hrunning, fun _ => ?_⟩
      rw [hnextSelf, hnext]
      exact Nat.lt_succ_self _
    · rw [slot_setSlot_of_ne hi hj hsame]
      rcases eq_or_ne j bucket.1.index with rfl | hne
      · have hother : g ≠ bucket.1.nextInputGroupIndex := fun heq => hsame ⟨heq, rfl⟩
        refine (h.slots g hg _ hj).congr ?_ Iff.rfl ?_
        · exact iff_of_false (not_waitsFor_of_running hrunning) (not_waitsFor_of_running hrunning)
        · rw [hnextSelf, hnext]
          omega
      · refine (h.slots g hg j hj).congr ?_ Iff.rfl ?_
        · rw [Progress.WaitsFor, Progress.WaitsFor, hnextOf j hne]
          rfl
        · rw [hnextOf j hne]
  · refine h.tasks.step (Nat.le_refl _) id (fun _ => .inl rfl) (fun j _ => ?_) (fun t' ht' => ?_) (fun _ => rfl)
      (fun j hj => ?_)
    · rcases eq_or_ne j bucket.1.index with rfl | hne
      · exact .inr (.inr (if_pos rfl))
      · exact .inl ⟨rfl, hnextOf j hne⟩
    · rw [List.mem_singleton.mp ht']
      refine ⟨hindex'.symm ▸ hi, hindex'.symm ▸ hrunning, ?_, ?_⟩
      · rw [hindex', hnextSelf, hnext, hnext']
      · rw [hindex', hnext']
        exact bucketAfter_succ hbucket hworked
    · rw [hplace]
      simp [total_cons, total_nil, holdsBucket, hindex']
  · have hslots := stringsSlots_update r.stringsByBucketAndGroup (stringBucketOffset_lt hmore hi) .empty
    rw [slotEmpty_isStrings hslot] at hslots
    refine h.poolOk.step rfl ?_ ?_ (.inr (.inr (.inr ⟨id, Nat.le_refl _, rfl⟩)))
    · simp only [total_cons, total_nil, reserved, SplitResources.setSlot, StringsSlot.isStrings, Bool.toNat_true,
        Bool.toNat_false] at hslots ⊢
      omega
    · simp only [total_cons, total_nil, takenOut, SplitResources.setSlot, StringsSlot.isStrings, Bool.toNat_true,
        Bool.toNat_false] at hslots ⊢
      omega

variable {place : Place}

/-- Of a running bucket nothing is left in its slots but strings. -/
theorem valid_move (h : p.Valid hashing groups)
    (hplace : place = .waiting ∧ p.next i < groups.length ∨ place = .finished ∧ p.next i = groups.length) :
    (p.move i place).Valid hashing groups where
  popped_le := h.popped_le
  unpopped := h.unpopped
  split := h.split
  applied := h.applied
  waiting := fun j hj hwaiting => by
    rcases eq_or_ne j i with rfl | hne
    · rw [place_move_self] at hwaiting
      subst hwaiting
      exact (hplace.resolve_right fun h => by cases h.1).2
    · exact h.waiting j hj ((place_move_of_ne hne place).symm.trans hwaiting)
  finished := fun j hj hfinished => by
    rcases eq_or_ne j i with rfl | hne
    · rw [place_move_self] at hfinished
      subst hfinished
      exact (hplace.resolve_left fun h => by cases h.1).2
    · exact h.finished j hj ((place_move_of_ne hne place).symm.trans hfinished)

/-- The task gives its bucket away. -/
theorem TasksOk.giveAway (h : TasksOk hashing groups p u (front ++ .work bucket :: behind))
    (hrunning : p.place bucket.1.index = .running) (hplace : place ≠ .running) :
    TasksOk hashing groups (p.move bucket.1.index place) u ([] ++ (front ++ behind)) := by
  refine h.step (Nat.le_refl _) id (fun _ => .inl rfl) (fun j _ => ?_) (by simp) (fun _ => rfl) (fun j _ => ?_)
  · rcases eq_or_ne j bucket.1.index with rfl | hne
    · exact .inr (.inr (if_pos rfl))
    · exact .inl ⟨place_move_of_ne hne place, rfl⟩
  · rcases eq_or_ne j bucket.1.index with rfl | hne
    · rw [place_move_self, hrunning, if_pos rfl, if_neg hplace]
      simp [holdsBucket]
    · rw [place_move_of_ne hne]
      simp [holdsBucket, hne.symm]

variable {finished : List WorkedBucket}

theorem once_move (h : FinishedOk hashing groups p finished) (hj : j < mergeStringBuckets)
    (hrunning : p.place i = .running) (hplace : place ≠ .finished) :
    (finished.map (·.1.index)).count j = if (p.move i place).place j = .finished then 1 else 0 := by
  rw [h.once j hj]
  rcases eq_or_ne j i with rfl | hne
  · rw [place_move_self, hrunning, if_neg hplace]
    rfl
  · rw [place_move_of_ne hne]

/-- The strings are not there yet: the bucket waits for them. -/
theorem Handover.wait (h : Handover hashing groups p ⟨r, front ++ .work bucket :: behind⟩)
    (hmore : bucket.1.nextInputGroupIndex < groups.length)
    (hslot : (r.slot bucket.1.nextInputGroupIndex bucket.1.index).isStrings = false) :
    Handover hashing groups (p.move bucket.1.index .waiting)
      ⟨r.setSlot bucket.1.nextInputGroupIndex bucket.1.index (.waitingForStrings bucket),
        [] ++ (front ++ behind)⟩ := by
  obtain ⟨hi, hrunning, hnext, hbucket⟩ := h.taskOk
  have hok : SlotOk hashing groups p bucket.1.nextInputGroupIndex bucket.1.index _ := h.slots _ hmore _ hi
  -- no strings have come, as they would be there
  have hnotSwapped : p.swapped bucket.1.nextInputGroupIndex ≤ bucket.1.index := by
    by_contra hswapped
    cases hs : r.slot bucket.1.nextInputGroupIndex bucket.1.index with
    | empty =>
      rw [hs] at hok
      exact absurd (hok.2 (Nat.lt_of_not_le hswapped)) (by rw [hnext]; exact Nat.lt_irrefl _)
    | waitingForStrings other =>
      rw [hs] at hok
      exact not_waitsFor_of_running hrunning hok.1
    | strings strings =>
      rw [hs] at hslot
      cases hslot
  refine ⟨h.count, h.unprocessed, valid_move h.valid (.inl ⟨rfl, hnext.symm ▸ hmore⟩), fun g hg j hj => ?_,
    h.tasks.giveAway hrunning (by simp),
    ⟨h.finished.ok, fun j hj => once_move h.finished hj hrunning (by simp)⟩, ?_, h.noPanic⟩
  · by_cases hsame : g = bucket.1.nextInputGroupIndex ∧ j = bucket.1.index
    · obtain ⟨rfl, rfl⟩ := hsame
      rw [slot_setSlot_self]
      exact ⟨⟨place_move_self _ _, hnext⟩, hnotSwapped, hbucket⟩
    · rw [slot_setSlot_of_ne hi hj hsame]
      refine (h.slots g hg j hj).congr ?_ Iff.rfl Iff.rfl
      rcases eq_or_ne j bucket.1.index with rfl | hne
      · refine iff_of_false (fun hwaits => hsame ⟨?_, rfl⟩) (not_waitsFor_of_running hrunning)
        exact hwaits.2.symm.trans hnext
      · rw [Progress.WaitsFor, Progress.WaitsFor, place_move_of_ne hne]
        rfl
  · have hslots := stringsSlots_update r.stringsByBucketAndGroup (stringBucketOffset_lt hmore hi)
      (.waitingForStrings bucket)
    rw [slotEmpty_isStrings rfl, hslot] at hslots
    refine h.poolOk.step rfl ?_ ?_ (.inr (.inr (.inr ⟨id, Nat.le_refl _, rfl⟩)))
    · simp only [total_nil, reserved, SplitResources.setSlot, StringsSlot.isStrings, Bool.toNat_false] at hslots ⊢
      omega
    · simp only [total_nil, takenOut, SplitResources.setSlot, StringsSlot.isStrings, Bool.toNat_false] at hslots ⊢
      omega

/-- There is room for a bucket that is not finished. -/
theorem FinishedOk.length_lt (h : FinishedOk hashing groups p finished) (hi : i < mergeStringBuckets)
    (hrunning : p.place i = .running) : finished.length < mergeStringBuckets := by
  have hnodup : (finished.map (·.1.index)).Nodup := by
    refine List.nodup_iff_count_le_one.mpr fun j => ?_
    by_cases hj : j < mergeStringBuckets
    · rw [h.once j hj]
      split <;> omega
    · refine (List.count_eq_zero.mpr fun hmem => hj ?_).trans_le (Nat.zero_le 1)
      obtain ⟨bucket, hbucket, rfl⟩ := List.mem_map.mp hmem
      exact (h.ok bucket hbucket).1
  have hnot : i ∉ finished.map (·.1.index) := by
    rw [← List.count_eq_zero, h.once i hi, hrunning]
    rfl
  have hsub : i :: finished.map (·.1.index) ⊆ List.range mergeStringBuckets := by
    refine List.cons_subset.mpr ⟨List.mem_range.mpr hi, fun j hj => ?_⟩
    obtain ⟨bucket, hbucket, rfl⟩ := List.mem_map.mp hj
    exact List.mem_range.mpr (h.ok bucket hbucket).1
  have hle := (List.subperm_of_subset (List.nodup_cons.mpr ⟨hnot, hnodup⟩) hsub).length_le
  rwa [List.length_cons, List.length_map, List.length_range] at hle

/-- All groups have been applied: the bucket is finished. -/
theorem Handover.finish (h : Handover hashing groups p ⟨r, front ++ .work bucket :: behind⟩)
    (hall : ¬ bucket.1.nextInputGroupIndex < groups.length) :
    r.finishedBuckets.length < mergeStringBuckets ∧
      Handover hashing groups (p.move bucket.1.index .finished)
        ⟨{ r with finishedBuckets := r.finishedBuckets ++ [bucket] }, [] ++ (front ++ behind)⟩ := by
  obtain ⟨hi, hrunning, hnext, hbucket⟩ := h.taskOk
  have hlength : p.next bucket.1.index = groups.length :=
    Nat.le_antisymm (ahead_le h.valid hi) (hnext.symm ▸ Nat.le_of_not_lt hall)
  refine ⟨h.finished.length_lt hi hrunning, h.count, h.unprocessed, valid_move h.valid (.inr ⟨rfl, hlength⟩),
    fun g hg j hj => (h.slots g hg j hj).congr ?_ Iff.rfl Iff.rfl, h.tasks.giveAway hrunning (by simp),
    ⟨fun b hb => ?_, fun j hj => ?_⟩,
    h.poolOk.step rfl rfl (Nat.le_refl _) (.inr (.inr (.inr ⟨id, Nat.le_refl _, rfl⟩))), h.noPanic⟩
  · rcases eq_or_ne j bucket.1.index with rfl | hne
    · refine iff_of_false (fun hwaits => ?_) (not_waitsFor_of_running hrunning)
      have := (place_move_self bucket.1.index Place.finished).symm.trans hwaits.1
      cases this
    · rw [Progress.WaitsFor, Progress.WaitsFor, place_move_of_ne hne]
      rfl
  · rcases List.mem_append.mp hb with hb | hb
    · exact h.finished.ok b hb
    · rw [List.mem_singleton.mp hb]
      exact ⟨hi, by rw [← hlength, hnext]; exact hbucket⟩
  · have hold := h.finished.once j hj
    rw [List.map_append, List.count_append]
    refine (congrArg (· + _) hold).trans ?_
    rcases eq_or_ne j bucket.1.index with rfl | hne
    · rw [place_move_self, hrunning]
      simp
    · rw [place_move_of_ne hne]
      simp [hne.symm]

end

end Reld.Merge
