import Mathlib.Data.List.AList

/-!
# `Lib.FirstTable` — a multimap that keys extra values by the first one

A table maps a name to the **first** identifier added under it. Every further identifier of that name is
kept in a second map, under the first identifier and not under the name. `add` inserts one pair and
`addAll` a list of them.

The closed form of a batch is `alternatives_addAll`.
-/

universe u v

variable {N : Type u} {I : Type v} [DecidableEq N] [DecidableEq I]

/-- The first identifier of each name, and the other identifiers keyed by that first one. -/
structure FirstTable (N : Type u) (I : Type v) [DecidableEq N] [DecidableEq I] where
  nameToId : N → Option I
  alternatives : AList (fun _ : I => List I)

namespace FirstTable

/-- The table with no name. -/
def empty : FirstTable N I := { nameToId := fun _ => none, alternatives := ∅ }

/-- The list kept under `k`, which is empty where there is none. -/
def alternativesOf (t : FirstTable N I) (k : I) : List I := (t.alternatives.lookup k).getD []

/-- Add identifier `p.2` under the name `p.1`. -/
def add (t : FirstTable N I) (p : N × I) : FirstTable N I :=
  match t.nameToId p.1 with
  | some first => { t with alternatives := t.alternatives.insert first (t.alternativesOf first ++ [p.2]) }
  | none => { t with nameToId := Function.update t.nameToId p.1 (some p.2) }

/-- Add a batch, in its order. -/
def addAll (t : FirstTable N I) (l : List (N × I)) : FirstTable N I := l.foldl add t

/-- Let a name stand for another identifier. -/
def override (t : FirstTable N I) (n : N) (i : I) : FirstTable N I :=
  { t with nameToId := Function.update t.nameToId n (some i) }

/-- Forget the extra identifiers. -/
def takeAlternatives (t : FirstTable N I) : FirstTable N I := { t with alternatives := ∅ }

/-! ## The name map -/

variable {t : FirstTable N I}

theorem add_of_some {p : N × I} {first : I} (h : t.nameToId p.1 = some first) :
    t.add p
      = { t with alternatives := t.alternatives.insert first (t.alternativesOf first ++ [p.2]) } := by
  unfold add
  rw [h]

theorem add_of_none {p : N × I} (h : t.nameToId p.1 = none) :
    t.add p = { t with nameToId := Function.update t.nameToId p.1 (some p.2) } := by
  unfold add
  rw [h]

/-- A name keeps its identifier when more pairs are added. -/
theorem nameToId_add_of_some {n : N} {k : I} (h : t.nameToId n = some k) (p : N × I) :
    (t.add p).nameToId n = some k := by
  cases hp : t.nameToId p.1 with
  | some first =>
    rw [add_of_some hp]
    exact h
  | none =>
    rw [add_of_none hp]
    have hne : n ≠ p.1 := by
      intro heq
      rw [heq, hp] at h
      exact absurd h (by simp)
    show Function.update t.nameToId p.1 (some p.2) n = some k
    rw [Function.update_of_ne hne, h]

theorem nameToId_addAll_of_some (l : List (N × I)) :
    ∀ {t : FirstTable N I} {n : N} {k : I}, t.nameToId n = some k →
      (t.addAll l).nameToId n = some k := by
  induction l with
  | nil => intro t n k h; exact h
  | cons p l ih => intro t n k h; exact ih (nameToId_add_of_some h p)

/-- The identifiers that a batch adds under the name `n`. -/
def idsOf (l : List (N × I)) (n : N) : List I := (l.filter (fun p => p.1 = n)).map Prod.snd

omit [DecidableEq I] in
theorem mem_idsOf {l : List (N × I)} {n : N} {i : I} : i ∈ idsOf l n ↔ (n, i) ∈ l := by
  unfold idsOf
  simp only [List.mem_map, List.mem_filter, decide_eq_true_eq]
  constructor
  · rintro ⟨⟨m, j⟩, ⟨hp, rfl⟩, rfl⟩
    exact hp
  · intro h
    exact ⟨(n, i), ⟨h, rfl⟩, rfl⟩

/-- **The name map after a batch**: an old name keeps its identifier, a new one gets the first. -/
theorem nameToId_addAll (l : List (N × I)) :
    ∀ (t : FirstTable N I) (n : N),
      (t.addAll l).nameToId n = (t.nameToId n).or (idsOf l n).head? := by
  induction l with
  | nil => intro t n; simp [addAll, idsOf]
  | cons p l ih =>
    intro t n
    show ((t.add p).addAll l).nameToId n = _
    rw [ih]
    by_cases hn : p.1 = n
    · have hids : idsOf (p :: l) n = p.2 :: idsOf l n := by
        unfold idsOf
        rw [List.filter_cons_of_pos (by simpa using hn), List.map_cons]
      rw [hids, List.head?_cons]
      cases hp : t.nameToId p.1 with
      | some first =>
        rw [add_of_some hp, ← hn, hp]
        rfl
      | none =>
        rw [add_of_none hp, ← hn, hp]
        simp
    · have hids : idsOf (p :: l) n = idsOf l n := by
        unfold idsOf
        rw [List.filter_cons_of_neg (by simpa using hn)]
      rw [hids]
      cases hp : t.nameToId p.1 with
      | some first => rw [add_of_some hp]
      | none =>
        have hne : n ≠ p.1 := fun heq => hn heq.symm
        rw [add_of_none hp]
        simp only [Function.update_of_ne hne]

/-! ## The extra identifiers -/

theorem alternativesOf_insert (m : AList (fun _ : I => List I)) (f : N → Option I) (k k' : I)
    (xs : List I) :
    (FirstTable.mk f (m.insert k xs)).alternativesOf k'
      = if k' = k then xs else (FirstTable.mk f m).alternativesOf k' := by
  unfold alternativesOf
  by_cases h : k' = k
  · subst h
    simp [AList.lookup_insert]
  · simp [AList.lookup_insert_ne h, h]

/-- The identifiers that a batch adds under the first identifier `k`. -/
def extrasOf (t : FirstTable N I) (l : List (N × I)) (k : I) : List I :=
  (l.filter (fun p => (t.addAll l).nameToId p.1 = some k ∧ p.2 ≠ k)).map Prod.snd

/-- The identifiers of the batch are distinct and not in the table yet. -/
def Fresh (t : FirstTable N I) (l : List (N × I)) : Prop :=
  (l.map Prod.snd).Nodup ∧ ∀ n k, t.nameToId n = some k → k ∉ l.map Prod.snd

theorem Fresh.add {p : N × I} {l : List (N × I)} (h : t.Fresh (p :: l)) :
    (t.add p).Fresh l := by
  obtain ⟨hnodup, hnew⟩ := h
  rw [List.map_cons, List.nodup_cons] at hnodup
  refine ⟨hnodup.2, ?_⟩
  intro n k hk
  cases hp : t.nameToId p.1 with
  | some first =>
    rw [add_of_some hp] at hk
    intro hmem
    exact hnew n k hk (List.mem_cons_of_mem _ hmem)
  | none =>
    rw [add_of_none hp] at hk
    by_cases hn : n = p.1
    · subst hn
      simp only [Function.update_self] at hk
      rw [← Option.some.inj hk]
      exact hnodup.1
    · simp only [Function.update_of_ne hn] at hk
      intro hmem
      exact hnew n k hk (List.mem_cons_of_mem _ hmem)

/-- **The extra identifiers after a batch** of new and distinct ones. -/
theorem alternativesOf_addAll (l : List (N × I)) :
    ∀ {t : FirstTable N I}, t.Fresh l → ∀ k,
      (t.addAll l).alternativesOf k = t.alternativesOf k ++ t.extrasOf l k := by
  induction l with
  | nil => intro t _ k; simp [addAll, extrasOf]
  | cons p l ih =>
    intro t hfresh k
    have hadd : t.addAll (p :: l) = (t.add p).addAll l := rfl
    have hfilter : t.extrasOf (p :: l) k
        = (if (t.addAll (p :: l)).nameToId p.1 = some k ∧ p.2 ≠ k then [p.2] else [])
            ++ (t.add p).extrasOf l k := by
      unfold extrasOf
      split_ifs with h <;> simp_all
    rw [hfilter, hadd, ih hfresh.add k, ← List.append_assoc]
    cases hp : t.nameToId p.1 with
    | some first =>
      have hname : ((t.add p).addAll l).nameToId p.1 = some first :=
        nameToId_addAll_of_some l (nameToId_add_of_some hp p)
      have hne : p.2 ≠ first := by
        intro heq
        exact hfresh.2 p.1 first hp (heq ▸ List.mem_cons_self)
      have halt : (t.add p).alternativesOf k
          = if k = first then t.alternativesOf first ++ [p.2] else t.alternativesOf k := by
        rw [add_of_some hp]
        exact alternativesOf_insert _ _ _ _ _
      rw [halt, hname]
      by_cases hk : k = first
      · subst hk
        rw [if_pos rfl, if_pos ⟨rfl, hne⟩]
      · rw [if_neg hk, if_neg (fun h => hk (Option.some.inj h.1).symm), List.append_nil]
    | none =>
      have hself : (t.add p).nameToId p.1 = some p.2 := by
        rw [add_of_none hp]
        exact Function.update_self _ _ _
      have hname : ((t.add p).addAll l).nameToId p.1 = some p.2 :=
        nameToId_addAll_of_some l hself
      have halt : (t.add p).alternativesOf k = t.alternativesOf k := by
        rw [add_of_none hp]
        rfl
      rw [halt, hname, if_neg (fun h => h.2 (Option.some.inj h.1)), List.append_nil]

/-- A list is kept under `k` only if it is not empty. -/
def NoEmptyEntry (t : FirstTable N I) : Prop := ∀ k, t.alternatives.lookup k ≠ some []

theorem noEmptyEntry_add (h : t.NoEmptyEntry) (p : N × I) :
    (t.add p).NoEmptyEntry := by
  intro k
  cases hp : t.nameToId p.1 with
  | some first =>
    rw [add_of_some hp]
    by_cases hk : k = first
    · subst hk
      simp [AList.lookup_insert]
    · show (t.alternatives.insert first _).lookup k ≠ some []
      rw [AList.lookup_insert_ne hk]
      exact h k
  | none =>
    rw [add_of_none hp]
    exact h k

theorem noEmptyEntry_addAll (l : List (N × I)) :
    ∀ {t : FirstTable N I}, t.NoEmptyEntry → (t.addAll l).NoEmptyEntry := by
  induction l with
  | nil => intro t h; exact h
  | cons p l ih => intro t h; exact ih (noEmptyEntry_add h p)

theorem noEmptyEntry_of_empty (h : t.alternatives = ∅) : t.NoEmptyEntry := by
  intro k
  rw [h, AList.lookup_empty]
  exact fun hk => absurd hk (by simp)

/-- The entries of a table are the non-empty lists kept in it. -/
theorem mem_entries_iff (h : t.NoEmptyEntry) {k : I} {xs : List I} :
    (⟨k, xs⟩ : Sigma (fun _ : I => List I)) ∈ t.alternatives.entries ↔
      xs ≠ [] ∧ t.alternativesOf k = xs := by
  rw [← AList.mem_lookup_iff]
  unfold alternativesOf
  constructor
  · intro hk
    refine ⟨?_, by rw [hk]; rfl⟩
    intro hnil
    rw [hnil] at hk
    exact h k hk
  · rintro ⟨hne, hk⟩
    cases hl : t.alternatives.lookup k with
    | none =>
      rw [hl] at hk
      exact absurd hk.symm hne
    | some ys =>
      rw [hl] at hk
      exact congrArg some hk

end FirstTable

/-!
# First tables spread over buckets

A family of first tables, one for each bucket; a name lives in the bucket that `bucketOf` gives it. The
lemmas lift those above from one table to the family: what a lookup finds after a batch, and
which lists the buckets keep.
-/

namespace ShardedTable

open FirstTable

variable (bucketOf : N → Nat)

/-- The first identifier of a name. -/
def lookup (t : Nat → FirstTable N I) (n : N) : Option I := (t (bucketOf n)).nameToId n

/-- Every bucket takes the pairs whose name belongs to it, in their order. -/
def addAll (t : Nat → FirstTable N I) (l : List (N × I)) : Nat → FirstTable N I :=
  fun b => (t b).addAll (l.filter (fun p => bucketOf p.1 = b))

variable {bucketOf}

omit [DecidableEq I] in
theorem idsOf_filter_bucket (l : List (N × I)) (n : N) :
    idsOf (l.filter (fun p => bucketOf p.1 = bucketOf n)) n = idsOf l n := by
  unfold idsOf
  rw [List.filter_filter]
  congr 1
  apply List.filter_congr
  intro p _
  by_cases h : p.1 = n
  · simp [h]
  · simp [h]

/-- **Lookup after a batch**: an old name keeps its identifier, a new one gets the first. -/
theorem lookup_addAll (t : Nat → FirstTable N I) (l : List (N × I)) (n : N) :
    lookup bucketOf (addAll bucketOf t l) n = (lookup bucketOf t n).or (idsOf l n).head? := by
  unfold lookup addAll
  rw [nameToId_addAll, idsOf_filter_bucket]

/-- Two batches are one longer batch. -/
theorem addAll_append (t : Nat → FirstTable N I) (l m : List (N × I)) :
    addAll bucketOf (addAll bucketOf t l) m = addAll bucketOf t (l ++ m) := by
  funext b
  unfold addAll FirstTable.addAll
  rw [List.filter_append, List.foldl_append]

variable {t : Nat → FirstTable N I} {l : List (N × I)}

/-- What a bucket holds for a name after a batch was there before or is in the batch. -/
theorem nameToId_addAll_cases {b : Nat} {n : N} {k : I} (h : (addAll bucketOf t l b).nameToId n = some k) :
    (t b).nameToId n = some k ∨ (n, k) ∈ l := by
  unfold addAll at h
  rw [nameToId_addAll] at h
  rcases Option.or_eq_some_iff.mp h with hold | ⟨_, hnew⟩
  · exact Or.inl hold
  · exact Or.inr (List.mem_filter.mp (mem_idsOf.mp (List.mem_of_mem_head? hnew))).1

/-- The identifiers of the batch are distinct and in no bucket yet. -/
def Fresh (t : Nat → FirstTable N I) (l : List (N × I)) : Prop :=
  (l.map Prod.snd).Nodup ∧ ∀ b n k, (t b).nameToId n = some k → k ∉ l.map Prod.snd

theorem Fresh.bucket (h : Fresh t l) (b : Nat) :
    (t b).Fresh (l.filter (fun p => bucketOf p.1 = b)) := by
  have hsub : (l.filter (fun p => bucketOf p.1 = b)).map Prod.snd |>.Sublist (l.map Prod.snd) :=
    List.filter_sublist.map Prod.snd
  refine ⟨h.1.sublist hsub, ?_⟩
  intro n k hk hmem
  exact h.2 b n k hk (hsub.subset hmem)

/-- **The lists that a bucket keeps after a batch** of new identifiers. -/
theorem alternativesOf_addAll (h : Fresh t l) (b : Nat) (k : I) :
    (addAll bucketOf t l b).alternativesOf k
      = (t b).alternativesOf k ++
        (l.filter (fun p =>
          bucketOf p.1 = b ∧ lookup bucketOf (addAll bucketOf t l) p.1 = some k ∧ p.2 ≠ k)).map Prod.snd := by
  unfold addAll
  rw [FirstTable.alternativesOf_addAll _ (h.bucket b)]
  congr 1
  unfold extrasOf
  rw [List.filter_filter]
  congr 1
  apply List.filter_congr
  intro p _
  by_cases hb : bucketOf p.1 = b
  · subst hb
    simp [lookup]
  · simp [hb]

/-- The same, as membership. -/
theorem mem_alternativesOf_addAll (h : Fresh t l) {b : Nat} {k i : I} :
    i ∈ (addAll bucketOf t l b).alternativesOf k ↔ i ∈ (t b).alternativesOf k ∨
      ∃ n, (n, i) ∈ l ∧ bucketOf n = b ∧ lookup bucketOf (addAll bucketOf t l) n = some k ∧ i ≠ k := by
  rw [alternativesOf_addAll h, List.mem_append]
  refine or_congr_right ?_
  simp only [List.mem_map, List.mem_filter, decide_eq_true_eq]
  constructor
  · rintro ⟨⟨n, j⟩, ⟨hmem, hcond⟩, rfl⟩
    exact ⟨n, hmem, hcond⟩
  · rintro ⟨n, hmem, hcond⟩
    exact ⟨(n, i), ⟨hmem, hcond⟩, rfl⟩

theorem noEmptyEntry_addAll (h : ∀ b, (t b).NoEmptyEntry) (l : List (N × I)) (b : Nat) :
    (addAll bucketOf t l b).NoEmptyEntry :=
  FirstTable.noEmptyEntry_addAll _ (h b)

omit [DecidableEq N] [DecidableEq I] in
/-- An identifier of a list of distinct identifiers has one name. -/
theorem name_unique (h : (l.map Prod.snd).Nodup) {n m : N} {i : I} (hn : (n, i) ∈ l) (hm : (m, i) ∈ l) : n = m :=
  congrArg Prod.fst (List.inj_on_of_nodup_map h hn hm rfl)

/-- **One batch into empty buckets**: the bucket of `n` keeps the identifiers of `n` after the first one,
    under the first one, and nothing else is kept. -/
theorem entry_addAll_empty_iff (h : (l.map Prod.snd).Nodup) {k : I} {xs : List I} {b : Nat} :
    (⟨k, xs⟩ : Sigma (fun _ : I => List I)) ∈
        (addAll bucketOf (fun _ => FirstTable.empty) l b).alternatives.entries ↔
      xs ≠ [] ∧ ∃ n, bucketOf n = b ∧ idsOf l n = k :: xs := by
  have hfresh : Fresh (fun _ => (FirstTable.empty : FirstTable N I)) l :=
    ⟨h, fun b n k hk => absurd hk (by simp [FirstTable.empty])⟩
  have hne : (addAll bucketOf (fun _ => (FirstTable.empty : FirstTable N I)) l b).NoEmptyEntry :=
    noEmptyEntry_addAll (fun _ => noEmptyEntry_of_empty rfl) l b
  have hlookup : ∀ n, lookup bucketOf (addAll bucketOf (fun _ => FirstTable.empty) l) n = (idsOf l n).head? := by
    intro n
    rw [lookup_addAll]
    rfl
  have halt : ∀ n, bucketOf n = b → ∀ ys, idsOf l n = k :: ys →
      (addAll bucketOf (fun _ => (FirstTable.empty : FirstTable N I)) l b).alternativesOf k = ys := by
    intro n hn ys hys
    have hk : (n, k) ∈ l := mem_idsOf.mp (hys ▸ List.mem_cons_self)
    have hnodup : (idsOf l n).Nodup := h.sublist (List.filter_sublist.map Prod.snd)
    rw [alternativesOf_addAll hfresh]
    have hempty : (FirstTable.empty : FirstTable N I).alternativesOf k = [] := rfl
    have hfilter : (l.filter (fun p => bucketOf p.1 = b ∧
        lookup bucketOf (addAll bucketOf (fun _ => FirstTable.empty) l) p.1 = some k ∧ p.2 ≠ k)).map Prod.snd
        = (idsOf l n).filter (fun i => i ≠ k) := by
      unfold idsOf
      rw [List.filter_map, List.filter_filter]
      congr 1
      apply List.filter_congr
      rintro ⟨m, i⟩ hp
      by_cases hm : m = n
      · subst hm
        simp [hn, hlookup, hys]
      · have hhead : (idsOf l m).head? ≠ some k := by
          intro hhead
          have hmk : (m, k) ∈ l := mem_idsOf.mp (List.mem_of_mem_head? hhead)
          exact hm (name_unique h hmk hk)
        simp [hm, hlookup, hhead]
    rw [hfilter, hys]
    rw [hys, List.nodup_cons] at hnodup
    rw [List.filter_cons_of_neg (by simp)]
    apply List.filter_eq_self.mpr
    intro i hi
    exact decide_eq_true (fun heq => hnodup.1 (heq ▸ hi))
  rw [mem_entries_iff hne]
  constructor
  · rintro ⟨hxs, hk⟩
    refine ⟨hxs, ?_⟩
    -- some pair of the batch is kept under `k`, and its name is the one wanted
    obtain ⟨x, rest, rfl⟩ := List.exists_cons_of_ne_nil hxs
    have hx := hk
    rw [alternativesOf_addAll hfresh] at hx
    have hempty : (FirstTable.empty : FirstTable N I).alternativesOf k = [] := rfl
    rw [hempty, List.nil_append] at hx
    have hmem : x ∈ ((l.filter (fun p => bucketOf p.1 = b ∧
        lookup bucketOf (addAll bucketOf (fun _ => FirstTable.empty) l) p.1 = some k ∧ p.2 ≠ k)).map Prod.snd) := by
      rw [hx]
      exact List.mem_cons_self
    obtain ⟨⟨n, i⟩, hp, rfl⟩ := List.mem_map.mp hmem
    have hcond := of_decide_eq_true (List.mem_filter.mp hp).2
    obtain ⟨hb, hhead, _⟩ := hcond
    rw [hlookup] at hhead
    obtain ⟨ys, hys⟩ := List.head?_eq_some_iff.mp hhead
    refine ⟨n, hb, ?_⟩
    rw [hys, ← hk, halt n hb ys hys]
  · rintro ⟨hxs, n, hn, hids⟩
    exact ⟨hxs, halt n hn xs hids⟩

end ShardedTable
