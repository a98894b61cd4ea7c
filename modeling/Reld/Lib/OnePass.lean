import Mathlib.Order.WellFoundedSet

/-!
# `Lib.OnePass` — equations that are solved in one pass

Each equation gives the value of one variable from the values of those it reads. A pass evaluates the equations in
their order, once each, and overwrites the variables as it goes. If no variable depends on itself there is one
assignment that satisfies all equations, `Solves`. The pass finds it exactly if every equation gets its solution from
the solutions of those in front of it and the old values of the others (`solves_onePass_iff`), in particular if no
equation reads a variable of one behind it.
-/

namespace OnePass

/-- An equation; its value depends on the variables it reads only. -/
structure Equation (I V : Type*) where
  target : I
  reads : List I
  value : (I → V) → V
  local_ : ∀ f g, (∀ i ∈ reads, f i = g i) → value f = value g

variable {I V : Type*} [DecidableEq I]

/-- The variables that have equations. -/
def targets (l : List (Equation I V)) : List I := l.map Equation.target

/-- The equations in turn, each overwriting its variable. -/
def onePass (l : List (Equation I V)) (env : I → V) : I → V :=
  l.foldl (fun env e => Function.update env e.target (e.value env)) env

omit [DecidableEq I] in
/-- `i` has an equation that reads `j`, which has one too. -/
def Refers (l : List (Equation I V)) (i j : I) : Prop := ∃ e ∈ l, e.target = i ∧ j ∈ e.reads ∧ j ∈ targets l

omit [DecidableEq I] in
/-- No variable depends on itself. -/
def Acyclic (l : List (Equation I V)) : Prop := ∀ i, ¬ Relation.TransGen (Refers l) i i

/-- The assignment satisfies the equations and is `env` elsewhere. -/
structure Solves (l : List (Equation I V)) (env s : I → V) : Prop where
  other : ∀ i ∉ targets l, s i = env i
  equation : ∀ e ∈ l, s e.target = e.value s

/-! ## The solution -/

section Solution

variable {l : List (Equation I V)} {env : I → V}

omit [DecidableEq I] in
theorem Refers.mem_left {i j : I} (h : Refers l i j) : i ∈ targets l := by
  obtain ⟨e, he, rfl, -, -⟩ := h
  exact List.mem_map_of_mem he

omit [DecidableEq I] in
theorem Refers.mem_right {i j : I} (h : Refers l i j) : j ∈ targets l := by
  obtain ⟨e, he, rfl, -, hj⟩ := h
  exact hj

omit [DecidableEq I] in
/-- There are finitely many variables with equations, so references end. -/
theorem wellFounded_of_acyclic (h : Acyclic l) : WellFounded fun j i => Refers l i j := by
  have hlocal : {i | i ∈ targets l}.WellFoundedOn fun j i => Relation.TransGen (Refers l) i j := by
    have hstrict : IsStrictOrder I fun j i => Relation.TransGen (Refers l) i j :=
      { irrefl := h, trans := fun _ _ _ hab hbc => hbc.trans hab }
    exact (List.finite_toSet (targets l)).wellFoundedOn
  refine Subrelation.wf ?_ (Set.wellFoundedOn_iff.1 hlocal)
  intro j i hrefers
  exact ⟨.single hrefers, hrefers.mem_right, hrefers.mem_left⟩

omit [DecidableEq I] in
/-- Variables that can be ranked along the references do not depend on themselves. -/
theorem acyclic_of_rank (rank : I → Nat) (h : ∀ i j, Refers l i j → rank j < rank i) : Acyclic l := by
  have hrank : ∀ i j, Relation.TransGen (Refers l) i j → rank j < rank i := by
    intro i j hij
    induction hij with
    | single hone => exact h _ _ hone
    | tail _ hlast ih => exact (h _ _ hlast).trans ih
  intro i hi
  exact absurd (hrank i i hi) (Nat.lt_irrefl _)

omit [DecidableEq I] in
/-- Fewer equations make no cycles. -/
theorem Acyclic.of_subset {l' : List (Equation I V)} (hsub : ∀ e ∈ l', e ∈ l) (h : Acyclic l) : Acyclic l' := by
  intro i hi
  refine h i (Relation.TransGen.mono (fun a b hab => ?_) i i hi)
  obtain ⟨e, he, hea, hb, hmem⟩ := hab
  obtain ⟨e', he', rfl⟩ := List.mem_map.1 hmem
  exact ⟨e, hsub e he, hea, hb, List.mem_map_of_mem (hsub e' he')⟩

omit [DecidableEq I] in
/-- **At most one solution.** -/
theorem Solves.unique (hacyclic : Acyclic l) {s s' : I → V} (h : Solves l env s) (h' : Solves l env s') : s = s' := by
  funext i
  induction i using (wellFounded_of_acyclic hacyclic).induction with
  | _ i ih =>
    by_cases hi : i ∈ targets l
    · obtain ⟨e, he, rfl⟩ := List.mem_map.1 hi
      rw [h.equation e he, h'.equation e he]
      apply e.local_
      intro j hj
      -- What the equation reads is solved the same way, or has no equation.
      by_cases hmem : j ∈ targets l
      · exact ih j ⟨e, he, rfl, hj, hmem⟩
      · rw [h.other j hmem, h'.other j hmem]
    · rw [h.other i hi, h'.other i hi]

open Classical in
omit [DecidableEq I] in
/-- **There is a solution.** -/
theorem exists_solves (hacyclic : Acyclic l) (hnodup : (targets l).Nodup) (env : I → V) : ∃ s, Solves l env s := by
  have hwf := wellFounded_of_acyclic hacyclic
  -- A variable is solved from the solutions of those that it refers to.
  let step (i : I) (solved : ∀ j, Refers l i j → V) : V :=
    match l.find? fun e => e.target = i with
    | none => env i
    | some e => e.value fun j => if h : Refers l i j then solved j h else env j
  have hfix (i : I) : hwf.fix step i = step i fun j _ => hwf.fix step j := hwf.fix_eq step i
  have hother : ∀ i ∉ targets l, hwf.fix step i = env i := by
    intro i hi
    have hnone : (l.find? fun e => e.target = i) = none := by
      rw [List.find?_eq_none]
      intro e he htarget
      exact hi (List.mem_map.2 ⟨e, he, by simpa using htarget⟩)
    rw [hfix]
    simp only [step, hnone]
  refine ⟨hwf.fix step, hother, fun e he => ?_⟩
  have hfind : (l.find? fun e' => e'.target = e.target) = some e := by
    rw [List.find?_eq_some_iff_append]
    obtain ⟨before, after, rfl⟩ := List.append_of_mem he
    refine ⟨by simp, before, after, rfl, fun e' he' => ?_⟩
    rw [targets, List.map_append, List.map_cons] at hnodup
    have hne : e'.target ≠ e.target := by
      intro heq
      exact (List.nodup_append.1 hnodup).2.2 _ (List.mem_map_of_mem he') _ (List.mem_cons_self ..) heq
    simp [hne]
  rw [hfix]
  simp only [step, hfind]
  apply e.local_
  intro j hj
  by_cases hmem : j ∈ targets l
  · rw [dif_pos ⟨e, he, rfl, hj, hmem⟩]
  · rw [dif_neg fun hrefers => hmem hrefers.mem_right, hother j hmem]

end Solution

/-! ## The pass -/

section Pass

variable {l before after : List (Equation I V)} {e : Equation I V} {env s : I → V}

theorem onePass_append (before after : List (Equation I V)) (env : I → V) :
    onePass (before ++ after) env = onePass after (onePass before env) := List.foldl_append ..

theorem onePass_of_not_mem {i : I} (h : i ∉ targets l) (env : I → V) : onePass l env i = env i := by
  induction l generalizing env with
  | nil => rfl
  | cons e l ih =>
    rw [targets, List.map_cons, List.mem_cons, not_or] at h
    have hrest := ih h.2 (Function.update env e.target (e.value env))
    rw [Function.update_of_ne h.1] at hrest
    exact hrest

/-- A variable keeps the value that its equation gave it. -/
theorem onePass_target (hnodup : (targets (before ++ e :: after)).Nodup) (env : I → V) :
    onePass (before ++ e :: after) env e.target = e.value (onePass before env) := by
  have hafter : e.target ∉ targets after := by
    rw [targets, List.map_append, List.map_cons] at hnodup
    exact (List.nodup_cons.1 (List.nodup_append.1 hnodup).2.1).1
  rw [onePass_append, onePass, List.foldl_cons]
  exact (onePass_of_not_mem hafter _).trans (Function.update_self ..)

/-- The values in front of an equation: solved ones in front of it, old ones elsewhere. -/
def mixed (before : List (Equation I V)) (env s : I → V) : I → V := fun i => if i ∈ targets before then s i else env i

/-- Every equation gets its solution from the solutions in front of it and the old values elsewhere. -/
def InOrder (l : List (Equation I V)) (env s : I → V) : Prop :=
  ∀ before e after, l = before ++ e :: after → e.value (mixed before env s) = s e.target

/-- What the pass has done in front of an equation, if it solves the equations. -/
theorem onePass_eq_mixed (hnodup : (targets (before ++ after)).Nodup)
    (h : onePass (before ++ after) env = s) : onePass before env = mixed before env s := by
  funext i
  unfold mixed
  by_cases hi : i ∈ targets before
  · have hafter : i ∉ targets after := by
      rw [targets, List.map_append] at hnodup
      intro hmem
      exact (List.nodup_append.1 hnodup).2.2 i hi i hmem rfl
    rw [if_pos hi, ← h, onePass_append, onePass_of_not_mem hafter]
  · rw [if_neg hi, onePass_of_not_mem hi]

/-- In order, every variable gets its solution. -/
theorem onePass_of_inOrder (hsolves : Solves l env s) (horder : InOrder l env s) : onePass l env = s := by
  have hfront (before : List (Equation I V)) :
      ∀ after, l = before ++ after → onePass before env = mixed before env s := by
    induction before using List.reverseRecOn with
    | nil =>
      intro after _
      funext i
      simp [onePass, mixed, targets]
    | append_singleton before e ih =>
      intro after hl
      rw [List.append_assoc, List.singleton_append] at hl
      rw [onePass_append, ih (e :: after) hl]
      funext i
      simp only [onePass, List.foldl_cons, List.foldl_nil, horder before e after hl]
      by_cases hi : i = e.target
      · subst hi
        simp [mixed, targets]
      · rw [Function.update_of_ne hi]
        simp [mixed, targets, hi]
  rw [hfront l [] (List.append_nil l).symm]
  funext i
  unfold mixed
  by_cases hi : i ∈ targets l
  · rw [if_pos hi]
  · rw [if_neg hi, hsolves.other i hi]

/-- **The pass solves the equations exactly if they are in order.** -/
theorem solves_onePass_iff (hacyclic : Acyclic l) (hnodup : (targets l).Nodup) (hsolves : Solves l env s) :
    (∀ e ∈ l, onePass l env e.target = e.value (onePass l env)) ↔ InOrder l env s := by
  constructor
  · intro h
    have hpass : Solves l env (onePass l env) := ⟨fun i hi => onePass_of_not_mem hi env, h⟩
    have heq : onePass l env = s := hpass.unique hacyclic hsolves
    rintro before e after rfl
    rw [← onePass_eq_mixed hnodup heq, ← heq]
    exact (onePass_target hnodup env).symm
  · intro horder e he
    rw [onePass_of_inOrder hsolves horder]
    exact hsolves.equation e he

end Pass

end OnePass
