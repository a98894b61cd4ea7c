import Mathlib.Algebra.GroupWithZero.Nat
import Mathlib.Algebra.BigOperators.Group.List.Basic

/-!
# `Lib.Tasks` — a pool of tasks over a shared state

A task that is taken changes the shared state and leaves further tasks. Any task of the pool may be taken next
(`Step`), so what holds of every run holds of every interleaving. Tasks are counted by weights: the weight of a
pool is the weight of the one that is taken and of those that stay (`total_middle`).
-/

universe u v

namespace Tasks

variable {σ : Type u} {τ : Type v}

/-- The shared state, and the tasks that are not done. -/
structure Config (σ : Type u) (τ : Type v) where
  shared : σ
  tasks : List τ

variable (act : τ → σ → σ × List τ)

/-- Any of the tasks is taken. -/
def Step (c c' : Config σ τ) : Prop :=
  ∃ front t behind, c.tasks = front ++ t :: behind ∧
    c' = ⟨(act t c.shared).1, (act t c.shared).2 ++ (front ++ behind)⟩

def Reachable (c c' : Config σ τ) : Prop := Relation.ReflTransGen (Step act) c c'

variable {act} {c c' : Config σ τ}

/-- **What every step keeps holds in every state that is reached.** -/
theorem Reachable.induction {inv : Config σ τ → Prop} (hreach : Reachable act c c') (hinit : inv c)
    (hstep : ∀ c c', inv c → Step act c c' → inv c') : inv c' := by
  induction hreach with
  | refl => exact hinit
  | tail _ hlast ih => exact hstep _ _ ih hlast

/-! ## One order -/

variable (act) in
/-- The last task is taken, a number of times: new tasks come in front, so that each has its turn. -/
def runLast : Nat → Config σ τ → Config σ τ
  | 0, c     => c
  | n + 1, c =>
    match c.tasks.getLast? with
    | none   => c
    | some t => runLast n ⟨(act t c.shared).1, (act t c.shared).2 ++ c.tasks.dropLast⟩

theorem reachable_runLast (n : Nat) (c : Config σ τ) : Reachable act c (runLast act n c) := by
  induction n generalizing c with
  | zero => exact .refl
  | succ n ih =>
    rw [runLast]
    cases hlast : c.tasks.getLast? with
    | none   => exact .refl
    | some t =>
      obtain ⟨front, hfront⟩ := List.getLast?_eq_some_iff.mp hlast
      refine .head ⟨front, t, [], hfront, ?_⟩ (ih _)
      rw [hfront, List.dropLast_concat, List.append_nil]

/-! ## Weights -/

/-- The weight of all tasks. -/
def total (weight : τ → Nat) (tasks : List τ) : Nat := (tasks.map weight).sum

variable {weight : τ → Nat} {front behind tasks tasks' : List τ} {t : τ}

@[simp] theorem total_nil : total weight ([] : List τ) = 0 := rfl

@[simp] theorem total_cons : total weight (t :: tasks) = weight t + total weight tasks := by
  simp [total]

@[simp] theorem total_append : total weight (tasks ++ tasks') = total weight tasks + total weight tasks' := by
  simp [total]

theorem total_middle : total weight (front ++ t :: behind) = weight t + total weight (front ++ behind) := by
  simp
  omega

theorem weight_le_total (weight : τ → Nat) (h : t ∈ tasks) : weight t ≤ total weight tasks := by
  obtain ⟨front, behind, rfl⟩ := List.append_of_mem h
  rw [total_middle]
  omega

theorem total_le_total {weight' : τ → Nat} (h : ∀ t, weight t ≤ weight' t) (tasks : List τ) :
    total weight tasks ≤ total weight' tasks := by
  induction tasks with
  | nil => exact Nat.le_refl 0
  | cons t tasks ih =>
    exact Nat.add_le_add (h t) ih

theorem weight_eq_zero (h : total weight tasks = 0) (ht : t ∈ tasks) : weight t = 0 := by
  have := weight_le_total weight ht
  omega

end Tasks

/-!
# Threads that take turns over a shared state

Each thread has a list of actions. The next action of any thread may be taken next (`Step`); it changes the
shared state and may put further actions in front of those that its thread has left. An action comes to a list of
effects on the shared state. The effects of a run are those of its threads, each thread's in its own order
(`Reachable.trace`), and every order of threads that run one after the other is one of the runs
(`exists_runThreads`).
-/

universe w x

namespace Threads

variable {ι : Type u} {σ : Type v} {α : Type w} {ε : Type x} [DecidableEq ι]

/-! ## Runs -/

/-- The shared state, and what each thread has left. -/
structure Config (ι : Type u) (σ : Type v) (α : Type w) where
  shared : σ
  todo : ι → List α

def Config.Finished (c : Config ι σ α) : Prop := ∀ t, c.todo t = []

variable (act : α → σ → σ × List α)

/-- Some thread takes its next action. -/
def Step (c c' : Config ι σ α) : Prop :=
  ∃ t a rest, c.todo t = a :: rest ∧
    c' = ⟨(act a c.shared).1, Function.update c.todo t ((act a c.shared).2 ++ rest)⟩

def Reachable (c c' : Config ι σ α) : Prop := Relation.ReflTransGen (Step act) c c'

/-! ## Effects -/

/-- Where the invariant holds, an action carries out the first of its effects and leaves actions for the others. -/
structure Expands (inv : σ → Prop) (apply : σ → ε → σ) (expand : α → List ε) : Prop where
  keeps : ∀ s e, inv s → inv (apply s e)
  act : ∀ a s, inv s → ∃ done, (act a s).1 = done.foldl apply s ∧
    expand a = done ++ (act a s).2.flatMap expand

variable {act} {inv : σ → Prop} {apply : σ → ε → σ} {expand : α → List ε} {c c' : Config ι σ α}

theorem Expands.foldl (h : Expands act inv apply expand) (effects : List ε) {s : σ} (hs : inv s) :
    inv (effects.foldl apply s) := by
  induction effects generalizing s with
  | nil => exact hs
  | cons e effects ih => exact ih (h.keeps s e hs)

/-- The effects of one thread in a trace. -/
def effectsOf (t : ι) (trace : List (ι × ε)) : List ε := (trace.filter (fun x => x.1 = t)).map Prod.snd

@[simp] theorem effectsOf_append (t : ι) (trace trace' : List (ι × ε)) :
    effectsOf t (trace ++ trace') = effectsOf t trace ++ effectsOf t trace' := by
  simp [effectsOf]

theorem effectsOf_own (t : ι) (effects : List ε) : effectsOf t (effects.map (Prod.mk t)) = effects := by
  simp [effectsOf, List.filter_map, Function.comp_def]

theorem effectsOf_other {t t' : ι} (h : t' ≠ t) (effects : List ε) :
    effectsOf t (effects.map (Prod.mk t')) = [] := by
  simp [effectsOf, List.filter_map, Function.comp_def, h]

theorem mem_effectsOf {t : ι} {trace : List (ι × ε)} {e : ε} : e ∈ effectsOf t trace ↔ (t, e) ∈ trace := by
  unfold effectsOf
  rw [List.mem_map]
  constructor
  · rintro ⟨⟨t', e'⟩, hfilter, rfl⟩
    obtain ⟨hmem, heq⟩ := List.mem_filter.mp hfilter
    obtain rfl : t' = t := by simpa using heq
    exact hmem
  · intro hmem
    exact ⟨(t, e), List.mem_filter.mpr ⟨hmem, by simp⟩, rfl⟩

/-- The last effect of some kind is the last one of this kind of its thread. -/
theorem exists_getLast_effectsOf {β : Type*} {f : ε → Option β} {trace : List (ι × ε)} {x : β}
    (h : ((trace.map Prod.snd).filterMap f).getLast? = some x) :
    ∃ t, ((effectsOf t trace).filterMap f).getLast? = some x := by
  obtain ⟨front, hfront⟩ := List.getLast?_eq_some_iff.mp h
  rw [List.filterMap_map] at hfront
  obtain ⟨before, rest, rfl, _, hrest⟩ := List.filterMap_eq_append_iff.mp hfront
  obtain ⟨between, ⟨t, e⟩, after, rfl, _, he, hafter⟩ := List.filterMap_eq_cons_iff.mp hrest
  have hnone : (effectsOf t after).filterMap f = [] := by
    rw [List.filterMap_eq_nil_iff]
    intro e' he'
    exact List.filterMap_eq_nil_iff.mp hafter (t, e') (mem_effectsOf.mp he')
  have hown : effectsOf t ((t, e) :: after) = e :: effectsOf t after := by simp [effectsOf]
  have he : f e = some x := he
  refine ⟨t, ?_⟩
  rw [effectsOf_append, effectsOf_append, hown, List.filterMap_append, List.filterMap_append,
    List.filterMap_cons_some he, hnone]
  simp

/-- **The trace of a run**: the shared state is the result of effects, of which each thread has those that it had
left before and has no longer. -/
theorem Reachable.trace (hreach : Reachable act c c') (h : Expands act inv apply expand) (hinv : inv c.shared) :
    ∃ trace : List (ι × ε), c'.shared = (trace.map Prod.snd).foldl apply c.shared ∧
      ∀ t, (c.todo t).flatMap expand = effectsOf t trace ++ (c'.todo t).flatMap expand := by
  induction hreach with
  | refl => exact ⟨[], rfl, fun t => rfl⟩
  | @tail c₁ c₂ _ hlast ih =>
    obtain ⟨trace, hshared, htodo⟩ := ih
    obtain ⟨t, a, rest, ht, rfl⟩ := hlast
    have hinv₁ : inv c₁.shared := hshared ▸ h.foldl _ hinv
    obtain ⟨done, hdone, hexpand⟩ := h.act a c₁.shared hinv₁
    refine ⟨trace ++ done.map (Prod.mk t), ?_, ?_⟩
    · rw [List.map_append, List.foldl_append, ← hshared, List.map_map]
      simpa [Function.comp_def] using hdone
    · intro t'
      rw [htodo t', effectsOf_append, List.append_assoc]
      by_cases heq : t' = t
      · subst heq
        rw [effectsOf_own, ht]
        simp [hexpand]
      · rw [effectsOf_other (Ne.symm heq), List.nil_append]
        simp only [Function.update_of_ne heq]

/-! ## One order -/

/-- A thread can be run to its end while the others wait. The induction is on the size of what the thread has
left, which every action makes smaller. -/
theorem exists_runThread (h : Expands act inv apply expand) (size : α → Nat)
    (hsize : ∀ a s, ((act a s).2.map size).sum < size a) (t : ι) :
    ∀ (n : Nat) (c : Config ι σ α), ((c.todo t).map size).sum ≤ n → inv c.shared →
      Reachable act c
        ⟨((c.todo t).flatMap expand).foldl apply c.shared, Function.update c.todo t []⟩ := by
  intro n
  induction n with
  | zero =>
    intro c hn _
    cases ht : c.todo t with
    | nil =>
      have hsame : Function.update c.todo t [] = c.todo := by rw [← ht, Function.update_eq_self]
      rw [hsame]
      exact .refl
    | cons a rest =>
      have := hsize a c.shared
      rw [ht, List.map_cons, List.sum_cons] at hn
      omega
  | succ n ih =>
    intro c hn hinv
    cases ht : c.todo t with
    | nil =>
      have hsame : Function.update c.todo t [] = c.todo := by rw [← ht, Function.update_eq_self]
      rw [hsame]
      exact .refl
    | cons a rest =>
      obtain ⟨done, hdone, hexpand⟩ := h.act a c.shared hinv
      have hless := hsize a c.shared
      rw [ht, List.map_cons, List.sum_cons] at hn
      have hrest := ih ⟨(act a c.shared).1, Function.update c.todo t ((act a c.shared).2 ++ rest)⟩
        (by simp only [Function.update_self, List.map_append, List.sum_append]; omega)
        (hdone ▸ h.foldl done hinv)
      simp only [Function.update_self, Function.update_idem] at hrest
      refine .head ⟨t, a, rest, ht, rfl⟩ ?_
      rw [List.flatMap_cons, hexpand, List.append_assoc, List.foldl_append, ← hdone, ← List.flatMap_append]
      exact hrest

/-- **Threads one after the other**, in any order that has every thread with something to do. -/
theorem exists_runThreads (h : Expands act inv apply expand) (size : α → Nat)
    (hsize : ∀ a s, ((act a s).2.map size).sum < size a) :
    ∀ (order : List ι) (c : Config ι σ α), order.Nodup → (∀ t, t ∉ order → c.todo t = []) → inv c.shared →
      ∃ c', Reachable act c c' ∧ c'.Finished ∧
        c'.shared = (order.flatMap (fun t => (c.todo t).flatMap expand)).foldl apply c.shared := by
  intro order
  induction order with
  | nil => exact fun c _ hidle _ => ⟨c, .refl, fun t => hidle t List.not_mem_nil, rfl⟩
  | cons t order ih =>
    intro c hnodup hidle hinv
    obtain ⟨hfresh, hnodup⟩ := List.nodup_cons.mp hnodup
    have hfirst := exists_runThread h size hsize t _ c (Nat.le_refl _) hinv
    obtain ⟨c', hreach, hfinished, hshared⟩ := ih
      ⟨((c.todo t).flatMap expand).foldl apply c.shared, Function.update c.todo t []⟩ hnodup
      (by
        intro t' ht'
        by_cases heq : t' = t
        · rw [heq]
          exact Function.update_self t [] c.todo
        · exact (Function.update_of_ne heq _ _).trans (hidle t' (by simp [heq, ht'])))
      (h.foldl _ hinv)
    refine ⟨c', hfirst.trans hreach, hfinished, ?_⟩
    -- the later threads still have what they had
    have hlater : order.flatMap (fun t' => (Function.update c.todo t [] t').flatMap expand)
        = order.flatMap (fun t' => (c.todo t').flatMap expand) := by
      refine List.flatMap_congr (fun t' ht' => ?_)
      have hne : t' ≠ t := by
        rintro rfl
        exact hfresh ht'
      rw [Function.update_of_ne hne]
    rw [hshared, hlater, List.flatMap_cons, List.foldl_append]

end Threads
