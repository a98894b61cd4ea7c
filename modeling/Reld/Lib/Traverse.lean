import Mathlib.Data.List.Nodup

/-!
# `Lib.Traverse` — what may fail, for all of a list

The results of a function that may fail, for all of a list, are there if all of them are. Where they are lists again,
they are put one behind the other. A loop keeps what each of its steps keeps.
-/

namespace Traverse

variable {α β : Type} {f : α → Option β} {xs : List α}

variable {ys : List β}

theorem mapM_eq_some :
    xs.mapM f = some ys ↔ xs.map f = ys.map some := by
  induction xs generalizing ys with
  | nil => cases ys <;> simp
  | cons x xs ih =>
    rw [List.mapM_cons]
    cases hx : f x with
    | none   => cases ys <;> simp [hx]
    | some y =>
      cases ys with
      | nil        => cases xs.mapM f <;> simp
      | cons y' ys =>
        cases hxs : xs.mapM f with
        | none     => simp_all
        | some ys' => simp_all

/-- A function that fails for some entries only because of a test. -/
theorem mapM_ite_eq_some {p : α → Prop} [DecidablePred p] {g : α → β} :
    (xs.mapM fun x => if p x then some (g x) else none) = some ys ↔ (∀ x ∈ xs, p x) ∧ ys = xs.map g := by
  rw [mapM_eq_some]
  induction xs generalizing ys with
  | nil => cases ys <;> simp
  | cons x xs ih =>
    cases ys with
    | nil => simp
    | cons y ys =>
      rw [List.map_cons, List.map_cons, List.cons.injEq, ih, List.forall_mem_cons, List.map_cons, List.cons.injEq]
      by_cases hx : p x
      · rw [if_pos hx, Option.some_inj]
        exact ⟨fun h => ⟨⟨hx, h.2.1⟩, h.1.symm, h.2.2⟩, fun h => ⟨h.2.1.symm, h.1.2, h.2.2⟩⟩
      · simp [hx, reduceCtorEq]

theorem exists_of_mem_mapM {y : β} (h : xs.mapM f = some ys) (hy : y ∈ ys) : ∃ x, f x = some y := by
  have hmem : some y ∈ xs.map f := mapM_eq_some.mp h ▸ List.mem_map_of_mem hy
  obtain ⟨x, -, hx⟩ := List.mem_map.mp hmem
  exact ⟨x, hx⟩

theorem getElem?_of_mapM {x : α} {i : Nat} (h : xs.mapM f = some ys) (hx : xs[i]? = some x) :
    f x = ys[i]? := by
  have hmap : (xs.map f)[i]? = (ys.map some)[i]? := by rw [mapM_eq_some.1 h]
  rw [List.getElem?_map, List.getElem?_map, hx, Option.map_some] at hmap
  cases hy : ys[i]? with
  | none => rw [hy] at hmap; cases hmap
  | some y =>
    rw [hy, Option.map_some, Option.some.injEq] at hmap
    exact hmap

theorem forall₂_of_mapM (h : xs.mapM f = some ys) : List.Forall₂ (fun x y => f x = some y) xs ys := by
  rw [mapM_eq_some] at h
  induction xs generalizing ys with
  | nil =>
    rw [List.map_nil, eq_comm, List.map_eq_nil_iff] at h
    rw [h]
    exact .nil
  | cons x xs ih =>
    cases ys with
    | nil => cases h
    | cons y ys =>
      rw [List.map_cons, List.map_cons, List.cons.injEq] at h
      exact .cons h.1 (ih h.2)

theorem mapM_isSome (h : ∀ x ∈ xs, (f x).isSome) :
    ∃ ys, xs.mapM f = some ys := by
  induction xs with
  | nil => exact ⟨[], rfl⟩
  | cons x xs ih =>
    rw [List.forall_mem_cons] at h
    obtain ⟨y, hy⟩ := Option.isSome_iff_exists.mp h.1
    obtain ⟨ys, hys⟩ := ih h.2
    exact ⟨y :: ys, by rw [List.mapM_cons, hy, hys]; rfl⟩

theorem flatten_mapM_cons (f : α → Option (List β)) (x : α) (xs : List α) :
    ((x :: xs).mapM f).map List.flatten = (f x).bind fun ys => ((xs.mapM f).map List.flatten).map (ys ++ ·) := by
  rw [List.mapM_cons]
  cases f x <;> cases xs.mapM f <;> rfl

theorem flatten_mapM_nil {f : α → Option (List β)} (h : ∀ x ∈ xs, f x = some []) :
    (xs.mapM f).map List.flatten = some [] := by
  induction xs with
  | nil => rfl
  | cons x xs ih =>
    rw [flatten_mapM_cons, h x (List.mem_cons_self ..), Option.bind_some, ih fun y hy => h y (List.mem_cons_of_mem _ hy)]
    rfl

/-- Where one of them has a chain, it is what all of them have. -/
theorem flatten_mapM_single [DecidableEq α] {f : α → Option (List β)} {found : Option (List β)} {k : α}
    (hnodup : xs.Nodup) (hk : k ∈ xs) (h : ∀ x ∈ xs, f x = if x = k then found else some []) :
    (xs.mapM f).map List.flatten = found := by
  induction xs with
  | nil => cases hk
  | cons x xs ih =>
    obtain ⟨hx, hnodup⟩ := List.nodup_cons.1 hnodup
    rw [flatten_mapM_cons, h x (List.mem_cons_self ..)]
    by_cases hxk : x = k
    · have hrest : (xs.mapM f).map List.flatten = some [] := by
        refine flatten_mapM_nil fun y hy => ?_
        rw [h y (List.mem_cons_of_mem _ hy), if_neg]
        rintro rfl
        exact hx (hxk ▸ hy)
      rw [if_pos hxk, hrest]
      cases found with
      | none => rfl
      | some found => rw [Option.bind_some, Option.map_some, List.append_nil]
    · have hmem : k ∈ xs := (List.mem_cons.1 hk).resolve_left (Ne.symm hxk)
      rw [if_neg hxk, ih hnodup hmem fun y hy => h y (List.mem_cons_of_mem _ hy), Option.bind_some]
      cases found <;> rfl

section Loop

variable {m : Type → Type} [Monad m] {σ : Type} {I : List α → σ → Prop} {done : List α} {s s' : σ}

/-- A loop in a monad whose computations in two steps give a result when both do: what each step keeps, of the entries so
far, the loop keeps. -/
theorem loop_induct (hbind : ∀ {x : m σ} {g : σ → m σ} {b : σ}, (x >>= g) = pure b → ∃ a, x = pure a ∧ g a = pure b)
    (hpure : ∀ {a b : σ}, (pure a : m σ) = pure b → a = b) {f : σ → α → m σ}
    (hstep : ∀ done x s s', x ∈ xs → I done s → f s x = pure s' → I (done ++ [x]) s') (h : I done s)
    (hrun : xs.foldlM f s = pure s') : I (done ++ xs) s' := by
  induction xs generalizing done s with
  | nil => rwa [List.append_nil, ← hpure hrun]
  | cons x xs ih =>
    obtain ⟨s₁, hs₁, hrun⟩ := hbind hrun
    rw [List.append_cons]
    exact ih (fun done y s s' hy => hstep done y s s' (List.mem_cons_of_mem x hy))
      (hstep done x s s₁ List.mem_cons_self h hs₁) hrun

theorem foldlM_induct (done : List α) {f : σ → α → Option σ}
    (hstep : ∀ done x s s', x ∈ xs → I done s → f s x = some s' → I (done ++ [x]) s') (h : I done s)
    (hrun : xs.foldlM f s = some s') : I (done ++ xs) s' :=
  loop_induct Option.bind_eq_some_iff.1 Option.some.inj hstep h hrun

/-- What each step of a loop keeps, the loop keeps. -/
theorem foldlM_keeps {f : σ → α → Option σ} {P : σ → Prop} (hstep : ∀ x ∈ xs, ∀ s s', P s → f s x = some s' → P s')
    (h : P s) (hrun : xs.foldlM f s = some s') : P s' :=
  foldlM_induct (I := fun _ => P) [] (fun _ x s s' hx => hstep x hx s s') h hrun

end Loop

variable {ε : Type}

/-- A computation in two steps succeeds when both do. -/
theorem bind_eq_ok {x : Except ε α} {f : α → Except ε β} {b : β} :
    (x >>= f) = .ok b ↔ ∃ a, x = .ok a ∧ f a = .ok b := by
  cases x with
  | error e => simp [bind, Except.bind]
  | ok a => simp [bind, Except.bind]

theorem foldlM_ok_induct {σ : Type} {I : List α → σ → Prop} (done : List α) {s s' : σ} {f : σ → α → Except ε σ}
    (hstep : ∀ done x s s', x ∈ xs → I done s → f s x = .ok s' → I (done ++ [x]) s') (h : I done s)
    (hrun : xs.foldlM f s = .ok s') : I (done ++ xs) s' :=
  loop_induct bind_eq_ok.1 Except.ok.inj hstep h hrun

theorem mapM_eq_ok {f : α → Except ε β} :
    xs.mapM f = .ok ys ↔ List.Forall₂ (fun x y => f x = .ok y) xs ys := by
  induction xs generalizing ys with
  | nil =>
    rw [List.mapM_nil, List.forall₂_nil_left_iff]
    exact ⟨fun h => (Except.ok.inj h).symm, fun h => h ▸ rfl⟩
  | cons x xs ih =>
    rw [List.mapM_cons, bind_eq_ok, List.forall₂_cons_left_iff]
    refine exists_congr (fun y => ?_)
    simp only [bind_eq_ok, ih]
    constructor
    · rintro ⟨hy, ys', hys', heq⟩
      exact ⟨ys', hy, hys', (Except.ok.inj heq).symm⟩
    · rintro ⟨ys', hy, hys', rfl⟩
      exact ⟨hy, ys', hys', rfl⟩

theorem exists_of_mem_mapM_ok {f : α → Except ε β} (h : xs.mapM f = .ok ys) {y : β} (hy : y ∈ ys) :
    ∃ x ∈ xs, f x = .ok y := by
  obtain ⟨i, hi, rfl⟩ := List.mem_iff_getElem.mp hy
  have hforall := mapM_eq_ok.mp h
  exact ⟨xs.get ⟨i, hforall.length_eq ▸ hi⟩, List.get_mem _ _, hforall.get (hforall.length_eq ▸ hi) hi⟩

end Traverse
