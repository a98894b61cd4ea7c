import Mathlib.Data.List.Basic
import Mathlib.Data.Nat.Find
import Mathlib.Order.Lattice

/-!
# `Lib.SortedTable` — tables that are sorted once and searched later

A table is filled in any order, sorted by its keys, and searched for the last entry that is not behind what is looked for.
Of entries with the same key the sort keeps the order, so that the search ends on the one that was entered last
(`search_mergeSort`).
-/

namespace SortedTable

variable {α κ : Type} [LinearOrder κ]

/-- The loop of a binary search between two indices, of which the second is behind what is looked for. -/
def searchLoop (key : α → κ) (table : List α) (x : κ) (lo hi : Nat) : Option α :=
  if lo < hi then
    match table[(lo + hi) / 2]?, table[(lo + hi) / 2 + 1]? with
    | some entry, some next =>
      if x < key entry then searchLoop key table x lo ((lo + hi) / 2)
      else if key next ≤ x then searchLoop key table x ((lo + hi) / 2 + 1) hi
      else some entry
    | _, _ => none
  else none
termination_by hi - lo

/-- The entry that a binary search ends on. -/
def search (key : α → κ) (table : List α) (x : κ) : Option α :=
  match table.head?, table.getLast? with
  | some first, some last =>
    if x < key first then none
    else if x < key last then searchLoop key table x 0 (table.length - 1)
    else some last
  | _, _ => none

/-- Entries by their keys; those with the same key stay in their order. -/
def sort (key : α → κ) (table : List α) : List α := table.mergeSort fun a b => key a ≤ key b

variable {key : α → κ} {table : List α} {x : κ} {m : Nat} {entry : α}

theorem key_le_of_sorted (hsorted : table.Pairwise fun a b => key a ≤ key b) {i j : Nat} {a b : α} (hij : i ≤ j)
    (ha : table[i]? = some a) (hb : table[j]? = some b) : key a ≤ key b := by
  rcases Nat.lt_or_eq_of_le hij with hlt | rfl
  · obtain ⟨hi, rfl⟩ := List.getElem?_eq_some_iff.1 ha
    obtain ⟨hj, rfl⟩ := List.getElem?_eq_some_iff.1 hb
    exact List.pairwise_iff_getElem.1 hsorted i j hi hj hlt
  · rw [ha] at hb
    obtain rfl := Option.some.inj hb
    exact le_refl _

/-- Between two indices the loop finds the last entry that is not behind what is looked for. -/
theorem searchLoop_eq (hsorted : table.Pairwise fun a b => key a ≤ key b) (hentry : table[m]? = some entry)
    (hle : key entry ≤ x) (hbehind : ∀ n next, m < n → table[n]? = some next → x < key next) {lo hi : Nat} (hlo : lo ≤ m)
    (hhi : m < hi) (hlength : hi < table.length) : searchLoop key table x lo hi = some entry := by
  induction hn : hi - lo using Nat.strongRecOn generalizing lo hi with
  | ind n ih =>
    obtain ⟨middle, hmiddle⟩ : ∃ middle, table[(lo + hi) / 2]? = some middle :=
      ⟨_, List.getElem?_eq_getElem (by omega)⟩
    obtain ⟨next, hnext⟩ : ∃ next, table[(lo + hi) / 2 + 1]? = some next := ⟨_, List.getElem?_eq_getElem (by omega)⟩
    rw [searchLoop, if_pos (Nat.lt_of_le_of_lt hlo hhi), hmiddle, hnext]
    dsimp only
    by_cases hfront : x < key middle
    · rw [if_pos hfront]
      have hm : m < (lo + hi) / 2 := by
        by_contra hm
        have hkey := key_le_of_sorted hsorted (Nat.le_of_not_lt hm) hmiddle hentry
        exact absurd (lt_of_lt_of_le hfront hkey) (not_lt_of_ge hle)
      exact ih _ (by omega) hlo hm (by omega) rfl
    · rw [if_neg hfront]
      by_cases hback : key next ≤ x
      · rw [if_pos hback]
        have hm : (lo + hi) / 2 + 1 ≤ m := by
          by_contra hm
          exact absurd (hbehind _ next (Nat.lt_of_not_le hm) hnext) (not_lt_of_ge hback)
        exact ih _ (by omega) hm hhi hlength rfl
      · -- the entry in the middle is it: none in front of it, and none behind
        rw [if_neg hback]
        have hm : m = (lo + hi) / 2 := by
          rcases Nat.lt_trichotomy m ((lo + hi) / 2) with hlt | heq | hgt
          · exact absurd (hbehind _ middle hlt hmiddle) hfront
          · exact heq
          · exact absurd (le_trans (key_le_of_sorted hsorted hgt hnext hentry) hle) hback
        rw [← hentry, hm, hmiddle]

/-- A binary search ends on the last entry that is not behind what is looked for. -/
theorem search_eq (hsorted : table.Pairwise fun a b => key a ≤ key b) (hentry : table[m]? = some entry)
    (hle : key entry ≤ x) (hbehind : ∀ n next, m < n → table[n]? = some next → x < key next) :
    search key table x = some entry := by
  obtain ⟨hm, -⟩ := List.getElem?_eq_some_iff.1 hentry
  obtain ⟨first, hfirst⟩ : ∃ first, table[0]? = some first := ⟨_, List.getElem?_eq_getElem (Nat.zero_lt_of_lt hm)⟩
  obtain ⟨last, hlast⟩ : ∃ last, table[table.length - 1]? = some last :=
    ⟨_, List.getElem?_eq_getElem (Nat.sub_one_lt_of_lt hm)⟩
  unfold search
  rw [List.head?_eq_getElem?, hfirst, List.getLast?_eq_getElem?, hlast]
  dsimp only
  rw [if_neg (not_lt_of_ge (le_trans (key_le_of_sorted hsorted (Nat.zero_le m) hfirst hentry) hle))]
  by_cases hinside : x < key last
  · rw [if_pos hinside]
    have hne : m ≠ table.length - 1 := by
      rintro rfl
      rw [hlast] at hentry
      obtain rfl := Option.some.inj hentry
      exact absurd hinside (not_lt_of_ge hle)
    exact searchLoop_eq hsorted hentry hle hbehind (Nat.zero_le m) (by omega) (by omega)
  · rw [if_neg hinside]
    have hmlast : m = table.length - 1 := by
      rcases Nat.lt_or_ge m (table.length - 1) with hlt | hge
      · exact absurd (hbehind _ last hlt hlast) hinside
      · omega
    rw [← hlast, ← hmlast, hentry]

variable (key table)

theorem le_trans_key (a b c : α) (hab : decide (key a ≤ key b) = true) (hbc : decide (key b ≤ key c) = true) :
    decide (key a ≤ key c) = true :=
  decide_eq_true (le_trans (of_decide_eq_true hab) (of_decide_eq_true hbc))

theorem le_total_key (a b : α) : (decide (key a ≤ key b) || decide (key b ≤ key a)) = true := by
  simpa using le_total (key a) (key b)

theorem sorted_sort : (sort key table).Pairwise fun a b => key a ≤ key b :=
  (List.pairwise_mergeSort (le_trans_key key) (le_total_key key) table).imp fun h => of_decide_eq_true h

theorem perm_sort : (sort key table).Perm table := List.mergeSort_perm _ _

/-- Entries with the same key stay in their order. -/
theorem filter_sort (k : κ) :
    (sort key table).filter (fun e => decide (key e = k)) = table.filter fun e => decide (key e = k) := by
  have hequal : (table.filter fun e => decide (key e = k)).Pairwise fun a b => decide (key a ≤ key b) = true := by
    apply List.pairwise_of_forall_mem_list
    intro a ha b hb
    have hka := of_decide_eq_true (List.mem_filter.1 ha).2
    have hkb := of_decide_eq_true (List.mem_filter.1 hb).2
    exact decide_eq_true (le_of_eq (hka.trans hkb.symm))
  have hsub := (List.sublist_mergeSort (le_trans_key key) (le_total_key key) hequal List.filter_sublist).filter
    fun e => decide (key e = k)
  rw [List.filter_filter] at hsub
  simp only [Bool.and_self] at hsub
  exact (hsub.eq_of_length ((perm_sort key table).filter _).length_eq.symm).symm

variable {key table}

/-- Only the last entry of a list that passes counts for the last one that passes. -/
theorem getLast?_filter {p : α → Bool} {i : Nat} (hentry : table[i]? = some entry) (hp : p entry = true)
    (hbehind : ∀ j next, i < j → table[j]? = some next → p next = false) : (table.filter p).getLast? = some entry := by
  obtain ⟨hi, hget⟩ := List.getElem?_eq_some_iff.1 hentry
  have hsplit : table = table.take i ++ entry :: table.drop (i + 1) := by
    rw [← hget, ← List.drop_eq_getElem_cons hi, List.take_append_drop]
  have hdrop : (table.drop (i + 1)).filter p = [] := by
    apply List.filter_eq_nil_iff.2
    intro next hnext
    obtain ⟨j, hj⟩ := List.mem_iff_getElem?.1 hnext
    rw [List.getElem?_drop] at hj
    rw [hbehind (i + 1 + j) next (by omega) hj]
    exact Bool.false_ne_true
  rw [hsplit, List.filter_append, List.filter_cons, if_pos hp, hdrop, List.getLast?_append]
  rfl

/-- **A search of the sorted table ends on the entry with the greatest key that is not behind what is looked for, and among
these on the one that was entered last.** -/
theorem search_sort {i : Nat} (hentry : table[i]? = some entry) (hle : key entry ≤ x)
    (hmax : ∀ j other, table[j]? = some other → key other ≤ x → key other < key entry ∨ key other = key entry ∧ j ≤ i) :
    search key (sort key table) x = some entry := by
  have hsorted := sorted_sort key table
  have hperm := perm_sort key table
  classical
  -- the last entry of the sorted table that is not behind what is looked for
  obtain ⟨p, hp⟩ := List.mem_iff_getElem?.1 (hperm.mem_iff.2 (List.mem_of_getElem? hentry))
  have hlength : p ≤ (sort key table).length := by
    obtain ⟨hlt, -⟩ := List.getElem?_eq_some_iff.1 hp
    exact Nat.le_of_lt hlt
  obtain ⟨found, hfound, hfoundle⟩ := Nat.findGreatest_spec
    (P := fun m => ∃ found, (sort key table)[m]? = some found ∧ key found ≤ x) hlength ⟨entry, hp, hle⟩
  have hlast : ∀ n next, Nat.findGreatest (fun m => ∃ found, (sort key table)[m]? = some found ∧ key found ≤ x)
      (sort key table).length < n → (sort key table)[n]? = some next → x < key next := by
    intro n next hn hnext
    by_contra hnot
    obtain ⟨hlt, -⟩ := List.getElem?_eq_some_iff.1 hnext
    exact Nat.findGreatest_is_greatest hn (Nat.le_of_lt hlt) ⟨next, hnext, le_of_not_gt hnot⟩
  -- it has the key of the entry, and is the last one that has
  have hkey : key found = key entry := by
    apply le_antisymm
    · obtain ⟨j, hj⟩ := List.mem_iff_getElem?.1 (hperm.mem_iff.1 (List.mem_of_getElem? hfound))
      rcases hmax j found hj hfoundle with hlt | ⟨heq, -⟩
      · exact le_of_lt hlt
      · exact le_of_eq heq
    · exact key_le_of_sorted hsorted (Nat.le_findGreatest hlength ⟨entry, hp, hle⟩) hp hfound
  have hsame : found = entry := by
    have hsortedLast := getLast?_filter hfound (p := fun e => decide (key e = key entry)) (decide_eq_true hkey)
      fun j next hj hnext => decide_eq_false fun heq =>
        absurd (hlast j next hj hnext) (not_lt_of_ge (le_trans (le_of_eq heq) hle))
    have hentryLast := getLast?_filter hentry (p := fun e => decide (key e = key entry)) (decide_eq_true rfl)
      fun j next hj hnext => decide_eq_false fun heq => by
        rcases hmax j next hnext (le_trans (le_of_eq heq) hle) with hlt | ⟨-, hji⟩
        · exact absurd heq (ne_of_lt hlt)
        · exact absurd hj (Nat.not_lt_of_le hji)
    rw [filter_sort, hentryLast] at hsortedLast
    exact (Option.some.inj hsortedLast).symm
  rw [← hsame]
  exact search_eq hsorted hfound hfoundle hlast

/-- A search for a key that is in the table ends on the last entry that was entered with it. -/
theorem search_sort_of_key_eq {j : Nat} (hentry : table[j]? = some entry) (hkey : key entry = x) :
    ∃ i found, j ≤ i ∧ table[i]? = some found ∧ key found = x ∧ search key (sort key table) x = some found := by
  classical
  have hlength : j ≤ table.length := by
    obtain ⟨hlt, -⟩ := List.getElem?_eq_some_iff.1 hentry
    exact Nat.le_of_lt hlt
  obtain ⟨found, hfound, hfoundkey⟩ := Nat.findGreatest_spec
    (P := fun i => ∃ found, table[i]? = some found ∧ key found = x) hlength ⟨entry, hentry, hkey⟩
  refine ⟨_, found, Nat.le_findGreatest hlength ⟨entry, hentry, hkey⟩, hfound, hfoundkey, ?_⟩
  apply search_sort hfound (le_of_eq hfoundkey)
  intro n other hother hle
  rcases lt_or_eq_of_le hle with hlt | heq
  · exact Or.inl (lt_of_lt_of_eq hlt hfoundkey.symm)
  · obtain ⟨hn, -⟩ := List.getElem?_eq_some_iff.1 hother
    exact Or.inr ⟨heq.trans hfoundkey.symm, Nat.le_findGreatest (Nat.le_of_lt hn) ⟨other, hother, heq⟩⟩

end SortedTable
