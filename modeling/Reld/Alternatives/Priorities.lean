import Reld.Alternatives.Orders

/-!
# `Alternatives.Priorities` — the priorities of the definitions of a name

`select_symbol` fills the three slots of a `SymbolPrioritySelector` in one pass and compares each strong definition
with the first one only. `Slots` says what the slots hold after any list of definitions, and from it follow the
definition that is selected (`preferredDefinition`) and when the pass reports duplicate symbols.
-/

namespace Reld

variable (db : SymbolDb) (flags : PerSymbolFlags) (r : Resolver)

/-- The size of a common symbol that is not dynamic. -/
def commonSize (id : SymbolId) : Option Nat :=
  match (flags id).contains .dynamic, symbolStrength db r id with
  | false, .common size => some size
  | _, _ => none

/-- Whether a definition is not dynamic and weak or unique. -/
def isWeakDefinition (id : SymbolId) : Bool :=
  !(flags id).contains .dynamic &&
    decide (symbolStrength db r id = .weak ∨ symbolStrength db r id = .gnuUnique)

/-- Whether a definition is in a shared object that is loaded. -/
def isDynamicDefinition (id : SymbolId) : Bool :=
  (flags id).contains .dynamic && decide (symbolStrength db r id ≠ .undefined)

/-- The first of the largest common symbols. -/
def largestCommon (l : List SymbolId) : Option SymbolId :=
  (l.filter fun id => (commonSize db flags r id).isSome).argmax fun id => (commonSize db flags r id).getD 0

/-- The definition to prefer: the first strong one, else the largest common one, else the first weak or unique one,
    else the first dynamic one. -/
def preferredDefinition (l : List SymbolId) : Option SymbolId :=
  (l.find? (isStrongDefinition db flags r)).or
    ((largestCommon db flags r l).or
      ((l.find? (isWeakDefinition db flags r)).or (l.find? (isDynamicDefinition db flags r))))

/-- Both in COMDAT groups. -/
abbrev BothComdat (a b : SymbolId) : Prop := isInComdatGroup db r a = true ∧ isInComdatGroup db r b = true

/-- Two strong definitions that are not both in COMDAT groups. -/
def Clash (a b : SymbolId) : Prop :=
  isStrongDefinition db flags r a = true ∧ isStrongDefinition db flags r b = true ∧ ¬BothComdat db r a b

variable {db flags r}

/-! ## The slots -/

/-- What the slots hold after the definitions `l`. -/
structure Slots (db : SymbolDb) (flags : PerSymbolFlags) (r : Resolver) (l : List SymbolId)
    (s : SymbolPrioritySelector) : Prop where
  strong : s.firstStrong = l.find? (isStrongDefinition db flags r)
  common : s.maxCommon.map Prod.snd = largestCommon db flags r l
  size : ∀ p, s.maxCommon = some p → commonSize db flags r p.2 = some p.1
  weak : s.firstWeak = l.find? (isWeakDefinition db flags r)

theorem slots_new : Slots db flags r [] .new :=
  ⟨rfl, rfl, fun p h => absurd h (by simp [SymbolPrioritySelector.new]), rfl⟩

variable {l : List SymbolId} {id : SymbolId}

theorem find?_concat {p : SymbolId → Bool} :
    (l ++ [id]).find? p = (l.find? p).or (if p id then some id else none) := by
  cases hp : p id <;> simp [hp]

/-- A definition that is no common symbol does not change the largest one. -/
theorem largestCommon_concat_of_none (h : commonSize db flags r id = none) :
    largestCommon db flags r (l ++ [id]) = largestCommon db flags r l := by
  unfold largestCommon
  rw [List.filter_append, List.filter_singleton, h]
  simp

theorem largestCommon_concat_of_some {size : Nat} (h : commonSize db flags r id = some size) :
    largestCommon db flags r (l ++ [id])
      = match largestCommon db flags r l with
        | none => some id
        | some c => if (commonSize db flags r c).getD 0 < size then some id else some c := by
  unfold largestCommon
  rw [List.filter_append, List.filter_singleton, h]
  simp only [Option.isSome_some, cond_true, List.argmax_concat, h, Option.getD_some]
  cases (l.filter fun id => (commonSize db flags r id).isSome).argmax
    (fun id => (commonSize db flags r id).getD 0) <;> rfl

variable {s : SymbolPrioritySelector}

/-- Definitions that are dynamic or do not count leave the slots as they are. -/
theorem Slots.skip (h : Slots db flags r l s) (hid : isCandidate db flags r id = false) :
    Slots db flags r (l ++ [id]) s := by
  have hcases : (flags id).contains .dynamic = true ∨ symbolStrength db r id = .undefined := by
    unfold isCandidate at hid
    by_contra hnot
    push Not at hnot
    simp [hnot.1, hnot.2] at hid
  have hstrong : isStrongDefinition db flags r id = false := by
    rcases hcases with hc | hc <;> simp [isStrongDefinition, hc]
  have hcommon : commonSize db flags r id = none := by
    rcases hcases with hc | hc
    · simp [commonSize, hc]
    · cases hdyn : (flags id).contains .dynamic <;> simp [commonSize, hc, hdyn]
  have hweak : isWeakDefinition db flags r id = false := by
    rcases hcases with hc | hc <;> simp [isWeakDefinition, hc]
  refine ⟨?_, ?_, h.size, ?_⟩
  · rw [h.strong, find?_concat, hstrong]
    simp
  · rw [h.common, largestCommon_concat_of_none hcommon]
  · rw [h.weak, find?_concat, hweak]
    simp

/-- One more definition. The cases are its strength, each of which is for one of the slots. -/
theorem Slots.consider (h : Slots db flags r l s) (hid : isCandidate db flags r id = true) :
    Slots db flags r (l ++ [id]) (s.consider id (symbolStrength db r id)) := by
  have hdyn : (flags id).contains .dynamic = false := by
    simpa using (Bool.and_eq_true_iff.mp hid).1
  obtain ⟨firstStrong, maxCommon, firstWeak⟩ := s
  obtain ⟨hstrong, hcommon, hsize, hweak⟩ := h
  cases hs : symbolStrength db r id with
  | undefined => exact absurd hid (by simp [isCandidate, hs])
  | strong =>
    have hnone : commonSize db flags r id = none := by simp [commonSize, hs]
    refine ⟨?_, ?_, ?_, ?_⟩
    · rw [find?_concat, ← hstrong]
      cases firstStrong <;> simp [SymbolPrioritySelector.consider, isStrongDefinition, hdyn, hs]
    · rw [largestCommon_concat_of_none hnone, ← hcommon]
      cases firstStrong <;> rfl
    · cases firstStrong <;> exact hsize
    · rw [find?_concat, ← hweak]
      cases firstStrong <;> simp [SymbolPrioritySelector.consider, isWeakDefinition, hs]
  | common size =>
    have hsome : commonSize db flags r id = some size := by simp [commonSize, hdyn, hs]
    have hfirst : firstStrong = (l ++ [id]).find? (isStrongDefinition db flags r) := by
      rw [find?_concat, ← hstrong]
      simp [isStrongDefinition, hs]
    have hlast : firstWeak = (l ++ [id]).find? (isWeakDefinition db flags r) := by
      rw [find?_concat, ← hweak]
      simp [isWeakDefinition, hs]
    have hmax := @largestCommon_concat_of_some _ _ _ l _ _ hsome
    rw [← hcommon] at hmax
    cases maxCommon with
    | none => exact ⟨hfirst, hmax.symm, fun p hp => Option.some.inj hp ▸ hsome, hlast⟩
    | some p =>
      have hp := hsize p rfl
      simp only [Option.map_some, hp, Option.getD_some] at hmax
      by_cases hle : size ≤ p.1
      · -- the first of two equal sizes stays
        rw [if_neg (Nat.not_lt_of_le hle)] at hmax
        simp only [SymbolPrioritySelector.consider, hle, if_true]
        exact ⟨hfirst, hmax.symm, hsize, hlast⟩
      · rw [if_pos (Nat.lt_of_not_le hle)] at hmax
        simp only [SymbolPrioritySelector.consider, hle, if_false]
        exact ⟨hfirst, hmax.symm, fun q hq => Option.some.inj hq ▸ hsome, hlast⟩
  | _ =>
    have hnone : commonSize db flags r id = none := by simp [commonSize, hs]
    refine ⟨?_, ?_, ?_, ?_⟩
    · rw [find?_concat, ← hstrong]
      cases firstWeak <;> simp [SymbolPrioritySelector.consider, isStrongDefinition, hs]
    · rw [largestCommon_concat_of_none hnone, ← hcommon]
      cases firstWeak <;> rfl
    · cases firstWeak <;> exact hsize
    · rw [find?_concat, ← hweak]
      cases firstWeak <;> simp [SymbolPrioritySelector.consider, isWeakDefinition, hdyn, hs]

/-- The pass fills the slots. -/
theorem slots_foldlM (h : l.foldlM (considerNonDynamic db flags r) .new = .ok s) : Slots db flags r l s := by
  refine Traverse.foldlM_ok_induct [] (fun done id s s' _ hs hid => ?_) slots_new h
  rcases considerNonDynamic_ok hid with ⟨hcand, rfl⟩ | ⟨hcand, rfl⟩
  · exact hs.skip hcand
  · exact hs.consider hcand

/-- If no slot is filled, the definitions that count are the dynamic ones. -/
theorem Slots.undefined_of_none (h : Slots db flags r l s) (hbest : s.best = none) (hid : id ∈ l)
    (hdyn : (flags id).contains .dynamic = false) :
    symbolStrength db r id = .undefined := by
  obtain ⟨firstStrong, maxCommon, firstWeak⟩ := s
  obtain ⟨hstrong, hcommon, _, hweak⟩ := h
  obtain ⟨rfl, rfl, rfl⟩ : firstStrong = none ∧ maxCommon = none ∧ firstWeak = none := by
    cases firstStrong <;> cases maxCommon <;> cases firstWeak <;>
      simp [SymbolPrioritySelector.best] at hbest ⊢
  have hnotStrong := List.find?_eq_none.mp hstrong.symm id hid
  have hnotWeak := List.find?_eq_none.mp hweak.symm id hid
  have hnotCommon := List.filter_eq_nil_iff.mp (List.argmax_eq_none.mp hcommon.symm) id hid
  cases hs : symbolStrength db r id with
  | undefined => rfl
  | strong => simp [isStrongDefinition, hdyn, hs] at hnotStrong
  | common size => simp [commonSize, hdyn, hs] at hnotCommon
  | _ => simp [isWeakDefinition, hdyn, hs] at hnotWeak

/-! ## Duplicates -/

/-- The pass reports duplicates if some two of the strong definitions, the one that it knows already included, are
    not both in COMDAT groups. It looks at the pairs with the first one only: if a later definition is in a COMDAT
    group together with the first one, it clashes with whatever the first one clashes with. -/
theorem foldlM_error_iff : ∀ {s : SymbolPrioritySelector},
    l.foldlM (considerNonDynamic db flags r) s = .error .duplicateSymbols ↔
      db.args.allowMultipleDefinitions = false ∧
        ¬(s.firstStrong.toList ++ l.filter (isStrongDefinition db flags r)).Pairwise (BothComdat db r) := by
  induction l with
  | nil =>
    intro s
    refine iff_of_false (fun h => by cases h) ?_
    rintro ⟨_, h⟩
    exact h (by cases s.firstStrong <;> simp)
  | cons id l ih =>
    intro s
    cases hstrong : isStrongDefinition db flags r id with
    | false =>
      -- the definition is left out, or for one of the other slots
      have hstep : ∃ s', considerNonDynamic db flags r s id = .ok s' ∧ s'.firstStrong = s.firstStrong := by
        unfold considerNonDynamic
        cases hdyn : (flags id).contains .dynamic with
        | true => exact ⟨s, rfl, rfl⟩
        | false =>
          cases hs : symbolStrength db r id with
          | strong => simp [isStrongDefinition, hdyn, hs] at hstrong
          | undefined => exact ⟨_, rfl, rfl⟩
          | common size =>
            refine ⟨_, rfl, ?_⟩
            simp only [SymbolPrioritySelector.consider]
            split
            · split_ifs <;> rfl
            · rfl
          | _ => exact ⟨_, rfl, by simp only [SymbolPrioritySelector.consider]; split_ifs <;> rfl⟩
      obtain ⟨s', hs', hfirst⟩ := hstep
      rw [List.foldlM_cons, hs', List.filter_cons_of_neg (by simp [hstrong]), ← hfirst]
      exact ih
    | true =>
      have hdyn : (flags id).contains .dynamic = false := by
        simpa using (Bool.and_eq_true_iff.mp hstrong).1
      have hs : symbolStrength db r id = .strong := by
        simpa using (Bool.and_eq_true_iff.mp hstrong).2
      rw [List.foldlM_cons, List.filter_cons_of_pos hstrong]
      cases hfirst : s.firstStrong with
      | none =>
        have hstep : considerNonDynamic db flags r s id = .ok { s with firstStrong := some id } := by
          simp [considerNonDynamic, hdyn, hs, hfirst, SymbolPrioritySelector.consider]
        rw [hstep]
        exact ih
      | some existing =>
        have hkeep : s.consider id .strong = s := by simp [SymbolPrioritySelector.consider, hfirst]
        by_cases hclash : ((!isInComdatGroup db r existing || !isInComdatGroup db r id) &&
            !db.args.allowMultipleDefinitions) = true
        · have hstep : considerNonDynamic db flags r s id = .error .duplicateSymbols := by
            simp [considerNonDynamic, hdyn, hs, hfirst, hclash]
          rw [hstep]
          obtain ⟨hnot, hallow⟩ := Bool.and_eq_true_iff.mp hclash
          refine iff_of_true rfl ⟨by simpa using hallow, fun hpairs => ?_⟩
          have hboth := (List.pairwise_cons.mp hpairs).1 id List.mem_cons_self
          simp [hboth.1, hboth.2] at hnot
        · have hstep : considerNonDynamic db flags r s id = .ok s := by
            simp [considerNonDynamic, hdyn, hs, hfirst, hclash, hkeep]
          rw [hstep]
          refine ih.trans (and_congr_right fun hallow => not_congr ?_)
          rw [hfirst]
          have hboth : BothComdat db r existing id := by simpa [hallow] using hclash
          -- the new one clashes with nothing that the first one does not clash with
          have hsame : ∀ b ∈ l.filter (isStrongDefinition db flags r),
              BothComdat db r existing b → BothComdat db r id b := fun b _ h => ⟨hboth.2, h.2⟩
          simp only [Option.toList_some, List.singleton_append, List.pairwise_cons, List.forall_mem_cons]
          constructor
          · rintro ⟨hall, hrest⟩
            exact ⟨⟨hboth, hall⟩, fun b hb => hsame b hb (hall b hb), hrest⟩
          · rintro ⟨⟨_, hall⟩, _, hrest⟩
            exact ⟨hall, hrest⟩

/-! ## The selected definition -/

/-- The pass reports nothing but duplicate symbols. -/
theorem foldlM_error {e : LinkError} : ∀ {s : SymbolPrioritySelector},
    l.foldlM (considerNonDynamic db flags r) s = .error e → e = .duplicateSymbols := by
  induction l with
  | nil => exact fun h => by cases h
  | cons id l ih =>
    intro s h
    rw [List.foldlM_cons] at h
    cases hid : considerNonDynamic db flags r s id with
    | ok s' => exact ih (hid ▸ h)
    | error e' =>
      obtain rfl : e' = e := by
        rw [hid] at h
        exact Except.error.inj h
      unfold considerNonDynamic at hid
      split_ifs at hid
      split at hid
      · split_ifs at hid
        exact (Except.error.inj hid).symm
      · cases hid

/-- **What `select_symbol` does**: it reports duplicate symbols exactly if two strong definitions clash and multiple
    definitions are not allowed, and selects the preferred definition otherwise. The first definition of all is what
    is left if no file that defines the name is loaded. -/
theorem selectSymbol_preferred (db : SymbolDb) (flags : PerSymbolFlags) (r : Resolver) (firstId : SymbolId)
    (alternatives : List SymbolId) :
    (selectSymbol db flags r firstId alternatives = .error .duplicateSymbols ↔
      db.args.allowMultipleDefinitions = false ∧
        ∃ a b, [a, b].Sublist (firstId :: alternatives) ∧ Clash db flags r a b) ∧
    (selectSymbol db flags r firstId alternatives ≠ .error .duplicateSymbols →
      selectSymbol db flags r firstId alternatives
        = .ok ((preferredDefinition db flags r (firstId :: alternatives)).getD firstId)) := by
  have hpairs : (∃ a b, [a, b].Sublist (firstId :: alternatives) ∧ Clash db flags r a b) ↔
      ¬((firstId :: alternatives).filter (isStrongDefinition db flags r)).Pairwise (BothComdat db r) := by
    rw [List.pairwise_filter, List.pairwise_iff_forall_sublist]
    unfold Clash
    simp [not_forall]
  have herror := @foldlM_error_iff db flags r (firstId :: alternatives) .new
  unfold selectSymbol
  rw [hpairs]
  generalize firstId :: alternatives = l at herror ⊢
  cases hfold : l.foldlM (considerNonDynamic db flags r) .new with
  | error e =>
    obtain rfl := foldlM_error hfold
    exact ⟨iff_of_true rfl (herror.mp hfold), fun h => absurd rfl h⟩
  | ok s =>
    have hslots := slots_foldlM hfold
    have hnot : ¬l.foldlM (considerNonDynamic db flags r) .new = .error .duplicateSymbols := by simp [hfold]
    have hpreferred : preferredDefinition db flags r l = s.best.or (l.find? (isDynamicDefinition db flags r)) := by
      unfold preferredDefinition SymbolPrioritySelector.best
      rw [← hslots.strong, ← hslots.common, ← hslots.weak, Option.or_assoc, Option.or_assoc]
    refine ⟨iff_of_false ?_ (fun h => hnot (herror.mpr h)), fun _ => ?_⟩
    · simp only [bind, Except.bind]
      cases s.best <;> cases l.find? (fun alt => symbolStrength db r alt ≠ .undefined) <;> exact fun h => by cases h
    · rw [hpreferred]
      simp only [bind, Except.bind]
      cases hbest : s.best with
      | some best => rfl
      | none =>
        -- what counts is dynamic
        have hfind : l.find? (fun alt => symbolStrength db r alt ≠ .undefined)
            = l.find? (isDynamicDefinition db flags r) := by
          rw [← List.head?_filter, ← List.head?_filter]
          congr 1
          refine List.filter_congr fun id hid => ?_
          unfold isDynamicDefinition
          cases hdyn : (flags id).contains .dynamic with
          | true => rfl
          | false => simp [hslots.undefined_of_none hbest hid hdyn]
        rw [hfind]
        cases l.find? (isDynamicDefinition db flags r) <;> rfl

end Reld
