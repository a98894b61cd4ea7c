import Reld.Db.Batches

/-!
# `Db.Get` — lookups that leave shared objects out

A reference of hidden visibility must not bind to a shared object, so `get` with `allow_dynamic = false`
passes over a first definition that is dynamic and asks `get_non_dynamic` for another one. What it should
find are the definers of its own key (`SymbolDb.AnswersNonDynamic`). `get_non_dynamic` always consults the
lists of the unversioned names, also where the key has a version, and it leaves out symbols without a
strength. `answersNonDynamic_iff` says when the answer is right all the same.
-/

namespace Reld

/-! ## The best of some candidates -/

section Preferred

variable (strength : SymbolId → SymbolStrength)

def isStrongSymbol (id : SymbolId) : Bool := strength id = .strong

def isWeakSymbol (id : SymbolId) : Bool := strength id = .weak || strength id = .gnuUnique

/-- The common symbols of a list with their sizes. -/
def commonSymbols (l : List SymbolId) : List (Nat × SymbolId) :=
  l.filterMap fun id =>
    match strength id with
    | .common size => some (size, id)
    | _ => none

/-- The first strong symbol, else the first of the largest common ones, else the first weak one. -/
def preferred (l : List SymbolId) : Option SymbolId :=
  ((l.find? (isStrongSymbol strength)).or (((commonSymbols strength l).argmax Prod.fst).map Prod.snd)).or
    (l.find? (isWeakSymbol strength))

variable {strength}

/-- What the selector holds after the candidates `l`. -/
structure SymbolPrioritySelector.Filled (strength : SymbolId → SymbolStrength) (l : List SymbolId)
    (s : SymbolPrioritySelector) : Prop where
  strong : s.firstStrong = l.find? (isStrongSymbol strength)
  common : s.maxCommon = (commonSymbols strength l).argmax Prod.fst
  weak : s.firstWeak = l.find? (isWeakSymbol strength)

variable {l : List SymbolId} {s : SymbolPrioritySelector}

theorem SymbolPrioritySelector.Filled.best (h : s.Filled strength l) : s.best = preferred strength l := by
  unfold SymbolPrioritySelector.best preferred
  rw [h.strong, h.common, h.weak]

/-- One more candidate. The cases are its strength, which decides the slot that may change. -/
theorem SymbolPrioritySelector.Filled.consider (h : s.Filled strength l) (id : SymbolId) :
    (s.consider id (strength id)).Filled strength (l ++ [id]) := by
  obtain ⟨hstrong, hcommon, hweak⟩ := h
  -- a candidate that a slot is not for leaves it alone
  have hnotStrong : strength id ≠ .strong →
      (l ++ [id]).find? (isStrongSymbol strength) = l.find? (isStrongSymbol strength) := by
    intro hne
    simp [isStrongSymbol, hne]
  have hnotWeak : strength id ≠ .weak → strength id ≠ .gnuUnique →
      (l ++ [id]).find? (isWeakSymbol strength) = l.find? (isWeakSymbol strength) := by
    intro hne hne'
    simp [isWeakSymbol, hne, hne']
  have hnotCommon : (∀ size, strength id ≠ .common size) →
      commonSymbols strength (l ++ [id]) = commonSymbols strength l := by
    intro hne
    unfold commonSymbols
    cases hs : strength id with
    | common size => exact absurd hs (hne size)
    | _ => simp [hs]
  have hfirst : ∀ p : SymbolId → Bool, p id = true →
      (if (l.find? p).isNone then some id else l.find? p) = (l ++ [id]).find? p := by
    intro p hp
    rw [List.find?_append]
    cases l.find? p with
    | none => simp [hp]
    | some c => rfl
  cases hs : strength id with
  | strong =>
    refine ⟨?_, ?_, ?_⟩
    · rw [← hfirst _ (by simp [isStrongSymbol, hs]), ← hstrong]
      simp only [SymbolPrioritySelector.consider]
      split_ifs <;> rfl
    · rw [hnotCommon (by simp [hs]), ← hcommon]
      simp only [SymbolPrioritySelector.consider]
      split_ifs <;> rfl
    · rw [hnotWeak (by simp [hs]) (by simp [hs]), ← hweak]
      simp only [SymbolPrioritySelector.consider]
      split_ifs <;> rfl
  | common size =>
    have hcommons : commonSymbols strength (l ++ [id]) = commonSymbols strength l ++ [(size, id)] := by
      simp [commonSymbols, hs]
    refine ⟨?_, ?_, ?_⟩
    · rw [hnotStrong (by simp [hs]), ← hstrong]
      simp only [SymbolPrioritySelector.consider]
      split
      · split_ifs <;> rfl
      · rfl
    · rw [hcommons, List.argmax_concat, ← hcommon]
      simp only [SymbolPrioritySelector.consider]
      cases hmax : s.maxCommon with
      | none => rfl
      | some p =>
        -- only a larger one takes the place of the largest so far
        by_cases hle : size ≤ p.1
        · simp [hle, Nat.not_lt.mpr hle, hmax]
        · simp [hle, Nat.lt_of_not_le hle]
    · rw [hnotWeak (by simp [hs]) (by simp [hs]), ← hweak]
      simp only [SymbolPrioritySelector.consider]
      split
      · split_ifs <;> rfl
      · rfl
  | undefined =>
    refine ⟨?_, ?_, ?_⟩
    · rw [hnotStrong (by simp [hs])]
      exact hstrong
    · rw [hnotCommon (by simp [hs])]
      exact hcommon
    · rw [hnotWeak (by simp [hs]) (by simp [hs])]
      exact hweak
  | _ =>
    -- a weak or unique symbol
    refine ⟨?_, ?_, ?_⟩
    · rw [hnotStrong (by simp [hs]), ← hstrong]
      simp only [SymbolPrioritySelector.consider]
      split_ifs <;> rfl
    · rw [hnotCommon (by simp [hs]), ← hcommon]
      simp only [SymbolPrioritySelector.consider]
      split_ifs <;> rfl
    · rw [← hfirst _ (by simp [isWeakSymbol, hs]), ← hweak]
      simp only [SymbolPrioritySelector.consider]
      split_ifs <;> rfl

/-- A preferred symbol is one of the candidates, and has a strength. -/
theorem of_preferred {id : SymbolId} (h : preferred strength l = some id) :
    id ∈ l ∧ strength id ≠ .undefined := by
  rcases Option.or_eq_some_iff.mp h with h | ⟨_, h⟩
  · rcases Option.or_eq_some_iff.mp h with h | ⟨_, h⟩
    · have hstrong := List.find?_some h
      exact ⟨List.mem_of_find?_eq_some h, by simp [of_decide_eq_true hstrong]⟩
    · obtain ⟨p, hp, rfl⟩ := Option.map_eq_some_iff.mp h
      obtain ⟨i, hi, heq⟩ := List.mem_filterMap.mp (List.argmax_mem hp)
      cases hs : strength i <;> rw [hs] at heq <;> simp only [reduceCtorEq, Option.some.injEq] at heq
      rw [← heq]
      exact ⟨hi, by simp [hs]⟩
  · have hweak := List.find?_some h
    refine ⟨List.mem_of_find?_eq_some h, ?_⟩
    intro hs
    simp [isWeakSymbol, hs] at hweak

/-- A symbol is preferred as soon as one has a strength. -/
theorem preferred_isSome_iff :
    (preferred strength l).isSome = true ↔ ∃ id ∈ l, strength id ≠ .undefined := by
  have hcommon : ∀ id size, id ∈ l → strength id = .common size →
      (commonSymbols strength l).argmax Prod.fst ≠ none := by
    intro id size hid hs hnone
    have hmem : (size, id) ∈ commonSymbols strength l :=
      List.mem_filterMap.mpr ⟨id, hid, by rw [hs]⟩
    rw [List.argmax_eq_none.mp hnone] at hmem
    exact absurd hmem List.not_mem_nil
  constructor
  · intro h
    obtain ⟨id, hid⟩ := Option.isSome_iff_exists.mp h
    exact ⟨id, of_preferred hid⟩
  · rintro ⟨id, hid, hs⟩
    unfold preferred
    cases hstrength : strength id with
    | undefined => exact absurd hstrength hs
    | strong =>
      have hsome : (l.find? (isStrongSymbol strength)).isSome = true :=
        List.find?_isSome.mpr ⟨id, hid, by simp [isStrongSymbol, hstrength]⟩
      simp [hsome]
    | common size => simp [Option.isSome_iff_ne_none.mpr (hcommon id size hid hstrength)]
    | _ =>
      have hsome : (l.find? (isWeakSymbol strength)).isSome = true :=
        List.find?_isSome.mpr ⟨id, hid, by simp [isWeakSymbol, hstrength]⟩
      simp [hsome]

end Preferred

namespace SymbolDb

variable (db : SymbolDb)

/-- `SequencedInput::symbol_strength` of the file of a symbol. -/
def inputStrength (id : SymbolId) : SymbolStrength :=
  match db.locate id with
  | some ((_, f), index) => f.symbolStrength index
  | none => .undefined

/-- The symbols of a list that are not of shared objects or stub libraries. -/
def nonDynamic (l : List SymbolId) : List SymbolId := l.filter fun id => !db.isDynamicSymbol id

variable {db}

/-- **What `get_non_dynamic` selects.** -/
theorem selectNonDynamic_eq (candidates : List SymbolId) :
    db.selectNonDynamic candidates = preferred db.inputStrength (db.nonDynamic candidates) := by
  have hfold : ∀ (candidates l : List SymbolId) (s : SymbolPrioritySelector), s.Filled db.inputStrength l →
      (candidates.foldl (fun s alt =>
        match db.locate alt with
        | some ((_, f), index) => if f.isDynamic then s else s.consider alt (f.symbolStrength index)
        | none => s) s).Filled db.inputStrength (l ++ db.nonDynamic candidates) := by
    intro candidates
    induction candidates with
    | nil =>
      intro l s hs
      simpa [nonDynamic] using hs
    | cons alt candidates ih =>
      intro l s hs
      have hconsider := hs.consider alt
      rw [List.foldl_cons]
      unfold nonDynamic
      rw [List.filter_cons]
      unfold inputStrength at hconsider
      unfold isDynamicSymbol
      cases hloc : db.locate alt with
      | none =>
        -- no symbol at all, which counts for nothing
        rw [hloc] at hconsider
        have hnext := ih (l ++ [alt]) s hconsider
        simpa [nonDynamic, isDynamicSymbol] using hnext
      | some p =>
        obtain ⟨⟨fileId, f⟩, index⟩ := p
        rw [hloc] at hconsider
        cases hdyn : f.isDynamic with
        | true => simpa [nonDynamic, isDynamicSymbol, hdyn] using ih l s hs
        | false =>
          have hnext := ih (l ++ [alt]) _ hconsider
          simpa [nonDynamic, isDynamicSymbol, hdyn] using hnext
  have hfilled := hfold candidates [] .new ⟨rfl, rfl, rfl⟩
  exact hfilled.best

/-! ## What a lookup should find -/

variable (db)

/-- The first symbol that was inserted under a key is one of a shared object. -/
def FirstIsDynamic (key : PreHashedSymbolName) : Prop :=
  ∃ first, (db.definersOf key).head? = some first ∧ db.isDynamicSymbol first = true

/-- **The right answer**: a symbol of a file that is not dynamic, inserted under the key; behind a dynamic
    first symbol the preferred one of them; and nothing where there is none. -/
structure AnswersNonDynamic (key : PreHashedSymbolName) : Prop where
  found : db.nonDynamic (db.definersOf key) ≠ [] →
    ∃ id ∈ db.nonDynamic (db.definersOf key), db.get key false = some id ∧
      (db.FirstIsDynamic key → ∀ best,
        preferred db.inputStrength (db.nonDynamic (db.definersOf key)) = some best → id = best)
  missing : db.nonDynamic (db.definersOf key) = [] → db.get key false = none

/-- The other definers of the unversioned name of a symbol, where the symbol is the first of them and the
    name belongs to the bucket. -/
def unversionedOthers (b : Nat) (first : SymbolId) : List SymbolId :=
  match db.unversionedName first with
  | some name =>
    if db.nameBucket name = b ∧ (db.definers name).head? = some first then (db.definers name).tail else []
  | none => []

variable {db} {args : Args} {outputKind : OutputKind} {versionScript : Option VersionScript}
  {flags : PerSymbolFlags}

/-- **What `get_non_dynamic` goes through.** -/
theorem getNonDynamic_eq (h : Batched args outputKind versionScript db flags) (b : Nat) (first : SymbolId) :
    db.getNonDynamic (db.buckets b) first
      = preferred db.inputStrength (db.nonDynamic (db.unversionedOthers b first)) := by
  have hnil : preferred db.inputStrength (db.nonDynamic []) = none := rfl
  unfold getNonDynamic unversionedOthers
  cases hname : db.unversionedName first with
  | none =>
    rw [h.names_lookup_eq_none ?_ b]
    · exact hnil.symm
    · intro name xs hdefiners
      have hmem := mem_definers_iff.mp (hdefiners ▸ List.mem_cons_self : first ∈ db.definers name)
      rw [hname] at hmem
      exact absurd hmem (by simp)
  | some name =>
    cases hdefiners : db.definers name with
    | nil =>
      have hmem := mem_definers_iff.mpr hname
      rw [hdefiners] at hmem
      exact absurd hmem List.not_mem_nil
    | cons k xs =>
      by_cases hk : k = first
      · subst hk
        rw [h.names_lookup_eq hdefiners]
        by_cases hb : db.nameBucket name = b
        · cases xs with
          | nil => simp [hb, hdefiners, hnil]
          | cons x xs => simp [hb, hdefiners, selectNonDynamic_eq]
        · simp [hb, hnil]
      · -- not the first of its name, so that nothing is kept under it
        rw [h.names_lookup_eq_none ?_ b]
        · simp [hdefiners, hk, hnil]
        · intro name' xs' hdefiners'
          have hmem := mem_definers_iff.mp (hdefiners' ▸ List.mem_cons_self : first ∈ db.definers name')
          obtain rfl : name = name' := Option.some.inj (hname.symm.trans hmem)
          rw [hdefiners] at hdefiners'
          exact hk (List.cons.inj hdefiners').1

/-- **What `get` finds** behind a first symbol. -/
theorem get_false_eq (h : Batched args outputKind versionScript db flags) (key : PreHashedSymbolName) :
    db.get key false = (db.definersOf key).head?.bind fun first =>
      if db.isDynamicSymbol first then
        preferred db.inputStrength (db.nonDynamic (db.unversionedOthers (db.keyBucket key) first))
      else some first := by
  have hbind : db.get key false
      = (db.lookup key).bind (db.allowOrReplace (db.buckets (db.keyBucket key)) false) := by
    cases key <;> rfl
  rw [hbind, h.lookup_eq]
  refine Option.bind_congr ?_
  intro first _
  unfold allowOrReplace
  rw [Bool.not_false, Bool.true_and, getNonDynamic_eq h]

/-- For an unversioned key, what is consulted are its own other definers. -/
theorem unversionedOthers_eq {name : Bytes} {first : SymbolId} {others : List SymbolId}
    (hdefiners : db.definers name = first :: others) :
    db.unversionedOthers (db.keyBucket (.unversioned name)) first = others := by
  have hname : db.unversionedName first = some name :=
    mem_definers_iff.mp (hdefiners ▸ List.mem_cons_self)
  unfold unversionedOthers
  rw [hname]
  simp only [hdefiners, List.head?_cons, List.tail_cons]
  exact if_pos ⟨rfl, trivial⟩

/-! ## When it does -/

/-- The condition on the inputs: if the first symbol of the key is dynamic, then some definition outside of
    shared objects has a strength if there is one at all, and for a key with a version, the others of the
    first symbol's unversioned name that are in the bucket have the same best symbol as the key itself. -/
structure ConsultsOwnDefiners (db : SymbolDb) (key : PreHashedSymbolName) : Prop where
  strength : db.FirstIsDynamic key → ∀ id ∈ db.nonDynamic (db.definersOf key),
    ∃ id' ∈ db.nonDynamic (db.definersOf key), db.inputStrength id' ≠ .undefined
  versioned : key.isVersioned = true → ∀ first, (db.definersOf key).head? = some first →
    db.isDynamicSymbol first = true →
    preferred db.inputStrength (db.nonDynamic (db.unversionedOthers (db.keyBucket key) first))
      = preferred db.inputStrength (db.nonDynamic (db.definersOf key))

/-- **When a lookup without shared objects is right.** -/
theorem answersNonDynamic_iff (h : Batched args outputKind versionScript db flags)
    (key : PreHashedSymbolName) : db.AnswersNonDynamic key ↔ ConsultsOwnDefiners db key := by
  have hget := get_false_eq h key
  cases hdefiners : db.definersOf key with
  | nil =>
    -- no definer, no answer
    rw [hdefiners] at hget
    have hnone : db.nonDynamic (db.definersOf key) = [] := by
      rw [hdefiners]
      rfl
    refine iff_of_true ⟨fun hne => absurd hnone hne, fun _ => hget⟩ ⟨?_, ?_⟩
    · rintro ⟨first, hfirst, _⟩
      rw [hdefiners] at hfirst
      exact absurd hfirst (by simp)
    · intro _ first hfirst
      rw [hdefiners] at hfirst
      exact absurd hfirst (by simp)
  | cons first others =>
    have hhead : (db.definersOf key).head? = some first := by
      rw [hdefiners]
      rfl
    rw [hhead, Option.bind_some] at hget
    cases hdyn : db.isDynamicSymbol first with
    | false =>
      -- the first symbol is the answer
      rw [hdyn, if_neg Bool.false_ne_true] at hget
      have hmem : first ∈ db.nonDynamic (db.definersOf key) :=
        List.mem_filter.mpr ⟨hdefiners ▸ List.mem_cons_self, by simp [hdyn]⟩
      have hnot : ¬db.FirstIsDynamic key := by
        rintro ⟨k, hk, hkdyn⟩
        rw [hhead] at hk
        rw [← Option.some.inj hk, hdyn] at hkdyn
        exact absurd hkdyn Bool.false_ne_true
      refine iff_of_true ⟨fun _ => ⟨first, hmem, hget, fun hd => absurd hd hnot⟩, ?_⟩
        ⟨fun hd => absurd hd hnot, ?_⟩
      · intro hnil
        rw [hnil] at hmem
        exact absurd hmem List.not_mem_nil
      · intro _ k hk hkdyn
        exact absurd ⟨k, hk, hkdyn⟩ hnot
    | true =>
      have hdynamic : db.FirstIsDynamic key := ⟨first, hhead, hdyn⟩
      rw [hdyn, if_pos rfl] at hget
      -- what is consulted for an unversioned key is what should be
      have hplain : key.isVersioned = false →
          preferred db.inputStrength (db.nonDynamic (db.unversionedOthers (db.keyBucket key) first))
            = preferred db.inputStrength (db.nonDynamic (db.definersOf key)) := by
        intro hv
        cases key with
        | versioned name version => exact absurd hv (by simp [PreHashedSymbolName.isVersioned])
        | unversioned name =>
          rw [unversionedOthers_eq hdefiners, hdefiners]
          unfold nonDynamic
          rw [List.filter_cons_of_neg (by simp [hdyn])]
      constructor
      · intro hanswers
        have hstrength : ∀ id ∈ db.nonDynamic (db.definersOf key),
            ∃ id' ∈ db.nonDynamic (db.definersOf key), db.inputStrength id' ≠ .undefined := by
          intro id hid
          obtain ⟨id', hid', hfound, _⟩ := hanswers.found (List.ne_nil_of_mem hid)
          rw [hget] at hfound
          -- what was found has a strength
          exact ⟨id', hid', (of_preferred hfound).2⟩
        refine ⟨fun _ => hstrength, ?_⟩
        intro hv k hk _
        obtain rfl : first = k := Option.some.inj (hhead.symm.trans hk)
        rw [← hget]
        by_cases hnil : db.nonDynamic (db.definersOf key) = []
        · rw [hanswers.missing hnil, hnil]
          rfl
        · obtain ⟨id, hid⟩ := List.exists_mem_of_ne_nil _ hnil
          obtain ⟨best, hbest⟩ :=
            Option.isSome_iff_exists.mp (preferred_isSome_iff.mpr (hstrength id hid))
          obtain ⟨id', _, hfound, hprefers⟩ := hanswers.found hnil
          rw [hfound, hbest, hprefers hdynamic best hbest]
      · intro hconsults
        have heq : db.get key false = preferred db.inputStrength (db.nonDynamic (db.definersOf key)) := by
          rw [hget]
          cases hv : key.isVersioned with
          | false => exact hplain hv
          | true => exact hconsults.versioned hv first hhead hdyn
        refine ⟨?_, ?_⟩
        · intro hne
          obtain ⟨id, hid⟩ := List.exists_mem_of_ne_nil _ hne
          obtain ⟨best, hbest⟩ :=
            Option.isSome_iff_exists.mp (preferred_isSome_iff.mpr (hconsults.strength hdynamic id hid))
          refine ⟨best, (of_preferred hbest).1, heq.trans hbest, ?_⟩
          intro _ best' hbest'
          exact Option.some.inj (hbest.symm.trans hbest')
        · intro hnil
          rw [heq, hnil]
          rfl

end SymbolDb

/-! ## A version that two files define -/

/-- A shared object and a regular object that both define `foo@V1`. -/
def versionedInputs : LoadedInputs :=
  { objects := [[
      { symbols := [nullSymbol, { name := some (bytesOf "foo") }], isDynamic := true,
        versym := [⟨0, false⟩, ⟨2, false⟩], verdefNum := 2,
        verdefs := [⟨1, some (bytesOf "lib")⟩, ⟨2, some (bytesOf "V1")⟩] },
      { symbols := [nullSymbol, { name := some (bytesOf "foo@V1") }] }]] }

/-- The database with these inputs. -/
def versionedDb : SymbolDb × PerSymbolFlags :=
  firstBatch plainArgs (.dynamicExecutable .nonRelocatable) versionedInputs

theorem versionedDb_batched :
    Batched plainArgs (.dynamicExecutable .nonRelocatable) none versionedDb.1 versionedDb.2 :=
  .addInputs versionedInputs .new rfl

theorem answersNonDynamic_foo :
    versionedDb.1.AnswersNonDynamic (.versioned (bytesOf "foo") (bytesOf "V1")) ↔
      SymbolDb.ConsultsOwnDefiners versionedDb.1 (.versioned (bytesOf "foo") (bytesOf "V1")) :=
  SymbolDb.answersNonDynamic_iff versionedDb_batched _

/-- **A definition is missed**: `foo@V1` of the regular object is not found behind that of the library. -/
theorem versioned_definition_missed :
    ¬∀ (args : Args) (outputKind : OutputKind) (versionScript : Option VersionScript) (db : SymbolDb)
      (flags : PerSymbolFlags), Batched args outputKind versionScript db flags →
      ∀ key, db.AnswersNonDynamic key := by
  intro h
  have hanswers := h _ _ _ _ _ versionedDb_batched (.versioned (bytesOf "foo") (bytesOf "V1"))
  obtain ⟨id, _, hfound, _⟩ := hanswers.found (by decide)
  have hnone : versionedDb.1.get (.versioned (bytesOf "foo") (bytesOf "V1")) false = none := by decide
  rw [hnone] at hfound
  exact absurd hfound (by simp)

end Reld
