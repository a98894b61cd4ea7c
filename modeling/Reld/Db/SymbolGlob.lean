import Reld.Elf.Symbol

/-!
# `Db.SymbolGlob` — the globs of `--undefined-glob`

`symbol_glob_matches` goes along the pattern and the name once. It remembers the last `*` and how much of the name that
star has taken; at a mismatch the star takes one byte more. `Glob` is the relation that the pattern stands for. The
units between two stars take the same number of bytes wherever the first one ends, so that the first need not be tried
again when the second is reached (`globLoop_iff`).
-/

variable {c : UInt8}

namespace Reld

/-! ## The relation -/

namespace SymbolGlob

def star : UInt8 := 0x2a
def question : UInt8 := 0x3f
def backslash : UInt8 := 0x5c
def openBracket : UInt8 := 0x5b
def closeBracket : UInt8 := 0x5d
def dash : UInt8 := 0x2d

/-- `!` or `^` behind an opening bracket. -/
def negates (c : UInt8) : Bool := c == 0x21 || c == 0x5e

/-- A member of a bracket set or the lower end of a range, at the start of a list, and what is behind it. A closing
    bracket is a member in the first place only. -/
inductive Member : Bool → Bytes → UInt8 → Bytes → Prop where
  | plain {first : Bool} {c : UInt8} {q : Bytes} (hc : c ≠ backslash) (hclose : c = closeBracket → first = true) :
      Member first (c :: q) c q
  | escaped {first : Bool} {c : UInt8} {q : Bytes} : Member first (backslash :: c :: q) c q

/-- The members up to the closing bracket, the bytes that they match, and what is behind the bracket. A `-` makes a
    range with the byte behind it, unless that is the closing bracket. -/
inductive BracketSet : Bool → Bytes → (UInt8 → Bool) → Bytes → Prop where
  | close {rest : Bytes} : BracketSet false (closeBracket :: rest) (fun _ => false) rest
  | single {first : Bool} {q q' rest : Bytes} {lo : UInt8} {set : UInt8 → Bool} (hlo : Member first q lo q')
      (hno : ∀ hi t, q' = dash :: hi :: t → hi = closeBracket) (hrest : BracketSet false q' set rest) :
      BracketSet first q (fun c => lo == c || set c) rest
  | range {first : Bool} {q q' rest : Bytes} {lo hi : UInt8} {set : UInt8 → Bool}
      (hlo : Member first q lo (dash :: hi :: q')) (hhi : hi ≠ closeBracket) (hrest : BracketSet false q' set rest) :
      BracketSet first q (fun c => (decide (lo ≤ c) && decide (c ≤ hi)) || set c) rest

/-- What is behind an opening bracket. -/
inductive Bracket : Bytes → (UInt8 → Bool) → Bytes → Prop where
  | plain {q rest : Bytes} {set : UInt8 → Bool} (hno : ∀ c t, q = c :: t → negates c = false)
      (hset : BracketSet true q set rest) : Bracket q set rest
  | negated {c : UInt8} {q rest : Bytes} {set : UInt8 → Bool} (hc : negates c = true)
      (hset : BracketSet true q set rest) : Bracket (c :: q) (fun c => !set c) rest

/-- A unit at the start of a pattern, the bytes that it matches, and what is behind it. -/
inductive UnitAt : Bytes → (UInt8 → Bool) → Bytes → Prop where
  | question {q : Bytes} : UnitAt (question :: q) (fun _ => true) q
  | bracket {q rest : Bytes} {set : UInt8 → Bool} (h : Bracket q set rest) : UnitAt (openBracket :: q) set rest
  | unterminated {q : Bytes} (h : ∀ set rest, ¬ Bracket q set rest) :
      UnitAt (openBracket :: q) (fun c => openBracket == c) q
  | escaped {c : UInt8} {q : Bytes} : UnitAt (backslash :: c :: q) (fun d => c == d) q
  | literal {c : UInt8} {q : Bytes} (hstar : c ≠ star) (hquestion : c ≠ SymbolGlob.question) (hopen : c ≠ openBracket)
      (hescape : c = backslash → q = []) : UnitAt (c :: q) (fun d => c == d) q

/-- A pattern matches a name. -/
inductive Glob : Bytes → Bytes → Prop where
  | nil : Glob [] []
  | skip {q name : Bytes} (h : Glob q name) : Glob (star :: q) name
  | take {q name : Bytes} {c : UInt8} (h : Glob (star :: q) name) : Glob (star :: q) (c :: name)
  | unit {q rest name : Bytes} {set : UInt8 → Bool} {c : UInt8} (hunit : UnitAt q set rest) (hc : set c = true)
      (h : Glob rest name) : Glob q (c :: name)

end SymbolGlob

open SymbolGlob

/-! ## The matcher -/

variable (pattern name : Bytes)

/-- The byte of a member of a bracket at index `i`, with the index where it is. -/
def memberAt (i : Nat) : Option (UInt8 × Nat) :=
  match pattern[i]? with
  | none    => none
  | some lo => if lo = backslash then pattern[i + 1]?.map (·, i + 1) else some (lo, i)

/-- The upper end of a range whose lower end is at index `i`. -/
def rangeEnd (i : Nat) : Option UInt8 :=
  if pattern[i + 1]? = some dash then pattern[i + 2]?.filter (· ≠ closeBracket) else none

variable {pattern} in
theorem memberAt_le {i j : Nat} {lo : UInt8} (h : memberAt pattern i = some (lo, j)) : i ≤ j ∧ j < pattern.length := by
  unfold memberAt at h
  split at h
  · cases h
  · rename_i b hb
    split_ifs at h
    · obtain ⟨c, hc, heq⟩ := Option.map_eq_some_iff.mp h
      cases heq
      exact ⟨Nat.le_succ _, (List.getElem?_eq_some_iff.mp hc).1⟩
    · cases h
      exact ⟨Nat.le_refl _, (List.getElem?_eq_some_iff.mp hb).1⟩

/-- The loop of `match_bracket` from index `i` on. -/
def matchBracketFrom (c : UInt8) (negate : Bool) (setStart i : Nat) (matched : Bool) : Option (Bool × Nat) :=
  match pattern[i]? with
  | none => none
  | some b =>
    if b = closeBracket ∧ i > setStart then some (matched != negate, i + 1)
    else
      match _hm : memberAt pattern i with
      | none => none
      | some (lo, j) =>
        match rangeEnd pattern j with
        | some hi => matchBracketFrom c negate setStart (j + 3) (matched || (decide (lo ≤ c) && decide (c ≤ hi)))
        | none    => matchBracketFrom c negate setStart (j + 1) (matched || lo == c)
termination_by pattern.length - i
decreasing_by
  all_goals
    have := memberAt_le _hm
    omega

/-- `match_bracket` -/
def matchBracket (p : Nat) (c : UInt8) : Option (Bool × Nat) :=
  let negate := pattern[p + 1]?.any negates
  let setStart := if negate then p + 2 else p + 1
  matchBracketFrom pattern c negate setStart setStart false

/-- How far a unit other than a star that matches the byte goes on in the pattern. -/
def unitMatch (p : Nat) (c : UInt8) : Option Nat :=
  match pattern[p]? with
  | none => none
  | some b =>
    if b = question then some 1
    else if b = openBracket then
      match matchBracket pattern p c with
      | some (true, next) => some (next - p)
      | some (false, _)   => none
      | none              => if c = openBracket then some 1 else none
    else if b = backslash ∧ p + 1 < pattern.length then if pattern[p + 1]? = some c then some 2 else none
    else if b = c then some 1 else none

/-- The loop behind the name: over stars. -/
def skipStars (p : Nat) : Nat := p + ((pattern.drop p).takeWhile (· == star)).length

/-- The loop of `symbol_glob_matches`, with the last star and the end of what it has taken. -/
def globLoop (p n : Nat) (lastStar : Option (Nat × Nat)) (h : ∀ s ∈ lastStar, s.2 ≤ n) : Bool :=
  if hn : n < name.length then
    if pattern[p]? = some star then globLoop (p + 1) n (some (p, n)) (by simp)
    else
      match unitMatch pattern p name[n] with
      | some advance =>
        globLoop (p + advance) (n + 1) lastStar (fun s hs => Nat.le_succ_of_le (h s hs))
      | none =>
        match hs : lastStar with
        | some (starP, starN) => globLoop (starP + 1) (starN + 1) (some (starP, starN + 1)) (by simp)
        | none => false
  else decide (skipStars pattern p = pattern.length)
termination_by (lastStar.elim (name.length + 1) (name.length - ·.2), name.length - n, pattern.length - p)
decreasing_by
  · -- a star: what the last one has taken is not behind
    rename_i hp
    have hp := (List.getElem?_eq_some_iff.mp hp).1
    simp only [Prod.lex_def, Option.elim_some]
    cases lastStar with
    | none =>
      simp only [Option.elim_none]
      omega
    | some s =>
      have := h s rfl
      simp only [Option.elim_some, Nat.lt_irrefl, false_or, true_and]
      omega
  · exact .right _ (.left _ _ (by omega))
  · -- a mismatch: the last star takes one byte more
    have := h _ rfl
    simp only [Prod.lex_def, Option.elim_some]
    omega

/-- `symbol_glob_matches` -/
def symbolGlobMatches : Bool := globLoop pattern name 0 0 none (by simp)

/-! ## Brackets -/

variable {pattern name}

theorem drop_eq_cons_iff {i : Nat} {q : Bytes} :
    pattern.drop i = c :: q ↔ pattern[i]? = some c ∧ q = pattern.drop (i + 1) := by
  constructor
  · intro h
    have hc := congrArg List.head? h
    have hq := congrArg List.tail h
    rw [List.head?_drop] at hc
    rw [List.tail_drop] at hq
    exact ⟨hc, hq.symm⟩
  · rintro ⟨hc, rfl⟩
    obtain ⟨hi, rfl⟩ := List.getElem?_eq_some_iff.mp hc
    exact List.drop_eq_getElem_cons hi

theorem memberAt_eq_some {i j : Nat} {lo : UInt8} {first : Bool} (h : memberAt pattern i = some (lo, j))
    (hclose : pattern[i]? = some closeBracket → first = true) :
    Member first (pattern.drop i) lo (pattern.drop (j + 1)) := by
  unfold memberAt at h
  split at h
  · cases h
  · rename_i b hb
    rw [drop_eq_cons_iff.mpr ⟨hb, rfl⟩]
    split_ifs at h with hback
    · obtain ⟨c, hc, heq⟩ := Option.map_eq_some_iff.mp h
      cases heq
      rw [hback, drop_eq_cons_iff.mpr ⟨hc, rfl⟩]
      exact .escaped
    · cases h
      exact .plain hback fun h => hclose (h ▸ hb)

theorem memberAt_of_member {i : Nat} {lo : UInt8} {first : Bool} {q : Bytes} (h : Member first (pattern.drop i) lo q) :
    ∃ j, memberAt pattern i = some (lo, j) ∧ q = pattern.drop (j + 1) ∧
      (pattern[i]? = some closeBracket → first = true) := by
  generalize hd : pattern.drop i = l at h
  cases h with
  | plain hc hclose =>
    obtain ⟨hi, rfl⟩ := drop_eq_cons_iff.mp hd
    refine ⟨i, by simp [memberAt, hi, hc], rfl, fun h => hclose ?_⟩
    exact Option.some.inj (hi.symm.trans h)
  | escaped =>
    obtain ⟨hi, hq⟩ := drop_eq_cons_iff.mp hd
    obtain ⟨hi', rfl⟩ := drop_eq_cons_iff.mp hq.symm
    refine ⟨i + 1, by simp [memberAt, hi, hi'], rfl, fun h => ?_⟩
    exact absurd (Option.some.inj (hi.symm.trans h)) (by decide)

theorem rangeEnd_eq_some {j : Nat} {hi : UInt8} :
    rangeEnd pattern j = some hi ↔
      pattern.drop (j + 1) = dash :: hi :: pattern.drop (j + 3) ∧ hi ≠ closeBracket := by
  unfold rangeEnd
  rw [drop_eq_cons_iff, @eq_comm _ (hi :: _), drop_eq_cons_iff]
  split_ifs with h
  · simp [Option.filter_eq_some_iff, h]
  · simp [h]

theorem rangeEnd_eq_none {j : Nat} (h : rangeEnd pattern j = none) (hi : UInt8) (t : Bytes)
    (hd : pattern.drop (j + 1) = dash :: hi :: t) : hi = closeBracket := by
  by_contra hne
  obtain ⟨h1, h2⟩ := drop_eq_cons_iff.mp hd
  obtain ⟨h3, h4⟩ := drop_eq_cons_iff.mp h2.symm
  rw [h4] at hd
  rw [rangeEnd_eq_some.mpr ⟨hd, hne⟩] at h
  cases h

theorem matchBracketFrom_step {c b lo : UInt8} {negate matched : Bool} {setStart i j : Nat}
    (hb : pattern[i]? = some b) (hclose : ¬(b = closeBracket ∧ i > setStart)) (hm : memberAt pattern i = some (lo, j)) :
    matchBracketFrom pattern c negate setStart i matched =
      match rangeEnd pattern j with
      | some hi => matchBracketFrom pattern c negate setStart (j + 3) (matched || (decide (lo ≤ c) && decide (c ≤ hi)))
      | none    => matchBracketFrom pattern c negate setStart (j + 1) (matched || lo == c) := by
  rw [matchBracketFrom, hb]
  simp only
  rw [if_neg hclose]
  split
  · rename_i hnone
    cases hm.symm.trans hnone
  · rename_i hsome
    cases hm.symm.trans hsome
    rfl

/-- What the scanner finds is a set. -/
theorem matchBracketFrom_sound (c : UInt8) (negate : Bool) (setStart i : Nat) (matched b : Bool) (next : Nat)
    (h : matchBracketFrom pattern c negate setStart i matched = some (b, next)) (hi : setStart ≤ i) :
    ∃ set rest, BracketSet (decide (i = setStart)) (pattern.drop i) set rest := by
  have hmember : ∀ {i j : Nat} {b' lo : UInt8}, pattern[i]? = some b' → ¬(b' = closeBracket ∧ i > setStart) →
      setStart ≤ i → memberAt pattern i = some (lo, j) →
      Member (decide (i = setStart)) (pattern.drop i) lo (pattern.drop (j + 1)) := by
    intro i j b' lo hb hclose hi hm
    refine memberAt_eq_some hm fun h => decide_eq_true ?_
    have hb' : b' = closeBracket := Option.some.inj (hb.symm.trans h)
    have := not_and.mp hclose hb'
    omega
  fun_induction matchBracketFrom pattern c negate setStart i matched with
  | case1 => cases h
  | case2 i matched b' hb hclose =>
    rw [drop_eq_cons_iff.mpr ⟨hb, rfl⟩, hclose.1, decide_eq_false (by omega)]
    exact ⟨_, _, .close⟩
  | case3 => cases h
  | case4 i matched b' hb hclose lo j hm hi' hr ih =>
    have := memberAt_le hm
    obtain ⟨set, rest, hset⟩ := ih h (by omega)
    rw [decide_eq_false (by omega)] at hset
    obtain ⟨hd, hne⟩ := rangeEnd_eq_some.mp hr
    have hlo := hmember hb hclose hi hm
    rw [hd] at hlo
    exact ⟨_, _, .range hlo hne hset⟩
  | case5 i matched b' hb hclose lo j hm hr ih =>
    have := memberAt_le hm
    obtain ⟨set, rest, hset⟩ := ih h (by omega)
    rw [decide_eq_false (by omega)] at hset
    exact ⟨_, _, .single (hmember hb hclose hi hm) (rangeEnd_eq_none hr) hset⟩

/-- A set is found by the scanner. -/
theorem matchBracketFrom_complete {first : Bool} {q rest : Bytes} {set : UInt8 → Bool} (h : BracketSet first q set rest)
    (c : UInt8) (negate : Bool) {setStart i : Nat} (matched : Bool) (hq : q = pattern.drop i)
    (hfirst : first = decide (i = setStart)) (hi : setStart ≤ i) :
    ∃ next, matchBracketFrom pattern c negate setStart i matched = some ((matched || set c) != negate, next) ∧
      rest = pattern.drop next ∧ i < next ∧ next ≤ pattern.length := by
  have hstart : ∀ {first : Bool} {i : Nat} {lo : UInt8} {q' : Bytes}, first = decide (i = setStart) →
      Member first (pattern.drop i) lo q' → ∃ b j, pattern[i]? = some b ∧ ¬(b = closeBracket ∧ i > setStart) ∧
        memberAt pattern i = some (lo, j) ∧ q' = pattern.drop (j + 1) ∧ i ≤ j := by
    intro first i lo q' hfirst hlo
    obtain ⟨j, hm, hq', hclose⟩ := memberAt_of_member hlo
    obtain ⟨hle, hlt⟩ := memberAt_le hm
    refine ⟨_, j, List.getElem?_eq_getElem (by omega), fun ⟨hb, hgt⟩ => ?_, hm, hq', hle⟩
    have := hclose (hb ▸ List.getElem?_eq_getElem (by omega))
    rw [hfirst, decide_eq_true_eq] at this
    omega
  induction h generalizing i matched with
  | close =>
    obtain ⟨hb, rfl⟩ := drop_eq_cons_iff.mp hq.symm
    have hne := of_decide_eq_false hfirst.symm
    refine ⟨i + 1, ?_, rfl, Nat.lt_succ_self i, (List.getElem?_eq_some_iff.mp hb).1⟩
    rw [matchBracketFrom, hb]
    simp only
    rw [if_pos ⟨trivial, by omega⟩, Bool.or_false]
  | single hlo hno _ ih =>
    subst hq
    obtain ⟨b, j, hb, hclose, hm, rfl, hle⟩ := hstart hfirst hlo
    obtain ⟨next, hnext, hrest, hlt, hend⟩ := @ih (j + 1) (matched || _ == c) rfl
      (decide_eq_false (by omega)).symm (by omega)
    refine ⟨next, ?_, hrest, by omega, hend⟩
    have hr : rangeEnd pattern j = none := by
      rw [Option.eq_none_iff_forall_ne_some]
      intro hi' hr
      obtain ⟨hd, hne⟩ := rangeEnd_eq_some.mp hr
      exact hne (hno _ _ hd)
    rw [matchBracketFrom_step hb hclose hm, hr]
    rw [hnext, Bool.or_assoc]
  | range hlo hhi _ ih =>
    subst hq
    obtain ⟨b, j, hb, hclose, hm, hd, hle⟩ := hstart hfirst hlo
    obtain ⟨-, hd'⟩ := drop_eq_cons_iff.mp hd.symm
    obtain ⟨-, rfl⟩ := drop_eq_cons_iff.mp hd'.symm
    obtain ⟨next, hnext, hrest, hlt, hend⟩ := @ih (j + 3) (matched || (decide (_ ≤ c) && decide (c ≤ _))) rfl
      (decide_eq_false (by omega)).symm (by omega)
    refine ⟨next, ?_, hrest, by omega, hend⟩
    rw [matchBracketFrom_step hb hclose hm, rangeEnd_eq_some.mpr ⟨hd.symm, hhi⟩]
    simp only
    rw [hnext, Bool.or_assoc]

theorem matchBracket_of_bracket {p : Nat} {set : UInt8 → Bool} {rest : Bytes} (h : Bracket (pattern.drop (p + 1)) set rest)
    (c : UInt8) : ∃ next, matchBracket pattern p c = some (set c, next) ∧ rest = pattern.drop next ∧ p < next ∧
      next ≤ pattern.length := by
  generalize hd : pattern.drop (p + 1) = q at h
  unfold matchBracket
  cases h with
  | plain hno hset =>
    have hnegate : pattern[p + 1]?.any negates = false := by
      cases hc : pattern[p + 1]? with
      | none => rfl
      | some b => exact hno b _ (hd ▸ drop_eq_cons_iff.mpr ⟨hc, rfl⟩)
    obtain ⟨next, hnext, hrest, hlt, hend⟩ := matchBracketFrom_complete hset c false false hd.symm
      (decide_eq_true rfl).symm (Nat.le_refl (p + 1))
    refine ⟨next, ?_, hrest, by omega, hend⟩
    simp only [hnegate]
    simpa using hnext
  | negated hc hset =>
    obtain ⟨hb, hq⟩ := drop_eq_cons_iff.mp hd
    obtain ⟨next, hnext, hrest, hlt, hend⟩ := matchBracketFrom_complete hset c true false hq
      (decide_eq_true rfl).symm (Nat.le_refl (p + 2))
    refine ⟨next, ?_, hrest, by omega, hend⟩
    simp only [hb, Option.any_some, hc, if_true]
    simpa using hnext

theorem bracket_of_matchBracket {p : Nat} {found : Bool × Nat} (h : matchBracket pattern p c = some found) :
    ∃ set rest, Bracket (pattern.drop (p + 1)) set rest := by
  unfold matchBracket at h
  cases hnegate : pattern[p + 1]?.any negates with
  | true =>
    obtain ⟨b, hb, hc⟩ : ∃ b, pattern[p + 1]? = some b ∧ negates b = true := by
      simpa [Option.any_eq_true] using hnegate
    rw [hnegate] at h
    obtain ⟨set, rest, hset⟩ := matchBracketFrom_sound c true (p + 2) (p + 2) false found.1 found.2 h (Nat.le_refl _)
    rw [decide_eq_true rfl] at hset
    rw [drop_eq_cons_iff.mpr ⟨hb, rfl⟩]
    exact ⟨_, _, .negated hc hset⟩
  | false =>
    rw [hnegate] at h
    obtain ⟨set, rest, hset⟩ := matchBracketFrom_sound c false (p + 1) (p + 1) false found.1 found.2 h (Nat.le_refl _)
    rw [decide_eq_true rfl] at hset
    refine ⟨_, _, .plain (fun b t hq => ?_) hset⟩
    have hb := (drop_eq_cons_iff.mp hq).1
    rw [hb] at hnegate
    simpa using hnegate

/-! ## Units -/

/-- The matcher goes on by the unit that is there. -/
theorem unitMatch_of_unitAt {p : Nat} {set : UInt8 → Bool} {rest : Bytes} (h : UnitAt (pattern.drop p) set rest) :
    ∃ advance, rest = pattern.drop (p + advance) ∧ p + advance ≤ pattern.length ∧
      ∀ c, unitMatch pattern p c = if set c then some advance else none := by
  generalize hd : pattern.drop p = l at h
  cases h with
  | question =>
    obtain ⟨hb, rfl⟩ := drop_eq_cons_iff.mp hd
    refine ⟨1, rfl, (List.getElem?_eq_some_iff.mp hb).1, fun c => ?_⟩
    simp [unitMatch, hb]
  | bracket h =>
    obtain ⟨hb, rfl⟩ := drop_eq_cons_iff.mp hd
    obtain ⟨next, -, hrest, hlt, hend⟩ := matchBracket_of_bracket h 0
    refine ⟨next - p, by rw [Nat.add_sub_cancel' (by omega), hrest], by omega, fun c => ?_⟩
    obtain ⟨next', hnext, hrest', -, hend'⟩ := matchBracket_of_bracket h c
    -- where the bracket ends does not depend on the byte
    have hsame : next' = next := by
      have hlength := congrArg List.length (hrest'.symm.trans hrest)
      rw [List.length_drop, List.length_drop] at hlength
      omega
    have hne : ¬ openBracket = question := by decide
    simp only [unitMatch, hb, hne, if_false, if_true, hnext, hsame]
    cases set c <;> rfl
  | unterminated h =>
    obtain ⟨hb, rfl⟩ := drop_eq_cons_iff.mp hd
    refine ⟨1, rfl, (List.getElem?_eq_some_iff.mp hb).1, fun c => ?_⟩
    have hnone : matchBracket pattern p c = none := by
      rw [Option.eq_none_iff_forall_ne_some]
      intro found hfound
      obtain ⟨set, rest, hset⟩ := bracket_of_matchBracket hfound
      exact h set rest hset
    have hne : ¬ openBracket = question := by decide
    simp [unitMatch, hb, hne, hnone, @eq_comm _ c]
  | escaped =>
    obtain ⟨hb, hq⟩ := drop_eq_cons_iff.mp hd
    obtain ⟨hb', rfl⟩ := drop_eq_cons_iff.mp hq.symm
    have hlt := (List.getElem?_eq_some_iff.mp hb').1
    refine ⟨2, rfl, hlt, fun c => ?_⟩
    have h1 : ¬ backslash = question := by decide
    have h2 : ¬ backslash = openBracket := by decide
    simp only [unitMatch, hb, h1, h2, if_false, true_and, hlt, if_true, hb', Option.some.injEq, beq_iff_eq]
  | @literal b q hstar hquestion hopen hescape =>
    obtain ⟨hb, rfl⟩ := drop_eq_cons_iff.mp hd
    refine ⟨1, rfl, (List.getElem?_eq_some_iff.mp hb).1, fun c => ?_⟩
    have hlast : ¬(b = backslash ∧ p + 1 < pattern.length) := by
      rintro ⟨hback, hlt⟩
      have := List.drop_eq_nil_iff.mp (hescape hback)
      omega
    simp [unitMatch, hb, hquestion, hopen, hlast]

/-- Where the pattern has not ended and there is no star, there is a unit. -/
theorem exists_unitAt {q : Bytes} (h : c ≠ star) : ∃ set rest, UnitAt (c :: q) set rest := by
  by_cases hq : c = question
  · rw [hq]
    exact ⟨_, _, .question⟩
  by_cases ho : c = openBracket
  · subst ho
    by_cases hb : ∃ set rest, Bracket q set rest
    · obtain ⟨set, rest, hb⟩ := hb
      exact ⟨set, rest, .bracket hb⟩
    · exact ⟨_, _, .unterminated fun set rest h => hb ⟨set, rest, h⟩⟩
  by_cases he : c = backslash
  · cases q with
    | nil => exact ⟨_, _, .literal h hq ho fun _ => rfl⟩
    | cons d q =>
      rw [he]
      exact ⟨_, _, .escaped⟩
  · exact ⟨_, _, .literal h hq ho fun h => absurd h he⟩

theorem not_unitAt_star {q rest : Bytes} {set : UInt8 → Bool} : ¬ UnitAt (star :: q) set rest := by
  intro h
  cases h with
  | literal hstar => exact hstar rfl

/-- A unit takes the first byte of a name, or the pattern does not match. -/
theorem glob_cons_iff {q rest n : Bytes} {set : UInt8 → Bool} (hunit : UnitAt q set rest) (c : UInt8) :
    Glob q (c :: n) ↔ set c = true ∧ Glob rest n := by
  constructor
  · intro h
    cases h with
    -- a star is no unit
    | skip => exact absurd hunit not_unitAt_star
    | take => exact absurd hunit not_unitAt_star
    | unit hunit' hc h =>
      -- both are what the matcher finds
      obtain ⟨advance, hrest, -, hmatch⟩ := @unitMatch_of_unitAt q 0 _ _ hunit
      obtain ⟨advance', hrest', -, hmatch'⟩ := @unitMatch_of_unitAt q 0 _ _ hunit'
      have heq := (hmatch c).symm.trans (hmatch' c)
      split_ifs at heq with hset
      cases heq
      exact ⟨hset, hrest ▸ hrest' ▸ h⟩
  · rintro ⟨hc, h⟩
    exact .unit hunit hc h

theorem not_glob_nil {q rest : Bytes} {set : UInt8 → Bool} (hunit : UnitAt q set rest) : ¬ Glob q [] := by
  intro h
  cases h with
  | nil => cases hunit
  | skip => exact not_unitAt_star hunit

/-- A star takes any bytes. -/
theorem glob_star_iff {q n : Bytes} : Glob (star :: q) n ↔ ∃ k ≤ n.length, Glob q (n.drop k) := by
  induction n with
  | nil =>
    constructor
    · intro h
      cases h with
      | skip h => exact ⟨0, Nat.le_refl _, h⟩
    · rintro ⟨k, -, h⟩
      rw [List.drop_nil] at h
      exact .skip h
  | cons c n ih =>
    constructor
    · intro h
      cases h with
      | skip h => exact ⟨0, Nat.zero_le _, h⟩
      | take h =>
        obtain ⟨k, hk, h⟩ := ih.mp h
        exact ⟨k + 1, Nat.succ_le_succ hk, h⟩
      | unit hunit => exact absurd hunit not_unitAt_star
    · rintro ⟨k, hk, h⟩
      cases k with
      | zero => exact .skip h
      | succ k => exact .take (ih.mpr ⟨k, Nat.le_of_succ_le_succ hk, h⟩)

/-- Units that have been passed, one for each byte of the name. -/
inductive Units : Nat → Bytes → Bytes → Prop where
  | zero {q : Bytes} : Units 0 q q
  | succ {k : Nat} {q q' rest : Bytes} {set : UInt8 → Bool} (h : Units k q q') (hunit : UnitAt q' set rest) :
      Units (k + 1) q rest

/-- Wherever they start, they take as many bytes. -/
theorem Units.glob {k : Nat} {q q' : Bytes} (h : Units k q q') {n : Bytes} (hg : Glob q n) :
    k ≤ n.length ∧ Glob q' (n.drop k) := by
  induction h with
  | zero => exact ⟨Nat.zero_le _, hg⟩
  | @succ k q q' rest set _ hunit ih =>
    obtain ⟨hk, h⟩ := ih hg
    cases hn : n.drop k with
    | nil =>
      rw [hn] at h
      exact absurd h (not_glob_nil hunit)
    | cons c n' =>
      rw [hn, glob_cons_iff hunit] at h
      obtain ⟨hc, hn'⟩ := drop_eq_cons_iff.mp hn
      exact ⟨(List.getElem?_eq_some_iff.mp hc).1, hn' ▸ h.2⟩

/-- What the matcher says about a place where there is no star. -/
theorem unitMatch_cases {p : Nat} (hstar : pattern[p]? ≠ some star) :
    (∃ advance set, unitMatch pattern p c = some advance ∧ set c = true ∧ p + advance ≤ pattern.length ∧
        UnitAt (pattern.drop p) set (pattern.drop (p + advance))) ∨
      (unitMatch pattern p c = none ∧ ∀ n, ¬ Glob (pattern.drop p) (c :: n)) := by
  cases hb : pattern[p]? with
  | none =>
    refine Or.inr ⟨by simp [unitMatch, hb], fun n h => ?_⟩
    rw [List.drop_eq_nil_of_le (List.getElem?_eq_none_iff.mp hb)] at h
    cases h with
    | unit hunit => cases hunit
  | some b =>
    have hdrop := drop_eq_cons_iff.mpr ⟨hb, rfl⟩
    obtain ⟨set, rest, hunit⟩ := @exists_unitAt b (pattern.drop (p + 1)) fun h => hstar (h ▸ hb)
    rw [← hdrop] at hunit
    obtain ⟨advance, rfl, hend, hmatch⟩ := unitMatch_of_unitAt hunit
    rw [hmatch]
    by_cases hc : set c = true
    · exact Or.inl ⟨advance, set, if_pos hc, hc, hend, hunit⟩
    · exact Or.inr ⟨if_neg hc, fun n h => hc ((glob_cons_iff hunit c).mp h).1⟩

/-! ## The loop -/

/-- Behind the name only stars match. -/
theorem skipStars_iff {p : Nat} (hp : p ≤ pattern.length) :
    skipStars pattern p = pattern.length ↔ Glob (pattern.drop p) [] := by
  have hlength : skipStars pattern p = pattern.length ↔
      ((pattern.drop p).takeWhile (· == star)).length = (pattern.drop p).length := by
    unfold skipStars
    rw [List.length_drop]
    omega
  rw [hlength]
  generalize pattern.drop p = q
  induction q with
  | nil => exact iff_of_true rfl .nil
  | cons c q ih =>
    by_cases hc : c = star
    · rw [List.takeWhile_cons_of_pos (by simpa using hc), List.length_cons, List.length_cons, Nat.add_right_cancel_iff,
        hc, glob_star_iff]
      simpa using ih
    · obtain ⟨set, rest, hunit⟩ := @exists_unitAt c q hc
      rw [List.takeWhile_cons_of_neg (by simpa using hc)]
      exact iff_of_false (by simp) (not_glob_nil hunit)

/-- The rest of the pattern matches the rest of the name, or what is behind the last star matches where that star
    takes more. -/
def Matches (pattern name : Bytes) (p n : Nat) (lastStar : Option (Nat × Nat)) : Prop :=
  Glob (pattern.drop p) (name.drop n) ∨
    ∃ s ∈ lastStar, ∃ m, s.2 < m ∧ m ≤ name.length ∧ Glob (pattern.drop (s.1 + 1)) (name.drop m)

/-- **The loop.** Between the last star and the place in the pattern are as many units as bytes of the name. -/
theorem globLoop_iff (p n : Nat) (lastStar : Option (Nat × Nat)) (h : ∀ s ∈ lastStar, s.2 ≤ n)
    (hp : p ≤ pattern.length) (hn : n ≤ name.length)
    (hunits : ∀ s ∈ lastStar, s.1 < pattern.length ∧ Units (n - s.2) (pattern.drop (s.1 + 1)) (pattern.drop p)) :
    globLoop pattern name p n lastStar h = true ↔ Matches pattern name p n lastStar := by
  -- The cases are those of the loop: a star, a unit that matches, a mismatch with and without a star, and the end.
  fun_induction globLoop pattern name p n lastStar h with
  | case1 p n lastStar h hlt hstar ih =>
    have hpat := (List.getElem?_eq_some_iff.mp hstar).1
    have hdrop := drop_eq_cons_iff.mpr ⟨hstar, rfl⟩
    have hlast : ∀ s ∈ some (p, n), s.1 < pattern.length ∧
        Units (n - s.2) (pattern.drop (s.1 + 1)) (pattern.drop (p + 1)) := by
      rintro s hs
      cases hs
      rw [Nat.sub_self]
      exact ⟨hpat, .zero⟩
    -- what this star takes: nothing, or more
    have hhere : Matches pattern name (p + 1) n (some (p, n)) ↔ Glob (pattern.drop p) (name.drop n) := by
      rw [hdrop, glob_star_iff, List.length_drop]
      constructor
      · rintro (hg | ⟨s, hs, m, hlt, hm, hg⟩)
        · exact ⟨0, Nat.zero_le _, hg⟩
        · cases hs
          exact ⟨m - n, by omega, by rwa [List.drop_drop, Nat.add_sub_cancel' (Nat.le_of_lt hlt)]⟩
      · rintro ⟨k, hk, hg⟩
        rw [List.drop_drop] at hg
        rcases Nat.eq_zero_or_pos k with rfl | hpos
        · exact Or.inl hg
        · exact Or.inr ⟨_, rfl, n + k, Nat.lt_add_of_pos_right hpos, by omega, hg⟩
    rw [ih hpat hn hlast, hhere]
    refine ⟨Or.inl, ?_⟩
    rintro (hg | ⟨s, hs, m, hlt, hm, hg⟩)
    · exact hg
    · -- the units in front of this star move along with the other one
      obtain ⟨hk, hg⟩ := (hunits s hs).2.glob hg
      rw [List.length_drop] at hk
      rw [List.drop_drop, hdrop, glob_star_iff, List.length_drop] at hg
      obtain ⟨k, hk', hg⟩ := hg
      rw [hdrop, glob_star_iff, List.length_drop]
      refine ⟨m + (n - s.2) + k - n, by omega, ?_⟩
      rw [List.drop_drop] at hg ⊢
      rwa [Nat.add_sub_cancel' (by omega)]
  | case2 p n lastStar h hlt hstar advance hunit ih =>
    rcases unitMatch_cases hstar with ⟨advance', set, hmatch, hc, hend, hat⟩ | ⟨hnone, -⟩
    · cases hunit.symm.trans hmatch
      have hlast : ∀ s ∈ lastStar, s.1 < pattern.length ∧
          Units (n + 1 - s.2) (pattern.drop (s.1 + 1)) (pattern.drop (p + advance)) := by
        intro s hs
        rw [Nat.succ_sub (h s hs)]
        exact ⟨(hunits s hs).1, (hunits s hs).2.succ hat⟩
      rw [ih hend hlt hlast]
      unfold Matches
      rw [List.drop_eq_getElem_cons hlt, glob_cons_iff hat, and_iff_right hc]
    · cases hunit.symm.trans hnone
  | case3 p n hlt hstar hunit starP starN _ h ih =>
    rcases unitMatch_cases hstar with ⟨advance', set, hmatch, -⟩ | ⟨-, hno⟩
    · cases hunit.symm.trans hmatch
    · have hpat := (hunits _ rfl).1
      have hbehind : starN < name.length := Nat.lt_of_le_of_lt (h _ rfl) hlt
      have hlast : ∀ s ∈ some (starP, starN + 1), s.1 < pattern.length ∧
          Units (starN + 1 - s.2) (pattern.drop (s.1 + 1)) (pattern.drop (starP + 1)) := by
        rintro s hs
        cases hs
        rw [Nat.sub_self]
        exact ⟨hpat, .zero⟩
      rw [ih hpat hbehind hlast]
      unfold Matches
      rw [List.drop_eq_getElem_cons hlt, or_iff_right (hno _)]
      -- the star takes one byte more, or more than that
      constructor
      · rintro (hg | ⟨s, hs, m, hm, hle, hg⟩)
        · exact ⟨_, rfl, starN + 1, Nat.lt_succ_self _, hbehind, hg⟩
        · cases hs
          exact ⟨_, rfl, m, Nat.lt_of_succ_lt hm, hle, hg⟩
      · rintro ⟨s, hs, m, hm, hle, hg⟩
        cases hs
        rcases Nat.eq_or_lt_of_le hm with rfl | hm
        · exact Or.inl hg
        · exact Or.inr ⟨_, rfl, m, hm, hle, hg⟩
  | case4 p n hlt hstar hunit h =>
    rcases unitMatch_cases hstar with ⟨advance', set, hmatch, -⟩ | ⟨-, hno⟩
    · cases hunit.symm.trans hmatch
    · unfold Matches
      rw [List.drop_eq_getElem_cons hlt, or_iff_right (hno _)]
      simp
  | case5 p n lastStar h hlt =>
    obtain rfl : n = name.length := by omega
    unfold Matches
    rw [decide_eq_true_iff, skipStars_iff hp, List.drop_length, or_iff_left]
    -- no byte is left for the units behind the last star
    rintro ⟨s, hs, m, hm, hle, hg⟩
    have hk := ((hunits s hs).2.glob hg).1
    rw [List.length_drop] at hk
    omega

/-- **The matcher.** -/
theorem symbolGlobMatches_iff (pattern name : Bytes) : symbolGlobMatches pattern name = true ↔ Glob pattern name := by
  unfold symbolGlobMatches
  rw [globLoop_iff 0 0 none (by simp) (Nat.zero_le _) (Nat.zero_le _) (by simp)]
  unfold Matches
  simp

end Reld
