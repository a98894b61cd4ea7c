import Mathlib.Data.List.Infix

/-!
# `Lib.ShellPatterns` — shell patterns

A pattern is a list of characters, each with a mark that tells whether it is quoted and stands for itself. It is read as
pieces (`pieces`): runs of any characters, and single characters of a set. What the pieces accept does not depend on
how the pattern was quoted, so two notations are compared by the pieces that they are read as. `fnmatch` is the notation
in which a backslash quotes the character behind it.
-/

namespace ShellPatterns

/-- A part of a pattern: any characters, or one of a set. -/
inductive Piece where
  | run
  | one (set : Char → Bool)

/-- Whether pieces accept all of a name. -/
def accepts : List Piece → List Char → Bool
  | [], name => name.isEmpty
  | .run :: ps, name => name.tails.any (accepts ps ·)
  | .one _ :: _, [] => false
  | .one set :: ps, c :: name => set c && accepts ps name

/-! ## Reading -/

/-- The members of a bracket and its ranges. A `-` makes a range with what is on both sides of it. -/
def setOf : List (Char × Bool) → Char → Bool
  | lo :: ('-', false) :: hi :: items, c => (decide (lo.1 ≤ c) && decide (c ≤ hi.1)) || setOf items c
  | item :: items, c => c == item.1 || setOf items c
  | [], _ => false

/-- What does not close a bracket. -/
def staysOpen (s : Char × Bool) : Bool := s != (']', false)

/-- What is between the brackets, and what is behind them. A closing bracket in the first place is a member. -/
def bracketItems : List (Char × Bool) → Option (List (Char × Bool) × List (Char × Bool))
  | [] => none
  | first :: q =>
    match q.dropWhile staysOpen with
    | []        => none
    | _ :: rest => some (first :: q.takeWhile staysOpen, rest)

/-- `!` or `^` at the start of a bracket. -/
def negated (q : List (Char × Bool)) : Bool := q.head?.any fun s => s = ('!', false) ∨ s = ('^', false)

/-- The set of a bracket, from what is behind the opening one, and what is behind the closing one. -/
def bracket (q : List (Char × Bool)) : Option ((Char → Bool) × List (Char × Bool)) :=
  (bracketItems (if negated q then q.tail else q)).map fun (items, rest) => (fun c => setOf items c != negated q, rest)

theorem bracketItems_shorter {q items rest : List (Char × Bool)} (h : bracketItems q = some (items, rest)) :
    rest.length < q.length := by
  unfold bracketItems at h
  split at h
  · cases h
  · rename_i first q
    split at h
    · cases h
    · rename_i close rest' hrest
      cases h
      have hle := (List.dropWhile_suffix (l := q) staysOpen).length_le
      rw [hrest, List.length_cons] at hle
      rw [List.length_cons]
      omega

theorem bracket_shorter {q rest : List (Char × Bool)} {set : Char → Bool} (h : bracket q = some (set, rest)) :
    rest.length < q.length := by
  obtain ⟨⟨items, rest'⟩, hitems, heq⟩ := Option.map_eq_some_iff.mp h
  cases heq
  have hlt := bracketItems_shorter hitems
  split_ifs at hlt
  · rw [List.length_tail] at hlt
    omega
  · exact hlt

/-- The pieces of a pattern. A bracket that is not closed stands for itself. -/
def pieces : List (Char × Bool) → List Piece
  | []     => []
  | s :: q =>
    if s = ('*', false) then .run :: pieces q
    else if s = ('?', false) then .one (fun _ => true) :: pieces q
    else if s = ('[', false) then
      match _h : bracket q with
      | some (set, rest) => .one set :: pieces rest
      | none             => .one (· == '[') :: pieces q
    else .one (· == s.1) :: pieces q
termination_by q => q.length
decreasing_by
  all_goals simp only [List.length_cons]
  · omega
  · omega
  · have := bracket_shorter _h
    omega
  · omega
  · omega

/-- A character that stands for itself. -/
def Plain (s : Char × Bool) : Prop := s ≠ ('*', false) ∧ s ≠ ('?', false) ∧ s ≠ ('[', false)

instance (s : Char × Bool) : Decidable (Plain s) := inferInstanceAs (Decidable (_ ∧ _ ∧ _))

variable {s : Char × Bool} {q rest : List (Char × Bool)}

@[simp] theorem pieces_nil : pieces [] = [] := by rw [pieces]

@[simp] theorem pieces_star : pieces (('*', false) :: q) = .run :: pieces q := by rw [pieces, if_pos rfl]

@[simp] theorem pieces_question : pieces (('?', false) :: q) = .one (fun _ => true) :: pieces q := by
  rw [pieces, if_neg (by decide), if_pos rfl]

theorem pieces_plain (h : Plain s) : pieces (s :: q) = .one (· == s.1) :: pieces q := by
  rw [pieces, if_neg h.1, if_neg h.2.1, if_neg h.2.2]

/-- What does not open a bracket is read by itself. -/
theorem pieces_cons_congr {q' : List (Char × Bool)} (hs : s ≠ ('[', false)) (h : pieces q = pieces q') :
    pieces (s :: q) = pieces (s :: q') := by
  rw [pieces, pieces]
  simp only [if_neg hs, h]

theorem pieces_bracket {set : Char → Bool} (h : bracket q = some (set, rest)) :
    pieces (('[', false) :: q) = .one set :: pieces rest := by
  rw [pieces, if_neg (by decide), if_neg (by decide), if_pos rfl]
  split
  · rename_i h'
    cases h.symm.trans h'
    rfl
  · rename_i h'
    cases h.symm.trans h'

/-- Characters that stand for themselves are accepted as they are. -/
theorem accepts_plain {q : List (Char × Bool)} (h : ∀ s ∈ q, Plain s) (name : List Char) :
    accepts (pieces q) name = decide (name = q.map Prod.fst) := by
  induction q generalizing name with
  | nil =>
    rw [pieces_nil, accepts]
    cases name <;> rfl
  | cons s q ih =>
    rw [pieces_plain (h s List.mem_cons_self)]
    cases name with
    | nil => rfl
    | cons c name =>
      rw [accepts, ih (fun s hs => h s (List.mem_cons_of_mem _ hs)), List.map_cons, Bool.eq_iff_iff]
      simp

/-! ## Brackets -/

/-- Characters with a rule that says which of them are quoted. -/
def quote (quoted : Char → Bool) (pattern : List Char) : List (Char × Bool) := pattern.map fun c => (c, quoted c)

variable {quoted quoted' : Char → Bool} {pattern : List Char}

@[simp] theorem quote_nil : quote quoted [] = [] := rfl

@[simp] theorem quote_cons (c : Char) : quote quoted (c :: pattern) = (c, quoted c) :: quote quoted pattern := rfl

@[simp] theorem quote_append (pattern pattern' : List Char) :
    quote quoted (pattern ++ pattern') = quote quoted pattern ++ quote quoted pattern' := List.map_append

/-- A bracket is closed by the first closing bracket behind its first member. -/
theorem bracketItems_quote (hclose : quoted ']' = false) {items : List Char} (hitems : ']' ∉ items) (first : Char)
    (rest : List Char) :
    bracketItems (quote quoted (first :: items ++ ']' :: rest)) =
      some (quote quoted (first :: items), quote quoted rest) := by
  have hne : ∀ s ∈ quote quoted items, staysOpen s = true := by
    intro s hs
    obtain ⟨c, hc, rfl⟩ := List.mem_map.mp hs
    rw [staysOpen, bne_iff_ne]
    intro heq
    cases (Prod.ext_iff.mp heq).1
    exact hitems hc
  have hstop : ¬staysOpen (']', false) = true := by decide
  simp only [bracketItems, quote_append, quote_cons, List.cons_append, hclose]
  rw [List.dropWhile_append_of_pos hne, List.dropWhile_cons_of_neg hstop, List.takeWhile_append_of_pos hne,
    List.takeWhile_cons_of_neg hstop, List.append_nil]

/-- A bracket that is not negated. -/
theorem bracket_quote (hclose : quoted ']' = false) {items : List Char} (hitems : ']' ∉ items) {first : Char}
    (hfirst : negated [(first, quoted first)] = false) (rest : List Char) :
    bracket (quote quoted (first :: items ++ ']' :: rest)) =
      some (fun c => setOf (quote quoted (first :: items)) c != false, quote quoted rest) := by
  have hneg : negated (quote quoted (first :: items ++ ']' :: rest)) = false := hfirst
  rw [bracket, hneg, if_neg Bool.false_ne_true, bracketItems_quote hclose hitems]
  rfl

/-- A negated bracket. -/
theorem bracket_quote_negated (hclose : quoted ']' = false) {items : List Char} (hitems : ']' ∉ items)
    {sign : Char × Bool} (hsign : negated [sign] = true) (first : Char) (rest : List Char) :
    bracket (sign :: quote quoted (first :: items ++ ']' :: rest)) =
      some (fun c => setOf (quote quoted (first :: items)) c != true, quote quoted rest) := by
  have hneg : negated (sign :: quote quoted (first :: items ++ ']' :: rest)) = true := hsign
  rw [bracket, hneg, if_pos rfl, List.tail_cons, bracketItems_quote hclose hitems]
  rfl

theorem setOf_single {items : List (Char × Bool)} (h : items.head? ≠ some ('-', false)) (c : Char) :
    setOf (s :: items) c = (c == s.1 || setOf items c) := by
  rw [setOf]
  rintro hi items' rfl
  exact h rfl

/-- Quoting other characters than `-` does not change a set. -/
theorem setOf_quote (h : quoted '-' = false) (h' : quoted' '-' = false) (items : List Char) (c : Char) :
    setOf (quote quoted items) c = setOf (quote quoted' items) c := by
  -- Three members at a time, as a range has them.
  match items with
  | []        => rfl
  | [_]       => rfl
  | [lo, mid] => simp [setOf]
  | lo :: mid :: hi :: items =>
    by_cases hmid : mid = '-'
    · subst hmid
      simp only [quote_cons, h, h', setOf]
      rw [setOf_quote h h' items]
    · have hsingle : ∀ quoted : Char → Bool,
          setOf (quote quoted (lo :: mid :: hi :: items)) c = (c == lo || setOf (quote quoted (mid :: hi :: items)) c) := by
        intro quoted
        rw [quote_cons, setOf_single]
        intro heq
        exact hmid (congrArg Prod.fst (Option.some.inj heq))
      rw [hsingle, hsingle, setOf_quote h h' (mid :: hi :: items)]

/-! ## Backslashes -/

/-- A backslash quotes the character behind it. -/
def unescaped : List Char → Option (List (Char × Bool))
  | [] => some []
  | ['\\'] => none
  | '\\' :: c :: p => (unescaped p).map ((c, true) :: ·)
  | c :: p => (unescaped p).map ((c, false) :: ·)

/-- `fnmatch` without flags. A pattern that ends in the middle of an escape matches nothing. -/
def fnmatch (pattern name : List Char) : Bool := (unescaped pattern).any fun q => accepts (pieces q) name

theorem unescaped_cons {c : Char} (h : c ≠ '\\') :
    unescaped (c :: pattern) = (unescaped pattern).map ((c, false) :: ·) := by
  rw [unescaped]
  · exact fun heq _ => h heq
  · exact fun _ _ heq => absurd heq h

theorem unescaped_of_notMem (h : '\\' ∉ pattern) : unescaped pattern = some (quote (fun _ => false) pattern) := by
  induction pattern with
  | nil => rfl
  | cons c pattern ih =>
    rw [List.mem_cons, not_or] at h
    rw [unescaped_cons (Ne.symm h.1), ih h.2]
    rfl

/-- The least that a character of a pattern accepts, if it opens no bracket. -/
def least (s : Char × Bool) : List Char := if s = ('*', false) then [] else if s = ('?', false) then ['a'] else [s.1]

/-- A shortest name that is accepted, if there are no brackets. -/
def shortest (q : List (Char × Bool)) : List Char := q.flatMap least

theorem accepts_shortest (h : ('[', false) ∉ q) : accepts (pieces q) (shortest q) = true := by
  induction q with
  | nil =>
    rw [pieces_nil]
    rfl
  | cons s q ih =>
    replace ih := ih fun hq => h (List.mem_cons_of_mem _ hq)
    rw [shortest, List.flatMap_cons, ← shortest, least]
    split_ifs with h1 h2
    · rw [h1, pieces_star, accepts, List.any_eq_true]
      exact ⟨_, (List.mem_tails _ _).mpr List.suffix_rfl, ih⟩
    · rw [h2, pieces_question, List.singleton_append, accepts, ih]
      rfl
    · rw [pieces_plain ⟨h1, h2, fun heq => h (heq ▸ List.mem_cons_self)⟩, List.singleton_append, accepts, ih,
        Bool.and_true]
      exact beq_self_eq_true s.1

theorem count_least_le {b : Char} (h : b ≠ 'a') (s : Char × Bool) : (least s).count b ≤ [s.1].count b := by
  unfold least
  split_ifs
  · exact Nat.zero_le _
  · rw [List.count_eq_zero_of_not_mem (by simpa using h)]
    exact Nat.zero_le _
  · exact Nat.le_refl _

/-- A character that stands for itself is as often in a name that is accepted as it is in the pattern. -/
theorem count_le_of_accepts (hopen : ('[', false) ∉ q) {b : Char} (hstar : b ≠ '*') (hquestion : b ≠ '?')
    {name : List Char} (h : accepts (pieces q) name = true) : (q.map Prod.fst).count b ≤ name.count b := by
  induction q generalizing name with
  | nil => exact Nat.zero_le _
  | cons s q ih =>
    replace ih := @ih (fun hq => hopen (List.mem_cons_of_mem _ hq))
    rw [List.map_cons, List.count_cons]
    by_cases h1 : s = ('*', false)
    · -- what the star takes may have more of them
      subst h1
      rw [pieces_star, accepts, List.any_eq_true] at h
      obtain ⟨behind, hsuffix, hbehind⟩ := h
      rw [if_neg (by simpa using Ne.symm hstar), Nat.add_zero]
      exact (ih hbehind).trans (((List.mem_tails _ _).mp hsuffix).sublist.count_le b)
    · cases name with
      | nil =>
        by_cases h2 : s = ('?', false)
        · rw [h2, pieces_question] at h
          cases h
        · rw [pieces_plain ⟨h1, h2, fun heq => hopen (heq ▸ List.mem_cons_self)⟩] at h
          cases h
      | cons c name =>
        rw [List.count_cons]
        by_cases h2 : s = ('?', false)
        · subst h2
          rw [pieces_question, accepts, Bool.true_and] at h
          rw [if_neg (by simpa using Ne.symm hquestion)]
          exact Nat.le_add_right_of_le (ih h)
        · rw [pieces_plain ⟨h1, h2, fun heq => hopen (heq ▸ List.mem_cons_self)⟩, accepts, Bool.and_eq_true,
            beq_iff_eq] at h
          rw [h.1]
          exact Nat.add_le_add_right (ih h.2) _

theorem mem_of_unescaped (h : unescaped pattern = some q) (hs : s ∈ q) : s.1 ∈ pattern := by
  fun_induction unescaped pattern generalizing q with
  | case1 =>
    cases h
    cases hs
  | case2 => cases h
  | case3 c p ih =>
    obtain ⟨q', hq, rfl⟩ := Option.map_eq_some_iff.mp h
    rcases List.mem_cons.mp hs with rfl | hs
    · exact List.mem_cons_of_mem _ List.mem_cons_self
    · exact List.mem_cons_of_mem _ (List.mem_cons_of_mem _ (ih hq hs))
  | case4 c p _ _ ih =>
    obtain ⟨q', hq, rfl⟩ := Option.map_eq_some_iff.mp h
    rcases List.mem_cons.mp hs with rfl | hs
    · exact List.mem_cons_self
    · exact List.mem_cons_of_mem _ (ih hq hs)

/-- An escape has a backslash that is not in the shortest name. -/
theorem count_shortest_le (h : unescaped pattern = some q) :
    (shortest q).count '\\' ≤ pattern.count '\\' ∧
      ('\\' ∈ pattern → (shortest q).count '\\' < pattern.count '\\') := by
  have hcons : ∀ (s : Char × Bool) (q : List (Char × Bool)),
      (shortest (s :: q)).count '\\' ≤ [s.1].count '\\' + (shortest q).count '\\' := by
    intro s q
    rw [shortest, List.flatMap_cons, List.count_append]
    exact Nat.add_le_add_right (count_least_le (by decide) s) _
  fun_induction unescaped pattern generalizing q with
  | case1 =>
    cases h
    exact ⟨Nat.le_refl _, fun h => absurd h List.not_mem_nil⟩
  | case2 => cases h
  | case3 c p ih =>
    obtain ⟨q', hq, rfl⟩ := Option.map_eq_some_iff.mp h
    have hle := (ih hq).1
    have hfirst : _ ≤ [c].count '\\' + _ := hcons (c, true) q'
    have hcount : ('\\' :: c :: p).count '\\' = [c].count '\\' + p.count '\\' + 1 := by
      rw [List.count_cons_self, ← List.singleton_append, List.count_append]
    exact ⟨by omega, fun _ => by omega⟩
  | case4 c p hlone hescape ih =>
    obtain ⟨q', hq, rfl⟩ := Option.map_eq_some_iff.mp h
    have hc : c ≠ '\\' := by
      rintro rfl
      cases p with
      | nil      => exact hlone rfl rfl
      | cons d p => exact hescape d p rfl rfl
    have hfirst := hcons (c, false) q'
    rw [List.count_cons_of_ne hc, List.count_nil, Nat.zero_add] at hfirst
    rw [List.count_cons_of_ne hc, List.mem_cons]
    exact ⟨hfirst.trans (ih hq).1, fun h => hfirst.trans_lt ((ih hq).2 (h.resolve_left (Ne.symm hc)))⟩

end ShellPatterns
