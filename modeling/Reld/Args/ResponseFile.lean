import Mathlib.Data.List.Basic

/-!
# `Args.ResponseFile` — the arguments in a response file

`tokenize_gnu` goes over the text of a response file once. The same arguments can be written in many ways: each of them
in pieces, bare or in quotes, with more or fewer backslashes, and any separators between them. `Written` says which texts
stand for which arguments, and `tokenizeGnu_written` that the tokenizer gives back the arguments of each of them.
-/

namespace Reld.ResponseFile

/-! ## The tokenizer -/

def isSeparator (c : Char) : Bool := c == ' ' || c == '\t' || c == '\r' || c == '\n'

/-- The double and the single quote. -/
def isQuote (c : Char) : Bool := c == '\x22' || c == '\x27'

/-- A token that is empty is dropped. -/
def pushToken (token : List Char) (out : List (List Char)) : List (List Char) :=
  if token.isEmpty then out else token :: out

/-- The loops of `tokenize_gnu`, with the token so far: the outer one, or the one behind an opening quote. -/
def tokenizeFrom : Option Char → List Char → List Char → List (List Char)
  | _, token, [] => pushToken token []
  | none, token, c :: rest =>
    if c = '\\' then
      match rest with
      | []        => pushToken (token ++ ['\\']) []
      | e :: rest => tokenizeFrom none (token ++ [e]) rest
    else if isQuote c then tokenizeFrom (some c) token rest
    else if isSeparator c then pushToken token (tokenizeFrom none [] rest)
    else tokenizeFrom none (token ++ [c]) rest
  | some quote, token, c :: rest =>
    if c = quote then tokenizeFrom none token rest
    else if c = '\\' then
      match rest with
      | []        => pushToken (token ++ ['\\']) []
      | e :: rest => tokenizeFrom (some quote) (token ++ [e]) rest
    else tokenizeFrom (some quote) (token ++ [c]) rest

/-- `tokenize_gnu`: a byte order mark in front is skipped. -/
def tokenizeGnu (src : List Char) : List (List Char) :=
  tokenizeFrom none [] (if src.head? = some '\ufeff' then src.tail else src)

/-! ## Ways of writing arguments -/

/-- A piece without quotes: separators, quotes and backslashes have a backslash in front of them. -/
inductive Bare : List Char → List Char → Prop where
  | nil : Bare [] []
  | plain {c : Char} {piece text : List Char} (hc : c ≠ '\\') (hquote : isQuote c = false)
      (hseparator : isSeparator c = false) (h : Bare piece text) : Bare (c :: piece) (c :: text)
  | escaped {piece text : List Char} (c : Char) (h : Bare piece text) : Bare (c :: piece) ('\\' :: c :: text)

/-- A piece between two quotes: that quote and backslashes have a backslash in front of them. -/
inductive Quoted (quote : Char) : List Char → List Char → Prop where
  | nil : Quoted quote [] []
  | plain {c : Char} {piece text : List Char} (hc : c ≠ '\\') (hquote : c ≠ quote) (h : Quoted quote piece text) :
      Quoted quote (c :: piece) (c :: text)
  | escaped {piece text : List Char} (c : Char) (h : Quoted quote piece text) :
      Quoted quote (c :: piece) ('\\' :: c :: text)

/-- An argument, cut into pieces. -/
inductive Argument : List Char → List Char → Prop where
  | nil : Argument [] []
  | bare {piece text arg behind : List Char} (hpiece : Bare piece text) (h : Argument arg behind) :
      Argument (piece ++ arg) (text ++ behind)
  | quoted {quote : Char} {piece text arg behind : List Char} (hquote : isQuote quote = true)
      (hpiece : Quoted quote piece text) (h : Argument arg behind) :
      Argument (piece ++ arg) (quote :: text ++ quote :: behind)

def Separators (gap : List Char) : Prop := ∀ c ∈ gap, isSeparator c = true

/-- Arguments with separators in front of them and between them, and any behind the last one. -/
inductive Written : List (List Char) → List Char → Prop where
  | nil {gap : List Char} (hgap : Separators gap) : Written [] gap
  | cons {gap arg text rest : List Char} {args : List (List Char)} (hgap : Separators gap) (harg : arg ≠ [])
      (htext : Argument arg text) (hend : ∀ c ∈ rest.head?, isSeparator c = true) (h : Written args rest) :
      Written (arg :: args) (gap ++ (text ++ rest))

/-! ## What the tokenizer makes of them -/

variable {gap piece arg text : List Char} {quote c : Char}

theorem separator_plain (h : isSeparator c = true) : c ≠ '\\' ∧ isQuote c = false := by
  unfold isSeparator at h
  simp only [Bool.or_eq_true, beq_iff_eq] at h
  rcases h with ((rfl | rfl) | rfl) | rfl <;> decide

theorem quote_ne_backslash (h : isQuote quote = true) : quote ≠ '\\' := by
  rintro rfl
  revert h
  decide

/-! ### One character -/

section Step

variable (token rest : List Char)

/-- What is behind a backslash is added, in quotes as well. -/
theorem tokenizeFrom_escaped (mode : Option Char) (hmode : ∀ quote ∈ mode, isQuote quote = true) (c : Char) :
    tokenizeFrom mode token ('\\' :: c :: rest) = tokenizeFrom mode (token ++ [c]) rest := by
  cases mode with
  | none => exact if_pos rfl
  | some quote => exact (if_neg (quote_ne_backslash (hmode quote rfl)).symm).trans (if_pos rfl)

theorem tokenizeFrom_plain (hc : c ≠ '\\') (hquote : isQuote c = false) (hseparator : isSeparator c = false) :
    tokenizeFrom none token (c :: rest) = tokenizeFrom none (token ++ [c]) rest := by
  rw [tokenizeFrom.eq_def]
  dsimp only
  rw [if_neg hc, hquote, hseparator]
  rfl

theorem tokenizeFrom_open (hquote : isQuote quote = true) :
    tokenizeFrom none token (quote :: rest) = tokenizeFrom (some quote) token rest := by
  rw [tokenizeFrom.eq_def]
  dsimp only
  rw [if_neg (quote_ne_backslash hquote), if_pos hquote]

theorem tokenizeFrom_inside (hc : c ≠ '\\') (hne : c ≠ quote) :
    tokenizeFrom (some quote) token (c :: rest) = tokenizeFrom (some quote) (token ++ [c]) rest := by
  rw [tokenizeFrom.eq_def]
  dsimp only
  rw [if_neg hne, if_neg hc]

theorem tokenizeFrom_close : tokenizeFrom (some quote) token (quote :: rest) = tokenizeFrom none token rest := by
  rw [tokenizeFrom.eq_def]
  exact if_pos rfl

theorem tokenizeFrom_separator (hseparator : isSeparator c = true) :
    tokenizeFrom none token (c :: rest) = pushToken token (tokenizeFrom none [] rest) := by
  obtain ⟨hc, hquote⟩ := separator_plain hseparator
  rw [tokenizeFrom.eq_def]
  dsimp only
  rw [if_neg hc, hquote, if_neg Bool.false_ne_true, if_pos hseparator]

end Step

/-! ### Pieces, arguments and what is between them -/

/-- A bare piece is added to the token. -/
theorem Bare.tokenize (h : Bare piece text) (token behind : List Char) :
    tokenizeFrom none token (text ++ behind) = tokenizeFrom none (token ++ piece) behind := by
  induction h generalizing token with
  | nil => rw [List.nil_append, List.append_nil]
  | plain hc hquote hseparator h ih =>
    rw [List.cons_append, tokenizeFrom_plain _ _ hc hquote hseparator, ih, List.append_assoc, List.singleton_append]
  | escaped c h ih =>
    rw [List.cons_append, List.cons_append, tokenizeFrom_escaped _ _ none (by simp), ih, List.append_assoc,
      List.singleton_append]

/-- So is what stands between two quotes, and the closing one ends the inner loop. -/
theorem Quoted.tokenize (h : Quoted quote piece text) (hquote : isQuote quote = true) (token behind : List Char) :
    tokenizeFrom (some quote) token (text ++ quote :: behind) = tokenizeFrom none (token ++ piece) behind := by
  induction h generalizing token with
  | nil => rw [List.nil_append, tokenizeFrom_close, List.append_nil]
  | plain hc hne h ih =>
    rw [List.cons_append, tokenizeFrom_inside _ _ hc hne, ih, List.append_assoc, List.singleton_append]
  | escaped c h ih =>
    rw [List.cons_append, List.cons_append, tokenizeFrom_escaped _ _ (some quote) (by simpa using hquote), ih,
      List.append_assoc, List.singleton_append]

/-- The pieces of an argument make one token. -/
theorem Argument.tokenize (h : Argument arg text) (token behind : List Char) :
    tokenizeFrom none token (text ++ behind) = tokenizeFrom none (token ++ arg) behind := by
  induction h generalizing token with
  | nil => rw [List.nil_append, List.append_nil]
  | bare hpiece h ih => rw [List.append_assoc, hpiece.tokenize, ih, List.append_assoc]
  | quoted hquote hpiece h ih =>
    rw [List.append_assoc, List.cons_append, List.cons_append, tokenizeFrom_open _ _ hquote, hpiece.tokenize hquote, ih,
      List.append_assoc]

/-- Separators between tokens are skipped. -/
theorem tokenizeFrom_separators (h : Separators gap) (behind : List Char) :
    tokenizeFrom none [] (gap ++ behind) = tokenizeFrom none [] behind := by
  induction gap with
  | nil => rfl
  | cons c gap ih =>
    obtain ⟨hseparator, hgap⟩ := List.forall_mem_cons.1 h
    rw [List.cons_append, tokenizeFrom_separator _ _ hseparator, ih hgap]
    rfl

theorem pushToken_of_ne (h : arg ≠ []) (out : List (List Char)) : pushToken arg out = arg :: out :=
  if_neg (by rwa [List.isEmpty_iff])

/-- A separator, or the end of the text, ends a token. -/
theorem tokenizeFrom_end (harg : arg ≠ []) (hend : ∀ c ∈ text.head?, isSeparator c = true) :
    tokenizeFrom none arg text = arg :: tokenizeFrom none [] text := by
  cases text with
  | nil => exact pushToken_of_ne harg []
  | cons c rest =>
    rw [tokenizeFrom_separator _ _ (hend c rfl), pushToken_of_ne harg, tokenizeFrom_separator _ _ (hend c rfl)]
    rfl

/-- **However arguments are written, the tokenizer gives them back.** -/
theorem tokenizeGnu_written {args : List (List Char)} (h : Written args text) (hmark : text.head? ≠ some '\ufeff') :
    tokenizeGnu text = args := by
  rw [tokenizeGnu, if_neg hmark]
  clear hmark
  induction h with
  | @nil gap hgap =>
    rw [← List.append_nil gap, tokenizeFrom_separators hgap]
    rfl
  | cons hgap harg htext hend h ih =>
    rw [tokenizeFrom_separators hgap, htext.tokenize, List.nil_append, tokenizeFrom_end harg hend, ih]

/-- The text `'a b'c d` with a line break behind it. -/
theorem tokenizeGnu_written_two :
    tokenizeGnu ['\x27', 'a', ' ', 'b', '\x27', 'c', ' ', 'd', '\n'] = [['a', ' ', 'b', 'c'], ['d']] := by
  have hquoted : Quoted '\x27' ['a', ' ', 'b'] ['a', ' ', 'b'] :=
    .plain (by decide) (by decide) (.plain (by decide) (by decide) (.plain (by decide) (by decide) .nil))
  have hfirst : Argument ['a', ' ', 'b', 'c'] ['\x27', 'a', ' ', 'b', '\x27', 'c'] :=
    .quoted (by decide) hquoted (.bare (.plain (by decide) (by decide) (by decide) .nil) .nil)
  have hsecond : Argument ['d'] ['d'] := .bare (.plain (by decide) (by decide) (by decide) .nil) .nil
  have hend : Written [] ['\n'] := .nil (List.forall_mem_singleton.2 rfl)
  have hbreak : ∀ c ∈ ['\n'].head?, isSeparator c = true := by
    rintro c ⟨⟩
    rfl
  have hspace : ∀ c ∈ [' ', 'd', '\n'].head?, isSeparator c = true := by
    rintro c ⟨⟩
    rfl
  have hbehind : Written [['d']] [' ', 'd', '\n'] :=
    .cons (List.forall_mem_singleton.2 rfl : Separators [' ']) (by decide) hsecond hbreak hend
  exact tokenizeGnu_written (.cons (List.forall_mem_nil _) (by decide) hfirst hspace hbehind) (by decide)

end Reld.ResponseFile
