import Mathlib.Data.List.Induction
import Reld.Bridge.Routes

/-!
# `Bridge.ScriptInsert` — scripts with an `INSERT` command

The native parser has no `INSERT`, so that the bridge looks for the command in the text of a script. It takes the
comments out first, wherever `/*` stands, and splits what is left at spaces and delimiters.
-/

namespace Reld.Bridge

/-! ## Looking for the command -/

/-- `strip_block_comments`: outside of a comment, and inside of one. -/
def stripBlockComments : (inComment : Bool) → Str → Str
  | false, '/' :: '*' :: text => stripBlockComments true text
  | false, c :: text => c :: stripBlockComments false text
  | true, '*' :: '/' :: text => stripBlockComments false text
  | true, _ :: text => stripBlockComments true text
  | _, [] => []

/-- White space in ASCII, and the characters around commands. -/
def isScriptDelimiter (c : Char) : Bool := " \t\n\x0c\r;\x7b\x7d(),=".toList.contains c

/-- `tokenize_script` -/
def tokenizeScript (text : Str) : List Str := (text.splitOnP isScriptDelimiter).filter (· ≠ [])

def isInsert (token : Str) : Bool := token == "INSERT".toList

def isPlace (token : Str) : Bool := token == "AFTER".toList || token == "BEFORE".toList

/-- The loop of `script_uses_insert`. -/
def findInsert : (previousWasInsert : Bool) → List Str → Bool
  | _, [] => false
  | previousWasInsert, token :: tokens => previousWasInsert && isPlace token || findInsert (isInsert token) tokens

/-- `script_uses_insert` -/
def scriptUsesInsert (text : Str) : Bool := findInsert false (tokenizeScript (stripBlockComments false text))

/-- What `probe_input_requirement` makes of a text. -/
def textInputKind (text : Str) : InputKind := if scriptUsesInsert text then .scriptWithInsert else .other

/-! ## The tokens of a script -/

/-- Where a reader is: in a word or in a quoted name it keeps what it has read, the last character first. -/
inductive Reading where
  | between
  | comment
  | word (read : Str)
  | quoted (read : Str)

/-- A comment opens between tokens only. A quoted name is one token, with its quotes. -/
def scriptTokens : Reading → Str → List Str
  | .between, '/' :: '*' :: text => scriptTokens .comment text
  | .between, '"' :: text => scriptTokens (.quoted []) text
  | .between, c :: text =>
    if isScriptDelimiter c then scriptTokens .between text else scriptTokens (.word [c]) text
  | .comment, '*' :: '/' :: text => scriptTokens .between text
  | .comment, _ :: text => scriptTokens .comment text
  | .word read, c :: text =>
    if isScriptDelimiter c then read.reverse :: scriptTokens .between text else scriptTokens (.word (c :: read)) text
  | .quoted read, c :: text =>
    if c = '"' then ('"' :: read.reverse ++ ['"']) :: scriptTokens .between text
    else scriptTokens (.quoted (c :: read)) text
  | .word read, [] => [read.reverse]
  | .quoted read, [] => ['"' :: read.reverse]
  | _, [] => []

/-- The command word, followed by `AFTER` or `BEFORE`. -/
def HasInsertCommand (text : Str) : Prop :=
  ∃ place, isPlace place = true ∧ ["INSERT".toList, place] <:+: scriptTokens .between text

def opensComment : Str → Bool
  | '/' :: '*' :: _ => true
  | _ => false

/-- No word or quoted name has `/*` in it, no quoted name has the command in it, and behind a quoted name there is a
delimiter. `name` is the one that has just been closed. -/
def readsPlainly : (name : Str) → Reading → Str → Bool
  | name, .between, '/' :: '*' :: text => readsPlainly name .comment text
  | name, .between, '"' :: text => name == [] && readsPlainly [] (.quoted []) text
  | name, .between, c :: text =>
    if isScriptDelimiter c then readsPlainly [] .between text else name == [] && readsPlainly [] (.word [c]) text
  | name, .comment, '*' :: '/' :: text => readsPlainly name .between text
  | name, .comment, _ :: text => readsPlainly name .comment text
  | _, .word read, c :: text =>
    if isScriptDelimiter c then readsPlainly [] .between text
    else !opensComment (c :: text) && readsPlainly [] (.word (c :: read)) text
  | _, .quoted read, c :: text =>
    if c = '"' then
      !findInsert false (tokenizeScript ('"' :: read.reverse ++ ['"'])) &&
        readsPlainly ('"' :: read.reverse ++ ['"']) .between text
    else !opensComment (c :: text) && readsPlainly [] (.quoted (c :: read)) text
  | _, .quoted read, [] => !findInsert false (tokenizeScript ('"' :: read.reverse))
  | _, _, [] => true

/-! ## Tokens of parts of a text -/

variable {c : Char} {text : Str}

theorem not_opensComment (h : opensComment (c :: text) = false) : ∀ rest, c = '/' → text = '*' :: rest → False := by
  rintro rest rfl rfl
  cases h

theorem stripBlockComments_cons (h : ∀ rest, c = '/' → text = '*' :: rest → False) :
    stripBlockComments false (c :: text) = c :: stripBlockComments false text := by
  rw [stripBlockComments]
  exact h

theorem tokenizeScript_append (front text : Str) (hc : isScriptDelimiter c = true) :
    tokenizeScript (front ++ c :: text) = tokenizeScript front ++ tokenizeScript text := by
  unfold tokenizeScript
  rw [List.splitOnP_append_cons front text hc, List.filter_append]

theorem tokenizeScript_word {word : Str} (hne : word ≠ []) (hword : ∀ c ∈ word, isScriptDelimiter c = false) :
    tokenizeScript word = [word] := by
  unfold tokenizeScript
  rw [List.splitOnP_eq_singleton hword]
  simp [hne]

/-- The first token of a text that starts with a quote starts with it. -/
theorem tokenizeScript_quote (text : Str) : ∃ word tokens, tokenizeScript ('"' :: text) = ('"' :: word) :: tokens := by
  obtain ⟨word, rest, hsplit⟩ := List.exists_cons_of_ne_nil (List.splitOnP_ne_nil isScriptDelimiter text)
  refine ⟨word, rest.filter (· ≠ []), ?_⟩
  unfold tokenizeScript
  rw [List.splitOnP_cons_eq_if_modifyHead, hsplit]
  rfl

/-- The last token of a text that ends with a quote ends with it. -/
theorem tokenizeScript_concat_quote (text word : Str) (hword : ∀ c ∈ word, isScriptDelimiter c = false) :
    ∃ tokens word', tokenizeScript (text ++ (word ++ ['"'])) = tokens ++ [word' ++ ['"']] := by
  have hquote : ∀ c ∈ word ++ ['"'], isScriptDelimiter c = false := by
    simpa [or_imp, forall_and] using ⟨hword, by decide⟩
  induction text using List.reverseRecOn generalizing word with
  | nil => exact ⟨[], word, tokenizeScript_word (by simp) hquote⟩
  | append_singleton text c ih =>
    rw [List.append_assoc, List.singleton_append]
    cases hc : isScriptDelimiter c with
    | true =>
      rw [tokenizeScript_append _ _ hc, tokenizeScript_word (by simp) hquote]
      exact ⟨_, _, rfl⟩
    | false =>
      exact ih (c :: word) (List.forall_mem_cons.mpr ⟨hc, hword⟩) (List.forall_mem_cons.mpr ⟨hc, hquote⟩)

theorem findInsert_append (prev : Bool) (tokens : List Str) (token : Str) (rest : List Str) :
    findInsert prev (tokens ++ token :: rest) =
      (findInsert prev (tokens ++ [token]) || findInsert (isInsert token) rest) := by
  induction tokens generalizing prev with
  | nil => simp [findInsert]
  | cons first tokens ih =>
    rw [List.cons_append, List.cons_append, findInsert, findInsert, ih, Bool.or_assoc]

theorem findInsert_iff (prev : Bool) (tokens : List Str) : findInsert prev tokens = true ↔
    (prev = true ∧ ∃ place ∈ tokens.head?, isPlace place = true) ∨
      ∃ place, isPlace place = true ∧ ["INSERT".toList, place] <:+: tokens := by
  induction tokens generalizing prev with
  | nil => simp [findInsert]
  | cons token tokens ih =>
    have hprefix : ∀ place, ["INSERT".toList, place] <+: token :: tokens ↔
        isInsert token = true ∧ place ∈ tokens.head? := by
      intro place
      unfold isInsert
      rw [List.cons_prefix_cons, beq_iff_eq, eq_comm]
      cases tokens <;> simp [eq_comm]
    simp only [findInsert, Bool.or_eq_true, Bool.and_eq_true, ih, List.head?_cons, Option.mem_some_iff, exists_eq_left',
      List.infix_cons_iff, hprefix, and_or_left, exists_or]
    refine or_congr Iff.rfl (or_congr ?_ Iff.rfl)
    exact ⟨fun ⟨h, place, hmem, hplace⟩ => ⟨place, hplace, h, hmem⟩, fun ⟨place, hplace, h, hmem⟩ => ⟨h, place, hmem, hplace⟩⟩

/-! ## Reading a text -/

/-- Nothing, or a quoted name without the command in it. -/
def Closed (name : Str) : Prop :=
  name = [] ∨ (∃ text, name = '"' :: text ++ ['"']) ∧ findInsert false (tokenizeScript name) = false

theorem findInsert_name (prev : Bool) (text : Str) (tokens : List Str) :
    findInsert prev (('"' :: text) :: tokens) = findInsert false tokens := by
  simp [findInsert, isPlace, isInsert]

theorem findInsert_quote (prev : Bool) (text : Str) :
    findInsert prev (tokenizeScript ('"' :: text)) = findInsert false (tokenizeScript ('"' :: text)) := by
  obtain ⟨word, tokens, htokens⟩ := tokenizeScript_quote text
  have hplace : isPlace ('"' :: word) = false := by simp [isPlace]
  rw [htokens]
  simp [findInsert, hplace]

/-- A quoted name is no command, and separates what is before it from what is behind. -/
theorem Closed.findInsert {name : Str} (h : Closed name) (prev : Bool) (rest : List Str) :
    findInsert prev (tokenizeScript name ++ rest) = findInsert (prev && name == []) rest := by
  rcases h with rfl | ⟨⟨text, rfl⟩, hfind⟩
  · simp [tokenizeScript]
  · obtain ⟨tokens, word, htokens⟩ := tokenizeScript_concat_quote ('"' :: text) [] (by simp)
    have hinsert : isInsert (word ++ ['"']) = false := by
      unfold isInsert
      rw [beq_eq_false_iff_ne]
      intro heq
      exact absurd (congrArg List.getLast? heq) (by simp)
    rw [List.nil_append] at htokens
    have hname := findInsert_quote prev (text ++ ['"'])
    rw [← List.cons_append, hfind, htokens] at hname
    rw [htokens, List.append_assoc, List.singleton_append, findInsert_append, hname, hinsert]
    simp

/-- What has been read of a token. -/
def Reading.read : Reading → Str
  | .word read => read.reverse
  | .quoted read => '"' :: read.reverse
  | _ => []

/-- In a word there is no delimiter; in a token, nothing is left from before it. -/
def Reading.Follows : Reading → Str → Prop
  | .word read, name => name = [] ∧ read ≠ [] ∧ ∀ c ∈ read.reverse, isScriptDelimiter c = false
  | .quoted _, name => name = []
  | _, _ => True

def Reading.inComment : Reading → Bool
  | .comment => true
  | _ => false

/-- The command is found in the tokens of a text that reads plainly, from anywhere in it. -/
theorem findInsert_reading {name : Str} {reading : Reading} {text : Str} (hname : Closed name)
    (hfollows : reading.Follows name) (h : readsPlainly name reading text = true) (prev : Bool) :
    findInsert prev
        (tokenizeScript (name ++ reading.read ++ stripBlockComments reading.inComment text)) =
      findInsert (prev && name == []) (scriptTokens reading text) := by
  fun_induction readsPlainly name reading text generalizing prev with
  | case1 name text ih => exact ih hname trivial h prev
  | case2 name text ih =>
    rw [Bool.and_eq_true, beq_iff_eq] at h
    obtain ⟨rfl, h⟩ := h
    exact ih hname rfl h prev
  | case3 name c text hopens hquote hdelimiter ih =>
    have htokens : scriptTokens .between (c :: text) = scriptTokens .between text := by
      rw [scriptTokens, if_pos hdelimiter] <;> assumption
    have hrest := ih (.inl rfl) trivial h (prev && name == [])
    rw [beq_self_eq_true, Bool.and_true] at hrest
    show findInsert _ (tokenizeScript (name ++ [] ++ stripBlockComments false (c :: text))) = _
    rw [stripBlockComments_cons hopens, List.append_nil, tokenizeScript_append _ _ hdelimiter, hname.findInsert, htokens]
    exact hrest
  | case4 name c text hopens hquote hdelimiter ih =>
    rw [Bool.and_eq_true, beq_iff_eq] at h
    obtain ⟨rfl, h⟩ := h
    have htokens : scriptTokens .between (c :: text) = scriptTokens (.word [c]) text := by
      rw [scriptTokens, if_neg hdelimiter] <;> assumption
    show findInsert _ (tokenizeScript (stripBlockComments false (c :: text))) = _
    rw [stripBlockComments_cons hopens, htokens]
    exact ih hname ⟨rfl, by simp, by simpa using hdelimiter⟩ h prev
  | case5 name text ih => exact ih hname trivial h prev
  | case6 name c text hcloses ih =>
    have hstrip : stripBlockComments true (c :: text) = stripBlockComments true text := by
      rw [stripBlockComments]
      exact hcloses
    have htokens : scriptTokens .comment (c :: text) = scriptTokens .comment text := by
      rw [scriptTokens]
      exact hcloses
    show findInsert _ (tokenizeScript (name ++ [] ++ stripBlockComments true (c :: text))) = _
    rw [hstrip, htokens]
    exact ih hname trivial h prev
  | case7 name read c text hdelimiter ih =>
    obtain ⟨rfl, hne, hword⟩ := hfollows
    have hopens : ∀ rest, c = '/' → text = '*' :: rest → False := fun _ hc _ => by
      rw [hc] at hdelimiter
      exact absurd hdelimiter (by decide)
    have hrest := ih hname trivial h (isInsert read.reverse)
    rw [beq_self_eq_true, Bool.and_true] at hrest
    show findInsert _ (tokenizeScript (read.reverse ++ stripBlockComments false (c :: text))) = _
    rw [stripBlockComments_cons hopens, tokenizeScript_append _ _ hdelimiter,
      tokenizeScript_word (by simpa using hne) hword, scriptTokens, if_pos hdelimiter, List.singleton_append,
      findInsert, findInsert, ← hrest, beq_self_eq_true, Bool.and_true]
    rfl
  | case8 name read c text hdelimiter ih =>
    obtain ⟨rfl, hne, hword⟩ := hfollows
    rw [Bool.and_eq_true, Bool.not_eq_true'] at h
    have hword' : ∀ c' ∈ (c :: read).reverse, isScriptDelimiter c' = false := by
      simpa [or_imp, forall_and] using ⟨by simpa using hword, by simpa using hdelimiter⟩
    have hrest := ih hname ⟨rfl, by simp, hword'⟩ h.2 prev
    show findInsert _ (tokenizeScript (read.reverse ++ stripBlockComments false (c :: text))) = _
    rw [stripBlockComments_cons (not_opensComment h.1), scriptTokens, if_neg hdelimiter, ← hrest, List.append_cons,
      ← List.reverse_cons]
    rfl
  | case9 name read text ih =>
    obtain rfl := hfollows
    rw [Bool.and_eq_true, Bool.not_eq_true'] at h
    have hrest := ih (.inr ⟨⟨_, rfl⟩, h.1⟩) trivial h.2 prev
    show findInsert _ (tokenizeScript ('"' :: read.reverse ++ '"' :: stripBlockComments false text)) =
      findInsert _ (('"' :: (read.reverse ++ ['"'])) :: scriptTokens .between text)
    rw [findInsert_name, List.append_cons]
    simpa [Reading.read, Reading.inComment] using hrest
  | case10 name read c text hquote ih =>
    obtain rfl := hfollows
    rw [Bool.and_eq_true, Bool.not_eq_true'] at h
    have hrest := ih hname rfl h.2 prev
    show findInsert _ (tokenizeScript ('"' :: read.reverse ++ stripBlockComments false (c :: text))) = _
    rw [stripBlockComments_cons (not_opensComment h.1), scriptTokens, if_neg hquote, ← hrest, List.append_cons,
      List.cons_append, ← List.reverse_cons]
    rfl
  | case11 name read =>
    obtain rfl := hfollows
    rw [Bool.not_eq_true'] at h
    show findInsert _ (tokenizeScript ('"' :: read.reverse ++ [])) = findInsert _ ['"' :: read.reverse]
    rw [List.append_nil, findInsert_quote, h, findInsert_name]
    rfl
  | case12 name reading hquoted =>
    cases reading with
    | quoted read => exact absurd rfl (hquoted read)
    | word read =>
      obtain ⟨rfl, hne, hword⟩ := hfollows
      show findInsert _ (tokenizeScript (read.reverse ++ [])) = findInsert _ [read.reverse]
      rw [List.append_nil, tokenizeScript_word (by simpa using hne) hword, beq_self_eq_true, Bool.and_true]
    | between | comment =>
      have hend := hname.findInsert prev []
      rw [List.append_nil] at hend
      show findInsert _ (tokenizeScript (name ++ [] ++ [])) = _
      rw [List.append_nil, List.append_nil]
      exact hend

end Reld.Bridge
