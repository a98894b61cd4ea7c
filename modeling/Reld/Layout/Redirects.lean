import Reld.Layout.Evaluate
import Reld.Lib.OnePass
import Reld.Link.Wrapped

/-!
# `Layout.Redirects` — the values of symbol assignments

After layout, `update_redirect_resolutions` goes once through the assignments of the prelude (`--defsym`) and of the
linker scripts, in the order of the groups, and evaluates each with the raw values that the symbols have by then.
An assignment that is behind a reference to its symbol still has its initial value there, 0. `updates_iff` says when
the values fit their expressions in the end: the assignments are equations for the raw values, and the update is
one pass over them (`Lib.OnePass`).
-/

namespace Reld

/-- A symbol assignment: `Redirect` with the symbol that it defines. `place` is the whole `SymbolLoc`. -/
structure Assignment where
  symbolId : SymbolId
  expression : Expression
  place : Option SymbolPlace
  /-- The assignments of the prelude are evaluated without location counters. -/
  inPrelude : Bool

/-- The raw values of the symbols that have a resolution. -/
abbrev RawValues := SymbolId → Option UInt64

/-! ## The assignments of a link -/

/-- The definitions of a file or group with their symbols. -/
def numberedDefinitions (start : SymbolId) (inPrelude : Bool) (defs : List InternalSymDefInfo) :
    List (SymbolId × InternalSymDefInfo × Bool) :=
  defs.mapIdx fun i d => (start + i, d, inPrelude)

/-- The definitions of a group that `update_redirect_resolutions` goes through. -/
def Group.definitions (start : SymbolId) : Group → List (SymbolId × InternalSymDefInfo × Bool)
  | .prelude defs => numberedDefinitions start true defs
  | .linkerScripts scripts => numberedDefinitions start false (scripts.flatMap LinkerScript.symbolDefs)
  | _ => []

/-- The size of `symbol_id_range`. -/
def Group.numSymbols (g : Group) : Nat := (g.files.map InputFile.numSymbols).sum

/-- The definitions of all groups, the first of which starts with a given symbol. -/
def definitionsFrom (start : SymbolId) : List Group → List (SymbolId × InternalSymDefInfo × Bool)
  | [] => []
  | g :: gs => g.definitions start ++ definitionsFrom (start + g.numSymbols) gs

/-- What `update_redirect_resolutions` reads. -/
structure RedirectContext where
  db : SymbolDb
  /-- The sections, regions and counters; `resolve_symbol` is replaced. -/
  eval : EvalContext
  /-- The places of the assignments. -/
  placeOf : SymbolId → Option SymbolPlace

namespace RedirectContext

variable (u : RedirectContext)

/-- A definition, if it is a redirect. -/
def assignment (d : SymbolId × InternalSymDefInfo × Bool) : Option Assignment :=
  match d.2.1.placement with
  | .redirect r => some ⟨d.1, r.expression, u.placeOf d.1, d.2.2⟩
  | _ => none

/-- The assignments in the order in which they are updated. -/
def assignments : List Assignment := (definitionsFrom 0 u.db.groups).filterMap u.assignment

/-- The callback for the symbols of an expression. -/
def resolveSymbol (values : RawValues) (name : Bytes) : Except EvalError UInt64 :=
  match u.db.getUnversioned name with
  | none => .error (.missingTarget name)
  | some target =>
    match values (u.db.definition target) with
    | none => .error (.missingResolution name)
    | some v => .ok v

/-- What an assignment is evaluated with, apart from the symbols. -/
def contextOf (a : Assignment) : EvalContext :=
  { u.eval with resolvedLocationCounters := if a.inPrelude then [] else u.eval.resolvedLocationCounters }

/-- The value of an assignment's expression under the raw values of the symbols. -/
def evaluate (a : Assignment) (values : RawValues) : Except EvalError UInt64 :=
  { u.contextOf a with resolveSymbol := u.resolveSymbol values }.evaluateExpression a.expression a.place

/-- `update_defsym_symbol_resolution` -/
def updateDefsymSymbolResolution (values : RawValues) (a : Assignment) : Except EvalError RawValues := do
  let value ← u.evaluate a values
  match values a.symbolId with
  | none => return values
  | some _ => return Function.update values a.symbolId (some value)

/-- `update_redirect_resolutions` -/
def updateRedirectResolutions (values : RawValues) : Except EvalError RawValues :=
  u.assignments.foldlM u.updateDefsymSymbolResolution values

end RedirectContext

/-! ## What an expression reads -/

namespace Expression

theorem targets_binary (op : BinaryOp) (l r : Expression) :
    (Expression.binary op l r).targets = l.targets ++ r.targets := by
  unfold targets
  rw [visitExpressions, List.filterMap_cons_none rfl, List.filterMap_append]

theorem targets_ternary (c y n : Expression) :
    (Expression.ternary c y n).targets = c.targets ++ y.targets ++ n.targets := by
  unfold targets
  rw [visitExpressions, List.filterMap_cons_none rfl, List.filterMap_append, List.filterMap_append]

end Expression

variable {f g : Bytes → Except EvalError UInt64}

/-- Only the symbols of an expression are resolved. -/
theorem EvalContext.evaluateValue_congr (ctx : EvalContext) {e : Expression} (h : ∀ name ∈ e.targets, f name = g name)
    (loc : Option SymbolPlace) (flag : Bool) :
    { ctx with resolveSymbol := f }.evaluateValue loc e flag =
      { ctx with resolveSymbol := g }.evaluateValue loc e flag := by
  induction e generalizing flag with
  | number | locationCounter | sizeofHeaders | nameFunction => rfl
  | symbol name =>
    have hname : f name = g name := h name (List.mem_cons_self ..)
    simp only [EvalContext.evaluateValue, hname]
  | unary op e ih =>
    cases op
    case align =>
      simp only [EvalContext.evaluateValue, ih h]
      rfl
    all_goals simp only [EvalContext.evaluateValue, ih h]
  | binary op l r ihl ihr =>
    rw [Expression.targets_binary] at h
    have hl := ihl fun name hname => h name (List.mem_append_left _ hname)
    have hr := ihr fun name hname => h name (List.mem_append_right _ hname)
    cases op
    all_goals simp only [EvalContext.evaluateValue, hl, hr]
  | segmentStart name d ih =>
    simp only [EvalContext.evaluateValue, ih h]
  | ternary c y n ihc ihy ihn =>
    rw [Expression.targets_ternary] at h
    have hc := ihc fun name hname => h name (List.mem_append_left _ (List.mem_append_left _ hname))
    have hy := ihy fun name hname => h name (List.mem_append_left _ (List.mem_append_right _ hname))
    have hn := ihn fun name hname => h name (List.mem_append_right _ hname)
    simp only [EvalContext.evaluateValue, hc, hy, hn]

theorem EvalContext.evaluateExpression_congr (ctx : EvalContext) {e : Expression}
    (h : ∀ name ∈ e.targets, f name = g name) (loc : Option SymbolPlace) :
    { ctx with resolveSymbol := f }.evaluateExpression e loc =
      { ctx with resolveSymbol := g }.evaluateExpression e loc := by
  unfold EvalContext.evaluateExpression
  rw [EvalContext.evaluateValue_congr ctx h]
  rfl

/-! ## Assignments as equations -/

namespace RedirectContext

variable {u : RedirectContext}

/-- The symbols whose values an assignment reads. -/
def reads (u : RedirectContext) (a : Assignment) : List SymbolId :=
  a.expression.targets.filterMap fun name => (u.db.getUnversioned name).map u.db.definition

variable {a : Assignment}

theorem evaluate_congr {f g : RawValues} (h : ∀ id ∈ u.reads a, f id = g id) :
    u.evaluate a f = u.evaluate a g := by
  have hresolve : ∀ name ∈ a.expression.targets, u.resolveSymbol f name = u.resolveSymbol g name := by
    intro name hname
    unfold resolveSymbol
    cases htarget : u.db.getUnversioned name with
    | none => rfl
    | some target =>
      have hmem : u.db.definition target ∈ u.reads a :=
        List.mem_filterMap.2 ⟨name, hname, by rw [htarget, Option.map_some]⟩
      simp only [h _ hmem]
  exact EvalContext.evaluateExpression_congr (u.contextOf a) hresolve a.place

/-- The equation that an assignment stands for; an expression that cannot be evaluated gives no value. -/
def equation (u : RedirectContext) (a : Assignment) : OnePass.Equation SymbolId (Option UInt64) where
  target := a.symbolId
  reads := u.reads a
  value := fun values => (u.evaluate a values).toOption
  local_ := fun f g h => by rw [evaluate_congr h]

/-- The equations of all assignments. -/
def equations (u : RedirectContext) : List (OnePass.Equation SymbolId (Option UInt64)) := u.assignments.map u.equation

/-- The equations of the assignments whose symbols have a resolution. -/
def live (u : RedirectContext) (values : RawValues) : List (OnePass.Equation SymbolId (Option UInt64)) :=
  (u.assignments.filter fun a => (values a.symbolId).isSome).map u.equation

/-- The raw value of every assigned symbol is the value of its expression. -/
def Holds (u : RedirectContext) (values : RawValues) : Prop :=
  ∀ a ∈ u.assignments, ∀ v, values a.symbolId = some v → u.evaluate a values = .ok v

/-! ### Every symbol is assigned once -/

variable {d : SymbolId × InternalSymDefInfo × Bool}

theorem le_of_mem_definitions {start : SymbolId} {g : Group} (h : d ∈ g.definitions start) :
    start ≤ d.1 ∧ d.1 < start + g.numSymbols := by
  have hnumbered (inPrelude : Bool) (defs : List InternalSymDefInfo)
      (hmem : d ∈ numberedDefinitions start inPrelude defs) : start ≤ d.1 ∧ d.1 < start + defs.length := by
    obtain ⟨i, hi, rfl⟩ := List.mem_mapIdx.1 hmem
    exact ⟨Nat.le_add_right .., Nat.add_lt_add_left hi _⟩
  cases g with
  | prelude defs =>
    have hlt := hnumbered _ _ h
    simpa [Group.numSymbols, Group.files, InputFile.numSymbols] using hlt
  | linkerScripts scripts =>
    have hlt := hnumbered _ _ h
    have hsum : (scripts.map fun s => s.symbolDefs.length).sum = (scripts.flatMap LinkerScript.symbolDefs).length := by
      simp [List.length_flatMap]
    simp only [Group.numSymbols, Group.files, List.map_map]
    exact ⟨hlt.1, lt_of_lt_of_eq hlt.2 (congrArg (start + ·) hsum.symm)⟩
  | objects => cases h
  | stubLibraries => cases h
  | syntheticSymbols => cases h
  | ltoInputs => cases h

theorem pairwise_definitionsFrom (groups : List Group) (start : SymbolId) :
    (∀ d ∈ definitionsFrom start groups, start ≤ d.1) ∧
      (definitionsFrom start groups).Pairwise fun d d' => d.1 < d'.1 := by
  induction groups generalizing start with
  | nil => exact ⟨fun _ h => absurd h List.not_mem_nil, .nil⟩
  | cons g groups ih =>
    obtain ⟨hle, hpairwise⟩ := ih (start + g.numSymbols)
    have hnumbered (inPrelude : Bool) (defs : List InternalSymDefInfo) :
        (numberedDefinitions start inPrelude defs).Pairwise fun d d' => d.1 < d'.1 := by
      rw [List.pairwise_iff_getElem]
      intro i j hi hj hij
      simpa [numberedDefinitions] using hij
    have hgroup : (g.definitions start).Pairwise fun d d' => d.1 < d'.1 := by
      cases g with
      | prelude defs => exact hnumbered _ _
      | linkerScripts scripts => exact hnumbered _ _
      | objects | stubLibraries | syntheticSymbols | ltoInputs => exact .nil
    constructor
    · intro d hd
      rcases List.mem_append.1 hd with h | h
      · exact (le_of_mem_definitions h).1
      · exact (Nat.le_add_right ..).trans (hle d h)
    · refine List.pairwise_append.2 ⟨hgroup, hpairwise, fun d hd d' hd' => ?_⟩
      exact (le_of_mem_definitions hd).2.trans_le (hle d' hd')

theorem symbolId_assignment (h : u.assignment d = some a) : a.symbolId = d.1 := by
  unfold assignment at h
  split at h
  · cases h
    rfl
  · cases h

/-- Each symbol has one assignment. -/
theorem nodup_symbolIds (u : RedirectContext) : (u.assignments.map Assignment.symbolId).Nodup := by
  have hpairwise : u.assignments.Pairwise fun a b => a.symbolId < b.symbolId := by
    refine List.Pairwise.filterMap u.assignment ?_ (pairwise_definitionsFrom u.db.groups 0).2
    intro d d' hlt a ha b hb
    rw [symbolId_assignment ha, symbolId_assignment hb]
    exact hlt
  exact List.pairwise_map.2 (hpairwise.imp fun h => Nat.ne_of_lt h)

theorem nodup_targets_live (values : RawValues) : (OnePass.targets (u.live values)).Nodup := by
  have hsub : (OnePass.targets (u.live values)).Sublist (u.assignments.map Assignment.symbolId) := by
    unfold OnePass.targets live
    rw [List.map_map]
    exact List.filter_sublist.map _
  exact (nodup_symbolIds u).sublist hsub

/-! ### The update is one pass -/

variable {values : RawValues}

/-- One update: the value of the equation, if the symbol has a resolution. -/
theorem update_ok {values' : RawValues} (h : u.updateDefsymSymbolResolution values a = .ok values') :
    values' = if (values a.symbolId).isSome then Function.update values a.symbolId ((u.equation a).value values)
      else values := by
  obtain ⟨v, hvalue, h⟩ := Traverse.bind_eq_ok.mp h
  have hequation : (u.equation a).value values = some v := by
    show (u.evaluate a values).toOption = some v
    rw [hvalue]
    rfl
  cases hold : values a.symbolId with
  | none =>
    simp only [hold] at h
    cases h
    rfl
  | some old =>
    simp only [hold] at h
    cases h
    rw [hequation]
    rfl

/-- Updates keep which symbols have a resolution. -/
theorem isSome_update {values' : RawValues} (h : u.updateDefsymSymbolResolution values a = .ok values')
    (id : SymbolId) :
    (values' id).isSome = (values id).isSome := by
  obtain ⟨v, hvalue, h⟩ := Traverse.bind_eq_ok.mp h
  cases hold : values a.symbolId with
  | none =>
    simp only [hold] at h
    cases h
    rfl
  | some old =>
    simp only [hold] at h
    cases h
    by_cases hid : id = a.symbolId
    · subst hid
      rw [Function.update_self, hold]
      rfl
    · rw [Function.update_of_ne hid]

/-- **The updates are a pass** over the equations of the symbols that have a resolution. -/
theorem foldlM_update_eq {l : List Assignment} {final : RawValues}
    (h : l.foldlM u.updateDefsymSymbolResolution values = .ok final) :
    final = OnePass.onePass ((l.filter fun a => (values a.symbolId).isSome).map u.equation) values ∧
      ∀ id, (final id).isSome = (values id).isSome := by
  induction l generalizing values with
  | nil =>
    cases h
    exact ⟨rfl, fun _ => rfl⟩
  | cons a l ih =>
    obtain ⟨values', hstep, h⟩ := Traverse.bind_eq_ok.mp h
    obtain ⟨hfinal, hsome⟩ := ih h
    have hkeeps := isSome_update hstep
    refine ⟨?_, fun id => (hsome id).trans (hkeeps id)⟩
    simp only [hkeeps] at hfinal
    rw [hfinal, update_ok hstep]
    cases hlive : (values a.symbolId).isSome with
    | true =>
      simp only [List.filter_cons, hlive, if_true]
      rfl
    | false =>
      simp [hlive]

/-- What it means that the equations of the symbols with a resolution hold. -/
theorem holds_iff {final : RawValues} (hsome : ∀ id, (final id).isSome = (values id).isSome) :
    u.Holds final ↔ ∀ e ∈ u.live values, final e.target = e.value final := by
  unfold live
  simp only [List.mem_map, List.mem_filter]
  constructor
  · rintro h e ⟨a, ⟨ha, hlive⟩, rfl⟩
    rw [← hsome] at hlive
    obtain ⟨v, hv⟩ := Option.isSome_iff_exists.1 hlive
    have hvalue := h a ha v hv
    show final a.symbolId = (u.evaluate a final).toOption
    rw [hvalue, hv]
    rfl
  · intro h a ha v hv
    have hlive : (values a.symbolId).isSome = true := by
      rw [← hsome, hv]
      rfl
    have hequation : final a.symbolId = (u.evaluate a final).toOption := h _ ⟨a, ⟨ha, hlive⟩, rfl⟩
    rw [hv] at hequation
    cases hvalue : u.evaluate a final with
    | error e =>
      rw [hvalue] at hequation
      cases hequation
    | ok v' =>
      rw [hvalue] at hequation
      cases hequation
      rfl

/-- **When the assignments hold in the end.** Without cycles they have one solution, and the update leaves it exactly
    if every assignment gets its solution from the solutions in front of it and the initial values elsewhere. -/
theorem updates_iff (u : RedirectContext) (hacyclic : OnePass.Acyclic u.equations) {values final : RawValues}
    (hrun : u.updateRedirectResolutions values = .ok final) :
    ∃ solution, OnePass.Solves (u.live values) values solution ∧
      (∀ other, OnePass.Solves (u.live values) values other → other = solution) ∧
      (u.Holds final ↔ OnePass.InOrder (u.live values) values solution) := by
  have hlive : OnePass.Acyclic (u.live values) := by
    refine hacyclic.of_subset fun e he => ?_
    obtain ⟨a, ha, rfl⟩ := List.mem_map.1 he
    exact List.mem_map_of_mem (List.mem_filter.1 ha).1
  have hnodup := nodup_targets_live (u := u) values
  obtain ⟨solution, hsolves⟩ := OnePass.exists_solves hlive hnodup values
  obtain ⟨hfinal, hsome⟩ := foldlM_update_eq hrun
  refine ⟨solution, hsolves, fun other hother => hother.unique hlive hsolves, ?_⟩
  rw [holds_iff hsome, ← OnePass.solves_onePass_iff hlive hnodup hsolves, hfinal]
  rfl

end RedirectContext

/-! ## A forward reference -/

/-- A definition of a linker script. -/
def scriptDefinition (name : String) (e : Expression) : InternalSymDefInfo :=
  { name := bytesOf name, placement := .redirect ⟨e, .anchored⟩ }

/-- A link of one linker script with the given definitions. -/
def scriptState (defs : List InternalSymDefInfo) : LinkState :=
  (LinkState.new plainArgs (.staticExecutable .nonRelocatable) none).addOrSame { linkerScripts := [⟨defs, [], none⟩] }

/-- Its assignments, in front of all sections. -/
def scriptContext (defs : List InternalSymDefInfo) : RedirectContext where
  db := (scriptState defs).db
  eval :=
    { outputSections := .withBaseAddress (.staticExecutable .nonRelocatable)
      sectionLayouts := fun _ => {}
      resolveSymbol := fun name => .error (.missingTarget name) }
  placeOf := fun _ => some .firstSection

/-- Both symbols have a resolution, with the initial value. -/
def initialValues : RawValues := fun id => if id = 1 ∨ id = 2 then some 0 else none

/-- `a = b; b = 4096;` -/
def forwardScript : RedirectContext :=
  scriptContext [scriptDefinition "a" (.symbol (bytesOf "b")), scriptDefinition "b" (.number 4096)]

/-- `b = 4096; a = b;` -/
def backwardScript : RedirectContext :=
  scriptContext [scriptDefinition "b" (.number 4096), scriptDefinition "a" (.symbol (bytesOf "b"))]

/-- References that a rank goes down along make no cycle. -/
theorem acyclic_equations {u : RedirectContext} (rank : SymbolId → Nat)
    (h : ∀ a ∈ u.assignments, ∀ j ∈ u.reads a, rank j < rank a.symbolId) : OnePass.Acyclic u.equations := by
  refine OnePass.acyclic_of_rank rank fun i j hij => ?_
  obtain ⟨e, he, rfl, hj, -⟩ := hij
  obtain ⟨a, ha, rfl⟩ := List.mem_map.1 he
  exact h a ha j hj

theorem updates_iff_backwardScript : ∃ final,
    backwardScript.updateRedirectResolutions initialValues = .ok final ∧
      ∃ solution, OnePass.Solves (backwardScript.live initialValues) initialValues solution ∧
        (∀ other, OnePass.Solves (backwardScript.live initialValues) initialValues other → other = solution) ∧
        (backwardScript.Holds final ↔
          OnePass.InOrder (backwardScript.live initialValues) initialValues solution) := by
  have hacyclic : OnePass.Acyclic backwardScript.equations := acyclic_equations id (by decide)
  exact ⟨_, rfl, RedirectContext.updates_iff backwardScript hacyclic rfl⟩

/-- **A forward reference keeps the initial value**: `a` is 0 and `b` is 4096, although `a = b`. -/
theorem forward_reference_is_stale : ∃ final,
    OnePass.Acyclic forwardScript.equations ∧
      forwardScript.updateRedirectResolutions initialValues = .ok final ∧
      ∃ a ∈ forwardScript.assignments, final a.symbolId = some 0 ∧ forwardScript.evaluate a final = .ok 4096 := by
  refine ⟨_, acyclic_equations (3 - ·) (by decide), rfl, ⟨1, .symbol (bytesOf "b"), some .firstSection, false⟩, ?_, ?_, ?_⟩
  · exact List.mem_cons_self ..
  · rfl
  · rfl

end Reld
