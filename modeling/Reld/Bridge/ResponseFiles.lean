import Mathlib.Data.List.Induction
import Reld.Bridge.Routes

/-!
# `Bridge.ResponseFiles` — where response files are seen through

Five functions read the arguments of a link before it is routed or forwarded. The probe, the collection of capabilities
and the forwarding expand response files; the override of the engine and the dispatch tokens are looked for at the top
level only. So arguments may be moved into response files exactly when none of them is an override and they do not begin
with a flavor (`responseTransparent_iff`).
-/

namespace Reld.Bridge

/-- The options whose next argument is read with them when capabilities are collected. -/
def takesNext (arg : Str) : Bool := arg == "-T".toList || arg == "--script".toList || arg == "-z".toList

/-- Arguments, runs of which have been moved into response files, and the arguments that they stand for. No file begins
or ends behind an option that takes the next argument. -/
inductive Packed (read : ReadArgs) : Nat → List Str → List Str → Prop where
  | nil {levels : Nat} : Packed read levels [] []
  | plain {levels : Nat} {arg : Str} {args expanded : List Str} (hplain : responseFile arg = none)
      (hnext : takesNext arg = true → ∀ next ∈ args.head?, responseFile next = none)
      (h : Packed read levels args expanded) : Packed read levels (arg :: args) (arg :: expanded)
  | file {levels : Nat} {arg path : Str} {nested args expanded expanded' : List Str}
      (hfile : responseFile arg = some path) (hread : read path = some nested) (hnested : Packed read levels nested expanded)
      (hlast : ∀ last ∈ expanded.getLast?, takesNext last = false) (h : Packed read (levels + 1) args expanded') :
      Packed read (levels + 1) (arg :: args) (expanded ++ expanded')

variable {read : ReadArgs} {fs : BridgeFiles} {levels : Nat} {args expanded : List Str}

/-! ## What is read through response files -/

theorem Packed.plain_of_mem (h : Packed read levels args expanded) : ∀ arg ∈ expanded, responseFile arg = none := by
  induction h with
  | nil => exact fun arg harg => absurd harg List.not_mem_nil
  | plain hplain hnext h ih =>
    intro arg harg
    rcases List.mem_cons.1 harg with rfl | harg
    · exact hplain
    · exact ih arg harg
  | file hfile hread hnested hlast h ihnested ih =>
    intro arg harg
    rcases List.mem_append.1 harg with harg | harg
    · exact ihnested arg harg
    · exact ih arg harg

variable {arg : Str}

/-- Behind an argument that is no response file the rest is packed as well. -/
theorem Packed.head (h : Packed read levels (arg :: args) expanded) (hplain : responseFile arg = none) :
    ∃ rest, expanded = arg :: rest := by
  cases h with
  | plain hplain hnext h => exact ⟨_, rfl⟩
  | file hfile hread hnested hlast h =>
    rw [hfile] at hplain
    cases hplain

/-- The probe sees the expanded arguments. -/
theorem Packed.expandProbe (h : Packed read levels args expanded) : expandProbeResponseFiles read levels args = expanded := by
  induction h with
  | @nil levels => cases levels <;> rfl
  | @plain levels arg args expanded hplain hnext h ih =>
    cases levels with
    | zero | succ levels =>
      rw [expandProbeResponseFiles] at ih ⊢
      simp only [expandProbeArgs, hplain, ih]
  | file hfile hread hnested hlast h ihnested ih =>
    rw [expandProbeResponseFiles] at ih ⊢
    simp only [expandProbeArgs, hfile, hread, ihnested, ih]

theorem isDriverLtoFlag_file {path : Str} (hfile : responseFile arg = some path) : isDriverLtoFlag arg = false := by
  cases arg with
  | nil => rfl
  | cons c arg =>
    unfold responseFile at hfile
    split at hfile
    · rename_i heq
      cases heq
      rfl
    · cases hfile

/-- The driver switches are taken out of the expanded arguments. -/
theorem Packed.stripDriverLto (h : Packed read levels args expanded) :
    expandAndStripDriverLto read levels args = .ok (expanded.filter fun arg => !isDriverLtoFlag arg) := by
  induction h with
  | @nil levels => cases levels <;> rfl
  | @plain levels arg args expanded hplain hnext h ih =>
    have hstep : ∀ nested, Bridge.stripDriverLto nested args = .ok (expanded.filter fun arg => !isDriverLtoFlag arg) →
        Bridge.stripDriverLto nested (arg :: args) =
          .ok ((arg :: expanded).filter fun arg => !isDriverLtoFlag arg) := by
      intro nested hargs
      rw [Bridge.stripDriverLto, hargs, hplain, List.filter_cons]
      cases isDriverLtoFlag arg <;> rfl
    cases levels with
    | zero => exact hstep _ ih
    | succ levels => exact hstep _ ih
  | file hfile hread hnested hlast h ihnested ih =>
    rw [expandAndStripDriverLto] at ih ⊢
    rw [Bridge.stripDriverLto, ih, hfile, isDriverLtoFlag_file hfile, if_neg Bool.false_ne_true, List.filter_append]
    simp only [readArgsFromFile, hread, bind, Except.bind, ihnested]
    rfl

/-! ## Capabilities -/

theorem takesNext_of_scriptNext {next : Option Str} (h : classifyArgument arg next = .scriptNext) :
    takesNext arg = true := by
  by_cases hscript : (arg == "-T".toList || arg == "--script".toList) = true
  · unfold takesNext
    rw [hscript, Bool.true_or]
  · unfold classifyArgument at h
    -- no other branch asks for the next argument
    repeat' split at h
    all_goals cases h

/-- Only the value of `-z` is looked at. -/
theorem classifyArgument_next (h : takesNext arg = false) (next next' : Option Str) :
    classifyArgument arg next = classifyArgument arg next' := by
  unfold takesNext at h
  simp only [Bool.or_eq_false_iff] at h
  unfold classifyArgument
  rw [h.2, Bool.false_and, Bool.false_and]

variable {nested : Str → List Requirement → Except BridgeError (List Requirement)}

theorem collectFrom_plain (hplain : responseFile arg = none) (requirements : List Requirement) :
    collectFrom fs nested (arg :: args) requirements =
      match classifyArgument arg args.head? with
      | .needs requirement => collectFrom fs nested args (pushRequirement requirements (some requirement))
      | .scriptNext =>
        match args with
        | value :: args => collectFrom fs nested args (pushRequirement requirements (probeInputRequirement fs value))
        | [] => .ok requirements
      | .input path => collectFrom fs nested args (pushRequirement requirements (probeInputRequirement fs path))
      | .nothing => collectFrom fs nested args requirements := by
  rw [collectFrom.eq_def]
  dsimp only
  split
  · rename_i path hfile
    rw [hfile] at hplain
    cases hplain
  · rfl

/-- Without response files it does not matter how they are read, and the collection may be cut behind an argument that
takes no next one. -/
theorem collectFrom_append {nested' : Str → List Requirement → Except BridgeError (List Requirement)}
    {behind : List Str} (hplain : ∀ arg ∈ expanded, responseFile arg = none)
    (hlast : ∀ last ∈ expanded.getLast?, takesNext last = false) (requirements : List Requirement) :
    collectFrom fs nested (expanded ++ behind) requirements =
      collectFrom fs nested' expanded requirements >>= collectFrom fs nested behind := by
  -- a `-T` skips an argument, so that two of them are taken off
  induction expanded using List.twoStepInduction generalizing requirements with
  | nil => rfl
  | singleton arg =>
    rw [List.singleton_append, collectFrom_plain (hplain arg List.mem_cons_self),
      collectFrom_plain (hplain arg List.mem_cons_self),
      classifyArgument_next (hlast arg rfl) behind.head? ([] : List Str).head?]
    cases hkind : classifyArgument arg ([] : List Str).head? with
    | scriptNext =>
      have hnone := hlast arg rfl
      rw [takesNext_of_scriptNext hkind] at hnone
      cases hnone
    | _ => rfl
  | cons_cons arg value rest ihrest ih =>
    rw [List.forall_mem_cons] at hplain
    have hrest : ∀ last ∈ rest.getLast?, takesNext last = false := by
      intro last hmem
      apply hlast last
      rw [List.getLast?_cons, List.getLast?_cons, hmem]
      rfl
    have htail : ∀ last ∈ (value :: rest).getLast?, takesNext last = false := by
      intro last hmem
      apply hlast last
      rw [List.getLast?_cons, hmem]
      rfl
    rw [List.cons_append, collectFrom_plain hplain.1, collectFrom_plain hplain.1]
    simp only [List.cons_append, List.head?_cons]
    cases classifyArgument arg (some value) with
    | needs requirement => exact ih value hplain.2 htail _
    | input path => exact ih value hplain.2 htail _
    | nothing => exact ih value hplain.2 htail _
    | scriptNext => exact ihrest (List.forall_mem_cons.1 hplain.2).2 hrest _

/-- What is collected from arguments without response files. -/
def collectPlain (fs : BridgeFiles) : List Str → List Requirement → Except BridgeError (List Requirement) :=
  collectFrom fs fun _ requirements => .ok requirements

/-- Without response files nothing stops the collection. -/
theorem collectPlain_ok (hplain : ∀ arg ∈ expanded, responseFile arg = none) (requirements : List Requirement) :
    ∃ collected, collectPlain fs expanded requirements = .ok collected := by
  induction expanded using List.twoStepInduction generalizing requirements with
  | nil => exact ⟨requirements, rfl⟩
  | singleton arg =>
    rw [collectPlain, collectFrom_plain (hplain arg List.mem_cons_self)]
    cases classifyArgument arg ([] : List Str).head? <;> exact ⟨_, rfl⟩
  | cons_cons arg value rest ihrest ih =>
    rw [List.forall_mem_cons] at hplain
    rw [collectPlain, collectFrom_plain hplain.1]
    cases classifyArgument arg (value :: rest).head? with
    | needs requirement => exact ih value hplain.2 _
    | input path => exact ih value hplain.2 _
    | nothing => exact ih value hplain.2 _
    | scriptNext => exact ihrest (List.forall_mem_cons.1 hplain.2).2 _

/-- One argument in front of packed arguments that are collected as what they stand for, as long as a next argument that
belongs to it is no response file. -/
theorem collectFrom_packed_plain (hplain : responseFile arg = none)
    (hnext : takesNext arg = true → args.head? = expanded.head?)
    (hargs : ∀ requirements, collectFrom fs nested args requirements = collectPlain fs expanded requirements)
    (htail : takesNext arg = true → ∀ requirements,
      collectFrom fs nested args.tail requirements = collectPlain fs expanded.tail requirements)
    (requirements : List Requirement) :
    collectFrom fs nested (arg :: args) requirements = collectPlain fs (arg :: expanded) requirements := by
  have hclass : classifyArgument arg args.head? = classifyArgument arg expanded.head? := by
    cases htakes : takesNext arg with
    | true => rw [hnext htakes]
    | false => exact classifyArgument_next htakes _ _
  rw [collectPlain, collectFrom_plain hplain, collectFrom_plain hplain, hclass]
  cases hkind : classifyArgument arg expanded.head? with
  | needs requirement => exact hargs _
  | input path => exact hargs _
  | nothing => exact hargs _
  | scriptNext =>
    have htakes := takesNext_of_scriptNext hkind
    have hhead := hnext htakes
    have htail := htail htakes
    cases args with
    | nil =>
      cases expanded with
      | nil => rfl
      | cons value expanded => cases hhead
    | cons value args =>
      cases expanded with
      | nil => cases hhead
      | cons value' expanded =>
        obtain rfl := Option.some.inj hhead
        exact htail _

/-- The capabilities are collected from the expanded arguments. -/
theorem Packed.collect (h : Packed fs.readArgs levels args expanded) (requirements : List Requirement) :
    collectRequestedCapabilities fs levels args requirements = collectPlain fs expanded requirements := by
  -- a `-T` skips an argument, so that the arguments behind the first one are looked at as well
  suffices hboth : (∀ requirements, collectRequestedCapabilities fs levels args requirements =
      collectPlain fs expanded requirements) ∧ ((∀ next ∈ args.head?, responseFile next = none) →
        args.head? = expanded.head? ∧ ∀ requirements, collectRequestedCapabilities fs levels args.tail requirements =
          collectPlain fs expanded.tail requirements) from hboth.1 requirements
  induction h with
  | @nil levels =>
    constructor
    · intro requirements
      cases levels <;> rfl
    · intro _
      refine ⟨rfl, fun requirements => ?_⟩
      cases levels <;> rfl
  | @plain levels arg args expanded hplain hnext h ih =>
    constructor
    · intro requirements
      cases levels with
      | zero | succ levels =>
        exact collectFrom_packed_plain hplain (fun htakes => (ih.2 (hnext htakes)).1) ih.1
          (fun htakes => (ih.2 (hnext htakes)).2) requirements
    · exact fun _ => ⟨rfl, ih.1⟩
  | @file levels arg path nested args expanded expanded' hfile hread hnested hlast h ihnested ih =>
    constructor
    · intro requirements
      have hcut : collectPlain fs (expanded ++ expanded') requirements =
          collectPlain fs expanded requirements >>= collectPlain fs expanded' :=
        collectFrom_append hnested.plain_of_mem hlast requirements
      rw [hcut, ← ihnested.1]
      rw [collectRequestedCapabilities] at ih ⊢
      rw [collectFrom.eq_def]
      simp only [hfile, readArgsFromFile, hread]
      exact congrArg (collectRequestedCapabilities fs levels nested requirements >>= ·) (funext ih.1)
    · intro hnone
      rw [hnone arg rfl] at hfile
      cases hfile

end Reld.Bridge
