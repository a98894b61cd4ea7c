import Reld.Bridge.ResponseFiles

/-!
# `Bridge.Transparent` — when response files change nothing

The expanded arguments decide everything but two things: the flavor, which is looked for in the first argument, and the
engine that is asked for, which is looked for at the top level. A command line that has neither is linked alike however its
arguments are packed; one that has either is linked otherwise once that is moved into a file
(`responseTransparent_iff`).
-/

namespace Reld.Bridge

/-- A leading flavor is one of GNU. -/
def GnuSyntax (args : List Str) : Prop := args.head? = some flavorFlag → (args[1]?).bind fromFlavor = some .gnu

/-- Two command lines that are linked for the same format, by the same engine for the same reason, with the same arguments
once they are forwarded. -/
structure LinkedAlike (fs : BridgeFiles) (executable : ExplicitFormat) (env : BridgeEnv) (host : BridgeTarget)
    (argv argv' : List Str) : Prop where
  target : linkTarget fs executable argv env.engine host = linkTarget fs executable argv' env.engine host
  route (target : LinkTarget) (h : linkTarget fs executable argv' env.engine host = some target) :
    selectRouteWithPolicy fs argv target env = selectRouteWithPolicy fs argv' target env
  forwarded (engine : Engine) (hbridged : engine.native = false) (hformat : engine.format = .elf ∨ engine.format = .minGw) :
    (forwardedArgsForEngine fs.readArgs argv engine).map (·.1) = (forwardedArgsForEngine fs.readArgs argv' engine).map (·.1)

variable {read : ReadArgs} {fs : BridgeFiles} {executable : ExplicitFormat} {env : BridgeEnv} {host : BridgeTarget}
  {levels : Nat} {program : Str} {args expanded : List Str}

/-! ## Command lines without flavor and override -/

theorem Packed.refl (hplain : ∀ arg ∈ args, responseFile arg = none) : Packed read levels args args := by
  induction args with
  | nil => exact .nil
  | cons arg args ih =>
    rw [List.forall_mem_cons] at hplain
    apply Packed.plain hplain.1 _ (ih hplain.2)
    intro _ next hnext
    exact hplain.2 next (List.mem_of_mem_head? hnext)

theorem Packed.mem (h : Packed read levels args expanded) :
    ∀ arg ∈ args, responseFile arg = none → arg ∈ expanded := by
  induction h with
  | nil => exact fun arg harg => absurd harg List.not_mem_nil
  | plain hplain hnext h ih =>
    intro arg harg hfile
    rcases List.mem_cons.1 harg with rfl | harg
    · exact List.mem_cons_self
    · exact List.mem_cons_of_mem _ (ih arg harg hfile)
  | file hfile hread hnested hlast h ihnested ih =>
    intro arg harg hplain
    rcases List.mem_cons.1 harg with rfl | harg
    · rw [hfile] at hplain
      cases hplain
    · exact List.mem_append_right _ (ih arg harg hplain)

theorem startsWith_engine_file {arg path : Str} (hfile : responseFile arg = some path) :
    startsWith engineFlagPrefix arg = false := by
  unfold responseFile at hfile
  split at hfile
  · rfl
  · cases hfile

/-- No flavor in front and no engine that is asked for. -/
structure Undirected (args : List Str) : Prop where
  flavor : args.head? ≠ some flavorFlag
  engine (arg : Str) (harg : arg ∈ args) : startsWith engineFlagPrefix arg = false

theorem Undirected.of_packed (hexpanded : Undirected expanded) (h : Packed read levels args expanded) : Undirected args where
  flavor := by
    intro hhead
    cases args with
    | nil => cases hhead
    | cons arg args =>
      obtain rfl := Option.some.inj hhead
      obtain ⟨rest, rfl⟩ := h.head rfl
      exact hexpanded.flavor rfl
  engine arg harg := by
    cases hfile : responseFile arg with
    | none => exact hexpanded.engine arg (h.mem arg harg hfile)
    | some path => exact startsWith_engine_file hfile

theorem Undirected.engineOverride (h : Undirected args) : engineOverride args = none := by
  apply List.findSome?_eq_none_iff.2
  intro arg harg
  exact Option.not_isSome_iff_eq_none.1 (Bool.eq_false_iff.1 (h.engine arg harg))

theorem Undirected.drop (h : Undirected args) : dropReldDispatchTokens (program :: args) = args := by
  unfold dropReldDispatchTokens
  simp only [List.drop_one, List.tail_cons, if_neg h.flavor]
  apply List.filter_eq_self.2
  intro arg harg
  rw [h.engine arg harg]
  rfl

theorem Undirected.linkTarget (h : Undirected args) (envEngine : Option Str) :
    linkTarget fs executable (program :: args) envEngine host =
      some (resolveLinkTarget fs executable args envEngine host) := by
  unfold Bridge.linkTarget
  rw [List.drop_one, List.tail_cons, if_neg h.flavor]

/-- The target of an undirected link is that of the arguments that it stands for. -/
theorem Packed.resolveLinkTarget (h : Packed fs.readArgs maxResponseDepth args expanded) (hexpanded : Undirected expanded)
    (envEngine : Option Str) :
    resolveLinkTarget fs executable args envEngine host = resolveLinkTarget fs executable expanded envEngine host := by
  have hprobe : probeLinkTarget fs args = probeLinkTarget fs expanded := by
    unfold probeLinkTarget
    rw [h.expandProbe, (Packed.refl h.plain_of_mem).expandProbe]
  unfold Bridge.resolveLinkTarget
  rw [hprobe, (hexpanded.of_packed h).engineOverride, hexpanded.engineOverride]

theorem Packed.requestedCapabilities (h : Packed fs.readArgs maxResponseDepth args expanded) :
    requestedCapabilities fs (program :: args) = collectPlain fs expanded [] := h.collect []

theorem Packed.linkRequirements (h : Packed fs.readArgs maxResponseDepth args expanded) (target : LinkTarget)
    (nativeControlEnv : Bool) :
    linkRequirements fs (program :: args) target nativeControlEnv =
      linkRequirements fs (program :: expanded) target nativeControlEnv := by
  unfold Bridge.linkRequirements
  rw [h.requestedCapabilities, (Packed.refl h.plain_of_mem).requestedCapabilities]

theorem Packed.selectRoute (h : Packed fs.readArgs maxResponseDepth args expanded) (hexpanded : Undirected expanded)
    (target : LinkTarget) :
    selectRouteWithPolicy fs (program :: args) target env = selectRouteWithPolicy fs (program :: expanded) target env := by
  have hoverride : overrideFromRequest (program :: args) env.engine = overrideFromRequest (program :: expanded) env.engine := by
    unfold overrideFromRequest
    rw [List.drop_one, List.drop_one, List.tail_cons, List.tail_cons, (hexpanded.of_packed h).engineOverride,
      hexpanded.engineOverride]
  unfold selectRouteWithPolicy
  rw [h.linkRequirements, hoverride]

variable {argv : List Str}

/-- An engine that is bridged to gets what is left of the expanded arguments. -/
theorem Packed.forwarded (h : Packed read maxResponseDepth args expanded) (hdrop : dropReldDispatchTokens argv = args)
    {engine : Engine} (hbridged : engine.native = false) (hformat : engine.format = .elf ∨ engine.format = .minGw) :
    forwardedArgsForEngine read argv engine =
      let kept := expanded.filter fun arg => !isDriverLtoFlag arg
      .ok (stripReldOnlyFlags (if engine.format = .minGw then kept.filter (· ≠ allowShlibUndefined) else kept)) := by
  have hcondition : (!engine.native && (engine.format = .elf || engine.format = .minGw)) = true := by
    rw [hbridged]
    simpa using hformat
  unfold forwardedArgsForEngine
  rw [hdrop]
  simp only [hcondition, if_true, h.stripDriverLto]
  rfl

theorem Undirected.linkedAlike (hexpanded : Undirected expanded) (h : Packed fs.readArgs maxResponseDepth args expanded) :
    LinkedAlike fs executable env host (program :: args) (program :: expanded) where
  target := by
    rw [(hexpanded.of_packed h).linkTarget, hexpanded.linkTarget, h.resolveLinkTarget hexpanded]
  route target _ := h.selectRoute hexpanded target
  forwarded engine hbridged hformat := by
    have hrefl : Packed fs.readArgs maxResponseDepth expanded expanded := Packed.refl h.plain_of_mem
    rw [h.forwarded (hexpanded.of_packed h).drop hbridged hformat, hrefl.forwarded hexpanded.drop hbridged hformat]

/-! ## Command lines that ask for a flavor or an engine -/

theorem resolveLinkTarget_gnu (envEngine : Option Str) :
    (resolveLinkTarget fs .gnu args envEngine host).format = .elf ∨
      (resolveLinkTarget fs .gnu args envEngine host).format = .minGw := by
  unfold resolveLinkTarget
  rw [if_neg (by decide), if_neg (by decide)]
  cases ((engineOverride args).or envEngine).bind Engine.find with
  | some engine =>
    by_cases hformat : engine.format = .elf ∨ engine.format = .minGw
    · simp [hformat]
    · simp [hformat]
  | none =>
    cases hfamily : (probeLinkTarget fs args).bind (·.family) with
    | none => simp only [hfamily, if_true, true_or]
    | some family => cases family <;> simp [hfamily]

/-- Files in which each response file holds the same arguments and nothing else is found. -/
def filesOf (nested : List Str) : BridgeFiles where
  readArgs := fun _ => some nested
  inputKind := fun _ => .other
  probe := fun _ => none

def responseArg : Str := "@args".toList

theorem stripReldOnlyFlags_kept {arg : Str} (h : strippedKind arg = none) :
    (stripReldOnlyFlags (arg :: args)).1 = arg :: (stripReldOnlyFlags args).1 := by
  rw [stripReldOnlyFlags, h]

variable {flavor : Str}

theorem gnuFlavor (h : fromFlavor flavor = some .gnu) : flavor = "gnu".toList ∨ flavor = "ld".toList := by
  unfold fromFlavor at h
  split at h
  · assumption
  · split at h
    · cases h
    · split at h <;> cases h

/-- Arguments in a file of their own. -/
theorem packed_filesOf {nested : List Str} (hnested : ∀ arg ∈ nested, responseFile arg = none)
    (hlast : ∀ last ∈ nested.getLast?, takesNext last = false) (hplain : ∀ arg ∈ args, responseFile arg = none) :
    Packed (filesOf nested).readArgs maxResponseDepth (responseArg :: args) (nested ++ args) :=
  Packed.file rfl rfl (Packed.refl hnested) hlast (Packed.refl hplain)

theorem packed_flavor (hflavor : fromFlavor flavor = some .gnu) (hplain : ∀ arg ∈ args, responseFile arg = none) :
    Packed (filesOf [flavorFlag, flavor]).readArgs maxResponseDepth (responseArg :: args) (flavorFlag :: flavor :: args) := by
  refine packed_filesOf ?_ ?_ hplain
  · rcases gnuFlavor hflavor with rfl | rfl <;> exact List.forall_mem_cons.2 ⟨rfl, List.forall_mem_singleton.2 rfl⟩
  · intro last hlast
    obtain rfl := Option.some.inj hlast
    rcases gnuFlavor hflavor with rfl | rfl <;> decide

/-- A flavor that is moved into a file reaches the engine. -/
theorem flavor_not_alike {rest : List Str} (hplain : ∀ arg ∈ rest, responseFile arg = none)
    (hflavor : fromFlavor flavor = some .gnu) :
    ¬ LinkedAlike (filesOf [flavorFlag, flavor]) .gnu {} .elf (program :: responseArg :: rest)
      (program :: flavorFlag :: flavor :: rest) := by
  intro h
  have hkept : ∀ arg ∈ rest.filter (fun arg => !startsWith engineFlagPrefix arg), responseFile arg = none :=
    fun arg harg => hplain arg (List.mem_filter.1 harg).1
  have hpacked := packed_flavor hflavor hkept
  have hforwarded := h.forwarded elfLldEngine rfl (Or.inl rfl)
  rw [hpacked.forwarded rfl rfl (Or.inl rfl),
    (Packed.refl hkept : Packed _ maxResponseDepth _ _).forwarded rfl rfl (Or.inl rfl)] at hforwarded
  have hlength := congrArg List.length (Except.ok.inj hforwarded)
  have hswitch : isDriverLtoFlag flavorFlag = false ∧ isDriverLtoFlag flavor = false := by
    rcases gnuFlavor hflavor with rfl | rfl <;> decide
  have hstripped : strippedKind flavorFlag = none ∧ strippedKind flavor = none := by
    rcases gnuFlavor hflavor with rfl | rfl <;> decide
  have hformat : ¬ elfLldEngine.format = .minGw := by decide
  simp only [if_neg hformat, List.filter_cons, hswitch.1, hswitch.2, Bool.not_false,
    if_true, stripReldOnlyFlags_kept hstripped.1, stripReldOnlyFlags_kept hstripped.2, List.length_cons] at hlength
  omega

/-- What becomes of a link that asks for an engine. -/
def AsksForEngine : Except BridgeError Route → Prop
  | .ok route => route.reason = .overrideFlag
  | .error (.unknownEngine _) => True
  | .error (.engineFormat _ _ _) => True
  | .error (.engineCapability _ _ _) => True
  | .error _ => False

variable {requirements : List Requirement}

theorem selectEngine_some {target : BridgeTarget} {name : Str} {error : BridgeError}
    (h : selectEngine target (some name) requirements = .error error) : AsksForEngine (.error error) := by
  unfold selectEngine at h
  cases hfind : Engine.find name with
  | none =>
    simp only [hfind] at h
    obtain rfl := Except.error.inj h
    trivial
  | some engine =>
    simp only [hfind] at h
    split at h
    · obtain rfl := Except.error.inj h
      trivial
    · split at h
      · obtain rfl := Except.error.inj h
        trivial
      · cases h

theorem selectEngine_none {target : BridgeTarget} {error : BridgeError}
    (h : selectEngine target none requirements = .error error) : ¬ AsksForEngine (.error error) := by
  simp only [selectEngine] at h
  split at h
  · cases h
  · split at h
    · cases h
    · split at h
      all_goals
        obtain rfl := Except.error.inj h
        exact id

variable {target : LinkTarget}

theorem selectRoute_flag {name : Str}
    (hrequirements : linkRequirements fs argv target env.nativeControl = .ok requirements)
    (hoverride : overrideFromRequest argv env.engine = (some name, .overrideFlag)) :
    AsksForEngine (selectRouteWithPolicy fs argv target env) := by
  simp only [selectRouteWithPolicy, hrequirements, hoverride, bind, Except.bind]
  split
  · rename_i error hengine
    exact selectEngine_some hengine
  · rfl

theorem selectRoute_default (hrequirements : linkRequirements fs argv target env.nativeControl = .ok requirements)
    (hoverride : overrideFromRequest argv env.engine = (none, .default)) :
    ¬ AsksForEngine (selectRouteWithPolicy fs argv target env) := by
  simp only [selectRouteWithPolicy, hrequirements, hoverride, bind, Except.bind]
  split
  · rename_i error hengine
    exact selectEngine_none hengine
  · intro hasks
    simp only [Option.isSome_none, Bool.false_eq_true, if_false] at hasks
    -- the ways out: the first requirement, none at all, another format than expected, the default
    split at hasks
    · split at hasks
      · cases hasks
      · exact hasks
    · split at hasks <;> cases hasks

theorem exists_last_engine (h : ∃ arg ∈ args, startsWith engineFlagPrefix arg = true) :
    ∃ front arg behind, args = front ++ arg :: behind ∧ startsWith engineFlagPrefix arg = true ∧
      ∀ arg ∈ behind, startsWith engineFlagPrefix arg = false := by
  induction args with
  | nil =>
    obtain ⟨arg, harg, -⟩ := h
    cases harg
  | cons arg args ih =>
    by_cases hlater : ∃ arg ∈ args, startsWith engineFlagPrefix arg = true
    · obtain ⟨front, found, behind, rfl, hfound, hbehind⟩ := ih hlater
      exact ⟨arg :: front, found, behind, rfl, hfound, hbehind⟩
    · have hnone : ∀ arg ∈ args, startsWith engineFlagPrefix arg = false :=
        fun arg harg => Bool.eq_false_iff.2 fun hstarts => hlater ⟨arg, harg, hstarts⟩
      obtain ⟨found, hmem, hstarts⟩ := h
      rcases List.mem_cons.1 hmem with rfl | hmem
      · exact ⟨[], found, args, rfl, hstarts, hnone⟩
      · exact absurd ⟨found, hmem, hstarts⟩ hlater

theorem takesNext_engine {arg : Str} (h : startsWith engineFlagPrefix arg = true) : takesNext arg = false := by
  apply Bool.eq_false_iff.2
  intro htakes
  unfold takesNext at htakes
  simp only [Bool.or_eq_true, beq_iff_eq] at htakes
  obtain (rfl | rfl) | rfl := htakes <;> exact absurd h (by decide)

theorem engineOverride_isSome (h : ∃ arg ∈ args, startsWith engineFlagPrefix arg = true) :
    ∃ name, engineOverride args = some name := by
  apply Option.isSome_iff_exists.1
  apply List.findSome?_isSome_iff.2
  exact h

/-- An engine that is asked for is forgotten when the arguments up to it are moved into a file. -/
theorem engine_not_alike {front behind : List Str} {found : Str}
    (hplain : ∀ arg ∈ front ++ found :: behind, responseFile arg = none)
    (hfound : startsWith engineFlagPrefix found = true)
    (hbehind : ∀ arg ∈ behind, startsWith engineFlagPrefix arg = false)
    (hpacked : Packed (filesOf (front ++ [found])).readArgs maxResponseDepth (responseArg :: behind) (front ++ found :: behind))
    (htarget : linkTarget (filesOf (front ++ [found])) .gnu (program :: (front ++ found :: behind)) none .elf = some target) :
    ¬ LinkedAlike (filesOf (front ++ [found])) .gnu {} .elf (program :: responseArg :: behind)
      (program :: (front ++ found :: behind)) := by
  intro h
  obtain ⟨name, hname⟩ := engineOverride_isSome ⟨found, List.mem_append_right front List.mem_cons_self, hfound⟩
  have hundirected : Undirected (responseArg :: behind) := by
    refine ⟨fun hhead => ?_, fun arg harg => ?_⟩
    · cases hhead
    · rcases List.mem_cons.1 harg with rfl | harg
      · rfl
      · exact hbehind arg harg
  obtain ⟨requirements, hrequirements⟩ :
      ∃ requirements, linkRequirements (filesOf (front ++ [found])) (program :: (front ++ found :: behind)) target false =
        .ok requirements := by
    obtain ⟨collected, hcollected⟩ : ∃ collected, collectPlain (filesOf (front ++ [found])) (front ++ found :: behind) [] =
        .ok collected := collectPlain_ok hplain []
    unfold linkRequirements
    rw [(Packed.refl hplain).requestedCapabilities, hcollected]
    split <;> exact ⟨_, rfl⟩
  have hroute := h.route target htarget
  have hasked : overrideFromRequest (program :: (front ++ found :: behind)) none = (some name, .overrideFlag) := by
    unfold overrideFromRequest
    rw [List.drop_one, List.tail_cons, hname]
  have hforgotten : overrideFromRequest (program :: responseArg :: behind) none = (none, .default) := by
    unfold overrideFromRequest
    rw [List.drop_one, List.tail_cons, hundirected.engineOverride]
  have hasks : AsksForEngine (selectRouteWithPolicy (filesOf (front ++ [found])) (program :: (front ++ found :: behind))
      target {}) := selectRoute_flag hrequirements hasked
  rw [← hroute] at hasks
  exact selectRoute_default ((hpacked.linkRequirements target false).trans hrequirements) hforgotten hasks

/-- Response files change nothing exactly when there is no flavor in front and no engine is asked for: for every way of
moving the arguments into files, the link has the same target, is done by the same engine for the same reason, and is
forwarded the same arguments. -/
theorem responseTransparent_iff (program : Str) (expanded : List Str) (hplain : ∀ arg ∈ expanded, responseFile arg = none)
    (hgnu : GnuSyntax expanded) :
    (∀ (fs : BridgeFiles) (executable : ExplicitFormat) (env : BridgeEnv) (host : BridgeTarget) (args : List Str)
        (target : LinkTarget), (executable = .none ∨ executable = .gnu) →
        Packed fs.readArgs maxResponseDepth args expanded →
        linkTarget fs executable (program :: expanded) env.engine host = some target →
        (target.format = .elf ∨ target.format = .minGw) →
        LinkedAlike fs executable env host (program :: args) (program :: expanded)) ↔
      expanded.head? ≠ some flavorFlag ∧ ∀ arg ∈ expanded, startsWith engineFlagPrefix arg = false := by
  constructor
  · intro h
    have hhead : expanded.head? ≠ some flavorFlag := by
      intro hflavor
      match expanded, hflavor, hgnu hflavor, hplain with
      | flavorArg :: flavor :: rest, hflavor, hgnuFlavor, hplain =>
        obtain rfl := Option.some.inj hflavor
        have hrest : ∀ arg ∈ rest, responseFile arg = none :=
          fun arg harg => hplain arg (List.mem_cons_of_mem _ (List.mem_cons_of_mem _ harg))
        have hfromFlavor : fromFlavor flavor = some .gnu := hgnuFlavor
        have htarget : linkTarget (filesOf [flavorFlag, flavor]) .gnu (program :: flavorFlag :: flavor :: rest) none .elf =
            some (resolveLinkTarget (filesOf [flavorFlag, flavor]) .gnu rest none .elf) := by
          show (fromFlavor flavor).bind _ = _
          rw [hfromFlavor]
          rfl
        exact flavor_not_alike hrest hfromFlavor
          (h _ .gnu {} .elf _ _ (Or.inr rfl) (packed_flavor hfromFlavor hrest) htarget (resolveLinkTarget_gnu none))
    refine ⟨hhead, fun arg harg => Bool.eq_false_iff.2 fun hstarts => ?_⟩
    obtain ⟨front, found, behind, rfl, hfound, hbehind⟩ := exists_last_engine ⟨arg, harg, hstarts⟩
    have hfront : ∀ arg ∈ front ++ [found], responseFile arg = none := by
      intro arg harg
      apply hplain arg
      rw [List.append_cons]
      exact List.mem_append_left _ harg
    have hlast : ∀ last ∈ (front ++ [found]).getLast?, takesNext last = false := by
      intro last hlast
      rw [List.getLast?_concat] at hlast
      obtain rfl := Option.some.inj hlast
      exact takesNext_engine hfound
    have hpacked := packed_filesOf hfront hlast fun arg harg =>
      hplain arg (List.mem_append_right _ (List.mem_cons_of_mem _ harg))
    rw [List.append_assoc, List.singleton_append] at hpacked
    have htarget : linkTarget (filesOf (front ++ [found])) .gnu (program :: (front ++ found :: behind)) none .elf =
        some (resolveLinkTarget (filesOf (front ++ [found])) .gnu (front ++ found :: behind) none .elf) := by
      unfold linkTarget
      rw [List.drop_one, List.tail_cons, if_neg hhead]
    exact engine_not_alike hplain hfound hbehind hpacked htarget
      (h _ .gnu {} .elf _ _ (Or.inr rfl) hpacked htarget (resolveLinkTarget_gnu none))
  · rintro ⟨hflavor, hengine⟩ fs executable env host args target - hpacked - -
    exact Undirected.linkedAlike ⟨hflavor, hengine⟩ hpacked

/-- An output name that is moved into a file. -/
theorem responseTransparent_output :
    LinkedAlike (filesOf ["-o".toList, "a.out".toList]) .gnu {} .elf ["ld".toList, responseArg, "a.o".toList]
      ["ld".toList, "-o".toList, "a.out".toList, "a.o".toList] := by
  have hplain : ∀ arg ∈ ["-o".toList, "a.out".toList, "a.o".toList], responseFile arg = none := by
    simp only [List.forall_mem_cons]
    exact ⟨rfl, rfl, rfl, fun arg harg => absurd harg List.not_mem_nil⟩
  have hgnu : GnuSyntax ["-o".toList, "a.out".toList, "a.o".toList] := by
    intro hflavor
    cases hflavor
  apply (responseTransparent_iff "ld".toList _ hplain hgnu).2 _ _ .gnu {} .elf _ _ (Or.inr rfl) _ rfl (Or.inl rfl)
  · refine ⟨fun hflavor => ?_, ?_⟩
    · cases hflavor
    · simp only [List.forall_mem_cons]
      exact ⟨rfl, rfl, rfl, fun arg harg => absurd harg List.not_mem_nil⟩
  · have hnested : ∀ arg ∈ ["-o".toList, "a.out".toList], responseFile arg = none :=
      List.forall_mem_cons.2 ⟨rfl, List.forall_mem_singleton.2 rfl⟩
    refine packed_filesOf hnested (fun last hlast => ?_) (List.forall_mem_singleton.2 rfl)
    obtain rfl := Option.some.inj hlast
    rfl

/-- `ld @args a.o`, where the file asks for LLD, is linked natively. -/
theorem engine_in_file :
    Packed (filesOf ["--engine=lld".toList]).readArgs maxResponseDepth [responseArg, "a.o".toList]
        ["--engine=lld".toList, "a.o".toList] ∧
      selectRouteWithPolicy (filesOf ["--engine=lld".toList]) ["ld".toList, responseArg, "a.o".toList] { format := .elf } {} =
        .ok ⟨nativeReldEngine, .default, none⟩ ∧
      selectRouteWithPolicy (filesOf ["--engine=lld".toList]) ["ld".toList, "--engine=lld".toList, "a.o".toList]
        { format := .elf } {} = .ok ⟨elfLldEngine, .overrideFlag, none⟩ ∧
      ¬ LinkedAlike (filesOf ["--engine=lld".toList]) .gnu {} .elf ["ld".toList, responseArg, "a.o".toList]
        ["ld".toList, "--engine=lld".toList, "a.o".toList] := by
  have hnative : selectRouteWithPolicy (filesOf ["--engine=lld".toList]) ["ld".toList, responseArg, "a.o".toList]
      { format := .elf } {} = .ok ⟨nativeReldEngine, .default, none⟩ := by rfl
  have hlld : selectRouteWithPolicy (filesOf ["--engine=lld".toList]) ["ld".toList, "--engine=lld".toList, "a.o".toList]
      { format := .elf } {} = .ok ⟨elfLldEngine, .overrideFlag, none⟩ := by rfl
  refine ⟨?_, hnative, hlld, fun h => ?_⟩
  · refine packed_filesOf (List.forall_mem_singleton.2 rfl) (fun last hlast => ?_) (List.forall_mem_singleton.2 rfl)
    obtain rfl := Option.some.inj hlast
    rfl
  · have hroute := h.route { format := .elf } rfl
    cases hroute

end Reld.Bridge
