import Mathlib.Data.List.Basic

/-!
# `Bridge.Routes` — the arguments that the bridge forwards

A link that the native engine cannot do is forwarded to another linker. What only the native engine understands is taken
out of the arguments before: the dispatch tokens at the top level, the LTO switches of the compiler driver, which need the
response files expanded, and the options in `STRIPPED_RELD_FLAGS` with their values.

The arguments of the process are UTF-8 (`std::env::args`), so that an argument is a list of characters.
-/

namespace Reld.Bridge

abbrev Str := List Char

/-- `str::strip_prefix`. -/
def stripPrefix : Str → Str → Option Str
  | [], s => some s
  | _ :: _, [] => none
  | c :: p, d :: s => if c = d then stripPrefix p s else none

def startsWith (p s : Str) : Bool := (stripPrefix p s).isSome

/-- The path of an `@file` argument. -/
def responseFile : Str → Option Str
  | '@' :: path => some path
  | _ => none

/-- What stops the bridge. -/
inductive BridgeError where
  /-- "Linker response-file nesting exceeds 16 levels at `{path}`". -/
  | responseNesting (path : Str)
  /-- "Failed to read arguments from file `{path}`". -/
  | readArguments (path : Str)
  /-- "Unknown engine `{name}`. Valid engines: {valid}." -/
  | unknownEngine (name : Str)
  /-- "Engine `{name}` links {} but this link is for {}. Choose an engine that supports {}." -/
  | engineFormat (name : Str) (links target : String)
  /-- "Engine `{name}` does not support {} requested by `{}`." -/
  | engineCapability (name : Str) (capability trigger : String)
  /-- "No bundled {} engine supports {} requested by `{}`." -/
  | noEngine (target capability trigger : String)
  | internal
deriving DecidableEq

/-- `read_args_from_file`: the arguments in a response file, if it can be read. -/
abbrev ReadArgs := Str → Option (List Str)

/-- `read_args_from_file`, with its error. -/
def readArgsFromFile (read : ReadArgs) (path : Str) : Except BridgeError (List Str) :=
  match read path with
  | some args => .ok args
  | none => .error (.readArguments path)

/-- The depth that response files may be nested to. -/
def maxResponseDepth : Nat := 16

/-! ## Dispatch tokens -/

/-- `ENGINE_FLAG_PREFIX`. -/
def engineFlagPrefix : Str := "--engine=".toList

def flavorFlag : Str := "-flavor".toList

/-- `drop_reld_dispatch_tokens`. -/
def dropReldDispatchTokens (argv : List Str) : List Str :=
  let rest := argv.drop 1
  let rest := if rest.head? = some flavorFlag then rest.drop 2 else rest
  rest.filter fun arg => !startsWith engineFlagPrefix arg

/-! ## Driver switches -/

def isDriverLtoFlag (arg : Str) : Bool :=
  arg == "-flto".toList || arg == "--flto".toList || startsWith "-flto=".toList arg || startsWith "--flto=".toList arg

/-- The loop of `expand_and_strip_driver_lto`; `nested` is what an `@file` is replaced by. -/
def stripDriverLto (nested : Str → Except BridgeError (List Str)) : List Str → Except BridgeError (List Str)
  | [] => .ok []
  | arg :: args =>
    if isDriverLtoFlag arg then stripDriverLto nested args
    else do
      let forwarded ← match responseFile arg with
        | none => .ok [arg]
        | some path => nested path
      return forwarded ++ (← stripDriverLto nested args)

/-- `expand_and_strip_driver_lto`, with the number of levels that are left. -/
def expandAndStripDriverLto (read : ReadArgs) : Nat → List Str → Except BridgeError (List Str)
  | 0 => stripDriverLto fun path => .error (.responseNesting path)
  | levels + 1 => stripDriverLto fun path => do expandAndStripDriverLto read levels (← readArgsFromFile read path)

/-! ## Options of the native engine -/

inductive StrippedValueKind where
  | none
  | optional
  | required
deriving DecidableEq

/-- `STRIPPED_RELD_FLAGS`. -/
def strippedReldFlags : List (Str × StrippedValueKind) :=
  [("update-in-place".toList, .none), ("no-update-in-place".toList, .none), ("time".toList, .optional),
    ("mmap-output-file".toList, .none), ("no-mmap-output-file".toList, .none), ("fallocate-output-file".toList, .none),
    ("no-fallocate-output-file".toList, .none), ("madvise-huge-pages".toList, .none),
    ("no-madvise-huge-pages".toList, .none), ("threads".toList, .optional), ("no-threads".toList, .none),
    ("thread-count".toList, .required), ("fork".toList, .none), ("no-fork".toList, .none),
    ("prepopulate-maps".toList, .none), ("debug-fuel".toList, .required), ("reld-experiments".toList, .required),
    ("gc-stats-ignore".toList, .required), ("nix-rpath".toList, .required), ("no-identity-comment".toList, .none),
    ("no-string-merge".toList, .none)]

/-- The name of an option, up to a `=`. -/
def optionName (bare : Str) : Str := bare.takeWhile (· ≠ '=')

/-- The kind of a `--name` argument that is stripped. -/
def strippedKind (arg : Str) : Option StrippedValueKind := do
  let bare ← stripPrefix "--".toList arg
  strippedReldFlags.lookup (optionName bare)

/-- Whether a stripped argument takes the next one with it. -/
def takesFollowingValue (kind : StrippedValueKind) (arg : Str) (next : Option Str) : Bool :=
  !arg.contains '=' &&
    match kind with
    | .none => false
    | .required => next.isSome
    | .optional => next.any fun value => !startsWith "-".toList value

/-- `strip_reld_only_flags`: the arguments that stay, and the spelling of what is dropped. -/
def stripReldOnlyFlags : List Str → List Str × List Str
  | [] => ([], [])
  | arg :: args =>
    match strippedKind arg with
    | none => ((arg :: (stripReldOnlyFlags args).1), (stripReldOnlyFlags args).2)
    | some kind =>
      match args with
      | value :: args' =>
        if takesFollowingValue kind arg (some value) then
          ((stripReldOnlyFlags args').1, (arg ++ ' ' :: value) :: (stripReldOnlyFlags args').2)
        else ((stripReldOnlyFlags (value :: args')).1, arg :: (stripReldOnlyFlags (value :: args')).2)
      | [] => ([], [arg])

/-! ## Engines -/

inductive BridgeTarget where
  | elf
  | coff
  | machO
  | minGw
deriving DecidableEq

def BridgeTarget.formatLabel : BridgeTarget → String
  | .elf    => "ELF"
  | .coff   => "COFF"
  | .machO  => "Mach-O"
  | .minGw  => "PE/COFF (MinGW)"

inductive Capability where
  | nativeControl
  | lto
  | icf
  | discardAll
  | cortexA53Erratum
  | textRelocs
  | foreignArch
  | linkerScriptInsert
deriving DecidableEq

def Capability.label : Capability → String
  | .nativeControl => "reld-only validation or diagnostic output"
  | .lto => "LTO"
  | .icf => "identical code folding"
  | .discardAll => "discarding local symbols"
  | .cortexA53Erratum => "Cortex-A53 erratum 843419 fixups"
  | .textRelocs => "text-relocation policy"
  | .foreignArch => "architectures outside the native engine's set"
  | .linkerScriptInsert => "linker-script INSERT commands"

structure Engine where
  name : Str
  format : BridgeTarget
  native : Bool
  capabilities : List Capability
deriving DecidableEq

def lldCapabilities : List Capability :=
  [.lto, .icf, .discardAll, .cortexA53Erratum, .textRelocs, .foreignArch, .linkerScriptInsert]

/-- `NATIVE_RELD_ENGINE`. -/
def nativeReldEngine : Engine := ⟨"reld".toList, .elf, true, [.nativeControl]⟩

/-- `ELF_LLD_ENGINE`. -/
def elfLldEngine : Engine := ⟨"lld".toList, .elf, false, lldCapabilities⟩

/-- `COFF_LLD_ENGINE`. -/
def coffLldEngine : Engine := ⟨"lld-link".toList, .coff, false, lldCapabilities⟩

/-- `MACHO_LLD_ENGINE`. -/
def machOLldEngine : Engine := ⟨"ld64.lld".toList, .machO, false, lldCapabilities⟩

/-- `MINGW_LLD_ENGINE`. -/
def minGwLldEngine : Engine := ⟨"lld-mingw".toList, .minGw, false, [.lto, .icf]⟩

def engines : List Engine := [nativeReldEngine, elfLldEngine, coffLldEngine, machOLldEngine, minGwLldEngine]

def Engine.find (name : Str) : Option Engine := engines.find? (·.name = name)

def Engine.defaultFor : BridgeTarget → Engine
  | .elf    => nativeReldEngine
  | .coff   => coffLldEngine
  | .machO  => machOLldEngine
  | .minGw  => minGwLldEngine

/-! ## Forwarding -/

def allowShlibUndefined : Str := "--allow-shlib-undefined".toList

/-- `forwarded_args_for_engine`. -/
def forwardedArgsForEngine (read : ReadArgs) (argv : List Str) (engine : Engine) :
    Except BridgeError (List Str × List Str) :=
  let droppedTokens := dropReldDispatchTokens argv
  if !engine.native && (engine.format = .elf || engine.format = .minGw) then do
    let expanded ← expandAndStripDriverLto read maxResponseDepth droppedTokens
    let expanded := if engine.format = .minGw then expanded.filter (· ≠ allowShlibUndefined) else expanded
    return stripReldOnlyFlags expanded
  else .ok (stripReldOnlyFlags droppedTokens)

example : (stripReldOnlyFlags ["--no-fork".toList, "--time".toList, "a.o".toList, "-no-fork".toList]).1 =
    ["-no-fork".toList] := by decide

end Reld.Bridge

/-!
# Which engine links

The format of a link is decided by an explicit flavor, an engine that is asked for, what the arguments and inputs show
(`TargetProbe`), or the host. An ELF link then collects the capabilities that its arguments and inputs need: the first
engine that has them all is taken, unless an engine is asked for.
-/

namespace Reld.Bridge

/-! ## The target probe -/

inductive ObjectFormat where
  | elf
  | coff
  | machO
  | llvmBitcode
deriving DecidableEq

inductive ProbedArch where
  | x86_64
  | i386
  | aArch64
  | arm
  | riscV32
  | riscV64
  | loongArch32
  | loongArch64
  | powerPc
  | powerPc64
  | mips
  | mips64
  | s390
  | s390x
deriving DecidableEq

inductive ProbedClass where
  | bits32
  | bits64
deriving DecidableEq

inductive ProbedEndian where
  | little
  | big
deriving DecidableEq

/-- `Signal`: what decided the format. -/
inductive Signal where
  | emulation
  | machOArch
  | driverTarget
  | coffOut
  | machOPlatformVersion
  | outputFormat
  | inputHeader
  | bitcode
deriving DecidableEq

structure ProbedTarget where
  format : ObjectFormat
  arch : Option ProbedArch
  bits : Option ProbedClass
  endian : Option ProbedEndian
  decidedBy : Signal
deriving DecidableEq

inductive TargetFamily where
  | elf
  | minGwCoff
  | msvcCoff
  | machO
deriving DecidableEq

namespace ProbedTarget

def family (t : ProbedTarget) : Option TargetFamily :=
  match t.format with
  | .elf => some .elf
  | .machO => some .machO
  | .coff => if t.decidedBy = .coffOut then some .msvcCoff else some .minGwCoff
  | .llvmBitcode => none

def foreignArchTrigger (t : ProbedTarget) : Option String :=
  if t.format ≠ .elf then none
  else
    match t.arch, t.bits, t.endian with
    | some arch, some bits, some endian =>
      match arch, bits, endian with
      | .x86_64, .bits64, .little | .aArch64, .bits64, .little | .riscV64, .bits64, .little
      | .loongArch64, .bits64, .little | .powerPc64, .bits64, .little => none
      | .x86_64, .bits64, .big       => some "target:x86_64-be"
      | .aArch64, .bits64, .big      => some "target:aarch64-be"
      | .riscV64, .bits64, .big      => some "target:riscv64-be"
      | .loongArch64, .bits64, .big  => some "target:loongarch64-be"
      | .powerPc64, .bits64, .big    => some "target:ppc64-be"
      | .x86_64, .bits32, _          => some "target:x32"
      | .aArch64, .bits32, _         => some "target:aarch64-ilp32"
      | .riscV64, .bits32, _         => some "target:riscv64-32"
      | .loongArch64, .bits32, _     => some "target:loongarch64-32"
      | .powerPc64, .bits32, _       => some "target:ppc64-32"
      | .i386, _, _                  => some "target:i386"
      | .arm, _, _                   => some "target:arm"
      | .riscV32, _, _               => some "target:riscv32"
      | .loongArch32, _, _           => some "target:loongarch32"
      | .powerPc, _, _               => some "target:ppc"
      | .mips, _, _                  => some "target:mips"
      | .mips64, _, _                => some "target:mips64"
      | .s390, _, _                  => some "target:s390"
      | .s390x, _, _                 => some "target:s390x"
    | _, _, _ => none

def minGwEmulation (t : ProbedTarget) : Option String :=
  if t.format ≠ .coff then none
  else
    match t.arch with
    | some .x86_64 => some "i386pep"
    | some .i386 => some "i386pe"
    | some .aArch64 => some "arm64pe"
    | some .arm => some "thumb2pe"
    | _ => none

end ProbedTarget

/-- What an input file shows when it is probed; a file that is not regular or cannot be read shows nothing. -/
inductive InputKind where
  | bitcode
  /-- A linker script with an `INSERT` command. -/
  | scriptWithInsert
  | other
deriving DecidableEq

/-- What the bridge reads of the file system. -/
structure BridgeFiles where
  readArgs : ReadArgs
  inputKind : Str → InputKind
  /-- `probe_target` of the expanded arguments and of the inputs that they name. -/
  probe : List Str → Option ProbedTarget

/-- The loop of `expand_probe_response_files`; what cannot be read is left out. -/
def expandProbeArgs (nested : Str → List Str) : List Str → List Str
  | [] => []
  | arg :: args =>
    match responseFile arg with
    | none => arg :: expandProbeArgs nested args
    | some path => nested path ++ expandProbeArgs nested args

/-- `expand_probe_response_files`, with the number of levels that are left. -/
def expandProbeResponseFiles (read : ReadArgs) : Nat → List Str → List Str
  | 0 => expandProbeArgs fun _ => []
  | levels + 1 => expandProbeArgs fun path =>
    match read path with
    | some args => expandProbeResponseFiles read levels args
    | none => []

/-- `probe_link_target`. -/
def probeLinkTarget (fs : BridgeFiles) (args : List Str) : Option ProbedTarget :=
  fs.probe (expandProbeResponseFiles fs.readArgs maxResponseDepth args)

/-! ## The link target -/

inductive ExplicitFormat where
  | none
  | gnu
  | coff
  | machO
deriving DecidableEq

structure LinkTarget where
  format : BridgeTarget
  probe : Option ProbedTarget := none
  probeChoseFormat : Bool := false
  probeChangedFormat : Bool := false
deriving DecidableEq

/-- The first `--engine=<name>`. -/
def engineOverride (args : List Str) : Option Str := args.findSome? (stripPrefix engineFlagPrefix)

/-- `resolve_link_target`. -/
def resolveLinkTarget (fs : BridgeFiles) (explicit : ExplicitFormat) (args : List Str) (envEngine : Option Str)
    (host : BridgeTarget) : LinkTarget :=
  if explicit = .coff then { format := .coff }
  else if explicit = .machO then { format := .machO }
  else
    let probe := probeLinkTarget fs args
    let fallbackFormat := if explicit = .gnu then .elf else host
    match ((engineOverride args).or envEngine).bind Engine.find with
    | some engine =>
      let format :=
        if explicit = .gnu ∧ ¬ (engine.format = .elf ∨ engine.format = .minGw) then .elf else engine.format
      { format, probe }
    | none =>
      match probe.bind (·.family) with
      | some family =>
        let format : BridgeTarget :=
          match explicit, family with
          | .gnu, .minGwCoff  => .minGw
          | .gnu, _           => .elf
          | _, .elf           => .elf
          | _, .minGwCoff     => .minGw
          | _, .msvcCoff      => .coff
          | _, .machO         => .machO
        { format, probe, probeChoseFormat := true, probeChangedFormat := format ≠ fallbackFormat }
      | none => { format := fallbackFormat, probe }

/-- `PlatformKind::from_flavor`. -/
def fromFlavor (flavor : Str) : Option ExplicitFormat :=
  if flavor = "gnu".toList ∨ flavor = "ld".toList then some .gnu
  else if flavor = "darwin".toList ∨ flavor = "ld64".toList then some .machO
  else if flavor = "link".toList then some .coff
  else none

/-- `Args::new`, up to the link target: the flavor, or the name of the executable. -/
def linkTarget (fs : BridgeFiles) (executable : ExplicitFormat) (argv : List Str) (envEngine : Option Str)
    (host : BridgeTarget) : Option LinkTarget :=
  let rest := argv.drop 1
  if rest.head? = some flavorFlag then do
    let explicit ← fromFlavor (← rest[1]?)
    return resolveLinkTarget fs explicit (rest.drop 2) envEngine host
  else some (resolveLinkTarget fs executable rest envEngine host)

/-! ## Capabilities -/

structure Requirement where
  capability : Capability
  trigger : String
deriving DecidableEq

/-- `NATIVE_CONTROL_RELD_FLAGS`. -/
def nativeControlReldFlags : List Str :=
  ["validate-output".toList, "write-layout".toList, "write-trace".toList, "sym-info".toList, "write-gc-stats".toList,
    "verbose-gc-stats".toList, "got-plt-syms".toList, "reld-experimental-sframe".toList, "discard-sframe".toList]

def matchesReldOnlyFlag (arg name : Str) : Bool :=
  (stripPrefix "--".toList arg).any fun rest =>
    rest == name || (stripPrefix name rest).any fun value => value.head? = some '='

/-- `probe_input_requirement`. -/
def probeInputRequirement (fs : BridgeFiles) (path : Str) : Option Requirement :=
  match fs.inputKind path with
  | .bitcode => some ⟨.lto, "input:bitcode"⟩
  | .scriptWithInsert => some ⟨.linkerScriptInsert, "input:linker-script-insert"⟩
  | .other => none

def toAsciiLower (s : Str) : Str := s.map Char.toLower

/-- What `collect_requested_capabilities` makes of one argument. -/
inductive ArgumentClass where
  | needs (requirement : Requirement)
  /-- `-T` or `--script`: the next argument is probed. -/
  | scriptNext
  | input (path : Str)
  | nothing
deriving DecidableEq

def classifyArgument (arg : Str) (next : Option Str) : ArgumentClass :=
  if nativeControlReldFlags.any (matchesReldOnlyFlag arg) then .needs ⟨.nativeControl, "flag:reld-only-control"⟩
  else if isDriverLtoFlag arg then .needs ⟨.lto, "flag:-flto"⟩
  else if arg == "-plugin".toList || arg == "--plugin".toList || startsWith "-plugin=".toList arg ||
      startsWith "--plugin=".toList arg then .needs ⟨.lto, "flag:--plugin"⟩
  else if toAsciiLower arg == "/ltcg".toList || startsWith "/ltcg:".toList (toAsciiLower arg) ||
      toAsciiLower arg == "/gl".toList || startsWith "/gl:".toList (toAsciiLower arg) then .needs ⟨.lto, "flag:/LTCG"⟩
  else if arg == "--icf=all".toList || arg == "--icf=safe".toList || arg == "-icf=all".toList ||
      arg == "-icf=safe".toList then .needs ⟨.icf, "flag:--icf"⟩
  else if arg == "--discard-all".toList || arg == "-discard-all".toList || arg == "-x".toList then
    .needs ⟨.discardAll, "flag:--discard-all"⟩
  else if arg == "-plugin-opt".toList || startsWith "-plugin-opt=".toList arg || arg == "--plugin-opt".toList ||
      startsWith "--plugin-opt=".toList arg then .needs ⟨.lto, "flag:-plugin-opt"⟩
  else if arg == "--fix-cortex-a53-843419".toList || arg == "-fix-cortex-a53-843419".toList then
    .needs ⟨.cortexA53Erratum, "flag:--fix-cortex-a53-843419"⟩
  else if arg == "-ztext".toList || arg == "-z=text".toList || (arg == "-z".toList && next == some "text".toList) then
    .needs ⟨.textRelocs, "flag:-z text"⟩
  else if arg == "-T".toList || arg == "--script".toList then .scriptNext
  else
    match stripPrefix "-T".toList arg with
    | some path => .input path
    | none =>
      match (stripPrefix "--script=".toList arg).or (stripPrefix "-script=".toList arg) with
      | some path => .input path
      | none => if !arg.isEmpty && !startsWith "-".toList arg then .input arg else .nothing

/-- The requirements are kept with the first trigger of each capability. -/
def pushRequirement (requirements : List Requirement) : Option Requirement → List Requirement
  | none => requirements
  | some requirement =>
    if requirements.any (·.capability = requirement.capability) then requirements else requirements ++ [requirement]

/-- The loop of `collect_requested_capabilities`; `nested` collects from an `@file`. -/
def collectFrom (fs : BridgeFiles) (nested : Str → List Requirement → Except BridgeError (List Requirement)) :
    List Str → List Requirement → Except BridgeError (List Requirement)
  | [], requirements => .ok requirements
  | arg :: args, requirements =>
    match responseFile arg with
    | some path => do collectFrom fs nested args (← nested path requirements)
    | none =>
      match classifyArgument arg args.head? with
      | .needs requirement => collectFrom fs nested args (pushRequirement requirements (some requirement))
      | .scriptNext =>
        match args with
        | value :: args => collectFrom fs nested args (pushRequirement requirements (probeInputRequirement fs value))
        | [] => .ok requirements
      | .input path => collectFrom fs nested args (pushRequirement requirements (probeInputRequirement fs path))
      | .nothing => collectFrom fs nested args requirements

/-- `collect_requested_capabilities`, with the number of levels that are left. -/
def collectRequestedCapabilities (fs : BridgeFiles) :
    Nat → List Str → List Requirement → Except BridgeError (List Requirement)
  | 0 => collectFrom fs fun path _ => .error (.responseNesting path)
  | levels + 1 => collectFrom fs fun path requirements => do
    collectRequestedCapabilities fs levels (← readArgsFromFile fs.readArgs path) requirements

def requestedCapabilities (fs : BridgeFiles) (argv : List Str) : Except BridgeError (List Requirement) :=
  collectRequestedCapabilities fs maxResponseDepth (argv.drop 1) []

/-! ## The route -/

inductive SelectionReason where
  | default
  | overrideFlag
  | overrideEnv
  | capability (trigger : String)
  | target (label : String)
deriving DecidableEq

structure Route where
  engine : Engine
  reason : SelectionReason
  minGwEmulation : Option String
deriving DecidableEq

def Engine.supports (engine : Engine) (requirements : List Requirement) : Bool :=
  requirements.all fun requirement => decide (requirement.capability ∈ engine.capabilities)

def Engine.unmet (engine : Engine) (requirements : List Requirement) : Option Requirement :=
  requirements.find? fun requirement => decide (requirement.capability ∉ engine.capabilities)

/-- `select_engine`. -/
def selectEngine (target : BridgeTarget) (overrideName : Option Str) (requirements : List Requirement) :
    Except BridgeError Engine :=
  match overrideName with
  | some name =>
    match Engine.find name with
    | none => .error (.unknownEngine name)
    | some engine =>
      if engine.format ≠ target then .error (.engineFormat name engine.format.formatLabel target.formatLabel)
      else
        match engine.unmet requirements with
        | some requirement => .error (.engineCapability name requirement.capability.label requirement.trigger)
        | none => .ok engine
  | none =>
    let default := Engine.defaultFor target
    if default.supports requirements then .ok default
    else
      match engines.find? fun engine => decide (engine.format = target) && engine.supports requirements with
      | some engine => .ok engine
      | none =>
        match default.unmet requirements with
        | some requirement => .error (.noEngine target.formatLabel requirement.capability.label requirement.trigger)
        | none => .error .internal

/-- `override_from_request`. -/
def overrideFromRequest (argv : List Str) (envOverride : Option Str) : Option Str × SelectionReason :=
  match engineOverride (argv.drop 1) with
  | some name => (some name, .overrideFlag)
  | none =>
    match envOverride with
    | some name => (some name, .overrideEnv)
    | none => (none, .default)

/-- `target_selection_label`. -/
def targetSelectionLabel : BridgeTarget → String
  | .elf    => "target:elf"
  | .coff   => "target:coff"
  | .machO  => "target:mach-o"
  | .minGw  => "target:pe-mingw"

/-- The environment of an invocation, apart from the files. -/
structure BridgeEnv where
  /-- `RELD_ENGINE`. -/
  engine : Option Str := none
  allowUnsupportedNative : Bool := false
  nativeControl : Bool := false

/-- The requirements of an ELF link, with those of its target and of the environment. -/
def linkRequirements (fs : BridgeFiles) (argv : List Str) (target : LinkTarget) (nativeControlEnv : Bool) :
    Except BridgeError (List Requirement) :=
  if target.format ≠ .elf then .ok []
  else do
    let requirements ← requestedCapabilities fs argv
    let requirements :=
      match target.probe.bind (·.foreignArchTrigger) with
      | some trigger => ⟨.foreignArch, trigger⟩ :: requirements
      | none => requirements
    return if nativeControlEnv && !requirements.any (·.capability = .nativeControl) then
      requirements ++ [⟨.nativeControl, "environment:reld-only-control"⟩] else requirements

/-- `select_route_with_policy`, for the formats of a GNU command line; Mach-O links are checked for clang switches
first. -/
def selectRouteWithPolicy (fs : BridgeFiles) (argv : List Str) (target : LinkTarget) (env : BridgeEnv) :
    Except BridgeError Route := do
  let requirements ← linkRequirements fs argv target env.nativeControl
  let (overrideName, overrideReason) := overrideFromRequest argv env.engine
  let checkedRequirements :=
    if env.allowUnsupportedNative && overrideName == some nativeReldEngine.name then [] else requirements
  let engine ← selectEngine target.format overrideName checkedRequirements
  let reason ←
    if overrideName.isSome then .ok overrideReason
    else if engine ≠ Engine.defaultFor target.format then
      match requirements.head? with
      | some requirement => .ok (SelectionReason.capability requirement.trigger)
      | none => .error BridgeError.internal
    else if target.probeChangedFormat then .ok (.target (targetSelectionLabel target.format))
    else .ok .default
  let emulationOnArgv := target.probe.any (·.decidedBy = .emulation)
  let minGwEmulation :=
    if engine = minGwLldEngine && !emulationOnArgv then target.probe.bind (·.minGwEmulation) else none
  return { engine, reason, minGwEmulation }

end Reld.Bridge
