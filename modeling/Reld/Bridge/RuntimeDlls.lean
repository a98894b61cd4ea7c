import Mathlib
import Reld.Bridge.Routes
import Reld.Lib.Worklist

/-!
# `Bridge.RuntimeDlls` — runtime libraries beside a linked output

The names that a PE output imports are looked up in the directories of the toolchain, the libraries found are put
beside the output, and what they import is looked up in the same way. The import tables are names of files, so that a
path is a directory and a name. A directory is read as it is at that point of the run: the output may lie in one that
is searched.
-/

namespace Reld.RuntimeDlls

open Bridge (Str toAsciiLower startsWith)

/-! ## Names -/

/-- `Path::extension`: what follows the last dot, which is not the first character. -/
def extension (name : Str) : Option Str :=
  match name.reverse.span (· ≠ '.') with
  | (ext, '.' :: _ :: _) => some ext.reverse
  | _ => none

def runtimePrefixes : List Str :=
  ["libwinpthread", "libgcc_s_", "libstdc++", "libc++", "libunwind", "libgomp", "libssp", "libquadmath",
    "libclang_rt.asan_dynamic", "libclang_rt.ubsan_dynamic", "libclang_rt.tsan_dynamic",
    "libclang_rt.msan_dynamic"].map String.toList

def systemDlls : List Str :=
  ["kernel32", "ntdll", "msvcrt", "user32", "advapi32", "ws2_32", "shell32", "ole32", "oleaut32", "gdi32", "comdlg32",
    "comctl32", "bcrypt", "crypt32"].map String.toList

/-- `is_system_dll` -/
def isSystemDll (name : Str) : Bool :=
  let lower := toAsciiLower name
  startsWith "api-ms-win-".toList lower || startsWith "ext-ms-".toList lower ||
    systemDlls.contains (if ".dll".toList.isSuffixOf lower then lower.take (lower.length - 4) else lower)

/-- `is_deployable_runtime` -/
def isDeployableRuntime (name : Str) : Bool :=
  let lower := toAsciiLower name
  extension lower == some "dll".toList && !isSystemDll lower && runtimePrefixes.any (startsWith · lower)

/-! ## Directories -/

/-- `imports` is what `pe_imported_dll_names` makes of the bytes. -/
structure Entry where
  isFile : Bool
  size : Nat
  modified : Nat
  imports : Option (List Str)
deriving DecidableEq

section
variable {D : Type} [DecidableEq D]

abbrev FileSystem (D : Type) := D → List (Str × Entry)

def FileSystem.find (fs : FileSystem D) (dir : D) (name : Str) : Option Entry :=
  ((fs dir).find? (·.1 = name)).map (·.2)

def FileSystem.remove (fs : FileSystem D) (dir : D) (name : Str) : FileSystem D :=
  Function.update fs dir ((fs dir).filter (·.1 ≠ name))

def FileSystem.put (fs : FileSystem D) (dir : D) (name : Str) (entry : Entry) : FileSystem D :=
  Function.update fs dir ((fs dir).filter (·.1 ≠ name) ++ [(name, entry)])

/-- What the body of the loop in `locate` finds in a directory. -/
def locateIn (fs : FileSystem D) (name : Str) (dir : D) : Option (D × Str × Entry) :=
  let lower := toAsciiLower name
  match (fs.find dir name).filter (·.isFile) with
  | some entry => some (dir, name, entry)
  | none =>
    match (fs.find dir lower).filter (·.isFile) with
    | some entry => some (dir, lower, entry)
    | none => ((fs dir).find? fun e => toAsciiLower e.1 = lower ∧ e.2.isFile).map ((dir, ·))

/-- `locate` -/
def locate (fs : FileSystem D) (dirs : List D) (name : Str) : Option (D × Str × Entry) :=
  dirs.findSome? (locateIn fs name)

/-! ## Deployment -/

/-- What a run gets from outside. `stage` says whether a copy beside the output succeeds and how old it is then. -/
structure Env (D : Type) where
  /-- `RELD_NO_DEPLOY_LIBS` or `RELD_NO_AUTO` -/
  noDeploy : Bool
  /-- `RELD_NO_DEPLOY_SHARED_LIB` -/
  noDeploySharedLib : Bool
  /-- The directories of `runtime_search_dirs`. -/
  dirs : List D
  destDir : D
  outputName : Str
  pid : Nat
  stage : Str → Option Nat

inductive Warning where
  | notPe (source : Str)
  | failed (source : Str)

structure Report where
  deployed : List Str
  upToDate : List Str
  missing : List Str
  warnings : List Warning

/-- `written` are the names beside the output that were removed, created or replaced; `tried` are the sources that
    were handed to `deploy_one`. -/
structure State (D : Type) where
  fs : FileSystem D
  visited : List Str
  queue : List Str
  report : Report
  tried : List Str
  written : List Str

def tmpName (env : Env D) (name : Str) : Str :=
  '.' :: (name ++ (".reld-tmp-".toList ++ Nat.toDigits 10 env.pid))

/-- The test of `deploy_one` for a destination that matches its source. -/
def isUpToDate (source : Entry) (dest : Option Entry) : Bool :=
  dest.any fun dest => dest.size == source.size && source.modified ≤ dest.modified

/-- `deploy_one`, and what is reported about it. -/
def deployOne (env : Env D) (s : State D) (name : Str) (source : Entry) : State D :=
  let s := { s with tried := s.tried ++ [name] }
  if isUpToDate source (s.fs.find env.destDir name) then
    { s with report := { s.report with upToDate := s.report.upToDate ++ [name] } }
  else
    let tmp := tmpName env name
    match env.stage name with
    | some modified =>
      { s with
        fs := (s.fs.remove env.destDir tmp).put env.destDir name { source with modified := modified }
        written := s.written ++ [tmp, name]
        report := { s.report with deployed := s.report.deployed ++ [name] } }
    | none =>
      { s with
        fs := s.fs.remove env.destDir tmp
        written := s.written ++ [tmp]
        report := { s.report with warnings := s.report.warnings ++ [.failed name] } }

/-- The body of the loop, with the name that it takes from the queue. -/
def deployStep (env : Env D) (s : State D) (name : Str) : State D :=
  if !isDeployableRuntime name || s.visited.contains (toAsciiLower name) then s
  else
    let s := { s with visited := s.visited ++ [toAsciiLower name] }
    match locate s.fs env.dirs name with
    | none => { s with report := { s.report with missing := s.report.missing ++ [name] } }
    | some (_, source, entry) =>
      match entry.imports with
      | some imports => deployOne env { s with queue := s.queue ++ imports } source entry
      | none =>
        let warnings := s.report.warnings ++ [.notPe source]
        deployOne env { s with report := { s.report with warnings := warnings } } source entry

def deployLoop (env : Env D) : (fuel : Nat) → State D → Option (State D)
  | 0, s => if s.queue = [] then some s else none
  | fuel + 1, s =>
    match s.queue with
    | [] => some s
    | name :: queue => deployLoop env fuel (deployStep env { s with queue := queue } name)

/-- The imports of the output, unless `deploy_runtime_dlls_with_env` returns before it comes to them. -/
def rootImports (env : Env D) (fs : FileSystem D) : Option (List Str) :=
  let ext := ((extension env.outputName).map toAsciiLower).getD []
  if ext ≠ "exe".toList ∧ ext ≠ "dll".toList then none
  else if env.noDeploy then none
  else if ext = "dll".toList ∧ env.noDeploySharedLib then none
  else (fs.find env.destDir env.outputName).bind (·.imports)

/-- `deploy_runtime_dlls_with_env` -/
def deployRuntimeDlls (env : Env D) (fuel : Nat) (fs : FileSystem D) : Option (State D) :=
  deployLoop env fuel ⟨fs, [], (rootImports env fs).getD [], ⟨[], [], [], []⟩, [], []⟩

/-! ## What is needed -/

/-- The items of a name are the imports of the library that the directories have for it. -/
def importGraph (env : Env D) (fs : FileSystem D) : Worklist.Problem Str Str where
  claimable := isDeployableRuntime
  items name := ((locate fs env.dirs name).bind (·.2.2.imports)).getD []
  requests name := [toAsciiLower name]

/-- The least set with the deployable imports of the output and those of every library that is located, in lower
    case. -/
def Needed (env : Env D) (fs : FileSystem D) : Str → Prop :=
  Worklist.Needed (importGraph env fs) ((rootImports env fs).getD [])

/-- A directory that is searched has at most one file for a name, whatever its case. -/
def OnePerName (env : Env D) (fs : FileSystem D) : Prop :=
  ∀ dir ∈ env.dirs, ((fs dir).filter (·.2.isFile)).Pairwise fun a b => toAsciiLower a.1 ≠ toAsciiLower b.1

/-- No library that is needed would be put in the place of the output. -/
def OutputIsSafe (env : Env D) (fs : FileSystem D) : Prop :=
  ∀ name, Needed env fs name → ∀ dir source, locate fs env.dirs name = some (dir, env.outputName, source) →
    isUpToDate source (fs.find env.destDir env.outputName) = true ∨ env.stage env.outputName = none

end

/-! ## Looking for a name -/

theorem toAsciiLower_idem (name : Str) : toAsciiLower (toAsciiLower name) = toAsciiLower name := by
  unfold toAsciiLower
  rw [List.map_map]
  refine List.map_congr_left fun c _ => ?_
  show c.toLower.toLower = c.toLower
  simp only [Char.toLower]
  split
  · rw [dif_neg]
    grind
  · rfl

theorem toLower_of_isDigit {c : Char} (h : c.isDigit = true) : c.toLower = c := by
  simp only [Char.toLower]
  unfold Char.isDigit at h
  grind

theorem isDeployableRuntime_lower (name : Str) : isDeployableRuntime (toAsciiLower name) = isDeployableRuntime name := by
  simp only [isDeployableRuntime, isSystemDll, toAsciiLower_idem]

section
variable {D : Type} {fs fs' : FileSystem D} {dirs : List D} {dir : D} {name l source : Str} {entry : Entry}

/-- The entries of a directory for a name in lower case. -/
def named (fs : FileSystem D) (dir : D) (l : Str) : List (Str × Entry) := (fs dir).filter (toAsciiLower ·.1 = l)

theorem find_named (fs : FileSystem D) (dir : D) (name : Str) :
    fs.find dir name = ((named fs dir (toAsciiLower name)).find? (·.1 = name)).map (·.2) := by
  unfold FileSystem.find named
  rw [List.find?_filter]
  congr 2
  funext e
  by_cases h : e.1 = name <;> simp [h]

theorem find?_named (fs : FileSystem D) (dir : D) (l : Str) :
    (fs dir).find? (fun e => toAsciiLower e.1 = l ∧ e.2.isFile) = (named fs dir l).find? (·.2.isFile) := by
  unfold named
  rw [List.find?_filter]
  congr 1
  simp

/-- What is found depends on the entries for the name alone. -/
theorem locate_congr (h : ∀ dir, named fs dir (toAsciiLower name) = named fs' dir (toAsciiLower name)) :
    locate fs dirs name = locate fs' dirs name := by
  unfold locate
  congr 1
  funext dir
  have hfind : fs.find dir name = fs'.find dir name := by rw [find_named, find_named fs', h]
  have hlower : fs.find dir (toAsciiLower name) = fs'.find dir (toAsciiLower name) := by
    rw [find_named, find_named fs', toAsciiLower_idem, h]
  unfold locateIn
  dsimp only
  rw [hfind, hlower, find?_named, find?_named, h]

/-- Whatever spelling it is found under, it is a file of the directory with that name in lower case. -/
theorem locateIn_eq_some {found : D × Str × Entry} (h : locateIn fs name dir = some found) :
    found.1 = dir ∧ found.2 ∈ fs dir ∧ found.2.2.isFile = true ∧ toAsciiLower found.2.1 = toAsciiLower name := by
  have hfind : ∀ {spelling : Str} {entry : Entry}, (fs.find dir spelling).filter (·.isFile) = some entry →
      (spelling, entry) ∈ fs dir ∧ entry.isFile = true := by
    intro spelling entry hentry
    obtain ⟨hentry, hfile⟩ := Option.filter_eq_some_iff.mp hentry
    obtain ⟨e, he, rfl⟩ := Option.map_eq_some_iff.mp hentry
    have hname := List.find?_some he
    rw [decide_eq_true_iff] at hname
    exact ⟨hname ▸ List.mem_of_find?_eq_some he, hfile⟩
  unfold locateIn at h
  dsimp only at h
  cases hexact : (fs.find dir name).filter (·.isFile) with
  | some entry =>
    rw [hexact] at h
    cases h
    exact ⟨rfl, (hfind hexact).1, (hfind hexact).2, rfl⟩
  | none =>
    rw [hexact] at h
    cases hlower : (fs.find dir (toAsciiLower name)).filter (·.isFile) with
    | some entry =>
      rw [hlower] at h
      cases h
      exact ⟨rfl, (hfind hlower).1, (hfind hlower).2, toAsciiLower_idem name⟩
    | none =>
      rw [hlower] at h
      obtain ⟨e, he, rfl⟩ := Option.map_eq_some_iff.mp h
      have hprop := List.find?_some he
      rw [decide_eq_true_iff] at hprop
      exact ⟨rfl, List.mem_of_find?_eq_some he, hprop.2, hprop.1⟩

theorem locateIn_isSome (hmem : (source, entry) ∈ fs dir) (hfile : entry.isFile = true)
    (hlower : toAsciiLower source = toAsciiLower name) : ∃ found, locateIn fs name dir = some found := by
  unfold locateIn
  dsimp only
  cases (fs.find dir name).filter (·.isFile) with
  | some entry => exact ⟨_, rfl⟩
  | none =>
    cases (fs.find dir (toAsciiLower name)).filter (·.isFile) with
    | some entry => exact ⟨_, rfl⟩
    | none =>
      have hfound : ((fs dir).find? fun e => toAsciiLower e.1 = toAsciiLower name ∧ e.2.isFile).isSome = true := by
        rw [List.find?_isSome]
        exact ⟨_, hmem, decide_eq_true ⟨hlower, hfile⟩⟩
      obtain ⟨e, he⟩ := Option.isSome_iff_exists.mp hfound
      exact ⟨(dir, e), by rw [he]; rfl⟩

/-- With one file for a name, every spelling of it finds that file. -/
theorem locate_lower (h : ∀ dir ∈ dirs, ((fs dir).filter (·.2.isFile)).Pairwise
    fun a b => toAsciiLower a.1 ≠ toAsciiLower b.1) : locate fs dirs (toAsciiLower name) = locate fs dirs name := by
  unfold locate
  induction dirs with
  | nil => rfl
  | cons dir dirs ih =>
    have hsame : locateIn fs (toAsciiLower name) dir = locateIn fs name dir := by
      apply Option.ext
      intro found
      have hdir := h dir List.mem_cons_self
      -- What one spelling finds, any spelling finds.
      have hspelling : ∀ {name name' : Str}, toAsciiLower name = toAsciiLower name' →
          locateIn fs name dir = some found → locateIn fs name' dir = some found := by
        intro name name' hname hfound
        obtain ⟨hd, hmem, hfile, hlower⟩ := locateIn_eq_some hfound
        obtain ⟨found', hfound'⟩ := locateIn_isSome hmem hfile (hlower.trans hname)
        obtain ⟨hd', hmem', hfile', hlower'⟩ := locateIn_eq_some hfound'
        have heq : found'.2 = found.2 := by
          by_contra hne
          have : Std.Symm fun a b : Str × Entry => toAsciiLower a.1 ≠ toAsciiLower b.1 := ⟨fun _ _ => Ne.symm⟩
          exact hdir.forall (List.mem_filter.mpr (And.intro hmem' hfile')) (List.mem_filter.mpr (And.intro hmem hfile))
            hne (hlower'.trans (hname.symm.trans hlower.symm))
        rw [hfound', Prod.ext (hd'.trans hd.symm) heq]
      exact ⟨hspelling (toAsciiLower_idem name), hspelling (toAsciiLower_idem name).symm⟩
    rw [List.findSome?_cons, List.findSome?_cons, hsame, ih fun d hd => h d (List.mem_cons_of_mem _ hd)]

theorem locate_eq_some {found : D × Str × Entry} (h : locate fs dirs name = some found) :
    found.1 ∈ dirs ∧ found.2 ∈ fs found.1 ∧ toAsciiLower found.2.1 = toAsciiLower name := by
  obtain ⟨dir, hdir, hfound⟩ := List.exists_of_findSome?_eq_some h
  obtain ⟨rfl, hmem, -, hlower⟩ := locateIn_eq_some hfound
  exact ⟨hdir, hmem, hlower⟩

end

/-! ## Writing -/

theorem getLast?_of_extension {name ext : Str} (h : extension name = some ext) (hne : ext ≠ []) :
    name.getLast? = ext.getLast? := by
  unfold extension at h
  split at h
  · next front c stem hspan =>
    cases h
    have hsplit : name.reverse = front ++ ('.' :: c :: stem) := by
      rw [List.span_eq_takeWhile_dropWhile, Prod.mk.injEq] at hspan
      rw [← hspan.1, ← hspan.2, List.takeWhile_append_dropWhile]
    have hfront : front ≠ [] := fun hnil => hne (by rw [hnil, List.reverse_nil])
    rw [← List.head?_reverse, hsplit, List.head?_append_of_ne_nil _ hfront, List.getLast?_reverse]
  · cases h

section
variable {D : Type} [DecidableEq D] {fs : FileSystem D} {env : Env D} {dir : D} {name l : Str} {entry : Entry}

theorem named_remove (h : toAsciiLower name ≠ l) : named (fs.remove env.destDir name) dir l = named fs dir l := by
  unfold named FileSystem.remove
  by_cases hdir : dir = env.destDir
  · subst hdir
    rw [Function.update_self, List.filter_filter]
    refine List.filter_congr fun e _ => ?_
    by_cases he : e.1 = name
    · simp [he, h]
    · simp [he]
  · rw [Function.update_of_ne hdir]

theorem named_put (h : toAsciiLower name ≠ l) : named (fs.put env.destDir name entry) dir l = named fs dir l := by
  have hremove := @named_remove D _ fs env dir name l h
  rw [← hremove]
  unfold named FileSystem.put FileSystem.remove
  by_cases hdir : dir = env.destDir
  · subst hdir
    rw [Function.update_self, Function.update_self, List.filter_append, List.filter_cons_of_neg (by simp [h]),
      List.filter_nil, List.append_nil]
  · rw [Function.update_of_ne hdir, Function.update_of_ne hdir]

omit [DecidableEq D] in
/-- The name of a temporary file ends in a digit. -/
theorem tmpName_getLast? (env : Env D) (name : Str) : ∃ c, (tmpName env name).getLast? = some c ∧ c.isDigit = true := by
  have hne : Nat.toDigits 10 env.pid ≠ [] := Nat.toDigits_ne_nil
  refine ⟨(Nat.toDigits 10 env.pid).getLast hne, ?_, ?_⟩
  · have hsplit : tmpName env name = ('.' :: (name ++ ".reld-tmp-".toList)) ++ Nat.toDigits 10 env.pid := by
      simp [tmpName]
    rw [hsplit, List.getLast?_append_of_ne_nil _ hne, List.getLast?_eq_some_getLast hne]
  · exact Nat.isDigit_of_mem_toDigits (by decide) (by decide) (List.getLast_mem hne)

omit [DecidableEq D] in
theorem tmpName_ne_of_deployable {name' : Str} (h : isDeployableRuntime name' = true) :
    toAsciiLower (tmpName env name) ≠ toAsciiLower name' := by
  intro heq
  obtain ⟨c, hc, hdigit⟩ := tmpName_getLast? env name
  unfold isDeployableRuntime at h
  simp only [Bool.and_eq_true, beq_iff_eq] at h
  have hlast := getLast?_of_extension h.1.1 (by decide)
  rw [← heq, toAsciiLower, List.getLast?_map, hc] at hlast
  have hl : c.toLower = 'l' := Option.some.inj hlast
  rw [toLower_of_isDigit hdigit] at hl
  rw [hl] at hdigit
  exact absurd hdigit (by decide)

/-- `deploy_one` writes beside the output, under the name of the library and under a temporary one. -/
theorem deployOne_spec (env : Env D) (s : State D) (name : Str) (source : Entry) :
    let s' := deployOne env s name source
    s'.visited = s.visited ∧ s'.queue = s.queue ∧ s'.report.missing = s.report.missing ∧ s'.tried = s.tried ++ [name] ∧
      (∀ l, toAsciiLower name ≠ l → toAsciiLower (tmpName env name) ≠ l → ∀ dir, named s'.fs dir l = named s.fs dir l) ∧
      (∀ written, written ≠ tmpName env name → (written ∈ s'.written ↔ written ∈ s.written ∨
        written = name ∧ isUpToDate source (s.fs.find env.destDir name) = false ∧ env.stage name ≠ none)) := by
  unfold deployOne
  dsimp only
  cases hdate : isUpToDate source (s.fs.find env.destDir name) with
  | true => exact ⟨rfl, rfl, rfl, rfl, fun _ _ _ _ => rfl, fun _ _ => by simp⟩
  | false =>
    cases env.stage name with
    | none =>
      refine ⟨rfl, rfl, rfl, rfl, fun l _ htmp dir => named_remove htmp, fun written hwritten => ?_⟩
      simp [hwritten]
    | some modified =>
      refine ⟨rfl, rfl, rfl, rfl, fun l hname htmp dir => ?_, fun written hwritten => ?_⟩
      · exact (named_put hname).trans (named_remove htmp)
      · simp [hwritten]

end

/-! ## The loop -/

section
variable {D : Type} [DecidableEq D] {env : Env D} {fs : FileSystem D} {s : State D} {done : List Str} {name l : Str}

/-- A library that is needed is put in the place of the output. -/
def Replaces (env : Env D) (fs : FileSystem D) (l : Str) : Prop :=
  ∃ dir source, locate fs env.dirs l = some (dir, env.outputName, source) ∧
    isUpToDate source (fs.find env.destDir env.outputName) = false ∧ env.stage env.outputName ≠ none

/-- The state of the loop after it has taken the names `done` from the queue. Of the file system, the entries of names
    that have not been visited are those of the start. -/
structure LoopInv (env : Env D) (fs : FileSystem D) (done : List Str) (s : State D) : Prop where
  work : Worklist.Inv (importGraph env fs) ((rootImports env fs).getD []) ⟨s.visited, s.queue, done⟩
  kept : ∀ l, isDeployableRuntime l = true → toAsciiLower l ∉ s.visited →
    ∀ dir, named s.fs dir (toAsciiLower l) = named fs dir (toAsciiLower l)
  handled : ((s.tried ++ s.report.missing).map toAsciiLower).Perm s.visited
  missing : ∀ name ∈ s.report.missing, locate fs env.dirs (toAsciiLower name) = none
  tried : ∀ name ∈ s.tried, ∃ dir source, locate fs env.dirs (toAsciiLower name) = some (dir, name, source)
  output : env.outputName ∈ s.written ↔ ∃ l ∈ s.visited, Replaces env fs l

/-- Taking a name from the queue is a step of the worklist. -/
theorem worklist_step {items : List Str} {start queue visited : List Str} {P : Worklist.Problem Str Str}
    (h : Worklist.Inv P start ⟨visited, name :: queue, done⟩) (hreq : P.requests name = [l]) (hitems : P.items l = items) :
    Worklist.Inv P start (if P.claimable l = true ∧ l ∉ visited then ⟨visited ++ [l], queue ++ items, done ++ [name]⟩
      else ⟨visited, queue, done ++ [name]⟩) := by
  have hstep : Worklist.Step P ⟨visited, name :: queue, done⟩
      (Worklist.process P ⟨visited, queue, done⟩ name) := ⟨[], name, queue, rfl, rfl⟩
  have hinv := Worklist.inv_step h hstep
  unfold Worklist.process Worklist.claim at hinv
  rw [hreq, List.foldl_cons, List.foldl_nil, hitems] at hinv
  by_cases hclaim : P.claimable l = true ∧ l ∉ visited
  · rw [if_pos hclaim] at hinv ⊢
    exact hinv
  · rw [if_neg hclaim] at hinv ⊢
    exact hinv

omit [DecidableEq D] in
/-- The output is no temporary file. -/
theorem outputName_ne_tmpName (h : rootImports env fs ≠ none) (name : Str) : env.outputName ≠ tmpName env name := by
  intro heq
  obtain ⟨c, hc, hdigit⟩ := tmpName_getLast? env name
  unfold rootImports at h
  rw [heq] at h
  cases hext : extension (tmpName env name) with
  | none =>
    rw [hext] at h
    exact h rfl
  | some ext =>
    rw [hext, Option.map_some, Option.getD_some] at h
    have hlast : ∀ suffix : Str, suffix ≠ [] → toAsciiLower ext = suffix → suffix.getLast? = some c := by
      rintro suffix hne rfl
      have hne' : ext ≠ [] := fun hnil => hne (by rw [hnil]; rfl)
      rw [toAsciiLower, List.getLast?_map, ← getLast?_of_extension hext hne', hc, Option.map_some,
        toLower_of_isDigit hdigit]
    rw [ne_eq, ite_eq_left_iff, not_forall] at h
    obtain ⟨hkind, -⟩ := h
    obtain hexe | hdll := Decidable.or_iff_not_not_and_not.mpr hkind
    · obtain rfl := Option.some.inj (hlast _ (by decide) hexe)
      exact absurd hdigit (by decide)
    · obtain rfl := Option.some.inj (hlast _ (by decide) hdll)
      exact absurd hdigit (by decide)

/-- A library that is found is handed to `deploy_one`, after its imports have been put at the end of the queue. -/
theorem deployed_inv {queue : List Str} {dir : D} {source : Str} {entry : Entry} {report : Report}
    (h : LoopInv env fs done s) (hroot : rootImports env fs ≠ none) (hclaim : isDeployableRuntime name = true)
    (hnew : toAsciiLower name ∉ s.visited)
    (hwork : Worklist.Inv (importGraph env fs) ((rootImports env fs).getD [])
      ⟨s.visited ++ [toAsciiLower name], queue, done ++ [name]⟩)
    (hfound : locate fs env.dirs (toAsciiLower name) = some (dir, source, entry))
    (hmissing : report.missing = s.report.missing) :
    LoopInv env fs (done ++ [name]) (deployOne env
      { s with visited := s.visited ++ [toAsciiLower name], queue := queue, report := report } source entry) := by
  obtain ⟨hvisited, hqueue, hmissing', htried, hkept, hwritten⟩ := deployOne_spec env
    { s with visited := s.visited ++ [toAsciiLower name], queue := queue, report := report } source entry
  rw [hmissing] at hmissing'
  have hsource : toAsciiLower source = toAsciiLower name := (locate_eq_some hfound).2.2.trans (toAsciiLower_idem name)
  refine ⟨?_, fun l hl hnot dir => ?_, ?_, ?_, ?_, ?_⟩
  · rw [hvisited, hqueue]
    exact hwork
  · rw [hvisited, List.mem_append, List.mem_singleton, not_or] at hnot
    rw [hkept _ (by rw [hsource]; exact Ne.symm hnot.2) (tmpName_ne_of_deployable hl)]
    exact h.kept l hl hnot.1 dir
  · rw [hvisited, hmissing', htried, List.append_assoc, List.map_append]
    have hmiddle : (s.tried.map toAsciiLower ++ toAsciiLower source :: s.report.missing.map toAsciiLower).Perm
        (toAsciiLower source :: (s.tried.map toAsciiLower ++ s.report.missing.map toAsciiLower)) := List.perm_middle
    refine hmiddle.trans ?_
    rw [hsource, ← List.map_append]
    exact (h.handled.cons _).trans (List.perm_append_singleton _ _).symm
  · rw [hmissing']
    exact h.missing
  · intro other hother
    rw [htried] at hother
    obtain hother | hother := List.mem_append.mp hother
    · exact h.tried other hother
    · obtain rfl := List.mem_singleton.mp hother
      rw [hsource]
      exact ⟨dir, entry, hfound⟩
  · have hreplaces : Replaces env fs (toAsciiLower name) ↔ env.outputName = source ∧
        isUpToDate entry (s.fs.find env.destDir source) = false ∧ env.stage source ≠ none := by
      have hdest : s.fs.find env.destDir source = fs.find env.destDir source := by
        rw [find_named, find_named fs, hsource, h.kept name hclaim hnew]
      rw [hdest]
      constructor
      · rintro ⟨dir', source', hlocate, hdate, hstage⟩
        rw [hfound] at hlocate
        cases hlocate
        exact ⟨rfl, hdate, hstage⟩
      · rintro ⟨rfl, hdate, hstage⟩
        exact ⟨dir, entry, hfound, hdate, hstage⟩
    rw [hwritten _ (outputName_ne_tmpName hroot source), h.output, hvisited, ← hreplaces]
    simp [or_and_right, exists_or]

theorem deployStep_inv (hone : OnePerName env fs) (hroot : rootImports env fs ≠ none) {queue : List Str}
    (hqueue : s.queue = name :: queue) (h : LoopInv env fs done s) :
    LoopInv env fs (done ++ [name]) (deployStep env { s with queue := queue } name) := by
  have hwork := h.work
  rw [hqueue] at hwork
  have hnext := worklist_step hwork rfl rfl
  unfold deployStep
  dsimp only
  by_cases hclaim : isDeployableRuntime name = true ∧ toAsciiLower name ∉ s.visited
  · have hclaim' : (importGraph env fs).claimable (toAsciiLower name) = true ∧ toAsciiLower name ∉ s.visited :=
      ⟨(isDeployableRuntime_lower name).trans hclaim.1, hclaim.2⟩
    rw [if_pos hclaim'] at hnext
    have hsame : locate s.fs env.dirs name = locate fs env.dirs (toAsciiLower name) :=
      (locate_congr (h.kept name hclaim.1 hclaim.2)).trans (locate_lower hone).symm
    rw [if_neg (by simp [hclaim]), hsame]
    cases hfound : locate fs env.dirs (toAsciiLower name) with
    | none =>
      have hitems : (importGraph env fs).items (toAsciiLower name) = [] := by simp [importGraph, hfound]
      rw [hitems, List.append_nil] at hnext
      refine ⟨hnext, fun l hl hnot => h.kept l hl fun hmem => hnot (List.mem_append_left _ hmem), ?_, ?_, h.tried, ?_⟩
      · rw [← List.append_assoc, List.map_append]
        exact h.handled.append_right _
      · intro other hother
        obtain hother | hother := List.mem_append.mp hother
        · exact h.missing other hother
        · rw [List.mem_singleton.mp hother]
          exact hfound
      · have hno : ¬Replaces env fs (toAsciiLower name) := by
          rintro ⟨dir, source, hlocate, -⟩
          rw [hfound] at hlocate
          cases hlocate
        rw [h.output]
        simp [or_and_right, exists_or, hno]
    | some found =>
      obtain ⟨dir, source, entry⟩ := found
      have hitems : (importGraph env fs).items (toAsciiLower name) = entry.imports.getD [] := by
        simp [importGraph, hfound]
      rw [hitems] at hnext
      dsimp only
      cases himports : entry.imports with
      | some imports =>
        rw [himports, Option.getD_some] at hnext
        exact deployed_inv h hroot hclaim.1 hclaim.2 hnext hfound rfl
      | none =>
        rw [himports, Option.getD_none, List.append_nil] at hnext
        exact deployed_inv h hroot hclaim.1 hclaim.2 hnext hfound rfl
  · have hclaim' : ¬((importGraph env fs).claimable (toAsciiLower name) = true ∧ toAsciiLower name ∉ s.visited) :=
      fun h => hclaim ⟨(isDeployableRuntime_lower name).symm.trans h.1, h.2⟩
    rw [if_neg hclaim'] at hnext
    have hskip : (!isDeployableRuntime name || s.visited.contains (toAsciiLower name)) = true := by
      rw [not_and_or, not_not] at hclaim
      obtain hclaim | hclaim := hclaim <;> simp [hclaim]
    rw [if_pos hskip]
    exact ⟨hnext, h.kept, h.handled, h.missing, h.tried, h.output⟩

omit [DecidableEq D] in
theorem initial_inv (env : Env D) (fs : FileSystem D) :
    LoopInv env fs [] ⟨fs, [], (rootImports env fs).getD [], ⟨[], [], [], []⟩, [], []⟩ :=
  ⟨Worklist.inv_initial _, fun _ _ _ _ => rfl, .nil, nofun, nofun, by simp⟩

/-- All names that a run can come across. -/
def mentioned (env : Env D) (fs : FileSystem D) : List Str :=
  ((rootImports env fs).getD [] ++ env.dirs.flatMap fun dir => (fs dir).flatMap (·.2.imports.getD [])).map toAsciiLower

omit [DecidableEq D] in
theorem needed_mentioned (h : Needed env fs l) : l ∈ mentioned env fs := by
  cases h with
  | seed hw hreq =>
    rw [List.mem_singleton.mp hreq]
    exact List.mem_map_of_mem (List.mem_append_left _ hw)
  | @step g w _ _ hw hreq =>
    rw [List.mem_singleton.mp hreq]
    refine List.mem_map_of_mem (List.mem_append_right _ ?_)
    have hw' : w ∈ ((locate fs env.dirs g).bind (·.2.2.imports)).getD [] := hw
    cases hfound : locate fs env.dirs g with
    | none =>
      rw [hfound] at hw'
      cases hw'
    | some found =>
      rw [hfound] at hw'
      obtain ⟨hdir, hmem, -⟩ := locate_eq_some hfound
      exact List.mem_flatMap.mpr ⟨_, hdir, List.mem_flatMap.mpr ⟨_, hmem, hw'⟩⟩

def stepBound (env : Env D) (fs : FileSystem D) : Nat :=
  ((rootImports env fs).getD []).length + ((mentioned env fs).flatMap (importGraph env fs).items).length

omit [DecidableEq D] in
/-- Every library adds its imports to the queue once, so that there is an end to the names taken from it. -/
theorem LoopInv.done_le (h : LoopInv env fs done s) : done.length ≤ stepBound env fs := by
  have hlen := h.work.items.length_eq
  have hsub : s.visited.Subperm (mentioned env fs) :=
    h.work.nodup.subperm fun l hl => needed_mentioned (h.work.sound l hl)
  obtain ⟨visited, hperm, hsublist⟩ := hsub
  have hitems : (s.visited.flatMap (importGraph env fs).items).length ≤
      ((mentioned env fs).flatMap (importGraph env fs).items).length := by
    rw [← (hperm.flatMap_right _).length_eq]
    exact (hsublist.flatMap _).length_le
  rw [List.length_append, List.length_append] at hlen
  unfold stepBound
  dsimp only at hlen
  omega

/-- Any run that ends has an empty queue, and its state is one of the loop. -/
theorem deployLoop_inv (hone : OnePerName env fs) (hroot : rootImports env fs ≠ none) {fuel : Nat} {final : State D}
    (h : LoopInv env fs done s) (hrun : deployLoop env fuel s = some final) :
    ∃ done, LoopInv env fs done final ∧ final.queue = [] := by
  induction fuel generalizing s done with
  | zero =>
    obtain ⟨hqueue, hfinal⟩ := Option.ite_none_right_eq_some.mp hrun
    cases hfinal
    exact ⟨done, h, hqueue⟩
  | succ fuel ih =>
    rw [deployLoop] at hrun
    cases hqueue : s.queue with
    | nil =>
      rw [hqueue] at hrun
      cases hrun
      exact ⟨done, h, hqueue⟩
    | cons name queue =>
      rw [hqueue] at hrun
      exact ih (deployStep_inv hone hroot hqueue h) hrun

theorem deployLoop_isSome (hone : OnePerName env fs) (hroot : rootImports env fs ≠ none) {fuel : Nat}
    (h : LoopInv env fs done s) (hfuel : stepBound env fs < done.length + fuel) :
    ∃ final, deployLoop env fuel s = some final := by
  induction fuel generalizing s done with
  | zero => exact absurd h.done_le (Nat.not_le_of_lt hfuel)
  | succ fuel ih =>
    rw [deployLoop]
    cases hqueue : s.queue with
    | nil => exact ⟨s, rfl⟩
    | cons name queue =>
      refine ih (deployStep_inv hone hroot hqueue h) ?_
      rw [List.length_append, List.length_singleton]
      omega

/-- Without imports the loop ends at once. -/
theorem deployRuntimeDlls_none (hroot : rootImports env fs = none) (fuel : Nat) :
    deployRuntimeDlls env fuel fs = some ⟨fs, [], (rootImports env fs).getD [], ⟨[], [], [], []⟩, [], []⟩ := by
  unfold deployRuntimeDlls
  rw [hroot]
  cases fuel <;> rfl

/-- Every library that is needed is deployed or missing, and the output stays unless a library takes its place. -/
theorem deploy_runtime_dlls_iff (env : Env D) (fs : FileSystem D) (hone : OnePerName env fs) :
    (∃ bound, ∀ fuel, bound ≤ fuel → ∃ final, deployRuntimeDlls env fuel fs = some final) ∧
    ∀ fuel final, deployRuntimeDlls env fuel fs = some final →
      final.visited.Nodup ∧ (∀ l, l ∈ final.visited ↔ Needed env fs l) ∧
      ((final.tried ++ final.report.missing).map toAsciiLower).Perm final.visited ∧
      (∀ name ∈ final.tried, ∃ dir source, locate fs env.dirs (toAsciiLower name) = some (dir, name, source)) ∧
      (∀ name ∈ final.report.missing, locate fs env.dirs (toAsciiLower name) = none) ∧
      (env.outputName ∉ final.written ↔ OutputIsSafe env fs) := by
  constructor
  · refine ⟨stepBound env fs + 1, fun fuel hfuel => ?_⟩
    by_cases hroot : rootImports env fs = none
    · exact ⟨_, deployRuntimeDlls_none hroot fuel⟩
    · exact deployLoop_isSome hone hroot (initial_inv env fs) (by rw [List.length_nil]; omega)
  · intro fuel final hrun
    have hfinal : ∃ done, LoopInv env fs done final ∧ final.queue = [] := by
      by_cases hroot : rootImports env fs = none
      · rw [deployRuntimeDlls_none hroot fuel] at hrun
        cases hrun
        exact ⟨[], initial_inv env fs, by rw [hroot]; rfl⟩
      · exact deployLoop_inv hone hroot (initial_inv env fs) hrun
    obtain ⟨done, h, hqueue⟩ := hfinal
    have hneeded : ∀ l, l ∈ final.visited ↔ Needed env fs l :=
      fun l => ⟨h.work.sound l, h.work.needed_claimed hqueue⟩
    refine ⟨h.work.nodup, hneeded, h.handled, h.tried, h.missing, ?_⟩
    rw [h.output]
    constructor
    · intro hnot name hname dir source hfound
      by_contra hrisky
      rw [not_or, Bool.not_eq_true] at hrisky
      exact hnot ⟨name, (hneeded name).mpr hname, dir, source, hfound, hrisky⟩
    · rintro hsafe ⟨l, hl, dir, source, hfound, hdate, hstage⟩
      obtain hsafe | hsafe := hsafe l ((hneeded l).mp hl) dir source hfound
      · rw [hdate] at hsafe
        cases hsafe
      · exact hstage hsafe

end

/-! ## A library that is linked again -/

/-- `libunwind.dll` needs `libc++.dll`, which needs `libunwind.dll`. -/
def circularDirs : FileSystem Bool := fun dir =>
  if dir then
    [("libc++.dll".toList, ⟨true, 30, 5, some ["LIBUNWIND.dll".toList]⟩), ("libunwind.dll".toList, ⟨true, 20, 5, some []⟩)]
  else [("libunwind.dll".toList, ⟨true, 10, 9, some ["libc++.dll".toList, "KERNEL32.dll".toList]⟩)]

def circularEnv (outputName : Str) : Env Bool where
  noDeploy := false
  noDeploySharedLib := false
  dirs := [true]
  destDir := false
  outputName := outputName
  pid := 7
  stage := fun _ => some 9

theorem circular_onePerName (outputName : Str) : OnePerName (circularEnv outputName) circularDirs := by
  intro dir hdir
  obtain rfl := List.mem_singleton.mp hdir
  decide

theorem deploy_runtime_dlls_iff_circular :
    ∃ final, deployRuntimeDlls (circularEnv "libunwind.dll".toList) 9 circularDirs = some final ∧
      final.visited.Nodup := by
  obtain ⟨final, hfinal⟩ : ∃ final,
      deployRuntimeDlls (circularEnv "libunwind.dll".toList) 9 circularDirs = some final := ⟨_, rfl⟩
  exact ⟨final, hfinal, ((deploy_runtime_dlls_iff _ _ (circular_onePerName _)).2 9 final hfinal).1⟩

/-- The library of the toolchain takes the place of the one that was linked. -/
theorem circular_output_replaced : ¬ ∀ (env : Env Bool) (fs : FileSystem Bool), OnePerName env fs →
    ∀ fuel final, deployRuntimeDlls env fuel fs = some final → env.outputName ∉ final.written := by
  intro h
  exact absurd (h (circularEnv "libunwind.dll".toList) circularDirs (circular_onePerName _) 9 _ rfl) (by decide)

end Reld.RuntimeDlls
