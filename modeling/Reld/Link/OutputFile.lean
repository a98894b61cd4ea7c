import Reld.Bridge.Routes

/-!
# `Link.OutputFile` — what becomes of the old output

With several threads the old output is renamed, and removed in the background while the new one is created and written.
With one thread it is removed first. A file may have several names.
-/

namespace Reld.OutputFile

open Bridge (Str)

/-! ## Files -/

inductive FileReplacementMode where
  | unlinkAndReplace
  | updateInPlace
  | updateInPlaceWithFallback
deriving DecidableEq

/-- A path is a directory and a name. -/
abbrev DirPath (D : Type) := D × Str

/-- `Path::with_extension`: the stem ends in front of the last dot, unless that is the first character. -/
def withExtension {D : Type} (path : DirPath D) (extension : Str) : DirPath D :=
  match path.2.reverse.span (· ≠ '.') with
  | (_, '.' :: c :: stem) => (path.1, (c :: stem).reverse ++ '.' :: extension)
  | _ => (path.1, path.2 ++ '.' :: extension)

/-- The name of the old output until it is removed. -/
def renamedOldFile {D : Type} (path : DirPath D) : DirPath D := withExtension path "delete".toList

structure FileSystem (D F : Type) where
  names : DirPath D → Option F
  data : F → List UInt8

section
variable {D F : Type} [DecidableEq D] [DecidableEq F]

namespace FileSystem

/-- `remove_file`, whose error is ignored. -/
def removeFile (fs : FileSystem D F) (path : DirPath D) : FileSystem D F :=
  { fs with names := Function.update fs.names path none }

/-- `rename_file`. Where both are names of one file, the system call does nothing. -/
def renameFile (fs : FileSystem D F) (path newPath : DirPath D) : Option (FileSystem D F) :=
  match fs.names path with
  | none => none
  | some file =>
    if fs.names newPath = some file then some fs
    else some { fs with names := Function.update (Function.update fs.names newPath (some file)) path none }

def store (fs : FileSystem D F) (file : F) (bytes : List UInt8) : FileSystem D F :=
  { fs with data := Function.update fs.data file bytes }

/-- The files there are, and room for one that is created. -/
def withNew (fs : FileSystem D F) : FileSystem D (Option F) where
  names path := (fs.names path).map some
  data
    | some file => fs.data file
    | none => []

end FileSystem

/-! ## A link -/

/-- What a run gets from outside: a file that is being executed cannot be opened to be written. -/
structure Env (F : Type) where
  threads : Nat
  isSharedObject : Bool
  requestedMode : Option FileReplacementMode
  isBusy : F → Bool

/-- `default_file_replacement_mode` -/
def defaultFileReplacementMode (env : Env F) (fs : FileSystem D F) (path : DirPath D) : FileReplacementMode :=
  if env.isSharedObject then .unlinkAndReplace
  else if fs.names path = none then .unlinkAndReplace
  else .updateInPlaceWithFallback

/-- The mode that `Output::new` settles on. -/
def replacementMode (env : Env F) (fs : FileSystem D F) (path : DirPath D) : FileReplacementMode :=
  env.requestedMode.getD (defaultFileReplacementMode env fs path)

/-- `set_len` -/
def setLen (size : Nat) (bytes : List UInt8) : List UInt8 := bytes.take size ++ List.replicate (size - bytes.length) 0

/-- A new file under a path that has none. -/
def createNew (fs : FileSystem D (Option F)) (path : DirPath D) : FileSystem D (Option F) × Option F :=
  (⟨Function.update fs.names path (some none), Function.update fs.data none []⟩, none)

/-- The file that `create_output` opens. -/
def openOutput (env : Env F) (mode : FileReplacementMode) (fs : FileSystem D (Option F)) (path : DirPath D) :
    Option (FileSystem D (Option F) × Option F) :=
  match fs.names path with
  | none => some (createNew fs path)
  | some file =>
    if file.any env.isBusy then
      -- Only the last mode removes a file that is being executed.
      if mode = .updateInPlaceWithFallback then some (createNew (fs.removeFile path) path) else none
    else if mode = .unlinkAndReplace then some (fs.store file [], file)
    else some (fs, file)

/-- `create_output` -/
def createOutput (env : Env F) (mode : FileReplacementMode) (size : Nat) (fs : FileSystem D (Option F))
    (path : DirPath D) : Option (FileSystem D (Option F) × Option F) :=
  (openOutput env mode fs path).map fun opened =>
    (opened.1.store opened.2 (setLen size (opened.1.data opened.2)), opened.2)

/-- When the task that removes the renamed file comes to its turn. -/
inductive RemovalTime where
  | beforeCreation
  | beforeWriting
  | afterWriting
deriving DecidableEq

/-- `set_size` and `write` with several threads. -/
def linkInBackground (env : Env F) (mode : FileReplacementMode) (bytes : List UInt8) (time : RemovalTime)
    (fs : FileSystem D (Option F)) (path : DirPath D) : Option (FileSystem D (Option F)) :=
  let renamed := if mode = .unlinkAndReplace then fs.renameFile path (renamedOldFile path) else none
  let removeAt t (fs : FileSystem D (Option F)) :=
    if renamed.isSome ∧ time = t then fs.removeFile (renamedOldFile path) else fs
  (createOutput env mode bytes.length (removeAt .beforeCreation (renamed.getD fs)) path).map fun output =>
    removeAt .afterWriting ((removeAt .beforeWriting output.1).store output.2 bytes)

/-- `write` with one thread. -/
def linkInForeground (env : Env F) (mode : FileReplacementMode) (bytes : List UInt8) (fs : FileSystem D (Option F))
    (path : DirPath D) : Option (FileSystem D (Option F)) :=
  (createOutput env mode bytes.length (fs.removeFile path) path).map fun output => output.1.store output.2 bytes

/-- A link that writes the bytes, where it succeeds. -/
def link (env : Env F) (bytes : List UInt8) (time : RemovalTime) (fs : FileSystem D F) (path : DirPath D) :
    Option (FileSystem D (Option F)) :=
  let mode := replacementMode env fs path
  if env.threads > 1 then linkInBackground env mode bytes time fs.withNew path
  else linkInForeground env mode bytes fs.withNew path

/-! ## What the modes promise -/

/-- An output that is there is edited, except for one that cannot be opened where there is a fallback. -/
def EditsInPlace (env : Env F) (mode : FileReplacementMode) (file : F) : Prop :=
  mode = .updateInPlace ∨ mode = .updateInPlaceWithFallback ∧ env.isBusy file = false

/-- The contract of a link, with the file system before it and after it. -/
structure Contract (env : Env F) (bytes : List UInt8) (path : DirPath D) (fs : FileSystem D F)
    (fs' : FileSystem D (Option F)) : Prop where
  written : ∃ file, fs'.names path = some file ∧ fs'.data file = bytes
  inPlace : ∀ file, fs.names path = some file → EditsInPlace env (replacementMode env fs path) file →
    fs'.names path = some (some file)
  names : ∀ other, other ≠ path → fs'.names other = (fs.names other).map some
  data : ∀ file, fs'.data (some file) ≠ fs.data file →
    fs.names path = some file ∧ EditsInPlace env (replacementMode env fs path) file

/-- An old output that is to be edited is not removed by the only thread; one that is to be replaced does not take the
    name of another file when it is renamed, and is not named so itself. -/
def KeepsContract (env : Env F) (fs : FileSystem D F) (path : DirPath D) : Prop :=
  ∀ file, fs.names path = some file →
    if env.threads > 1 then
      replacementMode env fs path = .unlinkAndReplace →
        fs.names (renamedOldFile path) = none ∨
          fs.names (renamedOldFile path) = some file ∧ env.isBusy file = true
    else ¬EditsInPlace env (replacementMode env fs path) file

end

/-! ## When they keep it -/

section
variable {D F : Type} [DecidableEq D] [DecidableEq F] {env : Env F} {bytes : List UInt8} {path : DirPath D}
  {fs : FileSystem D F} {fs' disk : FileSystem D (Option F)} {mode : FileReplacementMode} {file : F}

omit [DecidableEq D] in
@[simp] theorem store_store (disk : FileSystem D (Option F)) (file : Option F) (bytes bytes' : List UInt8) :
    (disk.store file bytes).store file bytes' = disk.store file bytes' := by
  unfold FileSystem.store
  rw [Function.update_idem]

/-- A name and the bytes of a file are changed in any order. -/
@[simp] theorem store_removeFile (disk : FileSystem D (Option F)) (file : Option F) (bytes : List UInt8) :
    (disk.removeFile path).store file bytes = (disk.store file bytes).removeFile path := rfl

/-- A run that ends with a new file behind the path, and nothing else. -/
theorem contract_new (hnames : fs'.names = Function.update fs.withNew.names path (some none))
    (hdata : fs'.data = Function.update fs.withNew.data none bytes)
    (hmode : ∀ file, fs.names path = some file → ¬EditsInPlace env (replacementMode env fs path) file) :
    Contract env bytes path fs fs' := by
  refine ⟨⟨none, ?_, ?_⟩, fun file hfile hedits => absurd hedits (hmode file hfile), fun other hother => ?_, ?_⟩
  · rw [hnames, Function.update_self]
  · rw [hdata, Function.update_self]
  · rw [hnames, Function.update_of_ne hother]
    rfl
  · intro file hchanged
    rw [hdata, Function.update_of_ne (by simp)] at hchanged
    exact absurd rfl hchanged

/-- The new file is there when all is done, under whatever name the old one was in between. -/
theorem openOutput_none (h : disk.names path = none) :
    (openOutput env mode disk path).map (fun output => output.1.store output.2 bytes) =
      some ⟨Function.update disk.names path (some none), Function.update disk.data none bytes⟩ := by
  unfold openOutput
  rw [h]
  simp [createNew, FileSystem.store]

theorem linkInForeground_eq : linkInForeground env mode bytes disk path =
    some ⟨Function.update disk.names path (some none), Function.update disk.data none bytes⟩ := by
  have hnone : (disk.removeFile path).names path = none := Function.update_self ..
  have hopen := @openOutput_none _ _ _ _ env bytes _ _ mode hnone
  unfold linkInForeground createOutput
  simpa [Function.comp_def, FileSystem.removeFile] using hopen

/-- One thread always leaves a new file. -/
theorem foreground_iff :
    (∀ fs', linkInForeground env mode bytes fs.withNew path = some fs' → Contract env bytes path fs fs') ↔
      ∀ file, fs.names path = some file → ¬EditsInPlace env (replacementMode env fs path) file := by
  rw [linkInForeground_eq]
  constructor
  · intro h file hfile hedits
    have hsame := (h _ rfl).inPlace file hfile hedits
    simp at hsame
  · rintro hmode fs' ⟨⟩
    exact contract_new rfl rfl hmode

/-- Without a rename there is nothing to remove. -/
theorem linkInBackground_kept (h : mode = .unlinkAndReplace → disk.names path = none) (time : RemovalTime) :
    linkInBackground env mode bytes time disk path =
      (openOutput env mode disk path).map fun output => output.1.store output.2 bytes := by
  have hnone : (if mode = .unlinkAndReplace then disk.renameFile path (renamedOldFile path) else none) = none := by
    rw [ite_eq_right_iff]
    intro hmode
    rw [FileSystem.renameFile, h hmode]
  unfold linkInBackground createOutput
  rw [hnone, Option.map_map]
  simp [Function.comp_def]

/-- After a rename the removal comes before the file is opened, or takes effect at the end. -/
theorem linkInBackground_renamed {renamed : FileSystem D (Option F)}
    (h : disk.renameFile path (renamedOldFile path) = some renamed) (time : RemovalTime) :
    linkInBackground env .unlinkAndReplace bytes time disk path =
      if time = .beforeCreation then
        (openOutput env .unlinkAndReplace (renamed.removeFile (renamedOldFile path)) path).map
          fun output => output.1.store output.2 bytes
      else
        (openOutput env .unlinkAndReplace renamed path).map
          fun output => (output.1.store output.2 bytes).removeFile (renamedOldFile path) := by
  unfold linkInBackground createOutput
  rw [if_pos rfl, h, Option.map_map]
  cases time <;> simp [Function.comp_def]

theorem contract_fresh (hfile : fs.names path = none) {time : RemovalTime}
    (h : linkInBackground env mode bytes time fs.withNew path = some fs') : Contract env bytes path fs fs' := by
  have hnone : fs.withNew.names path = none := congrArg (Option.map some) hfile
  rw [linkInBackground_kept fun _ => hnone, openOutput_none hnone] at h
  cases h
  exact contract_new rfl rfl (by simp [hfile])

/-- Without a rename the file is edited, unless it is being executed. -/
theorem contract_inPlace (hfile : fs.names path = some file) (hmode : replacementMode env fs path = mode)
    (hne : mode ≠ .unlinkAndReplace) {time : RemovalTime}
    (h : linkInBackground env mode bytes time fs.withNew path = some fs') : Contract env bytes path fs fs' := by
  have hpath : fs.withNew.names path = some (some file) := congrArg (Option.map some) hfile
  rw [linkInBackground_kept fun heq => absurd heq hne, openOutput, hpath] at h
  simp only [Option.any_some, hne, if_false] at h
  split_ifs at h with hbusy hfallback
  · cases h
    refine contract_new (by simp [createNew, FileSystem.removeFile, FileSystem.store])
      (by simp [createNew, FileSystem.removeFile, FileSystem.store]) fun file' hfile' => ?_
    cases hfile.symm.trans hfile'
    rw [hmode, hfallback]
    simp [EditsInPlace, hbusy]
  · cases h
  · cases h
    have hedits : EditsInPlace env (replacementMode env fs path) file := by
      rw [hmode]
      cases mode with
      | unlinkAndReplace => exact absurd rfl hne
      | updateInPlace => exact .inl rfl
      | updateInPlaceWithFallback => exact .inr ⟨rfl, Bool.eq_false_iff.mpr hbusy⟩
    refine ⟨⟨some file, hpath, Function.update_self ..⟩, fun file' hfile' _ => ?_, fun _ _ => rfl, fun file' h => ?_⟩
    · cases hfile.symm.trans hfile'
      exact hpath
    · by_cases heq : file' = file
      · exact heq ▸ ⟨hfile, hedits⟩
      · exact absurd (Function.update_of_ne (by simpa using heq) ..) h

/-- The last step of the background task leaves nothing under the name in between. -/
theorem exists_late (hpath : fs.withNew.names path = some (some file))
    (hopen : fs.withNew.names (renamedOldFile path) = some (some file) → env.isBusy file = false) :
    ∃ fs', linkInBackground env .unlinkAndReplace bytes .afterWriting fs.withNew path = some fs' ∧
      fs'.names (renamedOldFile path) = none := by
  obtain ⟨renamed, hrenamed, output, houtput⟩ : ∃ renamed,
      fs.withNew.renameFile path (renamedOldFile path) = some renamed ∧
        ∃ output, openOutput env .unlinkAndReplace renamed path = some output := by
    by_cases hlinked : fs.withNew.names (renamedOldFile path) = some (some file)
    · have hbusy : env.isBusy file = false := hopen hlinked
      exact ⟨fs.withNew, by simp [FileSystem.renameFile, hpath, hlinked], _, by simp [openOutput, hpath, hbusy]; rfl⟩
    · exact ⟨_, by simp [FileSystem.renameFile, hpath, hlinked]; rfl, _, by simp [openOutput]; rfl⟩
  refine ⟨(output.1.store output.2 bytes).removeFile (renamedOldFile path), ?_, Function.update_self ..⟩
  rw [linkInBackground_renamed hrenamed, houtput]
  rfl

theorem background_iff (hfile : fs.names path = some file) (hmode : replacementMode env fs path = .unlinkAndReplace) :
    (∀ time fs', linkInBackground env .unlinkAndReplace bytes time fs.withNew path = some fs' →
      Contract env bytes path fs fs') ↔
    fs.names (renamedOldFile path) = none ∨
      fs.names (renamedOldFile path) = some file ∧ env.isBusy file = true := by
  have hreplace : ∀ file, fs.names path = some file → ¬EditsInPlace env (replacementMode env fs path) file := by
    rw [hmode]
    simp [EditsInPlace]
  have hpath : fs.withNew.names path = some (some file) := congrArg (Option.map some) hfile
  constructor
  · intro hall
    by_contra hrisky
    rw [not_or, not_and] at hrisky
    obtain ⟨fs', hlink, hgone⟩ := @exists_late _ _ _ _ env bytes _ _ file hpath
      fun h => Bool.eq_false_iff.mpr (hrisky.2 (by simpa [FileSystem.withNew] using h))
    have hcontract := hall _ fs' hlink
    by_cases hself : renamedOldFile path = path
    · obtain ⟨file', hfile', -⟩ := hcontract.written
      rw [← hself, hgone] at hfile'
      cases hfile'
    · have hkept := hcontract.names _ hself
      rw [hgone, eq_comm, Option.map_eq_none_iff] at hkept
      exact hrisky.1 hkept
  · rintro (hfree | ⟨hlinked, hbusy⟩) time fs' hlink
    · -- The old file takes the free name, and loses it again.
      have hfree' : fs.withNew.names (renamedOldFile path) = none := congrArg (Option.map some) hfree
      have hne : renamedOldFile path ≠ path := by
        intro heq
        rw [heq, hpath] at hfree'
        cases hfree'
      rw [linkInBackground_renamed (by rw [FileSystem.renameFile, hpath]; exact if_neg (by simp [hfree']))] at hlink
      have hnames : Function.update (Function.update (Function.update
          (Function.update fs.withNew.names (renamedOldFile path) (some (some file))) path none)
          (renamedOldFile path) none) path (some none) = Function.update fs.withNew.names path (some none) := by
        funext other
        by_cases hother : other = renamedOldFile path
        · simp [hother, hne, hfree']
        · by_cases hout : other = path <;> simp [hother, hout]
      split_ifs at hlink
      · rw [openOutput_none (by simp [FileSystem.removeFile, hne.symm])] at hlink
        cases hlink
        exact contract_new hnames rfl hreplace
      · simp only [openOutput, Function.update_self, Option.map_some, Option.some.injEq] at hlink
        subst hlink
        exact contract_new ((Function.update_comm hne ..).symm.trans hnames) (Function.update_idem ..) hreplace
    · have hlinked' : fs.withNew.names (renamedOldFile path) = some (some file) := congrArg (Option.map some) hlinked
      rw [linkInBackground_renamed (by rw [FileSystem.renameFile, hpath]; exact if_pos hlinked')] at hlink
      split_ifs at hlink
      · by_cases hself : renamedOldFile path = path
        · rw [hself, openOutput_none (Function.update_self ..)] at hlink
          cases hlink
          exact contract_new (Function.update_idem ..) rfl hreplace
        · simp [openOutput, FileSystem.removeFile, Ne.symm hself, hpath, hbusy] at hlink
      · simp [openOutput, hpath, hbusy] at hlink

/-- When a link leaves behind what its mode promises, whenever the background task comes to its turn. -/
theorem link_contract_iff (env : Env F) (bytes : List UInt8) (fs : FileSystem D F) (path : DirPath D) :
    (∀ time fs', link env bytes time fs path = some fs' → Contract env bytes path fs fs') ↔
      KeepsContract env fs path := by
  unfold link KeepsContract
  by_cases hthreads : env.threads > 1
  · simp only [if_pos hthreads]
    cases hfile : fs.names path with
    | none => exact iff_of_true (fun time fs' => contract_fresh hfile) nofun
    | some file =>
      simp only [Option.some.injEq, forall_eq']
      by_cases hmode : replacementMode env fs path = .unlinkAndReplace
      · simpa only [hmode, forall_true_left] using background_iff hfile hmode
      · exact iff_of_true (fun time fs' => contract_inPlace hfile rfl hmode) fun h => absurd h hmode
  · simp only [if_neg hthreads]
    rw [← foreground_iff]
    exact ⟨fun h => h .afterWriting, fun h _ => h⟩

end

/-! ## One thread -/

def oneThread : Env Unit := ⟨1, false, some .updateInPlace, fun _ => false⟩

/-- The output is there. -/
def oldOutput : FileSystem Unit Unit := ⟨fun path => if path = ((), ['a']) then some () else none, fun _ => [1]⟩

/-- With one thread the output is another file. -/
theorem not_edited : ¬ ∀ (env : Env Unit) (bytes : List UInt8) (fs : FileSystem Unit Unit) (path : DirPath Unit) time fs',
    link env bytes time fs path = some fs' → Contract env bytes path fs fs' := by
  intro h
  have hcontract := h oneThread [] oldOutput ((), ['a']) .afterWriting _ rfl
  have hsame := hcontract.inPlace () rfl (.inl rfl)
  cases hsame

end Reld.OutputFile
