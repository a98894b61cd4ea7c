import Reld.Elf.Symbol
import Reld.Lib.Paths

/-!
# `Input.LibrarySearch` — where libraries are found

A name after `-l` is looked up in every directory as a shared library, and only then in every directory as an archive.
The linkers it follows go through the directories once and take what each of them has.
-/

namespace Reld.LibrarySearch

/-! ## The file system -/

inductive FileType where
  | file
  | directory
  | other
deriving DecidableEq

structure FileSystem where
  currentDir : PosixPath
  entries : PosixPath → Option FileType

namespace FileSystem

/-- `std::path::absolute` -/
def absolute (fs : FileSystem) (path : PosixPath) : PosixPath := fs.currentDir.join path

/-- `file_type`, which fails on a path that is not there. -/
def fileType (fs : FileSystem) (path : PosixPath) : Option FileType := fs.entries (fs.absolute path)

def isPresent (fs : FileSystem) (path : PosixPath) : Bool := (fs.fileType path).isSome

def isFile (fs : FileSystem) (path : PosixPath) : Bool := fs.fileType path == some .file

end FileSystem

/-! ## The search -/

inductive InputSpec where
  /-- Path (possibly just a filename) to the file. -/
  | file (path : Bytes)
  /-- Name of the library, without prefix and suffix. -/
  | lib (name : Bytes)
  /-- Name of the library, including prefix and suffix. -/
  | search (filename : Bytes)

/-- Of the modifiers, only `allow_shared` decides about the path. -/
structure Input where
  spec : InputSpec
  /-- The directory of the linker script that the input came from. -/
  searchFirst : Option PosixPath
  allowShared : Bool

structure InputPath where
  absolute : PosixPath
  original : Bytes
deriving DecidableEq

/-- `search_for_file` -/
def searchForFile (fs : FileSystem) (libSearchPath : List PosixPath) (searchFirst : Option PosixPath)
    (filename : Bytes) : Option PosixPath :=
  match (searchFirst.map (·.join (.ofBytes filename))).filter fs.isPresent with
  | some path => some path
  | none => (libSearchPath.map (·.join (.ofBytes filename))).find? fs.isPresent

def libraryFile (name : Bytes) (suffix : String) : Bytes := bytesOf "lib" ++ name ++ bytesOf suffix

def notFound (name : Bytes) : Bytes := bytesOf "Couldn't find library `" ++ name ++ bytesOf "` on library search path"

section
variable (fs : FileSystem) (libSearchPath : List PosixPath)

/-- One search of `Input::path`, for a file of a given name. -/
def searchAs (searchFirst : Option PosixPath) (filename : Bytes) : Option InputPath :=
  (searchForFile fs libSearchPath searchFirst filename).map (fun path => ⟨fs.absolute path, filename⟩)

/-- `Input::path` -/
def Input.path (input : Input) : Except Bytes InputPath :=
  match input.spec with
  | .file p =>
    if input.searchFirst.isSome then
      match searchAs fs libSearchPath input.searchFirst p with
      | some found => .ok found
      | none => .ok ⟨.ofBytes p, p⟩
    else
      .ok ⟨.ofBytes p, p⟩
  | .lib name =>
    let shared :=
      if input.allowShared then searchAs fs libSearchPath input.searchFirst (libraryFile name ".so") else none
    match shared with
    | some found => .ok found
    | none =>
      match searchAs fs libSearchPath input.searchFirst (libraryFile name ".a") with
      | some found => .ok found
      | none =>
        match searchAs fs libSearchPath input.searchFirst (libraryFile name ".tbd") with
        | some found => .ok found
        | none => .error (notFound name)
  | .search filename =>
    match searchAs fs libSearchPath input.searchFirst filename with
    | some found => .ok found
    | none => .error (notFound filename)

/-- `std::str::from_utf8` accepts the bytes. -/
def isUtf8 (bytes : Bytes) : Bool := bytes.toByteArray.validateUTF8

/-- `dependent_library_input` -/
def dependentLibraryInput (spec : Bytes) (allowShared : Bool) : Option Input :=
  if isUtf8 spec then
    let libInput : Input := ⟨.lib spec, none, allowShared⟩
    if (libInput.path fs libSearchPath).isOk then
      some libInput
    else if (searchForFile fs libSearchPath none spec).isSome then
      some ⟨.search spec, none, allowShared⟩
    else if fs.isPresent (.ofBytes spec) then
      some ⟨.file spec, none, allowShared⟩
    else
      none
  else
    none

/-- The file that a dependent library is loaded from. -/
def dependentLibraryPath (spec : Bytes) (allowShared : Bool) : Option InputPath :=
  (dependentLibraryInput fs libSearchPath spec allowShared).bind (fun input => (input.path fs libSearchPath).toOption)

end

/-! ## The search of other linkers -/

section
variable (fs : FileSystem) (allowShared : Bool) (name : Bytes)

/-- What a directory has for a name. -/
def libraryIn (dir : PosixPath) : Option InputPath :=
  let shared := libraryFile name ".so"
  let archive := libraryFile name ".a"
  if allowShared && fs.isFile (dir.join (.ofBytes shared)) then
    some ⟨fs.absolute (dir.join (.ofBytes shared)), shared⟩
  else if fs.isFile (dir.join (.ofBytes archive)) then
    some ⟨fs.absolute (dir.join (.ofBytes archive)), archive⟩
  else
    none

/-- The first directory that has something decides. A stub library is the last resort, as in `Input::path`. -/
def findLibrary (dirs : List PosixPath) : Option InputPath :=
  (dirs.findSome? (libraryIn fs allowShared name)).or (searchAs fs dirs none (libraryFile name ".tbd"))

/-- `addDependentLibrary` of lld. -/
def findDependentLibrary (dirs : List PosixPath) : Option InputPath :=
  ((findLibrary fs allowShared name dirs).or (searchAs fs dirs none name)).or
    (if fs.isPresent (.ofBytes name) then some ⟨.ofBytes name, name⟩ else none)

/-- `dir` is the first of the directories with an entry of that name. -/
def FirstWith (filename : Bytes) (dirs before : List PosixPath) (dir : PosixPath) : Prop :=
  fs.isPresent (dir.join (.ofBytes filename)) ∧ (∃ after, dirs = before ++ dir :: after) ∧
    ∀ d ∈ before, ¬fs.isPresent (d.join (.ofBytes filename))

/-- The first directory with an entry for the shared library, or for the archive where no directory has one, has a
    regular file there, and no directory before it has an archive. -/
structure SearchedAlike (dirs : List PosixPath) : Prop where
  shared : ∀ before dir, allowShared = true → FirstWith fs (libraryFile name ".so") dirs before dir →
    fs.isFile (dir.join (.ofBytes (libraryFile name ".so"))) ∧
      ∀ d ∈ before, ¬fs.isFile (d.join (.ofBytes (libraryFile name ".a")))
  archive : ∀ before dir,
    (allowShared = true → ∀ d ∈ dirs, ¬fs.isPresent (d.join (.ofBytes (libraryFile name ".so")))) →
    FirstWith fs (libraryFile name ".a") dirs before dir → fs.isFile (dir.join (.ofBytes (libraryFile name ".a")))

end

/-! ## What a search finds -/

theorem libraryFile_injective {name : Bytes} {s t : String} (h : libraryFile name s = libraryFile name t) :
    bytesOf s = bytesOf t := List.append_cancel_left h

theorem libraryFile_ne (name : Bytes) (suffix : String) : libraryFile name suffix ≠ name := by
  intro h
  have hlen := congrArg List.length h
  have hlib : (bytesOf "lib").length = 3 := by decide
  rw [libraryFile, List.length_append, List.length_append, hlib] at hlen
  omega

section
variable {fs : FileSystem} {allowShared : Bool} {name filename : Bytes} {dirs libSearchPath before : List PosixPath}
  {searchFirst : Option PosixPath} {dir : PosixPath} {found : InputPath}

theorem FileSystem.isPresent_of_isFile {path : PosixPath} (h : fs.isFile path = true) : fs.isPresent path = true := by
  rw [FileSystem.isFile, beq_iff_eq] at h
  rw [FileSystem.isPresent, h, Option.isSome_some]

/-- What a path is depends on where it leads. -/
theorem FileSystem.isFile_congr {path path' : PosixPath} (h : fs.absolute path = fs.absolute path') :
    fs.isFile path = fs.isFile path' := by
  unfold FileSystem.isFile FileSystem.fileType
  rw [h]

theorem searchForFile_eq : searchForFile fs libSearchPath searchFirst filename =
    ((searchFirst.toList ++ libSearchPath).map (·.join (.ofBytes filename))).find? fs.isPresent := by
  unfold searchForFile
  cases searchFirst with
  | none => rfl
  | some first =>
    show _ = List.find? fs.isPresent (first.join (.ofBytes filename) :: _)
    rw [List.find?_cons, Option.map_some, Option.filter_some]
    cases fs.isPresent (first.join (.ofBytes filename)) <;> rfl

/-- The directory to search first is a directory like the others. -/
theorem searchAs_toList : searchAs fs libSearchPath searchFirst filename =
    searchAs fs (searchFirst.toList ++ libSearchPath) none filename := by
  unfold searchAs
  rw [searchForFile_eq, searchForFile_eq, Option.toList_none, List.nil_append]

theorem searchAs_eq_none_iff : searchAs fs dirs none filename = none ↔
    ∀ d ∈ dirs, ¬fs.isPresent (d.join (.ofBytes filename)) := by
  unfold searchAs
  rw [searchForFile_eq, Option.map_eq_none_iff, List.find?_eq_none, Option.toList_none, List.nil_append,
    List.forall_mem_map]

theorem FirstWith.searchAs (h : FirstWith fs filename dirs before dir) :
    searchAs fs dirs none filename = some ⟨fs.absolute (dir.join (.ofBytes filename)), filename⟩ := by
  obtain ⟨hpresent, ⟨after, rfl⟩, hbefore⟩ := h
  have hfind : (before.map (·.join (.ofBytes filename))).find? fs.isPresent = none := by
    rw [List.find?_eq_none, List.forall_mem_map]
    exact hbefore
  unfold LibrarySearch.searchAs
  rw [searchForFile_eq, Option.toList_none, List.nil_append, List.map_append, List.find?_append, hfind, List.map_cons,
    List.find?_cons_of_pos hpresent]
  rfl

theorem exists_firstWith (h : searchAs fs dirs none filename ≠ none) :
    ∃ before dir, FirstWith fs filename dirs before dir := by
  have hsome : ∃ dir, dirs.find? (fun d => fs.isPresent (d.join (.ofBytes filename))) = some dir := by
    rw [← Option.isSome_iff_exists, List.find?_isSome]
    by_contra hnone
    push Not at hnone
    exact h (searchAs_eq_none_iff.mpr hnone)
  obtain ⟨dir, hdir⟩ := hsome
  obtain ⟨hpresent, before, after, heq, hbefore⟩ := List.find?_eq_some_iff_append.mp hdir
  refine ⟨before, dir, hpresent, ⟨after, heq⟩, fun d hd => ?_⟩
  have hnot := hbefore d hd
  rwa [Bool.not_eq_true', ← Bool.not_eq_true] at hnot

theorem libraryIn_eq_some (h : libraryIn fs allowShared name dir = some found) :
    ∃ suffix, (suffix = ".so" ∧ allowShared = true ∨ suffix = ".a") ∧
      fs.isFile (dir.join (.ofBytes (libraryFile name suffix))) = true ∧
      found = ⟨fs.absolute (dir.join (.ofBytes (libraryFile name suffix))), libraryFile name suffix⟩ := by
  unfold libraryIn at h
  dsimp only at h
  split_ifs at h with hshared harchive
  · rw [Bool.and_eq_true] at hshared
    exact ⟨".so", .inl ⟨rfl, hshared.1⟩, hshared.2, (Option.some.inj h).symm⟩
  · exact ⟨".a", .inr rfl, harchive, (Option.some.inj h).symm⟩

/-- The path found, spelt in whatever way, is one of a regular file. -/
theorem isFile_of_libraryIn {d : PosixPath}
    (h : libraryIn fs allowShared name d = some ⟨fs.absolute (dir.join (.ofBytes filename)), filename⟩) :
    fs.isFile (dir.join (.ofBytes filename)) = true := by
  obtain ⟨suffix, -, hfile, hfound⟩ := libraryIn_eq_some h
  obtain ⟨habs, -⟩ := InputPath.mk.inj hfound
  rw [FileSystem.isFile_congr habs]
  exact hfile

/-- A directory has nothing for a name where it has neither file. -/
theorem libraryIn_eq_none
    (hshared : allowShared = true → fs.isFile (dir.join (.ofBytes (libraryFile name ".so"))) = false)
    (harchive : fs.isFile (dir.join (.ofBytes (libraryFile name ".a"))) = false) :
    libraryIn fs allowShared name dir = none := by
  unfold libraryIn
  rw [if_neg, if_neg]
  · rw [harchive]
    exact Bool.false_ne_true
  · rw [Bool.and_eq_true]
    rintro ⟨hallow, hfile⟩
    exact Bool.false_ne_true ((hshared hallow).symm.trans hfile)

theorem FileSystem.isFile_eq_false {path : PosixPath} (h : ¬fs.isPresent path = true) : fs.isFile path = false :=
  Bool.eq_false_iff.mpr (mt FileSystem.isPresent_of_isFile h)

end

/-! ## When the searches agree -/

section
variable (fs : FileSystem) (allowShared : Bool) (name : Bytes) (dirs : List PosixPath)

/-- The searches for the two kinds of libraries, one after the other. -/
def searchBySuffix : Option InputPath :=
  (if allowShared then searchAs fs dirs none (libraryFile name ".so") else none).or
    (searchAs fs dirs none (libraryFile name ".a"))

end

section
variable {fs : FileSystem} {allowShared : Bool} {name filename : Bytes} {dirs libSearchPath before : List PosixPath}
  {searchFirst : Option PosixPath} {dir : PosixPath} {found : InputPath}

/-- Where no directory has the shared library, only archives count. -/
theorem searchBySuffix_archive
    (h : allowShared = true → ∀ d ∈ dirs, ¬fs.isPresent (d.join (.ofBytes (libraryFile name ".so")))) :
    searchBySuffix fs allowShared name dirs = searchAs fs dirs none (libraryFile name ".a") := by
  unfold searchBySuffix
  split_ifs with hallow
  · rw [searchAs_eq_none_iff.mpr (h hallow), Option.none_or]
  · exact Option.none_or

theorem searchBySuffix_shared (hallow : allowShared = true)
    (h : FirstWith fs (libraryFile name ".so") dirs before dir) :
    searchBySuffix fs allowShared name dirs =
      some ⟨fs.absolute (dir.join (.ofBytes (libraryFile name ".so"))), libraryFile name ".so"⟩ := by
  unfold searchBySuffix
  rw [if_pos hallow, h.searchAs, Option.some_or]

theorem SearchedAlike.searchBySuffix_eq (h : SearchedAlike fs allowShared name dirs) :
    searchBySuffix fs allowShared name dirs = dirs.findSome? (libraryIn fs allowShared name) := by
  by_cases hnone : allowShared = true → ∀ d ∈ dirs, ¬fs.isPresent (d.join (.ofBytes (libraryFile name ".so")))
  · rw [searchBySuffix_archive hnone]
    have hso : ∀ d ∈ dirs, allowShared = true → fs.isFile (d.join (.ofBytes (libraryFile name ".so"))) = false := by
      intro d hd hallow
      exact FileSystem.isFile_eq_false (hnone hallow d hd)
    by_cases harchive : searchAs fs dirs none (libraryFile name ".a") = none
    · rw [harchive, eq_comm, List.findSome?_eq_none_iff]
      intro d hd
      exact libraryIn_eq_none (hso d hd) (FileSystem.isFile_eq_false (searchAs_eq_none_iff.mp harchive d hd))
    · obtain ⟨before, dir, hfirst⟩ := exists_firstWith harchive
      rw [hfirst.searchAs, eq_comm, List.findSome?_eq_some_iff]
      obtain ⟨-, ⟨after, rfl⟩, hbefore⟩ := id hfirst
      refine ⟨before, dir, after, rfl, ?_, fun d hd => ?_⟩
      · unfold libraryIn
        rw [if_neg, if_pos (h.archive before dir hnone hfirst)]
        rw [Bool.and_eq_true]
        rintro ⟨hallow, hfile⟩
        exact hnone hallow dir (by simp) (FileSystem.isPresent_of_isFile hfile)
      · exact libraryIn_eq_none (hso d (List.mem_append_left _ hd)) (FileSystem.isFile_eq_false (hbefore d hd))
  · push Not at hnone
    obtain ⟨hallow, d, hd, hpresent⟩ := hnone
    have hsome : searchAs fs dirs none (libraryFile name ".so") ≠ none := by
      intro hnone
      exact searchAs_eq_none_iff.mp hnone d hd hpresent
    obtain ⟨before, dir, hfirst⟩ := exists_firstWith hsome
    obtain ⟨hfile, harchives⟩ := h.shared before dir hallow hfirst
    rw [searchBySuffix_shared hallow hfirst, eq_comm, List.findSome?_eq_some_iff]
    obtain ⟨-, ⟨after, rfl⟩, hbefore⟩ := hfirst
    refine ⟨before, dir, after, rfl, ?_, fun d hd => ?_⟩
    · unfold libraryIn
      rw [if_pos]
      rw [hallow, hfile]
      rfl
    · exact libraryIn_eq_none (fun _ => FileSystem.isFile_eq_false (hbefore d hd))
        (Bool.eq_false_iff.mpr (harchives d hd))

theorem searchedAlike_of_eq
    (h : searchBySuffix fs allowShared name dirs = dirs.findSome? (libraryIn fs allowShared name)) :
    SearchedAlike fs allowShared name dirs := by
  constructor
  · intro before dir hallow hfirst
    rw [searchBySuffix_shared hallow hfirst, eq_comm] at h
    constructor
    · obtain ⟨d, -, hin⟩ := List.exists_of_findSome?_eq_some h
      exact isFile_of_libraryIn hin
    · -- An archive in front of the directory would be found before it.
      intro d hd hfile
      obtain ⟨-, ⟨after, rfl⟩, hbefore⟩ := hfirst
      rw [List.findSome?_append] at h
      cases hfound : before.findSome? (libraryIn fs allowShared name) with
      | none =>
        have hin := List.findSome?_eq_none_iff.mp hfound d hd
        unfold libraryIn at hin
        rw [if_neg, if_pos hfile] at hin
        · cases hin
        · rw [FileSystem.isFile_eq_false (hbefore d hd), Bool.and_false]
          exact Bool.false_ne_true
      | some found =>
        rw [hfound, Option.some_or] at h
        obtain ⟨d', hd', hin⟩ := List.exists_of_findSome?_eq_some hfound
        obtain ⟨suffix, hsuffix, hfile', rfl⟩ := libraryIn_eq_some hin
        obtain ⟨-, hname⟩ := InputPath.mk.inj (Option.some.inj h)
        rw [hname] at hfile'
        exact hbefore d' hd' (FileSystem.isPresent_of_isFile hfile')
  · intro before dir hnone hfirst
    rw [searchBySuffix_archive hnone, hfirst.searchAs, eq_comm] at h
    obtain ⟨d, -, hin⟩ := List.exists_of_findSome?_eq_some h
    exact isFile_of_libraryIn hin

theorem searchBySuffix_eq_iff :
    searchBySuffix fs allowShared name dirs = dirs.findSome? (libraryIn fs allowShared name) ↔
      SearchedAlike fs allowShared name dirs := ⟨searchedAlike_of_eq, SearchedAlike.searchBySuffix_eq⟩

/-- What either search finds is a shared library or an archive. -/
theorem original_of_findSome? (h : dirs.findSome? (libraryIn fs allowShared name) = some found) :
    ∃ suffix, (suffix = ".so" ∨ suffix = ".a") ∧ found.original = libraryFile name suffix := by
  obtain ⟨d, -, hin⟩ := List.exists_of_findSome?_eq_some h
  obtain ⟨suffix, hsuffix, -, rfl⟩ := libraryIn_eq_some hin
  exact ⟨suffix, hsuffix.imp And.left id, rfl⟩

theorem searchAs_original (h : searchAs fs dirs searchFirst filename = some found) : found.original = filename := by
  obtain ⟨path, -, rfl⟩ := Option.map_eq_some_iff.mp h
  rfl

theorem original_of_searchBySuffix (h : searchBySuffix fs allowShared name dirs = some found) :
    ∃ suffix, (suffix = ".so" ∨ suffix = ".a") ∧ found.original = libraryFile name suffix := by
  obtain hshared | ⟨-, harchive⟩ := Option.or_eq_some_iff.mp h
  · split_ifs at hshared
    exact ⟨".so", .inl rfl, searchAs_original hshared⟩
  · exact ⟨".a", .inr rfl, searchAs_original harchive⟩

/-- Anything that the other search finds is there to be found by suffix. -/
theorem findSome?_of_searchBySuffix (h : searchBySuffix fs allowShared name dirs = none) :
    dirs.findSome? (libraryIn fs allowShared name) = none := by
  obtain ⟨hshared, harchive⟩ := Option.or_eq_none_iff.mp h
  rw [List.findSome?_eq_none_iff]
  intro d hd
  refine libraryIn_eq_none (fun hallow => ?_) (FileSystem.isFile_eq_false (searchAs_eq_none_iff.mp harchive d hd))
  rw [if_pos hallow] at hshared
  exact FileSystem.isFile_eq_false (searchAs_eq_none_iff.mp hshared d hd)

/-- A fallback that finds other names does not hide a difference. -/
theorem or_eq_or_iff (names : List Bytes) {a b rest : Option InputPath} (ha : ∀ found ∈ a, found.original ∈ names)
    (hb : ∀ found ∈ b, found.original ∈ names) (hrest : ∀ found ∈ rest, found.original ∉ names)
    (hnone : a = none → b = none) : a.or rest = b.or rest ↔ a = b := by
  constructor
  · intro h
    cases a with
    | none => exact (hnone rfl).symm
    | some found =>
      cases b with
      | some found' => exact h
      | none => exact absurd (ha found rfl) (hrest found h.symm)
  · intro h
    rw [h]

/-- `Input::path` of a library, as two searches and the one for a stub library. -/
theorem path_lib :
    (Input.path fs libSearchPath ⟨.lib name, searchFirst, allowShared⟩).toOption =
      (searchBySuffix fs allowShared name (searchFirst.toList ++ libSearchPath)).or
        (searchAs fs (searchFirst.toList ++ libSearchPath) none (libraryFile name ".tbd")) := by
  unfold Input.path searchBySuffix
  dsimp only
  rw [@searchAs_toList fs (libraryFile name ".so"), @searchAs_toList fs (libraryFile name ".a"),
    @searchAs_toList fs (libraryFile name ".tbd")]
  cases (if allowShared then searchAs fs (searchFirst.toList ++ libSearchPath) none (libraryFile name ".so") else none)
  · cases searchAs fs (searchFirst.toList ++ libSearchPath) none (libraryFile name ".a")
    · cases searchAs fs (searchFirst.toList ++ libSearchPath) none (libraryFile name ".tbd") <;> rfl
    · rfl
  · rfl

theorem path_lib_eq_iff :
    (Input.path fs libSearchPath ⟨.lib name, searchFirst, allowShared⟩).toOption =
        findLibrary fs allowShared name (searchFirst.toList ++ libSearchPath) ↔
      SearchedAlike fs allowShared name (searchFirst.toList ++ libSearchPath) := by
  rw [path_lib, ← searchBySuffix_eq_iff]
  apply or_eq_or_iff [libraryFile name ".so", libraryFile name ".a"]
  · intro found h
    obtain ⟨suffix, rfl | rfl, horiginal⟩ := original_of_searchBySuffix h <;> simp [horiginal]
  · intro found h
    obtain ⟨suffix, rfl | rfl, horiginal⟩ := original_of_findSome? h <;> simp [horiginal]
  · intro found h
    rw [searchAs_original h, List.mem_cons, List.mem_singleton]
    rintro (h | h)
    · exact absurd (libraryFile_injective h) (by decide)
    · exact absurd (libraryFile_injective h) (by decide)
  · exact findSome?_of_searchBySuffix

theorem or_stub_original {a stub : Option InputPath}
    (ha : ∀ found ∈ a, ∃ suffix, (suffix = ".so" ∨ suffix = ".a") ∧ found.original = libraryFile name suffix)
    (hstub : ∀ found ∈ stub, found.original = libraryFile name ".tbd") :
    ∀ found ∈ a.or stub, found.original ∈ [".so", ".a", ".tbd"].map (libraryFile name) := by
  intro found h
  obtain h | ⟨-, h⟩ := Option.or_eq_some_iff.mp h
  · obtain ⟨suffix, rfl | rfl, horiginal⟩ := ha found h <;> simp [horiginal]
  · simp [hstub found h]

/-- The second and the third attempt of `dependent_library_input`. -/
theorem searchAs_or_file_original (found : InputPath)
    (h : found ∈ (searchAs fs libSearchPath none name).or
      (if fs.isPresent (.ofBytes name) then some ⟨.ofBytes name, name⟩ else none)) :
    found.original = name := by
  obtain h | ⟨-, h⟩ := Option.or_eq_some_iff.mp h
  · exact searchAs_original h
  · split_ifs at h
    cases h
    rfl

theorem dependentLibraryPath_utf8 (hutf8 : isUtf8 name = true) :
    dependentLibraryPath fs libSearchPath name allowShared =
      ((Input.path fs libSearchPath ⟨.lib name, none, allowShared⟩).toOption).or
        ((searchAs fs libSearchPath none name).or
          (if fs.isPresent (.ofBytes name) then some ⟨.ofBytes name, name⟩ else none)) := by
  unfold dependentLibraryPath dependentLibraryInput
  rw [if_pos hutf8]
  dsimp only
  cases hlib : Input.path fs libSearchPath ⟨.lib name, none, allowShared⟩ with
  | ok found =>
    show Except.toOption (Input.path fs libSearchPath ⟨.lib name, none, allowShared⟩) = _
    rw [hlib]
    rfl
  | error message =>
    rw [if_neg (by exact Bool.false_ne_true), Except.toOption, Option.none_or, searchAs]
    cases hsearch : searchForFile fs libSearchPath none name with
    | some path =>
      show Except.toOption (Input.path fs libSearchPath ⟨.search name, none, allowShared⟩) = _
      simp only [Input.path, searchAs, hsearch]
      rfl
    | none =>
      rw [if_neg (by exact Bool.false_ne_true), Option.map_none, Option.none_or]
      split_ifs <;> rfl

theorem dependentLibraryPath_eq_iff (hutf8 : isUtf8 name = true) :
    dependentLibraryPath fs libSearchPath name allowShared = findDependentLibrary fs allowShared name libSearchPath ↔
      SearchedAlike fs allowShared name libSearchPath := by
  have hpath := @path_lib_eq_iff fs allowShared name libSearchPath none
  rw [Option.toList_none, List.nil_append] at hpath
  rw [dependentLibraryPath_utf8 hutf8, findDependentLibrary, Option.or_assoc, ← hpath]
  apply or_eq_or_iff ([".so", ".a", ".tbd"].map (libraryFile name))
  · rw [path_lib]
    exact or_stub_original (fun _ => original_of_searchBySuffix) (fun _ => searchAs_original)
  · exact or_stub_original (fun _ => original_of_findSome?) (fun _ => searchAs_original)
  · intro found h hmem
    rw [searchAs_or_file_original found h, List.mem_map] at hmem
    obtain ⟨suffix, -, heq⟩ := hmem
    exact libraryFile_ne name suffix heq
  · -- The stub library is looked for in the same way by both.
    intro hnone
    rw [path_lib, Option.or_eq_none_iff, Option.toList_none, List.nil_append] at hnone
    unfold findLibrary
    rw [findSome?_of_searchBySuffix hnone.1, hnone.2, Option.none_or]

/-- When a library is searched for as other linkers do it, on the command line and as a dependent library. -/
theorem library_search_iff (fs : FileSystem) (libSearchPath : List PosixPath) (allowShared : Bool) (name : Bytes) :
    (∀ searchFirst : Option PosixPath,
      (Input.path fs libSearchPath ⟨.lib name, searchFirst, allowShared⟩).toOption =
          findLibrary fs allowShared name (searchFirst.toList ++ libSearchPath) ↔
        SearchedAlike fs allowShared name (searchFirst.toList ++ libSearchPath)) ∧
      (dependentLibraryPath fs libSearchPath name allowShared =
          findDependentLibrary fs allowShared name libSearchPath ↔
        if isUtf8 name then SearchedAlike fs allowShared name libSearchPath
        else findDependentLibrary fs allowShared name libSearchPath = none) := by
  refine ⟨fun _ => path_lib_eq_iff, ?_⟩
  by_cases hutf8 : isUtf8 name = true
  · rw [if_pos hutf8]
    exact dependentLibraryPath_eq_iff hutf8
  · rw [if_neg hutf8, eq_comm]
    unfold dependentLibraryPath dependentLibraryInput
    rw [if_neg hutf8, Option.bind_none]

/-- `liba/libx.a` is in front of `libb/libx.so`. -/
def archiveInFront : FileSystem where
  currentDir := ⟨true, []⟩
  entries path :=
    if path = .ofBytes (bytesOf "/liba/libx.a") ∨ path = .ofBytes (bytesOf "/libb/libx.so") then some .file else none

/-- The directory further back is taken, since its library is shared. -/
theorem archive_in_front_is_passed :
    ¬ ∀ (fs : FileSystem) (libSearchPath : List PosixPath) (searchFirst : Option PosixPath) (allowShared : Bool)
      (name : Bytes),
      (Input.path fs libSearchPath ⟨.lib name, searchFirst, allowShared⟩).toOption =
          findLibrary fs allowShared name (searchFirst.toList ++ libSearchPath) ∧
        dependentLibraryPath fs libSearchPath name allowShared =
          findDependentLibrary fs allowShared name libSearchPath := by
  intro h
  obtain ⟨hlib, -⟩ :=
    h archiveInFront [.ofBytes (bytesOf "/liba"), .ofBytes (bytesOf "/libb")] none true (bytesOf "x")
  exact absurd hlib (by decide)

end

end Reld.LibrarySearch
