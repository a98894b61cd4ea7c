import Mathlib.Data.List.SplitBy

/-!
# `Lib.Paths` — paths as lists of names

A path is what its text says about places: repeated and trailing slashes are gone, and so are names `.`, while `..`
stays, since only a file system knows what it leads to.
-/

/-- A path from the root, or from a directory that the context gives. -/
structure PosixPath where
  rooted : Bool
  names : List (List UInt8)
deriving DecidableEq, Repr

namespace PosixPath

/-- The names between the slashes (byte 47). A name `.` (byte 46) is left out. -/
def ofBytes (text : List UInt8) : PosixPath where
  rooted := text.head? == some 47
  names := (text.splitOn 47).filter (fun name => name ≠ [] ∧ name ≠ [46])

/-- A rooted path stands for itself in every directory. -/
def join (dir path : PosixPath) : PosixPath := if path.rooted then path else { dir with names := dir.names ++ path.names }

end PosixPath
