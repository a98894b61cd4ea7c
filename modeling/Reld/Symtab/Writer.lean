import Reld.Lib.Cursors
import Reld.Layout.Buffers

/-!
# `Symtab.Writer` — the writer of the string table
-/

namespace Reld.Symtab

/-- `StrTabWriter`: what was written, and how much space is left. -/
structure StrTabWriter where
  nextOffset : Nat
  written : Bytes
  free : Nat
deriving DecidableEq

/-- `write_str`: a string and a NUL. The offset is a `u32`. -/
def StrTabWriter.writeStr (w : StrTabWriter) (str : Bytes) : Option (Nat × StrTabWriter) :=
  let lenWithTerminator := str.length + 1
  if lenWithTerminator ≤ w.free then
    some (w.nextOffset,
      { nextOffset := (w.nextOffset + lenWithTerminator) % 2 ^ 32
        written := w.written ++ (str ++ [0])
        free := w.free - lenWithTerminator })
  else none

end Reld.Symtab
