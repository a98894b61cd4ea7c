import Mathlib.Tactic.Abel

/-!
# `Lib.ThreadLocal` — thread-local storage at run time

Each thread has a block of storage for each module, and a thread pointer. Code reaches a variable through the
function that takes a module and an offset (`Thread.getAddr`), or by an offset to the thread pointer. A table
holds the modules and the offsets; before anything runs the loader puts the results of the relocations in it
(`Thread.entryAt`). Addresses are any additive group: nothing here depends on their width.

A place of a table keeps its word when the rest of the table stands elsewhere (`TlsTable.entryAt_append_left`).
-/

namespace Reld

/-- What a relocation of a table entry asks for. -/
inductive TlsRelocKind where
  | dtpMod
  | dtpOff
  | tpOff
  | tlsDesc
deriving DecidableEq, Repr

/-- A relocation, for a symbol or, without one, for an offset in the module that has it. -/
structure TlsReloc (W : Type) where
  place : W
  symbol : Option Nat
  kind : TlsRelocKind
  addend : W
deriving DecidableEq, Repr

/-- What a thread sees of the storage. `ownModule` is the module whose code runs; `lookup` gives the module and the
offset of a symbol. -/
structure Thread (W : Type) where
  blockStart : W → W
  threadPointer : W
  bias : W
  ownModule : W
  lookup : Nat → W × W

variable {W : Type}

namespace Thread

variable [AddCommGroup W]

/-- `__tls_get_addr` -/
def getAddr (t : Thread W) (module offset : W) : W := t.blockStart module + offset + t.bias

/-- The address of an offset in a module. -/
def addressOf (t : Thread W) (home : W × W) : W := t.blockStart home.1 + home.2

/-- The module and the offset that a relocation is about. -/
def target (t : Thread W) (r : TlsReloc W) : W × W :=
  match r.symbol with
  | none   => (t.ownModule, r.addend)
  | some i => ((t.lookup i).1, (t.lookup i).2 + r.addend)

/-- What the loader puts in the place of a relocation. A descriptor gives, when it is called, an offset to the
thread pointer. -/
def load (t : Thread W) (r : TlsReloc W) : W :=
  match r.kind with
  | .dtpMod => (t.target r).1
  | .dtpOff => (t.target r).2 - t.bias
  | .tpOff | .tlsDesc => t.addressOf (t.target r) - t.threadPointer

theorem getAddr_sub_bias (t : Thread W) (module offset : W) :
    t.getAddr module (offset - t.bias) = t.addressOf (module, offset) := by
  unfold getAddr addressOf
  abel

theorem threadPointer_add_sub (t : Thread W) (address : W) :
    t.threadPointer + (address - t.threadPointer) = address := by abel

end Thread

/-! ## Tables -/

/-- Words that are written at addresses, and the relocations for them. -/
structure TlsTable (W : Type) where
  entries : List (W × W)
  relocs : List (TlsReloc W)
deriving DecidableEq, Repr

namespace TlsTable

def empty : TlsTable W := ⟨[], []⟩

def append (g h : TlsTable W) : TlsTable W := ⟨g.entries ++ h.entries, g.relocs ++ h.relocs⟩

/-- All that a table writes is at the places `ps`. -/
structure Within (g : TlsTable W) (ps : List W) : Prop where
  entries : g.entries.map (·.1) = ps
  relocs : ∀ r ∈ g.relocs, r.place ∈ ps

variable {g h : TlsTable W} {place : W} {ps qs : List W}

theorem Within.empty : (empty : TlsTable W).Within [] := ⟨rfl, by simp [TlsTable.empty]⟩

theorem Within.append (hg : g.Within ps) (hh : h.Within qs) : (g.append h).Within (ps ++ qs) := by
  refine ⟨?_, fun r hr => ?_⟩
  · rw [TlsTable.append, List.map_append, hg.entries, hh.entries]
  · rcases List.mem_append.mp hr with hr | hr
    · exact List.mem_append_left _ (hg.relocs r hr)
    · exact List.mem_append_right _ (hh.relocs r hr)

variable [DecidableEq W]

theorem Within.find?_eq_none (hg : g.Within ps) (hplace : place ∉ ps) :
    g.relocs.find? (fun r => r.place = place) = none := by
  rw [List.find?_eq_none]
  intro r hr heq
  exact hplace (of_decide_eq_true heq ▸ hg.relocs r hr)

theorem Within.lookup_eq_none (hg : g.Within ps) (hplace : place ∉ ps) : g.entries.lookup place = none := by
  rw [List.lookup_eq_none_iff]
  intro e he
  rw [bne_iff_ne]
  rintro rfl
  exact hplace (hg.entries ▸ List.mem_map_of_mem he)

variable [AddCommGroup W] {t : Thread W}

/-- The word at a place once the loader is done. -/
def entryAt (g : TlsTable W) (t : Thread W) (place : W) : W :=
  match g.relocs.find? (fun r => r.place = place) with
  | some r => t.load r
  | none   => (g.entries.lookup place).getD 0

@[simp] theorem entryAt_reloc (entries : List (W × W)) (r : TlsReloc W) (relocs : List (TlsReloc W)) :
    (⟨entries, r :: relocs⟩ : TlsTable W).entryAt t r.place = t.load r := by
  simp [entryAt]

@[simp] theorem entryAt_word (place word : W) (entries : List (W × W)) :
    (⟨(place, word) :: entries, []⟩ : TlsTable W).entryAt t place = word := by
  simp [entryAt]

/-- A place keeps its word when what follows is elsewhere. -/
theorem entryAt_append_left (hh : h.Within ps) (hplace : place ∉ ps) :
    (g.append h).entryAt t place = g.entryAt t place := by
  unfold entryAt append
  rw [List.find?_append, hh.find?_eq_none hplace, Option.or_none, List.lookup_append, hh.lookup_eq_none hplace,
    Option.or_none]

/-- A place keeps its word when what comes first is elsewhere. -/
theorem entryAt_append_right (hg : g.Within ps) (hplace : place ∉ ps) :
    (g.append h).entryAt t place = h.entryAt t place := by
  unfold entryAt append
  rw [List.find?_append, hg.find?_eq_none hplace, Option.none_or, List.lookup_append, hg.lookup_eq_none hplace,
    Option.none_or]

end TlsTable

end Reld
