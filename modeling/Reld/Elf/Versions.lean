import Reld.Lib.Numbering
import Reld.Lib.Traverse
import Reld.Elf.SysvHash

/-!
# `Elf.Versions` — symbol versions of shared objects

A dynamic symbol that is used with a version of its shared object needs a `Vernaux` record under the
`Verneed` record of that object, and its `.gnu.version` entry holds the record's index. Five passes take
part, each over all objects: the graph walk **marks** versions as needed, the marks are **counted** to reserve
space, every object gets the next free **index**, the indices are **mapped** over its versions, and the
writer emits the records.

Input versions are numbered from 1, the base version, and `symbol_versions_needed` stores version `v` at `v - 1`.
-/

variable {o : VersionedObject}

namespace Reld

open Numbering

/-- `VER_NDX_GLOBAL`. -/
def verNdxGlobal : Nat := 1

/-! ## Inputs -/

/-- A version definition of a shared object, with its base flag. -/
structure InputVerdef extends Verdef where
  isBase : Bool
deriving DecidableEq

/-- A shared object as the version passes read it. Its version definitions have the indices `1, 2, …` in
    some order, and index 1 is the base. -/
structure VersionedObject where
  libName : Bytes
  verdefs : List InputVerdef
  /-- The entries of `.gnu.version`, one for each symbol. -/
  versym : List Versym
  indices : (verdefs.map (·.ndx)).Perm (List.range' 1 verdefs.length)
  base : ∀ d ∈ verdefs, d.isBase = true ↔ d.ndx = 1

/-- `verdefnum`: the number of version definitions, from the section header. -/
def VersionedObject.verdefnum (o : VersionedObject) : Nat := o.verdefs.length

/-- `VersionIndex::is_special`: local or global. -/
def isSpecialVersion (versionIndex : Nat) : Bool := versionIndex ≤ 1

/-! ## Marking -/

/-- `mark_version_as_needed`. -/
def markVersionAsNeeded (needed : List Bool) (versym : Versym) : Except String (List Bool) :=
  let versionIndex := versym.index
  if isSpecialVersion versionIndex then .ok needed
  else if versionIndex - verNdxGlobal < needed.length then
    .ok (needed.set (versionIndex - verNdxGlobal) true)
  else .error s!"Invalid symbol version index {versionIndex}"

/-- `dynamic_symbol_used`. -/
def dynamicSymbolUsed (o : VersionedObject) (needed : List Bool) (symbolIndex : Nat) :
    Except String (List Bool) :=
  match o.versym[symbolIndex]? with
  | some versym => markVersionAsNeeded needed versym
  | none => .ok needed

/-- The graph walk over one object: `activate_dynamic`, and then the used symbols in any order. -/
def symbolVersionsNeeded (o : VersionedObject) (used : List Nat) : Except String (List Bool) :=
  used.foldlM (dynamicSymbolUsed o) (List.replicate o.verdefnum false)

/-! ## Counting -/

/-- Whether `finalise_sizes_dynamic` keeps a version: the base version and those that are referenced. -/
def keepsVersion (needed : List Bool) (verdef : InputVerdef) : Except String Bool :=
  if verdef.ndx = 0 then .error "Invalid version index"
  else if verdef.isBase then .ok true
  else match needed[verdef.ndx - verNdxGlobal]? with
    | some isNeeded => .ok isNeeded
    | none => .error "Invalid version index"

/-- The loop of `finalise_sizes_dynamic`: the number of versions, other than the base, that are needed. -/
def countVersions (needed : List Bool) : List InputVerdef → Except String Nat
  | [] => .ok 0
  | verdef :: verdefs => do
      let isNeeded ← keepsVersion needed verdef
      let versionCount ← countVersions needed verdefs
      if isNeeded && !verdef.isBase then
        match verdef.name with
        | some _ => .ok (versionCount + 1)
        | none => .error "VERDEF with no AUX entry"
      else .ok versionCount

/-! ## Numbering -/

/-- What the passes record for a shared object: the needed versions, their number (`verneed_info`, absent
    when it is 0) and the index at which its versions start. -/
structure DynamicState where
  object : VersionedObject
  needed : List Bool
  versionCount : Nat := 0
  nextIndex : Nat := 0

/-- The graph walk over the loaded shared objects, each with its used symbols. -/
def markVersions (inputs : List (VersionedObject × List Nat)) : Except String (List DynamicState) :=
  inputs.mapM (fun p => (symbolVersionsNeeded p.1 p.2).map (fun needed => { object := p.1, needed := needed }))

/-- `finalise_sizes_dynamic` on every object. -/
def finaliseSizesDynamic (states : List DynamicState) : Except String (List DynamicState) :=
  states.mapM (fun s => (countVersions s.needed s.object.verdefs).map (fun c => { s with versionCount := c }))

/-- `apply_non_addressable_indexes`: every object gets the next index, which moves on by its versions. -/
def applyNonAddressableIndexes : List DynamicState → Nat → Except String (List DynamicState)
  | [], _ => .ok []
  | s :: states, next =>
    if s.versionCount > 0 ∧ 2 ^ 16 ≤ next + s.versionCount then .error "Symbol versions overflowed 2**16"
    else (applyNonAddressableIndexes states (next + s.versionCount)).map ({ s with nextIndex := next } :: ·)

/-- `compute_version_mapping`. -/
def computeVersionMapping (symbolVersionsNeeded : List Bool) (nextGnuVersionRIndex : Nat) : List Nat :=
  number verNdxGlobal symbolVersionsNeeded nextGnuVersionRIndex

/-! ## Writing -/

/-- A `Vernaux` record as written. -/
structure OutputVernaux where
  next : Nat
  other : Nat
  name : Bytes
  hash : BitVec 32
deriving DecidableEq

/-- A `Verneed` record with its `Vernaux` records. The file is the string that `vn_file` points to, if it
    was set. -/
structure OutputVerneed where
  count : Nat
  next : Nat
  file : Option Bytes
  auxes : List OutputVernaux
deriving DecidableEq

section
variable (sysvHash : Bytes → BitVec 32)

/-- The loop of `write_dynamic_file` over the version definitions: the `Vernaux` records. -/
def writeVernauxes (mapping : List Nat) (versionCount : Nat) :
    List InputVerdef → Nat → Except String (List OutputVernaux)
  | [], _ => .ok []
  | verdef :: verdefs, auxIndex =>
    if verdef.isBase then writeVernauxes mapping versionCount verdefs auxIndex
    else if verdef.ndx = 0 then .error "Invalid version index"
    else
      let outputVersion := mapping[verdef.ndx - verNdxGlobal]?.getD 0
      if outputVersion = verNdxGlobal then writeVernauxes mapping versionCount verdefs auxIndex
      else match verdef.name with
        | none => .error "VERDEF with no AUX entry"
        | some name =>
          if versionCount ≤ auxIndex then .error "Insufficient vernaux allocation"
          else
            let auxOut : OutputVernaux :=
              { next := if auxIndex + 1 = versionCount then 0 else 16
                other := outputVersion
                name := name
                hash := sysvHash name }
            (writeVernauxes mapping versionCount verdefs (auxIndex + 1)).map (auxOut :: ·)

/-- The version part of `write_dynamic_file`: nothing when no version is needed. -/
def writeVerneed (o : VersionedObject) (mapping : List Nat) (versionCount : Nat) (isLastVerneed : Bool) :
    Except String (Option OutputVerneed) :=
  if versionCount = 0 then .ok none
  else do
    let auxes ← writeVernauxes sysvHash mapping versionCount o.verdefs 0
    return some
      { count := versionCount
        next := if isLastVerneed then 0 else 16 + 16 * versionCount
        file := if o.verdefs.any (·.isBase) then some o.libName else none
        auxes := auxes }

end

/-- `copy_symbol_version`: the `.gnu.version` entry of a symbol of a shared object. -/
def copySymbolVersion (o : VersionedObject) (mapping : List Nat) (localSymbolIndex : Nat) :
    Except String Nat :=
  match o.versym[localSymbolIndex]? with
  | none => .ok verNdxGlobal
  | some versym =>
    let inputVersion := versym.index
    if isSpecialVersion inputVersion then .ok inputVersion
    else match mapping[inputVersion - verNdxGlobal]? with
      | some outputVersion => .ok outputVersion
      | none => .error "index out of bounds"

/-! ## The versions of a version script -/

/-- `Version`: a version of a regular version script, the base version first. -/
structure ScriptVersion where
  name : Bytes
  parentIndex : Option Nat
deriving DecidableEq

/-- `version_count`: including the base version, and nothing when there is only the base. A Rust version
    script counts as having no versions. -/
def versionCount (versions : List ScriptVersion) : Nat :=
  if versions.length = 1 then 0 else versions.length % 2 ^ 16

/-- `parent_count`. -/
def parentCount (versions : List ScriptVersion) : Nat :=
  versions.countP (·.parentIndex.isSome) % 2 ^ 16

/-- `finalise_sizes_epilogue`: the version definitions of the output, and the bytes reserved for them, in
    16-bit arithmetic. -/
def allocateVerdefs (baseName : Bytes) (versions : List ScriptVersion) : Option (List ScriptVersion × Nat) :=
  if 0 < versionCount versions then
    some ({ name := baseName, parentIndex := none } :: versions.tail,
      (20 * versionCount versions % 2 ^ 16 +
        8 * ((versionCount versions + parentCount versions) % 2 ^ 16) % 2 ^ 16) % 2 ^ 16)
  else none

/-- A `Verdef` record as written, with the names of its one or two `Verdaux` records. -/
structure OutputVerdef where
  isBase : Bool
  index : Nat
  hash : BitVec 32
  name : Bytes
  parentName : Option Bytes
  next : Nat
deriving DecidableEq

/-- `aux_count`: the version itself and its parent. -/
def auxCount (verdef : ScriptVersion) : Nat := if verdef.parentIndex.isSome then 2 else 1

/-- The name of the parent of a version, among the names written before it. -/
def parentNameOf (names : List Bytes) (verdef : ScriptVersion) : Except String (Option Bytes) :=
  match verdef.parentIndex with
  | none => .ok none
  | some parentIndex =>
    match names[parentIndex - 1]? with
    | some name => .ok (some name)
    | none => .error "called Option::unwrap on a None value"

/-- The loop of `write_verdef` from the `i`-th definition on. `names` are the names written before, except
    the base, and `size` is what is left of the buffer. -/
def writeVerdefs (sysvHash : Bytes → BitVec 32) :
    List ScriptVersion → Nat → List Bytes → Nat → Except String (List OutputVerdef)
  | [], _, _, _ => .ok []
  | verdef :: verdefs, i, names, size => do
      let names := if i = 0 then names else names ++ [verdef.name]
      let parentName ← parentNameOf names verdef
      if size < 20 + 8 * auxCount verdef then .error "Insufficient .gnu.version_d allocation"
      else
        let verdefOut : OutputVerdef :=
          { isBase := decide (i = 0)
            index := (verNdxGlobal + i) % 2 ^ 16
            hash := sysvHash verdef.name
            name := verdef.name
            parentName := parentName
            next := if verdefs.isEmpty then 0 else 20 + 8 * auxCount verdef }
        (writeVerdefs sysvHash verdefs (i + 1) names (size - (20 + 8 * auxCount verdef))).map (verdefOut :: ·)

/-- `write_verdef` into the reserved bytes; nothing when the version script has no versions. -/
def writeOutputVerdefs (sysvHash : Bytes → BitVec 32) (baseName : Bytes) (versions : List ScriptVersion) :
    Except String (List OutputVerdef) :=
  match allocateVerdefs baseName versions with
  | none => .ok []
  | some (verdefs, size) => writeVerdefs sysvHash verdefs 0 [] size

/-! ## The passes together -/

/-- The bytes that an object reserves in `.gnu.version_r`. -/
def versionRSize (s : DynamicState) : Nat := if 0 < s.versionCount then 16 + s.versionCount * 16 else 0

/-- `version_mapping` of an object. -/
def DynamicState.mapping (s : DynamicState) : List Nat := computeVersionMapping s.needed s.nextIndex

/-- Layout: mark, count, and number. The first index follows the versions of the version script. -/
def layoutVersions (versions : List ScriptVersion) (inputs : List (VersionedObject × List Nat)) :
    Except String (List DynamicState) := do
  let marked ← markVersions inputs
  let counted ← finaliseSizesDynamic marked
  applyNonAddressableIndexes counted (verNdxGlobal + max 1 (versionCount versions))

/-- Write the records of the objects in order. `before` is the size of the records before, and `total` the
    size of the section, so that the last object with records ends the list. -/
def writeVerneeds (sysvHash : Bytes → BitVec 32) (total : Nat) :
    List DynamicState → Nat → Except String (List (Option OutputVerneed))
  | [], _ => .ok []
  | s :: states, before => do
      let after := before + versionRSize s
      let verneed ← writeVerneed sysvHash s.object s.mapping s.versionCount (decide (after = total))
      let verneeds ← writeVerneeds sysvHash total states after
      .ok (verneed :: verneeds)

/-- The indices of the `Vernaux` records of an object. -/
def vernauxIndexes (verneed : Option OutputVerneed) : List Nat :=
  (verneed.elim [] (·.auxes)).map (·.other)

/-! ## Marking keeps the base unmarked -/

/-- What the marks of an object say: one for each version, none on the base, and one for each used symbol
    with a version. -/
structure MarksOf (o : VersionedObject) (used : List Nat) (needed : List Bool) : Prop where
  length : needed.length = o.verdefnum
  base : needed[0]? ≠ some true
  marked : ∀ i ∈ used, ∀ versym, o.versym[i]? = some versym → 2 ≤ versym.index →
    needed[versym.index - verNdxGlobal]? = some true

/-- One used symbol marks its version and keeps the marks there were. -/
theorem dynamicSymbolUsed_ok {needed needed' : List Bool} {i : Nat} (h : dynamicSymbolUsed o needed i = .ok needed') :
    needed'.length = needed.length ∧ (needed[0]? ≠ some true → needed'[0]? ≠ some true) ∧
      (∀ j : Nat, needed[j]? = some true → needed'[j]? = some true) ∧
      ∀ versym, o.versym[i]? = some versym → 2 ≤ versym.index →
        needed'[versym.index - verNdxGlobal]? = some true := by
  simp only [dynamicSymbolUsed] at h
  cases hv : o.versym[i]? with
  | none =>
    rw [hv] at h
    cases h
    exact ⟨rfl, id, fun _ hj => hj, by simp⟩
  | some versym =>
    rw [hv] at h
    simp only [markVersionAsNeeded] at h
    split at h
    · -- local and global versions are not marked
      next hspecial =>
        cases h
        refine ⟨rfl, id, fun _ hj => hj, ?_⟩
        intro versym' hversym' htwo
        rw [Option.some.injEq] at hversym'
        rw [← hversym'] at htwo
        simp only [isSpecialVersion, decide_eq_true_iff] at hspecial
        omega
    · next hspecial =>
        split at h
        · next hlt =>
            cases h
            simp only [isSpecialVersion, decide_eq_true_iff] at hspecial
            refine ⟨List.length_set, ?_, ?_, ?_⟩
            · intro hbase
              rw [List.getElem?_set_ne (by rw [verNdxGlobal]; omega)]
              exact hbase
            · intro j hj
              by_cases hjv : versym.index - verNdxGlobal = j
              · rw [hjv] at hlt ⊢
                exact List.getElem?_set_self hlt
              · rw [List.getElem?_set_ne hjv]
                exact hj
            · intro versym' hversym' _
              rw [Option.some.injEq] at hversym'
              rw [← hversym']
              exact List.getElem?_set_self hlt
        · cases h

theorem marksOf_foldlM {done used : List Nat} {needed needed' : List Bool} (hmarks : MarksOf o done needed)
    (h : used.foldlM (dynamicSymbolUsed o) needed = .ok needed') : MarksOf o (done ++ used) needed' := by
  refine Traverse.foldlM_ok_induct done (fun done i needed needed₁ _ hmarks hstep => ?_) hmarks h
  obtain ⟨hlen, hbase, hkeep, hmark⟩ := dynamicSymbolUsed_ok hstep
  refine ⟨hlen.trans hmarks.length, hbase hmarks.base, ?_⟩
  intro j hj versym hversym htwo
  rcases List.mem_append.mp hj with hj' | hj'
  · exact hkeep _ (hmarks.marked j hj' versym hversym htwo)
  · rw [List.mem_singleton] at hj'
    subst hj'
    exact hmark versym hversym htwo

theorem marksOf_symbolVersionsNeeded {used : List Nat} {needed : List Bool}
    (h : symbolVersionsNeeded o used = .ok needed) : MarksOf o used needed := by
  have hstart : MarksOf o [] (List.replicate o.verdefnum false) := by
    refine ⟨List.length_replicate, ?_, by simp⟩
    intro htrue
    rw [List.getElem?_replicate] at htrue
    split at htrue <;> simp at htrue
  exact marksOf_foldlM hstart h

end Reld
