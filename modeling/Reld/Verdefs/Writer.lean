import Reld.Elf.Versions
import Reld.Lib.NameTable
import Reld.Lib.Records
import Reld.Symtab.Writer

/-!
# `Verdefs.Writer` — `.gnu.version_d`

A version script becomes a list of version definitions, the base version first. Their size is computed three times:
when space is reserved, in 16 bits; when the layout is finalised; and by the records that the writer takes. A record is
linked to the next one by its size, and to one or two auxiliary records, which name the version and its parent. The
names are written to `.dynstr`, except that of the base version, where the output has a soname.
-/

namespace Reld.Verdefs

open Records Symtab

/-! ## Version scripts -/

/-- `NAME { … } PARENT;`, where no parent is an empty name. -/
structure Declared where
  name : Bytes
  parentName : Bytes := []
deriving DecidableEq

/-- A parent is looked up among the names so far, and its index is a `u16`. -/
def findParent (versionNames : List Bytes) (parentName : Bytes) : Option (Option Nat) :=
  if parentName = [] then some none else (versionNames.idxOf? parentName).map (fun i => some (i % 2 ^ 16))

/-- The loop of `parse_version_script`. -/
def parseVersions : List Bytes → List Declared → Option (List ScriptVersion)
  | _, [] => some []
  | versionNames, d :: ds => do
    let parentIndex ← findParent versionNames d.parentName
    let versions ← parseVersions (versionNames ++ [d.name]) ds
    return { name := d.name, parentIndex } :: versions

/-- `parse_version_script`, from the base version placeholder on. A script with one anonymous version, or in the style
    of Rust, declares none. -/
def parseVersionScript (declared : List Declared) : Option (List ScriptVersion) :=
  (parseVersions [[]] declared).map ({ name := [], parentIndex := none } :: ·)

/-- What the epilogue reads of an output: where its part of `.dynstr` starts, the strings that it writes there before
    the version definitions, and the version script. The names of the dynamic symbols are those of an output with a
    dynamic section. -/
structure Output where
  outputKind : OutputKind
  /-- The last component of the path of the output, as a lossy string. -/
  fileName : Option Bytes
  rpath : Option Bytes := none
  soname : Option Bytes := none
  auxiliary : List Bytes := []
  dynamicSymbolNames : List Bytes := []
  dynstrStart : Nat
  declared : List Declared
  versions : List ScriptVersion
  parsed : parseVersionScript declared = some versions

variable (o : Output)

/-! ## Sizes -/

/-- The strings of the dynamic entries and of the dynamic symbols. -/
def Output.dynamicStrings : List Bytes :=
  if o.outputKind.needsDynamic then o.rpath.toList ++ o.soname.toList ++ o.auxiliary ++ o.dynamicSymbolNames else []

/-- What the epilogue reserves, and its version definitions. -/
structure Sizes where
  gnuVersionD : Nat
  dynstr : Nat
  verdefs : Option (List ScriptVersion)

/-- `finalise_sizes_epilogue`. Without a soname, the base version is named after the file, which has to have a name. -/
def finaliseSizesEpilogue : Option Sizes :=
  let dynamic := (o.dynamicStrings.map NameTable.room).sum
  if 0 < versionCount o.versions then do
    let baseVersionName ← if o.soname.isNone then o.fileName else some []
    let (verdefs, gnuVersionD) ← allocateVerdefs baseVersionName o.versions
    return {
      gnuVersionD
      dynstr := dynamic + (if o.soname.isNone then NameTable.room baseVersionName else 0)
        + (o.versions.tail.map (NameTable.room ·.name)).sum
      verdefs := some verdefs }
  else
    return { gnuVersionD := 0, dynstr := dynamic, verdefs := none }

/-- `finalise_layout_epilogue`: how far the offset in `.gnu.version_d` moves on. -/
def finaliseLayoutEpilogue (verdefs : Option (List ScriptVersion)) : Nat :=
  match verdefs with
  | none => 0
  | some verdefs => 20 * verdefs.length + 8 * (verdefs.length + parentCount o.versions)

/-! ## The writer -/

/-- The strings that are written one after another. -/
def writeStrings (w : StrTabWriter) (strings : List Bytes) : Option StrTabWriter :=
  strings.foldlM (fun w str => (w.writeStr str).map Prod.snd) w

/-- `write_epilogue_dynamic_entries`, with the offset of the soname. -/
def writeEpilogueDynamicEntries (w : StrTabWriter) : Option (StrTabWriter × Option Nat) := do
  let w ← writeStrings w o.rpath.toList
  let (sonameOffset, w) ←
    match o.soname with
    | none        => some (none, w)
    | some soname => (w.writeStr soname).map fun (offset, w) => (some offset, w)
  let w ← writeStrings w o.auxiliary
  return (w, sonameOffset)

/-- The strings in front of those of the version definitions. Only an output with a dynamic section has any. -/
def writeDynamicStrings (w : StrTabWriter) : Option (StrTabWriter × Option Nat) :=
  if o.outputKind.needsDynamic then do
    let (w, sonameOffset) ← writeEpilogueDynamicEntries o w
    let w ← writeStrings w o.dynamicSymbolNames
    return (w, sonameOffset)
  else some (w, none)

/-- The state of `write_verdef`: the records, what is left of the buffer, the string table, and the offsets of the
    version strings, except the base version. -/
structure VerdefWriter where
  out : Bytes
  room : Nat
  strtab : StrTabWriter
  versionStringOffsets : List Nat

/-- `take_verdef` and `take_verdaux`, and what is then set in the record. -/
def VerdefWriter.take (w : VerdefWriter) (fields : List Field) : Option VerdefWriter :=
  if width fields ≤ w.room then
    some { w with out := w.out ++ Records.encode fields, room := w.room - width fields }
  else none

/-- The name of a version and its offset: the base version may use the soname, which is there already. -/
def writeName (sonameOffset : Option Nat) (i : Nat) (verdef : ScriptVersion) (w : VerdefWriter) :
    Option (Bytes × Nat × VerdefWriter) :=
  if i = 0 then
    match o.soname with
    | some soname => sonameOffset.map fun offset => (soname, offset, w)
    | none        =>
      (w.strtab.writeStr verdef.name).map fun (offset, strtab) => (verdef.name, offset, { w with strtab })
  else
    (w.strtab.writeStr verdef.name).map fun (offset, strtab) =>
      (verdef.name, offset, { w with strtab, versionStringOffsets := w.versionStringOffsets ++ [offset] })

/-- The offset of a parent's name. The index of the base version, from which 1 cannot be taken, is not there. -/
def parentOffset (w : VerdefWriter) (parentIndex : Nat) : Option Nat :=
  if parentIndex = 0 then none else w.versionStringOffsets[parentIndex - 1]?

section

variable (sysvHash : Bytes → BitVec 32)

/-- One definition of `write_verdef`, with its auxiliary records. -/
def writeDefinition (sonameOffset : Option Nat) (isLast : Bool) (i : Nat) (verdef : ScriptVersion) (w : VerdefWriter) :
    Option VerdefWriter := do
  let (name, nameOffset, w) ← writeName o sonameOffset i verdef w
  let w ← w.take [(2, 1), (2, if i = 0 then 1 else 0), (2, verNdxGlobal + i), (2, auxCount verdef),
    (4, (sysvHash name).toNat), (4, 20), (4, if isLast then 0 else 20 + 8 * auxCount verdef)]
  let w ← w.take [(4, nameOffset), (4, if verdef.parentIndex.isSome then 8 else 0)]
  match verdef.parentIndex with
  | none => return w
  | some parentIndex => w.take [(4, ← parentOffset w parentIndex), (4, 0)]

/-- `write_verdef`, from a definition on. -/
def writeVerdef (sonameOffset : Option Nat) : Nat → List ScriptVersion → VerdefWriter → Option VerdefWriter
  | _, [], w => some w
  | i, verdef :: vs, w => do
    let w ← writeDefinition o sysvHash sonameOffset vs.isEmpty i verdef w
    writeVerdef sonameOffset (i + 1) vs w

/-- What `write_epilogue` puts into `.gnu.version_d` and into its part of `.dynstr`. -/
def writeEpilogue (sizes : Sizes) : Option (Bytes × Bytes) := do
  let strtab : StrTabWriter := { nextOffset := o.dynstrStart % 2 ^ 32, written := [], free := sizes.dynstr }
  let (strtab, sonameOffset) ← writeDynamicStrings o strtab
  match sizes.verdefs with
  | none => return ([], strtab.written)
  | some verdefs =>
    let w ← writeVerdef o sysvHash sonameOffset 0 verdefs
      { out := [], room := sizes.gnuVersionD, strtab, versionStringOffsets := [] }
    return (w.out, w.strtab.written)

end

/-! ## The reader -/

/-- A definition as a reader of the output sees it. Each name comes with its offset. -/
structure ReadVerdef where
  index : Nat
  flags : Nat
  count : Nat
  names : List (Nat × Bytes)
deriving DecidableEq

/-- An auxiliary record, with the string at its offset of `.dynstr`, up to the NUL. -/
def readVerdaux (versionD dynstr : Bytes) (offset : Nat) : Option (Nat × Bytes) := do
  let nameOffset ← read versionD offset 4
  let name ← NameTable.nameAt 0 dynstr nameOffset
  return (nameOffset, name)

/-- A definition, with the auxiliary records that are found along `vda_next`. -/
def readVerdef (versionD dynstr : Bytes) (offset : Nat) : Option ReadVerdef := do
  let flags ← read versionD (offset + 2) 2
  let index ← read versionD (offset + 4) 2
  let count ← read versionD (offset + 6) 2
  let aux ← read versionD (offset + 12) 4
  let auxes ← RelativeList.walk (fun at_ => read versionD (at_ + 4) 4) versionD.length (offset + aux)
  let names ← auxes.mapM (readVerdaux versionD dynstr)
  return { index, flags, count, names }

/-- The definitions that are found along `vd_next`. -/
def readVerdefs (versionD dynstr : Bytes) : Option (List ReadVerdef) :=
  if versionD = [] then some []
  else do
    let offsets ← RelativeList.walk (fun at_ => read versionD (at_ + 16) 4) versionD.length 0
    offsets.mapM (readVerdef versionD dynstr)

/-! ## What the records should say -/

/-- The name of the base version, where it is written. -/
def Output.baseStrings : List Bytes := if o.soname.isNone then o.fileName.toList else []

/-- The strings of the epilogue, in the order in which they are written. -/
def Output.strings : List Bytes := o.dynamicStrings ++ o.baseStrings ++ o.declared.map (·.name)

/-- Where the `k`-th string of the epilogue is in `.dynstr`. -/
def Output.position (k : Nat) : Nat := o.dynstrStart + NameTable.offset o.strings k

/-- The name of the base version, and which of the strings it is. -/
def Output.baseName : Bytes := (o.soname.or o.fileName).getD []

def Output.baseSlot : Nat := if o.soname.isSome then o.rpath.toList.length else o.dynamicStrings.length

/-- Which of the strings is the name of the `j`-th version after the base version. -/
def Output.versionSlot (j : Nat) : Nat := o.dynamicStrings.length + (if o.soname.isNone then 1 else 0) + j

/-- A declared version: its own name first, and then that of its parent. -/
def Output.expectedVersion (j : Nat) (d : Declared) : ReadVerdef :=
  let parent :=
    if d.parentName = [] then []
    else [(o.position (o.versionSlot ((o.declared.map (·.name)).idxOf d.parentName)), d.parentName)]
  { index := j + 2, flags := 0, count := 1 + parent.length
    names := (o.position (o.versionSlot j), d.name) :: parent }

/-- Each version once, the base version first; nothing if none is declared. -/
def Output.expected : List ReadVerdef :=
  if o.declared = [] then []
  else { index := 1, flags := 1, count := 1, names := [(o.position o.baseSlot, o.baseName)] }
    :: o.declared.mapIdx o.expectedVersion

end Reld.Verdefs

/-!
# A reader finds each definition once

The records of a definition and of its auxiliary entries are laid out one behind the other, with their sizes as the
distances to the next one. So a reader that follows `vd_next` visits each definition once, and one that follows
`vda_next` each of its names (`readVerdefs_eq`).
-/

namespace Reld.Verdefs

open Records RelativeList

/-- A definition as it is written: its names by their offsets. -/
structure Entry where
  index : Nat
  flags : Nat
  hash : Nat
  auxes : List Nat

/-- The auxiliary records. -/
def auxFields : List Nat → List Field
  | []        => []
  | a :: rest => (4, a) :: (4, if rest = [] then 0 else 8) :: auxFields rest

namespace Entry

def size (e : Entry) : Nat := 20 + 8 * e.auxes.length

/-- The record of a definition. -/
def head (e : Entry) (next : Nat) : List Field :=
  [(2, 1), (2, e.flags), (2, e.index), (2, e.auxes.length), (4, e.hash), (4, 20), (4, next)]

def fields (e : Entry) (next : Nat) : List Field := e.head next ++ auxFields e.auxes

end Entry

/-- All definitions. The last one has no next one. -/
def entriesBytes : List Entry → Bytes
  | []        => []
  | e :: rest => Records.encode (e.fields (if rest = [] then 0 else e.size)) ++ entriesBytes rest

variable {front behind dynstr bytes : Bytes} {es : List Entry}

theorem width_auxFields (auxes : List Nat) : width (auxFields auxes) = 8 * auxes.length := by
  induction auxes with
  | nil => rfl
  | cons a rest ih =>
    rw [auxFields, width_cons, width_cons, ih, List.length_cons]
    omega

theorem Entry.width_fields (e : Entry) (next : Nat) : width (e.fields next) = e.size := by
  rw [Entry.fields, width_append, width_auxFields, Entry.size]
  rfl

theorem length_entriesBytes (es : List Entry) : (entriesBytes es).length = (es.map Entry.size).sum := by
  induction es with
  | nil => rfl
  | cons e rest ih =>
    rw [entriesBytes, List.length_append, length_encode, e.width_fields, ih, List.map_cons, List.sum_cons]

/-- A field, with bytes in front of the record and behind it. -/
theorem read_field {fields : List Field} {k w v offset : Nat} (h : fields[k]? = some (w, v))
    (hbytes : bytes = front ++ (Records.encode fields ++ behind))
    (hoffset : offset = front.length + width (fields.take k)) :
    read bytes offset w = some (v % 256 ^ w) := by
  rw [hbytes, hoffset, read_behind, read_encode h]

/-- A value that its field has room for. -/
theorem read_field_of_lt {fields : List Field} {k w v offset : Nat} (h : fields[k]? = some (w, v)) (hv : v < 256 ^ w)
    (hbytes : bytes = front ++ (Records.encode fields ++ behind))
    (hoffset : offset = front.length + width (fields.take k)) :
    read bytes offset w = some v := by
  rw [read_field h hbytes hoffset, Nat.mod_eq_of_lt hv]

/-! ## Auxiliary records -/

/-- The auxiliary records are linked. -/
theorem linked_auxFields {auxes : List Nat} (hbytes : bytes = front ++ (Records.encode (auxFields auxes) ++ behind)) :
    Linked (fun at_ => read bytes (at_ + 4) 4) front.length (List.replicate auxes.length 8) := by
  induction auxes generalizing front with
  | nil => trivial
  | cons a rest ih =>
    refine ⟨?_, ?_⟩
    · have hnext := read_field (k := 1) rfl hbytes rfl
      refine hnext.trans ?_
      cases rest <;> rfl
    · have hfront : front.length + 8 = (front ++ Records.encode [(4, a), (4, if rest = [] then 0 else 8)]).length := by
        rw [List.length_append, length_encode]
        rfl
      rw [hfront]
      apply ih
      rw [hbytes, auxFields]
      simp [encode_cons, encode_nil]

/-- The names of the auxiliary records. -/
theorem readVerdauxes {names : List (Nat × Bytes)} (hnames : ∀ p ∈ names, p.1 < 2 ^ 32 ∧ NameTable.nameAt 0 dynstr p.1 = some p.2)
    (hbytes : bytes = front ++ (Records.encode (auxFields (names.map Prod.fst)) ++ behind)) :
    (offsets front.length (List.replicate names.length 8)).mapM (readVerdaux bytes dynstr) = some names := by
  induction names generalizing front with
  | nil => rfl
  | cons p rest ih =>
    obtain ⟨hlt, hname⟩ := hnames p List.mem_cons_self
    have hoffset : read bytes front.length 4 = some p.1 := read_field_of_lt (k := 0) rfl hlt hbytes rfl
    have haux : readVerdaux bytes dynstr front.length = some p := by
      unfold readVerdaux
      rw [hoffset]
      simp only [Option.bind_eq_bind, Option.bind_some, hname]
      rfl
    have hfront : front.length + 8
        = (front ++ Records.encode [(4, p.1), (4, if rest.map Prod.fst = [] then 0 else 8)]).length := by
      rw [List.length_append, length_encode]
      rfl
    have hbehind : bytes = (front ++ Records.encode [(4, p.1), (4, if rest.map Prod.fst = [] then 0 else 8)])
        ++ (Records.encode (auxFields (rest.map Prod.fst)) ++ behind) := by
      rw [hbytes, List.map_cons, auxFields]
      simp [encode_cons, encode_nil]
    have hrest := ih (fun q hq => hnames q (List.mem_cons_of_mem _ hq)) hbehind
    rw [List.length_cons, List.replicate_succ, offsets, hfront, List.mapM_cons, haux, hrest]
    rfl

/-! ## Definitions -/

/-- What is to be read of an entry. -/
structure Entry.Reads (dynstr : Bytes) (e : Entry) (v : ReadVerdef) : Prop where
  index : e.index < 2 ^ 16 ∧ v.index = e.index
  flags : e.flags < 2 ^ 16 ∧ v.flags = e.flags
  count : v.names.length < 2 ^ 16 ∧ v.count = v.names.length
  auxes : e.auxes = v.names.map Prod.fst
  some_ : v.names ≠ []
  names : ∀ p ∈ v.names, p.1 < 2 ^ 32 ∧ NameTable.nameAt 0 dynstr p.1 = some p.2

/-- **A definition is read back**, with its names. -/
theorem readVerdef_eq {e : Entry} {v : ReadVerdef} {next : Nat} (h : e.Reads dynstr v)
    (hbytes : bytes = front ++ (Records.encode (e.fields next) ++ behind)) :
    readVerdef bytes dynstr front.length = some v := by
  have hlength : e.auxes.length = v.names.length := by rw [h.auxes, List.length_map]
  have hflags : read bytes (front.length + 2) 2 = some v.flags :=
    h.flags.2 ▸ read_field_of_lt (k := 1) rfl h.flags.1 hbytes rfl
  have hindex : read bytes (front.length + 4) 2 = some v.index :=
    h.index.2 ▸ read_field_of_lt (k := 2) rfl h.index.1 hbytes rfl
  have hcount : read bytes (front.length + 6) 2 = some v.count := by
    rw [h.count.2, ← hlength]
    exact read_field_of_lt (k := 3) rfl (hlength ▸ h.count.1) hbytes rfl
  have haux : read bytes (front.length + 12) 4 = some 20 :=
    read_field_of_lt (k := 5) rfl (by decide) hbytes rfl
  -- the auxiliary records are behind the record of the definition
  have hbehind : bytes = (front ++ Records.encode (e.head next))
      ++ (Records.encode (auxFields (v.names.map Prod.fst)) ++ behind) := by
    rw [hbytes, Entry.fields, encode_append, h.auxes]
    simp
  have hfront : front.length + 20 = (front ++ Records.encode (e.head next)).length := by
    rw [List.length_append, length_encode]
    rfl
  have hlinked := linked_auxFields hbehind
  rw [List.length_map, ← hfront] at hlinked
  have hfuel : (List.replicate v.names.length 8).length ≤ bytes.length := by
    have hlengths := congrArg List.length hbehind
    simp only [List.length_append, length_encode, width_auxFields, List.length_map] at hlengths
    rw [List.length_replicate]
    omega
  have hwalk := walk_eq hlinked (by simpa using h.some_) (fun s hs => by rw [List.eq_of_mem_replicate hs]; decide) hfuel
  have hnames := readVerdauxes h.names hbehind
  rw [← hfront] at hnames
  unfold readVerdef
  simp only [hflags, hindex, hcount, haux, hwalk, hnames, Option.bind_eq_bind, Option.bind_some]
  rfl

/-- The definitions are linked. -/
theorem linked_entriesBytes (hsize : ∀ e ∈ es, e.size < 2 ^ 32) (hbytes : bytes = front ++ entriesBytes es) :
    Linked (fun at_ => read bytes (at_ + 16) 4) front.length (es.map Entry.size) := by
  induction es generalizing front with
  | nil => trivial
  | cons e rest ih =>
    refine ⟨?_, ?_⟩
    · have hnext : read bytes (front.length + 16) 4 = some ((if rest = [] then 0 else e.size) % 256 ^ 4) :=
        read_field (k := 6) rfl hbytes rfl
      refine hnext.trans ?_
      simp only [List.map_eq_nil_iff]
      split
      · rfl
      · exact congrArg some (Nat.mod_eq_of_lt (hsize e List.mem_cons_self))
    · have hfront : front.length + e.size
          = (front ++ Records.encode (e.fields (if rest = [] then 0 else e.size))).length := by
        rw [List.length_append, length_encode, e.width_fields]
      rw [hfront]
      refine ih (fun e' he' => hsize e' (List.mem_cons_of_mem _ he')) ?_
      rw [hbytes, entriesBytes, List.append_assoc]

theorem readVerdefs_mapM {vs : List ReadVerdef} (h : List.Forall₂ (Entry.Reads dynstr) es vs)
    (hbytes : bytes = front ++ entriesBytes es) :
    (offsets front.length (es.map Entry.size)).mapM (readVerdef bytes dynstr) = some vs := by
  induction h generalizing front with
  | nil => rfl
  | @cons e v rest vs hread hrest ih =>
    have hfront : front.length + e.size
        = (front ++ Records.encode (e.fields (if rest = [] then 0 else e.size))).length := by
      rw [List.length_append, length_encode, e.width_fields]
    have hbehind : bytes = (front ++ Records.encode (e.fields (if rest = [] then 0 else e.size)))
        ++ entriesBytes rest := by
      rw [hbytes, entriesBytes, List.append_assoc]
    have hthere := ih hbehind
    have hhere := readVerdef_eq hread hbytes
    rw [List.map_cons, offsets, hfront, List.mapM_cons, hhere, hthere]
    rfl

/-- **A reader visits each definition once**, in order. -/
theorem readVerdefs_eq {vs : List ReadVerdef} (h : List.Forall₂ (Entry.Reads dynstr) es vs)
    (hsize : ∀ e ∈ es, e.size < 2 ^ 32) : readVerdefs (entriesBytes es) dynstr = some vs := by
  have hpos : ∀ s ∈ es.map Entry.size, 0 < s := by
    intro s hs
    obtain ⟨e, -, rfl⟩ := List.mem_map.mp hs
    unfold Entry.size
    omega
  cases es with
  | nil =>
    cases h
    rfl
  | cons e rest =>
    have hne : entriesBytes (e :: rest) ≠ [] := by
      intro hnil
      have hlength := length_entriesBytes (e :: rest)
      rw [hnil, List.map_cons, List.sum_cons] at hlength
      have := hpos e.size (List.mem_map_of_mem List.mem_cons_self)
      simp at hlength
      omega
    have hfuel : ((e :: rest).map Entry.size).length ≤ (entriesBytes (e :: rest)).length := by
      rw [length_entriesBytes]
      exact List.length_le_sum_of_one_le _ hpos
    have hbytes : entriesBytes (e :: rest) = [] ++ entriesBytes (e :: rest) := rfl
    have hwalk := walk_eq (linked_entriesBytes hsize hbytes) (by simp) hpos hfuel
    have hmapM := readVerdefs_mapM h hbytes
    unfold readVerdefs
    rw [if_neg hne]
    simp only [List.length_nil, Option.bind_eq_bind] at hwalk hmapM ⊢
    rw [hwalk, Option.bind_some, hmapM]

end Reld.Verdefs

/-!
# What `write_verdef` writes

The strings of the epilogue are written one after another, so the offset of each is what the ones before it take up
(`Wrote`). A definition takes its record and its auxiliary records from the buffer, and puts the offset of its name into
a list in which the definitions after it look up their parents; since a parent has been declared before, it is there
(`writeVerdef_eq`).
-/

namespace Reld.Verdefs

open Records Symtab NameTable

variable {o : Output} {start : Nat} {done todo : List Bytes} {w : StrTabWriter}

/-! ## Strings -/

/-- The strings `done` have been written from `start` on, and there is room for `todo`. -/
structure Wrote (start : Nat) (done todo : List Bytes) (w : StrTabWriter) : Prop where
  nextOffset : w.nextOffset = (start + (done.map room).sum) % 2 ^ 32
  written : w.written = table 0 done
  free : w.free = (todo.map room).sum

/-- A string is written at what those before it take up. -/
theorem Wrote.writeStr {str : Bytes} (h : Wrote start done (str :: todo) w) :
    ∃ w', w.writeStr str = some ((start + (done.map room).sum) % 2 ^ 32, w') ∧ Wrote start (done ++ [str]) todo w' := by
  have hfree := h.free
  rw [List.map_cons, List.sum_cons, room] at hfree
  unfold StrTabWriter.writeStr
  rw [if_pos (by omega)]
  refine ⟨_, by rw [h.nextOffset], ?_, ?_, ?_⟩
  · show (_ + _) % 2 ^ 32 = _
    rw [Nat.mod_add_mod, List.map_append, List.sum_append, List.map_singleton, List.sum_singleton,
      room, Nat.add_assoc]
  · show w.written ++ (str ++ [0]) = _
    rw [h.written, table_append, table_cons, table_nil]
  · show w.free - (str.length + 1) = _
    omega

theorem Wrote.writeStrings {strs : List Bytes} (h : Wrote start done (strs ++ todo) w) :
    ∃ w', writeStrings w strs = some w' ∧ Wrote start (done ++ strs) todo w' := by
  induction strs generalizing done w with
  | nil => exact ⟨w, rfl, by rwa [List.append_nil]⟩
  | cons str strs ih =>
    obtain ⟨w₁, hw₁, h₁⟩ := h.writeStr
    obtain ⟨w', hw', h'⟩ := ih h₁
    refine ⟨w', ?_, by rwa [List.append_assoc] at h'⟩
    unfold Verdefs.writeStrings at hw' ⊢
    rw [List.foldlM_cons, hw₁]
    exact hw'

/-- The strings of the dynamic entries and symbols, and where the soname is. -/
theorem writeDynamicStrings_eq (h : Wrote start [] (o.dynamicStrings ++ todo) w) :
    ∃ w', writeDynamicStrings o w = some (w', if o.outputKind.needsDynamic then
        o.soname.map (fun _ => (start + (o.rpath.toList.map room).sum) % 2 ^ 32) else none) ∧
      Wrote start o.dynamicStrings todo w' := by
  unfold writeDynamicStrings
  unfold Output.dynamicStrings at h ⊢
  by_cases hdynamic : o.outputKind.needsDynamic = true
  · rw [if_pos hdynamic] at h ⊢
    rw [if_pos hdynamic, if_pos hdynamic]
    simp only [List.append_assoc] at h
    obtain ⟨w₁, hw₁, h₁⟩ := h.writeStrings
    unfold writeEpilogueDynamicEntries
    cases hsoname : o.soname with
    | none =>
      rw [hsoname, Option.toList_none, List.nil_append, List.nil_append] at h₁
      obtain ⟨w₂, hw₂, h₂⟩ := h₁.writeStrings
      obtain ⟨w₃, hw₃, h₃⟩ := h₂.writeStrings
      refine ⟨w₃, ?_, by simpa using h₃⟩
      simp [hw₁, hw₂, hw₃]
    | some soname =>
      rw [hsoname, Option.toList_some, List.singleton_append, List.nil_append] at h₁
      obtain ⟨w₂, hw₂, h₂⟩ := h₁.writeStr
      obtain ⟨w₃, hw₃, h₃⟩ := h₂.writeStrings
      obtain ⟨w₄, hw₄, h₄⟩ := h₃.writeStrings
      refine ⟨w₄, ?_, by simpa using h₄⟩
      simp [hw₁, hw₂, hw₃, hw₄]
  · rw [if_neg hdynamic] at h ⊢
    rw [if_neg hdynamic, if_neg hdynamic]
    exact ⟨w, rfl, h⟩

/-! ## Definitions -/

section Definitions

variable {sysvHash : Bytes → BitVec 32} {slot : Nat → Nat} {sonameOffset : Option Nat} {j : Nat} {v : ScriptVersion}
  {vs : List ScriptVersion}

/-- The definition of the `j`-th version after the base version, where `slot` has the offsets of the names. -/
def versionEntry (sysvHash : Bytes → BitVec 32) (slot : Nat → Nat) (j : Nat) (v : ScriptVersion) : Entry :=
  { index := verNdxGlobal + (j + 1)
    flags := 0
    hash := (sysvHash v.name).toNat
    auxes := slot j :: (v.parentIndex.map (fun p => slot (p - 1))).toList }

theorem size_versionEntry : (versionEntry sysvHash slot j v).size = 20 + 8 * auxCount v := by
  unfold Entry.size versionEntry auxCount
  cases v.parentIndex <;> rfl

theorem VerdefWriter.take_eq {w : VerdefWriter} {fields : List Field} (h : width fields ≤ w.room) :
    w.take fields = some { w with out := w.out ++ Records.encode fields, room := w.room - width fields } := if_pos h

/-- **A definition** after the base version. -/
theorem writeDefinition_eq {w : VerdefWriter} (hw : Wrote start done (v.name :: todo) w.strtab)
    (hslot : slot j = (start + (done.map room).sum) % 2 ^ 32)
    (hoffsets : w.versionStringOffsets = (List.range j).map slot)
    (hparent : ∀ p, v.parentIndex = some p → 1 ≤ p ∧ p ≤ j) (hroom : 20 + 8 * auxCount v ≤ w.room) (isLast : Bool) :
    ∃ w', writeDefinition o sysvHash sonameOffset isLast (j + 1) v w = some w' ∧
      w'.out = w.out
        ++ Records.encode ((versionEntry sysvHash slot j v).fields (if isLast then 0 else 20 + 8 * auxCount v)) ∧
      w'.room = w.room - (20 + 8 * auxCount v) ∧ w'.versionStringOffsets = (List.range (j + 1)).map slot ∧
      Wrote start (done ++ [v.name]) todo w'.strtab := by
  obtain ⟨strtab, hwrite, hstrtab⟩ := hw.writeStr
  suffices hwritten : writeDefinition o sysvHash sonameOffset isLast (j + 1) v w = some
      { out := w.out ++ Records.encode ((versionEntry sysvHash slot j v).fields (if isLast then 0 else 20 + 8 * auxCount v))
        room := w.room - (20 + 8 * auxCount v)
        strtab
        versionStringOffsets := (List.range (j + 1)).map slot } from ⟨_, hwritten, rfl, rfl, rfl, hstrtab⟩
  have hname : writeName o sonameOffset (j + 1) v w = some (v.name, slot j,
      { w with strtab, versionStringOffsets := (List.range (j + 1)).map slot }) := by
    unfold writeName
    rw [if_neg (Nat.succ_ne_zero j), hwrite, hslot, List.range_succ, List.map_append, List.map_singleton, hslot,
      ← hoffsets]
    rfl
  unfold writeDefinition
  rw [hname]
  simp only [Option.bind_eq_bind, Option.bind_some]
  unfold auxCount at hroom ⊢
  cases hindex : v.parentIndex with
  | none =>
    rw [hindex] at hroom
    simp only [Option.isSome_none, Bool.false_eq_true, if_false] at hroom ⊢
    rw [VerdefWriter.take_eq (by simp [width]; omega), Option.bind_some, VerdefWriter.take_eq (by simp [width]; omega)]
    simp [versionEntry, hindex, Entry.fields, Entry.head, auxFields, width, Nat.sub_sub]
  | some p =>
    obtain ⟨hpos, hle⟩ := hparent p hindex
    rw [hindex] at hroom
    simp only [Option.isSome_some, if_true] at hroom ⊢
    rw [VerdefWriter.take_eq (by simp [width]; omega), Option.bind_some, VerdefWriter.take_eq (by simp [width]; omega),
      Option.bind_some]
    -- the name of the parent has been written before
    have hoffset : ∀ w : VerdefWriter, w.versionStringOffsets = (List.range (j + 1)).map slot →
        parentOffset w p = some (slot (p - 1)) := by
      intro w hw
      have hlt : p - 1 < j + 1 := by omega
      unfold parentOffset
      rw [if_neg (by omega), hw]
      simp [hlt]
    simp only [hoffset, Option.bind_some]
    rw [VerdefWriter.take_eq (by simp [width]; omega)]
    simp [versionEntry, hindex, Entry.fields, Entry.head, auxFields, width, Nat.sub_sub]

/-- The definitions after the base version, from the `j`-th one on. -/
def versionEntries (sysvHash : Bytes → BitVec 32) (slot : Nat → Nat) : Nat → List ScriptVersion → List Entry
  | _, []      => []
  | j, v :: vs => versionEntry sysvHash slot j v :: versionEntries sysvHash slot (j + 1) vs

theorem versionEntries_eq_nil : versionEntries sysvHash slot j vs = [] ↔ vs = [] := by
  cases vs <;> simp [versionEntries]

/-- **The definitions after the base version** are written into the room for them. -/
theorem writeVerdef_eq {w : VerdefWriter} (hw : Wrote start done (vs.map (·.name)) w.strtab)
    (hslot : ∀ k < vs.length, slot (j + k) = (start + ((done ++ (vs.take k).map (·.name)).map room).sum) % 2 ^ 32)
    (hoffsets : w.versionStringOffsets = (List.range j).map slot)
    (hparents : ∀ (k : Nat) (v : ScriptVersion), vs[k]? = some v → ∀ p, v.parentIndex = some p → 1 ≤ p ∧ p ≤ j + k)
    (hroom : w.room = (vs.map fun v => 20 + 8 * auxCount v).sum) :
    ∃ w', writeVerdef o sysvHash sonameOffset (j + 1) vs w = some w' ∧
      w'.out = w.out ++ entriesBytes (versionEntries sysvHash slot j vs) ∧ w'.room = 0 ∧
      Wrote start (done ++ vs.map (·.name)) [] w'.strtab := by
  induction vs generalizing j done w with
  | nil => exact ⟨w, rfl, (List.append_nil _).symm, hroom, by simpa using hw⟩
  | cons v vs ih =>
    rw [List.map_cons, List.sum_cons] at hroom
    have hfirst : slot j = (start + (done.map room).sum) % 2 ^ 32 := by
      have := hslot 0 (Nat.succ_pos _)
      simpa using this
    obtain ⟨w₁, hwrite, hout₁, hroom₁, hoffsets₁, hstrtab₁⟩ :
        ∃ w₁, writeDefinition o sysvHash sonameOffset vs.isEmpty (j + 1) v w = some w₁ ∧ _ :=
      writeDefinition_eq hw hfirst hoffsets (fun p hp => hparents 0 v rfl p hp) (by omega) vs.isEmpty
    have hslot₁ : ∀ k < vs.length, slot (j + 1 + k)
        = (start + (((done ++ [v.name]) ++ (vs.take k).map (·.name)).map room).sum) % 2 ^ 32 := by
      intro k hk
      have hnext := hslot (k + 1) (Nat.succ_lt_succ hk)
      rw [List.take_succ_cons, List.map_cons, ← List.singleton_append, ← List.append_assoc] at hnext
      rw [← hnext, Nat.add_assoc, Nat.add_comm 1]
    have hparents₁ : ∀ (k : Nat) (v : ScriptVersion), vs[k]? = some v → ∀ p, v.parentIndex = some p →
        1 ≤ p ∧ p ≤ j + 1 + k := by
      intro k v' hk p hp
      have hparent := hparents (k + 1) v' hk p hp
      omega
    obtain ⟨w', hrest, hout, hroom', hstrtab'⟩ := ih hstrtab₁ hslot₁ hoffsets₁ hparents₁ (by omega)
    refine ⟨w', ?_, ?_, hroom', by simpa using hstrtab'⟩
    · rw [writeVerdef, hwrite]
      exact hrest
    · rw [hout, hout₁, versionEntries, entriesBytes, size_versionEntry]
      simp [versionEntries_eq_nil]

end Definitions

end Reld.Verdefs
