import Mathlib.Data.List.DropRight
import Mathlib.Order.Interval.Finset.Nat
import Reld.Lib.Records
import Reld.Lib.SortedTable
import Reld.Lib.Traverse
import Reld.Tls.Writer

/-!
# `Elf.GnuProperties` — the merged `.note.gnu.property`

A property of the output comes from the values that all objects have for its type. The architecture says how they are
combined, and whether an object that lacks the property vetoes it.
-/

variable {prop : GnuProperty}

namespace Reld.GnuProperties

open Tls (Architecture)

/-! ## Merging -/

/-- `PropertyClass` -/
inductive PropertyClass where
  | or
  | and
  | andOr
deriving DecidableEq

structure GnuProperty where
  ptype : UInt32
  data : UInt32
deriving DecidableEq

/-- `GNU_PROPERTY_X86_ISA_1_NEEDED` -/
def x86Isa1Needed : UInt32 := 0xc0008002

/-- `get_property_class` of each architecture. -/
def getPropertyClass : Architecture → UInt32 → Option PropertyClass
  | .x86_64, ptype =>
    if 0xc0000002 ≤ ptype ∧ ptype ≤ 0xc0007fff then some .and
    else if 0xc0008000 ≤ ptype ∧ ptype ≤ 0xc000ffff then some .or
    else if 0xc0010000 ≤ ptype ∧ ptype ≤ 0xc0017fff then some .andOr
    else if 0xb0000000 ≤ ptype ∧ ptype ≤ 0xb0007fff then some .and
    else if 0xb0008000 ≤ ptype ∧ ptype ≤ 0xb000ffff then some .or
    else none
  | .aarch64, ptype => if ptype = 0xc0000000 then some .and else none
  | _, _ => none

/-- `and_modify` for another value of a type. -/
def PropertyClass.combine (propertyClass : PropertyClass) (value data : UInt32) : UInt32 :=
  match propertyClass with
  | .and => value &&& data
  | .or | .andOr => value ||| data

/-- A `HashMap`; what becomes of its order is up to the sort that follows. -/
abbrev PropertyMap := AList (fun _ : UInt32 => UInt32 × PropertyClass)

/-- The body of the loop over the properties, where the error names an unclassified type. -/
def mergeProperty (arch : Architecture) (map : PropertyMap) (prop : GnuProperty) : Except UInt32 PropertyMap :=
  match getPropertyClass arch prop.ptype with
  | none => .error prop.ptype
  | some propertyClass =>
    match map.lookup prop.ptype with
    | some entry => .ok (map.insert prop.ptype (propertyClass.combine entry.1 prop.data, entry.2))
    | none => .ok (map.insert prop.ptype (prop.data, propertyClass))

/-- The needed ISA from the command line, which is not zero. -/
def mergeIsa (isaNeeded : Option { isa : UInt32 // isa ≠ 0 }) (map : PropertyMap) : PropertyMap :=
  match isaNeeded with
  | none => map
  | some isa =>
    let entry := (map.lookup x86Isa1Needed).getD (0, .or)
    map.insert x86Isa1Needed (entry.1 ||| isa.1, entry.2)

/-- What `filter_map` makes of an entry. -/
def outputProperty (objects : List (List GnuProperty)) (entry : (_ : UInt32) × (UInt32 × PropertyClass)) :
    Option GnuProperty :=
  let typePresentInAll := objects.all (·.any (·.ptype == entry.1))
  let keep :=
    match entry.2.2 with
    | .or => entry.2.1 != 0
    | .and => typePresentInAll && entry.2.1 != 0
    | .andOr => typePresentInAll
  if keep then some ⟨entry.1, entry.2.1⟩ else none

/-- `merge_gnu_property_notes` -/
def mergeGnuPropertyNotes (arch : Architecture) (objects : List (List GnuProperty))
    (isaNeeded : Option { isa : UInt32 // isa ≠ 0 }) : Except UInt32 (List GnuProperty) :=
  (objects.flatten.foldlM (mergeProperty arch) ∅).map fun map =>
    (SortedTable.sort (·.1.toNat) (mergeIsa isaNeeded map).entries).filterMap (outputProperty objects)

/-! ## The note -/

/-- `gnu_property_notes_section_size` -/
def gnuPropertyNotesSectionSize (notes : List GnuProperty) : Nat := if notes = [] then 0 else 12 + 4 + notes.length * 16

inductive WriteError where
  /-- `Insufficient .note.gnu.property allocation` -/
  | insufficientAllocation
  | panic
deriving DecidableEq

/-- `GNU_NOTE_NAME` -/
def gnuNoteName : List UInt8 := [71, 78, 85, 0]

def NoteProperty.bytes (prop : GnuProperty) : List UInt8 :=
  Records.encode [(4, prop.ptype.toNat), (4, 4), (4, prop.data.toNat), (4, 0)]

/-- The loop that splits an entry off for each property. -/
def writeProperties : List GnuProperty → List UInt8 → Except WriteError (List UInt8)
  | [], rest => .ok rest
  | prop :: props, rest =>
    if rest.length < 16 then .error .panic
    else (writeProperties props (rest.drop 16)).map (NoteProperty.bytes prop ++ ·)

/-- `write_gnu_property_notes`, which is called where there are properties. -/
def writeGnuPropertyNotes (notes : List GnuProperty) (buffer : List UInt8) : Except WriteError (List UInt8) :=
  if notes = [] then .ok buffer
  else if buffer.length < 12 then .error .insufficientAllocation
  else if buffer.length < 12 + 4 then .error .panic
  else (writeProperties notes (buffer.drop (12 + 4))).map
    (Records.encode [(4, 4), (4, notes.length * 16 % 2 ^ 32), (4, 5)] ++ gnuNoteName ++ ·)

/-- The properties in the description of a note: type, size and data, filled up to 8 bytes. -/
def gnuProperties : (fuel : Nat) → List UInt8 → Option (List (UInt32 × List UInt8))
  | _, [] => some []
  | 0, _ :: _ => none
  | fuel + 1, desc =>
    (Records.read desc 0 4).bind fun ptype =>
    (Records.read desc 4 4).bind fun size =>
    if desc.length < (8 + size + 7) / 8 * 8 then none
    else
      (gnuProperties fuel (desc.drop ((8 + size + 7) / 8 * 8))).map ((UInt32.ofNat ptype, (desc.drop 8).take size) :: ·)

/-- The loop of `process_gnu_note_section`: another note is an error, and so is one that is cut off. -/
def processNotes : (fuel : Nat) → List UInt8 → Option (List GnuProperty)
  | _, [] => some []
  | 0, _ :: _ => none
  | fuel + 1, notes =>
    (Records.read notes 0 4).bind fun nameSize =>
    (Records.read notes 4 4).bind fun descSize =>
    (Records.read notes 8 4).bind fun noteType =>
    let descStart := (12 + nameSize + 7) / 8 * 8
    if notes.length < descStart + descSize then none
    else if noteType ≠ 5 ∨ ((notes.drop 12).take nameSize).rdropWhile (· = 0) ≠ [71, 78, 85] then none
    else
      (gnuProperties descSize ((notes.drop descStart).take descSize)).bind fun properties =>
      (processNotes fuel (notes.drop ((descStart + descSize + 7) / 8 * 8))).map
        ((properties.filter (·.2.length = 4)).map (fun p => ⟨p.1, UInt32.ofNat (LittleEndian.leNat p.2)⟩) ++ ·)

/-- `process_gnu_note_section` -/
def processGnuNoteSection (bytes : List UInt8) : Option (List GnuProperty) := processNotes bytes.length bytes

/-! ## What a property stands for -/

/-- The values of a type, of all objects. -/
def values (props : List GnuProperty) (ptype : UInt32) : List UInt32 :=
  (props.filter (·.ptype = ptype)).map (·.data)

/-- The value of a type without any values leaves those that come as they are. -/
def PropertyClass.neutral : PropertyClass → UInt32
  | .and => 0xffffffff
  | .or | .andOr => 0

/-- The conjunction or the disjunction of values. -/
def PropertyClass.combineAll (propertyClass : PropertyClass) (values : List UInt32) : UInt32 :=
  values.foldl propertyClass.combine propertyClass.neutral

/-- An output has an object, and every object has the property. -/
def InAll (objects : List (List GnuProperty)) (ptype : UInt32) : Prop :=
  objects ≠ [] ∧ ∀ props ∈ objects, ∃ prop ∈ props, prop.ptype = ptype

/-- The bits of the command line for a type. -/
def isaBits (isaNeeded : Option { isa : UInt32 // isa ≠ 0 }) (ptype : UInt32) : List UInt32 :=
  if ptype = x86Isa1Needed then isaNeeded.toList.map (·.1) else []

/-- The properties of an output. A type without a class can only come from the command line. -/
def Merged (arch : Architecture) (objects : List (List GnuProperty))
    (isaNeeded : Option { isa : UInt32 // isa ≠ 0 }) (prop : GnuProperty) : Prop :=
  match getPropertyClass arch prop.ptype with
  | some .and =>
    InAll objects prop.ptype ∧ prop.data = PropertyClass.and.combineAll (values objects.flatten prop.ptype) ∧
      prop.data ≠ 0
  | some .andOr =>
    InAll objects prop.ptype ∧ prop.data = PropertyClass.andOr.combineAll (values objects.flatten prop.ptype)
  | some .or | none =>
    prop.data = PropertyClass.or.combineAll (values objects.flatten prop.ptype ++ isaBits isaNeeded prop.ptype) ∧
      prop.data ≠ 0

/-! ## The map -/

section
variable {arch : Architecture} {objects objects' : List (List GnuProperty)}
  {isaNeeded : Option { isa : UInt32 // isa ≠ 0 }} {props : List GnuProperty} {map : PropertyMap} {ptype : UInt32}

theorem combine_neutral (propertyClass : PropertyClass) (value : UInt32) :
    propertyClass.combine propertyClass.neutral value = value := by
  cases propertyClass with
  | and => exact UInt32.neg_one_and
  | or => exact UInt32.zero_or
  | andOr => exact UInt32.zero_or

theorem combineAll_concat (propertyClass : PropertyClass) (values : List UInt32) (value : UInt32) :
    propertyClass.combineAll (values ++ [value]) = propertyClass.combine (propertyClass.combineAll values) value :=
  List.foldl_concat ..

theorem combineAll_perm {propertyClass : PropertyClass} {vs vs' : List UInt32} (h : vs.Perm vs') :
    propertyClass.combineAll vs = propertyClass.combineAll vs' := by
  have hcomm : ∀ x y z : UInt32,
      propertyClass.combine (propertyClass.combine x y) z = propertyClass.combine (propertyClass.combine x z) y := by
    intro x y z
    cases propertyClass with
    | and =>
      show x &&& y &&& z = x &&& z &&& y
      rw [UInt32.and_assoc, UInt32.and_comm y, ← UInt32.and_assoc]
    | or | andOr =>
      show x ||| y ||| z = x ||| z ||| y
      rw [UInt32.or_assoc, UInt32.or_comm y, ← UInt32.or_assoc]
  exact h.foldl_eq' (fun x _ y _ z => hcomm z x y) _

theorem values_concat (props : List GnuProperty) (prop : GnuProperty) (ptype : UInt32) :
    values (props ++ [prop]) ptype = values props ptype ++ if prop.ptype = ptype then [prop.data] else [] := by
  unfold values
  split_ifs with h <;> simp [h]

/-- The entry of a type, once all properties have been gone over. -/
def entryOf (arch : Architecture) (props : List GnuProperty) (ptype : UInt32) : Option (UInt32 × PropertyClass) :=
  if values props ptype = [] then none
  else (getPropertyClass arch ptype).map fun propertyClass => (propertyClass.combineAll (values props ptype), propertyClass)

theorem mergeProperty_lookup {map' : PropertyMap} (hmap : ∀ ptype, map.lookup ptype = entryOf arch props ptype)
    (h : mergeProperty arch map prop = .ok map') :
    ∀ ptype, map'.lookup ptype = entryOf arch (props ++ [prop]) ptype := by
  intro ptype
  unfold mergeProperty at h
  cases hclass : getPropertyClass arch prop.ptype with
  | none =>
    rw [hclass] at h
    cases h
  | some propertyClass =>
    rw [hclass] at h
    by_cases htype : ptype = prop.ptype
    · subst htype
      rw [hmap, entryOf, hclass, Option.map_some] at h
      rw [entryOf, values_concat, if_pos rfl, if_neg (by simp), hclass, Option.map_some, combineAll_concat]
      split_ifs at h with hnil
      · cases h
        rw [AList.lookup_insert, hnil]
        exact congrArg (fun v => some (v, propertyClass)) (combine_neutral ..).symm
      · cases h
        rw [AList.lookup_insert]
    · have hother : map'.lookup ptype = map.lookup ptype := by
        cases hentry : map.lookup prop.ptype with
        | none | some entry =>
          rw [hentry] at h
          cases h
          exact AList.lookup_insert_ne htype
      rw [hother, hmap, entryOf, entryOf, values_concat, if_neg (Ne.symm htype), List.append_nil]

/-- A run of the loop: the map has the entries of what has been gone over. -/
theorem foldlM_lookup (h : props.foldlM (mergeProperty arch) ∅ = .ok map) :
    ∀ ptype, map.lookup ptype = entryOf arch props ptype := by
  induction props using List.reverseRecOn generalizing map with
  | nil =>
    cases h
    intro ptype
    rfl
  | append_singleton props prop ih =>
    rw [List.foldlM_append] at h
    obtain ⟨before, hbefore, h⟩ := Traverse.bind_eq_ok.mp h
    obtain ⟨after, hafter, h⟩ := Traverse.bind_eq_ok.mp h
    cases h
    exact mergeProperty_lookup (ih hbefore) hafter

/-- Which properties stop the loop. -/
theorem foldlM_isOk_iff (map : PropertyMap) : (∃ map', props.foldlM (mergeProperty arch) map = .ok map') ↔
    ∀ prop ∈ props, (getPropertyClass arch prop.ptype).isSome := by
  induction props generalizing map with
  | nil => simp [pure, Except.pure]
  | cons prop props ih =>
    rw [List.forall_mem_cons, List.foldlM_cons]
    cases hclass : getPropertyClass arch prop.ptype with
    | none =>
      have hstep : mergeProperty arch map prop = .error prop.ptype := by
        unfold mergeProperty
        rw [hclass]
      rw [hstep]
      simp [bind, Except.bind]
    | some propertyClass =>
      obtain ⟨map', hstep⟩ : ∃ map', mergeProperty arch map prop = .ok map' := by
        unfold mergeProperty
        rw [hclass]
        cases map.lookup prop.ptype with
        | none => exact ⟨_, rfl⟩
        | some entry => exact ⟨_, rfl⟩
      rw [hstep, ← ih map']
      simp [bind, Except.bind]

theorem foldlM_error (map : PropertyMap) (h : props.foldlM (mergeProperty arch) map = .error ptype) :
    getPropertyClass arch ptype = none ∧ ∃ prop ∈ props, prop.ptype = ptype := by
  induction props generalizing map with
  | nil => cases h
  | cons prop props ih =>
    rw [List.foldlM_cons] at h
    cases hstep : mergeProperty arch map prop with
    | ok map' =>
      rw [hstep] at h
      obtain ⟨hclass, other, hother, htype⟩ := ih map' h
      exact ⟨hclass, other, List.mem_cons_of_mem _ hother, htype⟩
    | error unclassified =>
      rw [hstep] at h
      cases h
      unfold mergeProperty at hstep
      split at hstep
      · cases hstep
        exact ⟨by assumption, prop, List.mem_cons_self, rfl⟩
      · split at hstep <;> cases hstep

theorem values_ne_nil_iff : values props ptype ≠ [] ↔ ∃ prop ∈ props, prop.ptype = ptype := by
  unfold values
  simp

/-- The values that count for a type, with those of the command line. -/
def allValues (props : List GnuProperty) (isaNeeded : Option { isa : UInt32 // isa ≠ 0 }) (ptype : UInt32) :
    PropertyClass → List UInt32
  | .or => values props ptype ++ isaBits isaNeeded ptype
  | .and | .andOr => values props ptype

/-- What the map has for a type in the end. -/
def finalEntry (arch : Architecture) (props : List GnuProperty) (isaNeeded : Option { isa : UInt32 // isa ≠ 0 })
    (ptype : UInt32) : Option (UInt32 × PropertyClass) :=
  let propertyClass := (getPropertyClass arch ptype).getD .or
  let all := allValues props isaNeeded ptype propertyClass
  if all = [] then none else some (propertyClass.combineAll all, propertyClass)

/-- No architecture has another class for the bits of the command line. -/
theorem getPropertyClass_isa (arch : Architecture) :
    getPropertyClass arch x86Isa1Needed = some .or ∨ getPropertyClass arch x86Isa1Needed = none := by
  cases arch <;> decide

theorem mergeIsa_lookup (h : props.foldlM (mergeProperty arch) ∅ = .ok map) (ptype : UInt32) :
    (mergeIsa isaNeeded map).lookup ptype = finalEntry arch props isaNeeded ptype := by
  have hmap := foldlM_lookup h
  have hnone : getPropertyClass arch ptype = none → values props ptype = [] := by
    intro hclass
    by_contra hne
    obtain ⟨prop, hprop, rfl⟩ := values_ne_nil_iff.mp hne
    have hsome := (foldlM_isOk_iff ∅).mp ⟨map, h⟩ prop hprop
    rw [hclass] at hsome
    cases hsome
  by_cases hbits : isaBits isaNeeded ptype = []
  · have hsame : (mergeIsa isaNeeded map).lookup ptype = map.lookup ptype := by
      unfold isaBits at hbits
      cases isaNeeded with
      | none => rfl
      | some isa =>
        apply AList.lookup_insert_ne
        rintro rfl
        cases hbits
    rw [hsame, hmap, entryOf, finalEntry]
    cases hclass : getPropertyClass arch ptype with
    | none => simp [allValues, hbits, hnone hclass]
    | some propertyClass => cases propertyClass <;> simp [allValues, hbits] <;> rfl
  · -- The bits are combined with what the objects have, as if they were one more value.
    unfold isaBits at hbits
    split_ifs at hbits with htype
    · subst htype
      cases isaNeeded with
      | none => exact absurd rfl hbits
      | some isa =>
        have hbits' : isaBits (some isa) x86Isa1Needed = [isa.1] := rfl
        have hentry : finalEntry arch props (some isa) x86Isa1Needed =
            some (PropertyClass.or.combineAll (values props x86Isa1Needed ++ [isa.1]), .or) := by
          obtain hclass | hclass := getPropertyClass_isa arch <;> simp [finalEntry, allValues, hclass, hbits']
        rw [hentry, combineAll_concat, mergeIsa, AList.lookup_insert, hmap, entryOf]
        split_ifs with hnil
        · rw [hnil]
          rfl
        · obtain hclass | hclass := getPropertyClass_isa arch
          · rw [hclass]
            rfl
          · exact absurd (hnone hclass) hnil
    · exact absurd rfl hbits

theorem values_ne_nil_of_inAll (h : InAll objects ptype) : values objects.flatten ptype ≠ [] := by
  obtain ⟨hne, hall⟩ := h
  obtain ⟨props, hprops⟩ := List.exists_mem_of_ne_nil objects hne
  obtain ⟨prop, hprop, htype⟩ := hall props hprops
  exact values_ne_nil_iff.mpr ⟨prop, List.mem_flatten.mpr ⟨props, hprops, hprop⟩, htype⟩

theorem inAll_iff (h : values objects.flatten ptype ≠ []) :
    InAll objects ptype ↔ objects.all (·.any (·.ptype == ptype)) = true := by
  obtain ⟨prop, hprop, -⟩ := values_ne_nil_iff.mp h
  obtain ⟨props, hprops, -⟩ := List.mem_flatten.mp hprop
  have hne : objects ≠ [] := List.ne_nil_of_mem hprops
  simp [InAll, hne]

/-- Which entries of a class are put out. -/
def Keeps (objects : List (List GnuProperty)) (prop : GnuProperty) : PropertyClass → Prop
  | .or => prop.data ≠ 0
  | .and => objects.all (·.any (·.ptype == prop.ptype)) = true ∧ prop.data ≠ 0
  | .andOr => objects.all (·.any (·.ptype == prop.ptype)) = true

theorem outputProperty_eq_some {entry : (_ : UInt32) × (UInt32 × PropertyClass)} :
    outputProperty objects entry = some prop ↔
      entry = ⟨prop.ptype, prop.data, entry.2.2⟩ ∧ Keeps objects prop entry.2.2 := by
  obtain ⟨ptype, data, propertyClass⟩ := entry
  unfold outputProperty Keeps
  constructor
  · intro h
    obtain ⟨hkeep, hprop⟩ := Option.ite_none_right_eq_some.mp h
    cases hprop
    cases propertyClass <;> simp_all
  · rintro ⟨h, hkeep⟩
    cases propertyClass <;> simp_all

/-- An entry that is put out is a property as it should be, and the other way round. -/
theorem exists_finalEntry_iff :
    (∃ propertyClass, finalEntry arch objects.flatten isaNeeded prop.ptype = some (prop.data, propertyClass) ∧
      outputProperty objects ⟨prop.ptype, prop.data, propertyClass⟩ = some prop) ↔
      Merged arch objects isaNeeded prop := by
  have hentry : ∀ (propertyClass : PropertyClass) (all : List UInt32),
      (∃ c, (if all = [] then none else some (propertyClass.combineAll all, propertyClass)) = some (prop.data, c) ∧
        Keeps objects prop c) ↔
      all ≠ [] ∧ prop.data = propertyClass.combineAll all ∧ Keeps objects prop propertyClass := by
    intro propertyClass all
    constructor
    · rintro ⟨c, h, hkeep⟩
      obtain ⟨hne, h⟩ := Option.ite_none_left_eq_some.mp h
      obtain ⟨hdata, rfl⟩ := Prod.mk.inj (Option.some.inj h)
      exact ⟨hne, hdata.symm, hkeep⟩
    · rintro ⟨hne, hdata, hkeep⟩
      exact ⟨propertyClass, by rw [if_neg hne, ← hdata], hkeep⟩
  have hor : ∀ all : List UInt32, (all ≠ [] ∧ prop.data = PropertyClass.or.combineAll all ∧ prop.data ≠ 0) ↔
      prop.data = PropertyClass.or.combineAll all ∧ prop.data ≠ 0 := by
    intro all
    refine and_iff_right_of_imp ?_
    rintro ⟨hdata, hne⟩ rfl
    exact hne hdata
  simp only [outputProperty_eq_some, true_and, finalEntry, hentry]
  unfold Merged Keeps allValues
  cases hclass : getPropertyClass arch prop.ptype with
  | none => exact hor _
  | some propertyClass =>
    -- An object has the property where all have it, and then the two ways to say that all have it agree.
    cases propertyClass with
    | or => exact hor _
    | and =>
      constructor
      · rintro ⟨hnil, hdata, hall, hne⟩
        exact ⟨(inAll_iff hnil).mpr hall, hdata, hne⟩
      · rintro ⟨hall, hdata, hne⟩
        have hnil := values_ne_nil_of_inAll hall
        exact ⟨hnil, hdata, (inAll_iff hnil).mp hall, hne⟩
    | andOr =>
      constructor
      · rintro ⟨hnil, hdata, hall⟩
        exact ⟨(inAll_iff hnil).mpr hall, hdata⟩
      · rintro ⟨hall, hdata⟩
        have hnil := values_ne_nil_of_inAll hall
        exact ⟨hnil, hdata, (inAll_iff hnil).mp hall⟩

theorem mergeGnuPropertyNotes_eq_ok (h : mergeGnuPropertyNotes arch objects isaNeeded = .ok props) :
    ∃ map, objects.flatten.foldlM (mergeProperty arch) ∅ = .ok map ∧
      props = (SortedTable.sort (·.1.toNat) (mergeIsa isaNeeded map).entries).filterMap (outputProperty objects) := by
  unfold mergeGnuPropertyNotes at h
  cases hmap : objects.flatten.foldlM (mergeProperty arch) ∅ with
  | error ptype =>
    rw [hmap] at h
    cases h
  | ok map =>
    rw [hmap] at h
    cases h
    exact ⟨map, rfl, rfl⟩

theorem mem_merged_iff (h : mergeGnuPropertyNotes arch objects isaNeeded = .ok props) (prop : GnuProperty) :
    prop ∈ props ↔ Merged arch objects isaNeeded prop := by
  obtain ⟨map, hmap, rfl⟩ := mergeGnuPropertyNotes_eq_ok h
  rw [List.mem_filterMap, ← exists_finalEntry_iff, ← mergeIsa_lookup hmap]
  constructor
  · rintro ⟨entry, hentry, hout⟩
    have heq := (outputProperty_eq_some.mp hout).1
    rw [(SortedTable.perm_sort _ _).mem_iff, heq] at hentry
    rw [heq] at hout
    exact ⟨entry.2.2, AList.mem_lookup_iff.mpr hentry, hout⟩
  · rintro ⟨propertyClass, hentry, hout⟩
    exact ⟨_, (SortedTable.perm_sort _ _).mem_iff.mpr (AList.mem_lookup_iff.mp hentry), hout⟩

/-- A map has each type once, so that the sort puts the types in an order without repetitions. -/
theorem pairwise_merged (h : mergeGnuPropertyNotes arch objects isaNeeded = .ok props) :
    props.Pairwise (·.ptype < ·.ptype) := by
  obtain ⟨map, -, rfl⟩ := mergeGnuPropertyNotes_eq_ok h
  have hkeys : (SortedTable.sort (·.1.toNat) (mergeIsa isaNeeded map).entries).Pairwise (fun a b => a.1 ≠ b.1) := by
    have hnodup := (mergeIsa isaNeeded map).nodupKeys
    unfold List.NodupKeys List.Nodup List.keys at hnodup
    rw [List.pairwise_map] at hnodup
    exact (SortedTable.perm_sort _ _).symm.pairwise hnodup Ne.symm
  have hsorted := SortedTable.sorted_sort (fun entry : (_ : UInt32) × (UInt32 × PropertyClass) => entry.1.toNat)
    (mergeIsa isaNeeded map).entries
  refine List.Pairwise.filterMap _ (fun a a' hlt b hb b' hb' => ?_) (hsorted.and hkeys)
  obtain ⟨hle, hne⟩ := hlt
  rw [(outputProperty_eq_some.mp hb).1, (outputProperty_eq_some.mp hb').1] at hle hne
  exact lt_of_le_of_ne hle (fun heq => hne (UInt32.toNat_inj.mp heq))

theorem merged_perm (hperm : objects.Perm objects') (prop : GnuProperty) :
    Merged arch objects isaNeeded prop ↔ Merged arch objects' isaNeeded prop := by
  have hvalues : (values objects.flatten prop.ptype).Perm (values objects'.flatten prop.ptype) :=
    (hperm.flatten.filter _).map _
  have hall : InAll objects prop.ptype ↔ InAll objects' prop.ptype := by
    unfold InAll
    rw [← List.length_pos_iff, ← List.length_pos_iff, hperm.length_eq]
    simp only [hperm.mem_iff]
  unfold Merged
  rw [hall, combineAll_perm hvalues, combineAll_perm hvalues, combineAll_perm (hvalues.append_right _)]

/-- The order of the objects only decides which unclassified type an error names. -/
theorem mergeGnuPropertyNotes_perm (hperm : objects.Perm objects') :
    (mergeGnuPropertyNotes arch objects isaNeeded).toOption = (mergeGnuPropertyNotes arch objects' isaNeeded).toOption := by
  have hok : ∀ objects : List (List GnuProperty), (∃ props, mergeGnuPropertyNotes arch objects isaNeeded = .ok props) ↔
      ∀ prop ∈ objects.flatten, (getPropertyClass arch prop.ptype).isSome := by
    intro objects
    rw [← foldlM_isOk_iff ∅]
    unfold mergeGnuPropertyNotes
    cases objects.flatten.foldlM (mergeProperty arch) ∅ <;> simp [Except.map]
  have hsame := hok objects
  simp only [hperm.flatten.mem_iff] at hsame
  rw [← hok objects'] at hsame
  cases h : mergeGnuPropertyNotes arch objects isaNeeded with
  | ok props =>
    obtain ⟨props', h'⟩ := hsame.mp ⟨props, h⟩
    rw [h']
    refine congrArg some (List.Perm.eq_of_pairwise ?_ (pairwise_merged h)
      (pairwise_merged h') ?_)
    · intro a b _ _ hab hba
      exact absurd hba (UInt32.lt_asymm hab)
    · have hnodup : ∀ {props : List GnuProperty}, props.Pairwise (·.ptype < ·.ptype) → props.Nodup := by
        intro props hprops
        apply hprops.imp
        rintro a b hlt rfl
        exact UInt32.lt_irrefl _ hlt
      rw [List.perm_ext_iff_of_nodup (hnodup (pairwise_merged h)) (hnodup (pairwise_merged h'))]
      intro prop
      rw [mem_merged_iff h, mem_merged_iff h', merged_perm hperm]
  | error ptype =>
    cases h' : mergeGnuPropertyNotes arch objects' isaNeeded with
    | error ptype' => rfl
    | ok props' =>
      obtain ⟨props, hprops⟩ := hsame.mpr ⟨props', h'⟩
      rw [h] at hprops
      cases hprops

/-! ## Reading the note back -/

theorem length_bytes (prop : GnuProperty) : (NoteProperty.bytes prop).length = 16 := by
  unfold NoteProperty.bytes
  rfl

theorem length_flatMap_bytes (props : List GnuProperty) :
    (props.flatMap NoteProperty.bytes).length = props.length * 16 := by
  induction props with
  | nil => rfl
  | cons prop props ih =>
    rw [List.flatMap_cons, List.length_append, length_bytes, ih, List.length_cons]
    omega

theorem writeProperties_eq {rest : List UInt8} (h : rest.length = props.length * 16) :
    writeProperties props rest = .ok (props.flatMap NoteProperty.bytes) := by
  induction props generalizing rest with
  | nil =>
    obtain rfl := List.length_eq_zero_iff.mp h
    rfl
  | cons prop props ih =>
    rw [List.length_cons] at h
    rw [writeProperties, if_neg (by omega), ih (by rw [List.length_drop]; omega)]
    rfl

theorem toNat_mod (v : UInt32) : v.toNat % 256 ^ 4 = v.toNat := Nat.mod_eq_of_lt v.toNat_lt

theorem gnuProperties_bytes {fuel : Nat} (hfuel : props.length ≤ fuel) :
    gnuProperties fuel (props.flatMap NoteProperty.bytes) =
      some (props.map fun prop => (prop.ptype, LittleEndian.leBytes 4 prop.data.toNat)) := by
  induction props generalizing fuel with
  | nil => cases fuel <;> rfl
  | cons prop props ih =>
    obtain ⟨fuel, rfl⟩ : ∃ f, fuel = f + 1 := ⟨fuel - 1, by rw [List.length_cons] at hfuel; omega⟩
    have hlen := length_bytes prop
    obtain ⟨byte, bytes, hcons⟩ : ∃ byte bytes, (prop :: props).flatMap NoteProperty.bytes = byte :: bytes := by
      apply List.exists_cons_of_length_pos
      rw [length_flatMap_bytes]
      exact Nat.mul_pos (Nat.succ_pos _) (by decide)
    have htype : Records.read (NoteProperty.bytes prop ++ props.flatMap NoteProperty.bytes) 0 4 =
        some (prop.ptype.toNat % 256 ^ 4) := Records.read_encode (k := 0) rfl _
    have hsize : Records.read (NoteProperty.bytes prop ++ props.flatMap NoteProperty.bytes) 4 4 = some 4 :=
      Records.read_encode (v := 4) (k := 1) rfl _
    have hdata : (NoteProperty.bytes prop ++ props.flatMap NoteProperty.bytes).drop 8 =
        LittleEndian.leBytes 4 prop.data.toNat ++
          (LittleEndian.leBytes 4 0 ++ props.flatMap NoteProperty.bytes) := rfl
    rw [hcons, gnuProperties, ← hcons, List.flatMap_cons, htype, hsize, Option.bind_some, Option.bind_some, if_neg,
      List.drop_left' hlen, ih (by rw [List.length_cons] at hfuel; omega), hdata,
      List.take_left' (LittleEndian.length_leBytes 4 _), toNat_mod, UInt32.ofNat_toNat]
    · rfl
    · rw [List.length_append, hlen]
      omega
    · exact List.cons_ne_nil byte bytes

/-- The note for properties. -/
def noteBytes (props : List GnuProperty) : List UInt8 :=
  Records.encode [(4, 4), (4, props.length * 16 % 2 ^ 32), (4, 5)] ++ (gnuNoteName ++ props.flatMap NoteProperty.bytes)

theorem length_noteBytes (props : List GnuProperty) : (noteBytes props).length = 16 + props.length * 16 := by
  rw [noteBytes, List.length_append, List.length_append, Records.length_encode, length_flatMap_bytes, ← Nat.add_assoc]
  rfl

theorem properties_of_bytes (props : List GnuProperty) :
    ((props.map fun prop => (prop.ptype, LittleEndian.leBytes 4 prop.data.toNat)).filter (·.2.length = 4)).map
      (fun p => (⟨p.1, UInt32.ofNat (LittleEndian.leNat p.2)⟩ : GnuProperty)) = props := by
  have hsame : ∀ prop ∈ props, GnuProperty.mk prop.ptype
      (UInt32.ofNat (LittleEndian.leNat (LittleEndian.leBytes 4 prop.data.toNat))) = id prop := by
    intro prop _
    rw [Records.leNat_leBytes, toNat_mod, UInt32.ofNat_toNat, id_eq]
  rw [List.filter_eq_self.mpr (by simp [LittleEndian.length_leBytes]), List.map_map]
  exact (List.map_congr_left hsame).trans (List.map_id _)

theorem processGnuNoteSection_noteBytes (hcount : props.length * 16 < 2 ^ 32) :
    processGnuNoteSection (noteBytes props) = some props := by
  have hlen := length_noteBytes props
  have hentries := length_flatMap_bytes props
  obtain ⟨byte, bytes, hcons⟩ := List.exists_cons_of_length_pos (l := noteBytes props) (by omega)
  have hname : Records.read (noteBytes props) 0 4 = some 4 := Records.read_encode (v := 4) (k := 0) rfl _
  have hdesc : Records.read (noteBytes props) 4 4 = some (props.length * 16 % 2 ^ 32 % 256 ^ 4) :=
    Records.read_encode (k := 1) rfl _
  have htype : Records.read (noteBytes props) 8 4 = some 5 := Records.read_encode (v := 5) (k := 2) rfl _
  have htake : ((noteBytes props).drop 12).take 4 = gnuNoteName := rfl
  have hdrop : (noteBytes props).drop 16 = props.flatMap NoteProperty.bytes := rfl
  rw [Nat.mod_eq_of_lt hcount, Nat.mod_eq_of_lt (by omega)] at hdesc
  have hfuel : (noteBytes props).length = bytes.length + 1 := by rw [hcons, List.length_cons]
  rw [processGnuNoteSection, hfuel, hcons, processNotes, ← hcons, hname, hdesc, htype]
  simp only [Option.bind_some]
  rw [if_neg (by omega), htake, if_neg (by decide), hdrop, List.take_of_length_le (by omega),
    gnuProperties_bytes (Nat.le_mul_of_pos_right _ (by decide)), Option.bind_some, properties_of_bytes,
    List.drop_eq_nil_of_le (by omega)]
  · cases bytes.length <;> simp [processNotes]
  · exact List.cons_ne_nil byte bytes

/-- The note takes what is reserved for it, and a reader gets the properties from it. -/
theorem writeGnuPropertyNotes_spec {buffer : List UInt8} (hcount : props.length * 16 < 2 ^ 32)
    (hbuffer : buffer.length = gnuPropertyNotesSectionSize props) :
    ∃ bytes, writeGnuPropertyNotes props buffer = .ok bytes ∧ bytes.length = buffer.length ∧
      processGnuNoteSection bytes = some props := by
  by_cases hnil : props = []
  · subst hnil
    obtain rfl := List.length_eq_zero_iff.mp hbuffer
    exact ⟨[], rfl, rfl, rfl⟩
  · rw [gnuPropertyNotesSectionSize, if_neg hnil] at hbuffer
    refine ⟨noteBytes props, ?_, ?_, processGnuNoteSection_noteBytes hcount⟩
    · unfold writeGnuPropertyNotes
      rw [if_neg hnil, if_neg (by omega), if_neg (by omega), writeProperties_eq (by rw [List.length_drop]; omega)]
      rfl
    · rw [length_noteBytes, hbuffer]

/-- The types with a class lie in two ranges. -/
theorem type_of_class {propertyClass : PropertyClass} (h : getPropertyClass arch ptype = some propertyClass) :
    ptype.toNat ∈ Finset.Icc 0xb0000000 0xb000ffff ∪ Finset.Icc 0xc0000000 0xc0017fff := by
  rw [Finset.mem_union, Finset.mem_Icc, Finset.mem_Icc]
  cases arch with
  | x86_64 =>
    unfold getPropertyClass at h
    simp only [UInt32.le_iff_toNat_le] at h
    split_ifs at h with h1 h2 h3 h4 h5
    · exact .inr ⟨le_trans (by decide) h1.1, le_trans h1.2 (by decide)⟩
    · exact .inr ⟨le_trans (by decide) h2.1, le_trans h2.2 (by decide)⟩
    · exact .inr ⟨le_trans (by decide) h3.1, le_trans h3.2 (by decide)⟩
    · exact .inl ⟨le_trans (by decide) h4.1, le_trans h4.2 (by decide)⟩
    · exact .inl ⟨le_trans (by decide) h5.1, le_trans h5.2 (by decide)⟩
  | aarch64 =>
    unfold getPropertyClass at h
    dsimp only at h
    split_ifs at h with htype
    rw [htype]
    decide
  | riscV64 => cases h
  | loongArch64 => cases h
  | ppc64 => cases h

theorem merged_type (h : Merged arch objects isaNeeded prop)
    (hok : ∀ prop ∈ objects.flatten, (getPropertyClass arch prop.ptype).isSome) :
    prop.ptype.toNat ∈ Finset.Icc 0xb0000000 0xb000ffff ∪ Finset.Icc 0xc0000000 0xc0017fff := by
  unfold Merged at h
  cases hclass : getPropertyClass arch prop.ptype with
  | none =>
    rw [hclass] at h
    obtain ⟨hdata, hne⟩ := h
    have hvalues : values objects.flatten prop.ptype = [] := by
      by_contra hsome
      obtain ⟨other, hother, htype⟩ := values_ne_nil_iff.mp hsome
      have := hok other hother
      rw [htype, hclass] at this
      cases this
    have hisa : prop.ptype = x86Isa1Needed := by
      by_contra hother
      rw [hvalues, isaBits, if_neg hother] at hdata
      exact hne hdata
    rw [hisa, Finset.mem_union, Finset.mem_Icc, Finset.mem_Icc]
    decide
  | some propertyClass => exact type_of_class hclass

theorem merged_count (h : mergeGnuPropertyNotes arch objects isaNeeded = .ok props) :
    props.length * 16 < 2 ^ 32 := by
  obtain ⟨map, hmap, -⟩ := mergeGnuPropertyNotes_eq_ok h
  have hnodup : (props.map (·.ptype.toNat)).Nodup := by
    rw [List.Nodup, List.pairwise_map]
    exact (pairwise_merged h).imp fun hlt => Nat.ne_of_lt (UInt32.lt_iff_toNat_lt.mp hlt)
  have hsub : (props.map (·.ptype.toNat)).toFinset ⊆
      Finset.Icc 0xb0000000 0xb000ffff ∪ Finset.Icc 0xc0000000 0xc0017fff := by
    intro ptype hptype
    rw [List.mem_toFinset, List.mem_map] at hptype
    obtain ⟨prop, hprop, rfl⟩ := hptype
    exact merged_type ((mem_merged_iff h prop).mp hprop) ((foldlM_isOk_iff ∅).mp ⟨map, hmap⟩)
  have hcard := (Finset.card_le_card hsub).trans (Finset.card_union_le _ _)
  rw [List.toFinset_card_of_nodup hnodup, List.length_map, Nat.card_Icc, Nat.card_Icc] at hcard
  omega

end

end Reld.GnuProperties
