import Reld.MachO.Fields

/-!
# `MachO.Denotes` — what relocations denote, and what they should

What is to be denoted is the definition of the target with an addend, the stub of an imported function, or a slot that
dyld fills. What is denoted is the one value of the symbol that all of its references decide on together, without the
addend.
-/

variable {layout : SymbolLayout}

namespace Reld.MachO

variable {n : Nat}

/-! ## What is to be denoted -/

namespace LinkedObjects

/-- The symbol of a library that a relocation refers to. -/
def importOf (link : LinkedObjects n) (object : ObjectLayout n) (rel : RelocationInfo) : Option (Fin n) :=
  if rel.rExtern then (link.symbolOf object rel).filter link.isDynamicLibrary else none

/-- A target in an object: a symbol, or with `r_extern = 0` a section by its number. A pointer to that has an address of
the object in place. -/
def localTarget (link : LinkedObjects n) (object : ObjectLayout n) (rel : RelocationInfo) : Option (BitVec 64) :=
  if rel.rExtern then
    ((link.symbolOf object rel).filter fun s => !link.isDynamicLibrary s).map fun s => BitVec.ofNat 64 (link.rawValue s)
  else if rel.rSymbolnum = 0 then some 0
  else (object.sections[rel.rSymbolnum.toNat - 1]?).bind fun sec => sec.address.map fun address =>
    if rel.rType = .unsigned then address - sec.addr else address

/-- The definition of the target, where `loaded` has the addresses in the libraries, which dyld chooses. -/
def target (link : LinkedObjects n) (object : ObjectLayout n) (rel : RelocationInfo) (loaded : Fin n → BitVec 64) :
    Option (BitVec 64) :=
  match link.importOf object rel with
  | some s => some (loaded s)
  | none   => link.localTarget object rel

/-- dyld writes the address of the symbol to that slot. -/
def HoldsSymbol (layout : SymbolLayout) (slot : BitVec 64) (s : Fin n) : Prop :=
  ∃ e ∈ layout.imported, e.symbolId = s.val ∧ BitVec.ofNat 64 e.gotAddress = slot

/-- The addend: that of a preceding `ARM64_RELOC_ADDEND`, or what is stored in place. -/
def addend (preceding : Option RelocationInfo) (rel : RelocationInfo) (dest : BitVec 64) : BitVec 64 :=
  match preceding.filter fun r => r.rType = .addend with
  | some r => r.rSymbolnum.signExtend 64
  | none   => rel.stored dest

/-- The relocation in front of the `i`-th one. -/
def precedingOf (sec : LoadedSection n) (i : Nat) : Option RelocationInfo :=
  if i = 0 then none else (sec.relocations[i - 1]?).map (·.1)

/-- What the word at the place of the `i`-th relocation has to be like. -/
def Denotes (link : LinkedObjects n) (layout : SymbolLayout) (sec : LoadedSection n) (i : Nat) (rel : RelocationInfo)
    (dest word : BitVec 64) : Prop :=
  match rel.rType, link.importOf sec.object rel with
  | .branch26, some s =>
    ∃ stub, (layout.symbolResolution s).bind (·.pltAddress) = some stub ∧
      rel.denoted (place sec rel) word = BitVec.ofNat 64 stub
  | .gotLoadPage21, _ | .gotLoadPageoff12, _ =>
    ∃ s, rel.rExtern = true ∧ link.symbolOf sec.object rel = some s ∧
      ∃ slot, HoldsSymbol layout slot s ∧ rel.denoted (place sec rel) word = rel.part slot
  | _, _ =>
    ∀ loaded, ∃ t, link.target sec.object rel loaded = some t ∧
      rel.denoted (place sec rel) word = rel.part (t + addend (precedingOf sec i) rel dest)

/-! ## The one value of a symbol -/

def refersTo (link : LinkedObjects n) (s : Fin n) (r : ObjectLayout n × RelocationInfo) : Bool :=
  r.2.rExtern && decide (link.symbolOf r.1 r.2 = some s)

/-- An import that is called anywhere. -/
def calls (link : LinkedObjects n) (s : Fin n) : Bool :=
  (link.initial.flags s).needsPlt ||
    link.relocations.any fun r => link.refersTo s r && (link.isDynamicLibrary s && r.2.rType == .branch26)

/-- An import that is referred to, or any symbol that is loaded through `__got`. -/
def loadsSlot (link : LinkedObjects n) (s : Fin n) : Bool :=
  (link.initial.flags s).needsGot || link.relocations.any fun r => link.refersTo s r &&
    (link.isDynamicLibrary s || r.2.rType == .gotLoadPage21 || r.2.rType == .gotLoadPageoff12)

/-- A symbol that is referred to by more than offsets in its page. -/
def usesAddress (link : LinkedObjects n) (s : Fin n) : Bool :=
  (link.initial.flags s).hasResolution || link.relocations.any fun r => link.refersTo s r &&
    (r.2.rType == .unsigned || r.2.rType == .branch26 || r.2.rType == .page21)

/-- The definitions that get a stub, and those that get a slot. -/
def stubUsers (link : LinkedObjects n) : List Bool :=
  (List.finRange n).map fun s => decide (link.definition s = s) && link.calls s

def slotUsers (link : LinkedObjects n) : List Bool :=
  (List.finRange n).map fun s => decide (link.definition s = s) && (link.calls s || link.loadsSlot s)

def stubAddress (link : LinkedObjects n) (s : Fin n) : Nat :=
  link.start.plt + pltEntrySize * Numbering.rank link.stubUsers s.val

def slotAddress (link : LinkedObjects n) (s : Fin n) : Nat :=
  link.start.got + gotEntrySize * Numbering.rank link.slotUsers s.val

/-- What a symbol stands for in all relocations: its stub, its slot, its definition or the start of its section. -/
def valueOf (link : LinkedObjects n) (object : ObjectLayout n) (sym : ObjectSymbol n) : Option (BitVec 64) :=
  let s := link.definition sym.id
  if link.calls s then some (BitVec.ofNat 64 (link.stubAddress s))
  else if link.loadsSlot s then some (BitVec.ofNat 64 (link.slotAddress s))
  else if link.usesAddress s then some (BitVec.ofNat 64 (link.rawValue s))
  else sym.sectionIndex.bind fun i => (object.sections[i]?).bind (·.address)

end LinkedObjects

/-! ## When the value serves -/

namespace LinkedObjects

/-- **What decides.** The value of the symbol has to be what this reference asks for, with the addend that is stored in
place: as far as the field keeps the address, and but for the bits that an immediate has in common with the distance. -/
def ValueServes (link : LinkedObjects n) (sec : LoadedSection n) (rel : RelocationInfo) (dest : BitVec 64) : Prop :=
  let place := place sec rel
  let stored := rel.stored dest
  ∃ value, (sec.object.symbols[rel.rSymbolnum.toNat]?).bind (link.valueOf sec.object) = some value ∧
    let distance := rel.distance place value
    match rel.rType, link.importOf sec.object rel with
    | .branch26, some s =>
      place + distance + stored = BitVec.ofNat 64 (link.stubAddress s) + (stored &&& distance)
    | .gotLoadPage21, some s =>
      page place + distance + stored = page (BitVec.ofNat 64 (link.slotAddress s)) + (stored &&& distance)
    | .gotLoadPageoff12, some s => scaledOffset dest value = BitVec.ofNat 64 (link.slotAddress s) &&& pageMask4KB
    | .unsigned, none =>
      ∃ t, link.localTarget sec.object rel = some t ∧ rel.pointerTo place value = t + stored
    | .branch26, none =>
      ∃ t, link.localTarget sec.object rel = some t ∧ place + distance = t + (stored &&& distance)
    | .page21, none =>
      ∃ t, link.localTarget sec.object rel = some t ∧ page place + distance = page t + (stored &&& distance)
    | .pageoff12, none =>
      ∃ t, link.localTarget sec.object rel = some t ∧ scaledOffset dest value = (t + stored) &&& pageMask4KB
    | _, _ => False

end LinkedObjects

/-! ## The references of a link -/

namespace LinkedObjects

variable {link : LinkedObjects n} {references references' : References n} {r : ObjectLayout n × RelocationInfo}
  {p : ValueFlags → Bool} {s : Fin n}

/-- Whether a reference adds flags with a property to those of a symbol. -/
def adds (link : LinkedObjects n) (p : ValueFlags → Bool) (s : Fin n) (r : ObjectLayout n × RelocationInfo) : Bool :=
  link.refersTo s r && (relocationFromRaw r.2).any fun info => p (flagsToAdd info.kind r.2.rType (link.isDynamicLibrary s))

/-- What holds of the references at any time: libraries were asked for all of their symbols with a resolution. -/
def Requested (link : LinkedObjects n) (references : References n) : Prop :=
  ∀ s, s ∈ references.imported ↔ link.isDynamicLibrary s = true ∧ (references.flags s).hasResolution = true

theorem hasResolution_union (f g : ValueFlags) : (f.union g).hasResolution = (f.hasResolution || g.hasResolution) := by
  unfold ValueFlags.hasResolution
  rw [Bool.eq_iff_iff]
  simp only [List.any_eq_true, ValueFlags.contains_union, Bool.or_eq_true, and_or_left, exists_or]

theorem processRelocation_cases (h : link.processRelocation references r = some references') :
    (r.2.rExtern = false ∧ references' = references) ∨
      ∃ t info, r.2.rExtern = true ∧ link.symbolOf r.1 r.2 = some t ∧ relocationFromRaw r.2 = some info ∧
        references' = link.addFlags references t (flagsToAdd info.kind r.2.rType (link.isDynamicLibrary t)) := by
  unfold processRelocation at h
  cases hexternal : r.2.rExtern with
  | false =>
    rw [hexternal, if_neg (by decide)] at h
    exact .inl ⟨rfl, (Option.some.inj h).symm⟩
  | true =>
    rw [hexternal, if_pos rfl, Option.bind_eq_some_iff] at h
    obtain ⟨t, ht, h⟩ := h
    obtain ⟨info, hinfo, rfl⟩ := Option.map_eq_some_iff.1 h
    exact .inr ⟨t, info, rfl, ht, hinfo, rfl⟩

theorem processRelocation_flags (hp : ∀ f g : ValueFlags, p (f.union g) = (p f || p g))
    (h : link.processRelocation references r = some references') (s : Fin n) :
    p (references'.flags s) = (p (references.flags s) || link.adds p s r) := by
  unfold adds refersTo
  obtain ⟨hexternal, rfl⟩ | ⟨t, info, hexternal, ht, hinfo, rfl⟩ := processRelocation_cases h
  · rw [hexternal, Bool.false_and, Bool.false_and, Bool.or_false]
  · rw [hexternal, ht, hinfo, Bool.true_and, Option.any_some]
    change p (Function.update references.flags t _ s) = _
    by_cases hs : s = t
    · subst hs
      rw [Function.update_self, hp, decide_eq_true rfl, Bool.true_and]
    · rw [Function.update_of_ne hs, decide_eq_false fun h => hs (Option.some.inj h).symm, Bool.false_and, Bool.or_false]

/-- A reference to a symbol of a library asks for a slot. -/
theorem flagsToAdd_import (kind : RelocationKind) (rType : RelocationType) :
    (flagsToAdd kind rType true).hasResolution = true := by
  have hgot : (flagsToAdd kind rType true).contains .got = true := by
    unfold flagsToAdd
    rw [if_pos rfl]
    split <;> simp
  exact List.any_eq_true.2 ⟨.got, by decide, hgot⟩

theorem processRelocation_requested (hrequested : link.Requested references)
    (h : link.processRelocation references r = some references') : link.Requested references' := by
  obtain ⟨-, rfl⟩ | ⟨t, info, -, -, -, rfl⟩ := processRelocation_cases h
  · exact hrequested
  · intro s
    have hflags : ((link.addFlags references t (flagsToAdd info.kind r.2.rType (link.isDynamicLibrary t))).flags s) =
      Function.update references.flags t ((references.flags t).union
        (flagsToAdd info.kind r.2.rType (link.isDynamicLibrary t))) s := rfl
    unfold addFlags
    dsimp only
    by_cases hs : s = t
    · subst hs
      rw [Function.update_self, hasResolution_union]
      cases hdynamic : link.isDynamicLibrary s with
      | false =>
        rw [Bool.and_false, if_neg (by decide), hrequested, hdynamic]
        simp
      | true =>
        rw [flagsToAdd_import, Bool.or_true, Bool.and_true]
        cases hresolved : (references.flags s).hasResolution with
        | false => simp
        | true  =>
          rw [Bool.not_true, if_neg (by decide), hrequested, hdynamic, hresolved]
    · rw [Function.update_of_ne hs, ← hrequested]
      split
      · rw [List.mem_append, List.mem_singleton, or_iff_left hs]
      · rfl

/-- **The flags of all references.** A property of them that some flag decides is there from the start, or by one. -/
theorem references_flags (hp : ∀ f g : ValueFlags, p (f.union g) = (p f || p g)) (h : link.references = some references)
    (s : Fin n) : p (references.flags s) = (p (link.initial.flags s) || link.relocations.any (link.adds p s)) := by
  refine Traverse.foldlM_induct (I := fun done (references : References n) =>
    p (references.flags s) = (p (link.initial.flags s) || done.any (link.adds p s))) [] ?_ (Bool.or_false _).symm h
  intro done r references next _ hreferences hnext
  rw [processRelocation_flags hp hnext, hreferences, List.any_append, List.any_cons, List.any_nil, Bool.or_false,
    Bool.or_assoc]

theorem references_requested (h : link.references = some references) : link.Requested references :=
  Traverse.foldlM_keeps (fun _ _ _ _ hrequested hnext => processRelocation_requested hrequested hnext)
    link.initial_imported h

/-- A reference that is not accepted ends the link. -/
theorem references_accepted (h : link.references = some references) (hr : r ∈ link.relocations)
    (hexternal : r.2.rExtern = true) : (relocationFromRaw r.2).isSome = true := by
  refine Traverse.foldlM_induct (I := fun done _ => r ∈ done → (relocationFromRaw r.2).isSome = true) [] ?_
    (fun hr => absurd hr List.not_mem_nil) h hr
  intro done r' references next _ hdone hnext hr
  obtain hr | hr := List.mem_append.1 hr
  · exact hdone hr
  · obtain rfl := List.mem_singleton.1 hr
    obtain ⟨hfalse, -⟩ | ⟨-, info, -, -, hinfo, -⟩ := processRelocation_cases hnext
    · rw [hexternal] at hfalse
      cases hfalse
    · rw [hinfo]
      rfl

/-- The uses of a symbol, by the type of the reference instead of the flags that it adds. -/
theorem any_adds (h : link.references = some references) (s : Fin n) {q : RelocationType → Bool}
    (hq : ∀ rel info, relocationFromRaw rel = some info →
      p (flagsToAdd info.kind rel.rType (link.isDynamicLibrary s)) = q rel.rType) :
    link.relocations.any (link.adds p s) = link.relocations.any fun r => link.refersTo s r && q r.2.rType := by
  rw [Bool.eq_iff_iff, List.any_eq_true, List.any_eq_true]
  refine exists_congr fun r => and_congr_right fun hr => ?_
  unfold adds
  cases hrefers : link.refersTo s r with
  | false => rw [Bool.false_and, Bool.false_and]
  | true  =>
    obtain ⟨info, hinfo⟩ := Option.isSome_iff_exists.1
      (references_accepted h hr (Bool.and_eq_true_iff.1 hrefers).1)
    rw [hinfo, Option.any_some, hq r.2 info hinfo]

/-- The flags of an accepted reference, by its type. -/
theorem flagsToAdd_accepted {rel : RelocationInfo} {info : RelocationKindInfo} (h : relocationFromRaw rel = some info)
    (isDynamicLibrary : Bool) :
    let flags := flagsToAdd info.kind rel.rType isDynamicLibrary
    flags.needsPlt = (isDynamicLibrary && rel.rType == .branch26) ∧
      flags.needsGot = (isDynamicLibrary || rel.rType == .gotLoadPage21 || rel.rType == .gotLoadPageoff12) ∧
        flags.hasResolution = ((isDynamicLibrary || rel.rType == .gotLoadPage21 || rel.rType == .gotLoadPageoff12) ||
          (rel.rType == .unsigned || rel.rType == .branch26 || rel.rType == .page21)) := by
  cases htype : rel.rType <;> simp only [relocationFromRaw, htype, Option.some_inj, reduceCtorEq] at h <;> subst h <;>
    cases rel.rPcrel <;> cases isDynamicLibrary <;> exact ⟨rfl, rfl, rfl⟩

theorem needsPlt_references (h : link.references = some references) (s : Fin n) :
    (references.flags s).needsPlt = link.calls s := by
  rw [references_flags (p := ValueFlags.needsPlt) (fun _ _ => rfl) h,
    any_adds (q := fun t => link.isDynamicLibrary s && t == .branch26) h]
  · rfl
  · exact fun rel info hinfo => (flagsToAdd_accepted hinfo _).1

theorem needsGot_references (h : link.references = some references) (s : Fin n) :
    (references.flags s).needsGot = link.loadsSlot s := by
  rw [references_flags (p := ValueFlags.needsGot) (fun _ _ => rfl) h,
    any_adds (q := fun t => link.isDynamicLibrary s || t == .gotLoadPage21 || t == .gotLoadPageoff12) h]
  · rfl
  · exact fun rel info hinfo => (flagsToAdd_accepted hinfo _).2.1

theorem hasResolution_references (h : link.references = some references) (s : Fin n) :
    (references.flags s).hasResolution = (link.loadsSlot s || link.usesAddress s) := by
  rw [references_flags hasResolution_union h,
    any_adds (q := fun t => (link.isDynamicLibrary s || t == .gotLoadPage21 || t == .gotLoadPageoff12) ||
      (t == .unsigned || t == .branch26 || t == .page21)) h]
  · have hgot : (link.initial.flags s).needsGot = true → (link.initial.flags s).hasResolution = true := by
      intro h
      exact List.any_eq_true.2 ⟨.got, by decide, h⟩
    have hsplit (a b c : ObjectLayout n × RelocationInfo → Bool) : (link.relocations.any fun r => a r && (b r || c r)) =
        ((link.relocations.any fun r => a r && b r) || link.relocations.any fun r => a r && c r) := by
      rw [Bool.eq_iff_iff]
      simp [and_or_left, exists_or]
    unfold loadsSlot usesAddress
    rw [hsplit, Bool.or_left_comm, Bool.or_assoc]
    cases hinitial : (link.initial.flags s).needsGot with
    | false => rw [Bool.false_or]
    | true  => rw [hgot hinitial, Bool.true_or, Bool.or_true, Bool.true_or]
  · exact fun rel info hinfo => (flagsToAdd_accepted hinfo _).2.2

/-! ## Resolutions -/

theorem stubbed_symbolValues (h : link.references = some references) :
    stubbed (link.symbolValues references) = link.stubUsers := by
  unfold stubbed symbolValues stubUsers
  rw [List.map_map]
  refine List.map_congr_left fun s _ => ?_
  rw [Function.comp_apply, ← needsPlt_references h]
  by_cases hs : link.definition s = s
  · rw [if_pos hs, decide_eq_true hs, Bool.true_and]
  · rw [if_neg hs, decide_eq_false hs, Bool.false_and]
    rfl

theorem slotted_symbolValues (h : link.references = some references) :
    slotted (link.symbolValues references) = link.slotUsers := by
  unfold slotted symbolValues slotUsers
  rw [List.map_map]
  refine List.map_congr_left fun s _ => ?_
  rw [Function.comp_apply, ← needsPlt_references h, ← needsGot_references h]
  by_cases hs : link.definition s = s
  · rw [if_pos hs, decide_eq_true hs, Bool.true_and]
    rfl
  · rw [if_neg hs, decide_eq_false hs, Bool.false_and]
    rfl

theorem stubAt_symbolValues (h : link.references = some references) (s : Fin n) :
    stubAt link.start (link.symbolValues references) s.val = link.stubAddress s := by
  rw [stubAt, stubbed_symbolValues h, stubAddress]

theorem slotAt_symbolValues (h : link.references = some references) (s : Fin n) :
    slotAt link.start (link.symbolValues references) s.val = link.slotAddress s := by
  rw [slotAt, slotted_symbolValues h, slotAddress]

theorem layout_cases (h : link.layout = some layout) : ∃ references, link.references = some references ∧
      layout.resolutions = createResolutions link.start (link.symbolValues references) ∧
        importedEntries layout.resolutions (references.imported.map Fin.val) = some layout.imported := by
  obtain ⟨references, hreferences, h⟩ := Option.bind_eq_some_iff.1 h
  obtain ⟨imported, himported, rfl⟩ := Option.map_eq_some_iff.1 h
  exact ⟨references, hreferences, rfl, himported⟩

/-- The resolution of a definition. -/
theorem symbolResolution_eq (h : link.layout = some layout) (hs : link.definition s = s) :
    (layout.symbolResolution s).map (fun resolution => (resolution.rawValue, resolution.pltAddress)) =
      if link.calls s then some (link.stubAddress s, some (link.stubAddress s))
      else if link.loadsSlot s then some (link.slotAddress s, none)
      else if link.usesAddress s then some (link.rawValue s, none) else none := by
  obtain ⟨references, hreferences, hresolutions, -⟩ := layout_cases h
  have hvalue : (link.symbolValues references)[s.val]? = some ⟨references.flags s, link.rawValue s⟩ := by
    unfold symbolValues
    rw [List.getElem?_map, List.getElem?_eq_getElem (by simp), Option.map_some, List.getElem_finRange]
    simp [if_pos hs]
  unfold SymbolLayout.symbolResolution
  rw [hresolutions, createResolutions_getElem?, hvalue, Option.map_some]
  have hplt := needsPlt_references hreferences s
  have hgot := needsGot_references hreferences s
  have hres := hasResolution_references hreferences s
  have hcalls : link.calls s = true → (references.flags s).hasResolution = true := fun hc =>
    List.any_eq_true.2 ⟨.plt, by decide, hplt.trans hc⟩
  change Option.map _ (if (references.flags s).hasResolution = true then _ else none) = _
  unfold resolutionAt
  rw [hplt, hgot, stubAt_symbolValues hreferences, slotAt_symbolValues hreferences]
  cases hc : link.calls s with
  | true  => rw [if_pos (hcalls hc)]; rfl
  | false =>
    rw [hres]
    cases link.loadsSlot s with
    | true  => rfl
    | false => cases link.usesAddress s <;> rfl

/-- **What `get_resolution` finds**, by the uses of the symbol. -/
theorem getResolution_eq (h : link.layout = some layout) (object : ObjectLayout n) (rel : RelocationInfo) :
    link.getResolution layout object rel =
      (object.symbols[rel.rSymbolnum.toNat]?).bind (link.valueOf object) := by
  refine congrArg _ (funext fun sym => ?_)
  have hres := congrArg (Option.map fun r : Nat × Option Nat => BitVec.ofNat 64 r.1)
    (symbolResolution_eq h (link.definition_idem sym.id))
  rw [Option.map_map] at hres
  unfold valueOf
  change ((layout.symbolResolution (link.definition sym.id)).map
    ((fun r : Nat × Option Nat => BitVec.ofNat 64 r.1) ∘ fun resolution => (resolution.rawValue, resolution.pltAddress))).or
      _ = _
  rw [hres]
  dsimp only
  cases link.calls (link.definition sym.id) <;> cases link.loadsSlot (link.definition sym.id) <;>
    cases link.usesAddress (link.definition sym.id) <;> rfl

theorem pltAddress_eq (h : link.layout = some layout) (hs : link.definition s = s) :
    (layout.symbolResolution s).bind (·.pltAddress) = if link.calls s then some (link.stubAddress s) else none := by
  have hres := congrArg (Option.bind · (fun r : Nat × Option Nat => r.2)) (symbolResolution_eq h hs)
  simp only [Option.bind_map] at hres
  refine hres.trans ?_
  cases link.calls s <;> cases link.loadsSlot s <;> cases link.usesAddress s <;> rfl

/-- dyld fills the slots of the symbols of libraries. -/
theorem holdsSymbol_iff (h : link.layout = some layout) {slot : BitVec 64} :
    HoldsSymbol layout slot s ↔ link.isDynamicLibrary s = true ∧ (link.loadsSlot s || link.usesAddress s) = true ∧
      slot = BitVec.ofNat 64 (link.slotAddress s) := by
  obtain ⟨references, hreferences, hresolutions, himported⟩ := layout_cases h
  rw [hresolutions] at himported
  obtain ⟨-, himported⟩ := importedEntries_eq_some.1 himported
  rw [← hasResolution_references hreferences, ← and_assoc, ← references_requested hreferences s]
  have hmem (e : ImportedEntries) : e ∈ layout.imported ↔
      ∃ t ∈ references.imported, entriesOf link.start (link.symbolValues references) t.val = e := by
    rw [himported, List.mem_mergeSort, List.mem_map]
    constructor
    · rintro ⟨_, ht, rfl⟩
      obtain ⟨t, himport, rfl⟩ := List.mem_map.1 ht
      exact ⟨t, himport, rfl⟩
    · rintro ⟨t, ht, rfl⟩
      exact ⟨_, List.mem_map_of_mem ht, rfl⟩
  constructor
  · rintro ⟨e, he, hid, rfl⟩
    obtain ⟨t, ht, rfl⟩ := (hmem e).1 he
    obtain rfl := Fin.ext hid
    exact ⟨ht, congrArg _ (slotAt_symbolValues hreferences t)⟩
  · rintro ⟨hs, rfl⟩
    exact ⟨_, (hmem _).2 ⟨s, hs, rfl⟩, rfl, congrArg _ (slotAt_symbolValues hreferences s)⟩

/-! ## Each reference -/

variable {sec : LoadedSection n} {rel : RelocationInfo} {dest word : BitVec 64} {i : Nat} {layout : SymbolLayout}

theorem add_or_eq_add_iff (base x y t : BitVec 64) : base + (x ||| y) = t + x ↔ base + y = t + (x &&& y) := by
  have h := or_add_and x y
  constructor
  · intro heq
    linear_combination heq - h
  · intro heq
    linear_combination heq + h

theorem add_or_eq_iff (base x y t : BitVec 64) : base + (x ||| y) = t ↔ base + y + x = t + (x &&& y) := by
  have h := or_add_and x y
  constructor
  · intro heq
    linear_combination heq - h
  · intro heq
    linear_combination heq + h

theorem page_add {b : BitVec 64} (hb : b.toNat % 2 ^ 12 = 0) (a : BitVec 64) : page (a + b) = page a + b := by
  refine BitVec.eq_of_toNat_eq ?_
  unfold page
  rw [toNat_page, BitVec.toNat_add, BitVec.toNat_add, toNat_page]
  omega

theorem page_stored (htype : rel.rType = .page21) (t : BitVec 64) :
    page (t + rel.stored dest) = page t + rel.stored dest := by
  refine page_add ?_ t
  have hlow : (rel.stored dest).setWidth 12 = 0#12 := by
    unfold RelocationInfo.stored
    simp only [htype]
    refine BitVec.eq_of_getLsbD_eq fun i hi => ?_
    rw [BitVec.getLsbD_setWidth, BitVec.getLsbD_signExtend, if_pos (by omega), BitVec.getLsbD_append, if_pos hi,
      BitVec.getLsbD_zero, Bool.and_false, Bool.and_false]
  rw [← BitVec.toNat_setWidth, hlow]
  rfl

theorem importOf_eq_some {s : Fin n} (h : link.importOf sec.object rel = some s) :
    rel.rExtern = true ∧ link.symbolOf sec.object rel = some s ∧ link.isDynamicLibrary s = true := by
  unfold importOf at h
  split at h
  · obtain ⟨hs, hdynamic⟩ := Option.filter_eq_some_iff.1 h
    exact ⟨‹_›, hs, hdynamic⟩
  · cases h

theorem definition_symbolOf {s : Fin n} (h : link.symbolOf sec.object rel = some s) : link.definition s = s := by
  obtain ⟨sym, -, rfl⟩ := Option.map_eq_some_iff.1 h
  exact link.definition_idem sym.id

/-- What a reference to a symbol in a library asks for. -/
theorem any_refersTo (hsec : sec ∈ link.sections) (hrel : (rel, dest) ∈ sec.relocations) {s : Fin n}
    (h : link.importOf sec.object rel = some s) {q : RelocationType → Bool} (hq : q rel.rType = true) :
    (link.relocations.any fun r => link.refersTo s r && q r.2.rType) = true := by
  obtain ⟨hexternal, hs, -⟩ := importOf_eq_some h
  refine List.any_eq_true.2 ⟨(sec.object, rel), List.mem_flatMap.2 ⟨sec, hsec, List.mem_map.2 ⟨_, hrel, rfl⟩⟩, ?_⟩
  unfold refersTo
  rw [hexternal, decide_eq_true hs, hq]
  rfl

/-- In a section that has been written there is no addend by a relocation of its own. -/
theorem addend_eq {words : List (BitVec 64)} (hwrite : link.writeObjectSection layout sec = some words) :
    addend (precedingOf sec i) rel dest = rel.stored dest := by
  have hnone : (precedingOf sec i).filter (fun r => r.rType = .addend) = none := by
    refine Option.filter_eq_none_iff.2 fun r hr => ?_
    unfold precedingOf at hr
    split at hr
    · cases hr
    · obtain ⟨site, hsite, rfl⟩ := Option.map_eq_some_iff.1 hr
      have hmap := congrArg (·[i - 1]?) (Traverse.mapM_eq_some.1 hwrite)
      simp only [List.getElem?_map, hsite, Option.map_some] at hmap
      obtain ⟨word, -, hword⟩ := Option.map_eq_some_iff.1 hmap.symm
      obtain ⟨info, hinfo, -⟩ := Option.bind_eq_some_iff.1 hword.symm
      intro htype
      rw [decide_eq_true_eq] at htype
      rw [relocationFromRaw, htype] at hinfo
      cases hinfo
  unfold addend
  rw [hnone]

/-- A reference to something in an object: dyld has no say in it. -/
theorem forall_target_iff (h : link.importOf sec.object rel = none) {p : BitVec 64 → Prop} :
    (∀ loaded, ∃ t, link.target sec.object rel loaded = some t ∧ p t) ↔
      ∃ t, link.localTarget sec.object rel = some t ∧ p t := by
  have htarget (loaded : Fin n → BitVec 64) : link.target sec.object rel loaded = link.localTarget sec.object rel := by
    unfold target
    rw [h]
  simp [htarget]

/-- No field has the address in a library, which dyld chooses. -/
theorem not_forall_target {s : Fin n} (h : link.importOf sec.object rel = some s) (found a : BitVec 64) :
    ¬∀ loaded, ∃ t, link.target sec.object rel loaded = some t ∧ found = rel.part (t + a) := by
  have htarget (loaded : Fin n → BitVec 64) : link.target sec.object rel loaded = some (loaded s) := by
    unfold target
    rw [h]
  intro hall
  have hfound (b : BitVec 64) : found = rel.part b := by
    obtain ⟨t, ht, hb⟩ := hall fun _ => b - a
    rw [htarget] at ht
    rw [hb, ← Option.some.inj ht, BitVec.sub_add_cancel]
  have hsame := (hfound 0).symm.trans (hfound (BitVec.allOnes 64))
  unfold RelocationInfo.part at hsame
  cases hrel : rel.rType <;> simp only [hrel] at hsame <;> revert hsame <;> decide

/-- A slot that dyld fills with the symbol of the reference. -/
theorem exists_slot_iff (h : link.layout = some layout) (hsec : sec ∈ link.sections)
    (hrel : (rel, dest) ∈ sec.relocations) {p : BitVec 64 → Prop} :
    (∃ s, rel.rExtern = true ∧ link.symbolOf sec.object rel = some s ∧ ∃ slot, HoldsSymbol layout slot s ∧ p slot) ↔
      ∃ s, link.importOf sec.object rel = some s ∧ p (BitVec.ofNat 64 (link.slotAddress s)) := by
  constructor
  · rintro ⟨s, hexternal, hs, slot, hslot, hp⟩
    obtain ⟨hdynamic, -, rfl⟩ := (holdsSymbol_iff h).1 hslot
    refine ⟨s, ?_, hp⟩
    unfold importOf
    rw [if_pos hexternal, hs, Option.filter_some, if_pos hdynamic]
  · rintro ⟨s, himport, hp⟩
    obtain ⟨hexternal, hs, hdynamic⟩ := importOf_eq_some himport
    have hloads : link.loadsSlot s = true := by
      unfold loadsSlot
      rw [any_refersTo (q := fun t => link.isDynamicLibrary s || t == .gotLoadPage21 || t == .gotLoadPageoff12) hsec hrel
        himport (by rw [hdynamic]; rfl), Bool.or_true]
    exact ⟨s, hexternal, hs, _, (holdsSymbol_iff h).2 ⟨hdynamic, by rw [hloads]; rfl, rfl⟩, hp⟩

/-- An import that is called has a stub. -/
theorem exists_stub_iff (h : link.layout = some layout) (hsec : sec ∈ link.sections)
    (hrel : (rel, dest) ∈ sec.relocations) (htype : rel.rType = .branch26) {s : Fin n}
    (himport : link.importOf sec.object rel = some s) {p : BitVec 64 → Prop} :
    (∃ stub, (layout.symbolResolution s).bind (·.pltAddress) = some stub ∧ p (BitVec.ofNat 64 stub)) ↔
      p (BitVec.ofNat 64 (link.stubAddress s)) := by
  obtain ⟨-, hs, hdynamic⟩ := importOf_eq_some himport
  have hcalls : link.calls s = true := by
    unfold calls
    rw [any_refersTo (q := fun t => link.isDynamicLibrary s && t == .branch26) hsec hrel himport
      (by rw [hdynamic, htype]; rfl), Bool.or_true]
  rw [pltAddress_eq h (definition_symbolOf hs), hcalls, if_pos rfl]
  constructor
  · rintro ⟨_, ⟨⟩, hp⟩
    exact hp
  · exact fun hp => ⟨_, rfl, hp⟩

/-- **What the relocations of a written section denote.** Each denotes what it should exactly if the value that all
references to its symbol decide on serves this one. -/
theorem relocation_denotes_iff (h : link.layout = some layout) (hsec : sec ∈ link.sections) {words : List (BitVec 64)}
    (hwrite : link.writeObjectSection layout sec = some words) (hsite : sec.relocations[i]? = some (rel, dest))
    (hword : words[i]? = some word) :
    link.Denotes layout sec i rel dest word ↔ link.ValueServes sec rel dest := by
  have hrel := List.mem_of_getElem? hsite
  have hmap := congrArg (·[i]?) (Traverse.mapM_eq_some.1 hwrite)
  simp only [List.getElem?_map, hsite, hword, Option.map_some] at hmap
  obtain ⟨info, hinfo, happly⟩ := Option.bind_eq_some_iff.1 (Option.some.inj hmap)
  obtain ⟨value, hvalue, happly⟩ := Option.bind_eq_some_iff.1 happly
  rw [getResolution_eq h] at hvalue
  unfold Denotes ValueServes
  rw [addend_eq hwrite, hvalue]
  simp only [Option.some_inj, exists_eq_left']
  cases htype : rel.rType with
  | unsigned =>
    rw [unsigned_written htype hinfo happly]
    cases himport : link.importOf sec.object rel with
    | none   =>
      have hpart (t : BitVec 64) : rel.part t = t := by
        unfold RelocationInfo.part
        rw [htype]
      simp only [hpart]
      exact forall_target_iff himport
    | some s => exact iff_of_false (not_forall_target himport _ _) id
  | branch26 =>
    rw [branch_written htype hinfo happly]
    cases himport : link.importOf sec.object rel with
    | none   =>
      have hpart (t : BitVec 64) : rel.part t = t := by
        unfold RelocationInfo.part
        rw [htype]
      simp only [hpart, add_or_eq_add_iff]
      exact forall_target_iff himport
    | some s =>
      simp only [add_or_eq_iff]
      exact exists_stub_iff (p := fun stub => _ = stub + _) h hsec hrel htype himport
  | page21 =>
    rw [adr_written (.inl htype) hinfo happly]
    cases himport : link.importOf sec.object rel with
    | none   =>
      have hpart (t : BitVec 64) : rel.part (t + rel.stored dest) = page t + rel.stored dest := by
        rw [← page_stored htype]
        unfold RelocationInfo.part
        rw [htype]
      simp only [hpart, add_or_eq_add_iff]
      exact forall_target_iff himport
    | some s => exact iff_of_false (not_forall_target himport _ _) id
  | pageoff12 =>
    rw [machOLow12_written (.inl htype) hinfo happly]
    cases himport : link.importOf sec.object rel with
    | none   =>
      have hpart (t : BitVec 64) : rel.part t = t &&& pageMask4KB := by
        unfold RelocationInfo.part
        rw [htype]
      simp only [hpart]
      exact forall_target_iff himport
    | some s => exact iff_of_false (not_forall_target himport _ _) id
  | gotLoadPage21 =>
    have hpart (t : BitVec 64) : rel.part t = page t := by
      unfold RelocationInfo.part
      rw [htype]
    rw [adr_written (.inr htype) hinfo happly]
    simp only [hpart, add_or_eq_iff]
    rw [exists_slot_iff h hsec hrel]
    cases link.importOf sec.object rel <;> simp
  | gotLoadPageoff12 =>
    have hpart (t : BitVec 64) : rel.part t = t &&& pageMask4KB := by
      unfold RelocationInfo.part
      rw [htype]
    rw [machOLow12_written (.inr htype) hinfo happly]
    simp only [hpart]
    rw [exists_slot_iff h hsec hrel]
    cases link.importOf sec.object rel <;> simp
  | _ =>
    rw [relocationFromRaw, htype] at hinfo
    cases hinfo

/-- A pointer to a symbol of the same object at `0x100000400`, with `dest` in place. -/
def pointerSection (dest : BitVec 64) : LoadedSection 1 where
  object := ⟨[⟨0, some 0⟩], [⟨0, some 0x100000400⟩]⟩
  address := 0x100008000
  relocations := [(⟨0, 0, false, 3, true, .unsigned⟩, dest)]

def pointerLink (dest : BitVec 64) : LinkedObjects 1 where
  sections := [pointerSection dest]
  definition := id
  definition_idem := fun _ => rfl
  isDynamicLibrary := fun _ => false
  initial := ⟨fun _ => .empty, []⟩
  initial_imported := fun _ => by simp
  rawValue := fun _ => 0x100000400
  start := ⟨0x100004000, 0x100000460⟩

/-- Whatever is in place, the address of the symbol is written. -/
theorem pointerLink_written (dest : BitVec 64) : ∃ layout, (pointerLink dest).layout = some layout ∧
    (pointerLink dest).writeObjectSection layout (pointerSection dest) = some [0x100000400] := by
  obtain ⟨references, hreferences⟩ : ∃ references, (pointerLink dest).references = some references ∧
      references.imported = [] := ⟨_, rfl, rfl⟩
  obtain ⟨layout, hlayout⟩ : ∃ layout, (pointerLink dest).layout = some layout := by
    have himported : importedEntries (createResolutions (pointerLink dest).start
        ((pointerLink dest).symbolValues references)) [] = some _ :=
      importedEntries_eq_some.2 ⟨fun i hi => absurd hi List.not_mem_nil, rfl⟩
    unfold LinkedObjects.layout
    exact ⟨_, congrArg (Option.map _) himported⟩
  refine ⟨layout, hlayout, ?_⟩
  have hones : ~~~lowBytes 8 (BitVec.allOnes 64) = 0#64 := by decide
  have hwrite : RelocationKindInfo.writeToBuffer ⟨.absolute, .byteSize 8, none, .noCheck, 1⟩ 0x100000400 dest =
      some 0x100000400 := by
    unfold RelocationKindInfo.writeToBuffer
    dsimp only
    rw [hones, BitVec.and_zero, BitVec.zero_or]
    decide
  have hvalue : (pointerLink dest).getResolution layout (pointerSection dest).object ⟨0, 0, false, 3, true, .unsigned⟩ =
      some 0x100000400 := by
    rw [getResolution_eq hlayout]
    rfl
  have happly : (pointerLink dest).applyRelocation layout (pointerSection dest) (⟨0, 0, false, 3, true, .unsigned⟩, dest) =
      some 0x100000400 := by
    have hinfo : relocationFromRaw ⟨0, 0, false, 3, true, .unsigned⟩ =
        some ⟨.absolute, .byteSize 8, none, .noCheck, 1⟩ := rfl
    unfold applyRelocation
    rw [hvalue, hinfo, Option.bind_some, Option.bind_some, ← hwrite]
    exact congrArg (RelocationKindInfo.writeToBuffer _ · dest) BitVec.and_allOnes
  exact Traverse.mapM_eq_some.2 (congrArg (fun word => [word]) happly)

/-- A pointer with an addend is written without it. -/
theorem stored_addend_lost : ¬∀ layout words word, (pointerLink 8).layout = some layout →
    (pointerLink 8).writeObjectSection layout (pointerSection 8) = some words → words[0]? = some word →
      (pointerLink 8).Denotes layout (pointerSection 8) 0 ⟨0, 0, false, 3, true, .unsigned⟩ 8 word := by
  intro hall
  obtain ⟨layout, hlayout, hwrite⟩ := pointerLink_written 8
  obtain ⟨t, ht, hdenoted⟩ := hall layout _ _ hlayout hwrite rfl fun _ => 0
  obtain rfl := Option.some.inj ht
  revert hdenoted
  decide

theorem relocation_denotes_pointer : ∃ layout words word, (pointerLink 0).layout = some layout ∧
    (pointerLink 0).writeObjectSection layout (pointerSection 0) = some words ∧ words[0]? = some word ∧
      (pointerLink 0).Denotes layout (pointerSection 0) 0 ⟨0, 0, false, 3, true, .unsigned⟩ 0 word := by
  obtain ⟨layout, hlayout, hwrite⟩ := pointerLink_written 0
  refine ⟨layout, _, _, hlayout, hwrite, rfl, ?_⟩
  refine (relocation_denotes_iff hlayout List.mem_cons_self hwrite rfl rfl).2 ?_
  exact ⟨0x100000400, by decide, 0x100000400, by decide, by decide⟩

end LinkedObjects

end Reld.MachO
