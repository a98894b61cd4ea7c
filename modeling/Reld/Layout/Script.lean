import Reld.Layout.OutputSections

/-!
# `Layout.Script` — the sections that scripts and objects declare

`process_linker_script` walks the `SECTIONS` commands of a script: every declaration registers its section
under its name, with the program headers it lists or those of the declaration before it, and is pushed to
`ordered_sections`. The objects then add the sections that no rule places and the priorities of their
constructor sections. What holds of the table after all of it is `Arranged`.
-/

namespace Reld

/-! ## Scripts -/

/-- `SymbolLoc`, with the sections that symbol resolution does not need. -/
inductive SymbolPlace where
  | sectionStartRelative (id : OutputSectionId)
  | sectionEndRelative (id : OutputSectionId)
  | sectionEnd (id : OutputSectionId)
  | firstSection
  | locationCounter (idx : Nat) (id : Option OutputSectionId)

/-- `LocationCounter`: an assignment to `.`. -/
inductive LocationCounter where
  | absolute (expr : Expression) (loc : SymbolPlace)
  | relative (expr : Expression) (loc : SymbolPlace) (sectionId : OutputSectionId)

/-- `ContentsCommand`; assignments, `PROVIDE` and `CONSTRUCTORS` do not touch the table. -/
inductive ContentsCommand where
  | matcher
  | setLocation (address : Expression)
  | other

/-- A section of a `SECTIONS` command. -/
structure SectionDeclaration where
  outputSectionName : SectionName
  phdrs : List Bytes := []
  startAddressExpression : Option Expression := none
  commands : List ContentsCommand := []

/-- `SectionCommand`. -/
inductive SectionCommand where
  | outputSection (sec : SectionDeclaration)
  | setLocation (address : Expression)
  | other

/-- `Phdr`. -/
structure Phdr where
  name : Bytes
  ptype : Expression
  flags : Option Expression := none

/-- `Command`. -/
inductive Command where
  | sections (commands : List SectionCommand)
  | phdrs (phdrs : List Phdr)
  | other

/-- `ProcessedLinkerScript`. -/
structure ProcessedLinkerScript where
  programHeaders : List Phdr := []
  locationCounters : List LocationCounter := []
  orderedSections : List OutputSectionId := []

/-- The variables of the loop over the commands of one section. -/
structure ContentsState where
  outputSections : OutputSections
  locationCounters : List LocationCounter
  lastSectionId : Option OutputSectionId := none
  lastSymbolLoc : SymbolPlace
  innerLcIdx : Nat
  innerLcStartIdx : Nat

/-- One command of a section's contents. The matchers before the first location counter fill the section
    itself only if there is one of them; every later matcher starts a secondary section. -/
def contentsStep (primary : OutputSectionId) (s : ContentsState) : ContentsCommand → ContentsState
  | .matcher =>
    if s.lastSectionId = none ∧ s.innerLcIdx = s.innerLcStartIdx then
      { s with lastSectionId := some primary, lastSymbolLoc := .sectionEndRelative primary }
    else
      let (outputSections, id) := s.outputSections.addSecondarySection primary none
        (some { locationCounters := (s.innerLcStartIdx, s.innerLcIdx), location := none })
      { s with
        outputSections := outputSections
        innerLcStartIdx := s.innerLcIdx
        lastSectionId := some id
        lastSymbolLoc := .sectionEndRelative id }
  | .setLocation address =>
    { s with
      locationCounters := s.locationCounters ++ [.relative address s.lastSymbolLoc primary]
      lastSymbolLoc := .locationCounter s.innerLcIdx (some primary)
      innerLcIdx := s.innerLcIdx + 1 }
  | .other => s

/-- The variables of `process_linker_script`. -/
structure ScriptState where
  outputSections : OutputSections
  script : ProcessedLinkerScript := {}
  currentSectionId : Option OutputSectionId := none
  loc : SymbolPlace := .firstSection
  lastLcIdx : Nat
  sectionStartLcIdx : Nat
  prevPhdrs : List Bytes := []

/-- The secondary section for location counters after the last matcher. -/
def trailingSection (primary : OutputSectionId) (s : ContentsState) : OutputSections :=
  if s.innerLcIdx > s.innerLcStartIdx then
    (s.outputSections.addSecondarySection primary none
      (some { locationCounters := (s.innerLcStartIdx, s.innerLcIdx), location := none })).1
  else s.outputSections

/-- `SectionCommand::Section`. -/
def declareSection (s : ScriptState) (sec : SectionDeclaration) : ScriptState :=
  let prevPhdrs := if sec.phdrs = [] then s.prevPhdrs else sec.phdrs
  let locationInfo : SectionLocationInfo :=
    { locationCounters := (s.sectionStartLcIdx, s.lastLcIdx), location := sec.startAddressExpression }
  let (outputSections, primary) :=
    s.outputSections.addNamedSection sec.outputSectionName (some locationInfo) prevPhdrs
  let contents := sec.commands.foldl (contentsStep primary)
    { outputSections := outputSections
      locationCounters := s.script.locationCounters
      lastSymbolLoc := .sectionStartRelative primary
      innerLcIdx := s.lastLcIdx
      innerLcStartIdx := s.lastLcIdx }
  { outputSections := trailingSection primary contents
    script :=
      { s.script with
        locationCounters := contents.locationCounters
        orderedSections := s.script.orderedSections ++ [primary] }
    currentSectionId := some primary
    loc := .sectionEnd primary
    lastLcIdx := contents.innerLcIdx
    sectionStartLcIdx := contents.innerLcIdx
    prevPhdrs := prevPhdrs }

/-- One command of `SECTIONS`. -/
def sectionStep (numLocationCounters : Nat) (s : ScriptState) : SectionCommand → ScriptState
  | .outputSection sec => declareSection s sec
  | .setLocation address =>
    let locationCounters := s.script.locationCounters ++ [.absolute address s.loc]
    { s with
      script := { s.script with locationCounters := locationCounters }
      loc := .locationCounter s.lastLcIdx none
      sectionStartLcIdx :=
        if s.currentSectionId = none ∧ numLocationCounters = 0 then locationCounters.length
        else s.sectionStartLcIdx
      lastLcIdx := s.lastLcIdx + 1 }
  | .other => s

/-- One command of a script. A later `PHDRS` command replaces an earlier one, and the program headers are
    not inherited across `SECTIONS` commands. -/
def commandStep (numLocationCounters : Nat) (s : ScriptState) : Command → ScriptState
  | .sections commands =>
    commands.foldl (sectionStep numLocationCounters)
      { s with sectionStartLcIdx := s.lastLcIdx, prevPhdrs := [] }
  | .phdrs phdrs => { s with script := { s.script with programHeaders := phdrs } }
  | .other => s

/-- `process_linker_script`. -/
def processLinkerScript (numLocationCounters : Nat) (o : OutputSections) (commands : List Command) :
    OutputSections × ProcessedLinkerScript :=
  let s := commands.foldl (commandStep numLocationCounters)
    { outputSections := o, lastLcIdx := numLocationCounters, sectionStartLcIdx := numLocationCounters }
  (s.outputSections, s.script)

/-- All scripts, in order; each numbers its location counters after those of the scripts before it. -/
def processLinkerScripts : Nat → OutputSections → List (List Command) →
    OutputSections × List ProcessedLinkerScript
  | _, o, [] => (o, [])
  | numLocationCounters, o, script :: scripts =>
    let (o, processed) := processLinkerScript numLocationCounters o script
    let (o, rest) := processLinkerScripts (numLocationCounters + processed.locationCounters.length) o scripts
    (o, processed :: rest)

/-! ## Objects -/

/-- `InitFiniSectionDetail`: the rules with priorities are those of the constructors and destructors. -/
structure InitFiniSectionDetail where
  primary : OutputSectionId
  priority : Nat
  builtIn : primary = initArray ∨ primary = finiArray

/-- The sections of an object that no rule places, and its sections with priorities. -/
structure ObjectSections where
  customSections : List SectionName := []
  initFiniSections : List InitFiniSectionDetail := []

/-- What the layout of a link starts from. `propagate` stands for the attributes of the input sections
    that are placed in each output section. -/
structure LinkSections where
  outputKind : OutputKind
  scripts : List (List Command)
  objects : List ObjectSections
  startAddressForSection : SectionName → Option Nat := fun _ => none
  propagate : OutputSectionId → SectionAttributes → SectionAttributes := fun _ a => a

namespace OutputSections

/-- The `--section-start` address of a section. -/
def setLocation (address : Option Nat) (info : SectionOutputInfo) : SectionOutputInfo :=
  match address with
  | none => info
  | some address =>
    { info with
      locationInfo := some
        { locationCounters := (info.locationInfo.map (·.locationCounters)).getD (0, 0)
          location := some (.number address) } }

/-- `apply_section_start_overrides`. -/
def applySectionStartOverrides (o : OutputSections) (startAddressForSection : SectionName → Option Nat) :
    OutputSections :=
  ((o.modifyInfo textSection (setLocation (startAddressForSection (bytesOf ".text")))).modifyInfo
    dataSection (setLocation (startAddressForSection (bytesOf ".data")))).modifyInfo
    bssSection (setLocation (startAddressForSection (bytesOf ".bss")))

/-- `add_sections`, for one custom section. -/
def addCustomSection (startAddressForSection : SectionName → Option Nat) (o : OutputSections)
    (sectionName : SectionName) : OutputSections :=
  (o.addNamedSection sectionName
    ((startAddressForSection sectionName).map
      (fun address => { locationCounters := (0, 0), location := some (.number address) })) []).1

/-- `assign_section_ids`, for one object. -/
def addObject (startAddressForSection : SectionName → Option Nat) (o : OutputSections)
    (object : ObjectSections) : OutputSections :=
  object.initFiniSections.foldl (fun o d => o.getOrCreateInitFiniSecondary d.primary d.priority)
    (object.customSections.foldl (addCustomSection startAddressForSection) o)

/-- `propagate_section_attributes`. -/
def propagateSectionAttributes (o : OutputSections)
    (propagate : OutputSectionId → SectionAttributes → SectionAttributes) : OutputSections :=
  { o with
    sectionInfos := o.sectionInfos.mapIdx (fun id info =>
      { info with sectionAttributes := propagate id info.sectionAttributes }) }

end OutputSections

/-- The table of output sections and the scripts, as `output_order` receives them. -/
def LinkSections.collect (l : LinkSections) : OutputSections × List ProcessedLinkerScript :=
  let (o, scripts) := processLinkerScripts 0 (OutputSections.withBaseAddress l.outputKind) l.scripts
  let o := o.applySectionStartOverrides l.startAddressForSection
  let o := l.objects.foldl (OutputSections.addObject l.startAddressForSection) o
  (o.propagateSectionAttributes l.propagate, scripts)

/-! ## The invariant -/

/-- The headers of the file, which the builder emits by themselves. -/
def headerSections : List OutputSectionId := [fileHeader, programHeaders, sectionHeaders]

/-- What holds of the table and of the sections that the scripts have declared so far. -/
structure Arranged (o : OutputSections) (ordered : List OutputSectionId) : Prop where
  /-- The built-in sections are there, with their names. -/
  builtIn : ∀ i, i < numBuiltInSections → (o.info i).kind = (builtInSectionInfos.getD i (primarySection "" 0 0)).kind
  long : numBuiltInSections ≤ o.sectionInfos.length
  /-- A registered name is the name of its section. -/
  named : ∀ n i, o.customByName n = some i → i < o.sectionInfos.length ∧ (o.info i).kind = .primary n
  /-- Only a script gives a section program headers. -/
  withPhdrs : ∀ i, (o.info i).phdrs ≠ [] → i ∈ ordered
  registered : ∀ i ∈ ordered, ∃ n, o.customByName n = some i
  /-- A secondary section belongs to a primary one that a script declared or that is built in. -/
  secondaries : ∀ i p, (o.info i).kind = .secondary p →
    (∃ n, (o.info p).kind = .primary n) ∧ (p ∈ ordered ∨ p < numBuiltInSections ∧ p ∉ headerSections)

/-- The primary section of a secondary one. -/
def SectionKind.target : SectionKind → Option OutputSectionId
  | .primary _ => none
  | .secondary p => some p

theorem SectionKind.exists_name {k : SectionKind} (h : k.target = none) : ∃ n, k = .primary n := by
  cases k with
  | primary n => exact ⟨n, rfl⟩
  | secondary p => cases h

namespace Arranged

/-- The built-in secondary sections belong to built-in primary ones. -/
theorem builtIn_secondary : ∀ i < numBuiltInSections,
    ∀ p, (builtInSectionInfos.getD i (primarySection "" 0 0)).kind.target = some p →
      (builtInSectionInfos.getD p (primarySection "" 0 0)).kind.target = none ∧
        p < numBuiltInSections ∧ p ∉ headerSections := by
  have hall : ∀ i < numBuiltInSections,
      ∀ p ∈ (builtInSectionInfos.getD i (primarySection "" 0 0)).kind.target,
        (builtInSectionInfos.getD p (primarySection "" 0 0)).kind.target = none ∧
          p < numBuiltInSections ∧ p ∉ headerSections := by
    decide
  exact hall

variable {o o' : OutputSections} {ordered ordered' : List OutputSectionId}

theorem withBaseAddress (outputKind : OutputKind) : Arranged (OutputSections.withBaseAddress outputKind) [] where
  builtIn i _ := rfl
  long := (show numBuiltInSections ≤ builtInSectionInfos.length by decide)
  named n i h := by cases h
  withPhdrs i h := by
    refine absurd ?_ h
    by_cases hi : i < numBuiltInSections
    · have hall : ∀ i < numBuiltInSections, (builtInSectionInfos.getD i (primarySection "" 0 0)).phdrs = [] := by
        decide
      exact hall i hi
    · rw [OutputSections.info_of_length_le _ _ (Nat.le_of_not_lt hi)]
      rfl
  registered i hi := by cases hi
  secondaries i p h := by
    by_cases hi : i < numBuiltInSections
    · obtain ⟨hp, hlt, hheader⟩ := builtIn_secondary i hi p
        (show SectionKind.target (builtInSectionInfos.getD i (primarySection "" 0 0)).kind = some p by
          rw [show (builtInSectionInfos.getD i (primarySection "" 0 0)).kind = .secondary p from h]
          rfl)
      exact ⟨SectionKind.exists_name hp, .inr ⟨hlt, hheader⟩⟩
    · rw [OutputSections.info_of_length_le _ _ (Nat.le_of_not_lt hi)] at h
      cases h

/-- A change of the table that keeps the kinds and the registered names. -/
theorem change (h : Arranged o ordered) (hlen : o'.sectionInfos.length = o.sectionInfos.length)
    (hkind : ∀ i, (o'.info i).kind = (o.info i).kind) (hnames : o'.customByName = o.customByName)
    (hphdrs : ∀ i, (o'.info i).phdrs ≠ [] → (o.info i).phdrs ≠ [] ∨ i ∈ ordered) : Arranged o' ordered where
  builtIn i hi := (hkind i).trans (h.builtIn i hi)
  long := hlen ▸ h.long
  named n i hi := by
    rw [hnames] at hi
    rw [hlen, hkind]
    exact h.named n i hi
  withPhdrs i hi := (hphdrs i hi).elim (h.withPhdrs i) id
  registered i hi := by
    rw [hnames]
    exact h.registered i hi
  secondaries i p hi := by
    rw [hkind] at hi ⊢
    exact h.secondaries i p hi

/-- A new section at the end of the table, with no name registered yet. -/
theorem append (h : Arranged o ordered) {info' : SectionOutputInfo} (hphdrs : info'.phdrs = [])
    (hsecondary : ∀ p, info'.kind = .secondary p →
      (∃ n, (o.info p).kind = .primary n) ∧ (p ∈ ordered ∨ p < numBuiltInSections ∧ p ∉ headerSections)) :
    Arranged { o with sectionInfos := o.sectionInfos ++ [info'] } ordered := by
  have hlen : { o with sectionInfos := o.sectionInfos ++ [info'] }.sectionInfos.length =
      o.sectionInfos.length + 1 := by simp
  have hprimary : ∀ p n, p < o.sectionInfos.length → (o.info p).kind = .primary n →
      ({ o with sectionInfos := o.sectionInfos ++ [info'] }.info p).kind = .primary n := by
    intro p n hp hn
    rw [OutputSections.info_append _ _ _ (Nat.ne_of_lt hp)]
    exact hn
  constructor
  · intro i hi
    rw [OutputSections.info_append _ _ _ (Nat.ne_of_lt (Nat.lt_of_lt_of_le hi h.long))]
    exact h.builtIn i hi
  · rw [hlen]
    exact Nat.le_succ_of_le h.long
  · intro n i hi
    obtain ⟨hi, hn⟩ := h.named n i hi
    exact ⟨hlen ▸ Nat.lt_succ_of_lt hi, hprimary i n hi hn⟩
  · intro i hi
    by_cases hself : i = o.sectionInfos.length
    · subst hself
      rw [OutputSections.info_append_self] at hi
      exact absurd hphdrs hi
    · rw [OutputSections.info_append _ _ _ hself] at hi
      exact h.withPhdrs i hi
  · exact h.registered
  · intro i p hi
    have hp : (∃ n, (o.info p).kind = .primary n) ∧ (p ∈ ordered ∨ p < numBuiltInSections ∧ p ∉ headerSections) := by
      by_cases hself : i = o.sectionInfos.length
      · subst hself
        rw [OutputSections.info_append_self] at hi
        exact hsecondary p hi
      · rw [OutputSections.info_append _ _ _ hself] at hi
        exact h.secondaries i p hi
    obtain ⟨⟨n, hn⟩, hwhere⟩ := hp
    have hlt : p < o.sectionInfos.length := by
      rcases hwhere with hmem | ⟨hlt, -⟩
      · obtain ⟨m, hm⟩ := h.registered p hmem
        exact (h.named m p hm).1
      · exact Nat.lt_of_lt_of_le hlt h.long
    exact ⟨⟨n, hprimary p n hlt hn⟩, hwhere⟩

/-- The sections of the table keep their properties when a script declares more of them. -/
theorem declare (h : Arranged o ordered) (hsub : ordered ⊆ ordered')
    (hnew : ∀ i ∈ ordered', i ∈ ordered ∨ ∃ n, o.customByName n = some i) : Arranged o ordered' where
  builtIn := h.builtIn
  long := h.long
  named := h.named
  withPhdrs i hi := hsub (h.withPhdrs i hi)
  registered i hi := (hnew i hi).elim (h.registered i) id
  secondaries i p hi := ⟨(h.secondaries i p hi).1, (h.secondaries i p hi).2.imp (fun hm => hsub hm) id⟩

/-- Registering the name of a section. -/
theorem register (h : Arranged o ordered) {n : SectionName} {id : OutputSectionId}
    (hid : id < o.sectionInfos.length) (hkind : (o.info id).kind = .primary n) (hnone : o.customByName n = none) :
    Arranged { o with customByName := Function.update o.customByName n (some id) } ordered where
  builtIn := h.builtIn
  long := h.long
  named m i hi := by
    by_cases hm : m = n
    · subst hm
      have hi : id = i := by simpa using hi
      exact hi ▸ ⟨hid, hkind⟩
    · exact h.named m i (by simpa [Function.update, hm] using hi)
  withPhdrs := h.withPhdrs
  registered i hi := by
    obtain ⟨m, hm⟩ := h.registered i hi
    have hne : m ≠ n := by
      rintro rfl
      rw [hnone] at hm
      cases hm
    exact ⟨m, by simpa [Function.update, hne] using hm⟩
  secondaries := h.secondaries

/-- An update of one section that keeps its kind. -/
theorem modifyInfo (h : Arranged o ordered) {id : OutputSectionId} {f : SectionOutputInfo → SectionOutputInfo}
    (hid : id < o.sectionInfos.length) (hkind : ∀ info, (f info).kind = info.kind)
    (hphdrs : (f (o.info id)).phdrs ≠ [] → (o.info id).phdrs ≠ [] ∨ id ∈ ordered) :
    Arranged (o.modifyInfo id f) ordered := by
  refine h.change (OutputSections.length_modifyInfo o id f) (fun i => ?_) rfl (fun i hi => ?_)
  · rw [OutputSections.info_modifyInfo o id i f hid]
    split
    · exact hkind _
    · rfl
  · rw [OutputSections.info_modifyInfo o id i f hid] at hi
    split at hi
    · rename_i he
      exact he ▸ hphdrs (he ▸ hi)
    · exact .inl hi

theorem redeclare_phdrs {locationInfo : Option SectionLocationInfo} {phdrs : List Bytes} {info : SectionOutputInfo}
    (h : (OutputSections.redeclare locationInfo phdrs info).phdrs ≠ []) : info.phdrs ≠ [] ∨ phdrs ≠ [] := by
  simp only [OutputSections.redeclare] at h
  by_cases hp : phdrs = []
  · rw [if_pos hp] at h
    exact .inl h
  · exact .inr hp

theorem modify_length_append {α : Type} (l : List α) (a : α) (f : α → α) :
    (l ++ [a]).modify l.length f = l ++ [f a] := by
  rw [List.modify_eq_take_cons_drop (by simp)]
  simp

/-- `add_named_section` declares the section it returns, if the declaration lists program headers. -/
theorem addNamedSection (h : Arranged o ordered) (sectionName : SectionName)
    (locationInfo : Option SectionLocationInfo) (phdrs : List Bytes)
    (hsub : ordered ⊆ ordered')
    (hnew : ∀ i ∈ ordered', i ∈ ordered ∨ i = (o.addNamedSection sectionName locationInfo phdrs).2)
    (hphdrs : phdrs ≠ [] → (o.addNamedSection sectionName locationInfo phdrs).2 ∈ ordered') :
    Arranged (o.addNamedSection sectionName locationInfo phdrs).1 ordered' := by
  -- The registered section may be declared from here on.
  have hwiden : ∀ {o : OutputSections} {id : OutputSectionId}, Arranged o ordered →
      o.customByName sectionName = some id → (∀ i ∈ ordered', i ∈ ordered ∨ i = id) → Arranged o ordered' :=
    fun h hid hnew => h.declare hsub (fun i hi => (hnew i hi).imp_right (fun he => ⟨sectionName, by rw [he]; exact hid⟩))
  unfold OutputSections.addNamedSection at hnew hphdrs ⊢
  cases hc : o.customByName sectionName with
  | some id =>
    simp only [hc] at hnew hphdrs ⊢
    exact (hwiden h hc hnew).modifyInfo (h.named _ _ hc).1 (fun _ => rfl)
      (fun hp => (redeclare_phdrs hp).imp_right hphdrs)
  | none =>
    cases hr : o.resolvedId sectionName with
    | some id =>
      simp only [hc, hr] at hnew hphdrs ⊢
      have hfind : id < regularSectionBase ∧ o.name id = some sectionName := by
        unfold OutputSections.resolvedId at hr
        split at hr
        · cases hr
        · exact ⟨List.mem_range.mp (List.mem_of_find?_eq_some hr), by simpa using List.find?_some hr⟩
      have hlt : id < o.sectionInfos.length :=
        Nat.lt_of_lt_of_le hfind.1 (Nat.le_trans (by decide) h.long)
      have hkind : (o.info id).kind = .primary sectionName := by
        have hn := hfind.2
        unfold OutputSections.name at hn
        split at hn
        · rename_i n hk
          rw [hk, Option.some.inj hn]
        · cases hn
      have hreg := hwiden (h.register hlt hkind hc) (by simp) hnew
      exact hreg.modifyInfo hlt (fun _ => rfl) (fun hp => (redeclare_phdrs hp).imp_right hphdrs)
    | none =>
      simp only [hc, hr] at hnew hphdrs ⊢
      -- Append the section without program headers, register it, and then set them.
      let added : SectionOutputInfo := { kind := .primary sectionName, locationInfo := locationInfo }
      have happ : Arranged { o with sectionInfos := o.sectionInfos ++ [added] } ordered :=
        h.append rfl (fun p hp => by cases hp)
      have hlt : o.sectionInfos.length < (o.sectionInfos ++ [added]).length := by simp
      have hkind : ({ o with sectionInfos := o.sectionInfos ++ [added] }.info o.sectionInfos.length).kind =
          .primary sectionName := by rw [OutputSections.info_append_self]
      have hreg := hwiden (happ.register hlt hkind hc) (by simp) hnew
      have hset := hreg.modifyInfo (f := fun info => { info with phdrs := phdrs }) hlt (fun _ => rfl)
        (fun hp => .inr (hphdrs hp))
      have hmodify := modify_length_append o.sectionInfos added (fun info => { info with phdrs := phdrs })
      unfold OutputSections.modifyInfo at hset
      simp only [hmodify] at hset
      exact hset

/-- The section that `add_named_section` returns is primary. -/
theorem addNamedSection_kind (h : Arranged o ordered) (sectionName : SectionName)
    (locationInfo : Option SectionLocationInfo) (phdrs : List Bytes) :
    ∃ n, ((o.addNamedSection sectionName locationInfo phdrs).1.info
      (o.addNamedSection sectionName locationInfo phdrs).2).kind = .primary n := by
  have hreg : (o.addNamedSection sectionName locationInfo phdrs).1.customByName sectionName =
      some (o.addNamedSection sectionName locationInfo phdrs).2 := by
    unfold OutputSections.addNamedSection
    cases hc : o.customByName sectionName with
    | some id => exact hc
    | none => cases o.resolvedId sectionName <;> simp
  have hnext := h.addNamedSection sectionName locationInfo phdrs
    (List.subset_append_left ordered [(o.addNamedSection sectionName locationInfo phdrs).2])
    (fun i hi => by simpa using hi) (fun _ => by simp)
  exact ⟨sectionName, (hnext.named _ _ hreg).2⟩

variable {primary : OutputSectionId}

theorem addSecondarySection (h : Arranged o ordered) (hkind : ∃ n, (o.info primary).kind = .primary n)
    (hwhere : primary ∈ ordered ∨ primary < numBuiltInSections ∧ primary ∉ headerSections) (secondaryOrder : Option Nat)
    (locationInfo : Option SectionLocationInfo) :
    Arranged (o.addSecondarySection primary secondaryOrder locationInfo).1 ordered :=
  h.append rfl (fun p hp => by
    obtain rfl : primary = p := SectionKind.secondary.inj hp
    exact ⟨hkind, hwhere⟩)

/-- Adding a secondary section leaves the primary ones in place. -/
theorem addSecondarySection_kind (h : Arranged o ordered) (hkind : ∃ n, (o.info primary).kind = .primary n)
    (hmem : primary ∈ ordered) (secondaryOrder : Option Nat) (locationInfo : Option SectionLocationInfo) :
    ∃ n, ((o.addSecondarySection primary secondaryOrder locationInfo).1.info primary).kind = .primary n := by
  obtain ⟨n, hn⟩ := h.registered primary hmem
  have hlt := (h.named n primary hn).1
  unfold OutputSections.addSecondarySection
  rw [OutputSections.info_append _ _ _ (Nat.ne_of_lt hlt)]
  exact hkind

/-- The commands of a section's contents add secondary sections to the section only. -/
theorem contents (hmem : primary ∈ ordered) (commands : List ContentsCommand) (s : ContentsState)
    (h : Arranged s.outputSections ordered) (hkind : ∃ n, (s.outputSections.info primary).kind = .primary n) :
    Arranged (commands.foldl (contentsStep primary) s).outputSections ordered ∧
      ∃ n, ((commands.foldl (contentsStep primary) s).outputSections.info primary).kind = .primary n := by
  induction commands generalizing s with
  | nil => exact ⟨h, hkind⟩
  | cons command commands ih =>
    rw [List.foldl_cons]
    cases command with
    | matcher =>
      rw [contentsStep]
      split
      · exact ih _ h hkind
      · exact ih _ (h.addSecondarySection hkind (.inl hmem) none _)
          (h.addSecondarySection_kind hkind hmem none _)
    | setLocation address => exact ih _ h hkind
    | other => exact ih _ h hkind

theorem trailing (hmem : primary ∈ ordered) (s : ContentsState) (h : Arranged s.outputSections ordered)
    (hkind : ∃ n, (s.outputSections.info primary).kind = .primary n) :
    Arranged (trailingSection primary s) ordered := by
  unfold trailingSection
  split
  · exact h.addSecondarySection hkind (.inl hmem) none _
  · exact h

variable {before : List OutputSectionId}

/-- A declaration pushes its section to the ordered ones. -/
theorem declareSection (s : ScriptState) (sec : SectionDeclaration)
    (h : Arranged s.outputSections (before ++ s.script.orderedSections)) :
    Arranged (declareSection s sec).outputSections (before ++ (declareSection s sec).script.orderedSections) := by
  let prevPhdrs := if sec.phdrs = [] then s.prevPhdrs else sec.phdrs
  let locationInfo : SectionLocationInfo :=
    { locationCounters := (s.sectionStartLcIdx, s.lastLcIdx), location := sec.startAddressExpression }
  let added := s.outputSections.addNamedSection sec.outputSectionName (some locationInfo) prevPhdrs
  have hmem : added.2 ∈ before ++ (s.script.orderedSections ++ [added.2]) := by simp
  have hnamed : Arranged added.1 (before ++ (s.script.orderedSections ++ [added.2])) := by
    refine h.addNamedSection sec.outputSectionName (some locationInfo) prevPhdrs ?_ ?_ (fun _ => hmem)
    · intro i hi
      simp only [List.mem_append] at hi ⊢
      exact hi.imp id .inl
    · intro i hi
      simp only [List.mem_append, List.mem_singleton] at hi ⊢
      exact or_assoc.mpr hi
  have hkind : ∃ n, (added.1.info added.2).kind = .primary n := h.addNamedSection_kind _ _ _
  obtain ⟨hcontents, hkind⟩ := contents hmem sec.commands
    { outputSections := added.1
      locationCounters := s.script.locationCounters
      lastSymbolLoc := .sectionStartRelative added.2
      innerLcIdx := s.lastLcIdx
      innerLcStartIdx := s.lastLcIdx } hnamed hkind
  exact trailing hmem _ hcontents hkind

theorem command (numLocationCounters : Nat) (s : ScriptState) (c : Command)
    (h : Arranged s.outputSections (before ++ s.script.orderedSections)) :
    Arranged (commandStep numLocationCounters s c).outputSections
      (before ++ (commandStep numLocationCounters s c).script.orderedSections) := by
  cases c with
  | sections commands =>
    refine List.foldlRecOn (motive := fun s => Arranged s.outputSections (before ++ s.script.orderedSections))
      commands (sectionStep numLocationCounters) ?_ ?_
    · exact h
    intro s hs sc _
    cases sc with
    | outputSection sec => exact hs.declareSection s sec
    | setLocation address => exact hs
    | other => exact hs
  | phdrs phdrs => exact h
  | other => exact h

/-- The scripts, one after the other. -/
theorem scripts (scripts : List (List Command)) (numLocationCounters : Nat) (h : Arranged o ordered) :
    Arranged (processLinkerScripts numLocationCounters o scripts).1
      (ordered ++ (processLinkerScripts numLocationCounters o scripts).2.flatMap (·.orderedSections)) := by
  induction scripts generalizing o ordered numLocationCounters with
  | nil => simpa [processLinkerScripts] using h
  | cons script scripts ih =>
    have hscript : Arranged (processLinkerScript numLocationCounters o script).1
        (ordered ++ (processLinkerScript numLocationCounters o script).2.orderedSections) := by
      refine List.foldlRecOn script (commandStep numLocationCounters)
        (motive := fun s => Arranged s.outputSections (ordered ++ s.script.orderedSections)) ?_ ?_
      · simpa using h
      · intro s hs c _
        exact hs.command numLocationCounters s c
    have hrest := ih (numLocationCounters +
      (processLinkerScript numLocationCounters o script).2.locationCounters.length) hscript
    rw [List.append_assoc] at hrest
    exact hrest

/-! ### Objects and attributes -/

theorem applySectionStartOverrides (h : Arranged o ordered) (startAddressForSection : SectionName → Option Nat) :
    Arranged (o.applySectionStartOverrides startAddressForSection) ordered := by
  have hset : ∀ {o : OutputSections} (id : OutputSectionId) (address : Option Nat), Arranged o ordered →
      id < numBuiltInSections → Arranged (o.modifyInfo id (OutputSections.setLocation address)) ordered := by
    intro o id address h hid
    refine h.modifyInfo (Nat.lt_of_lt_of_le hid h.long) ?_ ?_
    · intro info
      cases address <;> rfl
    · intro hp
      cases address <;> exact .inl hp
  exact hset bssSection _ (hset dataSection _ (hset textSection _ h (by decide)) (by decide)) (by decide)

theorem getOrCreateInitFiniSecondary (h : Arranged o ordered) (d : InitFiniSectionDetail) :
    Arranged (o.getOrCreateInitFiniSecondary d.primary d.priority) ordered := by
  have hbuiltIn : d.primary < numBuiltInSections ∧ d.primary ∉ headerSections ∧
      (builtInSectionInfos.getD d.primary (primarySection "" 0 0)).kind.target = none := by
    rcases d.builtIn with hd | hd <;> rw [hd] <;> decide
  obtain ⟨hlt, hheader, hprimary⟩ := hbuiltIn
  have hkind := SectionKind.exists_name hprimary
  rw [← h.builtIn d.primary hlt] at hkind
  unfold OutputSections.getOrCreateInitFiniSecondary
  cases o.initFiniByPriority (d.primary, d.priority) with
  | some id => exact h
  | none =>
    have hadded := h.addSecondarySection hkind (.inr ⟨hlt, hheader⟩) (some d.priority) none
    refine hadded.change rfl (fun i => rfl) rfl (fun i hi => .inl ?_)
    exact hi

theorem addObject (h : Arranged o ordered) (startAddressForSection : SectionName → Option Nat)
    (object : ObjectSections) : Arranged (o.addObject startAddressForSection object) ordered := by
  refine List.foldlRecOn (motive := fun o => Arranged o ordered) object.initFiniSections _ ?_
    (fun o ho d _ => ho.getOrCreateInitFiniSecondary d)
  refine List.foldlRecOn (motive := fun o => Arranged o ordered) object.customSections _ h ?_
  intro o ho sectionName _
  exact ho.addNamedSection sectionName _ [] (List.Subset.refl ordered) (fun i hi => .inl hi)
    (fun hne => absurd rfl hne)

theorem propagateSectionAttributes (h : Arranged o ordered)
    (propagate : OutputSectionId → SectionAttributes → SectionAttributes) :
    Arranged (o.propagateSectionAttributes propagate) ordered := by
  have hinfo : ∀ i, ((o.propagateSectionAttributes propagate).info i).kind = (o.info i).kind ∧
      ((o.propagateSectionAttributes propagate).info i).phdrs = (o.info i).phdrs := by
    intro i
    simp only [OutputSections.info, OutputSections.propagateSectionAttributes, List.getD_eq_getElem?_getD,
      List.getElem?_mapIdx]
    cases o.sectionInfos[i]? <;> exact ⟨rfl, rfl⟩
  exact h.change List.length_mapIdx (fun i => (hinfo i).1) rfl (fun i hi => .inl (by rwa [(hinfo i).2] at hi))

end Arranged

/-- The table that `output_order` receives. -/
theorem LinkSections.collect_arranged (l : LinkSections) :
    Arranged l.collect.1 (l.collect.2.flatMap (·.orderedSections)) := by
  have hscripts := (Arranged.withBaseAddress l.outputKind).scripts l.scripts 0
  refine Arranged.propagateSectionAttributes ?_ l.propagate
  exact List.foldlRecOn (motive := fun o => Arranged o _) l.objects _
    (hscripts.applySectionStartOverrides l.startAddressForSection)
    (fun o ho object _ => ho.addObject l.startAddressForSection object)


end Reld
