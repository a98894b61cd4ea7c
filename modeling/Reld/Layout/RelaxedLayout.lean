import Reld.Layout.MemoryPlaces

/-!
# `Layout.RelaxedLayout` — laying out again after each relaxation pass

`perform_iterative_relaxation` scans the groups, takes the deleted bytes off the part sizes and computes the layout
again, until a pass deletes nothing. The regions of the script are the same map in every computation, and each
of them leaves its `used` counters in it. A layout that starts from unused regions is the layout of a fresh link with
the same sizes; a used region makes its first section start behind everything that an earlier layout put there.
-/

namespace Reld

namespace PartMap

/-- `decrement`. -/
def decrement (m : PartMap Nat) (p : OutputSectionId × Nat) (size : Nat) : PartMap Nat :=
  { parts := fun id part => if (id, part) = p then m.parts id part - size else m.parts id part
    sparse := fun id part => if (id, part) = p then (m.sparse id part).map (· - size) else m.sparse id part }

theorem decrement_zero (m : PartMap Nat) (p : OutputSectionId × Nat) : m.decrement p 0 = m := by
  simp [decrement]

end PartMap

/-! ## Passes -/

/-- What `relaxation_scan_pass` finds, with the groups as it leaves them. -/
structure ScanResult (G : Type) where
  groups : G
  /-- By how much the parts of each group shrink. -/
  reductions : List (List ((OutputSectionId × Nat) × Nat))
  /-- The sections with candidates left, by group and file, each with its smallest margin. -/
  candidates : List (List (List (Nat × Nat)))

/-- `RescanSections`. -/
abbrev RescanSections := List (List (List Nat))

/-- The decisions of `relaxation_scan_pass`, from the groups, the sizes, the records and the sections to scan. -/
abbrev Scan (G : Type) :=
  G → List (PartMap Nat) → (OutputSectionId → List (Nat × OutputRecordLayout)) → Option RescanSections → ScanResult G

namespace ScanResult

variable {G : Type} (r : ScanResult G)

/-- `total_deleted`. -/
def deleted : Nat := (r.reductions.map fun group => (group.map (·.2)).sum).sum

/-- The sizes behind the pass. -/
def shrink (groupSizes : List (PartMap Nat)) : List (PartMap Nat) :=
  groupSizes.zipIdx.map fun group =>
    ((r.reductions[group.2]?).getD []).foldl (fun sizes p => sizes.decrement p.1 p.2) group.1

/-- The candidates that the pass has brought near enough. -/
def rescan : RescanSections :=
  r.candidates.map fun files => files.map fun sections =>
    (sections.filter fun section_ => section_.2 ≤ r.deleted).map (·.1)

/-- A pass that deletes nothing leaves the sizes. -/
theorem shrink_of_deleted_eq_zero (h : r.deleted = 0) (groupSizes : List (PartMap Nat)) :
    r.shrink groupSizes = groupSizes := by
  have hzero : ∀ group ∈ r.reductions, ∀ p ∈ group, p.2 = 0 := by
    simp only [deleted, List.sum_eq_zero_iff_forall_eq_nat, List.mem_map] at h
    intro group hgroup p hp
    have hsum := h _ ⟨group, hgroup, rfl⟩
    rw [List.sum_eq_zero_iff_forall_eq_nat] at hsum
    exact hsum p.2 (List.mem_map.2 ⟨p, hp, rfl⟩)
  have hfold : ∀ (ps : List ((OutputSectionId × Nat) × Nat)) (sizes : PartMap Nat), (∀ p ∈ ps, p.2 = 0) →
      ps.foldl (fun sizes p => sizes.decrement p.1 p.2) sizes = sizes := by
    intro ps
    induction ps with
    | nil => exact fun _ _ => rfl
    | cons p ps ih =>
      intro sizes hps
      rw [List.foldl_cons, hps p List.mem_cons_self, PartMap.decrement_zero]
      exact ih sizes fun q hq => hps q (List.mem_cons_of_mem _ hq)
  have hgroups : ∀ group ∈ groupSizes.zipIdx,
      ((r.reductions[group.2]?).getD []).foldl (fun sizes p => sizes.decrement p.1 p.2) group.1 = group.1 := by
    intro group _
    apply hfold
    cases hget : r.reductions[group.2]? with
    | none => exact fun _ hp => absurd hp List.not_mem_nil
    | some ps => exact hzero ps (List.mem_of_getElem? hget)
  rw [shrink, List.map_congr_left hgroups]
  exact List.zipIdx_map_fst ..

end ScanResult

/-- What the passes change: the groups, the sizes and the layout, with the regions in it. -/
structure RelaxedLayout (G : Type) where
  groups : G
  groupSizes : List (PartMap Nat)
  layout : LayoutState

namespace LayoutContext

variable {G : Type} (ctx : LayoutContext) (scan : Scan G)

/-- `compute_layout_sections` for some sizes, with the regions as they are. -/
def layoutAgain (groupSizes : List (PartMap Nat)) (regions : Bytes → Option MemoryRegion) :
    Except LayoutError LayoutState :=
  { ctx with groupSizes, memoryRegions := regions }.computeLayoutSections

/-- The loop of `perform_iterative_relaxation`, for at most some number of iterations. -/
def relaxIterations : Nat → Option RescanSections → RelaxedLayout G → Except LayoutError (RelaxedLayout G)
  | 0, _, s => .ok s
  | n + 1, rescan, s =>
    if rescan.any fun groups => groups.all fun files => files.all List.isEmpty then .ok s
    else
      let r := scan s.groups s.groupSizes s.layout.records rescan
      let groupSizes := r.shrink s.groupSizes
      if r.deleted = 0 then .ok { s with groups := r.groups, groupSizes }
      else do
        let layout ← ctx.layoutAgain groupSizes s.layout.memoryRegions
        relaxIterations n (some r.rescan) { groups := r.groups, groupSizes, layout }

/-- The first layout and the relaxation behind it. -/
def performIterativeRelaxation (iterations : Nat) (groups : G) : Except LayoutError (RelaxedLayout G) := do
  let layout ← ctx.computeLayoutSections
  ctx.relaxIterations scan iterations none { groups, groupSizes := ctx.groupSizes, layout }

/-- Every layout that is computed again starts from regions with a property. -/
def EveryLayoutFrom (C : (Bytes → Option MemoryRegion) → Prop) :
    Nat → Option RescanSections → RelaxedLayout G → Prop
  | 0, _, _ => True
  | n + 1, rescan, s =>
    (rescan.any fun groups => groups.all fun files => files.all List.isEmpty) = false →
      let r := scan s.groups s.groupSizes s.layout.records rescan
      r.deleted ≠ 0 →
        C s.layout.memoryRegions ∧
          ∀ layout, ctx.layoutAgain (r.shrink s.groupSizes) s.layout.memoryRegions = .ok layout →
            EveryLayoutFrom C n (some r.rescan) { groups := r.groups, groupSizes := r.shrink s.groupSizes, layout }

/-- No section of the output order is in a region of which something is used. -/
def Unused (regions : Bytes → Option MemoryRegion) : Prop :=
  ∀ id ∈ orderedIds ctx.outputOrder, ∀ name ∈ ctx.regionName id, ∀ region ∈ regions name, region.used = 0

variable {ctx} {scan} {s s' : LayoutState} {id : OutputSectionId} {R : Bytes → Option MemoryRegion}

/-! ## What a layout does to the regions -/

/-- The origin and the length of a region. -/
def extent (region : MemoryRegion) : Nat × Nat := (region.origin, region.length)

/-- Regions keep their extents, and those that none of the sections is in keep everything. -/
structure RegionsKept (ctx : LayoutContext) (ids : List OutputSectionId) (R R' : Bytes → Option MemoryRegion) : Prop where
  extents : ∀ name, (R' name).map extent = (R name).map extent
  others : ∀ name, (∀ id ∈ ids, ctx.regionName id ≠ some name) → R' name = R name

theorem RegionsKept.refl (ids : List OutputSectionId) (R : Bytes → Option MemoryRegion) : RegionsKept ctx ids R R :=
  ⟨fun _ => rfl, fun _ _ => rfl⟩

theorem RegionsKept.trans {ids ids' : List OutputSectionId} {R R' R'' : Bytes → Option MemoryRegion}
    (h : RegionsKept ctx ids R R') (h' : RegionsKept ctx ids' R' R'') : RegionsKept ctx (ids ++ ids') R R'' := by
  constructor
  · intro name
    rw [h'.extents, h.extents]
  · intro name hname
    rw [h'.others name fun id hid => hname id (List.mem_append_right _ hid),
      h.others name fun id hid => hname id (List.mem_append_left _ hid)]

/-- The region of a section gets another `used`. -/
theorem RegionsKept.use {name : Bytes} {region : MemoryRegion} (hname : ctx.regionName id = some name)
    (hregion : R name = some region) (used : Nat) :
    RegionsKept ctx [id] R (Function.update R name (some { region with used })) := by
  constructor
  · intro name'
    by_cases heq : name' = name
    · subst heq
      rw [Function.update_self, hregion]
      rfl
    · rw [Function.update_of_ne heq]
  · intro name' hother
    have hne : name' ≠ name := fun heq => hother id List.mem_cons_self (heq ▸ hname)
    exact Function.update_of_ne hne _ _

theorem applyLocation_regions {region : Option MemoryRegion} {location : Option Nat}
    (h : ctx.applyLocation id region location s = .ok s') : s'.memoryRegions = s.memoryRegions := by
  unfold applyLocation at h
  cases location with
  | none => exact Except.ok.inj h ▸ rfl
  | some offset =>
    simp only at h
    split at h
    · cases h
    · split at h
      · split at h
        · cases h
        · rw [← Except.ok.inj h]
      · rw [← Except.ok.inj h]

theorem enterSection_regions (h : ctx.enterSection id s = .ok s') : s'.memoryRegions = s.memoryRegions := by
  obtain ⟨region, s₁, -, h₁, rfl⟩ := enterSection_eq h
  rw [applyLocation_regions h₁]
  unfold enteredState visitTls
  simp only
  split <;> cases region <;> rfl

theorem placePart_regions {isFirstPart : Bool} {p : Nat × Nat} (h : ctx.placePart id isFirstPart p s = .ok s') :
    s'.memoryRegions = s.memoryRegions := by
  have hadvance : ∀ r, (ctx.advance id r s).memoryRegions = s.memoryRegions := by
    intro r
    unfold advance
    split
    · split <;> rfl
    · rfl
  unfold placePart at h
  split at h
  · rw [← Except.ok.inj h]
    exact hadvance _
  · obtain ⟨lma, -, h⟩ := Traverse.bind_eq_ok.mp h
    rw [← Except.ok.inj h]
    exact hadvance _

theorem placeParts_regions {isFirstPart : Bool} {ps : List (Nat × Nat)}
    (h : ctx.placeParts id isFirstPart ps s = .ok s') : s'.memoryRegions = s.memoryRegions := by
  induction ps generalizing s isFirstPart with
  | nil => exact Except.ok.inj h ▸ rfl
  | cons p ps ih =>
    obtain ⟨s₁, h₁, h⟩ := Traverse.bind_eq_ok.mp h
    rw [ih h, placePart_regions h₁]

theorem leaveSection_regions (h : ctx.leaveSection id s = .ok s') :
    RegionsKept ctx [id] s.memoryRegions s'.memoryRegions := by
  unfold leaveSection at h
  split at h
  · exact Except.ok.inj h ▸ RegionsKept.refl _ _
  · rename_i name hname
    split at h
    · exact Except.ok.inj h ▸ RegionsKept.refl _ _
    · rename_i region hregion
      split at h
      · cases h
      · rw [← Except.ok.inj h]
        exact RegionsKept.use hname hregion _

theorem layoutEvent_regions {e : OrderEvent} (h : ctx.layoutEvent s e = .ok s') :
    RegionsKept ctx (orderedIds [e]) s.memoryRegions s'.memoryRegions := by
  cases e with
  | outputSection id =>
    obtain ⟨-, s₁, s₂, h₁, h₂, h₃⟩ := placeSection_steps h
    rw [← enterSection_regions h₁, ← placeParts_regions h₂]
    exact leaveSection_regions h₃
  | segmentEnd segment => exact Except.ok.inj h ▸ RegionsKept.refl _ _
  | segmentStart segment =>
    have hkept : s'.memoryRegions = s.memoryRegions := by
      rw [← Except.ok.inj h]
      split
      · unfold startSegment
        split <;> rfl
      · rfl
    exact hkept ▸ RegionsKept.refl _ _
  | setLocation expr loc idx | setLocationRelative expr id loc idx | setSectionAddress expr =>
    obtain ⟨value, -, h⟩ := Traverse.bind_eq_ok.mp h
    exact Except.ok.inj h ▸ RegionsKept.refl _ _

theorem layoutEvents_regions {es : List OrderEvent} (h : ctx.layoutEvents es s = .ok s') :
    RegionsKept ctx (orderedIds es) s.memoryRegions s'.memoryRegions := by
  refine layoutEvents_induct (I := fun es s' => RegionsKept ctx (orderedIds es) s.memoryRegions s'.memoryRegions) []
    (fun es e s s' _ hs he => ?_) (.refl _ _) h
  rw [orderedIds_append]
  exact hs.trans (layoutEvent_regions he)

theorem computeLayoutSections_regions (h : ctx.computeLayoutSections = .ok s) :
    RegionsKept ctx (orderedIds ctx.outputOrder) ctx.memoryRegions s.memoryRegions := by
  obtain ⟨s₀, h₀, h⟩ := Traverse.bind_eq_ok.mp h
  obtain ⟨base, -, h₀⟩ := Traverse.bind_eq_ok.mp h₀
  rw [← Except.ok.inj h₀] at h
  exact layoutEvents_regions h

/-- Regions that are unused again are the ones the link started with. -/
theorem RegionsKept.eq_of_unused (hfresh : ∀ name, ∀ region ∈ ctx.memoryRegions name, region.used = 0)
    (h : RegionsKept ctx (orderedIds ctx.outputOrder) ctx.memoryRegions R) (hunused : ctx.Unused R) :
    R = ctx.memoryRegions := by
  funext name
  by_cases hname : ∀ id ∈ orderedIds ctx.outputOrder, ctx.regionName id ≠ some name
  · exact h.others name hname
  · -- the region of a section: its extents are the same, and both are unused
    simp only [not_forall, not_not] at hname
    obtain ⟨id, hid, hname⟩ := hname
    have hextent := h.extents name
    have hnow := hunused id hid name hname
    have hthen := hfresh name
    cases hR : R name with
    | none =>
      rw [hR, Option.map_none, eq_comm, Option.map_eq_none_iff] at hextent
      exact hextent.symm
    | some region =>
      rw [hR, Option.map_some, eq_comm, Option.map_eq_some_iff] at hextent
      obtain ⟨region₀, hregion₀, hextent⟩ := hextent
      have husedNow := hnow region hR
      have husedThen := hthen region₀ hregion₀
      simp only [extent, Prod.mk.injEq] at hextent
      rw [hregion₀, Option.some.injEq]
      cases region
      cases region₀
      simp only at hextent husedNow husedThen
      rw [hextent.1, hextent.2, husedNow, husedThen]

/-! ## The run -/

/-- The layout is the one of a fresh link with the same sizes. -/
structure LaidOutFresh (ctx : LayoutContext) (s : RelaxedLayout G) : Prop where
  layout : ctx.layoutAgain s.groupSizes ctx.memoryRegions = .ok s.layout
  regions : RegionsKept ctx (orderedIds ctx.outputOrder) ctx.memoryRegions s.layout.memoryRegions

/-- What is computed from unused regions is what a fresh link computes. -/
theorem laidOutFresh_again {s : RelaxedLayout G} {groups : G} {groupSizes : List (PartMap Nat)} {layout : LayoutState}
    (hfresh : ∀ name, ∀ region ∈ ctx.memoryRegions name, region.used = 0) (h : LaidOutFresh ctx s)
    (hunused : ctx.Unused s.layout.memoryRegions)
    (hlayout : ctx.layoutAgain groupSizes s.layout.memoryRegions = .ok layout) :
    LaidOutFresh ctx { groups, groupSizes, layout } := by
  rw [h.regions.eq_of_unused hfresh hunused] at hlayout
  have hregions := computeLayoutSections_regions hlayout
  exact ⟨hlayout, hregions.extents, hregions.others⟩

theorem relaxIterations_fresh (hfresh : ∀ name, ∀ region ∈ ctx.memoryRegions name, region.used = 0) {n : Nat}
    {rescan : Option RescanSections} {s fin : RelaxedLayout G} (h : LaidOutFresh ctx s)
    (hrun : ctx.EveryLayoutFrom scan ctx.Unused n rescan s) (hfin : ctx.relaxIterations scan n rescan s = .ok fin) :
    LaidOutFresh ctx fin := by
  induction n generalizing rescan s with
  | zero => exact Except.ok.inj hfin ▸ h
  | succ n ih =>
    unfold relaxIterations at hfin
    split at hfin
    · exact Except.ok.inj hfin ▸ h
    · rename_i hrescan
      simp only at hfin
      split at hfin
      · -- nothing is deleted: the sizes and the layout stay
        rename_i hdeleted
        rw [← Except.ok.inj hfin, ScanResult.shrink_of_deleted_eq_zero _ hdeleted]
        exact ⟨h.layout, h.regions⟩
      · rename_i hdeleted
        obtain ⟨layout, hlayout, hfin⟩ := Traverse.bind_eq_ok.mp hfin
        obtain ⟨hunused, hrest⟩ := hrun (Bool.eq_false_iff.mpr hrescan) hdeleted
        exact ih (laidOutFresh_again hfresh h hunused hlayout) (hrest layout hlayout) hfin

/-- **Relaxation lays out like a fresh link**, for any number of iterations, when no layout starts from a region
    that is in use. -/
theorem relaxed_layout_eq_fresh (ctx : LayoutContext) (scan : Scan G) (iterations : Nat) (groups : G)
    (hfresh : ∀ name, ∀ region ∈ ctx.memoryRegions name, region.used = 0) {fin : RelaxedLayout G}
    (hfin : ctx.performIterativeRelaxation scan iterations groups = .ok fin)
    (hrun : ∀ layout, ctx.computeLayoutSections = .ok layout →
      ctx.EveryLayoutFrom scan ctx.Unused iterations none { groups, groupSizes := ctx.groupSizes, layout }) :
    ctx.layoutAgain fin.groupSizes ctx.memoryRegions = .ok fin.layout := by
  obtain ⟨layout, hlayout, hfin⟩ := Traverse.bind_eq_ok.mp hfin
  have hstart : LaidOutFresh ctx { groups, groupSizes := ctx.groupSizes, layout : RelaxedLayout G } :=
    ⟨hlayout, computeLayoutSections_regions hlayout⟩
  exact (relaxIterations_fresh hfresh hstart (hrun layout hlayout) hfin).layout

/-- Eight bytes of `.text` and an empty `.data`, one of which is in a region. -/
def ramLink (inRam : OutputSectionId) : LayoutContext where
  outputSections := OutputSections.withBaseAddress (.staticExecutable .nonRelocatable)
  minAlignment := fun _ => 0
  regionName := fun id => if id = inRam then some (bytesOf "RAM") else none
  baseAddress := .number 0
  isLoadSegment := fun _ => true
  loadableSegmentAlignment := 12
  outputOrder := [.outputSection textSection, .outputSection dataSection]
  groupSizes := [{ parts := fun id part => if id = textSection ∧ part = partWithAlignment 1 then 8 else 0 }]
  memoryRegions := fun name =>
    if name = bytesOf "RAM" then some { origin := 0x1000, length := 0x1000, used := 0 } else none
  evaluate := fun e _ _ _ _ =>
    match e with
    | .number v => .ok v
    | _ => .error "not a number"

theorem ramLink_fresh (inRam : OutputSectionId) :
    ∀ name, ∀ region ∈ (ramLink inRam).memoryRegions name, region.used = 0 := by
  intro name region hregion
  simp only [ramLink] at hregion
  split at hregion
  · cases hregion
    rfl
  · cases hregion

/-- A call in `.text` loses four bytes in the first pass. -/
def oneCall : Scan Bool := fun relaxed _ _ _ =>
  { groups := true
    reductions := if relaxed then [] else [[((textSection, partWithAlignment 1), 4)]]
    candidates := [[[(0, 0)]]] }

/-- Nothing is in the region. -/
theorem relaxed_layout_empty_region :
    ∃ fin, (ramLink dataSection).performIterativeRelaxation oneCall 5 false = .ok fin ∧
      (ramLink dataSection).layoutAgain fin.groupSizes (ramLink dataSection).memoryRegions = .ok fin.layout := by
  have hok : ((ramLink dataSection).performIterativeRelaxation oneCall 5 false).isOk = true := by decide +kernel
  have hused : ((ramLink dataSection).computeLayoutSections.toOption.bind fun layout =>
      layout.memoryRegions (bytesOf "RAM")).map (·.used) = some 0 := by decide +kernel
  cases hfin : (ramLink dataSection).performIterativeRelaxation oneCall 5 false with
  | error e =>
    rw [hfin] at hok
    cases hok
  | ok fin =>
    refine ⟨fin, rfl, relaxed_layout_eq_fresh _ oneCall 5 false (ramLink_fresh _) hfin ?_⟩
    intro layout hlayout _ r _
    refine ⟨?_, fun layout' _ _ hdeleted => absurd rfl hdeleted⟩
    intro id _ name hname region hregion
    obtain ⟨-, rfl⟩ : id = dataSection ∧ bytesOf "RAM" = name := by simpa [ramLink] using hname
    rw [hlayout] at hused
    rw [show (Except.ok layout : Except LayoutError LayoutState).toOption = some layout from rfl, Option.bind_some,
      Option.mem_def.1 hregion] at hused
    exact Option.some.inj hused

/-- `.text` is in the region: laid out again it starts at `0x1008`, behind its own first place. -/
theorem relaxed_layout_used_region :
    ¬ ∀ (G : Type) (ctx : LayoutContext) (scan : Scan G) (iterations : Nat) (groups : G) (fin : RelaxedLayout G),
      (∀ name, ∀ region ∈ ctx.memoryRegions name, region.used = 0) →
      ctx.performIterativeRelaxation scan iterations groups = .ok fin →
      ∃ layout, ctx.layoutAgain fin.groupSizes ctx.memoryRegions = .ok layout ∧
        layout.sectionLayouts = fin.layout.sectionLayouts ∧ layout.memoryRegions = fin.layout.memoryRegions := by
  intro h
  have hrelaxed : ((ramLink textSection).performIterativeRelaxation oneCall 5 false).toOption.map
      (fun fin => (fin.layout.sectionLayouts textSection).memOffset) = some 0x1008 := by decide +kernel
  have hfresh : ((ramLink textSection).performIterativeRelaxation oneCall 5 false).toOption.bind
      (fun fin => ((ramLink textSection).layoutAgain fin.groupSizes (ramLink textSection).memoryRegions).toOption.map
        fun layout => (layout.sectionLayouts textSection).memOffset) = some 0x1000 := by decide +kernel
  cases hfin : (ramLink textSection).performIterativeRelaxation oneCall 5 false with
  | error e =>
    rw [hfin] at hrelaxed
    cases hrelaxed
  | ok fin =>
    obtain ⟨layout, hlayout, hsections, -⟩ := h Bool _ oneCall 5 false fin (ramLink_fresh _) hfin
    rw [hfin] at hrelaxed hfresh
    have hbehind : (fin.layout.sectionLayouts textSection).memOffset = 0x1008 := Option.some.inj hrelaxed
    have hstart : (((ramLink textSection).layoutAgain fin.groupSizes (ramLink textSection).memoryRegions).toOption.map
        fun layout => (layout.sectionLayouts textSection).memOffset) = some 0x1000 := hfresh
    rw [hlayout] at hstart
    have hfront : (layout.sectionLayouts textSection).memOffset = 0x1000 := Option.some.inj hstart
    rw [hsections, hbehind] at hfront
    exact absurd hfront (by decide)

end LayoutContext

end Reld
