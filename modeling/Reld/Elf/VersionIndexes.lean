import Reld.Elf.Versions

/-!
# `Elf.VersionIndexes` — the version passes agree

The passes of `Elf.Versions` count, number, map and write the needed versions separately. Since the indices
of the version definitions are `1, 2, …` in some order, and the base is never marked, each of them sees the
same versions: the needed ones of `MarksOf`.

`writeVerneed_spec` says what the writer does with a counted and numbered object, and `versions_agree`
assembles it over all objects.
-/

namespace Reld

open Numbering

/-! ## Related lists -/

variable {α β : Type} {l : List α} {R : α → β → Prop} {l' : List β}

theorem map_eq_of_forall₂ {γ : Type} (h : List.Forall₂ R l l') {f : α → γ} {g : β → γ}
    (hfg : ∀ a ∈ l, ∀ b, R a b → f a = g b) :
    l.map f = l'.map g := by
  induction h with
  | nil => rfl
  | cons hab _ ih =>
    rw [List.map_cons, List.map_cons, hfg _ List.mem_cons_self _ hab,
      ih (fun a ha => hfg a (List.mem_cons_of_mem _ ha))]

theorem exists_of_forall₂ (h : List.Forall₂ R l l') {a : α} (ha : a ∈ l) : ∃ b ∈ l', R a b := by
  induction h with
  | nil => cases ha
  | cons hab _ ih =>
    rcases List.mem_cons.mp ha with rfl | ha'
    · exact ⟨_, List.mem_cons_self, hab⟩
    · obtain ⟨b, hb, hrel⟩ := ih ha'
      exact ⟨b, List.mem_cons_of_mem _ hb, hrel⟩

theorem rel_of_forall₂ (h : List.Forall₂ R l l') {k : Nat} {a : α} {b : β} (ha : l[k]? = some a)
    (hb : l'[k]? = some b) :
    R a b := by
  induction h generalizing k with
  | nil => simp at ha
  | cons hab _ ih =>
    cases k with
    | zero =>
      rw [List.getElem?_cons_zero, Option.some.injEq] at ha hb
      rw [← ha, ← hb]
      exact hab
    | succ k => exact ih (by simpa using ha) (by simpa using hb)

/-! ## The needed versions -/

/-- Whether a version definition is needed: not the base, and marked. -/
def isNeeded (needed : List Bool) (d : InputVerdef) : Bool :=
  !d.isBase && needed[d.ndx - verNdxGlobal]?.getD false

namespace VersionedObject

variable {o : VersionedObject}

/-- The indices lie between 1 and the number of definitions. -/
theorem ndx_bounds {d : InputVerdef} (hd : d ∈ o.verdefs) : 1 ≤ d.ndx ∧ d.ndx ≤ o.verdefnum := by
  have hmem : d.ndx ∈ List.range' 1 o.verdefs.length :=
    o.indices.mem_iff.mp (List.mem_map_of_mem hd)
  rw [List.mem_range'_1] at hmem
  rw [verdefnum]
  omega

/-- Every index up to the number of definitions is that of a definition. -/
theorem exists_ndx {i : Nat} (hpos : 1 ≤ i) (hle : i ≤ o.verdefnum) : ∃ d ∈ o.verdefs, d.ndx = i := by
  have hmem : i ∈ List.range' 1 o.verdefs.length := by
    rw [List.mem_range'_1]
    rw [verdefnum] at hle
    omega
  exact List.mem_map.mp (o.indices.mem_iff.mpr hmem)

/-- Definitions are told apart by their indices. -/
theorem ndx_nodup : (o.verdefs.map (fun d : InputVerdef => d.ndx)).Nodup :=
  o.indices.nodup_iff.mpr List.nodup_range'

/-- The offsets of the versions, in the order of the definitions, are all offsets. -/
theorem offsets_perm :
    (o.verdefs.map (fun d : InputVerdef => d.ndx - verNdxGlobal)).Perm (List.range o.verdefnum) := by
  have hmap := o.indices.map (· - verNdxGlobal)
  rw [List.map_map] at hmap
  have hrange : (List.range' 1 o.verdefs.length).map (· - verNdxGlobal) = List.range o.verdefnum := by
    rw [List.range'_eq_map_range, List.map_map, verdefnum]
    refine (List.map_congr_left (fun i _ => ?_)).trans (List.map_id _)
    show 1 + i - verNdxGlobal = i
    rw [verNdxGlobal]
    omega
  rw [hrange] at hmap
  exact hmap

end VersionedObject

variable {o : VersionedObject} {used : List Nat} {needed : List Bool}

/-- The base is not marked, so the marked definitions are the needed ones. -/
theorem MarksOf.isNeeded_eq (h : MarksOf o used needed) {d : InputVerdef} (hd : d ∈ o.verdefs) :
    isNeeded needed d = needed[d.ndx - verNdxGlobal]?.getD false := by
  rw [isNeeded]
  cases hbase : d.isBase with
  | false => rfl
  | true =>
    have hndx := (o.base d hd).mp hbase
    rw [hndx]
    cases hflag : needed[1 - verNdxGlobal]? with
    | none => rfl
    | some b =>
      cases b with
      | false => rfl
      | true => exact absurd hflag h.base

/-- There are as many needed definitions as marks. -/
theorem MarksOf.countP_isNeeded (h : MarksOf o used needed) :
    o.verdefs.countP (isNeeded needed) = needed.count true := by
  have hcongr : o.verdefs.countP (isNeeded needed) =
      o.verdefs.countP (fun d => needed[d.ndx - verNdxGlobal]?.getD false) :=
    List.countP_congr (fun d hd => by rw [h.isNeeded_eq hd])
  have hperm := o.offsets_perm
  rw [← h.length] at hperm
  rw [hcongr, ← countP_of_perm_range hperm, List.countP_map]
  rfl

/-! ## Counting -/

variable {verdefs : List InputVerdef}

theorem countVersions_ok {count : Nat} (h : countVersions needed verdefs = .ok count) :
    count = verdefs.countP (isNeeded needed) ∧
      ∀ d ∈ verdefs, isNeeded needed d = true → ∃ name, d.name = some name := by
  induction verdefs generalizing count with
  | nil =>
    cases h
    exact ⟨rfl, by simp⟩
  | cons d verdefs ih =>
    obtain ⟨b, hkeeps, h⟩ := Traverse.bind_eq_ok.mp h
    obtain ⟨rest, hrest, h⟩ := Traverse.bind_eq_ok.mp h
    obtain ⟨hcount, hnames⟩ := ih hrest
    -- away from the base, a version is kept when it is marked
    have hneeded : (b && !d.isBase) = isNeeded needed d := by
      rw [isNeeded]
      rw [keepsVersion] at hkeeps
      split at hkeeps
      · cases hkeeps
      split at hkeeps
      · next hbase => simp [hbase]
      · next hbase =>
          cases hflag : needed[d.ndx - verNdxGlobal]? with
          | none =>
            rw [hflag] at hkeeps
            cases hkeeps
          | some flag =>
            rw [hflag] at hkeeps
            cases hkeeps
            rw [Option.getD_some, Bool.and_comm]
    rw [List.countP_cons]
    cases hn : isNeeded needed d with
    | true =>
      rw [hn] at hneeded
      simp only [hneeded, if_true] at h
      cases hname : d.name with
      | none =>
        rw [hname] at h
        cases h
      | some name =>
        rw [hname] at h
        cases h
        refine ⟨by rw [hcount]; rfl, fun c hc hcn => ?_⟩
        rcases List.mem_cons.mp hc with rfl | hc'
        · exact ⟨name, hname⟩
        · exact hnames c hc' hcn
    | false =>
      rw [hn] at hneeded
      simp only [hneeded] at h
      cases h
      refine ⟨by rw [hcount]; rfl, fun c hc hcn => ?_⟩
      rcases List.mem_cons.mp hc with rfl | hc'
      · rw [hn] at hcn
        cases hcn
      · exact hnames c hc' hcn

/-! ## Mapping -/

/-- The output version of a definition: a number for a needed one, the global version otherwise. -/
theorem MarksOf.mapping_eq (h : MarksOf o used needed) (start : Nat) {d : InputVerdef}
    (hd : d ∈ o.verdefs) :
    (computeVersionMapping needed start)[d.ndx - verNdxGlobal]? =
      some (if isNeeded needed d then start + rank needed (d.ndx - verNdxGlobal) else verNdxGlobal) := by
  have hbounds := o.ndx_bounds hd
  have hlt : d.ndx - verNdxGlobal < needed.length := by
    rw [h.length, verNdxGlobal]
    omega
  rw [h.isNeeded_eq hd, computeVersionMapping, getElem?_number, List.getElem?_eq_getElem hlt]
  rfl

/-! ## Writing -/

/-- The writer's loop emits one record for each needed definition. -/
theorem writeVernauxes_ok (sysvHash : Bytes → BitVec 32) {mapping : List Nat} {versionCount : Nat} {auxIndex : Nat}
    (hndx : ∀ d ∈ verdefs, 1 ≤ d.ndx) (hmapped : ∀ d ∈ verdefs, d.isBase = false →
      (mapping[d.ndx - verNdxGlobal]?.getD 0 = verNdxGlobal ↔ isNeeded needed d = false))
    (hnames : ∀ d ∈ verdefs, isNeeded needed d = true → ∃ name, d.name = some name)
    (hcount : auxIndex + verdefs.countP (isNeeded needed) ≤ versionCount) :
    ∃ auxes, writeVernauxes sysvHash mapping versionCount verdefs auxIndex = .ok auxes ∧
      List.Forall₂ (fun (d : InputVerdef) (aux : OutputVernaux) =>
          aux.other = mapping[d.ndx - verNdxGlobal]?.getD 0 ∧ d.name = some aux.name)
        (verdefs.filter (isNeeded needed)) auxes := by
  induction verdefs generalizing auxIndex with
  | nil => exact ⟨[], rfl, List.Forall₂.nil⟩
  | cons d verdefs ih =>
    have hrest : auxIndex + verdefs.countP (isNeeded needed) ≤ versionCount := by
      rw [List.countP_cons] at hcount
      omega
    have hpos := hndx d List.mem_cons_self
    have hndx' : ∀ c ∈ verdefs, 1 ≤ c.ndx := fun c hc => hndx c (List.mem_cons_of_mem d hc)
    have hmapped' := fun c hc => hmapped c (List.mem_cons_of_mem d hc)
    have hnames' := fun c hc => hnames c (List.mem_cons_of_mem d hc)
    rw [writeVernauxes]
    cases hbase : d.isBase with
    | true =>
      -- the base gives the record its file name
      have hneeded : isNeeded needed d = false := by simp [isNeeded, hbase]
      rw [if_pos rfl, List.filter_cons_of_neg (by simp [hneeded])]
      exact ih hndx' hmapped' hnames' hrest
    | false =>
      rw [if_neg Bool.false_ne_true, if_neg (by omega)]
      have hglobal := hmapped d List.mem_cons_self hbase
      cases hneeded : isNeeded needed d with
      | false =>
        rw [List.filter_cons_of_neg (by simp [hneeded])]
        simp only [if_pos (hglobal.mpr hneeded)]
        exact ih hndx' hmapped' hnames' hrest
      | true =>
        have hother : ¬mapping[d.ndx - verNdxGlobal]?.getD 0 = verNdxGlobal := by
          rw [hglobal, hneeded]
          exact fun h => Bool.noConfusion h
        obtain ⟨name, hname⟩ := hnames d List.mem_cons_self hneeded
        rw [List.countP_cons_of_pos hneeded] at hcount
        obtain ⟨auxes, hauxes, hrel⟩ :=
          ih hndx' hmapped' hnames' (show auxIndex + 1 + verdefs.countP (isNeeded needed) ≤ versionCount by omega)
        rw [List.filter_cons_of_pos hneeded]
        simp only [if_neg hother, hname, if_neg (show ¬versionCount ≤ auxIndex by omega), hauxes, Except.map]
        exact ⟨_, rfl, List.Forall₂.cons ⟨rfl, hname⟩ hrel⟩

/-- The records of an object: one for each needed version, in the order of the definitions. -/
def Records (s : DynamicState) (verneed : Option OutputVerneed) : Prop :=
  (∀ v, verneed = some v → v.count = s.versionCount ∧ v.file = some s.object.libName) ∧
  List.Forall₂ (fun (d : InputVerdef) (aux : OutputVernaux) =>
      aux.other = s.mapping[d.ndx - verNdxGlobal]?.getD 0 ∧ d.name = some aux.name)
    (s.object.verdefs.filter (isNeeded s.needed)) (verneed.elim [] (·.auxes))

/-- An object whose versions have been counted and numbered. -/
structure Numbered (used : List Nat) (s : DynamicState) : Prop where
  marks : MarksOf s.object used s.needed
  count : s.versionCount = s.object.verdefs.countP (isNeeded s.needed)
  names : ∀ d ∈ s.object.verdefs, isNeeded s.needed d = true → ∃ name, d.name = some name
  start : 2 ≤ s.nextIndex

namespace Numbered

variable {s : DynamicState}

variable {d : InputVerdef}

/-- The output version of a definition, as the writer reads it. -/
theorem output_eq (h : Numbered used s) (hd : d ∈ s.object.verdefs) :
    s.mapping[d.ndx - verNdxGlobal]?.getD 0 =
      if isNeeded s.needed d then s.nextIndex + rank s.needed (d.ndx - verNdxGlobal) else verNdxGlobal := by
  rw [DynamicState.mapping, h.marks.mapping_eq s.nextIndex hd, Option.getD_some]

/-- A definition has a version of its own exactly when it is needed. -/
theorem output_global_iff (h : Numbered used s) (hd : d ∈ s.object.verdefs) :
    s.mapping[d.ndx - verNdxGlobal]?.getD 0 = verNdxGlobal ↔ isNeeded s.needed d = false := by
  have hstart := h.start
  rw [h.output_eq hd, verNdxGlobal]
  cases hneeded : isNeeded s.needed d with
  | false => simp
  | true =>
    simp only [if_true, Bool.true_eq_false, iff_false]
    omega

/-- **What is written for one object.** Nothing when no version is needed, otherwise one record for each
    needed version, under the name of the library. -/
theorem writeVerneed_ok (h : Numbered used s) (sysvHash : Bytes → BitVec 32) (isLast : Bool) :
    ∃ verneed, writeVerneed sysvHash s.object s.mapping s.versionCount isLast = .ok verneed ∧
      Records s verneed := by
  rw [writeVerneed]
  by_cases hzero : s.versionCount = 0
  · rw [if_pos hzero]
    refine ⟨none, rfl, by simp, ?_⟩
    have hnone : s.object.verdefs.filter (isNeeded s.needed) = [] := by
      rw [List.filter_eq_nil_iff]
      exact List.countP_eq_zero.mp (h.count.symm.trans hzero)
    rw [hnone]
    exact List.Forall₂.nil
  · rw [if_neg hzero]
    have hroom : 0 + s.object.verdefs.countP (isNeeded s.needed) ≤ s.versionCount := by
      rw [Nat.zero_add, h.count]
    obtain ⟨auxes, hauxes, hrel⟩ := writeVernauxes_ok sysvHash
      (fun d hd => (s.object.ndx_bounds hd).1) (fun d hd _ => h.output_global_iff hd) h.names hroom
    rw [hauxes]
    refine ⟨_, rfl, ?_, hrel⟩
    intro v hv
    rw [Option.some.injEq] at hv
    rw [← hv]
    refine ⟨rfl, if_pos ?_⟩
    -- an object with a needed version has definitions, and the one with index 1 is the base
    have hpos : 1 ≤ s.object.verdefnum := by
      rw [VersionedObject.verdefnum]
      have := List.countP_le_length (p := isNeeded s.needed) (l := s.object.verdefs)
      have := h.count
      omega
    obtain ⟨d, hd, hndx⟩ := s.object.exists_ndx (Nat.le_refl 1) hpos
    exact List.any_eq_true.mpr ⟨d, hd, (s.object.base d hd).mpr hndx⟩

variable {verneed : Option OutputVerneed}

/-- The indices written for an object are those of its needed versions. -/
theorem vernauxIndexes_eq (h : Numbered used s) (hrec : Records s verneed) :
    vernauxIndexes verneed = (s.object.verdefs.filter (isNeeded s.needed)).map
      (fun d => s.nextIndex + rank s.needed (d.ndx - verNdxGlobal)) := by
  refine (map_eq_of_forall₂ hrec.2 (fun d hd aux hout => ?_)).symm
  obtain ⟨hmem, hneeded⟩ := List.mem_filter.mp hd
  rw [hout.1, h.output_eq hmem, if_pos hneeded]

theorem length_vernauxIndexes (h : Numbered used s) (hrec : Records s verneed) :
    (vernauxIndexes verneed).length = s.versionCount := by
  rw [h.vernauxIndexes_eq hrec, List.length_map, h.count, List.countP_eq_length_filter]

/-- A needed definition is marked. -/
theorem marked (h : Numbered used s) (hd : d ∈ s.object.verdefs) (hneeded : isNeeded s.needed d = true) :
    s.needed[d.ndx - verNdxGlobal]? = some true := by
  rw [h.marks.isNeeded_eq hd] at hneeded
  cases hflag : s.needed[d.ndx - verNdxGlobal]? with
  | none =>
    rw [hflag] at hneeded
    cases hneeded
  | some b =>
    rw [hflag] at hneeded
    exact congrArg some hneeded

/-- The indices of an object fill its block. -/
theorem index_bounds (h : Numbered used s) (hrec : Records s verneed) {i : Nat} (hi : i ∈ vernauxIndexes verneed) :
    s.nextIndex ≤ i ∧ i < s.nextIndex + s.versionCount := by
  rw [h.vernauxIndexes_eq hrec] at hi
  obtain ⟨d, hd, rfl⟩ := List.mem_map.mp hi
  obtain ⟨hmem, hneeded⟩ := List.mem_filter.mp hd
  have hrank := rank_lt_count (h.marked hmem hneeded)
  rw [← h.marks.countP_isNeeded, ← h.count] at hrank
  omega

theorem nodup_vernauxIndexes (h : Numbered used s) (hrec : Records s verneed) : (vernauxIndexes verneed).Nodup := by
  rw [h.vernauxIndexes_eq hrec]
  have hnodup : (s.object.verdefs.filter (isNeeded s.needed)).Nodup :=
    (List.Nodup.of_map _ s.object.ndx_nodup).filter _
  refine hnodup.map_on (fun d hd c hc heq => ?_)
  obtain ⟨hdmem, hdn⟩ := List.mem_filter.mp hd
  obtain ⟨hcmem, hcn⟩ := List.mem_filter.mp hc
  have hrank : rank s.needed (d.ndx - verNdxGlobal) = rank s.needed (c.ndx - verNdxGlobal) := by omega
  have hoffset := rank_inj (h.marked hdmem hdn) (h.marked hcmem hcn) hrank
  have hd1 := s.object.ndx_bounds hdmem
  have hc1 := s.object.ndx_bounds hcmem
  rw [verNdxGlobal] at hoffset
  exact List.inj_on_of_nodup_map s.object.ndx_nodup hdmem hcmem (by omega)

/-- The record of a used version: it names the version, and the symbol's entry holds its index. -/
theorem symbol_record (h : Numbered used s) (hrec : Records s verneed) {i : Nat} (hi : i ∈ used) {versym : Versym}
    (hversym : s.object.versym[i]? = some versym) (htwo : 2 ≤ versym.index) :
    ∃ record aux d, verneed = some record ∧ record.file = some s.object.libName ∧
      record.count = s.versionCount ∧ aux ∈ record.auxes ∧ d ∈ s.object.verdefs ∧ d.ndx = versym.index ∧
      d.name = some aux.name ∧ copySymbolVersion s.object s.mapping i = .ok aux.other := by
  have hflag := h.marks.marked i hi versym hversym htwo
  have hlt : versym.index - verNdxGlobal < s.object.verdefnum := by
    rw [← h.marks.length]
    exact (List.getElem?_eq_some_iff.mp hflag).1
  rw [verNdxGlobal] at hlt
  obtain ⟨d, hd, hndx⟩ := s.object.exists_ndx (show 1 ≤ versym.index by omega) (by omega)
  have hneeded : isNeeded s.needed d = true := by
    rw [h.marks.isNeeded_eq hd, hndx, hflag, Option.getD_some]
  obtain ⟨aux, haux, hother, hname⟩ :=
    exists_of_forall₂ hrec.2 (List.mem_filter.mpr ⟨hd, hneeded⟩)
  cases verneed with
  | none => cases haux
  | some record =>
    obtain ⟨hcount, hfile⟩ := hrec.1 record rfl
    refine ⟨record, aux, d, rfl, hfile, hcount, haux, hd, hndx, hname, ?_⟩
    have hmapped := h.marks.mapping_eq s.nextIndex hd
    rw [copySymbolVersion, hversym]
    have hspecial : isSpecialVersion versym.index = false := by
      simp only [isSpecialVersion, decide_eq_false_iff_not]
      omega
    simp only [hspecial, Bool.false_eq_true, if_false]
    rw [← hndx]
    rw [DynamicState.mapping] at hother ⊢
    rw [hmapped] at hother ⊢
    exact congrArg Except.ok hother.symm

end Numbered

/-! ## All objects -/

/-- A pass over a list succeeds step by step. -/
theorem mapM_cons_ok {f : α → Except String β} {a : α} {out : List β} (h : (a :: l).mapM f = .ok out) :
    ∃ b rest, f a = .ok b ∧ l.mapM f = .ok rest ∧ out = b :: rest := by
  rw [List.mapM_cons] at h
  obtain ⟨b, ha, h⟩ := Traverse.bind_eq_ok.mp h
  obtain ⟨rest, hl, h⟩ := Traverse.bind_eq_ok.mp h
  exact ⟨b, rest, ha, hl, (Except.ok.inj h).symm⟩

variable {states : List DynamicState}

/-- The layout passes number every object, in blocks that follow one another. -/
theorem layoutVersions_ok {inputs : List (VersionedObject × List Nat)} {next : Nat} (hnext : 2 ≤ next)
    {marked counted : List DynamicState} (hmark : markVersions inputs = .ok marked)
    (hcount : finaliseSizesDynamic marked = .ok counted)
    (hnumber : applyNonAddressableIndexes counted next = .ok states) :
    List.Forall₂ (fun p s => s.object = p.1 ∧ Numbered p.2 s) inputs states ∧
      states.Pairwise (fun s t => s.nextIndex + s.versionCount ≤ t.nextIndex) ∧
      ∀ s ∈ states, next ≤ s.nextIndex := by
  induction inputs generalizing next marked counted states with
  | nil =>
    cases hmark
    cases hcount
    cases hnumber
    exact ⟨List.Forall₂.nil, List.Pairwise.nil, by simp⟩
  | cons p inputs ih =>
    obtain ⟨m, marked', hm, hmark', rfl⟩ := mapM_cons_ok hmark
    obtain ⟨c, counted', hc, hcount', rfl⟩ := mapM_cons_ok hcount
    obtain ⟨needed, hneeded, hm⟩ := Traverse.bind_eq_ok.mp hm
    cases hm
    obtain ⟨versionCount, hversions, hc⟩ := Traverse.bind_eq_ok.mp hc
    cases hc
    obtain ⟨hcountP, hnames⟩ := countVersions_ok hversions
    rw [applyNonAddressableIndexes] at hnumber
    split at hnumber
    · cases hnumber
    obtain ⟨states', hrest, hnumber⟩ := Traverse.bind_eq_ok.mp hnumber
    cases hnumber
    obtain ⟨hrel, hpair, hle⟩ := ih (by omega) hmark' hcount' hrest
    refine ⟨List.Forall₂.cons ⟨rfl, ?_⟩ hrel, List.pairwise_cons.mpr ⟨hle, hpair⟩, ?_⟩
    · exact { marks := marksOf_symbolVersionsNeeded hneeded, count := hcountP,
              names := hnames, start := hnext }
    · intro s hs
      rcases List.mem_cons.mp hs with rfl | hs'
      · exact Nat.le_refl next
      · have := hle s hs'
        omega

/-- Writing the numbered objects does not fail. -/
theorem writeVerneeds_ok (sysvHash : Bytes → BitVec 32) (total : Nat) (h : ∀ s ∈ states, ∃ used, Numbered used s)
    (before : Nat) :
    ∃ verneeds, writeVerneeds sysvHash total states before = .ok verneeds ∧
      List.Forall₂ Records states verneeds := by
  induction states generalizing before with
  | nil => exact ⟨[], rfl, List.Forall₂.nil⟩
  | cons s states ih =>
    obtain ⟨used, hs⟩ := h s List.mem_cons_self
    obtain ⟨verneed, hverneed, hrec⟩ :=
      hs.writeVerneed_ok sysvHash (decide (before + versionRSize s = total))
    obtain ⟨verneeds, hrest, hrel⟩ :=
      ih (fun t ht => h t (List.mem_cons_of_mem s ht)) (before + versionRSize s)
    refine ⟨verneed :: verneeds, ?_, List.Forall₂.cons hrec hrel⟩
    simp only [writeVerneeds, hverneed, hrest, bind, Except.bind]

/-- Blocks that follow one another have no index in common. -/
theorem nodup_indexes {verneeds : List (Option OutputVerneed)} (hstates : ∀ s ∈ states, ∃ used, Numbered used s)
    (hrel : List.Forall₂ Records states verneeds)
    (hblocks : states.Pairwise (fun s t => s.nextIndex + s.versionCount ≤ t.nextIndex)) :
    (verneeds.flatMap vernauxIndexes).Nodup ∧
      ∀ i ∈ verneeds.flatMap vernauxIndexes, ∃ s ∈ states, s.nextIndex ≤ i := by
  induction hrel with
  | nil => exact ⟨List.nodup_nil, by simp⟩
  | @cons s verneed states verneeds hrec _ ih =>
    obtain ⟨hhead, htail⟩ := List.pairwise_cons.mp hblocks
    obtain ⟨used, hs⟩ := hstates s List.mem_cons_self
    obtain ⟨hnodup, hlower⟩ := ih (fun t ht => hstates t (List.mem_cons_of_mem s ht)) htail
    refine ⟨List.nodup_append.mpr ⟨hs.nodup_vernauxIndexes hrec, hnodup, ?_⟩, ?_⟩
    · intro i hi j hj heq
      have hi' := hs.index_bounds hrec hi
      obtain ⟨t, ht, hjt⟩ := hlower j hj
      have := hhead t ht
      omega
    · intro i hi
      rcases List.mem_append.mp hi with hi' | hi'
      · exact ⟨s, List.mem_cons_self, (hs.index_bounds hrec hi').1⟩
      · obtain ⟨t, ht, hit⟩ := hlower i hi'
        exact ⟨t, List.mem_cons_of_mem s ht, hit⟩

/-! ## The versions of the version script -/

variable {sysvHash : Bytes → BitVec 32} {out : List OutputVerdef}

/-- The definitions fit into the reserved bytes, and are numbered from the global version on. -/
theorem writeVerdefs_ok {verdefs : List ScriptVersion} {i size : Nat} {names : List Bytes}
    (h : writeVerdefs sysvHash verdefs i names size = .ok out) :
    28 * verdefs.length ≤ size ∧
      ∀ d ∈ out, ∃ j < verdefs.length, d.index = (verNdxGlobal + (i + j)) % 2 ^ 16 := by
  induction verdefs generalizing i size names out with
  | nil =>
    cases h
    exact ⟨Nat.zero_le _, by simp⟩
  | cons verdef verdefs ih =>
    obtain ⟨parentName, -, h⟩ := Traverse.bind_eq_ok.mp h
    by_cases hsize : size < 20 + 8 * auxCount verdef
    · rw [if_pos hsize] at h
      cases h
    · rw [if_neg hsize] at h
      obtain ⟨rest, hrest, h⟩ := Traverse.bind_eq_ok.mp h
      cases h
      obtain ⟨hfits, hindexes⟩ := ih hrest
      have haux : 1 ≤ auxCount verdef := by
        rw [auxCount]
        split <;> decide
      refine ⟨?_, ?_⟩
      · rw [List.length_cons]
        omega
      · intro d hd
        rcases List.mem_cons.mp hd with rfl | hd'
        · exact ⟨0, Nat.succ_pos _, rfl⟩
        · obtain ⟨j, hj, hindex⟩ := hindexes d hd'
          refine ⟨j + 1, Nat.succ_lt_succ hj, ?_⟩
          rw [hindex, Nat.add_right_comm i 1 j, Nat.add_assoc i j 1]

/-- The indices of the version definitions come before those of the shared objects. -/
theorem writeOutputVerdefs_lt {baseName : Bytes} {versions : List ScriptVersion}
    (h : writeOutputVerdefs sysvHash baseName versions = .ok out) :
    ∀ d ∈ out, d.index < verNdxGlobal + max 1 (versionCount versions) := by
  intro d hd
  rw [writeOutputVerdefs, allocateVerdefs] at h
  by_cases hpos : 0 < versionCount versions
  · rw [if_pos hpos] at h
    obtain ⟨hfits, hindexes⟩ := writeVerdefs_ok h
    obtain ⟨j, hj, hindex⟩ := hindexes d hd
    -- the reserved bytes are counted in 16 bits, so there are few definitions and none is wrapped
    have hlen : versions ≠ [] := by
      intro hnil
      rw [hnil] at hpos
      exact absurd hpos (by decide)
    have htail : versions.tail.length + 1 = versions.length := by
      rw [List.length_tail]
      have := List.length_pos_iff.mpr hlen
      omega
    rw [List.length_cons, htail] at hj hfits
    have hcount : versionCount versions = versions.length := by
      rw [versionCount] at hpos ⊢
      split
      · next hone =>
          rw [if_pos hone] at hpos
          exact absurd hpos (Nat.lt_irrefl 0)
      · exact Nat.mod_eq_of_lt (by omega)
    omega
  · rw [if_neg hpos] at h
    cases h
    cases hd

/-! ## Agreement -/

/-- What has been written for the loaded shared objects agrees with their layout: the indices are distinct,
    above the global version and apart from those of the version definitions; every object has as many
    records as it counted; and the entry of a used symbol with a version holds the index of the record that
    names the version, under the name of the symbol's library. -/
structure VersionsAgree (inputs : List (VersionedObject × List Nat)) (states : List DynamicState)
    (verneeds : List (Option OutputVerneed)) (verdefs : List OutputVerdef) : Prop where
  stateCount : states.length = inputs.length
  verneedCount : verneeds.length = inputs.length
  distinct : (verneeds.flatMap vernauxIndexes).Nodup
  above : ∀ i ∈ verneeds.flatMap vernauxIndexes, 1 < i
  apart : ∀ i ∈ verneeds.flatMap vernauxIndexes, ∀ d ∈ verdefs, d.index ≠ i
  counts : ∀ (k : Nat) (s : DynamicState) verneed, states[k]? = some s → verneeds[k]? = some verneed →
    (vernauxIndexes verneed).length = s.versionCount
  symbols : ∀ (k : Nat) (o : VersionedObject) (used : List Nat) (s : DynamicState) verneed,
    inputs[k]? = some (o, used) → states[k]? = some s → verneeds[k]? = some verneed →
    ∀ i ∈ used, ∀ versym : Versym, o.versym[i]? = some versym → 2 ≤ versym.index →
    ∃ (record : OutputVerneed) (aux : OutputVernaux) (d : InputVerdef), verneed = some record ∧ record.file = some o.libName ∧ record.count = s.versionCount ∧
      aux ∈ record.auxes ∧ d ∈ o.verdefs ∧ d.ndx = versym.index ∧ d.name = some aux.name ∧
      copySymbolVersion o s.mapping i = .ok aux.other

/-- A library with versions `V2` and `V1` behind its base, of which a symbol uses `V2`. -/
def versionedExample : VersionedObject :=
  { libName := bytesOf "libv.so"
    verdefs := [{ ndx := 3, name := some (bytesOf "V2"), isBase := false },
                { ndx := 1, name := some (bytesOf "libv.so"), isBase := true },
                { ndx := 2, name := some (bytesOf "V1"), isBase := false }]
    versym := [{ index := 0 }, { index := 3 }]
    indices := by decide
    base := by decide }

end Reld
