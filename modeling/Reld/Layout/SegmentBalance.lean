import Reld.Lib.Traverse
import Reld.Layout.SegmentOrder

/-!
# `Layout.SegmentBalance` — the segments of the output order are balanced

Every event that the builder pushes keeps a `Brackets.Run`: the segments are the brackets, the definition of a
segment is its kind, and a primary section asks that the open segments are those that should include it. The
active segments are the open ones (`Invariant`); `switchSegments_spec` says what one section changes of them.
-/

namespace Reld.SegmentOrder

open Brackets

variable {P : Platform} (ctx : Context P)

/-- What an event does to the segments. -/
def mark : OrderEvent → Brackets.Mark ProgramSegmentId
  | .segmentStart id => .opens id
  | .segmentEnd id => .closes id
  | _ => .other

/-- A primary section finds open what should include it. -/
def asks (programSegments : List P.ProgramSegmentDef) : OrderEvent → Set ProgramSegmentId → Prop
  | .outputSection id, s => (ctx.info id).kind.target = none → ∀ d,
      (∃ i ∈ s, programSegments[i]? = some d) ↔
        d ∈ P.programSegmentDefs ∧ ctx.shouldIncludeInSegment id d = true
  | _, _ => True

/-- The events handle the segments well, and the segments of `s` are open. -/
abbrev Balanced (programSegments : List P.ProgramSegmentDef) (events : List OrderEvent)
    (s : Set ProgramSegmentId) : Prop :=
  Run mark (fun i => programSegments[i]?) (asks ctx programSegments) events s

/-- The active segment of a definition is a segment of that definition. -/
def Fits (programSegments : List P.ProgramSegmentDef) (d : P.ProgramSegmentDef) (a : ActiveSegment) : Prop :=
  ∀ i ∈ a.id, programSegments[i]? = some d

/-! ## The active segments -/

variable {ctx} {programSegments more : List P.ProgramSegmentDef} {ds : List P.ProgramSegmentDef}
  {active : List ActiveSegment} {i : ProgramSegmentId} {d : P.ProgramSegmentDef}

theorem getElem?_of_extends (h : programSegments <+: more) (hi : i < programSegments.length) :
    more[i]? = programSegments[i]? := by
  obtain ⟨t, rfl⟩ := h
  exact List.getElem?_append_left hi

variable {a : ActiveSegment}

theorem Fits.lt (h : Fits programSegments d a) (hi : i ∈ a.id) : i < programSegments.length := by
  obtain ⟨hlt, -⟩ := List.getElem?_eq_some_iff.mp (h i hi)
  exact hlt

theorem Fits.extend (h : Fits programSegments d a) (hmore : programSegments <+: more) :
    Fits more d a := by
  intro i hi
  rw [getElem?_of_extends hmore (h.lt hi)]
  exact h i hi

theorem ids_cons (a : ActiveSegment) (active : List ActiveSegment) :
    ids (a :: active) = a.id.toList ++ ids active := by
  unfold ids
  cases h : a.id <;> simp [h]

theorem ids_singleton (a : ActiveSegment) : ids [a] = a.id.toList := by
  rw [ids_cons]
  exact List.append_nil _

/-- An active segment is one of the definitions. -/
theorem exists_def (h : List.Forall₂ (Fits programSegments) ds active) (hi : i ∈ ids active) :
    ∃ d ∈ ds, programSegments[i]? = some d := by
  induction h with
  | nil => cases hi
  | @cons d a ds active hfit _ ih =>
    rw [ids_cons] at hi
    rcases List.mem_append.mp hi with hi | hi
    · exact ⟨d, List.mem_cons_self, hfit i (Option.mem_toList.mp hi)⟩
    · obtain ⟨d', hd', hkind⟩ := ih hi
      exact ⟨d', List.mem_cons_of_mem d hd', hkind⟩

theorem lt_of_mem_ids (h : List.Forall₂ (Fits programSegments) ds active) (hi : i ∈ ids active) :
    i < programSegments.length := by
  obtain ⟨d, -, hkind⟩ := exists_def h hi
  obtain ⟨hlt, -⟩ := List.getElem?_eq_some_iff.mp hkind
  exact hlt

/-- Two active segments have different definitions, and are different. -/
theorem nodup_ids (h : List.Forall₂ (Fits programSegments) ds active) (hds : ds.Nodup) :
    (ids active).Nodup ∧ Set.InjOn (fun i => programSegments[i]?) {i | i ∈ ids active} := by
  induction h with
  | nil => exact ⟨List.nodup_nil, fun i hi => absurd hi List.not_mem_nil⟩
  | @cons d a ds active hfit hrest ih =>
    obtain ⟨hd, hds⟩ := List.nodup_cons.mp hds
    obtain ⟨hnodup, hinj⟩ := ih hds
    have hother : ∀ i ∈ a.id, ∀ j ∈ ids active, programSegments[i]? ≠ programSegments[j]? := by
      intro i hi j hj hsame
      obtain ⟨d', hd', hkind⟩ := exists_def hrest hj
      rw [hfit i hi, hkind] at hsame
      exact hd (Option.some.inj hsame ▸ hd')
    cases hid : a.id with
    | none =>
      rw [ids_cons, hid, Option.toList_none, List.nil_append]
      exact ⟨hnodup, hinj⟩
    | some k =>
      have hk := hother k hid
      rw [ids_cons, hid, Option.toList_some, List.singleton_append]
      refine ⟨List.nodup_cons.mpr ⟨fun hmem => hk k hmem rfl, hnodup⟩, ?_⟩
      intro i hi j hj hsame
      rcases List.mem_cons.mp hi with rfl | hrestI
      · rcases List.mem_cons.mp hj with rfl | hrestJ
        · rfl
        · exact absurd hsame (hk j hrestJ)
      · rcases List.mem_cons.mp hj with rfl | hrestJ
        · exact absurd hsame.symm (hk i hrestI)
        · exact hinj hrestI hrestJ hsame

/-! ## What one section changes -/

variable {shouldInclude : P.ProgramSegmentDef → Bool} {sectionRegion : Option Bytes}

theorem addSegment_eq_some {new : ProgramSegmentId} (h : addSegment programSegments d = some (new, more)) :
    new = programSegments.length ∧ more = programSegments ++ [d] := by
  unfold addSegment at h
  split at h
  · obtain ⟨rfl, rfl⟩ := Prod.mk.inj (Option.some.inj h)
    exact ⟨rfl, rfl⟩
  · cases h

/-- A segment that was just added is active for its definition. -/
theorem fits_new : Fits (programSegments ++ [d]) d { id := some programSegments.length, region := sectionRegion } := by
  intro i hi
  obtain rfl : programSegments.length = i := Option.some.inj hi
  rw [List.getElem?_append_right (Nat.le_refl _), Nat.sub_self]
  rfl

/-- What the definitions `ds` add to the segments to stop and to start, when `active` was and `active'` is active
    for them. -/
structure Switched (shouldInclude : P.ProgramSegmentDef → Bool) (ds : List P.ProgramSegmentDef)
    (active active' : List ActiveSegment) (w w' : Switch P) (stop start : List ProgramSegmentId)
    (new : List P.ProgramSegmentDef) : Prop where
  stops : w'.stop = w.stop ++ stop
  starts : w'.start = w.start ++ start
  adds : w'.programSegments = w.programSegments ++ new
  /-- What is started is numbered after the segments that there are. -/
  fresh : start = List.range' w.programSegments.length new.length
  sublist : stop.Sublist (ids active)
  fits : List.Forall₂ (Fits w'.programSegments) ds active'
  included : List.Forall₂ (fun d a => a.id.isSome = shouldInclude d) ds active'
  mem : ∀ i, i ∈ ids active' ↔ (i ∈ ids active ∧ i ∉ stop) ∨ i ∈ start

/-- One definition. -/
theorem switchSegment_spec {a' : ActiveSegment} {w w' : Switch P}
    (h : switchSegment sectionRegion d (shouldInclude d) a w = some (a', w')) (hfit : Fits w.programSegments d a) :
    ∃ stop start new, Switched shouldInclude [d] [a] [a'] w w' stop start new := by
  unfold switchSegment at h
  cases hid : a.id with
  | none =>
    cases hinc : shouldInclude d with
    | false =>
      rw [hid, hinc] at h
      obtain ⟨rfl, rfl⟩ := Prod.mk.inj (Option.some.inj h)
      refine ⟨[], [], [], by simp, by simp, by simp, rfl, List.nil_sublist _, ?_, ?_, by simp⟩
      · exact .cons hfit .nil
      · exact .cons (by rw [hid, hinc]; rfl) .nil
    | true =>
      rw [hid, hinc] at h
      obtain ⟨⟨new, programSegments⟩, hadd, hsome⟩ := Option.bind_eq_some_iff.mp h
      obtain ⟨rfl, rfl⟩ := Prod.mk.inj (Option.some.inj hsome)
      obtain ⟨rfl, rfl⟩ := addSegment_eq_some hadd
      refine ⟨[], [w.programSegments.length], [d], by simp, rfl, rfl, rfl, List.nil_sublist _, ?_, ?_, ?_⟩
      · exact .cons fits_new .nil
      · exact .cons hinc.symm .nil
      · intro i
        simp [ids, hid]
  | some segmentId =>
    cases hinc : shouldInclude d with
    | false =>
      rw [hid, hinc] at h
      obtain ⟨rfl, rfl⟩ := Prod.mk.inj (Option.some.inj h)
      refine ⟨[segmentId], [], [], rfl, by simp, by simp, rfl, ?_, ?_, ?_, ?_⟩
      · rw [ids_cons, hid]
        exact List.Sublist.refl _
      · exact .cons (fun i hi => by cases hi) .nil
      · exact .cons hinc.symm .nil
      · intro i
        simp [ids, hid]
    | true =>
      rw [hid, hinc] at h
      by_cases hregion : a.region = sectionRegion
      · have h : some (a, w) = some (a', w') := by simpa [hregion] using h
        obtain ⟨rfl, rfl⟩ := Prod.mk.inj (Option.some.inj h)
        refine ⟨[], [], [], by simp, by simp, by simp, rfl, List.nil_sublist _, ?_, ?_, by simp⟩
        · exact .cons hfit .nil
        · exact .cons (by rw [hid, hinc]; rfl) .nil
      · simp only [if_neg hregion] at h
        obtain ⟨⟨new, programSegments⟩, hadd, hsome⟩ := Option.bind_eq_some_iff.mp h
        obtain ⟨rfl, rfl⟩ := Prod.mk.inj (Option.some.inj hsome)
        obtain ⟨rfl, rfl⟩ := addSegment_eq_some hadd
        refine ⟨[segmentId], [w.programSegments.length], [d], rfl, rfl, rfl, rfl, ?_, ?_, ?_, ?_⟩
        · rw [ids_cons, hid]
          exact List.Sublist.refl _
        · exact .cons fits_new .nil
        · exact .cons hinc.symm .nil
        · intro i
          simp [ids, hid]

/-- All definitions. -/
theorem switchSegments_spec {active active' : List ActiveSegment} {w w' : Switch P}
    (h : switchSegments sectionRegion shouldInclude ds active w = some (active', w'))
    (hfits : List.Forall₂ (Fits w.programSegments) ds active) (hds : ds.Nodup) :
    ∃ stop start new, Switched shouldInclude ds active active' w w' stop start new := by
  induction ds generalizing active active' w with
  | nil =>
    obtain rfl := List.forall₂_nil_left_iff.mp hfits
    obtain ⟨rfl, rfl⟩ := Prod.mk.inj (Option.some.inj h)
    exact ⟨[], [], [], by simp, by simp, by simp, rfl, List.nil_sublist _, .nil, .nil, by simp⟩
  | cons d ds ih =>
    obtain ⟨a, active, hfit, hrest, rfl⟩ := List.forall₂_cons_left_iff.mp hfits
    obtain ⟨⟨a', w₁⟩, hone, h⟩ := Option.bind_eq_some_iff.mp h
    obtain ⟨⟨active₁, w₂⟩, hall, hsome⟩ := Option.bind_eq_some_iff.mp h
    obtain ⟨rfl, rfl⟩ := Prod.mk.inj (Option.some.inj hsome)
    have hfirst : ∃ stop start new, Switched shouldInclude [d] [a] [a'] w w₁ stop start new :=
      switchSegment_spec hone hfit
    obtain ⟨stop₁, start₁, new₁, h₁⟩ := hfirst
    have hgrow : w.programSegments <+: w₁.programSegments := h₁.adds ▸ List.prefix_append ..
    obtain ⟨stop₂, start₂, new₂, h₂⟩ := ih hall (hrest.imp (fun _ _ hf => hf.extend hgrow))
      (List.nodup_cons.mp hds).2
    have hgrow₂ : w₁.programSegments <+: w₂.programSegments := h₂.adds ▸ List.prefix_append ..
    have hnodup := (nodup_ids hfits hds).1
    rw [ids_cons] at hnodup
    have hdisjoint := List.disjoint_of_nodup_append hnodup
    refine ⟨stop₁ ++ stop₂, start₁ ++ start₂, new₁ ++ new₂, ?_, ?_, ?_, ?_, ?_, ?_, ?_, ?_⟩
    · rw [h₂.stops, h₁.stops, List.append_assoc]
    · rw [h₂.starts, h₁.starts, List.append_assoc]
    · rw [h₂.adds, h₁.adds, List.append_assoc]
    · rw [h₁.fresh, h₂.fresh, h₁.adds, List.length_append, List.length_append, List.range'_append_1]
    · have hsub := h₁.sublist.append h₂.sublist
      rw [ids_cons] at hsub ⊢
      simpa [ids] using hsub
    · have hfirst := h₁.fits
      rw [List.forall₂_cons] at hfirst
      exact .cons (hfirst.1.extend hgrow₂) h₂.fits
    · have hfirst := h₁.included
      rw [List.forall₂_cons] at hfirst
      exact .cons hfirst.1 h₂.included
    · intro i
      have hone := h₁.mem i
      have hstop₁ : i ∈ stop₁ → i ∈ a.id.toList := fun hi => ids_singleton a ▸ h₁.sublist.subset hi
      have hstop₂ : i ∈ stop₂ → i ∈ ids active := fun hi => h₂.sublist.subset hi
      rw [ids_singleton, ids_singleton] at hone
      rw [ids_cons, ids_cons, List.mem_append, List.mem_append, List.mem_append, List.mem_append, hone, h₂.mem i]
      constructor
      · rintro ((⟨hi, hnot⟩ | hi) | (⟨hi, hnot⟩ | hi))
        · exact .inl ⟨.inl hi, not_or.mpr ⟨hnot, fun hj => hdisjoint hi (hstop₂ hj)⟩⟩
        · exact .inr (.inl hi)
        · exact .inl ⟨.inr hi, not_or.mpr ⟨fun hj => hdisjoint (hstop₁ hj) hi, hnot⟩⟩
        · exact .inr (.inr hi)
      · rintro (⟨hi | hi, hnot⟩ | (hi | hi))
        · exact .inl (.inl ⟨hi, fun hj => hnot (.inl hj)⟩)
        · exact .inr (.inl ⟨hi, fun hj => hnot (.inr hj)⟩)
        · exact .inl (.inr hi)
        · exact .inr (.inr hi)

/-! ## The invariant -/

/-- The events speak of the segments that there are, and handle them well. -/
structure Sound (ctx : Context P) (b : Builder P) (s : Set ProgramSegmentId) : Prop where
  known : ∀ e ∈ b.events, ∀ i, Mentions mark i e → i < b.programSegments.length
  /-- Every segment has a start or an end. -/
  named : ∀ i < b.programSegments.length, ∃ e ∈ b.events, Mentions mark i e
  /-- The segments that are added later do not matter. -/
  balanced : ∀ segs, b.programSegments <+: segs → Balanced ctx segs b.events s

/-- What is active is what is open. -/
structure Invariant (ctx : Context P) (b : Builder P) : Prop extends Sound ctx b {i | i ∈ ids b.active} where
  fits : List.Forall₂ (Fits b.programSegments) P.programSegmentDefs b.active

variable {b b' : Builder P} {s : Set ProgramSegmentId} {events : List OrderEvent}

theorem Sound.named_append (h : Sound ctx b s) (events : List OrderEvent) :
    ∀ i < b.programSegments.length, ∃ e ∈ b.events ++ events, Mentions mark i e := by
  intro i hi
  obtain ⟨e, he, hmention⟩ := h.named i hi
  exact ⟨e, List.mem_append_left _ he, hmention⟩

theorem Sound.push (h : Sound ctx b s) (hother : ∀ e ∈ events, mark e = .other)
    (hasks : ∀ segs, b.programSegments <+: segs → ∀ e ∈ events, asks ctx segs e s) :
    Sound ctx (b.push events) s := by
  refine ⟨fun e he i hi => ?_, h.named_append events, fun segs hsegs => ?_⟩
  · rcases List.mem_append.mp he with he | he
    · exact h.known e he i hi
    · rcases hi with hi | hi <;> rw [hother e he] at hi <;> cases hi
  · exact (h.balanced segs hsegs).others (fun e he => ⟨hother e he, hasks segs hsegs e he⟩)

theorem Sound.stop {stop : List ProgramSegmentId} (h : Sound ctx b s) (hnodup : stop.Nodup)
    (hstop : ∀ i ∈ stop, i ∈ s) (hlt : ∀ i ∈ stop, i < b.programSegments.length) :
    Sound ctx (b.push (stop.map .segmentEnd)) (s \ {i | i ∈ stop}) := by
  refine ⟨fun e he i hi => ?_, h.named_append _, fun segs hsegs => ?_⟩
  · rcases List.mem_append.mp he with he | he
    · exact h.known e he i hi
    · obtain ⟨j, hj, rfl⟩ := List.mem_map.mp he
      rcases hi with hi | hi
      · cases hi
      · obtain rfl : j = i := by injection hi
        exact hlt j hj
  · exact (h.balanced segs hsegs).closeAll (fun _ => rfl) hnodup hstop

/-- The segments `new` are added, and their starts pushed. -/
theorem Sound.start {new : List P.ProgramSegmentDef} {start : List ProgramSegmentId} (h : Sound ctx b s)
    (hstart : start = List.range' b.programSegments.length new.length)
    (hs : ∀ i ∈ s, i < b.programSegments.length)
    (hkind : Set.InjOn (fun i => (b.programSegments ++ new)[i]?) (s ∪ {i | i ∈ start})) :
    Sound ctx { b.push (start.map .segmentStart) with programSegments := b.programSegments ++ new }
      (s ∪ {i | i ∈ start}) := by
  have hrange : ∀ i ∈ start, b.programSegments.length ≤ i ∧ i < b.programSegments.length + new.length := by
    intro i hi
    rw [hstart, List.mem_range'_1] at hi
    exact hi
  have hall : ∀ i ∈ s ∪ {i | i ∈ start}, i < (b.programSegments ++ new).length := by
    rintro i (hi | hi)
    · rw [List.length_append]
      exact Nat.lt_add_right _ (hs i hi)
    · rw [List.length_append]
      exact (hrange i hi).2
  refine ⟨fun e he i hi => ?_, fun i hi => ?_, fun segs hsegs => ?_⟩
  · rcases List.mem_append.mp he with he | he
    · exact (h.known e he i hi).trans_le (by rw [List.length_append]; exact Nat.le_add_right ..)
    · obtain ⟨j, hj, rfl⟩ := List.mem_map.mp he
      rcases hi with hi | hi
      · obtain rfl : j = i := by injection hi
        exact hall j (.inr hj)
      · cases hi
  · by_cases hold : i < b.programSegments.length
    · exact h.named_append _ i hold
    · have hi : i < (b.programSegments ++ new).length := hi
      rw [List.length_append] at hi
      have hmem : i ∈ start := by
        rw [hstart, List.mem_range'_1]
        exact ⟨Nat.not_lt.mp hold, hi⟩
      exact ⟨.segmentStart i, List.mem_append_right _ (List.mem_map_of_mem hmem), .inl rfl⟩
  · apply (h.balanced segs ((List.prefix_append ..).trans hsegs)).openAll (fun _ => rfl)
    · rw [hstart]
      exact List.nodup_range'
    · intro i hi e he hmention
      exact absurd (h.known e he i hmention) (Nat.not_lt.mpr (hrange i hi).1)
    · intro i hi hmem
      exact absurd (hs i hmem) (Nat.not_lt.mpr (hrange i hi).1)
    · intro i hi j hj hsame
      -- the later segments do not change the definitions of these
      have hsame : segs[i]? = segs[j]? := hsame
      rw [getElem?_of_extends hsegs (hall i hi), getElem?_of_extends hsegs (hall j hj)] at hsame
      exact hkind hi hj hsame

theorem Invariant.lt (h : Invariant ctx b) : ∀ i ∈ {i | i ∈ ids b.active}, i < b.programSegments.length :=
  fun _ hi => lt_of_mem_ids h.fits hi

/-! ## Events that leave the segments alone -/

/-- Events about locations, and secondary sections. -/
structure Passive (ctx : Context P) (b b' : Builder P) : Prop where
  segments : b'.programSegments = b.programSegments
  active : b'.active = b.active
  pushed : ∃ m, b'.events = b.events ++ m ∧ ∀ e ∈ m, mark e = .other ∧ ∀ segs s, asks ctx segs e s

theorem Passive.refl (b : Builder P) : Passive ctx b b :=
  ⟨rfl, rfl, [], (List.append_nil _).symm, fun e he => by cases he⟩

theorem Passive.sound (h : Passive ctx b b') (hsound : Sound ctx b s) : Sound ctx b' s := by
  obtain ⟨m, hm, hpassive⟩ := h.pushed
  obtain ⟨hknown, hnamed, hbalanced⟩ :=
    hsound.push (fun e he => (hpassive e he).1) (fun segs _ e he => (hpassive e he).2 segs s)
  refine ⟨?_, ?_, ?_⟩
  · rw [hm, h.segments]
    exact hknown
  · rw [hm, h.segments]
    exact hnamed
  · rw [hm, h.segments]
    exact hbalanced

theorem Passive.invariant (h : Passive ctx b b') (hinv : Invariant ctx b) : Invariant ctx b' := by
  refine ⟨?_, ?_⟩
  · rw [h.active]
    exact h.sound hinv.toSound
  · rw [h.active, h.segments]
    exact hinv.fits

theorem emitLocationCounters_passive {lcStart lcEnd : Nat}
    (h : b.emitLocationCounters ctx lcStart lcEnd = some b') : Passive ctx b b' := by
  obtain ⟨events, hevents, hsome⟩ := Option.bind_eq_some_iff.mp h
  obtain rfl := Option.some.inj hsome
  refine ⟨rfl, rfl, events, rfl, fun e he => ?_⟩
  have hmem : some e ∈ events.map some := List.mem_map_of_mem he
  rw [← Traverse.mapM_eq_some.mp hevents, List.mem_map] at hmem
  obtain ⟨idx, -, hidx⟩ := hmem
  obtain ⟨lc, -, rfl⟩ := Option.map_eq_some_iff.mp hidx
  cases lc with
  | absolute expr loc => exact ⟨rfl, fun segs s => trivial⟩
  | relative expr loc sectionId => exact ⟨rfl, fun segs s => trivial⟩

/-! ## A section -/

variable {sectionId : OutputSectionId}

/-- The location counters come first. -/
theorem emitSection_eq_some (h : b.emitSection ctx sectionId = some b') :
    ∃ b₁, Passive ctx b b₁ ∧ b' = b₁.push [.outputSection sectionId] := by
  unfold Builder.emitSection at h
  cases hinfo : (ctx.info sectionId).locationInfo with
  | none =>
    rw [hinfo] at h
    exact ⟨b, .refl b, (Option.some.inj h).symm⟩
  | some locInfo =>
    rw [hinfo] at h
    obtain ⟨b₁, hemit, hsome⟩ := Option.bind_eq_some_iff.mp h
    exact ⟨b₁, emitLocationCounters_passive hemit, (Option.some.inj hsome).symm⟩

/-- A section that finds open what it asks for. -/
theorem emitSection_keeps (h : b.emitSection ctx sectionId = some b') (hinv : Invariant ctx b)
    (hasks : ∀ segs, b.programSegments <+: segs → asks ctx segs (.outputSection sectionId) {i | i ∈ ids b.active}) :
    Invariant ctx b' ∧ b'.programSegments = b.programSegments ∧ b'.active = b.active := by
  obtain ⟨b₁, hpassive, rfl⟩ := emitSection_eq_some h
  have hinv₁ := hpassive.invariant hinv
  refine ⟨⟨hinv₁.toSound.push ?_ ?_, hinv₁.fits⟩, hpassive.segments, hpassive.active⟩
  · intro e he
    rw [List.mem_singleton.mp he]
    rfl
  · intro segs hsegs e he
    rw [List.mem_singleton.mp he, hpassive.active]
    exact hasks segs (hpassive.segments ▸ hsegs)

variable {primary : OutputSectionId}

/-- A secondary section asks for nothing. -/
theorem asks_secondary (h : (ctx.info sectionId).kind = .secondary primary) (segs : List P.ProgramSegmentDef) :
    asks ctx segs (.outputSection sectionId) s := by
  intro hprimary
  rw [h] at hprimary
  cases hprimary

theorem emitSecondaries_keeps (h : (ctx.sortedSecondaries primary).foldlM (Builder.emitSection ctx) b = some b')
    (hinv : Invariant ctx b) :
    Invariant ctx b' := by
  refine Traverse.foldlM_keeps (fun sid hsid b b' hinv hstep => ?_) hinv h
  have hkind := ctx.secondary_kind primary sid ((List.mem_insertionSort _).mp hsid)
  exact (emitSection_keeps hstep hinv (fun segs _ => asks_secondary hkind segs)).1

/-- The active segments are those of the definitions that should include the section. -/
theorem asks_of_included (hfits : List.Forall₂ (Fits programSegments) ds active)
    (hincluded : List.Forall₂ (fun d a => a.id.isSome = shouldInclude d) ds active) (d : P.ProgramSegmentDef) :
    (∃ i ∈ ids active, programSegments[i]? = some d) ↔ d ∈ ds ∧ shouldInclude d = true := by
  induction hfits with
  | nil =>
    refine ⟨fun ⟨i, hi, _⟩ => absurd hi List.not_mem_nil, fun ⟨hd, _⟩ => absurd hd List.not_mem_nil⟩
  | @cons d' a ds active hfit _ ih =>
    rw [List.forall₂_cons] at hincluded
    obtain ⟨hself, hincluded⟩ := hincluded
    have hrest := ih hincluded
    rw [ids_cons]
    constructor
    · rintro ⟨i, hi, hkind⟩
      rcases List.mem_append.mp hi with hi | hi
      · have hid := Option.mem_toList.mp hi
        have hd : d' = d := Option.some.inj ((hfit i hid).symm.trans hkind)
        rw [hid, Option.isSome_some] at hself
        exact ⟨hd ▸ List.mem_cons_self, hd ▸ hself.symm⟩
      · obtain ⟨hd, hinc⟩ := hrest.mp ⟨i, hi, hkind⟩
        exact ⟨List.mem_cons_of_mem d' hd, hinc⟩
    · rintro ⟨hd, hinc⟩
      rcases List.mem_cons.mp hd with rfl | hd
      · rw [hinc] at hself
        obtain ⟨i, hid⟩ := Option.isSome_iff_exists.mp hself
        exact ⟨i, List.mem_append_left _ (Option.mem_toList.mpr hid), hfit i hid⟩
      · obtain ⟨i, hi, hkind⟩ := hrest.mpr ⟨hd, hinc⟩
        exact ⟨i, List.mem_append_right _ hi, hkind⟩

/-! ### Starting and stopping -/

/-- The variables of `start_stop_segments_for_section` before the loop, and after it. -/
abbrev Builder.switch (b : Builder P) (stop start : List ProgramSegmentId) : Switch P :=
  { stop := stop, start := start, programSegments := b.programSegments }

theorem ids_take (active : List ActiveSegment) : ids (active.map ActiveSegment.take) = [] := by
  unfold ids
  rw [List.filterMap_eq_nil_iff]
  intro a ha
  obtain ⟨a, -, rfl⟩ := List.mem_map.mp ha
  unfold ActiveSegment.take
  split
  · rfl
  · rename_i hnone
    simpa using hnone

theorem fits_take (h : List.Forall₂ (Fits programSegments) ds active) :
    List.Forall₂ (Fits programSegments) ds (active.map ActiveSegment.take) := by
  rw [List.forall₂_map_right_iff]
  refine h.imp (fun d a hfit i hi => ?_)
  unfold ActiveSegment.take at hi
  split at hi
  · cases hi
  · exact hfit i hi

/-- Nothing is changed for a secondary section; for a primary one, all definitions are compared with it. -/
theorem startStopSegmentsForSection_spec {stop start : List ProgramSegmentId}
    (hcustom : ctx.hasCustomPhdrs = false) (hrelocatable : ctx.isPartialObject = false) (hinv : Invariant ctx b)
    (h : b.startStopSegmentsForSection ctx sectionId = some (stop, start, b')) :
    ((ctx.info sectionId).kind.target.isSome ∧ stop = [] ∧ start = [] ∧ b' = b) ∨
      (b'.events = b.events ∧ ∃ new, Switched (ctx.shouldIncludeInSegment sectionId) P.programSegmentDefs b.active
        b'.active (b.switch [] []) (b'.switch stop start) stop start new) := by
  unfold Builder.startStopSegmentsForSection at h
  rw [if_neg (by rw [hcustom, hrelocatable]; decide)] at h
  split at h
  case isTrue htarget =>
    obtain ⟨rfl, rfl, rfl⟩ : [] = stop ∧ [] = start ∧ b = b' := by simpa using h
    exact .inl ⟨htarget, rfl, rfl, rfl⟩
  case isFalse =>
    right
    by_cases hlocation : (((ctx.info sectionId).locationInfo.bind (·.location)).isSome : Prop)
    · simp only [hlocation, if_true] at h
      obtain ⟨⟨active, w⟩, hswitch, hsome⟩ := Option.bind_eq_some_iff.mp h
      obtain ⟨rfl, hrest⟩ := Prod.mk.inj (Option.some.inj hsome)
      obtain ⟨rfl, rfl⟩ := Prod.mk.inj hrest
      obtain ⟨stop, start, new, hsw⟩ := switchSegments_spec hswitch (fits_take hinv.fits) P.nodup
      -- all active segments were stopped before the loop
      obtain rfl : stop = [] := List.sublist_nil.mp (ids_take b.active ▸ hsw.sublist)
      have hstop : w.stop = ids b.active := hsw.stops.trans (List.append_nil _)
      have hstart : w.start = start := hsw.starts
      refine ⟨rfl, new, ?_, ?_, hsw.adds, ?_, ?_, hsw.fits, hsw.included, fun i => ?_⟩
      · rw [List.nil_append]
      · rw [List.nil_append]
      · rw [hstart]
        exact hsw.fresh
      · rw [hstop]
      · rw [hsw.mem i, ids_take, hstop, hstart]
        simp
    · simp only [hlocation] at h
      obtain ⟨⟨active, w⟩, hswitch, hsome⟩ := Option.bind_eq_some_iff.mp h
      obtain ⟨rfl, hrest⟩ := Prod.mk.inj (Option.some.inj hsome)
      obtain ⟨rfl, rfl⟩ := Prod.mk.inj hrest
      obtain ⟨stop, start, new, hsw⟩ := switchSegments_spec hswitch hinv.fits P.nodup
      have hstop : w.stop = stop := hsw.stops
      have hstart : w.start = start := hsw.starts
      subst hstop hstart
      exact ⟨rfl, new, hsw⟩

/-- Stopping and starting segments, with events about locations in between. -/
theorem Invariant.switch {stop start : List ProgramSegmentId} {new : List P.ProgramSegmentDef}
    (hinv : Invariant ctx b) (hevents : b'.events = b.events)
    (hsw : Switched shouldInclude P.programSegmentDefs b.active b'.active (b.switch [] []) (b'.switch stop start)
      stop start new)
    (hother : ∀ e ∈ events, mark e = .other) (hasks : ∀ e ∈ events, ∀ segs s, asks ctx segs e s) :
    Invariant ctx (((b'.push (stop.map .segmentEnd)).push events).push (start.map .segmentStart)) := by
  have hadds : b'.programSegments = b.programSegments ++ new := hsw.adds
  have hstops := hinv.toSound.stop (hsw.sublist.nodup (nodup_ids hinv.fits P.nodup).1)
    (fun i hi => hsw.sublist.subset hi) (fun i hi => hinv.lt i (hsw.sublist.subset hi))
  have hbetween := hstops.push hother (fun segs _ e he => hasks e he segs _)
  have hset : {i | i ∈ ids b.active} \ {i | i ∈ stop} ∪ {i | i ∈ start} = {i | i ∈ ids b'.active} := by
    ext i
    exact (hsw.mem i).symm
  have hstarts := hbetween.start hsw.fresh (fun i hi => hinv.lt i hi.1) (by
    rw [hset]
    have hinj : Set.InjOn (fun i => b'.programSegments[i]?) {i | i ∈ ids b'.active} := (nodup_ids hsw.fits P.nodup).2
    rw [hadds] at hinj
    exact hinj)
  rw [hset] at hstarts
  refine ⟨⟨?_, ?_, ?_⟩, hsw.fits⟩
  · have hknown := hstarts.known
    simp only [Builder.push, ← hevents, ← hadds] at hknown
    exact hknown
  · have hnamed := hstarts.named
    simp only [Builder.push, ← hevents, ← hadds] at hnamed
    exact hnamed
  · have hbalanced := hstarts.balanced
    simp only [Builder.push, ← hevents, ← hadds] at hbalanced
    exact hbalanced

theorem fits_set (h : List.Forall₂ (Fits programSegments) ds active) (n : Nat) :
    List.Forall₂ (Fits programSegments) ds (active.set n {}) := by
  induction h generalizing n with
  | nil => exact .nil
  | cons hfit hrest ih =>
    cases n with
    | zero => exact .cons (fun i hi => by cases hi) hrest
    | succ n => exact .cons hfit (ih n)

theorem mem_ids_set {n : Nat} {k : ProgramSegmentId} (hk : (active.getD n {}).id = some k) (hnodup : (ids active).Nodup) :
    k ∈ ids active ∧ {i | i ∈ ids (active.set n {})} = {i | i ∈ ids active} \ {i | i ∈ [k]} := by
  induction active generalizing n with
  | nil => cases hk
  | cons a active ih =>
    rw [ids_cons] at hnodup ⊢
    have hdisjoint := List.disjoint_of_nodup_append hnodup
    cases n with
    | zero =>
      have hid : a.id = some k := hk
      rw [hid] at hdisjoint ⊢
      refine ⟨List.mem_cons_self, Set.ext fun i => ⟨fun hi => ⟨List.mem_append_right _ hi, fun hik => ?_⟩, ?_⟩⟩
      · obtain rfl := List.mem_singleton.mp hik
        exact hdisjoint List.mem_cons_self hi
      · rintro ⟨hi, hne⟩
        exact (List.mem_append.mp hi).resolve_left hne
    | succ n =>
      obtain ⟨hmem, hset⟩ := ih hk hnodup.of_append_right
      refine ⟨List.mem_append_right _ hmem, ?_⟩
      rw [List.set_cons_succ, ids_cons]
      ext i
      have hi : i ∈ ids (active.set n {}) ↔ i ∈ ids active ∧ i ∉ [k] := Set.ext_iff.mp hset i
      have hself : i ∈ a.id.toList → i ∉ [k] := fun hi hik =>
        hdisjoint hi (List.mem_singleton.mp hik ▸ hmem)
      show i ∈ a.id.toList ++ ids (active.set n {}) ↔ i ∈ a.id.toList ++ ids active ∧ i ∉ [k]
      rw [List.mem_append, List.mem_append, hi]
      tauto

/-- The writable load segment is cut. -/
theorem endRwLoadSegment_keeps (hinv : Invariant ctx b) : Invariant ctx b.endRwLoadSegment := by
  unfold Builder.endRwLoadSegment
  split
  · exact hinv
  · rename_i defIndex _
    split
    · exact hinv
    · rename_i segmentId hid
      obtain ⟨hmem, hset⟩ := mem_ids_set hid (nodup_ids hinv.fits P.nodup).1
      have hstop := hinv.toSound.stop (List.nodup_singleton segmentId)
        (fun i hi => List.mem_singleton.mp hi ▸ hmem) (fun i hi => hinv.lt i (List.mem_singleton.mp hi ▸ hmem))
      rw [← hset] at hstop
      exact ⟨⟨hstop.known, hstop.named, hstop.balanced⟩, fits_set hinv.fits defIndex⟩

theorem addressEvents_passive (sectionId : OutputSectionId) : ∀ e ∈ Builder.addressEvents ctx sectionId,
    mark e = .other ∧ ∀ segs s, asks ctx segs e s := by
  intro e he
  unfold Builder.addressEvents at he
  split at he
  · split at he
    · rw [List.mem_singleton.mp he]
      exact ⟨rfl, fun segs s => trivial⟩
    · cases he
  · cases he

/-- `add_section` keeps the invariant. -/
theorem addSection_keeps (hcustom : ctx.hasCustomPhdrs = false) (hrelocatable : ctx.isPartialObject = false)
    (h : b.addSection ctx sectionId = some b') (hinv : Invariant ctx b) : Invariant ctx b' := by
  obtain ⟨⟨stop, start, b₂⟩, hswitch, h⟩ := Option.bind_eq_some_iff.mp h
  obtain ⟨b₃, hemit, hsecondaries⟩ := Option.bind_eq_some_iff.mp h
  have hinv₁ : Invariant ctx (if b.shouldEndCurrentRwSegment ctx sectionId then b.endRwLoadSegment else b) := by
    split
    · exact endRwLoadSegment_keeps hinv
    · exact hinv
  refine emitSecondaries_keeps hsecondaries ?_
  rcases startStopSegmentsForSection_spec hcustom hrelocatable hinv₁ hswitch with
    ⟨htarget, rfl, rfl, rfl⟩ | ⟨hevents, new, hsw⟩
  · -- a secondary section by itself: only its address and the section are pushed
    refine (emitSection_keeps hemit ⟨?_, hinv₁.fits⟩ (fun segs _ hprimary => ?_)).1
    · exact ((hinv₁.toSound.push (fun e he => by cases he) (fun _ _ e he => by cases he)).push
        (fun e he => (addressEvents_passive sectionId e he).1) (fun segs _ e he => (addressEvents_passive sectionId e he).2 segs _)).push
        (fun e he => by cases he) (fun _ _ e he => by cases he)
    · rw [hprimary] at htarget
      cases htarget
  · have hinv₂ := hinv₁.switch hevents hsw (fun e he => (addressEvents_passive sectionId e he).1)
      (fun e he => (addressEvents_passive sectionId e he).2)
    refine (emitSection_keeps hemit hinv₂ (fun segs hsegs _ d => ?_)).1
    exact asks_of_included (hsw.fits.imp (fun _ _ hfit => hfit.extend hsegs)) hsw.included d

/-! ## The whole build -/

theorem new_invariant : Invariant ctx (Builder.new ctx) := by
  have hids : ids (Builder.new ctx).active = [] := by
    unfold ids
    rw [List.filterMap_eq_nil_iff]
    intro a ha
    obtain ⟨d, -, rfl⟩ := List.mem_map.mp ha
    rfl
  refine ⟨⟨fun e he => (by cases he), fun i hi => (by cases hi), fun segs _ => ?_⟩, ?_⟩
  · rw [hids]
    have hempty : {i | i ∈ ([] : List ProgramSegmentId)} = ∅ := by ext; simp
    rw [hempty]
    exact .nil
  · show List.Forall₂ _ _ (P.programSegmentDefs.map _)
    rw [List.forall₂_map_right_iff]
    exact List.forall₂_same.mpr (fun d _ i hi => by cases hi)

/-- A segment that is started and ended at once. -/
theorem addUnconditional_keeps (h : b.addUnconditional d = some b') (hsound : Sound ctx b ∅) : Sound ctx b' ∅ := by
  obtain ⟨⟨new, segs⟩, hadd, hsome⟩ := Option.bind_eq_some_iff.mp h
  obtain rfl := Option.some.inj hsome
  obtain ⟨rfl, rfl⟩ := addSegment_eq_some hadd
  refine ⟨fun e he i hi => ?_, fun i hi => ?_, fun segs hsegs => ?_⟩
  · show i < (b.programSegments ++ [d]).length
    rw [List.length_append]
    rcases List.mem_append.mp he with he | he
    · exact Nat.lt_add_right _ (hsound.known e he i hi)
    · -- both events are about the new segment
      have hnew : Mentions mark i e → i = b.programSegments.length := by
        rcases List.mem_pair.mp he with rfl | rfl
        · rintro (hi | hi)
          · injection hi with hi
            exact hi.symm
          · cases hi
        · rintro (hi | hi)
          · cases hi
          · injection hi with hi
            exact hi.symm
      rw [hnew hi]
      exact Nat.lt_succ_self _
  · have hi : i < (b.programSegments ++ [d]).length := hi
    rw [List.length_append, List.length_singleton] at hi
    rcases Nat.lt_succ_iff_lt_or_eq.mp hi with hi | rfl
    · exact hsound.named_append _ i hi
    · exact ⟨.segmentStart _, List.mem_append_cons_self, .inl rfl⟩
  · have hopen := (hsound.balanced segs ((List.prefix_append ..).trans hsegs)).opens
      (show mark (.segmentStart b.programSegments.length) = .opens b.programSegments.length from rfl)
      (fun e he hmention => Nat.lt_irrefl _ (hsound.known e he _ hmention)) (fun j hj => hj.elim)
    have hclose := hopen.closes
      (show mark (.segmentEnd b.programSegments.length) = .closes b.programSegments.length from rfl)
      (Set.mem_insert _ _)
    rw [Set.insert_sdiff_of_mem _ (Set.mem_singleton _), Set.empty_sdiff, List.append_assoc] at hclose
    exact hclose

theorem build_sound {ctx : Context P} {b : Builder P} {order : List OrderEvent × List P.ProgramSegmentDef}
    (h : b.build ctx = some order) (hinv : Invariant ctx b) :
    ∃ b' : Builder P, order = (b'.events, b'.programSegments) ∧ Sound ctx b' ∅ := by
  have hclosed : ∀ b₁ : Builder P, Passive ctx b b₁ → Sound ctx (b₁.push ((ids b₁.active).map .segmentEnd)) ∅ := by
    intro b₁ hpassive
    have hinv₁ := hpassive.invariant hinv
    have hstop := hinv₁.toSound.stop (nodup_ids hinv₁.fits P.nodup).1 (fun i hi => hi) hinv₁.lt
    rwa [Set.sdiff_self] at hstop
  have hlast : ∀ b₂ : Builder P, Sound ctx b₂ ∅ →
      (do
        let b ← if !ctx.isPartialObject && !ctx.hasCustomPhdrs then
            P.unconditionalSegmentDefs.foldlM Builder.addUnconditional b₂
          else some b₂
        some (b.events, b.programSegments)) = some order →
      ∃ b' : Builder P, order = (b'.events, b'.programSegments) ∧ Sound ctx b' ∅ := by
    intro b₂ hsound h
    split at h
    · obtain ⟨b', hrun, hsome⟩ := Option.bind_eq_some_iff.mp h
      refine ⟨b', (Option.some.inj hsome).symm, ?_⟩
      exact Traverse.foldlM_keeps (P := (Sound ctx · ∅)) (fun d _ b b' hsound hstep => addUnconditional_keeps hstep hsound)
        hsound hrun
    · exact ⟨b₂, (Option.some.inj h).symm, hsound⟩
  unfold Builder.build at h
  cases hlc : b.lastLocationCounter with
  | none =>
    rw [hlc] at h
    exact hlast _ (hclosed b (.refl b)) h
  | some lc =>
    rw [hlc] at h
    obtain ⟨b₁, hemit, h⟩ := Option.bind_eq_some_iff.mp h
    exact hlast _ (hclosed b₁ (emitLocationCounters_passive hemit)) h

variable {segs : List P.ProgramSegmentDef}

/-- The whole order is balanced, and starts every segment. -/
theorem buildOrder_sound {ctx : Context P} (hcustom : ctx.hasCustomPhdrs = false)
    (hrelocatable : ctx.isPartialObject = false) {sections : List OutputSectionId} {events : List OrderEvent}
    (h : buildOrder ctx sections = some (events, segs)) :
    Balanced ctx segs events ∅ ∧ ∀ i < segs.length, ∃ e ∈ events, Mentions mark i e := by
  obtain ⟨b, hrun, hbuild⟩ := Option.bind_eq_some_iff.mp h
  have hinv : Invariant ctx b := Traverse.foldlM_keeps
    (fun sectionId _ b b' hinv hstep => addSection_keeps hcustom hrelocatable hstep hinv) new_invariant hrun
  obtain ⟨b', horder, hsound⟩ := build_sound hbuild hinv
  obtain ⟨rfl, rfl⟩ := Prod.mk.inj horder
  exact ⟨hsound.balanced _ (List.prefix_refl _), hsound.named⟩

/-! ## What a reader of the order relies on -/

/-- The events that start or end a segment. -/
def isAbout (id : ProgramSegmentId) : OrderEvent → Bool
  | .segmentStart i => i = id
  | .segmentEnd i => i = id
  | _ => false

/-- A segment is open: it was started and has not been ended. -/
def IsOpen (events : List OrderEvent) (id : ProgramSegmentId) : Prop :=
  OrderEvent.segmentStart id ∈ events ∧ OrderEvent.segmentEnd id ∉ events

variable {id : ProgramSegmentId} {e : OrderEvent}

theorem isAbout_iff : isAbout id e = true ↔ Mentions mark id e := by
  cases e <;> simp [isAbout, Mentions, mark]

theorem mark_eq_opens (h : mark e = .opens id) : e = .segmentStart id := by
  cases e <;> simp_all [mark]

theorem mark_eq_closes (h : mark e = .closes id) : e = .segmentEnd id := by
  cases e <;> simp_all [mark]

theorem isOpen_iff : IsOpen events id ↔ Brackets.IsOpen mark id events := by
  constructor
  · rintro ⟨hstart, hend⟩
    exact ⟨⟨_, hstart, rfl⟩, fun e he hclose => hend (mark_eq_closes hclose ▸ he)⟩
  · rintro ⟨⟨e, he, hopen⟩, hclosed⟩
    exact ⟨mark_eq_opens hopen ▸ he, fun hend => hclosed _ hend rfl⟩

/-- Every segment is started once and ended once, in this order. -/
theorem history_eq (h : Balanced ctx segs events ∅) (hnamed : ∃ e ∈ events, Mentions mark id e) :
    events.filter (isAbout id) = [.segmentStart id, .segmentEnd id] := by
  have hdec : DecidablePred (Mentions mark id) := fun e => decidable_of_iff _ isAbout_iff
  have hfilter : events.filter (isAbout id) = events.filter (Mentions mark id) :=
    List.filter_congr (fun e _ => by rw [Bool.eq_iff_iff, isAbout_iff, decide_eq_true_iff])
  rw [hfilter]
  rcases h.history (i := id) with ⟨hmem, -⟩ | ⟨-, hnone⟩ | ⟨-, e, f, he, hf, htwo⟩
  · exact hmem.elim
  · obtain ⟨e, he, hmention⟩ := hnamed
    exact absurd (decide_eq_true hmention) (List.filter_eq_nil_iff.mp hnone e he)
  · rw [htwo, mark_eq_opens he, mark_eq_closes hf]

/-- For every sequence of `add_section` followed by `build`, without custom program headers and not for a partial
    link: every segment is started once and then ended once, no two segments of one definition are open together,
    and a primary section finds open the segments of those definitions that should include it. -/
theorem segments_balanced (ctx : Context P) (hcustom : ctx.hasCustomPhdrs = false)
    (hrelocatable : ctx.isPartialObject = false) (sections : List OutputSectionId) (events : List OrderEvent)
    (segs : List P.ProgramSegmentDef) (h : buildOrder ctx sections = some (events, segs)) :
    (∀ id < segs.length, events.filter (isAbout id) = [.segmentStart id, .segmentEnd id]) ∧
      (∀ before, before <+: events → ∀ i j, IsOpen before i → IsOpen before j → segs[i]? = segs[j]? → i = j) ∧
      (∀ before id after, events = before ++ .outputSection id :: after → (ctx.info id).kind.target = none →
        ∀ d, (∃ i, IsOpen before i ∧ segs[i]? = some d) ↔
          d ∈ P.programSegmentDefs ∧ ctx.shouldIncludeInSegment id d = true) := by
  obtain ⟨hbalanced, hnamed⟩ := buildOrder_sound hcustom hrelocatable h
  refine ⟨fun id hid => history_eq hbalanced (hnamed id hid), ?_, ?_⟩
  · rintro before ⟨after, rfl⟩ i j hi hj hsame
    obtain ⟨s, hbefore⟩ := hbalanced.of_append
    exact hbefore.injOn (hbefore.isOpen_iff.mp (isOpen_iff.mp hi)) (hbefore.isOpen_iff.mp (isOpen_iff.mp hj)) hsame
  · rintro before id after rfl hprimary d
    obtain ⟨s, hbefore, hasks⟩ := hbalanced.asked rfl
    rw [← hasks hprimary d]
    constructor
    · rintro ⟨i, hi, hkind⟩
      exact ⟨i, hbefore.isOpen_iff.mp (isOpen_iff.mp hi), hkind⟩
    · rintro ⟨i, hi, hkind⟩
      exact ⟨i, isOpen_iff.mpr (hbefore.isOpen_iff.mpr hi), hkind⟩

/-- The built-in sections of an ELF file, for an executable without a script. -/
def builtInContext : Context elf where
  info id :=
    let info := builtInSectionInfos.getD id (primarySection "" 0 0)
    { kind := info.kind, sectionAttributes := info.sectionAttributes }
  rosegment := true
  secondary id := (List.range numBuiltInSections).filter
    (fun sid => (builtInSectionInfos.getD sid (primarySection "" 0 0)).kind = .secondary id)
  locationCounters := []
  isPartialObject := false
  hasCustomPhdrs := false
  secondary_kind id sid h := by simpa using (List.mem_filter.mp h).2

/-- The headers, code, RELRO data with a secondary section, and data after it. -/
def relroOrder : List OrderEvent × List elf.ProgramSegmentDef :=
  ([.segmentStart 0, .outputSection fileHeader, .segmentEnd 0, .segmentStart 1, .outputSection textSection,
    .segmentEnd 1, .segmentStart 2, .segmentStart 3, .outputSection 6, .outputSection 7,
    -- the writable load segment is cut where RELRO ends
    .segmentEnd 2, .segmentEnd 3, .segmentStart 4, .outputSection dataSection, .segmentEnd 4,
    .segmentStart 5, .segmentEnd 5],
   [(⟨ptLoad, 4⟩ : Reld.ProgramSegmentDef), ⟨ptLoad, 5⟩, ⟨ptLoad, 6⟩, ⟨ptGnuRelro, 4⟩, ⟨ptLoad, 6⟩, ⟨ptGnuStack, 6⟩])

theorem segments_balanced_relro :
    (∀ id < relroOrder.2.length, relroOrder.1.filter (isAbout id) = [.segmentStart id, .segmentEnd id]) ∧
      (∀ before, before <+: relroOrder.1 → ∀ i j, IsOpen before i → IsOpen before j →
        relroOrder.2[i]? = relroOrder.2[j]? → i = j) ∧
      (∀ before id after, relroOrder.1 = before ++ .outputSection id :: after →
        (builtInContext.info id).kind.target = none → ∀ d, (∃ i, IsOpen before i ∧ relroOrder.2[i]? = some d) ↔
          d ∈ elfSegmentDefs ∧ builtInContext.shouldIncludeInSegment id d = true) :=
  segments_balanced builtInContext rfl rfl [fileHeader, textSection, 6, dataSection] relroOrder.1 relroOrder.2 rfl

end Reld.SegmentOrder
