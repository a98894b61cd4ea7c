import Mathlib.Tactic.Linarith
import Reld.Merge.Split

/-!
# `Merge.SplitOnce` — every string is inserted once

What a group inserts depends only on its range: the strings that start in it (`processInputSection_eq`). The ranges of
neighbouring groups touch, so all groups together insert what the sections hold (`strings_splitFrom`). Along
the loops: a group that begins inside a section begins at a block of a string section, in front of its padding
(`InsideInput`).
-/

namespace Reld.Merge

open Terminated

/-- Positions in a section as linear input offsets. -/
def shiftPieces (start : Nat) (pieces : List (Nat × Bytes)) : List (Nat × Bytes) :=
  pieces.map fun piece => (start + piece.1, piece.2)

/-- The strings of a section that start in an interval; without strings it is one piece. -/
def sectionStrings (sec : StringMergeInputSection) (a b : Nat) : Option (List (Nat × Bytes)) :=
  (if sec.isString then split isNul sec.sectionData a b
    else if a = 0 ∧ 0 < b then some [(0, sec.sectionData)] else some []).map (shiftPieces sec.startInputOffset)

/-- The strings of some sections that start in a linear range. -/
def stringsIn (start stop : Nat) : List StringMergeInputSection → Option (List (Nat × Bytes))
  | [] => some []
  | sec :: secs =>
    Option.map₂ (· ++ ·) (sectionStrings sec (start - sec.startInputOffset) (stop - sec.startInputOffset))
      (stringsIn start stop secs)

/-- The strings from an offset in the first section on. -/
def stringsFrom : List StringMergeInputSection → Nat → Option (List (Nat × Bytes))
  | [], _ => some []
  | sec :: behind, offsetInSection =>
    Option.map₂ (· ++ ·) (sectionStrings sec offsetInSection sec.paddedLen) (stringsFrom behind 0)

/-! ## One section -/

section

variable {hashing : MergeHashing} {sec : StringMergeInputSection} {data : Bytes} {a b c start stop : Nat}
  {out : SplitOutput}

/-- The calls of `insert_data`, one after the other. -/
def insertAll (hashing : MergeHashing) (out : SplitOutput) (pieces : List (Nat × Bytes)) : SplitOutput :=
  pieces.foldl (fun out piece => insertData hashing out piece.1 piece.2) out

theorem insertAll_append (out : SplitOutput) (pieces pieces' : List (Nat × Bytes)) :
    insertAll hashing out (pieces ++ pieces') = insertAll hashing (insertAll hashing out pieces) pieces' :=
  List.foldl_append

theorem takeString_eq (source : Bytes) :
    takeString source =
      if source.any isNul then some (first isNul source, source.drop (first isNul source).length) else none := by
  unfold takeString
  cases h : source.findIdx? isNul with
  | none =>
    rw [if_neg (by simpa using h)]
    rfl
  | some i =>
    obtain ⟨hlt, hi, -⟩ := List.findIdx?_eq_some_iff_getElem.mp h
    have hany : source.any isNul = true := List.any_eq_true.mpr ⟨_, List.getElem_mem hlt, hi⟩
    have hidx : source.findIdx isNul = i := (List.findIdx?_eq_some_iff_findIdx_eq.mp h).2
    rw [if_pos hany, length_first_of_any hany, first, hidx]
    simp

theorem insertStrings_stop {remaining : Bytes} (h : remaining = [] ∨ stop ≤ a) :
    insertStrings hashing stop remaining a out = some out := by
  unfold insertStrings
  rw [if_neg]
  rintro ⟨hne, hlt⟩
  exact h.elim hne (Nat.not_le.mpr hlt)

theorem insertStrings_string {remaining : Bytes} (hne : remaining ≠ []) (hlt : a < stop) :
    insertStrings hashing stop remaining a out =
      if remaining.any isNul then
        insertStrings hashing stop (remaining.drop (first isNul remaining).length)
          (a + (first isNul remaining).length) (insertData hashing out a (first isNul remaining))
      else none := by
  rw [insertStrings, if_pos ⟨hne, hlt⟩]
  have htake := takeString_eq remaining
  cases hany : remaining.any isNul with
  | false =>
    rw [hany] at htake
    split
    case h_1 => rfl
    case h_2 _ _ hsome => cases htake.symm.trans hsome
  | true =>
    rw [hany] at htake
    split
    case h_1 hnone => cases htake.symm.trans hnone
    case h_2 string rest hsome =>
      rw [htake, if_pos rfl, Option.some.injEq, Prod.mk.injEq] at hsome
      obtain ⟨rfl, rfl⟩ := hsome
      rfl

/-- The loop inserts the strings from a start on. -/
theorem insertStrings_eq (hpos : startsAt isNul data a = true ∨ data.length ≤ a) :
    insertStrings hashing stop (data.drop a) (start + a) out =
      (split isNul data a (stop - start)).map fun pieces => insertAll hashing out (shiftPieces start pieces) := by
  induction hn : data.length - a using Nat.strong_induction_on generalizing a out with
  | h n ih =>
    rcases Nat.lt_or_ge a data.length with hlt | hge
    · have hstart := hpos.resolve_right (by omega)
      have hne := drop_ne_nil hlt
      rcases Nat.lt_or_ge (start + a) stop with hstop | hstop
      · rw [insertStrings_string hne hstop, split_step hstart (by omega)]
        cases hany : (data.drop a).any isNul with
        | false => simp [endsFrom, hany]
        | true =>
          have hbehind := @startsAt_behind _ isNul data a hany
          have hpos' := length_first_pos isNul hne
          simp only [endsFrom, hany, if_true, List.drop_drop]
          rw [Nat.add_assoc, ih _ (by omega) ?_ rfl, Option.map_map]
          · rfl
          · rcases Nat.lt_or_ge (a + (first isNul (data.drop a)).length) data.length with h | h
            · exact .inl (hbehind h)
            · exact .inr h
      · rw [insertStrings_stop (.inr hstop), split_of_le (by omega)]
        rfl
    · rw [insertStrings_stop (.inl (List.drop_eq_nil_of_le hge)), split_of_length_le hge]
      rfl

/-- The range may start inside a string: the first string is the one behind. -/
theorem rangeAdvance_eq (hin : start - sec.startInputOffset < sec.sectionData.length) (stop : Nat) :
    ∃ advance, rangeAdvance sec start = some advance ∧
      (startsAt isNul sec.sectionData advance = true ∨ sec.sectionData.length ≤ advance) ∧
      split isNul sec.sectionData (start - sec.startInputOffset) stop = split isNul sec.sectionData advance stop := by
  have hne : sec.sectionData ≠ [] := List.ne_nil_of_length_pos (by omega)
  unfold rangeAdvance
  split
  case isFalse hle =>
    refine ⟨0, rfl, .inl (startsAt_zero hne), ?_⟩
    rw [Nat.sub_eq_zero_of_le (Nat.not_lt.mp hle)]
  case isTrue hgt =>
    obtain ⟨o, ho⟩ : ∃ o, start - sec.startInputOffset = o + 1 := ⟨start - sec.startInputOffset - 1, by omega⟩
    rw [ho] at hin ⊢
    have hprevious : sec.sectionData[o]? = some sec.sectionData[o] := List.getElem?_eq_getElem (by omega)
    have hstarts := startsAt_succ isNul sec.sectionData o
    simp only [Nat.add_sub_cancel, hprevious, Option.map_some, Option.some.injEq, exists_eq_left']
    rw [hprevious, decide_eq_true hin, Option.any_some, Bool.true_and] at hstarts
    split
    case isTrue hnul => exact ⟨.inl (hstarts.trans hnul), rfl⟩
    case isFalse hnul =>
      rw [Bool.not_eq_true] at hnul
      rw [split_skip (hstarts.trans hnul) hin]
      cases hfind : (sec.sectionData.drop (o + 1)).findIdx? isNul with
      | none =>
        have hidx := List.findIdx?_eq_none_iff_findIdx_eq.mp hfind
        have hlength : o + 1 + (first isNul (sec.sectionData.drop (o + 1))).length = sec.sectionData.length := by
          rw [first, hidx, List.take_of_length_le (Nat.le_succ _), List.length_drop]
          omega
        rw [hlength]
        exact ⟨.inr (Nat.le_refl _), rfl⟩
      | some nullOffset =>
        obtain ⟨hlt, hidx⟩ := List.findIdx?_eq_some_iff_findIdx_eq.mp hfind
        have hany : (sec.sectionData.drop (o + 1)).any isNul = true := by
          refine List.any_eq_true.mpr ⟨_, List.getElem_mem hlt, ?_⟩
          obtain ⟨_, h, -⟩ := List.findIdx?_eq_some_iff_getElem.mp hfind
          exact h
        have hlength := length_first_of_any hany
        dsimp only
        rw [show o + 1 + nullOffset + 1 = o + 1 + (first isNul (sec.sectionData.drop (o + 1))).length by omega]
        refine ⟨?_, rfl⟩
        rcases Nat.lt_or_ge (o + 1 + (first isNul (sec.sectionData.drop (o + 1))).length) sec.sectionData.length with
          h | h
        · exact .inl (startsAt_behind hany h)
        · exact .inr h

/-- What the range of a group leaves of a section that has no strings: all of it. -/
def WholeIn (start stop : Nat) (sec : StringMergeInputSection) : Prop :=
  sec.isString = true ∨ start ≤ sec.startInputOffset ∧ sec.startInputOffset < stop

/-- One section inserts its strings that start in the range. -/
theorem processInputSection_eq (hin : start - sec.startInputOffset < sec.sectionData.length)
    (hwhole : WholeIn start stop sec) :
    processInputSection hashing start stop out sec =
      (sectionStrings sec (start - sec.startInputOffset) (stop - sec.startInputOffset)).map (insertAll hashing out) := by
  unfold processInputSection sectionStrings
  cases hstring : sec.isString with
  | true =>
    obtain ⟨advance, hadvance, hpos, hsplit⟩ := rangeAdvance_eq hin (stop - sec.startInputOffset)
    simp only [hadvance, Option.bind_some, Bool.not_true, Bool.false_eq_true, if_false, if_true]
    rw [insertStrings_eq hpos, hsplit, Option.map_map]
    rfl
  | false =>
    obtain ⟨hstart, hstop⟩ := hwhole.resolve_left (by simp [hstring])
    rw [rangeAdvance, if_neg (Nat.not_lt.mpr hstart), Nat.sub_eq_zero_of_le hstart]
    simp [show 0 < stop - sec.startInputOffset by omega, shiftPieces, insertAll]

end

/-! ## One group -/

section

variable {hashing : MergeHashing} {sections behind : List StringMergeInputSection} {sec : StringMergeInputSection}
  {start stop offsetInSection a b c : Nat} {out : SplitOutput}

theorem processSections_eq
    (hin : ∀ sec ∈ sections, start - sec.startInputOffset < sec.sectionData.length ∧ WholeIn start stop sec) :
    sections.foldlM (processInputSection hashing start stop) out =
      (stringsIn start stop sections).map (insertAll hashing out) := by
  induction sections generalizing out with
  | nil => rfl
  | cons sec secs ih =>
    rw [List.foldlM_cons, stringsIn, processInputSection_eq (hin sec List.mem_cons_self).1 (hin sec List.mem_cons_self).2]
    cases sectionStrings sec (start - sec.startInputOffset) (stop - sec.startInputOffset) with
    | none => rfl
    | some pieces =>
      refine (ih fun sec' h => hin sec' (List.mem_cons_of_mem sec h)).trans ?_
      cases stringsIn start stop secs with
      | none => rfl
      | some pieces' => simp [insertAll_append]

theorem sectionStrings_append (hab : a ≤ b) (hbc : b ≤ c) :
    Option.map₂ (· ++ ·) (sectionStrings sec a b) (sectionStrings sec b c) = sectionStrings sec a c := by
  unfold sectionStrings
  cases sec.isString with
  | true =>
    rw [if_pos rfl, if_pos rfl, if_pos rfl, ← split_append hab hbc]
    cases split isNul sec.sectionData a b <;> cases split isNul sec.sectionData b c <;> simp [shiftPieces]
  | false =>
    rcases Nat.eq_zero_or_pos a with rfl | ha
    · rcases Nat.eq_zero_or_pos b with rfl | hb
      · by_cases hc : 0 < c <;> simp [shiftPieces, hc]
      · simp [shiftPieces, hb, show 0 < c by omega, Nat.pos_iff_ne_zero.mp hb]
    · simp [shiftPieces, Nat.pos_iff_ne_zero.mp ha, Nat.pos_iff_ne_zero.mp (show 0 < b by omega)]

theorem sectionStrings_stop (hne : sec.sectionData ≠ []) (hb : sec.sectionData.length ≤ b) :
    sectionStrings sec a b = sectionStrings sec a sec.paddedLen := by
  have hpos := List.length_pos_of_ne_nil hne
  have hpadded := le_paddedLen sec
  unfold sectionStrings
  rw [split_stop hb, split_stop hpadded]
  simp [show 0 < b by omega, show 0 < sec.paddedLen by omega]

theorem appendStrings_assoc (r r' r'' : Option (List (Nat × Bytes))) :
    Option.map₂ (· ++ ·) (Option.map₂ (· ++ ·) r r') r'' = Option.map₂ (· ++ ·) r (Option.map₂ (· ++ ·) r' r'') :=
  Option.map₂_assoc List.append_assoc

/-- Sections that start behind two points have the same strings behind either. -/
theorem stringsIn_congr {start' : Nat}
    (h : ∀ sec ∈ sections, start ≤ sec.startInputOffset ∧ start' ≤ sec.startInputOffset) :
    stringsIn start stop sections = stringsIn start' stop sections := by
  induction sections with
  | nil => rfl
  | cons sec secs ih =>
    have hsec := h sec List.mem_cons_self
    rw [stringsIn, stringsIn, ih fun s hs => h s (List.mem_cons_of_mem sec hs), Nat.sub_eq_zero_of_le hsec.1,
      Nat.sub_eq_zero_of_le hsec.2]

/-! ## The groups -/

/-- An offset in the first of the sections that are left: at a block, in front of the padding, and at the front if the
section has no strings. -/
structure InsideInput (sec : StringMergeInputSection) (behind : List StringMergeInputSection) (offsetInSection : Nat) :
    Prop where
  placed : PlacedFrom (sec.startInputOffset + sec.paddedLen) behind
  nonempty : ∀ s ∈ sec :: behind, s.sectionData ≠ []
  aligned : mapBlockSize ∣ offsetInSection
  inside : offsetInSection < sec.paddedLen
  whole : sec.isString = true ∨ offsetInSection = 0

theorem InsideInput.lt_length (h : InsideInput sec behind offsetInSection) : offsetInSection < sec.sectionData.length := by
  obtain ⟨k, hk⟩ := h.aligned
  obtain ⟨m, hm⟩ := dvd_paddedLen sec
  have hlt := paddedLen_lt sec
  have hinside := h.inside
  have hkm : k < m := by
    rw [hk, hm] at hinside
    exact Nat.lt_of_mul_lt_mul_left hinside
  have : mapBlockSize * (k + 1) ≤ mapBlockSize * m := Nat.mul_le_mul_left _ hkm
  rw [Nat.mul_add, Nat.mul_one] at this
  omega

theorem paddedLen_pos (h : sec.sectionData ≠ []) : 0 < sec.paddedLen :=
  (List.length_pos_of_ne_nil h).trans_le (le_paddedLen sec)

/-- The next section. -/
theorem InsideInput.next {next : StringMergeInputSection} (h : InsideInput sec (next :: behind) offsetInSection) :
    next.startInputOffset = sec.startInputOffset + sec.paddedLen ∧ InsideInput next behind 0 := by
  obtain ⟨hnext, hplaced⟩ := h.placed
  refine ⟨hnext, hnext ▸ hplaced, fun s hs => h.nonempty s (List.mem_cons_of_mem sec hs), Nat.dvd_zero _, ?_, .inr rfl⟩
  exact paddedLen_pos (h.nonempty next (by simp))

/-- What the inner loop makes of the input from an offset on. -/
structure FillSpec (sec : StringMergeInputSection) (behind : List StringMergeInputSection) (offsetInSection : Nat)
    (remaining : Int) (fill : GroupFill) : Prop where
  taken : (fill.last.startInputOffset + fill.offsetInSection : Int) =
    sec.startInputOffset + offsetInSection + (remaining - fill.remaining)
  forward : sec.startInputOffset + offsetInSection < fill.last.startInputOffset + fill.offsetInSection
  behind_start : ∀ s ∈ fill.sections, sec.startInputOffset ≤ s.startInputOffset
  valid : ∀ s ∈ fill.sections,
    sec.startInputOffset + offsetInSection - s.startInputOffset < s.sectionData.length ∧
      WholeIn (sec.startInputOffset + offsetInSection) (fill.last.startInputOffset + fill.offsetInSection) s
  strings : Option.map₂ (· ++ ·)
      (stringsIn (sec.startInputOffset + offsetInSection) (fill.last.startInputOffset + fill.offsetInSection) fill.sections)
      (if fill.endSection then stringsFrom fill.behind 0
        else stringsFrom (fill.last :: fill.behind) fill.offsetInSection) =
    stringsFrom (sec :: behind) offsetInSection
  finish : sec.startInputOffset + totalPadded (sec :: behind) =
    if fill.endSection then fill.last.startInputOffset + fill.offsetInSection + totalPadded fill.behind
    else fill.last.startInputOffset + totalPadded (fill.last :: fill.behind)
  next : fill.endSection = false → InsideInput fill.last fill.behind fill.offsetInSection
  ended : fill.endSection = true → ∀ s rest, fill.behind = s :: rest →
    s.startInputOffset = fill.last.startInputOffset + fill.offsetInSection ∧ InsideInput s rest 0

theorem fillGroup_spec (h : InsideInput sec behind offsetInSection) {remaining : Int} (hpos : 0 < remaining)
    (hdvd : (mapBlockSize : Int) ∣ remaining) :
    FillSpec sec behind offsetInSection remaining (fillGroup sec behind offsetInSection remaining) := by
  induction sec, behind, offsetInSection, remaining using fillGroup_induction with
  | cut sec behind offsetInSection remaining hcut =>
    obtain ⟨n, rfl⟩ := Int.eq_ofNat_of_zero_le hpos.le
    obtain ⟨hroom, hstring⟩ := hcut
    have hn : mapBlockSize ∣ n := Int.natCast_dvd_natCast.mp hdvd
    refine ⟨?_, ?_, ?_, ?_, ?_, ?_, ?_, ?_⟩
    · simp [Int.add_assoc]
    · simp only [Int.toNat_natCast]
      omega
    · simp
    · simp only [List.mem_singleton, forall_eq]
      exact ⟨by have := h.lt_length; omega, .inl hstring⟩
    · simp only [Int.toNat_natCast, stringsIn, stringsFrom, Bool.false_eq_true, if_false]
      rw [Nat.add_sub_cancel_left, Nat.add_sub_cancel_left, append_nil_of_split, ← appendStrings_assoc,
        sectionStrings_append (by omega) (by omega)]
    · rfl
    · intro _
      exact ⟨h.placed, h.nonempty, (Nat.dvd_add_right h.aligned).mpr hn, by simp only [Int.toNat_natCast]; omega,
        .inl hstring⟩
    · intro hend
      cases hend
  | whole sec behind offsetInSection remaining hcut hfull =>
    have hinside := h.inside
    have hstop : offsetInSection + ((sec.paddedLen : Int) - offsetInSection).toNat = sec.paddedLen := by omega
    rw [hstop]
    refine ⟨?_, ?_, ?_, ?_, ?_, ?_, ?_, ?_⟩
    · dsimp only
      omega
    · dsimp only
      omega
    · simp
    · simp only [List.mem_singleton, forall_eq]
      refine ⟨by have := h.lt_length; omega, ?_⟩
      rcases h.whole with hstring | hfront
      · exact .inl hstring
      · exact .inr ⟨by omega, by omega⟩
    · simp only [stringsIn, stringsFrom, if_true]
      rw [Nat.add_sub_cancel_left, Nat.add_sub_cancel_left, append_nil_of_split]
    · simp [Nat.add_assoc]
    · intro hend
      cases hend
    · rintro - s rest rfl
      exact h.next
  | more sec next behind offsetInSection remaining fill hcut hmore ih =>
    obtain ⟨hstart, hnext⟩ := h.next
    have hinside := h.inside
    have hdvd' : (mapBlockSize : Int) ∣ remaining - (sec.paddedLen - offsetInSection) :=
      Int.dvd_sub hdvd (Int.dvd_sub (Int.natCast_dvd_natCast.mpr (dvd_paddedLen sec))
        (Int.natCast_dvd_natCast.mpr h.aligned))
    have hfill := ih hnext hmore hdvd'
    have hforward := hfill.forward
    have hbehind : ∀ s ∈ fill.sections, sec.startInputOffset + offsetInSection ≤ s.startInputOffset ∧
        next.startInputOffset + 0 ≤ s.startInputOffset := by
      intro s hs
      have := hfill.behind_start s hs
      omega
    refine ⟨?_, ?_, ?_, ?_, ?_, ?_, hfill.next, hfill.ended⟩
    · have := hfill.taken
      dsimp only
      omega
    · dsimp only
      omega
    · intro s hs
      rcases List.mem_cons.mp hs with rfl | hs
      · exact Nat.le_refl _
      · exact (Nat.le_add_right _ _).trans (hbehind s hs).1
    · intro s hs
      rcases List.mem_cons.mp hs with rfl | hs
      · refine ⟨by have := h.lt_length; omega, ?_⟩
        rcases h.whole with hstring | hfront
        · exact .inl hstring
        · exact .inr ⟨by omega, by dsimp only; omega⟩
      · obtain ⟨hlt, hwhole⟩ := hfill.valid s hs
        have hs' := hbehind s hs
        refine ⟨by omega, hwhole.imp id fun hw => ⟨hs'.1, hw.2⟩⟩
    · have hstrings := hfill.strings
      have hle := le_paddedLen sec
      dsimp only
      rw [stringsIn, stringsIn_congr hbehind, appendStrings_assoc, hstrings, Nat.add_sub_cancel_left,
        sectionStrings_stop (h.nonempty sec List.mem_cons_self) (by omega)]
      rfl
    · have hfinish := hfill.finish
      rw [totalPadded_cons, ← hfinish]
      omega

/-! ## All groups -/

/-- The strings of all groups. -/
def groupStrings : List SectionGroup → Option (List (Nat × Bytes))
  | [] => some []
  | group :: groups =>
    Option.map₂ (· ++ ·) (stringsIn group.start group.stop group.sections) (groupStrings groups)

/-- A group whose sections are as `process_input_section` expects them. -/
def SectionGroup.Valid (group : SectionGroup) : Prop :=
  ∀ sec ∈ group.sections, group.start - sec.startInputOffset < sec.sectionData.length ∧
    WholeIn group.start group.stop sec

/-- The ranges of the groups go on from `start` to `stop`, and the shards are the ranges. -/
def Adjoining : Nat → List SectionGroup → Nat → Prop
  | start, [], stop => start = stop
  | start, group :: groups, stop =>
    group.start = start ∧ start < group.stop ∧ group.offsetsShard.base = start ∧
      group.offsetsShard.base + group.offsetsShard.len = group.stop ∧ Adjoining group.stop groups stop

/-- What `split_sections` makes of the input from an offset on. -/
structure SplitSpec (index base : Nat) (sections : List StringMergeInputSection) (offsetInSection stop : Nat)
    (groups : List SectionGroup) : Prop where
  indexed : groups.map (·.index) = List.range' index groups.length
  fresh : ∀ group ∈ groups, group.offsetsShard.keys = []
  valid : ∀ group ∈ groups, group.Valid
  adjoining : Adjoining base groups stop
  strings : groupStrings groups = stringsFrom sections offsetInSection

/-- The input that is left up to `stop`: nothing, or sections from an offset on. The map has come to `base`. -/
def LeftInput (base stop : Nat) : List StringMergeInputSection → Nat → Prop
  | [], _ => base = stop
  | sec :: behind, offsetInSection =>
    InsideInput sec behind offsetInSection ∧ base = sec.startInputOffset + offsetInSection ∧
      stop = sec.startInputOffset + totalPadded (sec :: behind)

/-- Behind a group that has been filled, more is left, or it ends at the end. -/
theorem leftInput_step {size : GroupSize} {base : Nat} (h : LeftInput base stop (sec :: behind) offsetInSection)
    {fill : GroupFill} (hfill : FillSpec sec behind offsetInSection size.size fill) :
    base + fill.groupSize size = fill.last.startInputOffset + fill.offsetInSection ∧
      (fill.endSection = true → LeftInput (base + fill.groupSize size) stop fill.behind 0) ∧
      (fill.endSection = false →
        LeftInput (base + fill.groupSize size) stop (fill.last :: fill.behind) fill.offsetInSection) := by
  obtain ⟨-, hbase, hstop⟩ := h
  have htaken := hfill.taken
  have hforward := hfill.forward
  have hfinish := hfill.finish
  have hnew : base + fill.groupSize size = fill.last.startInputOffset + fill.offsetInSection := by
    unfold GroupFill.groupSize
    omega
  rw [← hstop] at hfinish
  rw [hnew]
  refine ⟨rfl, fun hend => ?_, fun hend => ?_⟩
  · rw [if_pos hend] at hfinish
    rcases hbehind : fill.behind with - | ⟨s, rest⟩
    · rw [hbehind, totalPadded_nil, Nat.add_zero] at hfinish
      exact hfinish.symm
    · obtain ⟨hs, hinside⟩ := hfill.ended hend s rest hbehind
      exact ⟨hinside, hs.symm, by rw [hs, ← hbehind]; exact hfinish⟩
  · rw [if_neg (Bool.eq_false_iff.mp hend)] at hfinish
    exact ⟨hfill.next hend, rfl, hfinish⟩

/-- A group in front of those that the rest is split into. -/
theorem SplitSpec.cons {size : GroupSize} {index base offset : Nat} {rest : List StringMergeInputSection}
    {groups : List SectionGroup} {fill : GroupFill} (h : LeftInput base stop (sec :: behind) offsetInSection)
    (hfill : FillSpec sec behind offsetInSection size.size fill)
    (hrest : (if fill.endSection then stringsFrom fill.behind 0
      else stringsFrom (fill.last :: fill.behind) fill.offsetInSection) = stringsFrom rest offset)
    (hgroups : SplitSpec (index + 1) (base + fill.groupSize size) rest offset stop groups) :
    SplitSpec index base (sec :: behind) offsetInSection stop
      (fill.group size index base sec offsetInSection :: groups) := by
  obtain ⟨hnew, -⟩ := leftInput_step h hfill
  obtain ⟨-, hbase, -⟩ := h
  refine ⟨?_, ?_, ?_, ?_, ?_⟩
  · rw [List.map_cons, hgroups.indexed, List.length_cons, List.range'_succ]
    rfl
  · exact List.forall_mem_cons.mpr ⟨rfl, hgroups.fresh⟩
  · exact List.forall_mem_cons.mpr ⟨hfill.valid, hgroups.valid⟩
  · have hadjoining := hgroups.adjoining
    rw [hnew] at hadjoining
    exact ⟨hbase.symm, hbase ▸ hfill.forward, rfl, hnew, hadjoining⟩
  · rw [groupStrings, hgroups.strings, ← hrest]
    exact hfill.strings

theorem splitFrom_spec (size : GroupSize) (index base : Nat) (sections : List StringMergeInputSection)
    (offsetInSection : Nat) (h : LeftInput base stop sections offsetInSection) :
    SplitSpec index base sections offsetInSection stop (splitFrom size index base sections offsetInSection) := by
  induction index, base, sections, offsetInSection using splitFrom.induct size with
  | case1 index base offsetInSection =>
    rw [splitFrom]
    exact ⟨rfl, by simp, by simp, h, rfl⟩
  | case2 index base sec behind offsetInSection fill ihEnd ihMore =>
    have hfill : FillSpec sec behind offsetInSection size.size fill :=
      fillGroup_spec h.1 (Int.natCast_pos.mpr size.pos) (Int.natCast_dvd_natCast.mpr size.dvd)
    obtain ⟨-, hend, hmore⟩ := leftInput_step h hfill
    rw [splitFrom]
    by_cases h' : fill.endSection = true
    · rw [dif_pos h']
      exact SplitSpec.cons h hfill (if_pos h') (ihEnd (hend h'))
    · rw [dif_neg h']
      exact SplitSpec.cons h hfill (if_neg h') (ihMore h' (hmore (Bool.eq_false_iff.mpr h')))

theorem splitSections_spec (input : MergeSections) (size : GroupSize) :
    SplitSpec 0 0 input.sections 0 (totalInputSize input.sections) (splitSections input.sections size) := by
  refine splitFrom_spec size 0 0 input.sections 0 ?_
  rw [totalInputSize_eq input.placed]
  obtain ⟨sections, hplaced, hne⟩ := input
  cases sections with
  | nil => exact rfl
  | cons sec behind =>
    obtain ⟨hstart, hplaced⟩ := hplaced
    refine ⟨⟨hstart ▸ hplaced, hne, Nat.dvd_zero _, paddedLen_pos (hne sec List.mem_cons_self), .inr rfl⟩, ?_, ?_⟩
    · omega
    · show totalPadded (sec :: behind) = sec.startInputOffset + totalPadded (sec :: behind)
      omega

/-! ## What is inserted -/

/-- What a section holds: its strings, or all of it, each at its linear input offset. -/
def sectionPieces (sec : StringMergeInputSection) : List (Nat × Bytes) :=
  shiftPieces sec.startInputOffset
    (if sec.isString then piecesIn isNul sec.sectionData 0 sec.sectionData.length else [(0, sec.sectionData)])

def inputPieces (sections : List StringMergeInputSection) : List (Nat × Bytes) := sections.flatMap sectionPieces

/-- Each string of a section has its terminator. -/
def StringMergeInputSection.Ended (sec : StringMergeInputSection) : Prop :=
  sec.isString = true → endedIn isNul sec.sectionData 0 sec.sectionData.length = true

theorem sectionStrings_eq_some {pieces : List (Nat × Bytes)} (hne : sec.sectionData ≠ []) :
    sectionStrings sec 0 sec.paddedLen = some pieces ↔ sec.Ended ∧ pieces = sectionPieces sec := by
  have hpos := List.length_pos_of_ne_nil hne
  rw [← sectionStrings_stop hne (Nat.le_refl _)]
  unfold sectionStrings sectionPieces StringMergeInputSection.Ended
  cases sec.isString with
  | false =>
    rw [if_neg Bool.false_ne_true, if_neg Bool.false_ne_true, if_pos ⟨rfl, hpos⟩, Option.map_some, Option.some.injEq]
    exact ⟨fun h => ⟨fun h' => absurd h' Bool.false_ne_true, h.symm⟩, fun h => h.2.symm⟩
  | true =>
    rw [if_pos rfl, if_pos rfl]
    unfold split
    split
    case isTrue hended =>
      rw [Option.map_some, Option.some.injEq]
      exact ⟨fun h => ⟨fun _ => hended, h.symm⟩, fun h => h.2.symm⟩
    case isFalse hended =>
      exact ⟨nofun, fun h => absurd (h.1 rfl) hended⟩

theorem stringsFrom_eq_some {pieces : List (Nat × Bytes)} (hne : ∀ sec ∈ sections, sec.sectionData ≠ []) :
    stringsFrom sections 0 = some pieces ↔ (∀ sec ∈ sections, sec.Ended) ∧ pieces = inputPieces sections := by
  induction sections generalizing pieces with
  | nil => simp [stringsFrom, inputPieces, eq_comm]
  | cons sec secs ih =>
    rw [List.forall_mem_cons] at hne
    rw [stringsFrom, Option.map₂_eq_some_iff, List.forall_mem_cons]
    constructor
    · rintro ⟨front, rest, hfront, hrest, rfl⟩
      obtain ⟨hended, rfl⟩ := (sectionStrings_eq_some hne.1).mp hfront
      obtain ⟨hendeds, rfl⟩ := (ih hne.2).mp hrest
      exact ⟨⟨hended, hendeds⟩, rfl⟩
    · rintro ⟨⟨hended, hendeds⟩, rfl⟩
      exact ⟨_, _, (sectionStrings_eq_some hne.1).mpr ⟨hended, rfl⟩, (ih hne.2).mpr ⟨hendeds, rfl⟩, rfl⟩

/-- The strings of a vector, with their linear input offsets. -/
def stringsToMerge (strings : List StringToMerge) : List (Nat × Bytes) :=
  strings.map fun s => (s.offsetOut.offset, s.string)

/-- The vectors of a bucket, from all groups. -/
def bucketStrings (bucket : Nat) (outs : List SplitOutput) : List (Nat × Bytes) :=
  outs.flatMap fun out => stringsToMerge (out.buckets bucket)

/-- The pieces that hash to a bucket. -/
def MergeHashing.ofBucket (hashing : MergeHashing) (bucket : Nat) (pieces : List (Nat × Bytes)) : List (Nat × Bytes) :=
  pieces.filter fun piece => hashing.bucketOf piece.2 = bucket

theorem bucket_insertData (bucket inputOffset : Nat) (data : Bytes) :
    stringsToMerge ((insertData hashing out inputOffset data).buckets bucket) =
      stringsToMerge (out.buckets bucket) ++ hashing.ofBucket bucket [(inputOffset, data)] := by
  unfold insertData MergeHashing.ofBucket stringsToMerge
  rcases eq_or_ne bucket (hashing.bucketOf data) with rfl | hne
  · cases hashing.hasRoom out.offsetsShard inputOffset <;> simp [OffsetOut.offset]
  · simp [Function.update_of_ne hne, hne.symm]

theorem bucket_insertAll (hashing : MergeHashing) (out : SplitOutput) (bucket : Nat) (pieces : List (Nat × Bytes)) :
    stringsToMerge ((insertAll hashing out pieces).buckets bucket) =
      stringsToMerge (out.buckets bucket) ++ hashing.ofBucket bucket pieces := by
  induction pieces generalizing out with
  | nil => simp [insertAll, MergeHashing.ofBucket]
  | cons piece pieces ih =>
    refine (ih (insertData hashing out piece.1 piece.2)).trans ?_
    rw [bucket_insertData, List.append_assoc]
    simp [MergeHashing.ofBucket, ← List.filter_append]

/-- What the groups leave in a bucket are the strings of their ranges that hash to it. -/
theorem bucketStrings_splitGroups {groups : List SectionGroup} (hvalid : ∀ group ∈ groups, group.Valid)
    (bucket : Nat) :
    (groups.mapM (splitGroup hashing)).map (bucketStrings bucket) =
      (groupStrings groups).map (hashing.ofBucket bucket) := by
  induction groups with
  | nil => rfl
  | cons group groups ih =>
    rw [List.forall_mem_cons] at hvalid
    have hgroup : splitGroup hashing group = (stringsIn group.start group.stop group.sections).map
        (insertAll hashing { offsetsShard := group.offsetsShard }) := processSections_eq hvalid.1
    have hrest := ih hvalid.2
    rw [List.mapM_cons, groupStrings, hgroup]
    cases stringsIn group.start group.stop group.sections with
    | none        => rfl
    | some pieces =>
      cases hmap : groups.mapM (splitGroup hashing) with
      | none =>
        rw [hmap] at hrest
        cases hstrings : groupStrings groups with
        | none   => rfl
        | some _ => rw [hstrings] at hrest; cases hrest
      | some outs =>
        rw [hmap] at hrest
        cases hstrings : groupStrings groups with
        | none         => rw [hstrings] at hrest; cases hrest
        | some pieces' =>
          rw [hstrings, Option.map_some, Option.map_some, Option.some.injEq] at hrest
          have hfront := bucket_insertAll hashing { offsetsShard := group.offsetsShard } bucket pieces
          simp only [Option.map_some, Option.map₂_some_some, Option.bind_eq_bind, Option.bind_some, Option.pure_def,
            Option.some.injEq]
          rw [bucketStrings, List.flatMap_cons, hfront]
          simp only [MergeHashing.ofBucket, List.filter_append] at hrest ⊢
          rw [← hrest]
          rfl

theorem sectionPieces_within {piece : Nat × Bytes} (hne : sec.sectionData ≠ []) (h : piece ∈ sectionPieces sec) :
    sec.startInputOffset ≤ piece.1 ∧ piece.1 < sec.startInputOffset + sec.paddedLen := by
  obtain ⟨q, hq, rfl⟩ := List.mem_map.mp h
  have hle := le_paddedLen sec
  have hlt : q.1 < sec.sectionData.length := by
    split at hq
    · exact (mem_piecesIn.mp hq).2.1
    · rw [List.mem_singleton.mp hq]
      exact List.length_pos_of_ne_nil hne
  omega

theorem sectionPieces_sorted (sec : StringMergeInputSection) :
    (sectionPieces sec).Pairwise fun piece piece' => piece.1 < piece'.1 := by
  refine List.pairwise_map.mpr ?_
  have hadd : ∀ q q' : Nat × Bytes, q.1 < q'.1 → sec.startInputOffset + q.1 < sec.startInputOffset + q'.1 :=
    fun _ _ h => Nat.add_lt_add_left h _
  split
  · exact (piecesIn_sorted 0 _).imp (hadd _ _)
  · exact List.pairwise_singleton _ _

theorem inputPieces_behind (hplaced : PlacedFrom start sections) (hne : ∀ sec ∈ sections, sec.sectionData ≠ []) :
    ∀ piece ∈ inputPieces sections, start ≤ piece.1 := by
  induction sections generalizing start with
  | nil => simp [inputPieces]
  | cons sec secs ih =>
    obtain ⟨hstart, hplaced⟩ := hplaced
    rw [List.forall_mem_cons] at hne
    intro piece hpiece
    rw [inputPieces, List.flatMap_cons, List.mem_append] at hpiece
    rcases hpiece with hpiece | hpiece
    · exact hstart ▸ (sectionPieces_within hne.1 hpiece).1
    · exact (Nat.le_add_right _ _).trans (ih hplaced hne.2 piece hpiece)

/-- The offsets rise: none occurs twice. -/
theorem inputPieces_sorted (hplaced : PlacedFrom start sections) (hne : ∀ sec ∈ sections, sec.sectionData ≠ []) :
    (inputPieces sections).Pairwise fun piece piece' => piece.1 < piece'.1 := by
  induction sections generalizing start with
  | nil => exact List.Pairwise.nil
  | cons sec secs ih =>
    obtain ⟨hstart, hplaced⟩ := hplaced
    rw [List.forall_mem_cons] at hne
    refine List.pairwise_append.mpr ⟨sectionPieces_sorted sec, ih hplaced hne.2, fun piece hpiece piece' hpiece' => ?_⟩
    have hfront := (sectionPieces_within hne.1 hpiece).2
    have hbehind := inputPieces_behind hplaced hne.2 piece' hpiece'
    omega

/-- All groups together leave in each bucket what the sections hold, if the strings have their terminators. -/
theorem bucketStrings_split (hashing : MergeHashing) (input : MergeSections) (size : GroupSize) (bucket : Nat) :
    ((splitSections input.sections size).mapM (splitGroup hashing)).map (bucketStrings bucket) =
      (stringsFrom input.sections 0).map (hashing.ofBucket bucket) := by
  have hspec := splitSections_spec input size
  rw [bucketStrings_splitGroups hspec.valid, hspec.strings]

/-- **Each string is inserted once, at its own offset, and the ranges of the groups cover the input.** -/
theorem strings_inserted_once (hashing : MergeHashing) (input : MergeSections) (size : GroupSize)
    (hnul : ∀ sec ∈ input.sections, sec.isString = true → sec.sectionData.getLast? = some 0) :
    (∃ outs, (splitSections input.sections size).mapM (splitGroup hashing) = some outs ∧
        ∀ bucket, bucketStrings bucket outs = hashing.ofBucket bucket (inputPieces input.sections)) ∧
      (inputPieces input.sections).Pairwise (fun piece piece' => piece.1 < piece'.1) ∧
      Adjoining 0 (splitSections input.sections size) (totalInputSize input.sections) := by
  refine ⟨?_, inputPieces_sorted input.placed input.nonempty, (splitSections_spec input size).adjoining⟩
  have hended : ∀ sec ∈ input.sections, sec.Ended := by
    intro sec hsec hstring
    have hlast : split isNul sec.sectionData 0 sec.sectionData.length = some _ :=
      split_of_getLast ⟨0, hnul sec hsec hstring, rfl⟩
    by_contra hnot
    rw [split, if_neg hnot] at hlast
    cases hlast
  have hstrings := (stringsFrom_eq_some input.nonempty).mpr ⟨hended, rfl⟩
  have hall := fun bucket => bucketStrings_split hashing input size bucket
  simp only [hstrings, Option.map_some] at hall
  cases houts : (splitSections input.sections size).mapM (splitGroup hashing) with
  | none => exact absurd (houts ▸ hall 0) (by simp)
  | some outs =>
    refine ⟨outs, rfl, fun bucket => ?_⟩
    have := houts ▸ hall bucket
    rwa [Option.map_some, Option.some.injEq] at this

theorem strings_inserted_once_mixed :
    let hashing : MergeHashing := ⟨List.length, fun shard _ => shard.keys.length < 12⟩
    let sections : List StringMergeInputSection := [⟨[97, 0, 98, 0], 0, true⟩, ⟨[1, 2, 3], 256, false⟩]
    ∃ outs, (splitSections sections ⟨256, by decide, by decide⟩).mapM (splitGroup hashing) = some outs ∧
      bucketStrings 2 outs = [(0, [97, 0]), (2, [98, 0])] ∧ bucketStrings 3 outs = [(256, [1, 2, 3])] := by
  intro hashing sections
  obtain ⟨⟨outs, houts, hbucket⟩, -⟩ := strings_inserted_once hashing
    ⟨sections, ⟨rfl, by decide, trivial⟩, by decide⟩ ⟨256, by decide, by decide⟩ (by decide)
  exact ⟨outs, houts, (hbucket 2).trans (by decide), (hbucket 3).trans (by decide)⟩

end

end Reld.Merge
