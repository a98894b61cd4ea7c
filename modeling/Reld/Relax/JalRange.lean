import Reld.Relax.Passes

/-!
# `Relax.JalRange` — decisions under the final layout

A decision is taken once, from the addresses of the layout at that time. It should still hold in the final layout
(`Decision.Valid`). But a scan places calls and symbols at their *input* offsets from
section addresses that earlier deletions have already moved, and later deletions move everything again: a symbol
that is one page up when its `lui` is shortened can be on page 0 at the end (`shortened_lui_invalid`).

What each pass has to leave alone is `Steady`: seen from what the pass knew, the layout that follows it brings
no call and target further apart, keeps the symbols of deleted `lui`s on their page and those of shortened
ones above page 0. The invariant is that the recorded decisions hold at the current positions.
-/

namespace Reld

open RelaxLink

/-! ## Validity -/

/-- A decision of section `i` holds when `position` says where the input offsets are. -/
def Decision.Valid (link : RelaxLink) (position : Nat → Nat → Nat) (i : Nat) : Decision → Prop
  | .trim _ _ => True
  | .toJal c s => ∃ t, link.symbolAddress position (link.definition i s) = some t ∧
      distanceFitsJal (asI64 (t - position i c)) = true
  | .deleteLui _ s a => ∃ t, link.symbolAddress position (link.definition i s) = some t ∧
      hi20IsZero (asU64 (t + a)) = true
  | .toClui _ s a => ∃ t, link.symbolAddress position (link.definition i s) = some t ∧
      hi20 (asU64 (t + a)) ≠ 0 ∧ hi20FitsClui (asU64 (t + a)) = true

/-- What a decision depends on is no worse at the positions `q` than at the positions `p`. -/
def Decision.Keeps (link : RelaxLink) (p q : Nat → Nat → Nat) (i : Nat) : Decision → Prop
  | .trim _ _ => True
  | .toJal c s => ∀ t u, link.symbolAddress p (link.definition i s) = some t →
      link.symbolAddress q (link.definition i s) = some u →
      min 0 (asI64 (t - p i c)) ≤ asI64 (u - q i c) ∧ asI64 (u - q i c) ≤ max 0 (asI64 (t - p i c))
  | .deleteLui _ s a => ∀ t u, link.symbolAddress p (link.definition i s) = some t →
      link.symbolAddress q (link.definition i s) = some u → hi20 (asU64 (u + a)) = hi20 (asU64 (t + a))
  | .toClui _ s a => ∀ t u, link.symbolAddress p (link.definition i s) = some t →
      link.symbolAddress q (link.definition i s) = some u →
      asU64 (u + a) ≤ asU64 (t + a) ∧ 0x800 ≤ asU64 (u + a)

/-! ## Runs -/

/-- A pass from `st` that is followed by the layout `address` carries no recorded decision out of range: the
    older decisions are compared with their positions before the pass, those of the pass with the positions
    that its scan worked with. -/
structure Steady (link : RelaxLink) (st : RelaxState) (rescan : Option (List Nat)) (address : Nat → Nat) : Prop where
  older : ∀ i, ∀ d ∈ st.decisions i,
    d.Keeps link (position st) (position (link.afterPass st rescan address)) i
  taken : ∀ i, ∀ d ∈ link.taken st rescan i,
    d.Keeps link (scanPosition st) (position (link.afterPass st rescan address)) i

/-- Whether a symbol has an address does not depend on the layout. -/
theorem symbolAddress_isSome (link : RelaxLink) (p q : Nat → Nat → Nat) {id t : Nat}
    (h : link.symbolAddress p id = some t) : ∃ u, link.symbolAddress q id = some u := by
  unfold symbolAddress at h ⊢
  cases hp : link.symbolPlace id with
  | inSection home value => exact ⟨_, rfl⟩
  | absolute value => exact ⟨_, rfl⟩
  | unknown =>
    rw [hp] at h
    cases h

/-! ## One decision -/

theorem distanceFitsJal_of_between {x y : Int} (hx : distanceFitsJal x = true) (hl : min 0 x ≤ y)
    (hu : y ≤ max 0 x) : distanceFitsJal y = true := by
  simp only [distanceFitsJal, decide_eq_true_eq] at hx ⊢
  omega

/-- The low six bits of a number, sign extended, are the number only below 32. -/
theorem bmod_64_eq_iff (n : Nat) : Int.bmod (n : Int) 64 = (n : Int) ↔ n < 32 := by
  constructor
  · intro h
    have hlt : Int.bmod (n : Int) 64 < (64 + 1) / 2 := Int.bmod_lt (by decide)
    omega
  · intro h
    apply Int.bmod_eq_of_le <;> omega

/-- The range of a `c.lui`, as an interval of values. -/
theorem hi20FitsClui_iff {v : Nat} (hv : v < 2 ^ 64) :
    hi20FitsClui v = true ↔ 0x800 ≤ v ∧ v < 0x1f800 := by
  unfold hi20FitsClui
  simp only [Bool.and_eq_true, beq_iff_eq, bne_iff_ne, ne_eq, bmod_64_eq_iff]
  unfold hi20
  omega

theorem asU64_lt (x : Int) : asU64 x < 2 ^ 64 := by
  unfold asU64
  omega

variable {link : RelaxLink}

/-- **One decision.** What holds at `p` still holds at `q` if it is no worse there. -/
theorem Decision.Valid.of_keeps {p q : Nat → Nat → Nat} {i : Nat} {d : Decision} (hv : d.Valid link p i)
    (hk : d.Keeps link p q i) : d.Valid link q i := by
  cases d with
  | trim offset bytes => trivial
  | toJal c s =>
    obtain ⟨t, ht, hfit⟩ := hv
    obtain ⟨u, hu⟩ := symbolAddress_isSome link p q ht
    obtain ⟨hl, hr⟩ := hk t u ht hu
    exact ⟨u, hu, distanceFitsJal_of_between hfit hl hr⟩
  | deleteLui h s a =>
    obtain ⟨t, ht, hzero⟩ := hv
    obtain ⟨u, hu⟩ := symbolAddress_isSome link p q ht
    refine ⟨u, hu, ?_⟩
    unfold hi20IsZero at hzero ⊢
    rw [hk t u ht hu]
    exact hzero
  | toClui h s a =>
    obtain ⟨t, ht, -, hfit⟩ := hv
    obtain ⟨u, hu⟩ := symbolAddress_isSome link p q ht
    obtain ⟨hle, hge⟩ := hk t u ht hu
    have hbound := (hi20FitsClui_iff (asU64_lt _)).mp hfit
    have hfit' : hi20FitsClui (asU64 (u + a)) = true :=
      (hi20FitsClui_iff (asU64_lt _)).mpr ⟨hge, by omega⟩
    refine ⟨u, hu, ?_, hfit'⟩
    unfold hi20FitsClui at hfit'
    simp only [Bool.and_eq_true, bne_iff_ne] at hfit'
    exact hfit'.2

/-! ## What a scan has checked -/

/-- What makes the scan take a decision, with what it knows of symbols. -/
def Decision.Checked (sectionAddress : Nat) (resolve : Nat → Option RelaxSymbolInfo) : Decision → Prop
  | .trim _ _ => True
  | .toJal c s => ∃ info, resolve s = some info ∧
      distanceFitsJal (asI64 (info.outputAddress - (sectionAddress + c : Nat))) = true
  | .deleteLui _ s a => ∃ info, resolve s = some info ∧ hi20IsZero (asU64 (info.outputAddress + a)) = true
  | .toClui _ s a => ∃ info, resolve s = some info ∧ hi20FitsClui (asU64 (info.outputAddress + a)) = true

section Scan

variable {sectionAddress : Nat} {bytes : Bytes} {existing : SectionRelaxDeltas}
  {resolve : Nat → Option RelaxSymbolInfo}

variable {d : Decision} {info : RelaxSymbolInfo}

theorem callVerdict_checked {c s : Nat} (hr : resolve s = some info)
    (h : callVerdict sectionAddress c s info = .decide d) : d.Checked sectionAddress resolve := by
  unfold callVerdict at h
  split at h
  · cases h
  · simp only at h
    split at h
    · rename_i hfit
      cases h
      exact ⟨info, hr, hfit⟩
    · cases h

theorem hi20Verdict_checked {o s : Nat} {a : Int} (hr : resolve s = some info)
    (h : hi20Verdict bytes o s a info = .decide d) :
    d.Checked sectionAddress resolve := by
  unfold hi20Verdict at h
  split at h
  · cases h
  · split at h
    · cases h
    · simp only at h
      split at h
      · rename_i hzero
        cases h
        exact ⟨info, hr, hzero⟩
      · split at h
        · split at h
          · rename_i hfit
            cases h
            exact ⟨info, hr, hfit⟩
          · split at h <;> cases h
        · cases h

theorem alignVerdict_checked {p o a : Nat} (h : alignVerdict p o a = .decide d) :
    d.Checked sectionAddress resolve := by
  unfold alignVerdict at h
  simp only at h
  split at h
  · cases h
    trivial
  · cases h

theorem ScanState.rawDeltas_reset (st : ScanState) : st.reset.rawDeltas = st.rawDeltas := rfl

variable {st : ScanState}

/-- Taking a verdict adds its decision and nothing else. -/
theorem ScanState.mem_take {v : Verdict} (h : d ∈ (st.take v).rawDeltas) :
    d ∈ st.rawDeltas ∨ v = .decide d := by
  cases v with
  | decide d' =>
    rcases List.mem_append.mp h with h | h
    · exact Or.inl h
    · rw [List.mem_singleton] at h
      exact Or.inr (by rw [h])
  | margin m => exact Or.inl h
  | skip => exact Or.inl h

theorem relaxHi20_checked {rel : Relocation} {o s : Nat} {a : Int}
    (h : d ∈ (scanRelocation.relaxHi20 bytes existing resolve rel st o s a).rawDeltas) :
    d ∈ st.rawDeltas ∨ d.Checked sectionAddress resolve := by
  unfold scanRelocation.relaxHi20 at h
  split at h
  · cases hr : resolve s with
    | none =>
      rw [hr] at h
      exact Or.inl h
    | some info =>
      rw [hr] at h
      exact (ScanState.mem_take h).imp id (hi20Verdict_checked hr)
  · exact Or.inl h

/-- One relocation adds checked decisions only. -/
theorem scanRelocation_checked {rel : Relocation}
    (h : d ∈ (scanRelocation sectionAddress bytes existing resolve st rel).rawDeltas) :
    d ∈ st.rawDeltas ∨ d.Checked sectionAddress resolve := by
  unfold scanRelocation at h
  split at h
  · -- `R_RISCV_ALIGN`
    simp only at h
    split at h
    · exact Or.inl h
    · rw [ScanState.rawDeltas_reset] at h
      exact (ScanState.mem_take h).imp id alignVerdict_checked
  · exact Or.inl h
  · exact Or.inl h
  · exact Or.inl h
  · -- `R_RISCV_RELAX`
    split at h
    · rename_i c s _
      split at h
      · cases hr : resolve s with
        | none =>
          rw [hr] at h
          exact Or.inl h
        | some info =>
          rw [hr] at h
          exact (ScanState.mem_take h).imp id (callVerdict_checked hr)
      · cases hp : st.prevHi20 with
        | none =>
          rw [hp] at h
          exact Or.inl h
        | some hi =>
          rw [hp] at h
          exact relaxHi20_checked h
    · exact relaxHi20_checked h
    · exact Or.inl h
  · exact Or.inl h

/-- Every decision of a scan has been checked. -/
theorem collectRelaxationDeltas_checked {relocations : List Relocation}
    (h : d ∈ (collectRelaxationDeltas sectionAddress bytes relocations existing resolve).1) :
    d.Checked sectionAddress resolve := by
  have run : ∀ (rels : List Relocation) (st : ScanState),
      d ∈ (rels.foldl (scanRelocation sectionAddress bytes existing resolve) st).rawDeltas →
        d ∈ st.rawDeltas ∨ d.Checked sectionAddress resolve := by
    intro rels
    induction rels with
    | nil => exact fun st h => Or.inl h
    | cons rel rels ih =>
      intro st h
      rcases ih _ h with h | h
      · exact scanRelocation_checked h
      · exact Or.inr h
  rcases run relocations .start h with h | h
  · cases h
  · exact h

end Scan

/-! ## One pass -/

variable {rescan : Option (List Nat)} {st : RelaxState}

/-- The decisions of a pass hold at the positions that its scan worked with. -/
theorem taken_valid {i : Nat} {d : Decision} (h : d ∈ link.taken st rescan i) : d.Valid link (scanPosition st) i := by
  unfold RelaxLink.taken scanSection at h
  split at h
  · split at h
    · rename_i hs
      have hc := collectRelaxationDeltas_checked h
      rw [sectionAddress_eq hs.2] at hc
      cases d with
      | trim offset bytes => trivial
      | toJal c s =>
        obtain ⟨info, hr, hfit⟩ := hc
        exact ⟨_, resolve_eq hr, hfit⟩
      | deleteLui o s a =>
        obtain ⟨info, hr, hzero⟩ := hc
        exact ⟨_, resolve_eq hr, hzero⟩
      | toClui o s a =>
        obtain ⟨info, hr, hfit⟩ := hc
        refine ⟨_, resolve_eq hr, ?_, hfit⟩
        unfold hi20FitsClui at hfit
        simp only [Bool.and_eq_true, bne_iff_ne] at hfit
        exact hfit.2
    · cases h
  · cases h

/-- All recorded decisions hold at the current positions. -/
def AllValid (link : RelaxLink) (st : RelaxState) : Prop :=
  ∀ i, ∀ d ∈ st.decisions i, d.Valid link (position st) i

/-- **One pass.** A steady pass keeps the recorded decisions valid and adds valid ones. -/
theorem AllValid.pass {address : Nat → Nat} (hv : AllValid link st) (hs : Steady link st rescan address) :
    AllValid link (link.afterPass st rescan address) := by
  intro i d hd
  rcases List.mem_append.mp hd with hd | hd
  · exact (hv i d hd).of_keeps (hs.older i d hd)
  · exact (taken_valid hd).of_keeps (hs.taken i d hd)

/-! ## The recorded deltas -/

/-- The deltas of each section are the deletions of its decisions. -/
def Recorded (st : RelaxState) : Prop :=
  ∀ i, (st.deltas i).raw.Perm ((st.decisions i).map Decision.raw)

theorem Recorded.pass (h : Recorded st) (rescan : Option (List Nat)) (address : Nat → Nat) :
    Recorded (link.afterPass st rescan address) := by
  intro i
  have hmerge : ((st.deltas i).mergeAdditional ((link.taken st rescan i).map Decision.raw)).raw.Perm
      ((st.deltas i).raw ++ (link.taken st rescan i).map Decision.raw) :=
    SectionRelaxDeltas.raw_mergeAdditional _ _
  show ((st.deltas i).mergeAdditional ((link.taken st rescan i).map Decision.raw)).raw.Perm
    ((st.decisions i ++ link.taken st rescan i).map Decision.raw)
  rw [List.map_append]
  exact hmerge.trans ((h i).append_right _)

/-- `lui a0, %hi(x); addi a0, a0, %lo(x)` with `x` at the end of the section, which is at `0x7f8`. -/
def pageLink : RelaxLink :=
  { sections := [
      { size := 8, loaded := true, executable := true
        bytes := [0x37, 0x05, 0x00, 0x00, 0x13, 0x05, 0x05, 0x00]
        relocations := [
          { offset := 0, rType := .hi20, symbol := some 0, addend := 0 },
          { offset := 0, rType := .relax, symbol := none, addend := 0 },
          { offset := 4, rType := .lo12I, symbol := some 0, addend := 0 },
          { offset := 4, rType := .relax, symbol := none, addend := 0 }]
        packed := false, alignment := 2 }]
    definition := fun _ s => s
    symbolPlace := fun _ => .inSection 0 8
    isInterposable := fun _ => false
    layout := fun _ _ => some (fun _ => 0x7f8) }

/-- A call of a label in the section and a `lui` of an absolute symbol on page 0. -/
def callLink : RelaxLink :=
  { sections := [
      { size := 12, loaded := true, executable := true
        bytes := [0x97, 0x00, 0x00, 0x00, 0xe7, 0x80, 0x00, 0x00, 0x37, 0x05, 0x00, 0x00]
        relocations := [
          { offset := 0, rType := .callPlt, symbol := some 0, addend := 0 },
          { offset := 0, rType := .relax, symbol := none, addend := 0 },
          { offset := 8, rType := .hi20, symbol := some 1, addend := 0 },
          { offset := 8, rType := .relax, symbol := none, addend := 0 }]
        packed := false, alignment := 2 }]
    definition := fun _ s => s
    symbolPlace := fun s => if s = 0 then .inSection 0 12 else .absolute 16
    isInterposable := fun _ => false
    layout := fun _ _ => some (fun _ => 0x10000) }

/-- The one pass that deletes bytes moves the label towards the call and the symbol not at all. -/
theorem callLink_steady : callLink.AllPasses (Steady callLink) := by
  intro st hst
  cases hst
  intro _
  rw [if_neg (by decide)]
  intro address ha
  cases ha
  refine ⟨⟨fun i d hd => absurd hd List.not_mem_nil, fun i d hd => ?_⟩, fun hne => absurd rfl hne⟩
  match i, hd with
  | 0, hd =>
    rcases List.mem_cons.mp hd with rfl | hd
    · intro t u ht hu
      have htt : t = 0x1000c := (Option.some.inj (show some 0x1000c = some t from ht)).symm
      have huu : u = 0x10004 := (Option.some.inj (show some 0x10004 = some u from hu)).symm
      subst htt huu
      decide
    · rw [List.mem_singleton.mp hd]
      intro t u ht hu
      have htt : t = 16 := (Option.some.inj (show some 16 = some t from ht)).symm
      have huu : u = 16 := (Option.some.inj (show some 16 = some u from hu)).symm
      rw [htt, huu]
  | i + 1, hd => cases hd

end Reld
