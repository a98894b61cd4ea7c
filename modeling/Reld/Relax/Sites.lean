import Reld.Relax.Deltas

/-!
# `Relax.Sites` — the scan of a section, relocation by relocation

The variables of the scan only look one relocation back, so the scan is a walk over the relocations that knows
the one before and the bytes deleted so far. Each decision then belongs to one relocation, its *site*: the
padding, the call or the `lui` whose bytes it deletes (`Relocation.Owns`). Sites come in the order of the
relocations and each has at most one decision, also over several passes.
-/

namespace Reld

open SectionRelaxDeltas

/-! ## Sites -/

namespace Relocation

def isCall (r : Relocation) : Bool := r.rType == .call || r.rType == .callPlt

/-- Whether relaxation may delete bytes for this relocation. -/
def isSite (r : Relocation) : Bool := r.rType == .align || r.isCall || r.rType == .hi20

/-- The bytes that belong to a site. -/
def siteSize (r : Relocation) : Nat :=
  match r.rType with
  | .align          => asU64 r.addend
  | .call | .callPlt => 8
  | .hi20 => 4
  | _ => 0

/-- A deletion that relaxation makes for a site. -/
def Owns (r : Relocation) (e : Nat × Nat) : Prop :=
  match r.rType with
  | .align          => e.1 = r.offset ∧ 0 < e.2 ∧ e.2 ≤ asU64 r.addend
  | .call | .callPlt => e = (r.offset + 4, 4)
  | .hi20 => e = (r.offset, 4) ∨ e = (r.offset + 2, 2)
  | _ => False

/-- No deletion has been recorded for a site. -/
def Unrelaxed (r : Relocation) (existing : SectionRelaxDeltas) : Prop :=
  match r.rType with
  | .align          => existing.hasDeltaAt r.offset = false
  | .call | .callPlt => existing.hasDeltaAt (r.offset + 4) = false
  | .hi20 => existing.hasDeltaAt r.offset = false ∧ existing.hasDeltaAt (r.offset + 2) = false
  | _ => True

/-- A deletion lies in its site. -/
theorem Owns.inside {r : Relocation} {e : Nat × Nat} (h : r.Owns e) :
    r.isSite = true ∧ r.offset ≤ e.1 ∧ 0 < e.2 ∧ e.1 + e.2 ≤ r.offset + r.siteSize := by
  unfold Owns at h
  unfold isSite isCall siteSize
  cases hr : r.rType <;> rw [hr] at h <;> simp only at h ⊢
  · obtain ⟨h1, h2, h3⟩ := h
    exact ⟨by simp, by omega, h2, by omega⟩
  · subst h
    exact ⟨by simp, by omega, by omega, by omega⟩
  · subst h
    exact ⟨by simp, by omega, by omega, by omega⟩
  · rcases h with rfl | rfl
    · exact ⟨by simp, by omega, by omega, by omega⟩
    · exact ⟨by simp, by omega, by omega, by omega⟩

/-- A site without a recorded deletion owns none of the recorded ones. -/
theorem Unrelaxed.not_owns {r : Relocation} {existing : SectionRelaxDeltas} (h : r.Unrelaxed existing)
    {e : Nat × Nat} (he : e ∈ existing.raw) : ¬ r.Owns e := by
  have has : existing.hasDeltaAt e.1 = true := hasDeltaAt_iff.mpr ⟨e.2, he⟩
  intro ho
  unfold Owns at ho
  unfold Unrelaxed at h
  cases hr : r.rType <;> rw [hr] at h ho <;> simp only at h ho
  · rw [ho.1, h] at has
    cases has
  · rw [ho, h] at has
    cases has
  · rw [ho, h] at has
    cases has
  · rcases ho with ho | ho
    · rw [ho, h.1] at has
      cases has
    · rw [ho, h.2] at has
      cases has

end Relocation

/-- The sites of a section come in order and do not overlap. -/
def SitesApart (relocations : List Relocation) : Prop :=
  relocations.Pairwise (fun r s => r.isSite = true → s.isSite = true → r.offset + r.siteSize ≤ s.offset)

/-! ## The walk -/

def Verdict.decision : Verdict → Option Decision
  | .decide d => some d
  | _ => none

section Walk

variable (sectionAddress : Nat) (bytes : Bytes) (existing : SectionRelaxDeltas)
  (resolve : Nat → Option RelaxSymbolInfo)

/-- What is decided for an `R_RISCV_ALIGN` when `deleted` bytes have been deleted in this scan. -/
def alignDecision (deleted : Nat) (rel : Relocation) : Option Decision :=
  if asU64 rel.addend = 0 ∨ existing.hasDeltaAt rel.offset = true then none
  else
    (alignVerdict (sectionAddress + (rel.offset - existing.deletedBefore rel.offset - deleted)) rel.offset
      (asU64 rel.addend)).decision

/-- What is decided for a call or a `lui` that an `R_RISCV_RELAX` follows. -/
def relaxDecision (prev : Relocation) : Option Decision :=
  match prev.symbol with
  | none => none
  | some s =>
    if prev.isCall = true ∧ existing.hasDeltaAt (prev.offset + 4) = false then
      (resolve s).bind (fun info => (callVerdict sectionAddress prev.offset s info).decision)
    else if prev.rType = .hi20 ∧ existing.hasDeltaAt prev.offset = false ∧
        existing.hasDeltaAt (prev.offset + 2) = false then
      (resolve s).bind (fun info => (hi20Verdict bytes prev.offset s prev.addend info).decision)
    else none

/-- What is decided at a relocation, with the site it is for. -/
def siteAt (prev : Option Relocation) (deleted : Nat) (rel : Relocation) : Option (Relocation × Decision) :=
  match rel.rType, prev with
  | .align, _ => (alignDecision sectionAddress existing deleted rel).map (rel, ·)
  | .relax, some p =>
    if rel.offset = p.offset then (relaxDecision sectionAddress bytes existing resolve p).map (p, ·) else none
  | _, _ => none

/-- The bytes that are deleted for a site, if there is a decision. -/
def siteBytes : Option (Relocation × Decision) → Nat
  | some site => site.2.raw.2
  | none      => 0

/-- The sites of a list of relocations with what is decided for them. -/
def scanSites (prev : Option Relocation) (deleted : Nat) : List Relocation → List (Relocation × Decision)
  | [] => []
  | rel :: rels =>
    let site := siteAt sectionAddress bytes existing resolve prev deleted rel
    site.toList ++ scanSites (some rel) (deleted + siteBytes site) rels

end Walk

/-! ## The scan is the walk -/

/-- The call that a relocation leaves behind for the next one. -/
def Relocation.callSite (r : Relocation) : Option (Nat × Nat) :=
  if r.isCall then r.symbol.map (fun s => (r.offset, s)) else none

/-- The `lui` that a relocation leaves behind for the next one. -/
def Relocation.hi20Site (r : Relocation) : Option (Nat × Nat × Int) :=
  if r.rType = .hi20 then r.symbol.map (fun s => (r.offset, s, r.addend)) else none

/-- The variables of the scan after a relocation. -/
structure ScanState.Knows (st : ScanState) (prev : Option Relocation) (deleted : Nat) : Prop where
  call : st.prevCall = prev.bind Relocation.callSite
  hi20 : st.prevHi20 = prev.bind Relocation.hi20Site
  deleted : st.newCumulativeDelta = deleted

theorem ScanState.take_decision (st : ScanState) (v : Verdict) :
    (st.take v).rawDeltas = st.rawDeltas ++ v.decision.toList ∧
      (st.take v).newCumulativeDelta = st.newCumulativeDelta + (v.decision.map (·.raw.2)).getD 0 := by
  cases v with
  | decide d => exact ⟨rfl, rfl⟩
  | margin m => exact ⟨(List.append_nil _).symm, rfl⟩
  | skip => exact ⟨(List.append_nil _).symm, rfl⟩

section Walk

variable {sectionAddress : Nat} {bytes : Bytes} {existing : SectionRelaxDeltas}
  {resolve : Nat → Option RelaxSymbolInfo}

/-- What a relocation does to the variables of the scan: it adds a decision or none and leaves itself behind. -/
structure Advances (st st' : ScanState) (rel : Relocation) (decision : Option Decision) : Prop where
  rawDeltas : st'.rawDeltas = st.rawDeltas ++ decision.toList
  knows : st'.Knows (some rel) (st.newCumulativeDelta + (decision.map (·.raw.2)).getD 0)

variable {rel : Relocation} {st : ScanState}

/-- A relocation that is neither a call nor a `lui` leaves nothing behind. -/
theorem Advances.reset {st' : ScanState} {decision : Option Decision} (hcall : rel.isCall = false)
    (hhi : rel.rType ≠ .hi20) (hraw : st'.rawDeltas = st.rawDeltas ++ decision.toList)
    (hcum : st'.newCumulativeDelta = st.newCumulativeDelta + (decision.map (·.raw.2)).getD 0) :
    Advances st st'.reset rel decision where
  rawDeltas := hraw
  knows := by
    refine ⟨?_, ?_, hcum⟩
    · show none = rel.callSite
      unfold Relocation.callSite
      rw [hcall]
      rfl
    · show none = rel.hi20Site
      unfold Relocation.hi20Site
      rw [if_neg hhi]

theorem Advances.skip (hcall : rel.isCall = false) (hhi : rel.rType ≠ .hi20) : Advances st st.reset rel none :=
  .reset hcall hhi (List.append_nil _).symm rfl

theorem Advances.take (hcall : rel.isCall = false) (hhi : rel.rType ≠ .hi20) (v : Verdict) :
    Advances st (st.take v).reset rel v.decision :=
  .reset hcall hhi (st.take_decision v).1 (st.take_decision v).2

theorem map_snd_pair {α β : Type} (a : α) (o : Option β) : o.map (Prod.snd ∘ fun b => (a, b)) = o := Option.map_id'

variable {prev : Option Relocation} {deleted : Nat}

/-- The `R_RISCV_RELAX` step, by what the relocation before has left behind. -/
theorem relax_advances (hk : st.Knows prev deleted) (hr : rel.rType = .relax) :
    Advances st (scanRelocation sectionAddress bytes existing resolve st rel) rel
      ((siteAt sectionAddress bytes existing resolve prev deleted rel).map (·.2)) := by
  have hcall : rel.isCall = false := by simp [Relocation.isCall, hr]
  have hhi : rel.rType ≠ .hi20 := by simp [hr]
  unfold scanRelocation siteAt
  simp only [hr]
  cases prev with
  | none =>
    have hc : st.prevCall = none := hk.call
    have hh : st.prevHi20 = none := hk.hi20
    simp only [hc, hh]
    exact .skip hcall hhi
  | some p =>
    have hc : st.prevCall = p.callSite := hk.call
    have hh : st.prevHi20 = p.hi20Site := hk.hi20
    rw [hc, hh]
    unfold Relocation.callSite Relocation.hi20Site relaxDecision
    cases hs : p.symbol with
    | none =>
      simp only [hs, Option.map_none, ite_self]
      exact .skip hcall hhi
    | some s =>
      by_cases hpc : p.isCall = true
      · -- the relocation before is a call
        have hph : p.rType ≠ .hi20 := by
          intro h
          simp [Relocation.isCall, h] at hpc
        simp only [hs, hpc, hph, if_true, if_false, Option.map_some, true_and, false_and]
        by_cases ho : rel.offset = p.offset
        · by_cases hd : existing.hasDeltaAt (p.offset + 4) = false
          · rw [if_pos ⟨ho, hd⟩, if_pos ho, if_pos hd]
            cases hres : resolve s with
            | none => exact .skip hcall hhi
            | some info =>
              rw [Option.bind_some, Option.map_map, map_snd_pair]
              exact .take hcall hhi _
          · rw [if_neg (fun h => hd h.2), if_pos ho, if_neg hd]
            exact .skip hcall hhi
        · rw [if_neg (fun h => ho h.1), if_neg ho]
          exact .skip hcall hhi
      · simp only [hs, hpc, Bool.false_eq_true, if_false, false_and]
        by_cases hph : p.rType = .hi20
        · -- the relocation before is a `lui`
          simp only [hph, if_true, Option.map_some, true_and]
          unfold scanRelocation.relaxHi20
          by_cases ho : rel.offset = p.offset
          · by_cases hd : existing.hasDeltaAt p.offset = false ∧ existing.hasDeltaAt (p.offset + 2) = false
            · rw [if_pos ⟨ho, hd⟩, if_pos ho, if_pos hd]
              cases hres : resolve s with
              | none => exact .skip hcall hhi
              | some info =>
                rw [Option.bind_some, Option.map_map, map_snd_pair]
                exact .take hcall hhi _
            · rw [if_neg (fun h => hd h.2), if_pos ho, if_neg hd]
              exact .skip hcall hhi
          · rw [if_neg (fun h => ho h.1), if_neg ho]
            exact .skip hcall hhi
        · simp only [hph, if_false, false_and, Option.map_none, ite_self]
          exact .skip hcall hhi

/-- **One relocation.** -/
theorem scanRelocation_advances (hk : st.Knows prev deleted) :
    Advances st (scanRelocation sectionAddress bytes existing resolve st rel) rel
      ((siteAt sectionAddress bytes existing resolve prev deleted rel).map (·.2)) := by
  cases hr : rel.rType with
  | relax => exact relax_advances hk hr
  | align =>
    have hcall : rel.isCall = false := by simp [Relocation.isCall, hr]
    have hhi : rel.rType ≠ .hi20 := by simp [hr]
    have hdel : st.newCumulativeDelta = deleted := hk.deleted
    unfold scanRelocation siteAt alignDecision
    simp only [hr, hdel]
    by_cases h : asU64 rel.addend = 0 ∨ existing.hasDeltaAt rel.offset = true
    · rw [if_pos h, if_pos h]
      exact .skip hcall hhi
    · rw [if_neg h, if_neg h, Option.map_map]
      rw [show ((·.2) ∘ fun x : Decision => (rel, x)) = id from rfl, Option.map_id]
      exact .take hcall hhi _
  | call | callPlt | hi20 =>
    unfold scanRelocation siteAt
    simp only [hr]
    refine ⟨(List.append_nil _).symm, ?_, ?_, rfl⟩
    · simp [Relocation.callSite, Relocation.isCall, hr]
    · simp [Relocation.hi20Site, hr]
  | lo12I | lo12S | other raw =>
    unfold scanRelocation siteAt
    simp only [hr]
    exact .skip (by simp [Relocation.isCall, hr]) (by simp [hr])

theorem scanSites_cons (prev : Option Relocation) (deleted : Nat) (rel : Relocation) (rels : List Relocation) :
    scanSites sectionAddress bytes existing resolve prev deleted (rel :: rels) =
      (siteAt sectionAddress bytes existing resolve prev deleted rel).toList ++
        scanSites sectionAddress bytes existing resolve (some rel)
          (deleted + siteBytes (siteAt sectionAddress bytes existing resolve prev deleted rel)) rels := rfl

theorem foldl_scanRelocation (rels : List Relocation) (hk : st.Knows prev deleted) :
    (rels.foldl (scanRelocation sectionAddress bytes existing resolve) st).rawDeltas =
      st.rawDeltas ++ (scanSites sectionAddress bytes existing resolve prev deleted rels).map (·.2) := by
  induction rels generalizing st prev deleted with
  | nil => exact (List.append_nil _).symm
  | cons rel rels ih =>
    have hadv : Advances st (scanRelocation sectionAddress bytes existing resolve st rel) rel
        ((siteAt sectionAddress bytes existing resolve prev deleted rel).map (·.2)) :=
      scanRelocation_advances hk
    have hknows := hadv.knows
    rw [hk.deleted] at hknows
    show (rels.foldl _ (scanRelocation sectionAddress bytes existing resolve st rel)).rawDeltas = _
    rw [ih hknows, hadv.rawDeltas, List.append_assoc]
    rw [scanSites_cons, List.map_append]
    cases siteAt sectionAddress bytes existing resolve prev deleted rel <;> rfl

/-- **The scan is the walk.** -/
theorem collectRelaxationDeltas_eq (relocations : List Relocation) :
    (collectRelaxationDeltas sectionAddress bytes relocations existing resolve).1 =
      (scanSites sectionAddress bytes existing resolve none 0 relocations).map (·.2) :=
  foldl_scanRelocation relocations ⟨rfl, rfl, rfl⟩

/-! ## Owners -/

/-- A relocation that waits for an `R_RISCV_RELAX`. -/
def Relocation.waits (r : Relocation) : Bool := r.isCall || r.rType == .hi20

variable {info : RelaxSymbolInfo}

theorem callVerdict_decision {c s : Nat} {d : Decision} (h : (callVerdict sectionAddress c s info).decision = some d) :
    d = .toJal c s := by
  unfold callVerdict at h
  split at h
  · cases h
  · simp only at h
    split at h <;> cases h
    rfl

theorem hi20Verdict_decision {o s : Nat} {a : Int} {d : Decision}
    (h : (hi20Verdict bytes o s a info).decision = some d) : d = .deleteLui o s a ∨ d = .toClui o s a := by
  unfold hi20Verdict at h
  split at h
  · cases h
  · split at h
    · cases h
    · simp only at h
      split at h
      · cases h
        exact Or.inl rfl
      · split at h
        · split at h
          · cases h
            exact Or.inr rfl
          · split at h <;> cases h
        · cases h

/-- The trimmed bytes are the difference of what the assembler emitted and what is needed. -/
theorem alignVerdict_decision {p o a : Nat} :
    (alignVerdict p o a).decision = if p + a > nextMultipleOf p (nextPowerOfTwo a) then
      some (.trim o ((p + a - nextMultipleOf p (nextPowerOfTwo a)) % 2 ^ 32)) else none := by
  unfold alignVerdict
  simp only
  split <;> rfl

theorem nextPowerOfTwo_pos (n : Nat) : 0 < nextPowerOfTwo n := by
  unfold nextPowerOfTwo
  split
  · exact Nat.one_pos
  · exact Nat.two_pow_pos _

/-- The addends of the padding fit the 32 bits in which the trimmed bytes are kept. -/
def SmallPadding (relocations : List Relocation) : Prop :=
  ∀ r ∈ relocations, r.rType = .align → asU64 r.addend < 2 ^ 32

variable {site : Relocation × Decision}

/-- **A site and its decision.** The site owns what is deleted, and nothing was deleted there before. -/
theorem siteAt_owns (hsmall : rel.rType = .align → asU64 rel.addend < 2 ^ 32)
    (h : siteAt sectionAddress bytes existing resolve prev deleted rel = some site) :
    site.1.Owns site.2.raw ∧ site.1.Unrelaxed existing := by
  unfold siteAt at h
  split at h
  · -- padding
    rename_i hr
    obtain ⟨d, hd, rfl⟩ := Option.map_eq_some_iff.mp h
    unfold alignDecision at hd
    split at hd
    · cases hd
    · rename_i hno
      have hlt := hsmall hr
      rw [alignVerdict_decision] at hd
      split at hd
      · rename_i hgt
        cases hd
        have hle := le_nextMultipleOf (sectionAddress + (rel.offset - existing.deletedBefore rel.offset - deleted))
          (nextPowerOfTwo_pos (asU64 rel.addend))
        have hmod := Nat.mod_eq_of_lt (a := sectionAddress + (rel.offset - existing.deletedBefore rel.offset -
          deleted) + asU64 rel.addend - nextMultipleOf (sectionAddress + (rel.offset -
            existing.deletedBefore rel.offset - deleted)) (nextPowerOfTwo (asU64 rel.addend)))
          (b := 2 ^ 32) (by omega)
        unfold Relocation.Owns Relocation.Unrelaxed Decision.raw
        simp only [hr, hmod]
        refine ⟨⟨trivial, by omega, by omega⟩, ?_⟩
        simpa using fun hhas => hno (Or.inr hhas)
      · cases hd
  · -- a call or a `lui`
    rename_i p hr
    split at h
    · obtain ⟨d, hd, rfl⟩ := Option.map_eq_some_iff.mp h
      unfold relaxDecision at hd
      split at hd
      · cases hd
      · split at hd
        · rename_i hcall
          obtain ⟨info, -, hv⟩ := Option.bind_eq_some_iff.mp hd
          rw [callVerdict_decision hv]
          have ht : p.rType = .call ∨ p.rType = .callPlt := by
            have := hcall.1
            simpa [Relocation.isCall] using this
          unfold Relocation.Owns Relocation.Unrelaxed Decision.raw
          rcases ht with ht | ht <;> simp only [ht] <;> exact ⟨trivial, hcall.2⟩
        · split at hd
          · rename_i hhi
            obtain ⟨info, -, hv⟩ := Option.bind_eq_some_iff.mp hd
            unfold Relocation.Owns Relocation.Unrelaxed
            simp only [hhi.1]
            refine ⟨?_, hhi.2⟩
            rcases hi20Verdict_decision hv with rfl | rfl
            · exact Or.inl rfl
            · exact Or.inr rfl
          · cases hd
    · cases h
  · cases h

/-- The site is the relocation itself, or the waiting one before it. -/
theorem siteAt_site (h : siteAt sectionAddress bytes existing resolve prev deleted rel = some site) :
    (rel.rType = .align ∧ site.1 = rel) ∨ (rel.rType = .relax ∧ prev = some site.1 ∧ site.1.waits = true) := by
  unfold siteAt at h
  split at h
  · rename_i hr
    obtain ⟨d, -, rfl⟩ := Option.map_eq_some_iff.mp h
    exact Or.inl ⟨hr, rfl⟩
  · rename_i p hr
    split at h
    · obtain ⟨d, hd, rfl⟩ := Option.map_eq_some_iff.mp h
      refine Or.inr ⟨hr, rfl, ?_⟩
      unfold relaxDecision at hd
      unfold Relocation.waits
      split at hd
      · cases hd
      · split at hd
        · rename_i hcall
          rw [hcall.1]
          rfl
        · split at hd
          · rename_i hhi
            simp [hhi.1]
          · cases hd
    · cases h
  · cases h

/-- The sites come in the order of the relocations. -/
theorem sites_sublist (prev : Option Relocation) (deleted : Nat) (rels : List Relocation) :
    ((scanSites sectionAddress bytes existing resolve prev deleted rels).map (·.1)).Sublist
      ((prev.filter Relocation.waits).toList ++ rels) := by
  induction rels generalizing prev deleted with
  | nil => exact List.nil_sublist _
  | cons rel rels ih =>
    rw [scanSites_cons, List.map_append]
    cases hsite : siteAt sectionAddress bytes existing resolve prev deleted rel with
    | none =>
      -- the relocation itself may be the next site
      refine (ih (some rel) _).trans (List.Sublist.trans ?_ (List.sublist_append_right _ _))
      cases hw : rel.waits with
      | true => simp [Option.filter, hw]
      | false => simp [Option.filter, hw]
    | some site =>
      rcases siteAt_site hsite with ⟨hr, heq⟩ | ⟨hr, hprev, hwaits⟩
      · have hw : rel.waits = false := by simp [Relocation.waits, Relocation.isCall, hr]
        have hrest := ih (some rel) (deleted + siteBytes (some site))
        simp only [Option.filter, hw, Bool.false_eq_true, if_false, Option.toList_none, List.nil_append] at hrest
        refine List.Sublist.trans ?_ (List.sublist_append_right _ _)
        show (site.1 :: _).Sublist (rel :: rels)
        rw [heq]
        exact hrest.cons_cons rel
      · have hw : rel.waits = false := by simp [Relocation.waits, Relocation.isCall, hr]
        have hrest := ih (some rel) (deleted + siteBytes (some site))
        simp only [Option.filter, hw, Bool.false_eq_true, if_false, Option.toList_none, List.nil_append] at hrest
        rw [hprev]
        simp only [Option.filter, hwaits, if_true]
        exact (hrest.cons rel).cons_cons site.1

variable {rels : List Relocation}

theorem sites_owns (hsmall : SmallPadding rels)
    (h : site ∈ scanSites sectionAddress bytes existing resolve prev deleted rels) :
    site.1.Owns site.2.raw ∧ site.1.Unrelaxed existing := by
  induction rels generalizing prev deleted with
  | nil => cases h
  | cons rel rels ih =>
    rcases List.mem_append.mp h with h | h
    · exact siteAt_owns (hsmall rel List.mem_cons_self) (Option.mem_toList.mp h)
    · exact ih (fun r hr => hsmall r (List.mem_cons_of_mem _ hr)) h

theorem scanSites_append (prev : Option Relocation) (deleted : Nat) (xs ys : List Relocation) :
    scanSites sectionAddress bytes existing resolve prev deleted (xs ++ ys) =
      scanSites sectionAddress bytes existing resolve prev deleted xs ++
        scanSites sectionAddress bytes existing resolve (xs.getLast?.or prev)
          (deleted + ((scanSites sectionAddress bytes existing resolve prev deleted xs).map (·.2.raw.2)).sum) ys := by
  induction xs generalizing prev deleted with
  | nil => simp [scanSites]
  | cons x xs ih =>
    rw [List.cons_append, scanSites_cons, scanSites_cons, ih, List.append_assoc, List.map_append, List.sum_append]
    have hlast : (x :: xs).getLast?.or prev = xs.getLast?.or (some x) := by
      rw [List.getLast?_cons]
      cases xs.getLast? <;> rfl
    have hbytes : (((siteAt sectionAddress bytes existing resolve prev deleted x).toList).map (·.2.raw.2)).sum =
        siteBytes (siteAt sectionAddress bytes existing resolve prev deleted x) := by
      cases siteAt sectionAddress bytes existing resolve prev deleted x <;> simp [siteBytes]
    rw [hlast, hbytes, Nat.add_assoc]

/-! ## Deletions over several scans -/

variable {relocations : List Relocation} {r : Relocation}

theorem SitesApart.apart (h : SitesApart relocations) {s : Relocation} (hr : r ∈ relocations) (hs : s ∈ relocations)
    (hne : r ≠ s) (hrs : r.isSite = true) (hss : s.isSite = true) :
    r.offset + r.siteSize ≤ s.offset ∨ s.offset + s.siteSize ≤ r.offset := by
  have hsym : relocations.Pairwise (fun r s => r.isSite = true → s.isSite = true →
      r.offset + r.siteSize ≤ s.offset ∨ s.offset + s.siteSize ≤ r.offset) :=
    List.Pairwise.imp (fun h hr hs => Or.inl (h hr hs)) h
  have : Std.Symm (fun r s : Relocation => r.isSite = true → s.isSite = true →
      r.offset + r.siteSize ≤ s.offset ∨ s.offset + s.siteSize ≤ r.offset) :=
    ⟨fun _ _ h hs hr => (h hr hs).symm⟩
  exact hsym.forall hr hs hne hrs hss

/-- An `R_RISCV_RELAX` comes right after the relocation. -/
def FollowedByRelax (relocations : List Relocation) (r : Relocation) : Prop :=
  ∃ pre x post, relocations = pre ++ r :: x :: post ∧ x.rType = .relax

theorem site_followed (h : site ∈ scanSites sectionAddress bytes existing resolve prev deleted rels)
    (hw : site.1.waits = true) : FollowedByRelax (prev.toList ++ rels) site.1 := by
  induction rels generalizing prev deleted with
  | nil => cases h
  | cons rel rels ih =>
    rcases List.mem_append.mp h with h | h
    · rcases siteAt_site (Option.mem_toList.mp h) with ⟨hr, heq⟩ | ⟨hr, hprev, -⟩
      · rw [heq] at hw
        simp [Relocation.waits, Relocation.isCall, hr] at hw
      · exact ⟨[], rel, rels, by rw [hprev]; rfl, hr⟩
    · obtain ⟨pre, x, post, heq, hx⟩ := ih h
      refine ⟨prev.toList ++ pre, x, post, ?_, hx⟩
      rw [List.append_assoc, ← heq]
      rfl

/-- The deletions recorded for a section do not overlap, and each belongs to a site. -/
structure Tracked (relocations : List Relocation) (d : SectionRelaxDeltas) : Prop where
  wellFormed : d.WellFormed
  owned : ∀ e ∈ d.raw, ∃ r ∈ relocations, r.Owns e ∧
    (r.waits = true → FollowedByRelax relocations r)

/-- What a scan deletes. -/
def scanRaw (sectionAddress : Nat) (bytes : Bytes) (existing : SectionRelaxDeltas)
    (resolve : Nat → Option RelaxSymbolInfo) (relocations : List Relocation) : List (Nat × Nat) :=
  (collectRelaxationDeltas sectionAddress bytes relocations existing resolve).1.map Decision.raw

theorem scanRaw_eq (relocations : List Relocation) :
    scanRaw sectionAddress bytes existing resolve relocations =
      (scanSites sectionAddress bytes existing resolve none 0 relocations).map (·.2.raw) := by
  unfold scanRaw
  rw [collectRelaxationDeltas_eq, List.map_map]
  rfl

theorem site_mem (h : site ∈ scanSites sectionAddress bytes existing resolve none 0 relocations) :
    site.1 ∈ relocations :=
  (sites_sublist none 0 relocations).subset (List.mem_map_of_mem h)

/-- Sites in the order of the relocations delete in that order. -/
theorem separated_of_sites {sites : List (Relocation × Decision)} (hs : SitesApart relocations)
    (hsub : (sites.map (·.1)).Sublist relocations) (ho : ∀ site ∈ sites, site.1.Owns site.2.raw) :
    Deletions.Separated (sites.map (·.2.raw)) := by
  have hpair := List.pairwise_map.mp (List.Pairwise.sublist hsub hs)
  refine List.pairwise_map.mpr (hpair.imp_of_mem ?_)
  intro a b ha hb hab
  obtain ⟨hsa, hla, hpa, hea⟩ := (ho a ha).inside
  obtain ⟨hsb, hlb, hpb, heb⟩ := (ho b hb).inside
  have := hab hsa hsb
  omega

theorem Tracked.nil (relocations : List Relocation) : Tracked relocations [] :=
  ⟨.nil, fun _ h => absurd h List.not_mem_nil⟩

variable {d : SectionRelaxDeltas}

/-- **One scan.** -/
theorem Tracked.scan (ht : Tracked relocations d) (hs : SitesApart relocations) (hsmall : SmallPadding relocations) :
    Tracked relocations (d.mergeAdditional (scanRaw sectionAddress bytes d resolve relocations)) := by
  rw [scanRaw_eq]
  have howns : ∀ site ∈ scanSites sectionAddress bytes d resolve none 0 relocations,
      site.1.Owns site.2.raw ∧ site.1.Unrelaxed d := fun site h => sites_owns hsmall h
  constructor
  · refine ht.wellFormed.merge ?_ ?_ ?_
    · exact separated_of_sites hs (sites_sublist none 0 relocations) (fun site h => (howns site h).1)
    · intro e he
      obtain ⟨site, hsite, rfl⟩ := List.mem_map.mp he
      exact (howns site hsite).1.inside.2.2.1
    · intro e he f hf
      obtain ⟨site, hsite, rfl⟩ := List.mem_map.mp hf
      obtain ⟨r, hr, hre, -⟩ := ht.owned e he
      obtain ⟨hown, hfree⟩ := howns site hsite
      have hne : r ≠ site.1 := by
        rintro rfl
        exact hfree.not_owns he hre
      obtain ⟨hsr, hl, hp, hend⟩ := hre.inside
      obtain ⟨hsr', hl', hp', hend'⟩ := hown.inside
      rcases hs.apart hr (site_mem hsite) hne hsr hsr' with h | h
      · exact Or.inl (by omega)
      · exact Or.inr (by omega)
  · intro e he
    rcases List.mem_append.mp ((raw_mergeAdditional _ _).mem_iff.mp he) with he | he
    · exact ht.owned e he
    · obtain ⟨site, hsite, rfl⟩ := List.mem_map.mp he
      exact ⟨site.1, site_mem hsite, (howns site hsite).1, site_followed hsite⟩

/-- No recorded deletion reaches over the start of a site or lies between its start and another site's. -/
theorem Tracked.untouched (ht : Tracked relocations d) (hs : SitesApart relocations) (hr : r ∈ relocations)
    (hsite : r.isSite = true) {e : Nat × Nat} (he : e ∈ d.raw) :
    e.1 + e.2 ≤ r.offset ∨ r.Owns e ∨ r.offset + r.siteSize ≤ e.1 := by
  obtain ⟨o, ho, hown, -⟩ := ht.owned e he
  by_cases heq : o = r
  · exact Or.inr (Or.inl (heq ▸ hown))
  · obtain ⟨hos, hl, hp, hend⟩ := hown.inside
    rcases hs.apart ho hr heq hos hsite with h | h
    · exact Or.inl (by omega)
    · exact Or.inr (Or.inr (by omega))

/-- Padding is trimmed at its start, and no other deletion touches it. -/
theorem Tracked.trimmed_range (ht : Tracked relocations d) (hs : SitesApart relocations) (hr : r ∈ relocations)
    (hra : r.rType = .align) (ha : asU64 r.addend ≠ 0) :
    d.deltaBytesAt r.offset ≤ asU64 r.addend ∧
      Deletions.before d.raw (r.offset + d.deltaBytesAt r.offset) =
        Deletions.before d.raw r.offset + d.deltaBytesAt r.offset ∧
      Deletions.Untouched d.raw (r.offset + d.deltaBytesAt r.offset) (r.offset + asU64 r.addend) := by
  have hsite : r.isSite = true := by simp [Relocation.isSite, hra]
  have hsize : r.siteSize = asU64 r.addend := by simp [Relocation.siteSize, hra]
  have hown : ∀ e, r.Owns e → e.1 = r.offset ∧ e.2 ≤ asU64 r.addend := by
    intro e he
    simp only [Relocation.Owns, hra] at he
    exact ⟨he.1, he.2.2⟩
  have hcases := fun e (he : e ∈ d.raw) => ht.untouched hs hr hsite he
  rw [hsize] at hcases
  by_cases hhas : d.hasDeltaAt r.offset = true
  · obtain ⟨b, hb⟩ := hasDeltaAt_iff.mp hhas
    have hpos := ht.wellFormed.positive _ hb
    rw [ht.wellFormed.deltaBytesAt_of_mem hb]
    refine ⟨?_, Deletions.before_behind ht.wellFormed.separated ht.wellFormed.positive hb, ?_⟩
    · rcases hcases _ hb with h | h | h
      · simp only at h hpos
        omega
      · exact (hown _ h).2
      · simp only at h
        omega
    · intro e he
      rcases hcases e he with h | h | h
      · exact Or.inl (by omega)
      · have heq := (hown e h).1
        have hbe : e.2 = b := ht.wellFormed.unique (show (r.offset, e.2) ∈ d.raw by rw [← heq]; exact he) hb
        exact Or.inl (by omega)
      · exact Or.inr h
  · have hno : d.hasDeltaAt r.offset = false := by simpa using hhas
    rw [deltaBytesAt_of_not_mem hno]
    refine ⟨Nat.zero_le _, rfl, fun e he => ?_⟩
    rcases hcases e he with h | h | h
    · exact Or.inl h
    · rw [hasDeltaAt_iff.mpr ⟨e.2, by rw [← (hown e h).1]; exact he⟩] at hno
      cases hno
    · exact Or.inr h

end Walk

end Reld
