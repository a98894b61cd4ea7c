import Reld.Relax.Passes
import Reld.Relax.Sites
import Reld.Relax.Apply

/-!
# `Relax.Alignment` — the code after trimmed padding

In front of code that wants an alignment of `A` the assembler emits `a = A - m` bytes of padding, with `m` the
size of the smallest instruction, and an `R_RISCV_ALIGN` with addend `a`. After relaxation the code should be
at a multiple of `A` (`AlignedAfter`).

The scan reconstructs `A` as the next power of two of `a`. For `A = 2 * m` that is `m`: the padding is always
removed (`trimmed_padding_misaligned`). Padding that has been trimmed is not looked at again when a later pass
deletes bytes in front of it, and a `c.lui` among four-byte instructions leaves a distance that padding cannot make
up. Where none of this happens (`Trimmable`, `Undisturbed`) the code is aligned.

The invariant of the run is about offsets only: the bytes deleted in front of each padding are a multiple of `m`
(`Even`), and the output offset behind the padding is a multiple of `A`.
-/

variable {st : RelaxState}

namespace Reld

open SectionRelaxDeltas RelaxLink

/-! ## The input and the property -/

/-- The alignment that the assembler was asked for. -/
def Relocation.requested (r : Relocation) (m : Nat) : Nat := asU64 r.addend + m

/-- A section with padding for instructions of at least `m` bytes. -/
structure RelaxSection.PaddedFor (s : RelaxSection) (m : Nat) : Prop where
  size : m = 2 ∨ m = 4
  apart : SitesApart s.relocations
  inside : ∀ r ∈ s.relocations, r.isSite = true → r.offset + r.siteSize ≤ s.bytes.length
  offset_dvd : ∀ r ∈ s.relocations, r.rType = .align → m ∣ r.offset
  power : ∀ r ∈ s.relocations, r.rType = .align → ∃ k, r.requested m = 2 ^ k

/-- The output offset behind the padding is a multiple of the requested alignment. -/
def AlignedAfter (m : Nat) (d : SectionRelaxDeltas) (r : Relocation) : Prop :=
  r.requested m ∣ d.inputToOutputOffset r.offset + keptPadding d r

/-- The requested alignment can be told from the addend, and the trimmed bytes from their lower 32 bits. -/
def RelaxSection.Trimmable (s : RelaxSection) (m : Nat) : Prop :=
  ∀ r ∈ s.relocations, r.rType = .align →
    (asU64 r.addend = 0 ∨ m < asU64 r.addend) ∧ asU64 r.addend < 2 ^ 32

/-- A pass shortens no `lui` in front of padding unless there are two-byte instructions, and does not move the
    code behind padding that has been trimmed. -/
structure Undisturbed (link : RelaxLink) (i : Nat) (s : RelaxSection) (m : Nat) (st : RelaxState)
    (rescan : Option (List Nat)) (_address : Nat → Nat) : Prop where
  shortened : ∀ r ∈ s.relocations, r.rType = .align → ∀ h symbol a,
    .toClui h symbol a ∈ link.taken st rescan i → h < r.offset → m = 2
  trimmed : ∀ r ∈ s.relocations, r.rType = .align → (st.deltas i).hasDeltaAt r.offset = true →
    r.requested m ∣ Deletions.before ((link.taken st rescan i).map Decision.raw) r.offset

/-! ## Powers of two -/

theorem nextPowerOfTwo_eq {a m k : Nat} (h : a + m = 2 ^ k) (hm : 0 < m) (ha : m < a) :
    nextPowerOfTwo a = 2 ^ k := by
  obtain ⟨k, rfl⟩ : ∃ j, k = j + 1 := by
    cases k with
    | zero => omega
    | succ j => exact ⟨j, rfl⟩
  have hlog : Nat.log2 (a - 1) = k :=
    (Nat.log2_eq_iff (by omega)).mpr ⟨by omega, by omega⟩
  unfold nextPowerOfTwo
  rw [if_neg (by omega), hlog]

/-- A smaller power of two divides a larger one. -/
theorem size_dvd {m n : Nat} (hm : m = 2 ∨ m = 4) {k : Nat} (hn : n = 2 ^ k) (hle : m ≤ n) : m ∣ n := by
  obtain ⟨j, rfl⟩ : ∃ j, m = 2 ^ j := by
    rcases hm with rfl | rfl
    · exact ⟨1, rfl⟩
    · exact ⟨2, rfl⟩
  rw [hn] at hle ⊢
  exact Nat.pow_dvd_pow 2 ((Nat.pow_le_pow_iff_right (by decide)).mp hle)

/-- **Trimming.** Padding that starts at a multiple of `m` is trimmed so that it ends at a multiple of `A`. -/
theorem trim_aligned {p a m k : Nat} (hm : m = 2 ∨ m = 4) (hA : a + m = 2 ^ k) (ha : m < a) (hp : m ∣ p) :
    nextMultipleOf p (nextPowerOfTwo a) ≤ p + a ∧ 2 ^ k ∣ nextMultipleOf p (nextPowerOfTwo a) := by
  have hm0 : 0 < m := by omega
  rw [nextPowerOfTwo_eq hA hm0 ha]
  refine ⟨?_, dvd_nextMultipleOf p _⟩
  -- the distance to the next multiple is a multiple of `m` below `A`
  have hlt := nextMultipleOf_lt p (Nat.two_pow_pos k)
  have hmA : m ∣ 2 ^ k := size_dvd hm rfl (by omega)
  have hmd : m ∣ nextMultipleOf p (2 ^ k) - p := Nat.dvd_sub (Dvd.dvd.trans hmA (dvd_nextMultipleOf p _)) hp
  have hma : m ∣ a := (Nat.dvd_add_left (Nat.dvd_refl m)).mp (hA ▸ hmA)
  obtain ⟨x, hx⟩ := hmd
  obtain ⟨y, hy⟩ := hma
  have hxy : m * x < m * (y + 1) := by
    rw [Nat.mul_add, Nat.mul_one]
    omega
  have := Nat.lt_of_mul_lt_mul_left hxy
  have := Nat.mul_le_mul_left m (show x ≤ y by omega)
  omega

/-! ## One scan -/

section Scan

variable {sectionAddress : Nat} {bytes : Bytes} {d : SectionRelaxDeltas} {resolve : Nat → Option RelaxSymbolInfo}
  {pre post : List Relocation} {m : Nat} {deleted : Nat} {x : Decision} {raw : List (Nat × Nat)}

/-- The deletions of a scan around the padding `r`: those in front of it, its own, and those behind it. -/
theorem scanRaw_split {r : Relocation} (hs : SitesApart (pre ++ r :: post)) (hsmall : SmallPadding (pre ++ r :: post))
    (hr : r.rType = .align) :
    ∃ front back : List (Relocation × Decision), scanRaw sectionAddress bytes d resolve (pre ++ r :: post) =
        front.map (·.2.raw) ++ ((alignDecision sectionAddress d ((front.map (·.2.raw.2)).sum) r).map
          Decision.raw).toList ++ back.map (·.2.raw) ∧
      front = scanSites sectionAddress bytes d resolve none 0 pre ∧
      (∀ site ∈ front, site.2.raw.1 < r.offset) ∧
      (∀ site ∈ back, r.offset + asU64 r.addend ≤ site.2.raw.1) := by
  have hsite : r.isSite = true := by simp [Relocation.isSite, hr]
  have hsize : r.siteSize = asU64 r.addend := by simp [Relocation.siteSize, hr]
  have hw : r.waits = false := by simp [Relocation.waits, Relocation.isCall, hr]
  obtain ⟨hpre, hpost, hcross⟩ := List.pairwise_append.mp hs
  obtain ⟨hrpost, -⟩ := List.pairwise_cons.mp hpost
  refine ⟨scanSites sectionAddress bytes d resolve none 0 pre, scanSites sectionAddress bytes d resolve (some r)
    (0 + ((scanSites sectionAddress bytes d resolve none 0 pre).map (·.2.raw.2)).sum + siteBytes (siteAt
      sectionAddress bytes d resolve (pre.getLast?.or none)
        (0 + ((scanSites sectionAddress bytes d resolve none 0 pre).map (·.2.raw.2)).sum) r)) post,
    ?_, rfl, ?_, ?_⟩
  · rw [scanRaw_eq, scanSites_append, scanSites_cons, List.map_append, List.map_append, ← List.append_assoc]
    unfold siteAt
    simp only [hr, Nat.zero_add]
    cases alignDecision sectionAddress d
      ((scanSites sectionAddress bytes d resolve none 0 pre).map (·.2.raw.2)).sum r <;> rfl
  · -- what is in front ends where the padding starts
    intro site hmem
    have howns := (sites_owns (fun r' hr' => hsmall r' (List.mem_append_left _ hr')) hmem).1.inside
    have hin : site.1 ∈ pre := (sites_sublist none 0 pre).subset (List.mem_map_of_mem hmem)
    have := hcross site.1 hin r List.mem_cons_self howns.1 hsite
    omega
  · intro site hmem
    have howns := (sites_owns (fun r' hr' => hsmall r' (List.mem_append_right _ (List.mem_cons_of_mem _ hr')))
      hmem).1.inside
    have hin : site.1 ∈ post := by
      have := (sites_sublist (some r) _ post).subset (List.mem_map_of_mem hmem)
      simpa [Option.filter, hw] using this
    have := hrpost site.1 hin hsite howns.1
    omega

/-- What is decided for padding: nothing, or the bytes by which it is too long. -/
theorem alignDecision_eq {r : Relocation} (hfree : d.hasDeltaAt r.offset = false) (ha : asU64 r.addend ≠ 0) :
    alignDecision sectionAddress d deleted r =
      (alignVerdict (sectionAddress + (r.offset - d.deletedBefore r.offset - deleted)) r.offset
        (asU64 r.addend)).decision := by
  unfold alignDecision
  rw [if_neg]
  rintro (h | h)
  · exact ha h
  · rw [hfree] at h
    cases h

theorem alignDecision_some {r : Relocation} (h : alignDecision sectionAddress d deleted r = some x) :
    asU64 r.addend ≠ 0 ∧ d.hasDeltaAt r.offset = false ∧ ∃ b, x = .trim r.offset b := by
  unfold alignDecision at h
  split at h
  · cases h
  · rename_i hno
    rw [alignVerdict_decision] at h
    split at h
    · cases h
      exact ⟨fun h => hno (Or.inl h), by simpa using fun h => hno (Or.inr h), _, rfl⟩
    · cases h

theorem before_sites {sites : List (Relocation × Decision)} {o : Nat} (h : ∀ site ∈ sites, site.2.raw.1 < o) :
    Deletions.before (sites.map (·.2.raw)) o = (sites.map (·.2.raw.2)).sum := by
  rw [Deletions.before_eq_sum, List.map_map]
  · rfl
  · intro e he
    obtain ⟨site, hsite, rfl⟩ := List.mem_map.mp he
    exact h site hsite

/-- The deletions of a scan in front of padding. -/
theorem before_scanRaw {r : Relocation} (hs : SitesApart (pre ++ r :: post)) (hsmall : SmallPadding (pre ++ r :: post))
    (hr : r.rType = .align) : Deletions.before (scanRaw sectionAddress bytes d resolve (pre ++ r :: post)) r.offset =
      ((scanSites sectionAddress bytes d resolve none 0 pre).map (·.2.raw.2)).sum := by
  obtain ⟨front, back, heq, rfl, hfront, hback⟩ :=
    scanRaw_split hs hsmall hr
  rw [heq, Deletions.before_append, Deletions.before_append]
  have h1 := before_sites hfront
  have h2 : Deletions.before ((alignDecision sectionAddress d
      ((scanSites sectionAddress bytes d resolve none 0 pre).map (·.2.raw.2)).sum r).map
        Decision.raw).toList r.offset = 0 := by
    refine Deletions.before_eq_zero fun e he => ?_
    obtain ⟨x, hx, rfl⟩ := Option.map_eq_some_iff.mp (Option.mem_toList.mp he)
    obtain ⟨-, -, b, rfl⟩ := alignDecision_some hx
    exact Nat.le_refl _
  have h3 : Deletions.before (back.map (·.2.raw)) r.offset = 0 := by
    refine Deletions.before_eq_zero fun e he => ?_
    obtain ⟨site, hsite, rfl⟩ := List.mem_map.mp he
    have := hback site hsite
    omega
  rw [h1, h2, h3]
  rfl

/-! ## Multiples of the instruction size -/

/-- The padding is at least one instruction long, and so is the alignment that the scan takes it for. -/
theorem size_dvd_nextPowerOfTwo {a m k : Nat} (hm : m = 2 ∨ m = 4) (hA : a + m = 2 ^ k) (ha : a ≠ 0) :
    m ∣ a ∧ m ∣ nextPowerOfTwo a := by
  have hmA : m ∣ 2 ^ k := size_dvd hm rfl (by omega)
  have hma : m ∣ a := (Nat.dvd_add_left (Nat.dvd_refl m)).mp (hA ▸ hmA)
  have hle : m ≤ a := Nat.le_of_dvd (by omega) hma
  refine ⟨hma, ?_⟩
  have hle' : m ≤ nextPowerOfTwo a := Nat.le_trans hle (le_nextPowerOfTwo a)
  unfold nextPowerOfTwo at hle' ⊢
  rw [if_neg (by omega)] at hle' ⊢
  exact size_dvd hm rfl hle'

theorem relaxDecision_some {p : Relocation} (h : relaxDecision sectionAddress bytes d resolve p = some x) :
    x.raw.2 = 4 ∨ ∃ symbol a, x = .toClui p.offset symbol a := by
  unfold relaxDecision at h
  split at h
  · cases h
  · split at h
    · obtain ⟨info, -, hv⟩ := Option.bind_eq_some_iff.mp h
      rw [callVerdict_decision hv]
      exact Or.inl rfl
    · split at h
      · obtain ⟨info, -, hv⟩ := Option.bind_eq_some_iff.mp h
        rcases hi20Verdict_decision hv with rfl | rfl
        · exact Or.inl rfl
        · exact Or.inr ⟨_, _, rfl⟩
      · cases h

/-- What the scan takes away from padding is a multiple of `m` if it was so in front of it. -/
theorem alignDecision_dvd {m deleted : Nat} {r : Relocation} (hm : m = 2 ∨ m = 4) (hS : m ∣ sectionAddress)
    (ho : m ∣ r.offset) (hd : m ∣ d.deletedBefore r.offset) (hdel : m ∣ deleted)
    (hpow : asU64 r.addend ≠ 0 → m ∣ asU64 r.addend ∧ m ∣ nextPowerOfTwo (asU64 r.addend))
    (h : alignDecision sectionAddress d deleted r = some x) : m ∣ x.raw.2 := by
  obtain ⟨ha, hfree, -⟩ := alignDecision_some h
  obtain ⟨hma, hmp⟩ := hpow ha
  rw [alignDecision_eq hfree ha, alignVerdict_decision] at h
  split at h
  · cases h
    have hp : m ∣ sectionAddress + (r.offset - d.deletedBefore r.offset - deleted) :=
      Nat.dvd_add hS (Nat.dvd_sub (Nat.dvd_sub ho hd) hdel)
    have h32 : m ∣ 2 ^ 32 := size_dvd hm rfl (by omega)
    exact (Nat.dvd_mod_iff h32).mpr (Nat.dvd_sub (Nat.dvd_add hp hma)
      (Dvd.dvd.trans hmp (dvd_nextMultipleOf _ _)))
  · cases h

theorem sites_dvd {prev : Option Relocation} {rels : List Relocation} (hm : m = 2 ∨ m = 4) (hS : m ∣ sectionAddress)
    (halign : ∀ r ∈ rels, r.rType = .align → m ∣ r.offset ∧ m ∣ d.deletedBefore r.offset ∧
      (asU64 r.addend ≠ 0 → m ∣ asU64 r.addend ∧ m ∣ nextPowerOfTwo (asU64 r.addend)))
    (hdel : m ∣ deleted)
    (hclui : ∀ site ∈ scanSites sectionAddress bytes d resolve prev deleted rels, ∀ h s a,
      site.2 = .toClui h s a → m = 2)
    : ∀ site ∈ scanSites sectionAddress bytes d resolve prev deleted rels, m ∣ site.2.raw.2 := by
  induction rels generalizing prev deleted with
  | nil => exact fun site h => absurd h List.not_mem_nil
  | cons rel rels ih =>
    intro site hmem
    have hfirst : ∀ site, siteAt sectionAddress bytes d resolve prev deleted rel = some site →
        m ∣ site.2.raw.2 := by
      intro site hsite
      have hcl := hclui site (List.mem_append_left _ (Option.mem_toList.mpr hsite))
      unfold siteAt at hsite
      split at hsite
      · rename_i hr
        obtain ⟨x, hx, rfl⟩ := Option.map_eq_some_iff.mp hsite
        obtain ⟨ho, hd, hpow⟩ := halign rel List.mem_cons_self hr
        exact alignDecision_dvd hm hS ho hd hdel hpow hx
      · split at hsite
        · obtain ⟨x, hx, rfl⟩ := Option.map_eq_some_iff.mp hsite
          rcases relaxDecision_some hx with h4 | ⟨s, a, rfl⟩
          · show m ∣ x.raw.2
            rw [h4]
            rcases hm with rfl | rfl <;> decide
          · rw [hcl _ _ _ rfl]
            exact Nat.dvd_refl 2
        · cases hsite
      · cases hsite
    rcases List.mem_append.mp hmem with hmem | hmem
    · exact hfirst site (Option.mem_toList.mp hmem)
    · refine ih (fun r hr => halign r (List.mem_cons_of_mem _ hr)) ?_
        (fun site hs => hclui site (List.mem_append_right _ hs)) site hmem
      refine Nat.dvd_add hdel ?_
      cases hsite : siteAt sectionAddress bytes d resolve prev deleted rel with
      | none => exact Nat.dvd_zero m
      | some site => exact hfirst site hsite

/-! ## The offsets after a scan -/

/-- The invariant of a section: deletions belong to sites, and what is deleted in front of padding is a
    multiple of the instruction size. -/
structure Even (s : RelaxSection) (m : Nat) (d : SectionRelaxDeltas) : Prop where
  tracked : Tracked s.relocations d
  before : ∀ r ∈ s.relocations, r.rType = .align → m ∣ Deletions.before d.raw r.offset

theorem RelaxSection.Trimmable.small {s : RelaxSection} (h : s.Trimmable m) :
    SmallPadding s.relocations := fun r hr ht => (h r hr ht).2

/-- The offset of padding lies in no deletion. -/
theorem Even.room {s : RelaxSection} (he : Even s m d) (hp : s.PaddedFor m) {r : Relocation} (hr : r ∈ s.relocations)
    (ht : r.rType = .align) : Deletions.before d.raw r.offset ≤ r.offset := by
  have hsite : r.isSite = true := by simp [Relocation.isSite, ht]
  have h := Deletions.before_le he.tracked.wellFormed.separated (fun e _ => Nat.zero_le e.1)
    (Nat.zero_le r.offset) (fun e hmem => by
      rcases he.tracked.untouched hp.apart hr hsite hmem with h | h | h
      · exact Or.inl h
      · exact Or.inr h.inside.2.1
      · exact Or.inr (by omega))
  rwa [Nat.zero_add] at h

/-- A scan, seen from padding `r`: what it deletes in front, a multiple of the instruction size. -/
theorem front_dvd {s : RelaxSection} {r : Relocation} (he : Even s m d) (hp : s.PaddedFor m) (htr : s.Trimmable m)
    (hS : m ∣ sectionAddress) (hsplit : s.relocations = pre ++ r :: post) (ht : r.rType = .align)
    (hclui : ∀ site ∈ scanSites sectionAddress bytes d resolve none 0 s.relocations, ∀ h y a,
      site.2 = .toClui h y a → h < r.offset → m = 2)
    : m ∣ ((scanSites sectionAddress bytes d resolve none 0 pre).map (·.2.raw.2)).sum := by
  have hs := hp.apart
  have hsmall := htr.small
  rw [hsplit] at hs hsmall
  have hin : ∀ site ∈ scanSites sectionAddress bytes d resolve none 0 pre,
      site ∈ scanSites sectionAddress bytes d resolve none 0 s.relocations := by
    intro site hmem
    rw [hsplit, scanSites_append]
    exact List.mem_append_left _ hmem
  obtain ⟨front, back, -, rfl, hfront, -⟩ := @scanRaw_split sectionAddress bytes d resolve _ _ _ hs hsmall ht
  have hdvd : ∀ site ∈ scanSites sectionAddress bytes d resolve none 0 pre, m ∣ site.2.raw.2 := by
    refine sites_dvd hp.size hS ?_ (Nat.dvd_zero m) ?_
    · intro r' hr' ht'
      have hmem : r' ∈ s.relocations := by
        rw [hsplit]
        exact List.mem_append_left _ hr'
      obtain ⟨k, hk⟩ := hp.power r' hmem ht'
      refine ⟨hp.offset_dvd r' hmem ht', ?_, size_dvd_nextPowerOfTwo hp.size hk⟩
      rw [he.tracked.wellFormed.deletedBefore_eq]
      exact he.before r' hmem ht'
    · intro site hmem h y a heq
      have hlt := hfront site hmem
      rw [heq] at hlt
      have hlt : h + 2 < r.offset := hlt
      exact hclui site (hin site hmem) h y a heq (by omega)
  rw [← before_sites hfront]
  refine Deletions.dvd_before fun e hmem _ => ?_
  obtain ⟨site, hsite, rfl⟩ := List.mem_map.mp hmem
  exact hdvd site hsite

/-- Where padding is after a scan that deletes `front` bytes before it. -/
theorem place_scan {s : RelaxSection} {r : Relocation} {front : Nat} (he : Even s m (d.mergeAdditional raw))
    (hd : d.WellFormed) (hp : s.PaddedFor m) (hr : r ∈ s.relocations) (ht : r.rType = .align)
    (hfront : Deletions.before raw r.offset = front) :
    (d.mergeAdditional raw).inputToOutputOffset r.offset + (d.deletedBefore r.offset + front) = r.offset := by
  have hroom := he.room hp hr ht
  have hsum : Deletions.before (d.mergeAdditional raw).raw r.offset = d.deletedBefore r.offset + front := by
    rw [Deletions.before_perm (raw_mergeAdditional d raw), Deletions.before_append, hd.deletedBefore_eq, hfront]
  rw [he.tracked.wellFormed.inputToOutputOffset_eq]
  unfold Deletions.place
  omega

/-- **Padding that is scanned for the first time** is trimmed to its alignment. -/
theorem aligned_of_scan {s : RelaxSection} {r : Relocation} (he : Even s m d) (hp : s.PaddedFor m) (htr : s.Trimmable m)
    (he' : Even s m (d.mergeAdditional (scanRaw sectionAddress bytes d resolve s.relocations)))
    (hsplit : s.relocations = pre ++ r :: post) (ht : r.rType = .align) (hA : r.requested m ∣ sectionAddress)
    (hfree : d.hasDeltaAt r.offset = false)
    (hfront : m ∣ ((scanSites sectionAddress bytes d resolve none 0 pre).map (·.2.raw.2)).sum) :
    AlignedAfter m (d.mergeAdditional (scanRaw sectionAddress bytes d resolve s.relocations)) r := by
  have hr : r ∈ s.relocations := by
    rw [hsplit]
    exact List.mem_append_cons_self
  have hs := hp.apart
  have hsmall := htr.small
  rw [hsplit] at hs hsmall
  have hraw : Deletions.before (scanRaw sectionAddress bytes d resolve s.relocations) r.offset =
      ((scanSites sectionAddress bytes d resolve none 0 pre).map (·.2.raw.2)).sum := by
    rw [hsplit]
    exact before_scanRaw hs hsmall ht
  have hplace := place_scan he' he.tracked.wellFormed hp hr ht hraw
  obtain ⟨k, hk⟩ := hp.power r hr ht
  obtain ⟨hnot, hlt⟩ := htr r hr ht
  obtain ⟨front, back, heq, rfl, hfr, hback⟩ := @scanRaw_split sectionAddress bytes d resolve _ _ _ hs hsmall ht
  rw [← hsplit] at heq
  have hbefore : m ∣ d.deletedBefore r.offset := by
    rw [he.tracked.wellFormed.deletedBefore_eq]
    exact he.before r hr ht
  have hmem : ∀ e, e ∈ (d.mergeAdditional (scanRaw sectionAddress bytes d resolve s.relocations)).raw ↔
      e ∈ d.raw ++ scanRaw sectionAddress bytes d resolve s.relocations :=
    fun e => (raw_mergeAdditional d _).mem_iff
  generalize hcum : ((scanSites sectionAddress bytes d resolve none 0 pre).map (·.2.raw.2)).sum = cum at *
  generalize hmerged : d.mergeAdditional (scanRaw sectionAddress bytes d resolve s.relocations) = d' at *
  have hout : m ∣ d'.inputToOutputOffset r.offset :=
    (Nat.dvd_add_left (Nat.dvd_add hbefore hfront)).mp (by
      rw [hplace]
      exact hp.offset_dvd r hr ht)
  unfold AlignedAfter
  rcases hnot with h0 | hma
  · -- no padding: the code only wants to be at an instruction boundary
    have hkept : keptPadding d' r = 0 := by
      unfold keptPadding
      omega
    have hreq : r.requested m = m := by
      unfold Relocation.requested
      omega
    rw [hkept, hreq]
    exact hout
  · have ha : asU64 r.addend ≠ 0 := by omega
    have hS : m ∣ sectionAddress := Dvd.dvd.trans (size_dvd hp.size hk (by unfold Relocation.requested; omega)) hA
    have hp' : sectionAddress + (r.offset - d.deletedBefore r.offset - cum) =
        sectionAddress + d'.inputToOutputOffset r.offset := by omega
    have hdec := @alignDecision_eq sectionAddress d cum r hfree ha
    rw [hp', alignVerdict_decision] at hdec
    obtain ⟨hle, hdvd⟩ := trim_aligned hp.size hk hma (Nat.dvd_add hS hout)
    have hge := le_nextMultipleOf (sectionAddress + d'.inputToOutputOffset r.offset)
      (nextPowerOfTwo_pos (asU64 r.addend))
    generalize hdes : nextMultipleOf (sectionAddress + d'.inputToOutputOffset r.offset)
      (nextPowerOfTwo (asU64 r.addend)) = desired at *
    -- what is kept fills the space up to the next multiple
    have hkept : keptPadding d' r = desired - (sectionAddress + d'.inputToOutputOffset r.offset) := by
      unfold keptPadding
      by_cases hgt : sectionAddress + d'.inputToOutputOffset r.offset + asU64 r.addend > desired
      · rw [if_pos hgt] at hdec
        have hin : (r.offset, (sectionAddress + d'.inputToOutputOffset r.offset + asU64 r.addend - desired) %
            2 ^ 32) ∈ d'.raw := by
          rw [hmem, heq, hdec]
          exact List.mem_append_right _ (List.mem_append_left _ List.mem_append_cons_self)
        rw [he'.tracked.wellFormed.deltaBytesAt_of_mem hin, Nat.mod_eq_of_lt (by omega)]
        omega
      · rw [if_neg hgt] at hdec
        have hno : d'.hasDeltaAt r.offset = false := by
          rw [Bool.eq_false_iff]
          intro hhas
          obtain ⟨b, hb⟩ := hasDeltaAt_iff.mp hhas
          rw [hmem, heq, hdec] at hb
          rcases List.mem_append.mp hb with hb | hb
          · rw [hasDeltaAt_iff.mpr ⟨b, hb⟩] at hfree
            cases hfree
          · rcases List.mem_append.mp hb with hb | hb
            · rcases List.mem_append.mp hb with hb | hb
              · obtain ⟨site, hsite, hraw⟩ := List.mem_map.mp hb
                have := hfr site hsite
                rw [hraw] at this
                exact Nat.lt_irrefl _ this
              · cases hb
            · obtain ⟨site, hsite, hraw⟩ := List.mem_map.mp hb
              have := hback site hsite
              rw [hraw] at this
              omega
        rw [deltaBytesAt_of_not_mem hno]
        omega
    have hreq : r.requested m = 2 ^ k := hk
    rw [hreq] at hA ⊢
    have hsum : sectionAddress + (d'.inputToOutputOffset r.offset + keptPadding d' r) = desired := by omega
    exact (Nat.dvd_add_right hA).mp (hsum ▸ hdvd)

/-- **Padding that has been trimmed** stays aligned if a multiple of the alignment is deleted before it. -/
theorem aligned_of_trimmed {s : RelaxSection} {r : Relocation} (he : Even s m d) (hp : s.PaddedFor m)
    (he' : Even s m (d.mergeAdditional raw)) (hr : r ∈ s.relocations) (ht : r.rType = .align)
    (hhas : d.hasDeltaAt r.offset = true) (hdvd : r.requested m ∣ Deletions.before raw r.offset)
    (hal : AlignedAfter m d r) : AlignedAfter m (d.mergeAdditional raw) r := by
  have hplace' := place_scan he' he.tracked.wellFormed hp hr ht rfl
  have hplace : d.inputToOutputOffset r.offset + d.deletedBefore r.offset = r.offset := by
    have hroom := he.room hp hr ht
    rw [he.tracked.wellFormed.inputToOutputOffset_eq, he.tracked.wellFormed.deletedBefore_eq]
    unfold Deletions.place
    omega
  obtain ⟨b, hb⟩ := hasDeltaAt_iff.mp hhas
  have hb' : (r.offset, b) ∈ (d.mergeAdditional raw).raw :=
    (raw_mergeAdditional d raw).mem_iff.mpr (List.mem_append_left _ hb)
  have hkept : keptPadding (d.mergeAdditional raw) r = keptPadding d r := by
    unfold keptPadding
    rw [he'.tracked.wellFormed.deltaBytesAt_of_mem hb', he.tracked.wellFormed.deltaBytesAt_of_mem hb]
  unfold AlignedAfter at hal ⊢
  rw [hkept]
  have hsum : (d.mergeAdditional raw).inputToOutputOffset r.offset + keptPadding d r +
      Deletions.before raw r.offset = d.inputToOutputOffset r.offset + keptPadding d r := by omega
  exact (Nat.dvd_add_left hdvd).mp (hsum ▸ hal)

end Scan

/-! ## One pass -/

section Pass

variable {link : RelaxLink} {i : Nat} {s : RelaxSection} {m : Nat} {address : Nat → Nat} {rescan : Option (List Nat)}

/-- The section is at multiples of the requested alignments, and not at address 0. -/
def PlacedAt (s : RelaxSection) (m i : Nat) (address : Nat → Nat) : Prop :=
  address i ≠ 0 ∧ ∀ r ∈ s.relocations, r.rType = .align → r.requested m ∣ address i

/-- The instruction size divides the address of a section with padding. -/
theorem PlacedAt.size_dvd (hp : s.PaddedFor m) (h : PlacedAt s m i address) {r : Relocation} (hr : r ∈ s.relocations)
    (ht : r.rType = .align) : m ∣ address i := by
  obtain ⟨k, hk⟩ := hp.power r hr ht
  exact Dvd.dvd.trans (Reld.size_dvd hp.size hk (by unfold Relocation.requested; omega)) (h.2 r hr ht)

theorem Undisturbed.front (hc : Undisturbed link i s m st rescan address) {r : Relocation} (hr : r ∈ s.relocations)
    (ht : r.rType = .align)
    (htaken : link.taken st rescan i =
      (collectRelaxationDeltas (st.address i) s.bytes s.relocations (st.deltas i) (link.resolve st i)).1)
    : ∀ site ∈ scanSites (st.address i) s.bytes (st.deltas i) (link.resolve st i) none 0 s.relocations,
      ∀ h y a, site.2 = .toClui h y a → h < r.offset → m = 2 := by
  intro site hsite h y a heq hlt
  refine hc.shortened r hr ht h y a ?_ hlt
  rw [htaken, collectRelaxationDeltas_eq, ← heq]
  exact List.mem_map_of_mem hsite

/-- **One pass, the deletions.** -/
theorem Even.pass (hs : link.sections[i]? = some s) (hp : s.PaddedFor m) (htr : s.Trimmable m)
    (hpl : PlacedAt s m i st.address) (hc : Undisturbed link i s m st rescan address) (he : Even s m (st.deltas i)) :
    Even s m ((link.afterPass st rescan address).deltas i) := by
  show Even s m ((st.deltas i).mergeAdditional ((link.taken st rescan i).map Decision.raw))
  rcases taken_cases hs st rescan with ⟨-, htaken⟩ | htaken
  · rw [htaken]
    exact he
  · rw [htaken]
    refine ⟨he.tracked.scan hp.apart htr.small, fun r hr ht => ?_⟩
    obtain ⟨pre, post, hsplit⟩ := List.append_of_mem hr
    have hfront := front_dvd he hp htr (hpl.size_dvd hp hr ht) hsplit ht (hc.front hr ht htaken)
    have hs' := hp.apart
    have hsmall := htr.small
    rw [hsplit] at hs' hsmall
    have hraw := @before_scanRaw (st.address i) s.bytes (st.deltas i) (link.resolve st i) _ _ _ hs' hsmall ht
    rw [← hsplit] at hraw
    rw [Deletions.before_perm (raw_mergeAdditional _ _), Deletions.before_append]
    refine Nat.dvd_add (he.before r hr ht) ?_
    show m ∣ Deletions.before (scanRaw (st.address i) s.bytes (st.deltas i) (link.resolve st i) s.relocations)
      r.offset
    rw [hraw]
    exact hfront

/-- **One pass, the padding.** Padding without a deletion is looked at, the rest stays aligned. -/
theorem aligned_pass (hs : link.sections[i]? = some s) (hp : s.PaddedFor m) (htr : s.Trimmable m)
    (hpl : PlacedAt s m i st.address) (hc : Undisturbed link i s m st rescan address) (he : Even s m (st.deltas i))
    {r : Relocation} (hr : r ∈ s.relocations) (ht : r.rType = .align)
    (hal : AlignedAfter m (st.deltas i) r ∨
      ((st.deltas i).hasDeltaAt r.offset = false ∧ i ∈ link.sectionsToScan rescan ∧ link.sectionAddress st i ≠ 0))
    : AlignedAfter m ((link.afterPass st rescan address).deltas i) r := by
  have he' := he.pass hs hp htr hpl hc
  by_cases hhas : (st.deltas i).hasDeltaAt r.offset = true
  · rcases hal with hal | ⟨hno, -⟩
    · exact aligned_of_trimmed he hp he' hr ht hhas (hc.trimmed r hr ht hhas) hal
    · rw [hno] at hhas
      cases hhas
  · have hfree : (st.deltas i).hasDeltaAt r.offset = false := by simpa using hhas
    have hmerge : (link.afterPass st rescan address).deltas i =
        (st.deltas i).mergeAdditional ((link.taken st rescan i).map Decision.raw) := rfl
    rcases taken_cases hs st rescan with ⟨hno, htaken⟩ | htaken
    · rcases hal with hal | ⟨-, hscan⟩
      · rw [hmerge, htaken]
        exact hal
      · exact absurd hscan hno
    · rw [hmerge, htaken] at he' ⊢
      obtain ⟨pre, post, hsplit⟩ := List.append_of_mem hr
      have hfront := front_dvd he hp htr (hpl.size_dvd hp hr ht) hsplit ht (hc.front hr ht htaken)
      exact aligned_of_scan he hp htr he' hsplit ht (hpl.2 r hr ht) hfree hfront

/-! ## The padding in the output -/

/-- **Refilling.** What is kept of the padding is one range of the output, and the writer fills that range. -/
theorem padding_refilled {d : SectionRelaxDeltas} (ht : Tracked s.relocations d) (hp : s.PaddedFor m)
    {r : Relocation} (hr : r ∈ s.relocations) (hra : r.rType = .align) (heven : keptPadding d r % 2 = 0) :
    ∃ pre pad post, populateSectionOutput s.bytes d = pre ++ pad ++ post ∧
      pre.length = d.inputToOutputOffset r.offset ∧
      pad = (s.bytes.take (r.offset + asU64 r.addend)).drop (r.offset + d.deltaBytesAt r.offset) ∧
      pad.length = keptPadding d r ∧
      applyAlignment d r (populateSectionOutput s.bytes d) = pre ++ nopSled (keptPadding d r) ++ post := by
  have hsite : r.isSite = true := by simp [Relocation.isSite, hra]
  have hsize : r.siteSize = asU64 r.addend := by simp [Relocation.siteSize, hra]
  have hin := hp.inside r hr hsite
  rw [hsize] at hin
  have hlen : ((s.bytes.take (r.offset + asU64 r.addend)).drop
      (r.offset + d.deltaBytesAt r.offset)).length = keptPadding d r := by
    rw [List.length_drop, List.length_take]
    unfold keptPadding
    omega
  obtain ⟨pre, post, heq, hpre⟩ : ∃ pre post, populateSectionOutput s.bytes d =
      pre ++ (s.bytes.take (r.offset + asU64 r.addend)).drop (r.offset + d.deltaBytesAt r.offset) ++ post ∧
        pre.length = d.inputToOutputOffset r.offset := by
    rw [populateSectionOutput_eq, ht.wellFormed.inputToOutputOffset_eq]
    by_cases ha : asU64 r.addend = 0
    · -- there is no padding
      have hclear : Deletions.Untouched d.raw r.offset r.offset := by
        intro e he
        rcases ht.untouched hp.apart hr hsite he with h | h | h
        · exact Or.inl h
        · exact Or.inr h.inside.2.1
        · exact Or.inr (by omega)
      obtain ⟨pre, post, heq, hpre⟩ := Deletions.compact_range ht.wellFormed.separated
        (Nat.le_refl r.offset) (show r.offset ≤ s.bytes.length by omega) hclear
      have hnil : (s.bytes.take r.offset).drop r.offset = [] := by
        rw [List.drop_eq_nil_iff, List.length_take]
        omega
      have hnil' : (s.bytes.take (r.offset + asU64 r.addend)).drop (r.offset + d.deltaBytesAt r.offset) = [] := by
        rw [List.drop_eq_nil_iff, List.length_take]
        omega
      rw [hnil] at heq
      rw [hnil']
      exact ⟨pre, post, heq, hpre⟩
    · obtain ⟨hle, hbefore, huntouched⟩ := ht.trimmed_range hp.apart hr hra ha
      obtain ⟨pre, post, heq, hpre⟩ := Deletions.compact_range ht.wellFormed.separated
        (by omega) hin huntouched
      refine ⟨pre, post, heq, ?_⟩
      rw [hpre]
      unfold Deletions.place
      omega
  refine ⟨pre, _, post, heq, hpre, rfl, hlen, ?_⟩
  rw [heq, applyAlignment_eq hpre hlen, fillNopPadding_eq _ (by rw [hlen]; exact heven), hlen]

end Pass

/-! ## All passes -/

/-- What a run preserves for a section with padding. -/
structure Padded (s : RelaxSection) (m i : Nat) (st : RelaxState) : Prop where
  even : Even s m (st.deltas i)
  aligned : ∀ r ∈ s.relocations, r.rType = .align → AlignedAfter m (st.deltas i) r
  placed : PlacedAt s m i st.address

/-- The kept padding is a whole number of instructions. -/
theorem Padded.kept_even {s : RelaxSection} {m i : Nat} (h : Padded s m i st) (hp : s.PaddedFor m) {r : Relocation}
    (hr : r ∈ s.relocations) (ht : r.rType = .align) : keptPadding (st.deltas i) r % 2 = 0 := by
  obtain ⟨k, hk⟩ := hp.power r hr ht
  have hmA : m ∣ r.requested m := size_dvd hp.size hk (by unfold Relocation.requested; omega)
  have hout : m ∣ (st.deltas i).inputToOutputOffset r.offset := by
    rw [h.even.tracked.wellFormed.inputToOutputOffset_eq]
    exact Nat.dvd_sub (hp.offset_dvd r hr ht) (h.even.before r hr ht)
  have hkept : m ∣ keptPadding (st.deltas i) r :=
    (Nat.dvd_add_right hout).mp (Dvd.dvd.trans hmA (h.aligned r hr ht))
  have h2 : 2 ∣ m := by
    rcases hp.size with rfl | rfl <;> decide
  exact Nat.mod_eq_zero_of_dvd (Dvd.dvd.trans h2 hkept)

/-- **Padding in the final output.** The code behind each padding is at a multiple of the requested alignment,
    and the writer fills what is kept of the padding. -/
theorem padding_aligned {link : RelaxLink} {fin : RelaxState} {i m : Nat} {s : RelaxSection}
    (hs : link.sections[i]? = some s) (hscan : s.loaded = true ∧ s.executable = true) (hp : s.PaddedFor m)
    (hpl : ∀ address, link.IsLayout address → PlacedAt s m i address) (htr : s.Trimmable m)
    (hc : link.AllPasses (Undisturbed link i s m)) (h : link.performIterativeRelaxation = some fin) :
    ∀ r ∈ s.relocations, r.rType = .align →
      r.requested m ∣ position fin i r.offset + keptPadding (fin.deltas i) r ∧
      ∃ pre pad post, populateSectionOutput s.bytes (fin.deltas i) = pre ++ pad ++ post ∧
        pre.length = (fin.deltas i).inputToOutputOffset r.offset ∧
        pad = (s.bytes.take (r.offset + asU64 r.addend)).drop (r.offset + (fin.deltas i).deltaBytesAt r.offset) ∧
        pad.length = keptPadding (fin.deltas i) r ∧
        applyAlignment (fin.deltas i) r (populateSectionOutput s.bytes (fin.deltas i)) =
          pre ++ nopSled (keptPadding (fin.deltas i) r) ++ post := by
  obtain ⟨st, address, n, k, rescan, hst, haddr, hfirst, hrest, hit⟩ := firstPass hc h
  obtain ⟨-, hdel, hlay⟩ := initialState_spec hst
  have hpl0 : PlacedAt s m i st.address := hpl _ hlay
  have hplaced : ∀ {a b : Nat → Nat}, PlacedAt s m i a → b = a ∨ link.IsLayout b → PlacedAt s m i b := by
    rintro a b ha (rfl | hb)
    · exact ha
    · exact hpl b hb
  have heven0 : Even s m (st.deltas i) := by
    rw [hdel]
    exact ⟨.nil _, fun _ _ _ => Nat.dvd_zero m⟩
  -- the first pass looks at all padding
  have hscanned : i ∈ link.sectionsToScan none ∧ link.sectionAddress st i ≠ 0 := by
    have hlt : i < link.sections.length := (List.getElem?_eq_some_iff.mp hs).1
    constructor
    · refine List.mem_filter.mpr ⟨List.mem_range.mpr hlt, ?_⟩
      rw [hs, Option.any_some, hscan.1, hscan.2]
      rfl
    · unfold RelaxLink.sectionAddress
      rw [hs]
      simp only [hscan.1, if_true]
      exact hpl0.1
  have hfree : ∀ o, (st.deltas i).hasDeltaAt o = false := by
    intro o
    rw [hdel]
    rfl
  have hP : Padded s m i (link.afterPass st none address) :=
    { even := heven0.pass hs hp htr hpl0 hfirst
      aligned := fun r hr ht =>
        aligned_pass hs hp htr hpl0 hfirst heven0 hr ht (Or.inr ⟨hfree _, hscanned⟩)
      placed := hplaced hpl0 haddr }
  have hfin : Padded s m i fin :=
    iterate_invariant (fun st' rescan' address' hP haddr' hc' =>
      { even := hP.even.pass hs hp htr hP.placed hc'
        aligned := fun r hr ht =>
          aligned_pass hs hp htr hP.placed hc' hP.even hr ht (Or.inl (hP.aligned r hr ht))
        placed := hplaced hP.placed haddr' }) n k rescan _ fin hP hrest hit
  intro r hr ht
  refine ⟨?_, padding_refilled hfin.even.tracked hp hr ht (hfin.kept_even hp hr ht)⟩
  show r.requested m ∣ fin.address i + (fin.deltas i).inputToOutputOffset r.offset + _
  rw [Nat.add_assoc]
  exact Nat.dvd_add (hfin.placed.2 r hr ht) (hfin.aligned r hr ht)

/-! ## Two sections -/

/-- A link of one executable section at `0x1000`, with one symbol behind its last byte. -/
def alignLink (s : RelaxSection) : RelaxLink :=
  { sections := [s]
    definition := fun _ y => y
    symbolPlace := fun _ => .inSection 0 s.size
    isInterposable := fun _ => false
    layout := fun _ _ => some (fun _ => 0x1000) }

/-- `c.nop; .balign 4; nop` with two-byte instructions: two bytes of padding. -/
def wordSection : RelaxSection :=
  { size := 8, loaded := true, executable := true
    bytes := [0x01, 0x00, 0x01, 0x00, 0x13, 0x00, 0x00, 0x00]
    relocations := [{ offset := 2, rType := .align, symbol := none, addend := 2 }]
    packed := false, alignment := 4 }

theorem wordSection_padded : wordSection.PaddedFor 2 where
  size := Or.inl rfl
  apart := List.pairwise_singleton ..
  inside := by decide
  offset_dvd := by decide
  power := by
    intro r hr _
    rw [List.mem_singleton.mp hr]
    exact ⟨2, rfl⟩

/-- The scan takes the two bytes of padding for an alignment of two and removes them; the `nop` that should be
    at a multiple of four is at `0x1002`. -/
theorem trimmed_padding_misaligned :
    wordSection.PaddedFor 2 ∧ ∃ fin, (alignLink wordSection).performIterativeRelaxation = some fin ∧
      ∃ r ∈ wordSection.relocations, r.rType = .align ∧ fin.address 0 % r.requested 2 = 0 ∧
        ¬ r.requested 2 ∣ position fin 0 r.offset + keptPadding (fin.deltas 0) r := by
  exact ⟨wordSection_padded, _, rfl, _, List.mem_cons_self, rfl, by decide, by decide⟩

/-- A call that becomes a `jal`, then `.balign 8` with two-byte instructions. -/
def callSection : RelaxSection :=
  { size := 18, loaded := true, executable := true
    bytes := [0x97, 0x00, 0x00, 0x00, 0xe7, 0x80, 0x00, 0x00, 0x13, 0x00, 0x00, 0x00, 0x01, 0x00,
      0x13, 0x00, 0x00, 0x00]
    relocations := [
      { offset := 0, rType := .callPlt, symbol := some 0, addend := 0 },
      { offset := 0, rType := .relax, symbol := none, addend := 0 },
      { offset := 8, rType := .align, symbol := none, addend := 6 }]
    packed := false, alignment := 8 }

theorem callSection_padded : callSection.PaddedFor 2 where
  size := Or.inl rfl
  apart := by
    unfold SitesApart
    decide
  inside := by decide
  offset_dvd := by decide
  power := by
    intro r hr ht
    simp only [callSection, List.mem_cons, List.not_mem_nil, or_false] at hr
    rcases hr with rfl | rfl | rfl
    · cases ht
    · cases ht
    · exact ⟨3, rfl⟩

/-- The only pass that deletes bytes finds no trimmed padding and shortens no `lui`. -/
theorem callSection_undisturbed :
    (alignLink callSection).AllPasses (Undisturbed (alignLink callSection) 0 callSection 2) := by
  intro st hst
  cases hst
  intro _
  rw [if_neg (by decide)]
  intro address ha
  cases ha
  refine ⟨⟨fun _ _ _ _ _ _ _ _ => rfl, fun r _ _ hhas => ?_⟩, fun hne => absurd rfl hne⟩
  cases hhas

theorem callSection_placed (address : Nat → Nat) (h : (alignLink callSection).IsLayout address) :
    PlacedAt callSection 2 0 address := by
  obtain ⟨k, capacities, hl⟩ := h
  cases hl
  unfold PlacedAt
  decide

theorem padding_aligned_callSection : ∃ fin, (alignLink callSection).performIterativeRelaxation = some fin ∧
    8 ∣ position fin 0 8 + keptPadding (fin.deltas 0)
      { offset := 8, rType := .align, symbol := none, addend := 6 } :=
  ⟨_, rfl, (padding_aligned rfl ⟨rfl, rfl⟩ callSection_padded callSection_placed
    (by unfold RelaxSection.Trimmable; decide) callSection_undisturbed rfl
    { offset := 8, rType := .align, symbol := none, addend := 6 } (by decide) rfl).1⟩

end Reld
