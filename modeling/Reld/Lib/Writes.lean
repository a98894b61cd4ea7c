import Mathlib.Data.List.Pairwise
import Mathlib.Data.List.Basic

/-!
# `Lib.Writes` — a zeroed buffer and the writes to it

A write puts `length` bytes of a source at a position; a source without a key is filler with bytes of its own.
What a list of writes leaves is read byte by byte (`byteAt`), so that two lists can be compared for all
contents of the keyed sources at once. When the writes of each list are apart, and no key is written twice,
the lists leave the same bytes for all contents exactly when they put the same keys at the same places, and
the filler that only one of them writes is zero (`equal_bytes_iff`).
-/

universe u v

namespace Writes

/-- `length` bytes of a source from `start` on. -/
structure Write (κ : Type u) where
  start : Nat
  length : Nat
  source : Option κ
deriving DecidableEq

variable {κ : Type u} {β : Type v}

namespace Write

def covers (w : Write κ) (p : Nat) : Bool := w.start ≤ p && p < w.start + w.length

/-- The two writes have no position in common. -/
def Apart (w w' : Write κ) : Prop := ∀ p, w.covers p → ¬w'.covers p

theorem covers_iff {w : Write κ} {p : Nat} : w.covers p ↔ w.start ≤ p ∧ p < w.start + w.length := by
  simp [covers]

theorem Apart.symm {w w' : Write κ} (h : Apart w w') : Apart w' w := fun p hp hp' => h p hp' hp

theorem apart_of_le {w w' : Write κ} (h : w.start + w.length ≤ w'.start) : Apart w w' := by
  intro p hp hp'
  rw [covers_iff] at hp hp'
  omega

end Write

/-- The bytes of a source. -/
def sourceByte (content : κ → Nat → β) (fill : Nat → β) : Option κ → Nat → β
  | some k => content k
  | none => fill

/-- The byte that the writes leave at `p`. -/
def byteAt (content : κ → Nat → β) (fill : Nat → β) (zero : β) (ws : List (Write κ)) (p : Nat) : β :=
  ((ws.find? (·.covers p)).map fun w => sourceByte content fill w.source (p - w.start)).getD zero

section

variable {content : κ → Nat → β} {fill : Nat → β} {zero : β} {ws ws' : List (Write κ)} {w : Write κ} {p : Nat}

/-- Where writes are apart, each of them is read back. -/
theorem byteAt_of_mem (hws : ws.Pairwise Write.Apart) (hw : w ∈ ws) (hp : w.covers p) :
    byteAt content fill zero ws p = sourceByte content fill w.source (p - w.start) := by
  have hfind : ws.find? (·.covers p) = some w := by
    induction ws with
    | nil => cases hw
    | cons a ws ih =>
      rw [List.pairwise_cons] at hws
      by_cases ha : a.covers p
      · rcases List.mem_cons.mp hw with rfl | hw
        · exact List.find?_cons_of_pos ha
        · exact absurd hp (hws.1 w hw p ha)
      · have hne : w ≠ a := by
          rintro rfl
          exact ha hp
        rw [List.find?_cons, (Bool.not_eq_true _).mp ha]
        exact ih hws.2 ((List.mem_cons.mp hw).resolve_left hne)
  rw [byteAt, hfind]
  rfl

/-- Where nothing is written the buffer is zero. -/
theorem byteAt_of_not_covered (h : ∀ w ∈ ws, ¬w.covers p) : byteAt content fill zero ws p = zero := by
  have hfind : ws.find? (·.covers p) = none := List.find?_eq_none.mpr h
  rw [byteAt, hfind]
  rfl

end

/-- The same writes from another position on. -/
def Write.move (q : Nat) (w : Write κ) : Write κ := { w with start := q + w.start }

theorem byteAt_move (content : κ → Nat → β) (fill : Nat → β) (zero : β) (ws : List (Write κ)) (q p : Nat) :
    byteAt content fill zero (ws.map (Write.move q)) (q + p) = byteAt content fill zero ws p := by
  have hcovers : ((fun w : Write κ => w.covers (q + p)) ∘ Write.move q) = fun w => w.covers p := by
    funext w
    simp only [Function.comp, Write.covers, Write.move, Nat.add_assoc, Nat.add_le_add_iff_left,
      Nat.add_lt_add_iff_left]
  unfold byteAt
  rw [List.find?_map, hcovers, Option.map_map]
  congr 2
  funext w
  simp only [Function.comp, Write.move, Nat.add_sub_add_left]

/-- No key is written twice, as far as bytes go. -/
def KeysOnce (ws : List (Write κ)) : Prop :=
  ∀ w ∈ ws, ∀ w' ∈ ws, w.source = w'.source → w.source ≠ none → 0 < w.length → 0 < w'.length → w = w'

/-- The two lists put the same keys at the same places. -/
def SameKeys (ws ws' : List (Write κ)) : Prop :=
  ∀ start length k, 0 < length → (⟨start, length, some k⟩ ∈ ws ↔ ⟨start, length, some k⟩ ∈ ws')

/-- The two lists have no key in common. -/
def KeysApart (ws ws' : List (Write κ)) : Prop :=
  ∀ w ∈ ws, ∀ w' ∈ ws', w.source = w'.source → w.source = none

/-- The filler of a list is zero. -/
def FillerZero (fill : Nat → β) (zero : β) (ws : List (Write κ)) : Prop :=
  ∀ w ∈ ws, w.source = none → ∀ i < w.length, fill i = zero

section

variable {a b a' b' : List (Write κ)}

theorem KeysOnce.append (ha : KeysOnce a) (hb : KeysOnce b) (hab : KeysApart a b) : KeysOnce (a ++ b) := by
  intro w hw w' hw' hsrc hne
  rcases List.mem_append.mp hw with hw | hw <;> rcases List.mem_append.mp hw' with hw' | hw'
  · exact ha w hw w' hw' hsrc hne
  · exact absurd (hab w hw w' hw' hsrc) hne
  · exact absurd (hsrc.trans (hab w' hw' w hw hsrc.symm)) hne
  · exact hb w hw w' hw' hsrc hne

/-- Lists with different keys are compared one by one. -/
theorem sameKeys_append (hab : KeysApart a b') (hba : KeysApart a' b) :
    SameKeys (a ++ b) (a' ++ b') ↔ SameKeys a a' ∧ SameKeys b b' := by
  have hleft : ∀ {w : Write κ}, w ∈ a → w.source ≠ none → w ∉ b' := fun hw hne hw' => hne (hab _ hw _ hw' rfl)
  have hright : ∀ {w : Write κ}, w ∈ a' → w.source ≠ none → w ∉ b := fun hw hne hw' => hne (hba _ hw _ hw' rfl)
  constructor
  · intro h
    refine ⟨fun start length k hlength => ⟨fun hw => ?_, fun hw => ?_⟩,
      fun start length k hlength => ⟨fun hw => ?_, fun hw => ?_⟩⟩
    · exact (List.mem_append.mp ((h start length k hlength).mp (List.mem_append_left _ hw))).resolve_right
        (hleft hw (Option.some_ne_none k))
    · exact (List.mem_append.mp ((h start length k hlength).mpr (List.mem_append_left _ hw))).resolve_right
        (hright hw (Option.some_ne_none k))
    · exact (List.mem_append.mp ((h start length k hlength).mp (List.mem_append_right _ hw))).resolve_left
        fun hw' => hright hw' (Option.some_ne_none k) hw
    · exact (List.mem_append.mp ((h start length k hlength).mpr (List.mem_append_right _ hw))).resolve_left
        fun hw' => hleft hw' (Option.some_ne_none k) hw
  · rintro ⟨ha, hb⟩ start length k hlength
    rw [List.mem_append, List.mem_append, ha start length k hlength, hb start length k hlength]

end

section

variable [DecidableEq κ] {fill : Nat → β} {zero one : β} {ws ws' : List (Write κ)} {n : Nat}

/-- A key whose bytes can be told from zero is found in the other list, at each of its positions. -/
theorem covered_of_same (hne : one ≠ zero) (hws : ws.Pairwise Write.Apart)
    (hws' : ws'.Pairwise Write.Apart) (hn : ∀ w ∈ ws, w.start + w.length ≤ n)
    (hsame : ∀ content : κ → Nat → β, ∀ p < n,
      byteAt content fill zero ws p = byteAt content fill zero ws' p)
    {w : Write κ} (hw : w ∈ ws) {k : κ} (hk : w.source = some k) {p : Nat} (hp : w.covers p) :
    ∃ w' ∈ ws', w'.source = some k ∧ w'.covers p := by
  have hpn : p < n := Nat.lt_of_lt_of_le (Write.covers_iff.mp hp).2 (hn w hw)
  -- Two contents that differ in the bytes of `k` only.
  have hone := hsame (fun k' _ => if k' = k then one else zero) p hpn
  have hzero := hsame (fun _ _ => zero) p hpn
  rw [byteAt_of_mem hws hw hp, hk] at hone hzero
  simp only [sourceByte, if_true] at hone hzero
  by_cases hcov : ∃ w' ∈ ws', w'.covers p
  · obtain ⟨w', hw', hp'⟩ := hcov
    rw [byteAt_of_mem hws' hw' hp'] at hone hzero
    cases hsrc : w'.source with
    | none =>
      rw [hsrc] at hone hzero
      exact absurd (hone.trans hzero.symm) hne
    | some k' =>
      rw [hsrc] at hone hzero
      simp only [sourceByte] at hone hzero
      by_cases hkk : k' = k
      · exact ⟨w', hw', hsrc.trans (congrArg some hkk), hp'⟩
      · rw [if_neg hkk] at hone
        exact absurd hone hne
  · push Not at hcov
    rw [byteAt_of_not_covered (fun w' hw' h => by simp [hcov w' hw'] at h)] at hone
    exact absurd hone hne

theorem mem_of_same (hne : one ≠ zero) (hws : ws.Pairwise Write.Apart) (hws' : ws'.Pairwise Write.Apart)
    (hn : ∀ w ∈ ws, w.start + w.length ≤ n) (hn' : ∀ w ∈ ws', w.start + w.length ≤ n)
    (hkeys : KeysOnce ws) (hkeys' : KeysOnce ws')
    (hsame : ∀ content : κ → Nat → β, ∀ p < n,
      byteAt content fill zero ws p = byteAt content fill zero ws' p)
    {start length : Nat} {k : κ} (hlength : 0 < length) (hw : ⟨start, length, some k⟩ ∈ ws) :
    ⟨start, length, some k⟩ ∈ ws' := by
  have hsame' : ∀ content : κ → Nat → β, ∀ p < n,
      byteAt content fill zero ws' p = byteAt content fill zero ws p := fun c p hp => (hsame c p hp).symm
  have hfirst : (⟨start, length, some k⟩ : Write κ).covers start :=
    Write.covers_iff.mpr ⟨Nat.le_refl _, by simp only; omega⟩
  have hlast : (⟨start, length, some k⟩ : Write κ).covers (start + length - 1) :=
    Write.covers_iff.mpr ⟨by simp only; omega, by simp only; omega⟩
  obtain ⟨w', hw', hsrc, hcov⟩ := covered_of_same hne hws hws' hn hsame hw rfl hfirst
  obtain ⟨w'', hw'', hsrc'', hcov''⟩ := covered_of_same hne hws hws' hn hsame hw rfl hlast
  rw [Write.covers_iff] at hcov hcov''
  obtain rfl : w' = w'' := hkeys' w' hw' w'' hw'' (hsrc.trans hsrc''.symm) (by rw [hsrc]; simp)
    (by omega) (by omega)
  -- The write that was found starts and ends where this one does, or it would cover more of it.
  have hback : ∀ p, w'.covers p → (⟨start, length, some k⟩ : Write κ).covers p := by
    intro p hp
    obtain ⟨v, hv, hvsrc, hvp⟩ := covered_of_same hne hws' hws hn' hsame' hw' hsrc hp
    have hvpos := (Write.covers_iff.mp hvp)
    obtain rfl : v = ⟨start, length, some k⟩ := hkeys v hv _ hw hvsrc (by rw [hvsrc]; simp)
      (by omega) hlength
    exact hvp
  have hstart := Write.covers_iff.mp (hback w'.start (Write.covers_iff.mpr ⟨Nat.le_refl _, by omega⟩))
  have hstop := Write.covers_iff.mp (hback (w'.start + w'.length - 1)
    (Write.covers_iff.mpr ⟨by omega, by omega⟩))
  obtain ⟨s, len, src⟩ := w'
  simp only at hcov hcov'' hstart hstop hsrc
  obtain rfl : s = start := by omega
  obtain rfl : len = length := by omega
  subst hsrc
  exact hw'

/-- **Equal bytes for all contents.** The second list writes no filler. -/
theorem equal_bytes_iff (hne : one ≠ zero) (hws : ws.Pairwise Write.Apart) (hws' : ws'.Pairwise Write.Apart)
    (hn : ∀ w ∈ ws, w.start + w.length ≤ n) (hn' : ∀ w ∈ ws', w.start + w.length ≤ n)
    (hkeys : KeysOnce ws) (hkeys' : KeysOnce ws') (hfill : ∀ w ∈ ws', w.source ≠ none) :
    (∀ content : κ → Nat → β, ∀ p < n,
        byteAt content fill zero ws p = byteAt content fill zero ws' p) ↔
      SameKeys ws ws' ∧ FillerZero fill zero ws := by
  constructor
  · intro hsame
    have hsame' : ∀ content : κ → Nat → β, ∀ p < n,
        byteAt content fill zero ws' p = byteAt content fill zero ws p := fun c p hp => (hsame c p hp).symm
    refine ⟨fun start length k hlength => ⟨?_, ?_⟩, fun w hw hsrc i hi => ?_⟩
    · exact mem_of_same hne hws hws' hn hn' hkeys hkeys' hsame hlength
    · exact mem_of_same hne hws' hws hn' hn hkeys' hkeys hsame' hlength
    · -- With zero content the other list leaves zero everywhere.
      have hcov : w.covers (w.start + i) := Write.covers_iff.mpr ⟨by omega, by omega⟩
      have hbyte := hsame (fun _ _ => zero) (w.start + i) (by have := hn w hw; omega)
      rw [byteAt_of_mem hws hw hcov, hsrc, Nat.add_sub_cancel_left] at hbyte
      simp only [sourceByte] at hbyte
      rw [hbyte]
      by_cases hcov' : ∃ w' ∈ ws', w'.covers (w.start + i)
      · obtain ⟨w', hw', hp'⟩ := hcov'
        rw [byteAt_of_mem hws' hw' hp']
        cases hsrc' : w'.source with
        | none => exact absurd hsrc' (hfill w' hw')
        | some k => rfl
      · push Not at hcov'
        exact byteAt_of_not_covered fun w' hw' h => by simp [hcov' w' hw'] at h
  · rintro ⟨hsame, hzero⟩ content p hp
    by_cases hcov' : ∃ w' ∈ ws', w'.covers p
    · obtain ⟨⟨s, len, src⟩, hw', hp'⟩ := hcov'
      cases src with
      | none => exact absurd rfl (hfill _ hw')
      | some k =>
        have hlen : 0 < len := by
          have := Write.covers_iff.mp hp'
          simp only at this
          omega
        rw [byteAt_of_mem hws' hw' hp', byteAt_of_mem hws ((hsame s len k hlen).mpr hw') hp']
    · push Not at hcov'
      have hnone : ∀ w' ∈ ws', ¬w'.covers p := fun w' hw' h => by simp [hcov' w' hw'] at h
      rw [byteAt_of_not_covered hnone]
      by_cases hcov : ∃ w ∈ ws, w.covers p
      · obtain ⟨⟨s, len, src⟩, hw, hp⟩ := hcov
        have hpos := Write.covers_iff.mp hp
        simp only at hpos
        cases src with
        | none =>
          rw [byteAt_of_mem hws hw hp]
          exact hzero _ hw rfl _ (by simp only; omega)
        | some k => exact absurd hp (hnone _ ((hsame s len k (by omega)).mp hw))
      · push Not at hcov
        exact byteAt_of_not_covered fun w hw h => by simp [hcov w hw] at h

/-- The same when the second buffer starts at `q` of the first one. -/
theorem same_bytes_move_iff {q : Nat} (hne : one ≠ zero) (hws : ws.Pairwise Write.Apart)
    (hws' : (ws'.map (Write.move q)).Pairwise Write.Apart)
    (hn : ∀ w ∈ ws, q ≤ w.start ∧ w.start + w.length ≤ q + n)
    (hn' : ∀ w ∈ ws'.map (Write.move q), q ≤ w.start ∧ w.start + w.length ≤ q + n)
    (hkeys : KeysOnce ws) (hkeys' : KeysOnce (ws'.map (Write.move q)))
    (hfill : ∀ w ∈ ws'.map (Write.move q), w.source ≠ none) :
    (∀ content : κ → Nat → β, ∀ p < n,
        byteAt content fill zero ws (q + p) = byteAt content fill zero ws' p) ↔
      SameKeys ws (ws'.map (Write.move q)) ∧ FillerZero fill zero ws := by
  rw [← equal_bytes_iff hne hws hws' (fun w hw => (hn w hw).2) (fun w hw => (hn' w hw).2) hkeys hkeys' hfill]
  refine forall_congr' fun content => ⟨fun h p hp => ?_, fun h p hp => ?_⟩
  · by_cases hpq : p < q
    · -- In front of the section neither list writes.
      rw [byteAt_of_not_covered fun w hw hcov => ?_, byteAt_of_not_covered fun w hw hcov => ?_]
      · exact absurd (Write.covers_iff.mp hcov).1 (by have := (hn' w hw).1; omega)
      · exact absurd (Write.covers_iff.mp hcov).1 (by have := (hn w hw).1; omega)
    · obtain ⟨r, rfl⟩ := Nat.exists_eq_add_of_le (Nat.le_of_not_lt hpq)
      rw [h r (by omega), byteAt_move]
  · rw [h (q + p) (by omega), byteAt_move]

end

end Writes
