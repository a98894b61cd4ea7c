import Reld.Elf.RelrEncoder
import Mathlib.Data.List.Range

/-!
# `Elf.TableWriter` — the relative relocations of an output

The writer side of `.relr.dyn`: `write_address_relocation` feeds the encoder, `write_relr_entry_flat` emits
one address word for each GOT entry, and `write_got_relr_bitmap` covers the contiguous `GOT_RELR` block
with an address word and full bitmaps. Every entry is taken from the space that layout allocated.

`WritesPlaces` is stated of every writing function: with enough free entries it succeeds, uses exactly its cost
and adds exactly its places to what the loader decodes; with fewer it reports an insufficient allocation.
-/

namespace Reld

open RelrFormat

/-- The errors of the functions below. -/
inductive WriteError where
  /-- `insufficient_allocation(section_name)`. -/
  | insufficientAllocation (sectionName : String)
  /-- "Internal error in RELR bitmap encoding". -/
  | relrBitmapEncoding
deriving DecidableEq

/-- A `.rela.dyn` entry of the relative kind. -/
structure Rela where
  rOffset : Word
  rAddend : Word
deriving DecidableEq

/-- The fields of `TableWriter` that relative relocations use. An output slice is the number of entries
    left in it together with the entries already written. -/
structure TableWriter where
  relrDyn : Option Nat
  relrWords : List Word
  /-- The index of the entry that `current_relr_dyn` points to. -/
  currentRelrDyn : Option Nat
  relrWriter : RelrState
  relaDynRelative : Nat
  relas : List Rela
deriving DecidableEq

namespace TableWriter

/-- A writer over fresh slices: an empty `.relr.dyn` slice counts as no slice. -/
def new (packRelativeRelocs : Bool) (relrEntries relaEntries : Nat) : TableWriter :=
  { relrDyn := if packRelativeRelocs ∧ relrEntries ≠ 0 then some relrEntries else none
    relrWords := []
    currentRelrDyn := none
    relrWriter := .noRun
    relaDynRelative := relaEntries
    relas := [] }

/-- Reset the run state between input sections. -/
def resetRelrRun (w : TableWriter) : TableWriter :=
  { w with relrWriter := .noRun, currentRelrDyn := none }

/-- `split_off_first_mut` on `.relr.dyn` with `free` entries left, and the store to that entry. -/
def takeRelrEntry (w : TableWriter) (free : Nat) (word : Word) : Except WriteError TableWriter :=
  match free with
  | 0 => .error (.insufficientAllocation ".relr.dyn")
  | n + 1 => .ok { w with relrDyn := some n, relrWords := w.relrWords ++ [word] }

/-- `split_off_first_mut` on `.rela.dyn` and the stores to that entry. -/
def takeRelaEntry (w : TableWriter) (place relativeAddress : Word) : Except WriteError TableWriter :=
  match w.relaDynRelative with
  | 0 => .error (.insufficientAllocation ".rela.dyn (relative)")
  | n + 1 =>
    .ok { w with
      relaDynRelative := n
      relas := w.relas ++ [{ rOffset := place, rAddend := relativeAddress }] }

/-- `place.is_multiple_of(2)`. -/
def isEven (place : Word) : Bool := place.toNat % 2 = 0

/-- The closure that `write_address_relocation` passes to the encoder. -/
def storeEncoded (w : TableWriter) (free : Nat) (encoded : Word) :
    RelrEntryEncoding → Except WriteError TableWriter
  | .new => do
      let w' ← w.takeRelrEntry free encoded
      return { w' with currentRelrDyn := some w.relrWords.length }
  | .update =>
    match w.currentRelrDyn with
    | none => .error .relrBitmapEncoding
    | some i => .ok { w with relrWords := w.relrWords.set i encoded }

/-- Write a RELA or RELR entry; the value is what goes to the relocation site. -/
def writeAddressRelocation (w : TableWriter) (place relativeAddress : Word) :
    Except WriteError (TableWriter × Word) :=
  match w.relrDyn, isEven place with
  | some free, true => do
      let r := encode w.relrWriter place
      let w' ← w.storeEncoded free r.2.1 r.2.2
      return ({ w' with relrWriter := r.1 }, relativeAddress)
  | _, _ => do
      -- An odd place cannot be an address word.
      let w' ← w.takeRelaEntry place relativeAddress
      return (w', 0)

/-- Write a single address entry without bitmap packing. -/
def writeRelrEntryFlat (w : TableWriter) (place relativeAddress : Word) :
    Except WriteError (TableWriter × Word) :=
  match w.relrDyn, isEven place with
  | some free, true => do
      let w' ← w.takeRelrEntry free place
      return (w', relativeAddress)
  | _, _ => do
      let w' ← w.takeRelaEntry place relativeAddress
      return (w', 0)

/-- The bitmap word that covers the first `slots` slots. -/
def gotRelrBitmap (slots : Nat) : Word := (((1 : Word) <<< slots) - 1) <<< 1 ||| 1

/-- The loop of `write_got_relr_bitmap` with `free` entries left. -/
def writeGotRelrBitmaps (w : TableWriter) (free remaining : Nat) : Except WriteError TableWriter :=
  if remaining = 0 then .ok w
  else do
    let w' ← w.takeRelrEntry free (gotRelrBitmap (min remaining relrBitmapSlots))
    writeGotRelrBitmaps w' (free - 1) (remaining - relrBitmapSlots)
termination_by remaining
decreasing_by simp only [relrBitmapSlots]; omega

/-- Write the entries for the whole `GOT_RELR` block of `n` slots at `base`. -/
def writeGotRelrBitmap (w : TableWriter) (n : Nat) (base : Word) : Except WriteError TableWriter :=
  if base = 0 ∨ n = 0 then .ok w
  else
    match w.relrDyn with
    | none => .ok w
    | some free => do
        let w' ← w.takeRelrEntry free base
        writeGotRelrBitmaps w' (free - 1) (n - 1)

end TableWriter

/-- The number of entries that layout allocates for a `GOT_RELR` block of `n` slots. -/
def gotRelrBitmapRelrCount (n : Nat) : Nat :=
  if n = 0 then 0 else 1 + (n - 1 + (relrBitmapSlots - 1)) / relrBitmapSlots

/-- One use of the writer: the relocations of an input section, a flat GOT entry, or the `GOT_RELR`
    block. -/
inductive WriteOp where
  | inputSection (relocations : List (Word × Word))
  | flatGotEntry (place relativeAddress : Word)
  | gotRelrBlock (n : Nat) (base : Word)

namespace TableWriter

/-- The relocations of one section, in their order. -/
def writeAddressRelocations (w : TableWriter) : List (Word × Word) → Except WriteError TableWriter
  | [] => .ok w
  | (place, relativeAddress) :: rest => do
      let (w', _) ← w.writeAddressRelocation place relativeAddress
      writeAddressRelocations w' rest

/-- Perform one operation; a section starts with `reset_relr_run`. -/
def perform (w : TableWriter) : WriteOp → Except WriteError TableWriter
  | .inputSection relocations => w.resetRelrRun.writeAddressRelocations relocations
  | .flatGotEntry place relativeAddress => do
      let (w', _) ← w.writeRelrEntryFlat place relativeAddress
      return w'
  | .gotRelrBlock n base => w.writeGotRelrBitmap n base

/-- Perform operations one after another. -/
def run (w : TableWriter) : List WriteOp → Except WriteError TableWriter
  | [] => .ok w
  | op :: ops => do
      let w' ← w.perform op
      run w' ops

end TableWriter

/-! ## Places and costs -/

namespace WriteOp

/-- The places that an operation relocates. -/
def places : WriteOp → List Word
  | .inputSection relocations => relocations.map Prod.fst
  | .flatGotEntry place _ => [place]
  | .gotRelrBlock n base => (List.range n).map (slotPlace base)

/-- What the callers guarantee: the places of a section are distinct and even, a GOT entry is at an even
    address, and the block is 8-aligned and has an address. -/
def WellFormed : WriteOp → Prop
  | .inputSection relocations =>
    (relocations.map Prod.fst).Nodup ∧ ∀ r ∈ relocations, TableWriter.isEven r.1 = true
  | .flatGotEntry place _ => TableWriter.isEven place = true
  | .gotRelrBlock _ base => base ≠ 0 ∧ base.toNat % 8 = 0

end WriteOp

/-- The entries that one call of the encoder takes. -/
def RelrEntryEncoding.cost : RelrEntryEncoding → Nat
  | .new => 1
  | .update => 0

/-- The entries that layout counts for the places of a section, from encoder state `state` on. -/
def sectionEntries (state : RelrState) : List Word → Nat
  | [] => 0
  | place :: rest => (encode state place).2.2.cost + sectionEntries (encode state place).1 rest

/-- The entries that layout counts for an operation. -/
def WriteOp.entries : WriteOp → Nat
  | .inputSection relocations => sectionEntries .noRun (relocations.map Prod.fst)
  | .flatGotEntry _ _ => 1
  | .gotRelrBlock n _ => gotRelrBitmapRelrCount n

namespace TableWriter

/-- `r` is what is left of `w` (with `free` unused entries) after writing `places` in `cost` entries. -/
def WritesPlaces (w : TableWriter) (free cost : Nat) (places : List Word)
    (r : Except WriteError TableWriter) : Prop :=
  (cost ≤ free → ∃ w', r = .ok w' ∧ w'.relrDyn = some (free - cost) ∧
    w'.relrWords.length = w.relrWords.length + cost ∧
    (decode w'.relrWords).Perm (decode w.relrWords ++ places)) ∧
  (free < cost → r = .error (.insufficientAllocation ".relr.dyn"))

variable {w : TableWriter} {free : Nat}

/-- Writing nothing. -/
theorem writesPlaces_pure (hfree : w.relrDyn = some free) :
    WritesPlaces w free 0 [] (.ok w) := by
  constructor
  · intro _
    exact ⟨w, rfl, hfree, rfl, by rw [List.append_nil]⟩
  · intro h
    exact absurd h (by omega)

/-- Writing one thing after another. -/
theorem writesPlaces_bind {c₁ c₂ : Nat} {p₁ p₂ : List Word} {r : Except WriteError TableWriter}
    {f : TableWriter → Except WriteError TableWriter} (h₁ : WritesPlaces w free c₁ p₁ r)
    (h₂ : ∀ w', r = .ok w' → w'.relrDyn = some (free - c₁) → WritesPlaces w' (free - c₁) c₂ p₂ (f w')) :
    WritesPlaces w free (c₁ + c₂) (p₁ ++ p₂) (r >>= f) := by
  constructor
  · intro hcost
    obtain ⟨w₁, hr, hfree₁, hlen₁, hperm₁⟩ := h₁.1 (by omega)
    obtain ⟨w₂, hf, hfree₂, hlen₂, hperm₂⟩ := (h₂ w₁ hr hfree₁).1 (by omega)
    refine ⟨w₂, ?_, ?_, by omega, ?_⟩
    · rw [hr]; exact hf
    · rw [hfree₂, Nat.sub_sub]
    · have hperm := hperm₂.trans (hperm₁.append_right p₂)
      rwa [List.append_assoc] at hperm
  · intro hcost
    by_cases hc : c₁ ≤ free
    · obtain ⟨w₁, hr, hfree₁, _, _⟩ := h₁.1 hc
      rw [hr]
      exact (h₂ w₁ hr hfree₁).2 (by omega)
    · rw [h₁.2 (by omega)]
      rfl

/-! ## Flat entries -/

variable {place : Word}

theorem isEven_getLsbD (h : isEven place = true) : place.getLsbD 0 = false := by
  unfold isEven at h
  rw [decide_eq_true_eq] at h
  rw [BitVec.getLsbD, Nat.testBit_zero, h]
  rfl

/-- Taking an entry for an even place writes that place. -/
theorem takeRelrEntry_address (heven : isEven place = true) :
    WritesPlaces w free 1 [place] (w.takeRelrEntry free place) := by
  cases free with
  | zero => exact ⟨fun h => absurd h (by omega), fun _ => rfl⟩
  | succ n =>
    refine ⟨fun _ => ?_, fun h => absurd h (by omega)⟩
    refine ⟨_, rfl, rfl, by simp, ?_⟩
    show (decode (w.relrWords ++ [place])).Perm _
    rw [decode_append_address _ (isEven_getLsbD heven)]

/-- **A flat GOT entry** takes one word. -/
theorem writeRelrEntryFlat_writes (hfree : w.relrDyn = some free) (relativeAddress : Word)
    (heven : isEven place = true) :
    WritesPlaces w free 1 [place] (w.perform (.flatGotEntry place relativeAddress)) := by
  have hperform : w.perform (.flatGotEntry place relativeAddress) = w.takeRelrEntry free place := by
    simp only [perform, writeRelrEntryFlat, hfree, heven]
    cases w.takeRelrEntry free place with
    | error e => rfl
    | ok w' => rfl
  rw [hperform]
  exact takeRelrEntry_address heven

/-! ## The relocations of a section -/

/-- What holds between two relocations of one section, after the places `seen`. -/
def SectionInv (w : TableWriter) (seen : List Word) : Prop :=
  RunInv w.relrWords seen w.relrWriter ∧
  ∀ b, w.relrWriter = .withBitmap b → w.currentRelrDyn = some (w.relrWords.length - 1)

theorem resetRelrRun_sectionInv (w : TableWriter) : SectionInv w.resetRelrRun [] := by
  refine ⟨trivial, ?_⟩
  intro b hb
  exact absurd hb (by simp [resetRelrRun])

/-- Replacing the last word in place is what `update` means. -/
theorem set_last_eq_applyEntry (ws : List Word) (a w : Word) :
    (ws ++ [a]).set ((ws ++ [a]).length - 1) w = applyEntry (ws ++ [a]) w .update := by
  simp [applyEntry]

/-- The closure of `write_address_relocation` does what the encoder asks for. -/
theorem storeEncoded_spec {seen : List Word} (place : Word) (hfree : w.relrDyn = some free) (hinv : SectionInv w seen) :
    let r := encode w.relrWriter place
    (r.2.2.cost ≤ free → ∃ w', w.storeEncoded free r.2.1 r.2.2 = .ok w' ∧
      w'.relrDyn = some (free - r.2.2.cost) ∧
      w'.relrWords = applyEntry w.relrWords r.2.1 r.2.2 ∧
      w'.relrWords.length = w.relrWords.length + r.2.2.cost ∧
      w'.currentRelrDyn = some (w'.relrWords.length - 1)) ∧
    (free < r.2.2.cost →
      w.storeEncoded free r.2.1 r.2.2 = .error (.insufficientAllocation ".relr.dyn")) := by
  intro r
  cases hkind : r.2.2 with
  | new =>
    cases free with
    | zero => exact ⟨fun h => absurd h (by simp [RelrEntryEncoding.cost]), fun _ => rfl⟩
    | succ n =>
      refine ⟨fun _ => ⟨_, rfl, rfl, rfl, ?_, ?_⟩, fun h => absurd h ?_⟩
      · simp [RelrEntryEncoding.cost]
      · simp
      · simp [RelrEntryEncoding.cost]
  | update =>
    refine ⟨fun _ => ?_, fun h => absurd h (by simp [RelrEntryEncoding.cost])⟩
    obtain ⟨b, hb⟩ := encode_update hkind
    have hcurrent := hinv.2 b hb
    have hrun := hinv.1
    rw [hb] at hrun
    obtain ⟨_, ws₀, hws, _⟩ := hrun
    refine ⟨{ w with relrWords := w.relrWords.set (w.relrWords.length - 1) r.2.1 }, ?_, hfree, ?_, ?_, ?_⟩
    · simp only [storeEncoded, hcurrent]
    · show w.relrWords.set (w.relrWords.length - 1) r.2.1 = applyEntry w.relrWords r.2.1 .update
      rw [hws]
      exact set_last_eq_applyEntry ws₀ b.encoded r.2.1
    · simp [RelrEntryEncoding.cost]
    · simp [hcurrent]

/-- **One relocation of a section**: the entry is written, and the invariant of the section goes on. -/
theorem writeAddressRelocation_spec {seen : List Word} (hfree : w.relrDyn = some free) (hinv : SectionInv w seen)
    (relativeAddress : Word) (heven : isEven place = true) (hnew : place ∉ seen) :
    let r := encode w.relrWriter place
    (r.2.2.cost ≤ free → ∃ w', w.writeAddressRelocation place relativeAddress = .ok (w', relativeAddress) ∧
      w'.relrDyn = some (free - r.2.2.cost) ∧ w'.relrWriter = r.1 ∧
      w'.relrWords.length = w.relrWords.length + r.2.2.cost ∧
      (decode w'.relrWords).Perm (decode w.relrWords ++ [place]) ∧ SectionInv w' (place :: seen)) ∧
    (free < r.2.2.cost →
      w.writeAddressRelocation place relativeAddress = .error (.insufficientAllocation ".relr.dyn")) := by
  intro r
  obtain ⟨hok, herr⟩ := storeEncoded_spec place hfree hinv
  have hstep := encode_step hinv.1 (isEven_getLsbD heven) hnew
  simp only [writeAddressRelocation, hfree, heven]
  refine ⟨fun hcost => ?_, fun hcost => ?_⟩
  · obtain ⟨w', hw', hfree', hwords, hlen, hcurrent⟩ := hok hcost
    refine ⟨{ w' with relrWriter := r.1 }, ?_, hfree', rfl, hlen, ?_, ?_, ?_⟩
    · rw [hw']; rfl
    · show (decode w'.relrWords).Perm _
      rw [hwords]
      exact hstep.2.trans (List.perm_append_singleton place (decode w.relrWords)).symm
    · show RunInv w'.relrWords (place :: seen) r.1
      rw [hwords]
      exact hstep.1
    · intro b _
      exact hcurrent
  · rw [herr hcost]; rfl

/-- **The relocations of a section** from any point of it. -/
theorem writeAddressRelocations_writes (relocations : List (Word × Word)) :
    ∀ {w : TableWriter} {seen : List Word} {free : Nat}, w.relrDyn = some free → SectionInv w seen →
      (relocations.map Prod.fst).Nodup → (∀ r ∈ relocations, isEven r.1 = true) →
      (∀ r ∈ relocations, r.1 ∉ seen) →
      WritesPlaces w free (sectionEntries w.relrWriter (relocations.map Prod.fst))
        (relocations.map Prod.fst) (w.writeAddressRelocations relocations) := by
  induction relocations with
  | nil =>
    intro w seen free hfree _ _ _ _
    exact writesPlaces_pure hfree
  | cons rel rest ih =>
    obtain ⟨place, relativeAddress⟩ := rel
    intro w seen free hfree hinv hnodup heven hnew
    obtain ⟨hplace, hrest⟩ := List.nodup_cons.mp hnodup
    obtain ⟨hok, herr⟩ := writeAddressRelocation_spec hfree hinv relativeAddress
      (heven _ List.mem_cons_self) (hnew _ List.mem_cons_self)
    have hfirst : WritesPlaces w free (encode w.relrWriter place).2.2.cost [place]
        ((w.writeAddressRelocation place relativeAddress).map Prod.fst) := by
      refine ⟨fun hcost => ?_, fun hcost => ?_⟩
      · obtain ⟨w', hw', hfree', _, hlen, hperm, _⟩ := hok hcost
        exact ⟨w', by rw [hw']; rfl, hfree', hlen, hperm⟩
      · rw [herr hcost]; rfl
    have hbind : w.writeAddressRelocations ((place, relativeAddress) :: rest)
        = (w.writeAddressRelocation place relativeAddress).map Prod.fst
            >>= fun w' => w'.writeAddressRelocations rest := by
      simp only [writeAddressRelocations]
      cases w.writeAddressRelocation place relativeAddress with
      | error e => rfl
      | ok p => rfl
    rw [hbind]
    refine writesPlaces_bind hfirst ?_
    intro w' hw' hfree'
    by_cases hcost : (encode w.relrWriter place).2.2.cost ≤ free
    · obtain ⟨w'', hw'', _, hwriter, _, _, hinv'⟩ := hok hcost
      rw [hw''] at hw'
      obtain rfl : w'' = w' := Except.ok.inj hw'
      rw [← hwriter]
      refine ih hfree' hinv' hrest (fun r hr => heven r (List.mem_cons_of_mem _ hr)) ?_
      intro r hr hseen
      rcases List.mem_cons.mp hseen with heq | hseen
      · exact hplace (List.mem_map.mpr ⟨r, hr, heq⟩)
      · exact hnew r (List.mem_cons_of_mem _ hr) hseen
    · rw [herr (Nat.lt_of_not_le hcost)] at hw'
      exact absurd hw' (by simp [Except.map])

/-! ## The GOT_RELR block -/

theorem getLsbD_gotRelrBitmap_zero (k : Nat) : (gotRelrBitmap k).getLsbD 0 = true := by
  unfold gotRelrBitmap
  rw [BitVec.getLsbD_or, Bool.or_eq_true]
  exact Or.inr rfl

/-- Bit `i + 1` of the bitmap covers slot `i`: it is set for the first `k` slots. -/
theorem getLsbD_gotRelrBitmap_succ {k i : Nat} (hk : k ≤ slots) (hi : i < slots) :
    (gotRelrBitmap k).getLsbD (i + 1) = decide (i < k) := by
  unfold slots at hk hi
  have hpow : ((1 : Word) <<< k) - 1 = BitVec.ofNat 64 (2 ^ k - 1) := by
    have hlt : 2 ^ k < 2 ^ 64 := Nat.pow_lt_pow_right (by decide) (by omega)
    have hpos : 0 < 2 ^ k := Nat.two_pow_pos k
    have hone : (1 : Word).toNat = 1 := rfl
    apply BitVec.eq_of_toNat_eq
    rw [BitVec.toNat_sub, BitVec.toNat_shiftLeft, hone, BitVec.toNat_ofNat, Nat.shiftLeft_eq,
      Nat.one_mul, Nat.mod_eq_of_lt hlt]
    omega
  unfold gotRelrBitmap
  rw [hpow, BitVec.getLsbD_or, BitVec.getLsbD_shiftLeft, BitVec.getLsbD_ofNat,
    Nat.testBit_two_pow_sub_one]
  simp [BitVec.getLsbD_one, show i < 64 by omega]
  omega

/-- The places of the full bitmap over `k` slots. -/
theorem bitmapPlaces_gotRelrBitmap (pos : Word) {k : Nat} (hk : k ≤ slots) :
    bitmapPlaces pos (gotRelrBitmap k) = (List.range k).map (slotPlace pos) := by
  have hbits : (List.range slots).filter (fun i => (gotRelrBitmap k).getLsbD (i + 1))
      = (List.range slots).filter (fun i => decide (i < k)) := by
    apply List.filter_congr
    intro i hi
    exact getLsbD_gotRelrBitmap_succ hk (List.mem_range.mp hi)
  have hsplit : List.range slots = List.range k ++ (List.range (slots - k)).map (k + ·) := by
    rw [← List.range_add, Nat.add_sub_cancel' hk]
  unfold bitmapPlaces
  rw [hbits, hsplit, List.filter_append]
  have hall : (List.range k).filter (fun i => decide (i < k)) = List.range k := by
    apply List.filter_eq_self.mpr
    intro i hi
    exact decide_eq_true (List.mem_range.mp hi)
  have hnone : ((List.range (slots - k)).map (k + ·)).filter (fun i => decide (i < k)) = [] := by
    apply List.filter_eq_nil_iff.mpr
    intro i hi
    obtain ⟨j, _, rfl⟩ := List.mem_map.mp hi
    simp
  rw [hall, hnone, List.append_nil]

theorem slotPlace_slotPlace (pos : Word) (i j : Nat) :
    slotPlace (slotPlace pos i) j = slotPlace pos (i + j) := by
  unfold slotPlace
  rw [BitVec.add_assoc, ← BitVec.ofNat_add, Nat.mul_add]

/-- The places of `a + b` slots are those of the first `a` and of the `b` slots after them. -/
theorem map_slotPlace_range_add (pos : Word) (a b : Nat) :
    (List.range (a + b)).map (slotPlace pos)
      = (List.range a).map (slotPlace pos) ++ (List.range b).map (slotPlace (slotPlace pos a)) := by
  have htail : ((List.range b).map (a + ·)).map (slotPlace pos)
      = (List.range b).map (slotPlace (slotPlace pos a)) := by
    rw [List.map_map]
    apply List.map_congr_left
    intro i _
    exact (slotPlace_slotPlace pos a i).symm
  rw [List.range_add, List.map_append, htail]

/-- The full bitmap over `k` slots takes an entry and writes the `k` places after the position. -/
theorem takeRelrEntry_gotRelrBitmap {k : Nat} (hk : k ≤ slots) :
    WritesPlaces w free 1 ((List.range k).map (slotPlace (posAfter 0 w.relrWords)))
      (w.takeRelrEntry free (gotRelrBitmap k)) := by
  cases free with
  | zero => exact ⟨fun h => absurd h (by omega), fun _ => rfl⟩
  | succ n =>
    refine ⟨fun _ => ?_, fun h => absurd h (by omega)⟩
    refine ⟨_, rfl, rfl, by simp, ?_⟩
    show (decode (w.relrWords ++ [gotRelrBitmap k])).Perm _
    rw [decode_append_bitmap _ (getLsbD_gotRelrBitmap_zero k), bitmapPlaces_gotRelrBitmap _ hk]

/-- The number of bitmaps for `remaining` slots. -/
def bitmapCount (remaining : Nat) : Nat := (remaining + (relrBitmapSlots - 1)) / relrBitmapSlots

theorem takeRelrEntry_relrWords {w' : TableWriter} {word : Word} (h : w.takeRelrEntry free word = .ok w') :
    w'.relrWords = w.relrWords ++ [word] ∧ w'.relrDyn = some (free - 1) := by
  cases free with
  | zero => exact absurd h (by simp [takeRelrEntry])
  | succ n =>
    rw [← Except.ok.inj h]
    exact ⟨rfl, rfl⟩

/-- **The loop of `write_got_relr_bitmap`**, by induction on the slots that remain. -/
theorem writeGotRelrBitmaps_writes (remaining : Nat) :
    ∀ {w : TableWriter} {free : Nat}, w.relrDyn = some free →
      WritesPlaces w free (bitmapCount remaining)
        ((List.range remaining).map (slotPlace (posAfter 0 w.relrWords)))
        (w.writeGotRelrBitmaps free remaining) := by
  induction remaining using Nat.strongRecOn with
  | ind remaining ih =>
    intro w free hfree
    rw [writeGotRelrBitmaps]
    by_cases hzero : remaining = 0
    · subst hzero
      exact writesPlaces_pure hfree
    · rw [if_neg hzero]
      have hcount : bitmapCount remaining = 1 + bitmapCount (remaining - relrBitmapSlots) := by
        unfold bitmapCount relrBitmapSlots
        omega
      have hslots : min remaining relrBitmapSlots ≤ slots := Nat.min_le_right _ _
      have hrange : (List.range remaining).map (slotPlace (posAfter 0 w.relrWords))
          = (List.range (min remaining relrBitmapSlots)).map (slotPlace (posAfter 0 w.relrWords))
            ++ (List.range (remaining - relrBitmapSlots)).map
                (slotPlace (slotPlace (posAfter 0 w.relrWords) slots)) := by
        by_cases hle : remaining ≤ relrBitmapSlots
        · rw [Nat.min_eq_left hle, Nat.sub_eq_zero_of_le hle, List.range_zero, List.map_nil,
            List.append_nil]
        · have hsum : remaining = slots + (remaining - relrBitmapSlots) := by
            simp only [slots, relrBitmapSlots] at hle ⊢
            omega
          rw [Nat.min_eq_right (by omega)]
          conv_lhs => rw [hsum]
          exact map_slotPlace_range_add _ _ _
      rw [hcount, hrange]
      refine writesPlaces_bind (takeRelrEntry_gotRelrBitmap hslots) ?_
      intro w' hw' hfree'
      obtain ⟨hwords, _⟩ := takeRelrEntry_relrWords hw'
      have hpos : posAfter 0 w'.relrWords = slotPlace (posAfter 0 w.relrWords) slots := by
        rw [hwords, posAfter_append_bitmap _ (getLsbD_gotRelrBitmap_zero _)]
      rw [← hpos]
      exact ih (remaining - relrBitmapSlots) (by unfold relrBitmapSlots; omega) hfree'

/-- **The GOT_RELR block** takes as many words as layout counts for it. -/
theorem writeGotRelrBitmap_writes (hfree : w.relrDyn = some free) (n : Nat) {base : Word} (hbase : base ≠ 0)
    (haligned : base.toNat % 8 = 0) :
    WritesPlaces w free (gotRelrBitmapRelrCount n) ((List.range n).map (slotPlace base))
      (w.writeGotRelrBitmap n base) := by
  unfold writeGotRelrBitmap
  cases n with
  | zero =>
    rw [if_pos (Or.inr rfl)]
    exact writesPlaces_pure hfree
  | succ m =>
    rw [if_neg (not_or.mpr ⟨hbase, Nat.succ_ne_zero m⟩), hfree]
    have heven : isEven base = true := by unfold isEven; rw [decide_eq_true_eq]; omega
    have hcount : gotRelrBitmapRelrCount (m + 1) = 1 + bitmapCount m := by
      unfold gotRelrBitmapRelrCount bitmapCount
      rw [if_neg (Nat.succ_ne_zero m), Nat.add_sub_cancel]
    have hrange : (List.range (m + 1)).map (slotPlace base)
        = [base] ++ (List.range m).map (slotPlace (base + 8)) := by
      rw [Nat.add_comm m 1, map_slotPlace_range_add]
      simp [slotPlace]
    rw [hcount, hrange]
    refine writesPlaces_bind (takeRelrEntry_address heven) ?_
    intro w' hw' hfree'
    obtain ⟨hwords, _⟩ := takeRelrEntry_relrWords hw'
    have hpos : posAfter 0 w'.relrWords = base + 8 := by
      rw [hwords, posAfter_append_address _ (isEven_getLsbD heven)]
    rw [← hpos]
    exact writeGotRelrBitmaps_writes m hfree'

/-! ## A whole output -/

/-- One operation adds its places and takes the entries that layout counts for it. -/
theorem perform_writes (hfree : w.relrDyn = some free) {op : WriteOp} (hop : op.WellFormed) :
    WritesPlaces w free op.entries op.places (w.perform op) := by
  cases op with
  | inputSection relocations =>
    obtain ⟨hnodup, heven⟩ := hop
    exact writeAddressRelocations_writes relocations (w := w.resetRelrRun) hfree
      (resetRelrRun_sectionInv w) hnodup heven (fun _ _ h => absurd h List.not_mem_nil)
  | flatGotEntry place relativeAddress => exact writeRelrEntryFlat_writes hfree relativeAddress hop
  | gotRelrBlock n base => exact writeGotRelrBitmap_writes hfree n hop.1 hop.2

theorem run_writes (ops : List WriteOp) :
    ∀ {w : TableWriter} {free : Nat}, w.relrDyn = some free → (∀ op ∈ ops, op.WellFormed) →
      WritesPlaces w free (ops.map WriteOp.entries).sum (ops.flatMap WriteOp.places) (w.run ops) := by
  induction ops with
  | nil =>
    intro w free hfree _
    exact writesPlaces_pure hfree
  | cons op ops ih =>
    intro w free hfree hops
    refine writesPlaces_bind (perform_writes hfree (hops op List.mem_cons_self)) ?_
    intro w' _ hfree'
    exact ih hfree' (fun op' hop' => hops op' (List.mem_cons_of_mem _ hop'))

/-- **The `.relr.dyn` words decode to the places written**, each exactly once, whatever the order of
    sections, flat entries and blocks: a run that ends has written them all, a run with the allocation
    that layout computes does end, and a `GOT_RELR` block takes as many words as layout counts. -/
theorem relr_words_decode_to_places {relrEntries : Nat} (hrelr : relrEntries ≠ 0) (relaEntries : Nat)
    (ops : List WriteOp) (hops : ∀ op ∈ ops, op.WellFormed) :
    (∀ w, (new true relrEntries relaEntries).run ops = .ok w →
      (decode w.relrWords).Perm (ops.flatMap WriteOp.places)) ∧
    ((ops.map WriteOp.entries).sum ≤ relrEntries →
      ∃ w, (new true relrEntries relaEntries).run ops = .ok w) ∧
    (∀ (w w' : TableWriter) (n : Nat) (base : Word), w.relrDyn.isSome = true → base ≠ 0 →
      base.toNat % 8 = 0 → w.writeGotRelrBitmap n base = .ok w' →
      w'.relrWords.length = w.relrWords.length + gotRelrBitmapRelrCount n) := by
  have hnew : (new true relrEntries relaEntries).relrDyn = some relrEntries := by
    simp [new, hrelr]
  obtain ⟨hok, herr⟩ := run_writes ops hnew hops
  refine ⟨?_, ?_, ?_⟩
  · intro w hw
    by_cases hcost : (ops.map WriteOp.entries).sum ≤ relrEntries
    · obtain ⟨w', hw', _, _, hperm⟩ := hok hcost
      rw [hw] at hw'
      obtain rfl : w = w' := Except.ok.inj hw'
      exact hperm
    · rw [herr (Nat.lt_of_not_le hcost)] at hw
      exact absurd hw (by simp)
  · intro hcost
    obtain ⟨w', hw', _⟩ := hok hcost
    exact ⟨w', hw'⟩
  · intro w w' n base hsome hbase haligned hw'
    obtain ⟨free, hfree⟩ := Option.isSome_iff_exists.mp hsome
    obtain ⟨hok, herr⟩ := writeGotRelrBitmap_writes hfree n hbase haligned
    by_cases hcost : gotRelrBitmapRelrCount n ≤ free
    · obtain ⟨w'', hw'', _, hlen, _⟩ := hok hcost
      rw [hw'] at hw''
      obtain rfl : w' = w'' := Except.ok.inj hw''
      exact hlen
    · rw [herr (Nat.lt_of_not_le hcost)] at hw'
      exact absurd hw' (by simp)

/-- Two sections (one with a bitmap that is updated and a gap of 63 words), a flat entry and a block. -/
theorem relr_words_decode_to_places_witness :
    let ops : List WriteOp :=
      [.inputSection [(0x1000, 7), (0x1008, 8), (0x1018, 9), (0x1200, 1)],
       .flatGotEntry 0x3000 5, .inputSection [(0x2002, 3), (0x2000, 4)], .gotRelrBlock 70 0x4000]
    ∀ w, (new true 9 0).run ops = .ok w → (decode w.relrWords).Perm (ops.flatMap WriteOp.places) := by
  intro ops
  refine (relr_words_decode_to_places (by decide) 0 ops ?_).1
  intro op hop
  simp only [ops, List.mem_cons, List.not_mem_nil, or_false] at hop
  rcases hop with rfl | rfl | rfl | rfl
  · exact ⟨by decide, by simp [isEven]⟩
  · exact (by decide : isEven 0x3000 = true)
  · exact ⟨by decide, by simp [isEven]⟩
  · exact ⟨by decide, by decide⟩

end TableWriter

end Reld
