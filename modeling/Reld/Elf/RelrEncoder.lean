import Reld.Lib.RelrFormat

/-!
# `Elf.RelrEncoder` — bitmap packing of relative relocations

`RelrEncoder::encode` turns the places of one input section into `.relr.dyn` words. It is a three-state
machine: no run, a run of one address, a run that ends in a bitmap. A call emits exactly one entry, which
either is a **new** word or **updates** the word emitted last.

The invariant `RunInv` ties the state of the machine to the loader's position: the window of the candidate
bitmap starts where the loader stands after the words already emitted, and a bitmap in progress holds only
places of the current run.
-/

namespace Reld

open RelrFormat

/-- `RELR_TYPE_BYTE_SIZE`. -/
def relrTypeByteSize : Word := 8

/-- `RELR_BITMAP_SLOTS`: one bit of the word is the marker. -/
def relrBitmapSlots : Nat := 63

/-- `RELR_ADDRESS_RANGE`. -/
def relrAddressRange : Word := 504

/-- A candidate bitmap word over the places `rangeStart..rangeEnd`. -/
structure RelrBitmap where
  rangeStart : Word
  rangeEnd : Word
  encoded : Word
deriving DecidableEq

namespace RelrBitmap

/-- Bitmap starting after the current address. -/
def after (address : Word) : RelrBitmap :=
  let start := address + relrTypeByteSize
  { rangeStart := start, rangeEnd := start + relrAddressRange, encoded := 1 }

/-- Bitmap that will follow after the current bitmap range. -/
def next (b : RelrBitmap) : RelrBitmap :=
  { rangeStart := b.rangeStart + relrAddressRange
    rangeEnd := b.rangeEnd + relrAddressRange
    encoded := 1 }

/-- Encode `address` if it is properly aligned and fits in the range; `none` is the source's `false`. -/
def insert (b : RelrBitmap) (address : Word) : Option RelrBitmap :=
  let offset := address - b.rangeStart
  if ¬(b.rangeStart ≤ address ∧ address < b.rangeEnd) ∨ offset % relrTypeByteSize ≠ 0 then none
  else some { b with encoded := b.encoded ||| ((1 : Word) <<< (offset.toNat / 8 + 1)) }

end RelrBitmap

/-- Packing state within one input section. -/
inductive RelrState where
  | noRun
  | addressOnly (nextBitmap : RelrBitmap)
  | withBitmap (bitmap : RelrBitmap)
deriving DecidableEq

/-- Whether an emitted entry is a new word or replaces the word emitted last. -/
inductive RelrEntryEncoding where
  | new
  | update
deriving DecidableEq

/-- A run that starts over at `address`. -/
def startRun (address : Word) : RelrState × Word × RelrEntryEncoding :=
  (.addressOnly (RelrBitmap.after address), address, .new)

/-- `RelrEncoder::encode`: the next state and the single call of `encode_fn`. -/
def encode (state : RelrState) (address : Word) : RelrState × Word × RelrEntryEncoding :=
  match state with
  | .noRun => startRun address
  | .addressOnly nextBitmap =>
    match nextBitmap.insert address with
    | some bitmap => (.withBitmap bitmap, bitmap.encoded, .new)
    | none => startRun address
  | .withBitmap bitmap =>
    match bitmap.insert address with
    | some bitmap' => (.withBitmap bitmap', bitmap'.encoded, .update)
    | none =>
      -- The current window has bits, so the window after it may be opened.
      match bitmap.next.insert address with
      | some bitmap' => (.withBitmap bitmap', bitmap'.encoded, .new)
      | none => startRun address

/-- The words after an entry: `new` appends, `update` replaces the last word. -/
def applyEntry (ws : List Word) (w : Word) : RelrEntryEncoding → List Word
  | .new => ws ++ [w]
  | .update => ws.dropLast ++ [w]

/-! ## `insert` is `setSlot` on the window -/

/-- The window of `b` is the 63 slots from `pos` on. -/
def WindowAt (b : RelrBitmap) (pos : Word) : Prop :=
  b.rangeStart = pos ∧ b.rangeEnd = pos + relrAddressRange

theorem after_window (address : Word) : WindowAt (RelrBitmap.after address) (address + 8) :=
  ⟨rfl, rfl⟩

variable {b : RelrBitmap} {pos : Word}

theorem next_window (h : WindowAt b pos) :
    WindowAt b.next (slotPlace pos slots) := by
  obtain ⟨hs, he⟩ := h
  constructor
  · simp only [RelrBitmap.next, hs]; rfl
  · simp only [RelrBitmap.next, he]; rfl

variable {address : Word}

/-- An address accepted by a window of 63 slots lies less than 504 bytes into it. -/
theorem offset_lt_of_mem_window (h : pos ≤ address ∧ address < pos + relrAddressRange) :
    (address - pos).toNat < 504 := by
  obtain ⟨hlo, hhi⟩ := h
  simp only [relrAddressRange] at hhi
  bv_omega

variable {b' : RelrBitmap}

theorem insert_some (hw : WindowAt b pos) (h : b.insert address = some b') :
    ∃ i < slots, address = slotPlace pos i ∧ b' = { b with encoded := setSlot b.encoded i } := by
  obtain ⟨hs, he⟩ := hw
  simp only [RelrBitmap.insert] at h
  split at h
  · exact absurd h (by simp)
  · rename_i hcond
    rw [not_or, not_not, not_not, hs, he] at hcond
    obtain ⟨hmem, hmul⟩ := hcond
    have hlt : (address - pos).toNat < 504 := offset_lt_of_mem_window hmem
    have hdvd : (address - pos).toNat % 8 = 0 := by
      have := congrArg BitVec.toNat hmul
      simpa [relrTypeByteSize, BitVec.toNat_umod] using this
    have hb' : b' = { b with encoded := setSlot b.encoded ((address - pos).toNat / 8) } := by
      rw [← Option.some.inj h, hs]; rfl
    refine ⟨(address - pos).toNat / 8, by unfold slots; omega, ?_, hb'⟩
    have hoff : 8 * ((address - pos).toNat / 8) = (address - pos).toNat := by omega
    unfold slotPlace
    bv_omega

/-! ## The invariant of a run -/

/-- How the encoder's state stands to the words `ws` emitted so far and to the places `seen` of the
    current section. -/
def RunInv (ws seen : List Word) : RelrState → Prop
  | .noRun => True
  | .addressOnly b => b.encoded = 1 ∧ WindowAt b (posAfter 0 ws)
  | .withBitmap b =>
    b.encoded.getLsbD 0 = true ∧
    ∃ ws₀, ws = ws₀ ++ [b.encoded] ∧ WindowAt b (posAfter 0 ws₀) ∧
      ∀ p ∈ bitmapPlaces (posAfter 0 ws₀) b.encoded, p ∈ seen

/-- What one call must establish: the invariant again, and exactly one more place. -/
def StepOk (ws seen : List Word) (address : Word) (r : RelrState × Word × RelrEntryEncoding) : Prop :=
  RunInv (applyEntry ws r.2.1 r.2.2) (address :: seen) r.1 ∧
  (decode (applyEntry ws r.2.1 r.2.2)).Perm (address :: decode ws)

/-- Starting a run at an even address is always right. -/
theorem startRun_step (ws seen : List Word) (heven : address.getLsbD 0 = false) :
    StepOk ws seen address (startRun address) := by
  constructor
  · refine ⟨rfl, ?_⟩
    show WindowAt (RelrBitmap.after address) (posAfter 0 (ws ++ [address]))
    rw [posAfter_append_address ws heven]
    exact after_window address
  · show (decode (ws ++ [address])).Perm (address :: decode ws)
    rw [decode_append_address ws heven]
    exact List.perm_append_singleton address (decode ws)

/-- The places of a bitmap that was the empty bitmap before slot `i` was set. -/
theorem mem_bitmapPlaces_setSlot_one {p : Word} {i : Nat} (hi : i < slots) (hp : p ∈ bitmapPlaces pos (setSlot 1 i)) :
    p = slotPlace pos i := by
  have hclear : (1 : Word).getLsbD (i + 1) = false := by simp [BitVec.getLsbD_one]
  have hmem := (bitmapPlaces_setSlot pos 1 hi hclear).mem_iff.mp hp
  exact List.mem_singleton.mp hmem

/-- Opening a fresh window at the position reached and setting one slot of it. -/
theorem openWindow_step (ws seen : List Word) (hb : b.encoded = 1) (hw : WindowAt b (posAfter 0 ws))
    (h : b.insert address = some b') :
    StepOk ws seen address (.withBitmap b', b'.encoded, .new) := by
  obtain ⟨i, hi, haddr, rfl⟩ := insert_some hw h
  have hbitmap : (setSlot b.encoded i).getLsbD 0 = true := by
    rw [hb]; exact setSlot_isBitmap i (by decide)
  have hclear : b.encoded.getLsbD (i + 1) = false := by rw [hb]; simp [BitVec.getLsbD_one]
  constructor
  · refine ⟨hbitmap, ws, rfl, hw, ?_⟩
    intro p hp
    have hp' : p ∈ bitmapPlaces (posAfter 0 ws) (setSlot 1 i) := by rw [← hb]; exact hp
    rw [mem_bitmapPlaces_setSlot_one hi hp', ← haddr]
    exact List.mem_cons_self
  · show (decode (ws ++ [setSlot b.encoded i])).Perm (address :: decode ws)
    rw [decode_append_bitmap ws hbitmap]
    have hplaces := bitmapPlaces_setSlot (posAfter 0 ws) b.encoded hi hclear
    rw [hb, bitmapPlaces_one, ← hb, ← haddr] at hplaces
    exact (hplaces.append_left (decode ws)).trans (List.perm_append_singleton address (decode ws))

/-- Updating the bitmap in progress with a place that it does not hold yet. -/
theorem updateWindow_step {ws seen : List Word} (hinv : RunInv ws seen (.withBitmap b)) (hnew : address ∉ seen)
    (h : b.insert address = some b') :
    StepOk ws seen address (.withBitmap b', b'.encoded, .update) := by
  obtain ⟨hbit, ws₀, rfl, hw, hseen⟩ := hinv
  obtain ⟨i, hi, haddr, rfl⟩ := insert_some hw h
  have hclear : b.encoded.getLsbD (i + 1) = false := by
    by_contra hset
    have hset' : b.encoded.getLsbD (i + 1) = true := by simpa using hset
    exact hnew (hseen address (mem_bitmapPlaces.mpr ⟨i, hi, hset', haddr.symm⟩))
  have hplaces := bitmapPlaces_setSlot (posAfter 0 ws₀) b.encoded hi hclear
  have hbitmap : (setSlot b.encoded i).getLsbD 0 = true := setSlot_isBitmap i hbit
  have hws : applyEntry (ws₀ ++ [b.encoded]) (setSlot b.encoded i) .update
      = ws₀ ++ [setSlot b.encoded i] := by
    simp [applyEntry]
  constructor
  · show RunInv (applyEntry (ws₀ ++ [b.encoded]) (setSlot b.encoded i) .update) _ _
    rw [hws]
    refine ⟨hbitmap, ws₀, rfl, hw, ?_⟩
    intro p hp
    rcases List.mem_cons.mp (hplaces.mem_iff.mp hp) with rfl | hp'
    · rw [← haddr]; exact List.mem_cons_self
    · exact List.mem_cons_of_mem _ (hseen p hp')
  · show (decode (applyEntry (ws₀ ++ [b.encoded]) (setSlot b.encoded i) .update)).Perm _
    rw [hws, decode_append_bitmap ws₀ hbitmap, decode_append_bitmap ws₀ hbit]
    rw [← haddr] at hplaces
    exact (hplaces.append_left (decode ws₀)).trans List.perm_middle

/-- **One call of the encoder** on an even place that the section has not emitted yet. -/
theorem encode_step {ws seen : List Word} {state : RelrState} (hinv : RunInv ws seen state)
    (heven : address.getLsbD 0 = false) (hnew : address ∉ seen) :
    StepOk ws seen address (encode state address) := by
  cases state with
  | noRun => exact startRun_step ws seen heven
  | addressOnly b =>
    obtain ⟨hb, hw⟩ := hinv
    simp only [encode]
    split
    · rename_i b' hins
      exact openWindow_step ws seen hb hw hins
    · exact startRun_step ws seen heven
  | withBitmap b =>
    simp only [encode]
    split
    · rename_i b' hins
      exact updateWindow_step hinv hnew hins
    · split
      · rename_i b' hins
        obtain ⟨hbit, ws₀, rfl, hw, _⟩ := hinv
        refine openWindow_step (ws₀ ++ [b.encoded]) seen rfl ?_ hins
        rw [posAfter_append_bitmap ws₀ hbit]
        exact next_window hw
      · exact startRun_step ws seen heven

/-- `update` is emitted only from a bitmap in progress, so a word to update exists. -/
theorem encode_update {state : RelrState} (h : (encode state address).2.2 = .update) : ∃ b, state = .withBitmap b := by
  cases state with
  | noRun => exact absurd h (by simp [encode, startRun])
  | addressOnly b =>
    simp only [encode] at h
    split at h
    · exact absurd h (by simp)
    · exact absurd h (by simp [startRun])
  | withBitmap b => exact ⟨b, rfl⟩

end Reld
