import Reld.Relax.LuiUsers

/-!
# `Relax.CallBytes` — recognising a relaxed call by its bytes

When the writer gets to a call it does not ask the deltas whether the `jalr` is gone: `is_jalr_deleted` looks at the
word behind the `auipc`. After the deletion that is whatever follows the pair, and it may be a `jalr` too, as in
`call f; ret`. The `jal` gets the register of the `auipc`, where the `jalr` may have had another one. All
calls are read as they are exactly if each is `Readable` (`calls_read_iff`).
-/

/-! ## What is behind a deletion -/

namespace Deletions

variable {α : Type}

/-- The rest of a list behind a deletion. -/
theorem compactFrom_behind {xs : List α} {ds : List (Nat × Nat)} {pos o t : Nat} (hs : Separated ds)
    (hpos : ∀ d ∈ ds, pos ≤ d.1) (hbytes : ∀ d ∈ ds, 0 < d.2) (ho : o ≤ xs.length) (h : (o, t) ∈ ds) :
    ∃ pre, compactFrom xs pos ds = pre ++ compactFrom xs (o + t) (ds.filter fun d => decide (o + t ≤ d.1)) ∧
      pos + pre.length + before ds o = o := by
  induction ds generalizing pos with
  | nil => cases h
  | cons d ds ih =>
    obtain ⟨hd, hs⟩ := List.pairwise_cons.mp hs
    have hposd := hpos d List.mem_cons_self
    have hbytesd := hbytes d List.mem_cons_self
    rcases List.mem_cons.mp h with rfl | h
    · -- what follows starts behind it
      refine ⟨(xs.take o).drop pos, ?_, ?_⟩
      · rw [List.filter_cons_of_neg (by simp only [decide_eq_true_eq]; omega), List.filter_eq_self.mpr]
        · rfl
        · exact fun e he => decide_eq_true (hd e he)
      · rw [before_cons, if_neg (Nat.lt_irrefl o), before_eq_zero (fun e he => by have := hd e he; omega),
          List.length_drop, List.length_take]
        omega
    · have hle := hd _ h
      obtain ⟨pre, heq, hlen⟩ := ih hs hd (fun e he => hbytes e (List.mem_cons_of_mem _ he)) h
      refine ⟨(xs.take d.1).drop pos ++ pre, ?_, ?_⟩
      · rw [compactFrom, heq, List.append_assoc,
          List.filter_cons_of_neg (by simp only [decide_eq_true_eq]; omega)]
      · rw [List.length_append, List.length_drop, List.length_take, before_cons, if_pos (by omega)]
        omega

end Deletions

namespace Reld

open SectionRelaxDeltas LittleEndian RiscVInstruction BitFields

/-! ## Words and registers -/

section Words

variable {out out' : Bytes} {offset : Nat} {f : BitVec 64 → BitVec 64}

/-- The opcode of an instruction. -/
def opcodeOf (word : BitVec 64) : BitVec 64 := extractBitRange word 0 7

/-- A `jalr` to a register. -/
def IsJalr (word base : BitVec 64) : Prop := opcodeOf word = 0x67 ∧ rs1Of word = base

instance (word base : BitVec 64) : Decidable (IsJalr word base) := inferInstanceAs (Decidable (_ ∧ _))

theorem wordAt_drop (out : Bytes) (offset n : Nat) : wordAt (out.drop offset) n = wordAt out (offset + n) := by
  unfold wordAt
  rw [List.drop_drop]

/-- A field of a word is in its first four bytes. -/
theorem field_wordAt_congr {bytes bytes' : Bytes} {start stop : Nat} (hstop : stop ≤ 32)
    (h : bytes.take 4 = bytes'.take 4) :
    extractBitRange (wordAt bytes 0) start stop = extractBitRange (wordAt bytes' 0) start stop := by
  refine extractBitRange_congr (by omega) fun i _ hi => ?_
  rw [getLsbD_wordAt, getLsbD_wordAt, ← bitAt_take (show 8 * 0 + i < 8 * 4 by omega), h,
    bitAt_take (by omega)]

theorem isJalrDeleted_iff :
    isJalrDeleted out offset = true ↔
      ¬(offset + 8 ≤ out.length ∧ IsJalr (wordAt out (offset + 4)) (rdOf (wordAt out offset))) := by
  unfold isJalrDeleted IsJalr opcodeOf
  split_ifs with h
  · simp [Nat.not_le_of_lt h]
  · simp [Nat.le_of_not_lt h, imp_iff_not_or]

/-- The word that `CallToJal` and then the value of the relocation make of an `auipc`. -/
def jalWord (value word : BitVec 64) : BitVec 64 := writeToValue .jType value false (0x6f#64 ||| rdOf word <<< 7)

theorem rdOf_jalWord (value word : BitVec 64) : rdOf (jalWord value word) = rdOf word := by
  have hfits : ∀ f ∈ jTypeFields, f.Fits 64 := by decide
  refine extractBitRange_congr (by decide) fun i hlo hi => ?_
  have hcovers : covers jTypeFields i = false := by
    simp only [covers, jTypeFields, List.any_cons, List.any_nil, BitField.holds, Bool.or_false, Bool.or_eq_false_iff,
      decide_eq_false_iff_not]
    omega
  have hopcode : (0x6f#64).getLsbD i = false := by
    obtain rfl | rfl | rfl | rfl | rfl : i = 7 ∨ i = 8 ∨ i = 9 ∨ i = 10 ∨ i = 11 := by omega
    all_goals rfl
  show (writeJType value _).getLsbD i = _
  rw [writeJType_eq, write_outside hfits _ _ hcovers, BitVec.getLsbD_or, hopcode, Bool.false_or,
    BitVec.getLsbD_shiftLeft, rdOf, getLsbD_extractBitRange (by decide)]
  simp [show ¬i < 7 by omega, show i < 64 by omega, show i - 7 < 5 by omega, show 7 + (i - 7) = i by omega]

/-- What a patch leaves behind it. -/
theorem patchWord_drop {bytes : Nat} (h : patchWord bytes f out offset = some out') :
    out'.drop (offset + bytes) = out.drop (offset + bytes) := by
  unfold patchWord at h
  split_ifs at h with hle
  cases h
  unfold overwrite
  rw [length_leBytes, List.drop_left']
  rw [List.length_append, length_leBytes, List.length_take]
  omega

theorem rdOf_patchWord (h : patchWord 4 f out offset = some out') :
    rdOf (wordAt out' offset) = rdOf (f (wordAt out offset)) := by
  refine extractBitRange_congr (by decide) fun i _ hi => ?_
  rw [getLsbD_wordAt, patchWord_bit h (by omega), decide_eq_true (by omega : i < 64), Bool.true_and]

/-- A call that the writer takes for a `jal` gets that word. -/
theorem applyCall_jal {ctx : RelocationContext} {rel : Relocation} (hplain : ctx.interposable rel = false)
    (hzero : ctx.nonZero rel = true) (hdeleted : isJalrDeleted out offset = true) {value : BitVec 64}
    (hvalue : ctx.callValue rel = some value) :
    applyCall ctx rel out offset = (patchWord 4 (jalWord value) out offset).map (true, ·) := by
  have hform : callForm ctx out offset rel = .jal := by simp [callForm, hplain, hzero, hdeleted]
  unfold applyCall
  rw [hform, hvalue]
  rfl

end Words

/-! ## A call and what follows it -/

/-- The bytes that follow a relaxed call in the output. -/
def behindCall (input : Bytes) (d : SectionRelaxDeltas) (callOffset : Nat) : Bytes :=
  Deletions.compactFrom input (callOffset + 8) (d.raw.filter fun e => decide (callOffset + 8 ≤ e.1))

/-- A call whose `auipc` has the register `rd` can be read off the bytes behind it. -/
def Readable (input : Bytes) (d : SectionRelaxDeltas) (callOffset : Nat) (rd : BitVec 64) : Prop :=
  if d.hasDeltaAt (callOffset + 4) then
    ¬(4 ≤ (behindCall input d callOffset).length ∧ IsJalr (wordAt (behindCall input d callOffset) 0) rd) ∧
      rd = rdOf (wordAt input (callOffset + 4))
  else IsJalr (wordAt input (callOffset + 4)) rd

/-- The writer finds out whether the call is relaxed, and if it is, the `jal` links to the register of the `jalr` and
    what follows stays as it is. -/
def ReadsRelaxation (input : Bytes) (d : SectionRelaxDeltas) (callOffset : Nat) (out out' : Bytes) : Prop :=
  (isJalrDeleted out (d.inputToOutputOffset callOffset) = true ↔ d.hasDeltaAt (callOffset + 4) = true) ∧
    (d.hasDeltaAt (callOffset + 4) = true →
      rdOf (wordAt out' (d.inputToOutputOffset callOffset)) = rdOf (wordAt input (callOffset + 4)) ∧
        out'.drop (d.inputToOutputOffset callOffset + 4) = out.drop (d.inputToOutputOffset callOffset + 4))

section Site

variable {ctx : RelocationContext} {s : RelaxSection} {d : SectionRelaxDeltas} {r : Relocation}

theorem Tracked.jalr_mem (ht : Tracked s.relocations d) (hc : s.CodeOrdered ctx) (hr : r ∈ s.relocations)
    (hcall : r.isCall = true) (h4 : d.hasDeltaAt (r.offset + 4) = true) : (r.offset + 4, 4) ∈ d.raw := by
  obtain ⟨hrelax, -, hspan⟩ := @Relocation.call_plain ctx r hcall
  obtain ⟨b, hb⟩ := hasDeltaAt_iff.mp h4
  have hpos := ht.wellFormed.positive _ hb
  rcases ht.outside hc hr hrelax hb with h | h | h
  · simp only at h hpos
    omega
  · -- a deletion behind the `auipc` of a call is the call's own
    exact Relocation.call_owns hcall h ▸ hb
  · simp only at h
    omega

/-- The bytes behind the `auipc` of a call: what follows the pair, or the `jalr` and more. -/
theorem content_behind (ht : Tracked s.relocations d) (hc : s.CodeOrdered ctx) (hr : r ∈ s.relocations)
    (hcall : r.isCall = true) :
    d.inputToOutputOffset r.offset + 4 ≤ (populateSectionOutput s.bytes d).length ∧
    (d.hasDeltaAt (r.offset + 4) = true → (populateSectionOutput s.bytes d).drop
      (d.inputToOutputOffset r.offset + 4) = behindCall s.bytes d r.offset) ∧
    (d.hasDeltaAt (r.offset + 4) = false → ∃ post, (populateSectionOutput s.bytes d).drop
      (d.inputToOutputOffset r.offset + 4) = (s.bytes.take (r.offset + 8)).drop (r.offset + 4) ++ post) := by
  obtain ⟨hrelax, -, hspan⟩ := @Relocation.call_plain ctx r hcall
  have hinside := hc.inside r hr
  rw [hspan] at hinside
  obtain ⟨hfirst, hboth⟩ := ht.call_kept hc hr hcall
  rw [populateSectionOutput_eq, ht.wellFormed.inputToOutputOffset_eq]
  have hauipc : r.offset + 4 ≤ s.bytes.length := by omega
  obtain ⟨pre, post, heq, hpre⟩ := Deletions.compact_range ht.wellFormed.separated (Nat.le_add_right r.offset 4)
    hauipc hfirst
  have hmid : ((s.bytes.take (r.offset + 4)).drop r.offset).length = 4 := by
    rw [List.length_drop, List.length_take]
    omega
  have hlen : (pre ++ (s.bytes.take (r.offset + 4)).drop r.offset).length = Deletions.place d.raw r.offset + 4 := by
    rw [List.length_append, hmid, hpre]
  refine ⟨?_, fun h4 => ?_, fun h4 => ?_⟩
  · rw [heq, List.length_append, hlen]
    exact Nat.le_add_right _ _
  · -- the deletion of the `jalr` starts where the `auipc` ends
    have hb := ht.jalr_mem hc hr hcall h4
    obtain ⟨pre', heq', hlen'⟩ := Deletions.compactFrom_behind ht.wellFormed.separated (fun e _ => Nat.zero_le e.1)
      ht.wellFormed.positive hauipc hb
    have hbefore : Deletions.before d.raw (r.offset + 4) = Deletions.before d.raw r.offset := by
      unfold Deletions.before
      congr 2
      refine List.filter_congr fun e he => ?_
      have := ht.wellFormed.positive e he
      rw [decide_eq_decide]
      rcases hfirst e he with h | h <;> omega
    have hroom := Deletions.before_le ht.wellFormed.separated (fun e _ => Nat.zero_le e.1) (Nat.zero_le r.offset)
      (untouched_shorten hfirst (Nat.zero_le 4))
    have hpre' : Deletions.place d.raw r.offset + 4 = pre'.length := by
      unfold Deletions.place
      omega
    show (Deletions.compactFrom s.bytes 0 d.raw).drop _ = _
    rw [heq', hpre', List.drop_left]
    rfl
  · -- both instructions are copied together
    obtain ⟨pre', post', heq', hpre'⟩ := Deletions.compact_range ht.wellFormed.separated (Nat.le_add_right r.offset 8)
      hinside (hboth h4)
    refine ⟨post', ?_⟩
    rw [heq', List.append_assoc, ← List.drop_drop, ← hpre', List.drop_left, List.drop_append_of_le_length, List.drop_drop]
    rw [List.length_drop, List.length_take]
    omega

variable {out out' : Bytes} {skip : Bool} {front back : List Relocation}

/-- The fields of the word behind the `auipc`. -/
theorem isJalr_behind {behind : Bytes} {offset : Nat} {base : BitVec 64}
    (hbits : ∀ k, 8 * (offset + 4) ≤ k → bitAt out k = bitAt out' k) (hdrop : out'.drop (offset + 4) = behind) :
    IsJalr (wordAt out (offset + 4)) base ↔ IsJalr (wordAt behind 0) base := by
  have hfield : ∀ {start stop : Nat}, stop ≤ 32 → extractBitRange (wordAt out (offset + 4)) start stop =
      extractBitRange (wordAt behind 0) start stop := by
    intro start stop hstop
    refine extractBitRange_congr (by omega) fun i _ hi => ?_
    rw [← hdrop, wordAt_drop, getLsbD_wordAt, getLsbD_wordAt, hbits _ (by omega), Nat.add_zero]
  unfold IsJalr opcodeOf rs1Of
  rw [hfield (by decide), hfield (by decide)]

theorem applyRelocation_call (hcall : r.isCall = true) :
    applyRelocation ctx d out r = applyCall ctx r out (d.inputToOutputOffset r.offset) := by
  have hrt : r.rType = .call ∨ r.rType = .callPlt := by simpa [Relocation.isCall] using hcall
  unfold applyRelocation
  rcases hrt with h | h <;> rw [h]

/-- What is written where a `jal` is recognised. -/
theorem jal_written (hcall : r.isCall = true) (hplain : ctx.interposable r = false) (hzero : ctx.nonZero r = true)
    (hdeleted : isJalrDeleted out (d.inputToOutputOffset r.offset) = true)
    (happ : applyRelocation ctx d out r = some (skip, out')) :
    rdOf (wordAt out' (d.inputToOutputOffset r.offset)) = rdOf (wordAt out (d.inputToOutputOffset r.offset)) ∧
      out'.drop (d.inputToOutputOffset r.offset + 4) = out.drop (d.inputToOutputOffset r.offset + 4) := by
  rw [applyRelocation_call hcall] at happ
  cases hvalue : ctx.callValue r with
  | none =>
    have hform : callForm ctx out (d.inputToOutputOffset r.offset) r = .jal := by
      simp [callForm, hplain, hzero, hdeleted]
    unfold applyCall at happ
    rw [hform, hvalue] at happ
    cases happ
  | some value =>
    rw [applyCall_jal hplain hzero hdeleted hvalue] at happ
    obtain ⟨written, hpatch, heq⟩ := Option.map_eq_some_iff.mp happ
    cases heq
    exact ⟨by rw [rdOf_patchWord hpatch, rdOf_jalWord], patchWord_drop hpatch⟩

/-- **One call.** Where the bytes behind its `auipc` are those of the copied section. -/
theorem reads_iff (ht : Tracked s.relocations d) (hc : s.CodeOrdered ctx) (hr : r ∈ s.relocations)
    (hcall : r.isCall = true) (hplain : ctx.interposable r = false) (hzero : ctx.nonZero r = true)
    (hlen : out.length = (populateSectionOutput s.bytes d).length)
    (hbits : ∀ k, 8 * (d.inputToOutputOffset r.offset + 4) ≤ k →
      bitAt out k = bitAt (populateSectionOutput s.bytes d) k)
    (happ : applyRelocation ctx d out r = some (skip, out')) :
    ReadsRelaxation s.bytes d r.offset out out' ↔
      Readable s.bytes d r.offset (rdOf (wordAt out (d.inputToOutputOffset r.offset))) := by
  obtain ⟨hroom, hrelaxed, hkept⟩ := content_behind ht hc hr hcall
  have hend : ∀ {behind : Bytes}, (populateSectionOutput s.bytes d).drop (d.inputToOutputOffset r.offset + 4) = behind →
      (d.inputToOutputOffset r.offset + 8 ≤ out.length ↔ 4 ≤ behind.length) := by
    rintro behind rfl
    rw [List.length_drop, hlen]
    omega
  unfold ReadsRelaxation Readable
  rw [isJalrDeleted_iff]
  cases h4 : d.hasDeltaAt (r.offset + 4) with
  | true =>
    have hbehind := hrelaxed h4
    rw [hend hbehind, isJalr_behind hbits hbehind]
    simp only [iff_true, true_implies, if_true]
    -- once the call is recognised, the register decides
    refine and_congr_right fun hno => ?_
    have hdeleted : isJalrDeleted out (d.inputToOutputOffset r.offset) = true := by
      rw [isJalrDeleted_iff, hend hbehind, isJalr_behind hbits hbehind]
      exact hno
    obtain ⟨hrd, hdrop⟩ := jal_written hcall hplain hzero hdeleted happ
    rw [hrd, and_iff_left hdrop]
  | false =>
    obtain ⟨post, hbehind⟩ := hkept h4
    obtain ⟨-, -, hspan⟩ := @Relocation.call_plain ctx r hcall
    have hinside := hc.inside r hr
    have hfour : ((s.bytes.take (r.offset + 8)).drop (r.offset + 4)).length = 4 := by
      rw [List.length_drop, List.length_take]
      omega
    have htake : ((s.bytes.take (r.offset + 8)).drop (r.offset + 4) ++ post).take 4 =
        (s.bytes.drop (r.offset + 4)).take 4 := by
      rw [List.take_append_of_le_length (by omega), List.take_of_length_le (by omega), List.take_drop]
    have hword : IsJalr (wordAt ((s.bytes.take (r.offset + 8)).drop (r.offset + 4) ++ post) 0)
        (rdOf (wordAt out (d.inputToOutputOffset r.offset))) ↔
        IsJalr (wordAt s.bytes (r.offset + 4)) (rdOf (wordAt out (d.inputToOutputOffset r.offset))) := by
      unfold IsJalr opcodeOf rs1Of
      rw [field_wordAt_congr (by decide) htake, field_wordAt_congr (by decide) htake, wordAt_drop, Nat.add_zero]
    rw [hend hbehind, isJalr_behind hbits hbehind, hword, List.length_append, hfour]
    simp [Nat.le_add_right]

/-! ## The calls of a section -/

/-- What holds of every call to a definition of the link with an address, when the writer gets to it. -/
def AtCalls (ctx : RelocationContext) (d : SectionRelaxDeltas) (s : RelaxSection)
    (P : List Relocation → Relocation → Bytes → Bytes → Prop) : Prop :=
  ∀ front r back out skip out', s.relocations = front ++ r :: back → r.isCall = true → ctx.interposable r = false →
    ctx.nonZero r = true →
    front.foldlM (relocationStep ctx d) (false, populateSectionOutput s.bytes d) = some (false, out) →
    applyRelocation ctx d out r = some (skip, out') → P front r out out'

/-- Relaxation leaves the calls alone that the writer takes for calls to interposable symbols. -/
def LeavesInterposable (ctx : RelocationContext) (d : SectionRelaxDeltas) (s : RelaxSection) : Prop :=
  ∀ r ∈ s.relocations, r.isCall = true → ctx.interposable r = true → d.hasDeltaAt (r.offset + 4) = false

theorem recognised_of_reads (hr : r ∈ s.relocations) (hflags : LeavesInterposable ctx d s) (hcall : r.isCall = true)
    (hreads : ctx.interposable r = false → ctx.nonZero r = true → ReadsRelaxation s.bytes d r.offset out out') :
    Recognised ctx d out r := by
  unfold Recognised callForm
  cases hplain : ctx.interposable r with
  | true =>
    have h4 := hflags r hr hcall hplain
    simp [h4]
  | false =>
    cases hzero : ctx.nonZero r with
    | false => simp
    | true =>
      have hiff := (hreads hplain hzero).1
      constructor
      · intro h4
        simp [hiff.mpr h4]
      · intro hform
        by_contra h4
        simp [mt hiff.mp h4] at hform

/-- **The run up to a call.** If the calls in front of it are read as they are, nothing has been written behind its
    `auipc`, and its register is there unless a `lui` has been written over the first half. -/
theorem call_run (ht : Tracked s.relocations d) (hc : s.CodeOrdered ctx) (heven : ∀ e ∈ d.raw, 2 ∣ e.2)
    (hcall : r.isCall = true) (hsplit : s.relocations = front ++ r :: back) (hrec : CallsRecognised ctx d front s.bytes)
    (h : front.foldlM (relocationStep ctx d) (false, populateSectionOutput s.bytes d) = some (skip, out)) :
    out.length = (populateSectionOutput s.bytes d).length ∧
    (∀ k, 8 * (d.inputToOutputOffset r.offset + 4) ≤ k → bitAt out k = bitAt (populateSectionOutput s.bytes d) k) ∧
    (¬ Halved d front r.offset → ∀ i < 12, bitAt out (8 * d.inputToOutputOffset r.offset + i) =
      bitAt (populateSectionOutput s.bytes d) (8 * d.inputToOutputOffset r.offset + i)) := by
  obtain ⟨hrelax, hother, -⟩ := @Relocation.call_plain ctx r hcall
  have hr : r ∈ s.relocations := by
    rw [hsplit]
    exact List.mem_append_cons_self
  have hhalved : ∀ {front : List Relocation} {x : Relocation}, ¬ Halved d (front ++ [x]) r.offset →
      ¬ Halved d front r.offset ∧ ¬ Halves d (d.inputToOutputOffset r.offset) x := by
    intro front x h
    rw [halved_snoc] at h
    exact not_or.mp h
  refine (@front_run ctx s d r (fun front out => out.length = (populateSectionOutput s.bytes d).length ∧
    (∀ k, 8 * (d.inputToOutputOffset r.offset + 4) ≤ k → bitAt out k = bitAt (populateSectionOutput s.bytes d) k) ∧
    (¬ Halved d front r.offset → ∀ i < 12, bitAt out (8 * d.inputToOutputOffset r.offset + i) =
      bitAt (populateSectionOutput s.bytes d) (8 * d.inputToOutputOffset r.offset + i)))
    ht hc heven hrelax hother (ht.call_kept hc hr hcall).1 ⟨rfl, fun _ _ => rfl, fun _ _ _ => rfl⟩
    ?_ ?_ ?_ front (r :: back) hsplit List.mem_cons_self hrec skip out h).1
  · rintro front x out out' lo hi ⟨hlen, hbehind, hlow⟩ - - hwrites hhi
    refine ⟨hwrites.length.trans hlen, fun k hk => ?_, fun hh i hi => ?_⟩
    · rw [hwrites.outside k (Or.inr (by omega)), hbehind k hk]
    · rw [hwrites.outside _ (Or.inr (by omega)), hlow (hhalved hh).1 i hi]
  · rintro front x out out' ⟨hlen, hbehind, hlow⟩ hover hpatch
    have hwrites := patchWord_writes hpatch
    refine ⟨hwrites.length.trans hlen, fun k hk => ?_, fun hh i hi => ?_⟩
    · rw [hwrites.outside k (Or.inr (by omega)), hbehind k hk]
    · -- the upper part leaves the opcode and the register
      have hfits : ∀ f ∈ uTypeFields, f.Fits 64 := by decide
      have hcovers : covers uTypeFields i = false := by
        rw [uTypeFields_covers (by omega), decide_eq_false (by omega)]
      rw [patchWord_bit hpatch (by omega), ← hlow (hhalved hh).1 i hi]
      show (writeUType _ (wordAt out _)).getLsbD i = _
      rw [writeUType_eq, write_outside hfits _ _ hcovers, getLsbD_wordAt, decide_eq_true (by omega : i < 64),
        Bool.true_and]
  · rintro front x out out' ⟨hlen, hbehind, hlow⟩ hhalves hpatch
    have hwrites := patchWord_writes hpatch
    have := hhalves.2.1
    refine ⟨hwrites.length.trans hlen, fun k hk => ?_, fun hh => absurd hhalves (hhalved hh).2⟩
    rw [hwrites.outside k (Or.inr (by omega)), hbehind k hk]

/-- **A call in a run.** If those in front of it are read as they are. -/
theorem at_call (ht : Tracked s.relocations d) (hc : s.CodeOrdered ctx) (heven : ∀ e ∈ d.raw, 2 ∣ e.2)
    (hflags : LeavesInterposable ctx d s) (hcall : r.isCall = true) (hplain : ctx.interposable r = false)
    (hzero : ctx.nonZero r = true) (hsplit : s.relocations = front ++ r :: back)
    (hrun : front.foldlM (relocationStep ctx d) (false, populateSectionOutput s.bytes d) = some (false, out))
    (happ : applyRelocation ctx d out r = some (skip, out'))
    (hfront : ∀ pre x post out out' skip, front = pre ++ x :: post → x.isCall = true → ctx.interposable x = false →
      ctx.nonZero x = true →
      pre.foldlM (relocationStep ctx d) (false, populateSectionOutput s.bytes d) = some (false, out) →
      applyRelocation ctx d out x = some (skip, out') → ReadsRelaxation s.bytes d x.offset out out')
    : (ReadsRelaxation s.bytes d r.offset out out' ↔
      Readable s.bytes d r.offset (rdOf (wordAt out (d.inputToOutputOffset r.offset)))) ∧
    (¬ Halved d front r.offset →
      rdOf (wordAt out (d.inputToOutputOffset r.offset)) = rdOf (wordAt s.bytes r.offset)) := by
  have hr : r ∈ s.relocations := by
    rw [hsplit]
    exact List.mem_append_cons_self
  have hrec : CallsRecognised ctx d front s.bytes := by
    intro pre x post mid hpre hx hmid
    have hxr : x ∈ s.relocations := by
      rw [hsplit, hpre]
      exact List.mem_append_left _ List.mem_append_cons_self
    -- the run went on from there
    rw [hpre, List.foldlM_append, hmid] at hrun
    have hrun : List.foldlM (relocationStep ctx d) (false, mid) (x :: post) = some (false, out) := hrun
    obtain ⟨⟨skip', mid'⟩, hstep, -⟩ := Option.bind_eq_some_iff.mp hrun
    exact recognised_of_reads hxr hflags hx fun hplain' hzero' =>
      hfront pre x post mid mid' skip' hpre hx hplain' hzero' hmid hstep
  obtain ⟨hlen, hbehind, hlow⟩ := call_run ht hc heven hcall hsplit hrec hrun
  refine ⟨reads_iff ht hc hr hcall hplain hzero hlen hbehind happ, fun hhalved => ?_⟩
  obtain ⟨-, -, hspan⟩ := @Relocation.call_plain ctx r hcall
  have hinside := hc.inside r hr
  have hwindow := window_start ht (ht.call_kept hc hr hcall).1 (by omega)
  have hno : ¬ Halved d [] r.offset := fun ⟨x, hx, _⟩ => absurd hx List.not_mem_nil
  refine extractBitRange_congr (by decide) fun i _ hi => ?_
  rw [getLsbD_wordAt, decide_eq_true (by omega : i < 64), Bool.true_and, hlow hhalved i hi, hwindow.low hno i hi]

end Site

/-- **When the calls of a section are read as they are.** Exactly if each is readable with the register that its
    `auipc` has when the writer gets to it. That is the one of the input unless it has been overwritten. -/
theorem calls_read_iff {link : RelaxLink} {fin : RelaxState} {i : Nat} {s : RelaxSection} {ctx : RelocationContext}
    (hs : link.sections[i]? = some s) (hc : s.CodeOrdered ctx)
    (hpl : ∀ address, link.IsLayout address → 2 ∣ address i) (h : link.performIterativeRelaxation = some fin)
    (hflags : LeavesInterposable ctx (fin.deltas i) s) :
    (AtCalls ctx (fin.deltas i) s (fun _ r out out' => ReadsRelaxation s.bytes (fin.deltas i) r.offset out out') ↔
      AtCalls ctx (fin.deltas i) s (fun _ r out _ => Readable s.bytes (fin.deltas i) r.offset
        (rdOf (wordAt out ((fin.deltas i).inputToOutputOffset r.offset))))) ∧
    (AtCalls ctx (fin.deltas i) s (fun _ r out out' => ReadsRelaxation s.bytes (fin.deltas i) r.offset out out') →
      AtCalls ctx (fin.deltas i) s (fun front r out _ => ¬ Halved (fin.deltas i) front r.offset →
        rdOf (wordAt out ((fin.deltas i).inputToOutputOffset r.offset)) = rdOf (wordAt s.bytes r.offset))) := by
  obtain ⟨ht, heven, -⟩ := evenDeltas_final hs hc hpl h
  refine ⟨⟨fun hreads => ?_, fun hreadable => ?_⟩, fun hreads => ?_⟩
  · intro front r back out skip out' hsplit hcall hplain hzero hrun happ
    refine (at_call ht hc heven hflags hcall hplain hzero hsplit hrun happ ?_).1.mp
      (hreads front r back out skip out' hsplit hcall hplain hzero hrun happ)
    intro pre x post mid mid' skip' hpre
    exact hreads pre x (post ++ r :: back) mid skip' mid' (by rw [hsplit, hpre, List.append_assoc, List.cons_append])
  · -- by induction on the number of relocations in front
    intro front
    induction hn : front.length using Nat.strong_induction_on generalizing front with
    | _ n ih =>
      intro r back out skip out' hsplit hcall hplain hzero hrun happ
      refine (at_call ht hc heven hflags hcall hplain hzero hsplit hrun happ ?_).1.mpr
        (hreadable front r back out skip out' hsplit hcall hplain hzero hrun happ)
      intro pre x post mid mid' skip' hpre
      refine ih pre.length ?_ pre rfl x (post ++ r :: back) mid skip' mid'
        (by rw [hsplit, hpre, List.append_assoc, List.cons_append])
      rw [← hn, hpre, List.length_append, List.length_cons]
      omega
  · intro front r back out skip out' hsplit hcall hplain hzero hrun happ
    refine (at_call ht hc heven hflags hcall hplain hzero hsplit hrun happ ?_).2
    intro pre x post mid mid' skip' hpre
    exact hreads pre x (post ++ r :: back) mid skip' mid' (by rw [hsplit, hpre, List.append_assoc, List.cons_append])

/-! ## A call in front of a return -/

/-- `call f; ret`, with `f` at `0x100`. -/
def callReturn : RelaxSection :=
  { size := 12, loaded := true, executable := true
    bytes := [0x97, 0x00, 0x00, 0x00, 0xe7, 0x80, 0x00, 0x00, 0x67, 0x80, 0x00, 0x00]
    relocations := [
      { offset := 0, rType := .callPlt, symbol := some 0, addend := 0 },
      { offset := 0, rType := .relax, symbol := none, addend := 0 }]
    packed := false, alignment := 4 }

def callReturnLink : RelaxLink := { twoUsersLink with sections := [callReturn] }

def callReturnContext : RelocationContext :=
  { twoUsersContext with callValue := fun _ => some 0xffffffffffff_f100, nonZero := fun _ => true }

theorem callReturn_ordered : callReturn.CodeOrdered callReturnContext where
  apart := by
    unfold SpansApart
    decide
  inside := by decide
  even := by decide
  padding := by decide
  small := by
    unfold SmallPadding
    decide

def callReturnDeltas : SectionRelaxDeltas := [{ inputOffset := 4, cumulativeDeleted := 4, bytesDeleted := 4 }]

theorem callReturn_relaxed :
    ∃ fin, callReturnLink.performIterativeRelaxation = some fin ∧ fin.deltas 0 = callReturnDeltas :=
  ⟨_, rfl, by decide⟩

/-- The `auipc` of the call, and the `ret` behind it. -/
def callReturnContent : Bytes := [0x97, 0x00, 0x00, 0x00, 0x67, 0x80, 0x00, 0x00]

theorem callReturn_applied : ∃ skip out', applyRelocation callReturnContext callReturnDeltas callReturnContent
    { offset := 0, rType := .callPlt, symbol := some 0, addend := 0 } = some (skip, out') :=
  ⟨_, _, rfl⟩

theorem callReturn_misread {out' : Bytes} :
    ¬ ReadsRelaxation callReturn.bytes callReturnDeltas 0 callReturnContent out' :=
  fun h => absurd (h.1.mpr (by decide)) (by decide +kernel)

theorem calls_read_iff_callReturn : ∃ fin, callReturnLink.performIterativeRelaxation = some fin ∧
    ¬ AtCalls callReturnContext (fin.deltas 0) callReturn (fun _ r out _ => Readable callReturn.bytes (fin.deltas 0)
      r.offset (rdOf (wordAt out ((fin.deltas 0).inputToOutputOffset r.offset)))) := by
  obtain ⟨fin, hfin, hdeltas⟩ := callReturn_relaxed
  have hplaced : ∀ address, callReturnLink.IsLayout address → 2 ∣ address 0 := by
    rintro address ⟨k, capacities, hl⟩
    cases hl
    decide
  refine ⟨fin, hfin, fun hreadable => ?_⟩
  have hreads := (calls_read_iff rfl callReturn_ordered hplaced hfin (fun _ _ _ h => by cases h)).1.mpr hreadable
  rw [hdeltas] at hreads
  obtain ⟨skip, out', happ⟩ := callReturn_applied
  exact callReturn_misread (hreads [] _ _ callReturnContent skip out' rfl rfl rfl rfl rfl happ)

/-- The `ret` is taken for the `jalr` of the call, and written over. -/
theorem call_before_return_misread : ∃ fin, callReturnLink.performIterativeRelaxation = some fin ∧
    ¬ AtCalls callReturnContext (fin.deltas 0) callReturn
      (fun _ r out out' => ReadsRelaxation callReturn.bytes (fin.deltas 0) r.offset out out') := by
  obtain ⟨fin, hfin, hdeltas⟩ := callReturn_relaxed
  refine ⟨fin, hfin, fun hreads => ?_⟩
  rw [hdeltas] at hreads
  obtain ⟨skip, out', happ⟩ := callReturn_applied
  exact callReturn_misread (hreads [] _ _ callReturnContent skip out' rfl rfl rfl rfl rfl happ)

end Reld
