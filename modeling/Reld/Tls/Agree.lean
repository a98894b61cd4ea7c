import Mathlib.Tactic.Ring
import Reld.Tls.Writer

/-!
# `Tls.Agree` — when the access models give one address

Every form computes the address of its symbol, apart from these: a general-dynamic pair for a symbol that is in
`.dynsym` and cannot be interposed, whose offset is left zero; local-dynamic offsets and `_TLS_MODULE_BASE_` where
the thread pointer, or the end of `.tbss`, is not the aligned end of the segment that the offsets are taken from;
an offset entry for a symbol at address zero; and offsets in debug sections.

First it is shown what the loader leaves in each entry, one lemma for each function of the writer.
-/

namespace Reld.Tls

variable {l : Layout} {t : Thread Word} {s : TlsSymbol} {g : TlsTable Word} {a : Word}

/-! ## Homes -/

theorem TlsSymbol.home_of_none (hnone : s.dynamicSymbolIndex = none) : s.home l t = ownHome l t s.rawValue := by
  unfold TlsSymbol.home
  rw [hnone]
  exact ite_self _

theorem TlsSymbol.home_of_not_symbolic (h : s.isSymbolic = false) : s.home l t = ownHome l t s.rawValue := by
  unfold TlsSymbol.home
  rw [h]
  rfl

theorem TlsSymbol.Binds.lookup_eq {i : Nat} (hbinds : s.Binds l t) (hi : s.dynamicSymbolIndex = some i) :
    t.lookup i = s.home l t := by
  unfold TlsSymbol.home
  by_cases hsymbolic : s.isSymbolic
  · rw [if_pos hsymbolic, hi]
    rfl
  · rw [if_neg hsymbolic]
    simp only [Resolution.isSymbolic, Bool.or_eq_true, not_or, Bool.and_eq_true, not_and, Bool.not_eq_true]
      at hsymbolic
    obtain ⟨hdynamic, hfinal⟩ := hsymbolic
    -- A symbol that is listed without being looked up is exported, so it cannot be interposed.
    rcases s.listed (by rw [hi]; rfl) with hlisted | hexported
    · rw [hlisted] at hdynamic
      cases hdynamic
    · exact hbinds i hi hdynamic (.inl (hfinal hexported))

theorem TlsSymbol.Binds.target_fst {kind : TlsRelocKind} (hbinds : s.Binds l t) (addend : Word) :
    (t.target ⟨a, s.dynamicSymbolIndex, kind, addend⟩).1 = (s.home l t).1 := by
  unfold Thread.target
  cases hindex : s.dynamicSymbolIndex with
  | none   => rw [TlsSymbol.home_of_none hindex, ownHome]
  | some i => rw [← hbinds.lookup_eq hindex]

/-- The target of a relocation for the symbol, with the offset as its addend where it has no index. -/
theorem TlsSymbol.Binds.target_eq {kind : TlsRelocKind} (hbinds : s.Binds l t) (addend : Word)
    (haddend : addend = if s.dynamicSymbolIndex.isNone then s.rawValue - l.tlsStartAddress else 0) :
    t.target ⟨a, s.dynamicSymbolIndex, kind, addend⟩ = s.home l t := by
  refine Prod.ext (hbinds.target_fst addend) ?_
  subst haddend
  cases hindex : s.dynamicSymbolIndex with
  | none   => rw [TlsSymbol.home_of_none hindex, ownHome]; rfl
  | some i => rw [← hbinds.lookup_eq hindex]; exact add_zero _

theorem ownHome_address (hruns : Runs l t) (value : Word) :
    t.addressOf (ownHome l t value) = t.threadPointer + (value - l.tpOffsetStart) := by
  unfold Thread.addressOf ownHome
  rw [hruns.threadPointer]
  ring

/-! ## Entries -/

theorem gotTlsMod_entry (hruns : Runs l t) (hbinds : s.Binds l t) :
    (gotTlsMod l s.toResolution a).entryAt t a = (s.home l t).1 := by
  unfold gotTlsMod
  split
  case isTrue h =>
    obtain ⟨hexecutable, hdynamic⟩ := (Bool.and_eq_true _ _).mp h
    have hdynamic : s.flags.isDynamic = false := by simpa using hdynamic
    -- A definition of the executable is its own home, whether it is looked up or not.
    have hhome : s.home l t = ownHome l t s.rawValue := by
      cases hindex : s.dynamicSymbolIndex with
      | none   => exact TlsSymbol.home_of_none hindex
      | some i => rw [← hbinds.lookup_eq hindex, hbinds i hindex hdynamic (.inr hexecutable)]
    rw [hhome]
    rw [TlsTable.entryAt_word, ownHome, hruns.executable hexecutable, currentExeTlsMod]
  case isFalse =>
    exact (TlsTable.entryAt_reloc _ _ _).trans (hbinds.target_fst 0)

/-- The offset of the pair, which is what a relocation or the writer puts there, or zero. -/
theorem gotTlsOffsetInModule_entry (hruns : Runs l t) (hbinds : s.Binds l t)
    (h : gotTlsOffsetInModule l s.toResolution a = some g) :
    g.entryAt t a =
      if s.dynamicSymbolIndex.isNone ∨ s.flags.isInterposable then (s.home l t).2 - t.bias else 0 := by
  unfold gotTlsOffsetInModule at h
  cases hindex : s.dynamicSymbolIndex with
  | some i =>
    simp only [hindex, Option.some.injEq] at h
    subst h
    by_cases hinterposable : s.flags.isInterposable = true
    · simp only [hinterposable, or_true, if_true]
      rw [← hbinds.lookup_eq hindex]
      exact (TlsTable.entryAt_reloc _ _ _).trans (congrArg (· - t.bias) (add_zero _))
    · simp only [hinterposable, Option.isNone_some, Bool.false_eq_true, or_self, if_false]
      exact TlsTable.entryAt_word _ _ _
  | none =>
    simp only [hindex] at h
    obtain ⟨address, haddress, rfl⟩ := Option.map_eq_some_iff.1 h
    unfold Resolution.address at haddress
    split at haddress
    case isFalse => cases haddress
    case isTrue =>
    cases haddress
    rw [if_pos (.inl rfl), TlsSymbol.home_of_none hindex, hruns.bias, ← getDtvOffset_eq, TlsTable.entryAt_word,
      ownHome]

/-- The offset entry gives the address of the symbol, unless it is that of a symbol at zero. -/
theorem processGotTlsOffset_entry (hruns : Runs l t) (hbinds : s.Binds l t)
    (h : processGotTlsOffset l s.toResolution a = some g) :
    t.threadPointer + g.entryAt t a =
      if s.isSymbolic ∨ s.rawValue ≠ 0 then t.addressOf (s.home l t) else t.threadPointer := by
  unfold processGotTlsOffset at h
  by_cases hsymbolic : s.isSymbolic = true
  · rw [if_pos hsymbolic] at h
    obtain ⟨i, hi, rfl⟩ := Option.map_eq_some_iff.1 h
    have hload : (⟨[(a, 0)], [⟨a, some i, .tpOff, 0⟩]⟩ : TlsTable Word).entryAt t a =
        t.addressOf (s.home l t) - t.threadPointer := by
      rw [← hbinds.lookup_eq hi]
      refine (TlsTable.entryAt_reloc _ _ _).trans (congrArg (t.addressOf · - t.threadPointer) ?_)
      exact Prod.ext rfl (add_zero _)
    rw [if_pos (.inl hsymbolic), hload, Thread.threadPointer_add_sub]
  · rw [if_neg hsymbolic] at h
    by_cases hzero : s.rawValue = 0
    · rw [if_pos hzero] at h
      cases h
      rw [if_neg (by simp [hsymbolic, hzero]), TlsTable.entryAt_word, add_zero]
    · rw [if_neg hzero] at h
      rw [if_pos (.inr hzero), TlsSymbol.home_of_not_symbolic (by simpa using hsymbolic)]
      split at h
      · cases h
      · split at h
        · cases h
          rw [ownHome_address hruns, TlsTable.entryAt_word]
        · cases h
          exact (congrArg (t.threadPointer + ·) (TlsTable.entryAt_reloc _ _ _)).trans (Thread.threadPointer_add_sub _ _)

/-- A descriptor gives the address of the symbol. -/
theorem processGotTlsDescriptor_entry (hbinds : s.Binds l t)
    (h : processGotTlsDescriptor l s.toResolution a = some g) :
    t.threadPointer + g.entryAt t a = t.addressOf (s.home l t) := by
  unfold processGotTlsDescriptor at h
  split at h
  · cases h
  · cases h
    refine (congrArg (t.threadPointer + ·) (TlsTable.entryAt_reloc _ _ _)).trans ?_
    refine (Thread.threadPointer_add_sub _ _).trans (congrArg t.addressOf ?_)
    exact hbinds.target_eq _ rfl

/-! ## Accesses -/

/-- The address that `DTPOFF` values are taken from. -/
def Layout.dtpOffBase (l : Layout) : Word :=
  if l.outputKind = .sharedObject then l.tlsStartAddress else l.tlsEndAddress

theorem dtpOff_eq (value addend : Word) : dtpOff l value addend 0 = value + addend - l.dtpOffBase := by
  unfold dtpOff Layout.dtpOffBase
  split <;> rw [add_zero]

theorem Layout.isExecutable_iff : l.outputKind.isExecutable ↔ l.outputKind ≠ .sharedObject := by
  have hlinked := l.linked
  cases hkind : l.outputKind with
  | staticExecutable m => simp [OutputKind.isExecutable]
  | dynamicExecutable m => simp [OutputKind.isExecutable]
  | sharedObject => simp [OutputKind.isExecutable]
  | relocatable => exact absurd hkind hlinked

/-- When an access computes the address of its symbol. -/
def Access.AgreesWhen (t : Thread Word) : Access l → Prop
  | generalDynamic s =>
    s.dynamicSymbolIndex.isNone ∨ s.flags.isInterposable ∨ (s.home l t).2 = dtvBias l.arch
  | localDynamic _ _ _ =>
    if l.outputKind.isExecutable then l.tpOffsetStart + dtvBias l.arch = l.tlsEndAddress else dtvBias l.arch = 0
  | initialExec s => s.isSymbolic ∨ s.rawValue ≠ 0 ∨ l.tpOffsetStart = 0
  | moduleBase form base _ _ =>
    (if form = .initialExec ∧ base.rawValue = 0 then l.tpOffsetStart else l.tlsModuleBase) = l.dtpOffBase
  | relaxedLocalDynamic _ _ | descriptor _ | localExec _ _ => True

theorem generalDynamic_agrees (hruns : Runs l t) (hbinds : s.Binds l t) {x : Word}
    (h : (Access.generalDynamic s : Access l).address t = some x) :
    x = (Access.generalDynamic s : Access l).target t ↔ (Access.generalDynamic s : Access l).AgreesWhen t := by
  obtain ⟨g, hg, h⟩ := Option.bind_eq_some_iff.1 h
  obtain ⟨a, ha, rfl⟩ := Option.map_eq_some_iff.1 h
  obtain ⟨part, hpart, hmod, hoff⟩ := @entryAt_module l s.toResolution t g a ha hg
  obtain ⟨off, hoffset, rfl⟩ := Option.map_eq_some_iff.1 hpart
  have hmodule : ((gotTlsMod l s.toResolution a).append off).entryAt t a = (s.home l t).1 := by
    rw [TlsTable.entryAt_append_left (gotTlsOffsetInModule_within hoffset) (by simp [tlsOffsetOffset]),
      gotTlsMod_entry hruns hbinds]
  have hoffset' : ((gotTlsMod l s.toResolution a).append off).entryAt t (a + tlsOffsetOffset) =
      if s.dynamicSymbolIndex.isNone ∨ s.flags.isInterposable then (s.home l t).2 - t.bias else 0 := by
    rw [TlsTable.entryAt_append_right gotTlsMod_within (by simp [tlsOffsetOffset]),
      gotTlsOffsetInModule_entry hruns hbinds hoffset]
  rw [hmod, hoff, hmodule, hoffset', Access.target, Access.AgreesWhen, ← or_assoc]
  by_cases hwritten : s.dynamicSymbolIndex.isNone ∨ s.flags.isInterposable
  · rw [if_pos hwritten, Thread.getAddr_sub_bias]
    exact iff_of_true rfl (.inl hwritten)
  · rw [if_neg hwritten, or_iff_right hwritten, ← hruns.bias]
    refine eq_iff_eq_of_sub_eq_sub ?_ |>.trans eq_comm
    unfold Thread.getAddr Thread.addressOf
    ring

theorem localDynamic_agrees (hruns : Runs l t) (pair value addend : Word) {x : Word}
    (h : (Access.localDynamic pair value addend : Access l).address t = some x) :
    x = (Access.localDynamic pair value addend : Access l).target t ↔
      (Access.localDynamic pair value addend : Access l).AgreesWhen t := by
  cases h
  have hbehind : (pair + 8#64 == pair) = false := by simp
  rw [dtpOff_eq, Access.target, Access.AgreesWhen, Layout.dtpOffBase]
  by_cases hexecutable : l.outputKind.isExecutable = true
  · have hpair : (writePltGotEntries l pair).entryAt t pair = t.ownModule ∧
        (writePltGotEntries l pair).entryAt t (pair + tlsOffsetOffset) = l.tpOffsetStart - l.tlsStartAddress := by
      rw [writePltGotEntries, if_pos hexecutable, hruns.executable hexecutable]
      simp [TlsTable.entryAt, currentExeTlsMod, tlsOffsetOffset, gotEntrySize, List.lookup_cons, hbehind]
    rw [if_pos hexecutable, if_neg (Layout.isExecutable_iff.mp hexecutable), hpair.1, hpair.2, ← hruns.bias]
    refine eq_iff_eq_of_sub_eq_sub ?_
    unfold Thread.getAddr
    ring
  · have hpair : (writePltGotEntries l pair).entryAt t pair = t.ownModule ∧
        (writePltGotEntries l pair).entryAt t (pair + tlsOffsetOffset) = 0 := by
      rw [writePltGotEntries, if_neg hexecutable]
      simp [TlsTable.entryAt, Thread.load, Thread.target, tlsOffsetOffset, gotEntrySize, List.lookup_cons, hbehind]
    have hshared : l.outputKind = .sharedObject := by
      by_contra hkind
      exact hexecutable (Layout.isExecutable_iff.mpr hkind)
    rw [if_neg hexecutable, if_pos hshared, hpair.1, hpair.2, ← hruns.bias]
    refine eq_iff_eq_of_sub_eq_sub ?_
    unfold Thread.getAddr
    ring

theorem relaxedLocalDynamic_agrees (hruns : Runs l t) (value addend : Word) {x : Word}
    (h : (Access.relaxedLocalDynamic value addend : Access l).address t = some x) :
    x = (Access.relaxedLocalDynamic value addend : Access l).target t := by
  rw [Access.address] at h
  split at h
  case isFalse => cases h
  case isTrue hx86 =>
  cases h
  -- On x86-64 the thread pointer is where the offsets of an executable are taken from.
  have htp : l.tpOffsetStart = l.tlsEndAddress := by rw [Layout.tpOffsetStart, hx86.1]
  rw [dtpOff_eq, Layout.dtpOffBase, if_neg (Layout.isExecutable_iff.mp hx86.2), Access.target, hruns.threadPointer,
    htp]
  ring

/-! ### Offsets to the thread pointer -/

theorem offset_initialExec (hruns : Runs l t) (hbinds : s.Binds l t) {o : Word}
    (h : offset l t s.toResolution .initialExec = some o) :
    t.threadPointer + o = if s.isSymbolic ∨ s.rawValue ≠ 0 then t.addressOf (s.home l t) else t.threadPointer := by
  rw [offset] at h
  split at h
  case isFalse => cases h
  case isTrue hneeded =>
  obtain ⟨g, hg, h⟩ := Option.bind_eq_some_iff.1 h
  obtain ⟨a, ha, rfl⟩ := Option.map_eq_some_iff.1 h
  obtain ⟨part, hpart, hentry⟩ := @entryAt_offset l s.toResolution t g a hneeded ha hg
  rw [hentry, processGotTlsOffset_entry hruns hbinds hpart]

theorem offset_descriptor (hbinds : s.Binds l t) {o : Word}
    (h : offset l t s.toResolution .descriptor = some o) :
    t.threadPointer + o = t.addressOf (s.home l t) := by
  obtain ⟨g, hg, h⟩ := Option.bind_eq_some_iff.1 h
  obtain ⟨a, ha, rfl⟩ := Option.map_eq_some_iff.1 h
  obtain ⟨part, hpart, hentry⟩ := @entryAt_descriptor l s.toResolution t g a ha hg
  rw [hentry, processGotTlsDescriptor_entry hbinds hpart]

theorem offset_localExec (hruns : Runs l t) (value addend : Word) :
    t.threadPointer + tpOff l false value addend 0 = t.addressOf (ownHome l t (value + addend)) := by
  rw [ownHome_address hruns, tpOff, if_neg Bool.false_ne_true, add_zero]

theorem ModuleBase.home_eq (base : ModuleBase l) : base.home l t = ownHome l t l.tlsModuleBase := by
  rw [TlsSymbol.home_of_not_symbolic, base.value]
  simp [Resolution.isSymbolic, base.notDynamic, base.isFinal]

/-- The address that a form computes for `_TLS_MODULE_BASE_`. -/
theorem offset_moduleBase (hruns : Runs l t) (base : ModuleBase l) (hbinds : base.Binds l t) {form : OffsetForm}
    {o : Word} (h : offset l t base.toResolution form = some o) :
    t.threadPointer + o = t.addressOf (ownHome l t
      (if form = .initialExec ∧ base.rawValue = 0 then l.tpOffsetStart else l.tlsModuleBase)) := by
  cases form with
  | initialExec =>
    have hsymbolic : base.isSymbolic = false := by simp [Resolution.isSymbolic, base.notDynamic, base.isFinal]
    rw [offset_initialExec hruns hbinds h]
    by_cases hzero : base.rawValue = 0
    · rw [if_neg (by simp [hsymbolic, hzero]), if_pos ⟨rfl, hzero⟩, ownHome_address hruns, sub_self, add_zero]
    · rw [if_pos (.inr hzero), if_neg (fun h => hzero h.2), base.home_eq]
  | descriptor  => rw [offset_descriptor hbinds h, if_neg (by simp), base.home_eq]
  | localExec   =>
    cases h
    rw [offset_localExec hruns, if_neg (by simp), add_zero, base.value]

theorem initialExec_agrees (hruns : Runs l t) (hbinds : s.Binds l t) {x : Word}
    (h : (Access.initialExec s : Access l).address t = some x) :
    x = (Access.initialExec s : Access l).target t ↔ (Access.initialExec s : Access l).AgreesWhen t := by
  obtain ⟨o, ho, rfl⟩ := Option.map_eq_some_iff.1 h
  rw [offset_initialExec hruns hbinds ho, Access.target, Access.AgreesWhen, ← or_assoc]
  by_cases hwritten : s.isSymbolic ∨ s.rawValue ≠ 0
  · rw [if_pos hwritten]
    exact iff_of_true rfl (.inl hwritten)
  · rw [if_neg hwritten, or_iff_right hwritten]
    obtain ⟨hsymbolic, hzero⟩ := not_or.mp hwritten
    rw [TlsSymbol.home_of_not_symbolic (by simpa using hsymbolic), ownHome_address hruns, not_not.mp hzero]
    refine eq_iff_eq_of_sub_eq_sub ?_
    ring

theorem moduleBase_agrees (hruns : Runs l t) (form : OffsetForm) (base : ModuleBase l) (hbinds : base.Binds l t)
    (value addend : Word) {x : Word} (h : (Access.moduleBase form base value addend).address t = some x) :
    x = (Access.moduleBase form base value addend).target t ↔
      (Access.moduleBase form base value addend).AgreesWhen t := by
  obtain ⟨o, ho, rfl⟩ := Option.map_eq_some_iff.1 h
  rw [offset_moduleBase hruns base hbinds ho, dtpOff_eq, Access.target, Access.AgreesWhen]
  refine eq_iff_eq_of_sub_eq_sub ?_
  unfold Thread.addressOf ownHome
  ring

/-! ### All forms -/

/-- **In every thread an access computes the address of its symbol exactly when `AgreesWhen` holds of it, and an
offset in a debug section is that of the variable exactly when the segment ends where the thread vector points.** -/
theorem tls_access_iff (l : Layout) (t : Thread Word) (hruns : Runs l t) :
    (∀ access : Access l, access.Binds t → ∀ x, access.address t = some x →
      (x = access.target t ↔ access.AgreesWhen t)) ∧
    ∀ value addend : Word, debugDtpOff l value addend = value + addend - l.tlsStartAddress - dtvBias l.arch ↔
      l.tlsEndAddress = l.tlsStartAddress + dtvBias l.arch := by
  refine ⟨fun access hbinds x h => ?_, fun value addend => ?_⟩
  · cases access with
    | generalDynamic s => exact generalDynamic_agrees hruns hbinds h
    | localDynamic pair value addend => exact localDynamic_agrees hruns pair value addend h
    | relaxedLocalDynamic value addend => exact iff_of_true (relaxedLocalDynamic_agrees hruns value addend h) trivial
    | initialExec s => exact initialExec_agrees hruns hbinds h
    | descriptor s =>
      obtain ⟨o, ho, rfl⟩ := Option.map_eq_some_iff.1 h
      exact iff_of_true (offset_descriptor hbinds ho) trivial
    | localExec value addend =>
      cases h
      exact iff_of_true (offset_localExec hruns value addend) trivial
    | moduleBase form base value addend => exact moduleBase_agrees hruns form base hbinds value addend h
  · refine (eq_iff_eq_of_sub_eq_sub ?_).trans eq_comm
    unfold debugDtpOff
    ring

/-! ### A library with a protected variable -/

/-- A shared object for x86-64 with sixteen bytes of thread-local storage. -/
def libraryLayout : Layout where
  arch := .x86_64
  outputKind := .sharedObject
  tlsLayout := some ⟨0x1000, 16, ⟨3, by decide⟩⟩
  tdataStart := 0x1000
  tbssEnd := 0x1010
  linked := by decide

def libraryThread : Thread Word where
  blockStart := fun _ => 0x7000
  threadPointer := 0x7010
  bias := 0
  ownModule := 2
  lookup := fun _ => (2, 8)

/-- The variable behind the first eight bytes: exported, and protected. -/
def protectedVariable : TlsSymbol where
  rawValue := 0x1008
  dynamicSymbolIndex := some 1
  gotAddress := some 0x2000
  flags := .ofList [.nonInterposable, .exportDynamic, .gotTlsModule, .gotTlsOffset]
  indexed := by decide
  listed := by decide

theorem libraryThread_runs : Runs libraryLayout libraryThread := ⟨rfl, by decide, by decide⟩

theorem protectedVariable_binds : protectedVariable.Binds libraryLayout libraryThread := by
  intro i hi _ _
  cases hi
  decide

theorem tls_access_protected :
    (Access.initialExec protectedVariable : Access libraryLayout).address libraryThread = some 0x7008 ∧
      (0x7008 : Word) = (Access.initialExec protectedVariable : Access libraryLayout).target libraryThread :=
  ⟨by decide, ((tls_access_iff libraryLayout libraryThread libraryThread_runs).1 (.initialExec protectedVariable)
    protectedVariable_binds 0x7008 (by decide)).mpr (.inr (.inl (by decide)))⟩

/-- A general-dynamic pair for the variable gives the start of the block. -/
theorem protected_pair_misses : ¬ ∀ (l : Layout) (t : Thread Word), Runs l t →
    (∀ access : Access l, access.Binds t → ∀ x, access.address t = some x → x = access.target t) ∧
    ∀ value addend : Word, debugDtpOff l value addend = value + addend - l.tlsStartAddress - dtvBias l.arch := by
  intro h
  have hpair := (h libraryLayout libraryThread libraryThread_runs).1 (.generalDynamic protectedVariable)
    protectedVariable_binds 0x7000 (by decide)
  exact absurd hpair (by decide)

end Reld.Tls
