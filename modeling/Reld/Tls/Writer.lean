import Mathlib.Data.BitVec
import Reld.Lib.Multiples
import Reld.Lib.ThreadLocal
import Reld.Db.SymbolDb

/-!
# `Tls.Writer` — what the writer stores for thread-local symbols

The addresses that `Layout` derives from the TLS segment, the GOT entries of a resolution with TLS flags, the pair
for local-dynamic access, and the values of the relocations that hold an offset. Arithmetic is that of `u64` in a
release build: it wraps.

An output table is the list of what is written where. `take_next_got_entry` hands out the entries in the order in
which layout has given out their addresses, so each is written here with its address.
-/

namespace Reld.Tls

/-! ## The TLS segment -/

/-- `u64` -/
abbrev Word := BitVec 64

/-- `Architecture`, without the unsupported one. -/
inductive Architecture where
  | x86_64
  | aarch64
  | riscV64
  | loongArch64
  | ppc64
deriving DecidableEq, Repr

/-- `Alignment`: always a power of two. -/
structure Alignment where
  exponent : Nat
  supported : exponent ≤ 16

namespace Alignment

def value (a : Alignment) : Word := (1 : Word) <<< a.exponent

def mask (a : Alignment) : Word := a.value - 1

def alignUp (a : Alignment) (v : Word) : Word := BitVec.ofNat 64 (nextMultipleOf v.toNat a.value.toNat)

def alignDown (a : Alignment) (v : Word) : Word := v &&& ~~~a.mask

end Alignment

structure SegmentLayout where
  memOffset : Word
  memSize : Word
  alignment : Alignment

/-- What the writer reads of `Layout`. `tdataStart` and `tbssEnd` are those of the output sections. The output is
linked: a partial link has neither segments nor a GOT. -/
structure Layout where
  arch : Architecture
  outputKind : OutputKind
  tlsLayout : Option SegmentLayout
  tdataStart : Word
  tbssEnd : Word
  linked : outputKind ≠ .relocatable

/-- `TLS_TCB_SIZE` -/
def tlsTcbSize : Word := 2 * 8

/-- `RISCV_TLS_DTV_OFFSET` -/
def riscvTlsDtvOffset : Word := 0x800

/-- `GOT_ENTRY_SIZE` -/
def gotEntrySize : Word := 8

/-- `TLS_OFFSET_OFFSET` -/
def tlsOffsetOffset : Word := 8

/-- `CURRENT_EXE_TLS_MOD` -/
def currentExeTlsMod : Word := 1

/-- `get_dtv_offset` -/
def Architecture.getDtvOffset : Architecture → Word
  | .riscV64 => riscvTlsDtvOffset
  | .ppc64   => 0x8000
  | _        => 0

namespace Layout

def tlsStartAddress (l : Layout) : Word := l.tlsLayout.elim 0 fun seg => seg.memOffset

def tlsStartAddressAligned (l : Layout) : Word :=
  l.tlsLayout.elim 0 fun seg => seg.alignment.alignDown seg.memOffset

def tlsEndAddress (l : Layout) : Word :=
  l.tlsLayout.elim 0 fun seg => seg.alignment.alignUp (seg.memOffset + seg.memSize)

def tlsStartAddressAarch64 (l : Layout) : Word :=
  l.tlsLayout.elim 0 fun seg => seg.alignment.alignDown (seg.memOffset - tlsTcbSize)

/-- `tp_offset_start` -/
def tpOffsetStart (l : Layout) : Word :=
  match l.arch with
  | .x86_64      => l.tlsEndAddress
  | .aarch64     => l.tlsStartAddressAarch64
  | .riscV64     => l.tlsStartAddressAligned
  | .loongArch64 => l.tlsStartAddressAligned
  | .ppc64       => l.tlsStartAddress + 0x7000

/-- The value of `_TLS_MODULE_BASE_`: the start of `.tdata`, or the end of `.tbss`. -/
def tlsModuleBase (l : Layout) : Word :=
  if l.outputKind = .sharedObject then l.tdataStart else l.tbssEnd

end Layout

/-! ## Entries of a resolution -/

/-- `Resolution`. The dynamic symbol index is that of `.dynsym`. -/
structure Resolution where
  rawValue : Word
  dynamicSymbolIndex : Option Nat
  gotAddress : Option Word
  flags : ValueFlags

/-- The test of the writer for a symbol that the loader has to look up. -/
def Resolution.isSymbolic (res : Resolution) : Bool :=
  res.flags.isDynamic || res.flags.needsExportDynamic && res.flags.isInterposable

/-- `Resolution::address` -/
def Resolution.address (res : Resolution) : Option Word :=
  if res.flags.isAddress then some res.rawValue else none

def Resolution.tlsgdGotAddress (res : Resolution) : Option Word :=
  if res.flags.needsGotTlsModule then
    res.gotAddress.map fun a => if res.flags.needsGotTlsOffset then a + gotEntrySize else a
  else none

def Resolution.tlsDescriptorGotAddress (res : Resolution) : Option Word :=
  if res.flags.needsGotTlsDescriptor then
    res.gotAddress.map fun a =>
      let a := if res.flags.needsGotTlsOffset then a + gotEntrySize else a
      if res.flags.needsGotTlsModule then a + 2 * gotEntrySize else a
  else none

/-- `process_got_tls_offset` -/
def processGotTlsOffset (l : Layout) (res : Resolution) (gotAddress : Word) : Option (TlsTable Word) :=
  if res.isSymbolic then
    res.dynamicSymbolIndex.map fun index => ⟨[(gotAddress, 0)], [⟨gotAddress, some index, .tpOff, 0⟩]⟩
  else if res.rawValue = 0 then
    -- The resolution is undefined.
    some ⟨[(gotAddress, 0)], []⟩
  else if ¬ (l.tlsStartAddress ≤ res.rawValue ∧ res.rawValue ≤ l.tlsEndAddress) then
    none
  else if l.outputKind.isExecutable then
    some ⟨[(gotAddress, res.rawValue - l.tpOffsetStart)], []⟩
  else
    some ⟨[(gotAddress, 0)], [⟨gotAddress, none, .tpOff, res.rawValue - l.tlsStartAddress⟩]⟩

/-- The first entry of `process_got_tls_mod_and_offset`. -/
def gotTlsMod (l : Layout) (res : Resolution) (gotAddress : Word) : TlsTable Word :=
  if l.outputKind.isExecutable && !res.flags.isDynamic then
    ⟨[(gotAddress, currentExeTlsMod)], []⟩
  else
    ⟨[(gotAddress, 0)], [⟨gotAddress, res.dynamicSymbolIndex, .dtpMod, 0⟩]⟩

/-- The second entry of `process_got_tls_mod_and_offset`. -/
def gotTlsOffsetInModule (l : Layout) (res : Resolution) (offsetAddress : Word) : Option (TlsTable Word) :=
  match res.dynamicSymbolIndex with
  | some index =>
    -- The entry is zero also where no relocation is written for it.
    some ⟨[(offsetAddress, 0)],
      if res.flags.isInterposable then [⟨offsetAddress, some index, .dtpOff, 0⟩] else []⟩
  | none =>
    res.address.map fun address =>
      ⟨[(offsetAddress, address - l.tlsStartAddress - l.arch.getDtvOffset)], []⟩

/-- `process_got_tls_mod_and_offset` -/
def processGotTlsModAndOffset (l : Layout) (res : Resolution) (gotAddress : Word) : Option (TlsTable Word) :=
  (gotTlsOffsetInModule l res (gotAddress + tlsOffsetOffset)).map (gotTlsMod l res gotAddress).append

/-- `process_got_tls_descriptor` -/
def processGotTlsDescriptor (l : Layout) (res : Resolution) (gotAddress : Word) : Option (TlsTable Word) :=
  if l.outputKind.isStaticExecutable then none
  else
    let addend := if res.dynamicSymbolIndex.isNone then res.rawValue - l.tlsStartAddress else 0
    some ⟨[(gotAddress, 0), (gotAddress + gotEntrySize, 0)], [⟨gotAddress, res.dynamicSymbolIndex, .tlsDesc, addend⟩]⟩

/-- A part of the entries, which is written if its flag is set. -/
def whenNeeded (needed : Bool) (part : Option (TlsTable Word)) : Option (TlsTable Word) :=
  if needed then part else some .empty

/-- `process_resolution`, for a resolution with TLS flags. -/
def processResolution (l : Layout) (res : Resolution) : Option (TlsTable Word) :=
  match res.gotAddress with
  | none => some .empty
  | some gotAddress =>
    let modAddress := if res.flags.needsGotTlsOffset then gotAddress + gotEntrySize else gotAddress
    let descriptorAddress := if res.flags.needsGotTlsModule then modAddress + 2 * gotEntrySize else modAddress
    do
      let offset ← whenNeeded res.flags.needsGotTlsOffset (processGotTlsOffset l res gotAddress)
      let module ← whenNeeded res.flags.needsGotTlsModule (processGotTlsModAndOffset l res modAddress)
      let descriptor ← whenNeeded res.flags.needsGotTlsDescriptor (processGotTlsDescriptor l res descriptorAddress)
      return offset.append (module.append descriptor)

/-- The pair for local-dynamic access, from `write_plt_got_entries`. In an executable both entries go through
`process_resolution` as absolute values, which stores them as they are. -/
def writePltGotEntries (l : Layout) (gotAddress : Word) : TlsTable Word :=
  if l.outputKind.isExecutable then
    ⟨[(gotAddress, currentExeTlsMod), (gotAddress + gotEntrySize, l.tpOffsetStart - l.tlsStartAddress)], []⟩
  else
    ⟨[(gotAddress, 0), (gotAddress + gotEntrySize, 0)], [⟨gotAddress, none, .dtpMod, 0⟩]⟩

/-! ## Offsets in relocations -/

/-- `RelocationKind::DtpOff` in `apply_relocation`. -/
def dtpOff (l : Layout) (value addend bias : Word) : Word :=
  if l.outputKind = .sharedObject then
    value + addend + bias - l.tlsStartAddress
  else
    value + addend + bias - l.tlsEndAddress

/-- `RelocationKind::TpOff` in `apply_relocation`. -/
def tpOff (l : Layout) (isUndefined : Bool) (value addend bias : Word) : Word :=
  if isUndefined then addend + bias else value + addend + bias - l.tpOffsetStart

/-- `RelocationKind::DtpOff` in `apply_debug_relocation`. -/
def debugDtpOff (l : Layout) (value addend : Word) : Word := value - l.tlsEndAddress + addend

end Reld.Tls

/-!
# What a run finds behind a thread-local access

The ways in which code reaches a thread-local symbol, each with the address that it computes from what the writer
has stored (`Access.address`) and the address where the symbol is (`Access.target`).

In a run the thread pointer stands where `tp_offset_start` puts it, and the loader finds the output's own definition
of a symbol that cannot be interposed.
-/

namespace Reld.Tls

/-! ## Runs -/

/-- The distance that the psABI of an architecture puts between a module's block and its entry in the dynamic
thread vector. -/
def dtvBias : Architecture → Word
  | .riscV64 => 0x800
  | .ppc64   => 0x8000
  | _        => 0

theorem getDtvOffset_eq (arch : Architecture) : arch.getDtvOffset = dtvBias arch := by
  cases arch <;> rfl

/-- A thread of a process with the output. An executable is the first module. -/
structure Runs (l : Layout) (t : Thread Word) : Prop where
  bias : t.bias = dtvBias l.arch
  threadPointer : t.threadPointer = t.blockStart t.ownModule + (l.tpOffsetStart - l.tlsStartAddress)
  executable : l.outputKind.isExecutable → t.ownModule = 1

/-- A thread-local symbol. Symbols that the loader looks up, and no others, are in `.dynsym`, apart from those that
are only exported. -/
structure TlsSymbol extends Resolution where
  indexed : toResolution.isSymbolic → dynamicSymbolIndex.isSome
  listed : dynamicSymbolIndex.isSome → flags.isDynamic ∨ flags.needsExportDynamic

/-- Where the output has a value of its own. -/
def ownHome (l : Layout) (t : Thread Word) (value : Word) : Word × Word := (t.ownModule, value - l.tlsStartAddress)

/-- The module and the offset of a symbol at run time. -/
def TlsSymbol.home (l : Layout) (t : Thread Word) (s : TlsSymbol) : Word × Word :=
  if s.isSymbolic then s.dynamicSymbolIndex.elim (ownHome l t s.rawValue) t.lookup else ownHome l t s.rawValue

/-- The loader finds the output's own definition where nothing else can stand in for it: the symbol cannot be
interposed, or the output is the executable, which comes first in every lookup. -/
def TlsSymbol.Binds (l : Layout) (t : Thread Word) (s : TlsSymbol) : Prop :=
  ∀ i, s.dynamicSymbolIndex = some i → s.flags.isDynamic = false →
    s.flags.isInterposable = false ∨ l.outputKind.isExecutable → t.lookup i = ownHome l t s.rawValue

/-- `_TLS_MODULE_BASE_`, a definition of the output that is not interposed. -/
structure ModuleBase (l : Layout) extends TlsSymbol where
  value : rawValue = l.tlsModuleBase
  notDynamic : flags.isDynamic = false
  isFinal : flags.isInterposable = false

/-! ## Accesses -/

/-- The forms that give an offset to the thread pointer. -/
inductive OffsetForm where
  | initialExec
  | descriptor
  | localExec
deriving DecidableEq, Repr

/-- An access to a thread-local symbol. Forms that go through the GOT have no addend of their own: that of the
relocation belongs to the address of the entry. `pair` is the address of the local-dynamic entries. -/
inductive Access (l : Layout) where
  | generalDynamic (s : TlsSymbol)
  | localDynamic (pair : Word) (value addend : Word)
  | relaxedLocalDynamic (value addend : Word)
  | initialExec (s : TlsSymbol)
  | descriptor (s : TlsSymbol)
  | localExec (value addend : Word)
  | moduleBase (form : OffsetForm) (base : ModuleBase l) (value addend : Word)

/-- The offset to the thread pointer that a form gives for a symbol. -/
def offset (l : Layout) (t : Thread Word) (res : Resolution) : OffsetForm → Option Word
  | .initialExec =>
    if res.flags.needsGotTlsOffset then
      (processResolution l res).bind fun g => res.gotAddress.map fun a => g.entryAt t a
    else none
  | .descriptor  => (processResolution l res).bind fun g => res.tlsDescriptorGotAddress.map fun a => g.entryAt t a
  | .localExec   => some (tpOff l false res.rawValue 0 0)

namespace Access

variable {l : Layout}

/-- The address that an access computes in a thread, if the writer has written what it needs. -/
def address (t : Thread Word) : Access l → Option Word
  | generalDynamic s =>
    (processResolution l s.toResolution).bind fun g => s.tlsgdGotAddress.map fun a =>
      t.getAddr (g.entryAt t a) (g.entryAt t (a + tlsOffsetOffset))
  | localDynamic pair value addend =>
    let g := writePltGotEntries l pair
    some (t.getAddr (g.entryAt t pair) (g.entryAt t (pair + tlsOffsetOffset)) + dtpOff l value addend 0)
  | relaxedLocalDynamic value addend =>
    -- The call is replaced by a read of the thread pointer, on x86-64 and in executables only.
    if l.arch = .x86_64 ∧ l.outputKind.isExecutable then some (t.threadPointer + dtpOff l value addend 0) else none
  | initialExec s => (offset l t s.toResolution .initialExec).map (t.threadPointer + ·)
  | descriptor s => (offset l t s.toResolution .descriptor).map (t.threadPointer + ·)
  | localExec value addend => some (t.threadPointer + tpOff l false value addend 0)
  | moduleBase form base value addend =>
    (offset l t base.toResolution form).map fun o => t.threadPointer + o + dtpOff l value addend 0

/-- Where the symbol, with the addend, is in the thread. -/
def target (t : Thread Word) : Access l → Word
  | generalDynamic s | initialExec s | descriptor s => t.addressOf (s.home l t)
  | localDynamic _ value addend | relaxedLocalDynamic value addend | localExec value addend
  | moduleBase _ _ value addend => t.blockStart t.ownModule + (value + addend - l.tlsStartAddress)

/-- The loader binds the symbols of an access. -/
def Binds (t : Thread Word) : Access l → Prop
  | generalDynamic s | initialExec s | descriptor s => s.Binds l t
  | moduleBase _ base _ _ => base.Binds l t
  | _ => True

end Access

/-! ## Reading back -/

section Entries

variable {l : Layout} {res : Resolution} {t : Thread Word} {g : TlsTable Word} {a : Word}

theorem processGotTlsOffset_within (h : processGotTlsOffset l res a = some g) : g.Within [a] := by
  unfold processGotTlsOffset at h
  split at h
  · obtain ⟨index, -, rfl⟩ := Option.map_eq_some_iff.1 h
    exact ⟨rfl, by simp⟩
  · split at h
    · cases h
      exact ⟨rfl, by simp⟩
    · split at h
      · cases h
      · split at h <;> cases h <;> exact ⟨rfl, by simp⟩

theorem gotTlsMod_within : (gotTlsMod l res a).Within [a] := by
  unfold gotTlsMod
  split <;> exact ⟨rfl, by simp⟩

theorem gotTlsOffsetInModule_within (h : gotTlsOffsetInModule l res a = some g) : g.Within [a] := by
  unfold gotTlsOffsetInModule at h
  split at h
  · cases h
    refine ⟨rfl, ?_⟩
    split <;> simp
  · obtain ⟨address, -, rfl⟩ := Option.map_eq_some_iff.1 h
    exact ⟨rfl, by simp⟩

theorem processGotTlsModAndOffset_within (h : processGotTlsModAndOffset l res a = some g) :
    g.Within [a, a + tlsOffsetOffset] := by
  obtain ⟨offset, hoffset, rfl⟩ := Option.map_eq_some_iff.1 h
  exact gotTlsMod_within.append (gotTlsOffsetInModule_within hoffset)

theorem processGotTlsDescriptor_within (h : processGotTlsDescriptor l res a = some g) :
    g.Within [a, a + gotEntrySize] := by
  unfold processGotTlsDescriptor at h
  split at h
  · cases h
  · cases h
    exact ⟨rfl, by simp⟩

theorem whenNeeded_within {needed : Bool} {part : Option (TlsTable Word)} {ps : List Word}
    (hpart : part = some g → g.Within ps) (h : whenNeeded needed part = some g) :
    g.Within (if needed then ps else []) := by
  cases needed with
  | false =>
    cases h
    exact .empty
  | true  => exact hpart h

/-- The offset entry is read where it was written. -/
theorem entryAt_offset (hneeded : res.flags.needsGotTlsOffset = true) (hgot : res.gotAddress = some a)
    (h : processResolution l res = some g) :
    ∃ part, processGotTlsOffset l res a = some part ∧ g.entryAt t a = part.entryAt t a := by
  unfold processResolution at h
  simp only [hgot, hneeded, if_true] at h
  obtain ⟨offset, hoffset, h⟩ := Option.bind_eq_some_iff.1 h
  obtain ⟨module, hmodule, h⟩ := Option.bind_eq_some_iff.1 h
  obtain ⟨descriptor, hdescriptor, h⟩ := Option.bind_eq_some_iff.1 h
  cases h
  have hbehind := (whenNeeded_within processGotTlsModAndOffset_within hmodule).append
    (whenNeeded_within processGotTlsDescriptor_within hdescriptor)
  refine ⟨offset, hoffset, TlsTable.entryAt_append_left hbehind ?_⟩
  cases res.flags.needsGotTlsModule <;> cases res.flags.needsGotTlsDescriptor <;>
    simp [gotEntrySize, tlsOffsetOffset, BitVec.add_assoc]

/-- The pair of a module and an offset is read where it was written. -/
theorem entryAt_module (hgot : res.tlsgdGotAddress = some a) (h : processResolution l res = some g) :
    ∃ part, processGotTlsModAndOffset l res a = some part ∧ g.entryAt t a = part.entryAt t a ∧
      g.entryAt t (a + tlsOffsetOffset) = part.entryAt t (a + tlsOffsetOffset) := by
  unfold Resolution.tlsgdGotAddress at hgot
  split at hgot
  case isFalse => cases hgot
  case isTrue hneeded =>
  obtain ⟨start, hstart, rfl⟩ := Option.map_eq_some_iff.1 hgot
  unfold processResolution at h
  simp only [hstart, hneeded, if_true] at h
  obtain ⟨offset, hoffset, h⟩ := Option.bind_eq_some_iff.1 h
  obtain ⟨module, hmodule, h⟩ := Option.bind_eq_some_iff.1 h
  obtain ⟨descriptor, hdescriptor, h⟩ := Option.bind_eq_some_iff.1 h
  cases h
  have hfirst := whenNeeded_within processGotTlsOffset_within hoffset
  have hbehind := whenNeeded_within processGotTlsDescriptor_within hdescriptor
  -- The offset entry is before the pair and the descriptor behind it.
  have hread (place : Word) (hplace : place = start + (if res.flags.needsGotTlsOffset then gotEntrySize else 0) ∨
      place = start + (if res.flags.needsGotTlsOffset then gotEntrySize else 0) + tlsOffsetOffset) :
      (offset.append (module.append descriptor)).entryAt t place = module.entryAt t place := by
    rw [TlsTable.entryAt_append_right hfirst, TlsTable.entryAt_append_left hbehind]
    · rcases hplace with rfl | rfl <;> cases res.flags.needsGotTlsOffset <;>
        cases res.flags.needsGotTlsDescriptor <;> simp [gotEntrySize, tlsOffsetOffset, BitVec.add_assoc]
    · rcases hplace with rfl | rfl <;> cases res.flags.needsGotTlsOffset <;>
        simp [gotEntrySize, tlsOffsetOffset, BitVec.add_assoc]
  refine ⟨module, hmodule, hread _ (.inl ?_), hread _ (.inr ?_)⟩
  · split <;> simp
  · split <;> simp

/-- The descriptor is read where it was written. -/
theorem entryAt_descriptor (hgot : res.tlsDescriptorGotAddress = some a) (h : processResolution l res = some g) :
    ∃ part, processGotTlsDescriptor l res a = some part ∧ g.entryAt t a = part.entryAt t a := by
  unfold Resolution.tlsDescriptorGotAddress at hgot
  split at hgot
  case isFalse => cases hgot
  case isTrue hneeded =>
  obtain ⟨start, hstart, rfl⟩ := Option.map_eq_some_iff.1 hgot
  unfold processResolution at h
  simp only [hstart, hneeded] at h
  obtain ⟨offset, hoffset, h⟩ := Option.bind_eq_some_iff.1 h
  obtain ⟨module, hmodule, h⟩ := Option.bind_eq_some_iff.1 h
  obtain ⟨descriptor, hdescriptor, h⟩ := Option.bind_eq_some_iff.1 h
  cases h
  have hfirst := whenNeeded_within processGotTlsOffset_within hoffset
  have hsecond := whenNeeded_within processGotTlsModAndOffset_within hmodule
  refine ⟨descriptor, hdescriptor, ?_⟩
  rw [TlsTable.entryAt_append_right hfirst, TlsTable.entryAt_append_right hsecond]
  · cases res.flags.needsGotTlsOffset <;> cases res.flags.needsGotTlsModule <;>
      simp [gotEntrySize, tlsOffsetOffset, BitVec.add_assoc]
  · cases res.flags.needsGotTlsOffset <;> cases res.flags.needsGotTlsModule <;>
      simp [gotEntrySize, BitVec.add_assoc]

end Entries

end Reld.Tls
