import Mathlib.Algebra.Order.BigOperators.Group.List
import Mathlib.Algebra.Order.Ring.Nat
import Reld.Dynsym.Tables

/-!
# `Dynsym.Versions` — each entry of `.gnu.version` is the version of its symbol

Where each symbol is written with its version, the two tables stay in step. The definitions of linker scripts are
written without: the versions behind them in their chunk are too early, and as many slots at its end stay empty.
-/

namespace Reld.Dynsym

open Cursors Traverse

variable {layout : ElfLayout} {w w' : TableWriter} {n : Nat}

/-- The version of a symbol: that of the shared object it is imported or copied from, or what the version script says. -/
def ElfLayout.version (layout : ElfLayout) : DynamicSymbol → Option Nat
  | .null => some verNdxGlobal
  | .undefined _ => some verNdxGlobal
  | .imported state localIndex => importedVersion state localIndex
  | .definition symDef =>
    match layout.fileLayout symDef.symbolId with
    | .dynamic state symbols => importedVersion state (symDef.symbolId - symbols.start)
    | _                      => some symDef.version

/-! ## Cursors in step -/

/-- Both tables of a writer have all slots, and are in step. Without versions there are no slots at all. -/
structure ElfLayout.Matching (layout : ElfLayout) (n : Nat) (w : TableWriter) : Prop where
  size : w.dynsymWriter.size = n
  inStep : match w.versym with
    | none        => n = 0
    | some versym => InStep (fun symbol version => layout.version symbol = some version) w.dynsymWriter versym

variable {symbol : DynamicSymbol}

theorem defineSymbol_eq_some :
    w.defineSymbol symbol = some w' ↔
      ∃ dynsymWriter, w.dynsymWriter.push symbol = some dynsymWriter ∧ w' = ⟨dynsymWriter, w.versym⟩ := by
  rw [TableWriter.defineSymbol, Option.map_eq_some_iff]
  exact exists_congr fun _ => and_congr_right fun _ => eq_comm

/-- A symbol is written with its version. -/
theorem ElfLayout.Matching.write (h : layout.Matching n w)
    (hwrite : ((w.defineSymbol symbol).bind fun w => w.writeSymbolVersion (layout.version symbol)) = some w') :
    layout.Matching n w' := by
  obtain ⟨w₁, hsymbol, hversion⟩ := Option.bind_eq_some_iff.1 hwrite
  obtain ⟨dynsymWriter, hpush, rfl⟩ := defineSymbol_eq_some.1 hsymbol
  have hsize : dynsymWriter.size = n := (Cursor.size_push hpush).trans h.size
  have hinStep := h.inStep
  cases hversym : w.versym with
  | none =>
    -- there is no slot to write to
    rw [hversym] at hinStep
    obtain ⟨hfree, -⟩ := Cursor.push_eq_some.1 hpush
    have hnone := h.size
    rw [Cursor.size] at hnone
    omega
  | some versym =>
    rw [hversym] at hinStep
    rw [TableWriter.writeSymbolVersion, hversym] at hversion
    obtain ⟨version, hof, hversion⟩ := Option.bind_eq_some_iff.1 hversion
    obtain ⟨versym', hpush', rfl⟩ := Option.map_eq_some_iff.1 hversion
    exact ⟨hsize, hinStep.push hof hpush hpush'⟩

theorem ElfLayout.Matching.new (layout : ElfLayout) (n : Nat) : layout.Matching n (.new n n) := by
  refine ⟨Cursor.size_new, ?_⟩
  by_cases hn : n = 0
  · simp only [TableWriter.new, if_pos hn]
    exact hn
  · simp only [TableWriter.new, if_neg hn]
    exact InStep.new n

/-- The null symbol is written behind its version. -/
theorem writeSymbolVersion_defineSymbol (w : TableWriter) (version : Option Nat) (symbol : DynamicSymbol) :
    ((w.writeSymbolVersion version).bind fun w => w.defineSymbol symbol) =
      (w.defineSymbol symbol).bind fun w => w.writeSymbolVersion version := by
  obtain ⟨dynsymWriter, versym⟩ := w
  cases versym with
  | none => cases hpush : dynsymWriter.push symbol <;> simp [TableWriter.writeSymbolVersion, TableWriter.defineSymbol, hpush]
  | some versym =>
    cases version with
    | none =>
      cases hpush : dynsymWriter.push symbol <;> simp [TableWriter.writeSymbolVersion, TableWriter.defineSymbol, hpush]
    | some version =>
      cases hpush : dynsymWriter.push symbol <;> cases hversion : versym.push version <;>
        simp [TableWriter.writeSymbolVersion, TableWriter.defineSymbol, hpush, hversion]

/-- Without versions there is no slot left. -/
theorem ElfLayout.Matching.free_eq_zero (h : layout.Matching n w) (hnone : w.versym = none) : w.dynsymWriter.free = 0 := by
  have hinStep := h.inStep
  have hsize := h.size
  rw [hnone] at hinStep
  rw [Cursor.size] at hsize
  omega

/-- A part that is full, and in step, is passed. -/
theorem ElfLayout.Matching.pass (h : layout.Matching n w) {numSymbols : Nat} (hsome : 0 < numSymbols)
    {part part' rest : TableWriter} (htake : w.takeDynsymPrefix numSymbols = some (part, rest))
    (hpart : layout.Matching numSymbols part') (hfull : part'.dynsymWriter.free = 0) :
    layout.Matching n (rest.pass part') := by
  obtain ⟨dynsymWriter, hdynsym, htake⟩ := Option.bind_eq_some_iff.1 htake
  have hlength : part'.dynsymWriter.table.length = numSymbols := (Cursor.length_table _).trans hpart.size
  have hinStep := h.inStep
  have hinPart := hpart.inStep
  cases hversym : w.versym with
  | none =>
    have hfree := h.free_eq_zero hversym
    have htaken := (Cursor.take_eq_some.1 hdynsym).1
    omega
  | some versym =>
    rw [hversym] at hinStep htake
    obtain ⟨versym', hversym', heq⟩ := Option.map_eq_some_iff.1 htake
    cases heq
    refine ⟨(Cursor.size_pass hdynsym hlength).trans h.size, ?_⟩
    cases hversymPart : part'.versym with
    | none =>
      rw [hversymPart] at hinPart
      omega
    | some versymPart =>
      rw [hversymPart] at hinPart
      simp only [TableWriter.pass, hversymPart, Option.map₂_some_some]
      exact (hinStep.take hdynsym hversym').pass hinPart hfull

/-- The writer of a part has as many slots for versions as for symbols. -/
theorem takeDynsymPrefix_part {numSymbols : Nat} (h : layout.Matching n w) (hsome : 0 < numSymbols) {part rest : TableWriter}
    (htake : w.takeDynsymPrefix numSymbols = some (part, rest)) : part = .new numSymbols numSymbols := by
  obtain ⟨dynsymWriter, hdynsym, htake⟩ := Option.bind_eq_some_iff.1 htake
  cases hversym : w.versym with
  | none =>
    have hfree := h.free_eq_zero hversym
    have htaken := (Cursor.take_eq_some.1 hdynsym).1
    omega
  | some versym =>
    rw [hversym] at htake
    obtain ⟨versym', -, heq⟩ := Option.map_eq_some_iff.1 htake
    cases heq
    rw [TableWriter.new, if_neg (by omega)]

/-! ## Definitions -/

/-- The definitions of which the version is written. -/
def ElfLayout.IsVersioned (layout : ElfLayout) (symDef : DynamicSymbolDefinition) : Prop :=
  (layout.fileLayout symDef.symbolId).isLinkerScript = false

variable {symDef : DynamicSymbolDefinition}

theorem writeDynamicSymbolDefinition_versioned (h : layout.IsVersioned symDef)
    (hwrite : layout.writeDynamicSymbolDefinition w symDef = some w') :
    ((w.defineSymbol (.definition symDef)).bind fun w =>
      w.writeSymbolVersion (layout.version (.definition symDef))) = some w' := by
  unfold ElfLayout.IsVersioned at h
  unfold ElfLayout.writeDynamicSymbolDefinition at hwrite
  unfold ElfLayout.version
  cases hfile : layout.fileLayout symDef.symbolId with
  | linkerScript symbols =>
    rw [hfile] at h
    cases h
  | object symbols | dynamic state symbols | «prelude» symbols =>
    simp only [hfile] at hwrite ⊢
    exact hwrite
  | _ =>
    simp only [hfile] at hwrite
    cases hwrite

theorem defineSymbol_slots (h : w.defineSymbol symbol = some w') :
    w.dynsymWriter.free = w'.dynsymWriter.free + 1 ∧ w'.versym = w.versym := by
  obtain ⟨dynsymWriter, hpush, rfl⟩ := defineSymbol_eq_some.1 h
  obtain ⟨hfree, rfl⟩ := Cursor.push_eq_some.1 hpush
  exact ⟨by simp only; omega, rfl⟩

variable {versym : Cursor Nat}

theorem writeSymbolVersion_slots {version : Option Nat} (hversym : w.versym = some versym)
    (h : w.writeSymbolVersion version = some w') :
    w'.dynsymWriter = w.dynsymWriter ∧ ∃ versym', w'.versym = some versym' ∧ versym.free = versym'.free + 1 := by
  rw [TableWriter.writeSymbolVersion, hversym] at h
  obtain ⟨version, rfl, h⟩ := Option.bind_eq_some_iff.1 h
  obtain ⟨versym', hpush, rfl⟩ := Option.map_eq_some_iff.1 h
  obtain ⟨hfree, rfl⟩ := Cursor.push_eq_some.1 hpush
  exact ⟨rfl, _, rfl, by simp only; omega⟩

/-- Each definition takes a slot for its symbol, but that of a linker script takes none for its version. -/
theorem writeDynamicSymbolDefinition_slots (hversym : w.versym = some versym)
    (hwrite : layout.writeDynamicSymbolDefinition w symDef = some w') :
    w.dynsymWriter.free = w'.dynsymWriter.free + 1 ∧ ∃ versym', w'.versym = some versym' ∧
      versym.free = versym'.free + if (layout.fileLayout symDef.symbolId).isLinkerScript then 0 else 1 := by
  have hboth {version : Option Nat} (h : ((w.defineSymbol (.definition symDef)).bind fun w => w.writeSymbolVersion version) =
      some w') : w.dynsymWriter.free = w'.dynsymWriter.free + 1 ∧ ∃ versym', w'.versym = some versym' ∧
        versym.free = versym'.free + 1 := by
    obtain ⟨w₁, hsymbol, hversion⟩ := Option.bind_eq_some_iff.1 h
    obtain ⟨hfree, hkept⟩ := defineSymbol_slots hsymbol
    obtain ⟨hdynsym, versym', hversym', hslot⟩ := writeSymbolVersion_slots (hkept.trans hversym) hversion
    exact ⟨by rw [hfree, hdynsym], versym', hversym', hslot⟩
  unfold ElfLayout.writeDynamicSymbolDefinition at hwrite
  cases hfile : layout.fileLayout symDef.symbolId with
  | object symbols | dynamic state symbols | «prelude» symbols =>
    simp only [hfile] at hwrite
    exact hboth hwrite
  | linkerScript symbols =>
    simp only [hfile] at hwrite
    obtain ⟨hfree, hkept⟩ := defineSymbol_slots hwrite
    exact ⟨hfree, versym, hkept.trans hversym, rfl⟩
  | _ =>
    simp only [hfile] at hwrite
    cases hwrite

variable {symDefs : List DynamicSymbolDefinition}

/-- The definitions of linker scripts are what the versions lag behind the symbols. -/
theorem writeDynamicSymbolDefinitions_slots (hversym : w.versym = some versym)
    (hwrite : symDefs.foldlM layout.writeDynamicSymbolDefinition w = some w') :
    w.dynsymWriter.free = w'.dynsymWriter.free + symDefs.length ∧ ∃ versym', w'.versym = some versym' ∧
      versym.free + symDefs.countP (fun symDef => (layout.fileLayout symDef.symbolId).isLinkerScript) =
        versym'.free + symDefs.length := by
  induction symDefs generalizing w versym with
  | nil =>
    cases hwrite
    exact ⟨rfl, versym, hversym, rfl⟩
  | cons symDef symDefs ih =>
    obtain ⟨w₁, hfirst, hrest⟩ := Option.bind_eq_some_iff.1 hwrite
    obtain ⟨hfree, versym₁, hversym₁, hslot⟩ := writeDynamicSymbolDefinition_slots hversym hfirst
    obtain ⟨hfree', versym', hversym', hslots⟩ := ih hversym₁ hrest
    refine ⟨by rw [List.length_cons]; omega, versym', hversym', ?_⟩
    rw [List.countP_cons, List.length_cons]
    split at hslot
    next hscript => rw [if_pos hscript]; omega
    next hscript => rw [if_neg hscript]; omega

variable {chunkSize : Nat}

theorem chunksOf_flatten (h : 0 < chunkSize) {n : Nat} (hn : symDefs.length ≤ n) :
    (chunksOf chunkSize n symDefs).flatten = symDefs := by
  induction n generalizing symDefs with
  | zero => exact (List.length_eq_zero_iff.1 (Nat.le_zero.1 hn)).symm
  | succ n ih =>
    cases symDefs with
    | nil => rfl
    | cons symDef rest =>
      have hrest : ((symDef :: rest).drop chunkSize).length ≤ n := by
        rw [List.length_drop]
        omega
      rw [chunksOf, List.flatten_cons, ih hrest, List.take_append_drop]

theorem chunks_flatten (h : 0 < chunkSize) (symDefs : List DynamicSymbolDefinition) :
    (chunks chunkSize symDefs).flatten = symDefs := chunksOf_flatten h (Nat.le_refl _)

theorem chunksOf_length_pos (h : 0 < chunkSize) {n : Nat} {chunk : List DynamicSymbolDefinition}
    (hchunk : chunk ∈ chunksOf chunkSize n symDefs) : 0 < chunk.length := by
  induction n generalizing symDefs with
  | zero => cases hchunk
  | succ n ih =>
    cases symDefs with
    | nil => cases hchunk
    | cons symDef rest =>
      rcases List.mem_cons.1 hchunk with rfl | hchunk
      · rw [List.length_take, List.length_cons]
        omega
      · exact ih hchunk

/-- A chunk without definitions of linker scripts is written in step. -/
theorem ElfLayout.Matching.chunk (h : layout.Matching n w) (hsome : 0 < symDefs.length)
    (hversioned : ∀ symDef ∈ symDefs, layout.IsVersioned symDef) (hwrite : layout.writeChunk w symDefs = some w') :
    layout.Matching n w' := by
  obtain ⟨⟨part, rest⟩, htake, hwrite⟩ := Option.bind_eq_some_iff.1 hwrite
  obtain ⟨part', hpart, rfl⟩ := Option.map_eq_some_iff.1 hwrite
  obtain rfl := takeDynsymPrefix_part h hsome htake
  have hversym : (TableWriter.new symDefs.length symDefs.length).versym = some (.new symDefs.length) := by
    rw [TableWriter.new, if_neg (by omega)]
  have hslots := (writeDynamicSymbolDefinitions_slots hversym hpart).1
  have hmatching : layout.Matching symDefs.length part' := by
    refine foldlM_keeps (fun symDef hmem w w' hw hstep => ?_) (ElfLayout.Matching.new layout symDefs.length) hpart
    exact hw.write (writeDynamicSymbolDefinition_versioned (hversioned symDef hmem) hstep)
  refine h.pass hsome htake hmatching ?_
  have hfree : (TableWriter.new symDefs.length symDefs.length).dynsymWriter.free = symDefs.length := rfl
  omega

/-! ## Files and groups -/

theorem versionsUsed_of_enabled (h : layout.gnuVersionEnabled = true) : layout.versionsUsed = true := by
  unfold ElfLayout.gnuVersionEnabled at h
  by_contra hunused
  have hzero : layout.groups.map layout.gnuVersionSize = layout.groups.map fun _ => 0 :=
    List.map_congr_left fun group _ => if_neg hunused
  rw [hzero, List.map_const', List.sum_replicate] at h
  simp at h

theorem needsDynsym_of_versionsUsed (h : layout.versionsUsed = true) : needsDynsym layout.outputKind = true := by
  have hkind := (Bool.and_eq_true _ _ ▸ h).1
  cases hof : layout.outputKind <;> rw [hof] at hkind <;> first | rfl | cases hkind

theorem needsDynamic_of_versionsUsed (h : layout.versionsUsed = true) : layout.outputKind.needsDynamic = true := by
  have hkind := (Bool.and_eq_true _ _ ▸ h).1
  cases hof : layout.outputKind <;> rw [hof] at hkind <;> first | rfl | cases hkind

/-- **A file keeps the tables in step, if no definition is left without a version.** -/
theorem ElfLayout.Matching.file (h : layout.Matching n w) (hsize : 0 < chunkSize)
    (henabled : layout.gnuVersionEnabled = true)
    (hversioned : ∀ symDef ∈ layout.dynamicSymbolDefinitions, layout.IsVersioned symDef) {file : FileLayout}
    (hwrite : layout.writeFile chunkSize w file = some w') : layout.Matching n w' := by
  cases file with
  | «prelude» symbols =>
    simp only [ElfLayout.writeFile, ElfLayout.writePrelude, henabled, if_true,
      needsDynsym_of_versionsUsed (versionsUsed_of_enabled henabled)] at hwrite
    rw [writeSymbolVersion_defineSymbol] at hwrite
    exact h.write hwrite
  | object symbols =>
    refine foldlM_keeps (fun resolution _ w w' hw hstep => ?_) h hwrite
    simp only [ElfLayout.writeObjectSymbol, henabled, if_true] at hstep
    split at hstep
    · exact hw.write hstep
    · cases hstep
      exact hw
  | dynamic state symbols =>
    refine foldlM_keeps (fun resolution _ w w' hw hstep => ?_) h hwrite
    unfold writeDynamicFileSymbol at hstep
    split at hstep
    · cases hstep
      exact hw
    · exact hw.write hstep
  | epilogue =>
    refine foldlM_keeps (fun chunk hchunk w w' hw hstep => ?_) h hwrite
    refine hw.chunk (chunksOf_length_pos hsize hchunk) (fun symDef hmem => hversioned symDef ?_) hstep
    rw [← chunks_flatten hsize layout.dynamicSymbolDefinitions]
    exact List.mem_flatten_of_mem hchunk hmem
  | _ =>
    cases hwrite
    exact h

/-- Each entry of one table is the version of the symbol in the entry of the other, and there are `n` of both. -/
def ElfLayout.TablesMatch (layout : ElfLayout) (n : Nat) (tables : Tables) : Prop :=
  ∃ symbols versions, tables.dynsym = symbols.map some ∧ tables.gnuVersion = versions.map some ∧
    List.Forall₂ (fun symbol version => layout.version symbol = some version) symbols versions ∧ symbols.length = n

theorem ElfLayout.Matching.tables (h : layout.Matching n w) (hempty : w.validateEmpty = true) :
    layout.TablesMatch n w.tables := by
  have hinStep := h.inStep
  have hfull : w.dynsymWriter.free = 0 := by
    exact beq_iff_eq.1 (Bool.and_eq_true _ _ ▸ hempty).1
  cases hversym : w.versym with
  | none =>
    rw [hversym] at hinStep
    have hnil : w.dynsymWriter.table = [] := by
      rw [← List.length_eq_zero_iff, Cursor.length_table, h.size, hinStep]
    exact ⟨[], [], hnil, by rw [TableWriter.tables, hversym]; rfl, .nil, hinStep.symm⟩
  | some versym =>
    rw [hversym] at hinStep
    obtain ⟨symbols, versions, hsymbols, hversions, hall⟩ := InStep.tables hinStep hfull
    refine ⟨symbols, versions, hsymbols, by rw [TableWriter.tables, hversym]; exact hversions, hall, ?_⟩
    rw [← h.size, ← Cursor.length_table, hsymbols, List.length_map]

theorem gnuVersionSize_eq (h : layout.gnuVersionEnabled = true) (group : List FileLayout) :
    layout.gnuVersionSize group = layout.dynsymSize group := if_pos (versionsUsed_of_enabled h)

variable {group : List FileLayout}

/-- A group fills its parts. -/
theorem writeGroup_match (hsize : 0 < chunkSize) (henabled : layout.gnuVersionEnabled = true)
    (hversioned : ∀ symDef ∈ layout.dynamicSymbolDefinitions, layout.IsVersioned symDef) {tables : Tables}
    (hwrite : layout.writeGroup chunkSize group = some tables) :
    layout.TablesMatch (layout.dynsymSize group) tables := by
  rw [ElfLayout.writeGroup, gnuVersionSize_eq henabled] at hwrite
  obtain ⟨w, hfiles, hvalid⟩ := Option.bind_eq_some_iff.1 hwrite
  have hmatching : layout.Matching (layout.dynsymSize group) w :=
    foldlM_keeps (fun file _ w w' hw hstep => hw.file hsize henabled hversioned hstep)
      (ElfLayout.Matching.new layout (layout.dynsymSize group)) hfiles
  split at hvalid
  next hempty =>
    cases hvalid
    exact hmatching.tables hempty
  next => cases hvalid

theorem tablesMatch_flatMap {groups : List (List FileLayout)} {parts : List Tables}
    (h : List.Forall₂ (fun group part => layout.TablesMatch (layout.dynsymSize group) part) groups parts) :
    layout.TablesMatch (groups.map layout.dynsymSize).sum ⟨parts.flatMap (·.dynsym), parts.flatMap (·.gnuVersion)⟩ := by
  induction h with
  | nil => exact ⟨[], [], rfl, rfl, .nil, rfl⟩
  | cons hpart _ ih =>
    obtain ⟨symbols, versions, hsymbols, hversions, hall, hlength⟩ := hpart
    obtain ⟨symbols', versions', hsymbols', hversions', hall', hlength'⟩ := ih
    refine ⟨symbols ++ symbols', versions ++ versions', ?_, ?_, List.rel_append hall hall', ?_⟩
    · simp [hsymbols, ← hsymbols']
    · simp [hversions, ← hversions']
    · rw [List.length_append, hlength, hlength', List.map_cons, List.sum_cons]

/-! ## Definitions of linker scripts -/

/-- What is behind the cursor for versions stays there. -/
def TableWriter.Grows (w w' : TableWriter) : Prop :=
  ∀ versym, w.versym = some versym → ∃ versym', w'.versym = some versym' ∧ versym.passed <+: versym'.passed

namespace TableWriter.Grows

theorem refl (w : TableWriter) : w.Grows w := fun versym h => ⟨versym, h, List.prefix_refl _⟩

theorem trans {w₁ w₂ w₃ : TableWriter} (h : w₁.Grows w₂) (h' : w₂.Grows w₃) : w₁.Grows w₃ := by
  intro versym hversym
  obtain ⟨versym₂, hversym₂, hfront⟩ := h versym hversym
  obtain ⟨versym₃, hversym₃, hfront'⟩ := h' versym₂ hversym₂
  exact ⟨versym₃, hversym₃, hfront.trans hfront'⟩

variable {symbol : DynamicSymbol}

theorem defineSymbol (h : w.defineSymbol symbol = some w') : w.Grows w' := by
  intro versym hversym
  exact ⟨versym, (defineSymbol_slots h).2.trans hversym, List.prefix_refl _⟩

theorem writeSymbolVersion {version : Option Nat} (h : w.writeSymbolVersion version = some w') : w.Grows w' := by
  intro versym hversym
  rw [TableWriter.writeSymbolVersion, hversym] at h
  obtain ⟨version, -, h⟩ := Option.bind_eq_some_iff.1 h
  obtain ⟨versym', hpush, rfl⟩ := Option.map_eq_some_iff.1 h
  obtain ⟨-, rfl⟩ := Cursor.push_eq_some.1 hpush
  exact ⟨_, rfl, List.prefix_append _ _⟩

theorem both {version : Option Nat}
    (h : ((w.defineSymbol symbol).bind fun w => w.writeSymbolVersion version) = some w') : w.Grows w' := by
  obtain ⟨w₁, hsymbol, hversion⟩ := Option.bind_eq_some_iff.1 h
  exact (defineSymbol hsymbol).trans (writeSymbolVersion hversion)

theorem foldlM {α : Type} {f : TableWriter → α → Option TableWriter} {xs : List α}
    (hstep : ∀ x w w', f w x = some w' → w.Grows w') (h : xs.foldlM f w = some w') : w.Grows w' :=
  foldlM_keeps (fun x _ _ _ hw hx => hw.trans (hstep x _ _ hx)) (refl w) h

theorem definition {symDef : DynamicSymbolDefinition} (h : layout.writeDynamicSymbolDefinition w symDef = some w') :
    w.Grows w' := by
  unfold ElfLayout.writeDynamicSymbolDefinition at h
  split at h
  · exact both h
  · exact both h
  · exact defineSymbol h
  · exact both h
  · cases h

theorem chunk {symDefs : List DynamicSymbolDefinition} (h : layout.writeChunk w symDefs = some w') : w.Grows w' := by
  intro versym hversym
  obtain ⟨⟨part, rest⟩, htake, hwrite⟩ := Option.bind_eq_some_iff.1 h
  obtain ⟨part', hpart, rfl⟩ := Option.map_eq_some_iff.1 hwrite
  obtain ⟨dynsymWriter, hdynsym, htake⟩ := Option.bind_eq_some_iff.1 htake
  rw [hversym] at htake
  obtain ⟨versym', hversym', heq⟩ := Option.map_eq_some_iff.1 htake
  cases heq
  obtain ⟨-, rfl⟩ := Cursor.take_eq_some.1 hversym'
  obtain ⟨versymPart, hversymPart, -⟩ := foldlM (fun _ _ _ => definition) hpart _ rfl
  refine ⟨Cursor.pass ⟨versym.passed, versym.free - symDefs.length⟩ versymPart.table, ?_, List.prefix_append _ _⟩
  simp [TableWriter.pass, hversymPart]

theorem file {chunkSize : Nat} {file : FileLayout} (h : layout.writeFile chunkSize w file = some w') : w.Grows w' := by
  cases file with
  | «prelude» symbols =>
    obtain ⟨w₁, hversion, hsymbol⟩ := Option.bind_eq_some_iff.1 h
    have hfirst : w.Grows w₁ := by
      split at hversion
      · exact writeSymbolVersion hversion
      · cases hversion
        exact refl w
    refine hfirst.trans ?_
    split at hsymbol
    · exact defineSymbol hsymbol
    · cases hsymbol
      exact refl _
  | object symbols =>
    refine foldlM (fun resolution w w' hstep => ?_) h
    unfold ElfLayout.writeObjectSymbol at hstep
    split at hstep
    · obtain ⟨w₁, hsymbol, hversion⟩ := Option.bind_eq_some_iff.1 hstep
      refine (defineSymbol hsymbol).trans ?_
      split at hversion
      · exact writeSymbolVersion hversion
      · cases hversion
        exact refl _
    · cases hstep
      exact refl _
  | dynamic state symbols =>
    refine foldlM (fun resolution w w' hstep => ?_) h
    unfold writeDynamicFileSymbol at hstep
    split at hstep
    · cases hstep
      exact refl w
    · exact both hstep
  | epilogue => exact foldlM (fun _ _ _ => chunk) h
  | _ =>
    cases h
    exact refl w

end TableWriter.Grows

/-- A version is missing behind the cursor. -/
def TableWriter.HasGap (w : TableWriter) : Prop := ∃ versym, w.versym = some versym ∧ none ∈ versym.passed

/-- A chunk with a definition of a linker script leaves a gap. -/
theorem writeChunk_gap (hmem : symDef ∈ symDefs) (hscript : (layout.fileLayout symDef.symbolId).isLinkerScript = true)
    (hversym : w.versym.isSome) (hwrite : layout.writeChunk w symDefs = some w') : w'.HasGap := by
  obtain ⟨⟨part, rest⟩, htake, hwrite⟩ := Option.bind_eq_some_iff.1 hwrite
  obtain ⟨part', hpart, rfl⟩ := Option.map_eq_some_iff.1 hwrite
  obtain ⟨versym, hversym⟩ := Option.isSome_iff_exists.1 hversym
  obtain ⟨dynsymWriter, hdynsym, htake⟩ := Option.bind_eq_some_iff.1 htake
  rw [hversym] at htake
  obtain ⟨versym', hversym', heq⟩ := Option.map_eq_some_iff.1 htake
  cases heq
  obtain ⟨hfree, versymPart, hversymPart, hslots⟩ := writeDynamicSymbolDefinitions_slots rfl hpart
  have hlag : 0 < symDefs.countP fun symDef => (layout.fileLayout symDef.symbolId).isLinkerScript :=
    List.countP_pos_iff.2 ⟨symDef, hmem, hscript⟩
  have hnone : none ∈ versymPart.table := by
    refine Cursor.none_mem_table ?_
    simp only [Cursor.new] at hslots
    omega
  refine ⟨versym'.pass versymPart.table, ?_, List.mem_append_right _ hnone⟩
  simp [TableWriter.pass, hversymPart]

theorem TableWriter.HasGap.grows (h : w.HasGap) (hgrows : w.Grows w') : w'.HasGap := by
  obtain ⟨versym, hversym, hnone⟩ := h
  obtain ⟨versym', hversym', hfront⟩ := hgrows versym hversym
  exact ⟨versym', hversym', hfront.subset hnone⟩

theorem isSome_of_grows (h : w.versym.isSome) (hgrows : w.Grows w') : w'.versym.isSome := by
  obtain ⟨versym, hversym⟩ := Option.isSome_iff_exists.1 h
  obtain ⟨versym', hversym', -⟩ := hgrows versym hversym
  exact Option.isSome_iff_exists.2 ⟨versym', hversym'⟩

/-- A run with a step that leaves a gap. -/
theorem foldlM_gap {α : Type} {f : TableWriter → α → Option TableWriter} {xs : List α} {x : α} (hmem : x ∈ xs)
    (hgrows : ∀ x w w', f w x = some w' → w.Grows w')
    (hgap : ∀ w w', w.versym.isSome → f w x = some w' → w'.HasGap) (hversym : w.versym.isSome)
    (hrun : xs.foldlM f w = some w') : w'.HasGap := by
  obtain ⟨front, behind, rfl⟩ := List.append_of_mem hmem
  rw [List.foldlM_append] at hrun
  obtain ⟨w₁, hfront, hrun⟩ := Option.bind_eq_some_iff.1 hrun
  obtain ⟨w₂, hstep, hbehind⟩ := Option.bind_eq_some_iff.1 hrun
  have hsome : w₁.versym.isSome := isSome_of_grows hversym (.foldlM hgrows hfront)
  exact (hgap w₁ w₂ hsome hstep).grows (.foldlM hgrows hbehind)

/-- A group with the epilogue has a gap. -/
theorem writeGroup_gap (hsize : 0 < chunkSize) (henabled : layout.gnuVersionEnabled = true)
    (hmem : symDef ∈ layout.dynamicSymbolDefinitions)
    (hscript : (layout.fileLayout symDef.symbolId).isLinkerScript = true) (hepilogue : FileLayout.epilogue ∈ group)
    {tables : Tables} (hwrite : layout.writeGroup chunkSize group = some tables) :
    none ∈ tables.gnuVersion := by
  have hsome : 0 < layout.dynsymSize group := by
    have hdefs : layout.finaliseSizes .epilogue = layout.dynamicSymbolDefinitions.length :=
      if_pos (needsDynamic_of_versionsUsed (versionsUsed_of_enabled henabled))
    have hle : layout.finaliseSizes .epilogue ≤ layout.dynsymSize group :=
      List.le_sum_of_mem (List.mem_map_of_mem hepilogue)
    have := List.length_pos_of_mem hmem
    omega
  rw [ElfLayout.writeGroup, gnuVersionSize_eq henabled] at hwrite
  obtain ⟨w, hfiles, hvalid⟩ := Option.bind_eq_some_iff.1 hwrite
  have hversym : (TableWriter.new (layout.dynsymSize group) (layout.dynsymSize group)).versym.isSome := by
    rw [TableWriter.new, if_neg (by omega)]
    rfl
  have hgap : w.HasGap := by
    refine foldlM_gap hepilogue (fun _ _ _ => .file) (fun w w' hsome hstep => ?_) hversym hfiles
    rw [← chunks_flatten hsize layout.dynamicSymbolDefinitions] at hmem
    obtain ⟨chunk, hchunk, hmem⟩ := List.mem_flatten.1 hmem
    exact foldlM_gap (f := layout.writeChunk) hchunk (fun _ _ _ => .chunk)
      (fun _ _ hsome hstep => writeChunk_gap hmem hscript hsome hstep) hsome hstep
  obtain ⟨versym, hversym, hnone⟩ := hgap
  split at hvalid
  · cases hvalid
    rw [TableWriter.tables, hversym]
    exact List.mem_append_left _ hnone
  · cases hvalid

/-! ## Both tables -/

/-- Where versions are written, they are those of the symbols, and both tables are full. -/
def ElfLayout.VersionsMatch (layout : ElfLayout) (tables : Tables) : Prop :=
  layout.gnuVersionEnabled = true → layout.TablesMatch (layout.groups.map layout.dynsymSize).sum tables

/-- **Each version is that of the symbol in the same place, and no place is left out: exactly if there are no versions,
or no definition is from a linker script.** -/
theorem versions_match_iff (layout : ElfLayout) {chunkSize : Nat} (hsize : 0 < chunkSize) {tables : Tables}
    (hwrite : layout.write chunkSize = some tables) :
    layout.VersionsMatch tables ↔
      (layout.gnuVersionEnabled = true →
        ∀ symDef ∈ layout.dynamicSymbolDefinitions, (layout.fileLayout symDef.symbolId).isLinkerScript = false) := by
  obtain ⟨parts, hparts, rfl⟩ := Option.map_eq_some_iff.1 hwrite
  constructor
  · intro hmatch henabled symDef hmem
    obtain ⟨symbols, versions, -, hversions, -⟩ := hmatch henabled
    obtain ⟨group, hgroup, hepilogue⟩ := layout.epilogue_mem
    by_contra hscript
    rw [Bool.not_eq_false] at hscript
    -- the part of the group with the epilogue has a gap, so the table has one
    obtain ⟨i, hi⟩ := List.mem_iff_getElem?.1 hgroup
    have hpart := getElem?_of_mapM hparts hi
    cases htables : parts[i]? with
    | none =>
      rw [List.getElem?_eq_none_iff] at htables
      have hlength := (forall₂_of_mapM hparts).length_eq
      have hlt := (List.getElem?_eq_some_iff.1 hi).1
      omega
    | some tables =>
      rw [htables] at hpart
      have hgap : none ∈ parts.flatMap (·.gnuVersion) :=
        List.mem_flatMap_of_mem (List.mem_of_getElem? htables) (writeGroup_gap hsize henabled hmem hscript hepilogue hpart)
      have hin : none ∈ versions.map some := by
        rw [← hversions]
        exact hgap
      obtain ⟨version, -, hnone⟩ := List.mem_map.1 hin
      cases hnone
  · intro hversioned henabled
    exact tablesMatch_flatMap ((forall₂_of_mapM hparts).imp fun group part hpart =>
      writeGroup_match hsize henabled (hversioned henabled) hpart)

theorem chunkSize_pos (layout : ElfLayout) (currentNumThreads : Nat) : 0 < layout.chunkSize currentNumThreads :=
  Nat.lt_of_lt_of_le (by decide) (Nat.le_max_left 10 _)

/-! ## Runs -/

/-- A shared object with a version script: symbol 1 is from a linker script, symbol 2 is from an object, and the symbols
from 3 on are from the prelude. -/
def scriptLayout (symDefs : List DynamicSymbolDefinition) : ElfLayout where
  outputKind := .sharedObject
  groups := [[.prelude ⟨3, []⟩], [.linkerScript ⟨1, []⟩, .object ⟨2, []⟩, .epilogue]]
  verneedCount := 0
  verdefCount := 3
  fileLayout := fun symbolId =>
    if symbolId = 1 then .linkerScript ⟨1, []⟩ else if symbolId = 2 then .object ⟨2, []⟩ else .prelude ⟨3, []⟩
  dynamicSymbolDefinitions := symDefs
  epilogue_mem := ⟨_, List.mem_cons_of_mem _ (List.mem_singleton_self _), by simp⟩

/-- The definitions of an object and of the prelude have their versions. -/
theorem versions_match_two :
    ∃ tables, (scriptLayout [⟨2, 2⟩, ⟨3, 3⟩]).write ((scriptLayout [⟨2, 2⟩, ⟨3, 3⟩]).chunkSize 1) = some tables ∧
      (scriptLayout [⟨2, 2⟩, ⟨3, 3⟩]).VersionsMatch tables := by
  have hsize := chunkSize_pos (scriptLayout [⟨2, 2⟩, ⟨3, 3⟩]) 1
  refine ⟨_, rfl, (versions_match_iff _ hsize rfl).2 fun _ symDef hmem => ?_⟩
  rcases List.mem_cons.1 hmem with rfl | hmem
  · rfl
  · rw [List.mem_singleton.1 hmem]
    rfl

/-- Behind the definition of a linker script, the object's version is in its place, and the last place stays empty. -/
theorem script_shifts_versions :
    ∃ tables, (scriptLayout [⟨1, 2⟩, ⟨2, 3⟩]).write ((scriptLayout [⟨1, 2⟩, ⟨2, 3⟩]).chunkSize 1) = some tables ∧
    tables.gnuVersion = [some 1, some 3, none] ∧ ¬(scriptLayout [⟨1, 2⟩, ⟨2, 3⟩]).VersionsMatch tables := by
  refine ⟨_, rfl, rfl, fun hmatch => ?_⟩
  obtain ⟨symbols, versions, -, hversions, -⟩ := hmatch rfl
  have hin : none ∈ versions.map some := by
    rw [← hversions]
    exact List.mem_cons_of_mem _ (List.mem_cons_of_mem _ (List.mem_cons_self ..))
  obtain ⟨version, -, hnone⟩ := List.mem_map.1 hin
  cases hnone

end Reld.Dynsym
