import Reld.Input.VersionScript
import Reld.Link.Wrapped

/-!
# `Link.RustVersionScript` — the fast path for version scripts of Rust

With a version script of Rust, every named symbol of an object starts as local, and `handle_rust_version_script`
makes the definitions of the listed names global again. A listed name is looked up once, without a version, in the
symbol table. The symbol so ends as the patterns of the script say if the listed names that lead to it are its own
name (`fastPath_iff`).
-/

namespace Reld

open VersionScripts

/-- A listed name leads to the symbol. -/
def SymbolDb.Promotes (db : SymbolDb) (global : List Bytes) (id : SymbolId) : Prop :=
  ∃ symbol ∈ global, ∃ k, db.getUnversioned symbol = some k ∧ db.definition k = id

section FastPath

variable {Pattern : Type*} {cx : LoadContext} {o : InputObject} {s : SymtabEntry} {load : SymbolLoad}
  {nameBytes : Bytes} {body : RawVersionBody Pattern} {global : List Bytes}

/-- Every named symbol of an object is loaded as local. -/
theorem downgraded_of_rust (hscript : cx.versionScript = some (.rust global)) (hname : s.name = some nameBytes)
    (hdefined : s.isUndefined = false) (hglobal : s.isLocal = false) (hload : loadRegularSymbol cx o s = .ok load) :
    load.flags.contains .downgradeToLocal = true := by
  unfold loadRegularSymbol at hload
  simp only [hdefined, hglobal, hname, Bool.false_eq_true, if_false] at hload
  cases hload
  simp [SymbolLoad.named, LoadContext.downgradeFlags, LoadContext.shouldDowngradeToLocal, LoadContext.downgradesAll,
    hscript]

/-- What is left local: what was local and is not promoted. -/
theorem handleRustVersionScript_downgrade (db : SymbolDb) (flags : PerSymbolFlags) (id : SymbolId) :
    (handleRustVersionScript db global flags id).contains .downgradeToLocal = true ↔
      (flags id).contains .downgradeToLocal = true ∧ ¬ db.Promotes global id := by
  have hupgrade := upgradeExported_contains db global flags id .downgradeToLocal
  have hhandle : (handleRustVersionScript db global flags id).contains .downgradeToLocal =
      (upgradeExported db global flags id).contains .downgradeToLocal := by
    unfold handleRustVersionScript
    cases h : (upgradeExported db global flags id).contains .downgradeToLocal <;> simp [h]
  rw [hhandle, hupgrade]
  refine and_congr_right fun _ => ?_
  constructor
  · rintro hnone ⟨symbol, hsymbol, k, hk, hid⟩
    exact hnone rfl symbol hsymbol k hk hid
  · intro hnone _ symbol hsymbol k hk hid
    exact hnone ⟨symbol, hsymbol, k, hk, hid⟩

/-- **The fast path decides as the regular script exactly if** the regular script can read the name and the listed
    names lead to the symbol just when its own name is listed. `flags` are those of loading and what has been added
    since. -/
theorem fastPath_iff (l : Lookup Pattern) (hbody : body.toRust = some global)
    (hscript : cx.versionScript = some (.rust global)) (hname : s.name = some nameBytes)
    (hdefined : s.isUndefined = false) (hglobal : s.isLocal = false) (hload : loadRegularSymbol cx o s = .ok load)
    (db : SymbolDb) (flags : PerSymbolFlags) (id : SymbolId)
    (hflags : ∀ x, load.flags.contains x = true → (flags id).contains x = true) :
    body.toRegular.isLocal l (RawSymbolName.parse nameBytes).name =
        some ((handleRustVersionScript db global flags id).contains .downgradeToLocal) ↔
      ((RawSymbolName.parse nameBytes).name ∈ global ∨
          body.toVersionBody.locals.Readable (RawSymbolName.parse nameBytes).name) ∧
        ((RawSymbolName.parse nameBytes).name ∈ global ↔ db.Promotes global id) := by
  have hlocal := hflags _ (downgraded_of_rust hscript hname hdefined hglobal hload)
  have hfast : (handleRustVersionScript db global flags id).contains .downgradeToLocal = true ↔
      ¬ db.Promotes global id := by
    rw [handleRustVersionScript_downgrade, hlocal, eq_self_iff_true, true_and]
  -- Where the regular script answers, it says that what is not listed is local.
  have hsame (answer : Bool) : answer = decide ((RawSymbolName.parse nameBytes).name ∉ global) ↔
      (answer = true ↔ (RawSymbolName.parse nameBytes).name ∉ global) := by
    cases answer <;> simp
  have hiff : (handleRustVersionScript db global flags id).contains .downgradeToLocal =
        decide ((RawSymbolName.parse nameBytes).name ∉ global) ↔
      ((RawSymbolName.parse nameBytes).name ∈ global ↔ db.Promotes global id) := by
    rw [hsame, hfast, not_iff_not]
    exact Iff.comm
  rw [← isLocal_toRegular hbody (l := l)]
  constructor
  · intro h
    have heq := eq_of_isLocal_toRegular hbody h
    exact ⟨heq ▸ h, hiff.1 heq⟩
  · rintro ⟨h, hpromotes⟩
    rw [hiff.2 hpromotes]
    exact h

end FastPath

/-! ## A symbol with an empty version -/

/-- The script that exports `foo` only. -/
def exportFoo : RawVersionBody (List Char) := ⟨[.single (.exact (bytesOf "foo"))], [.single .matchesAll]⟩

/-- Names that are not mangled. -/
def plainLookup : Lookup (List Char) := ⟨starGlob, fun _ => none⟩

/-- An object that defines a symbol of the given name. -/
def definesInput (name : String) : LoadedInputs :=
  { objects := [[{ symbols := [nullSymbol, { name := some (bytesOf name) }] }]] }

/-- A shared object of one object, with the fast path for `exportFoo`. -/
def exportedState (name : String) : LinkState :=
  (LinkState.new plainArgs .sharedObject (some (.rust [bytesOf "foo"]))).addOrSame (definesInput name)

/-- The flags of a symbol after `handle_rust_version_script`. -/
def exportedFlags (name : String) (id : SymbolId) : ValueFlags :=
  handleRustVersionScript (exportedState name).db [bytesOf "foo"] (exportedState name).flags id

/-- How the fast path loads a symbol `foo`. -/
theorem fastPath_iff_foo :
    exportFoo.toRegular.isLocal plainLookup (bytesOf "foo") =
        some ((exportedFlags "foo" 2).contains .downgradeToLocal) ↔
      (bytesOf "foo" ∈ [bytesOf "foo"] ∨ exportFoo.toVersionBody.locals.Readable (bytesOf "foo")) ∧
        (bytesOf "foo" ∈ [bytesOf "foo"] ↔ (exportedState "foo").db.Promotes [bytesOf "foo"] 2) := by
  have h := @fastPath_iff _ ⟨plainArgs, .sharedObject, some (.rust [bytesOf "foo"])⟩
    { symbols := [nullSymbol, { name := some (bytesOf "foo") }] } { name := some (bytesOf "foo") } _
    (bytesOf "foo") exportFoo [bytesOf "foo"] plainLookup rfl rfl rfl rfl rfl rfl (exportedState "foo").db
    (exportedState "foo").flags 2 (fun x h => by cases x <;> exact h)
  exact h

/-- **`foo@` is never exported**: it has the name that the script lists, but is not in the table without a version. -/
theorem empty_version_stays_local :
    exportFoo.toRust = some [bytesOf "foo"] ∧
      (RawSymbolName.parse (bytesOf "foo@")).name = bytesOf "foo" ∧
      exportFoo.toRegular.isLocal plainLookup (bytesOf "foo") = some false ∧
      (exportedFlags "foo@" 2).contains .downgradeToLocal = true ∧
      (exportedFlags "foo" 2).contains .downgradeToLocal = false := by
  all_goals decide

end Reld
