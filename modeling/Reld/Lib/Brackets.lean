import Mathlib.Data.Set.Function
import Mathlib.Data.List.Induction

/-!
# `Lib.Brackets` — streams of events that open and close things

Some events of a stream open a bracket, some close one, the others do neither. `Run` builds a stream at its end
and keeps the set of the brackets that are open: a bracket is opened at most once, and only while no other of
its kind is open; it is closed only while it is open; the other events may ask something of the open set.

In every `Run` each bracket is opened once and closed at most once, no two of one kind are open together, and an
event finds the open set that it asked for.
-/

universe u v w

namespace Brackets

/-- What an event does. -/
inductive Mark (ι : Type u) where
  | opens (i : ι)
  | closes (i : ι)
  | other
deriving DecidableEq

variable {ε : Type u} {ι : Type v} {κ : Type w} (mark : ε → Mark ι) (kind : ι → κ) (asks : ε → Set ι → Prop)

/-- The event opens or closes the bracket. -/
def Mentions (i : ι) (e : ε) : Prop := mark e = .opens i ∨ mark e = .closes i

/-- A bracket is open after a stream: it was opened and not closed. -/
def IsOpen (i : ι) (l : List ε) : Prop := (∃ e ∈ l, mark e = .opens i) ∧ ∀ e ∈ l, mark e ≠ .closes i

/-- The streams that handle their brackets well, with the brackets open at the end. -/
inductive Run : List ε → Set ι → Prop
  | nil : Run [] ∅
  | opens {l : List ε} {s : Set ι} {e : ε} {i : ι} : Run l s → mark e = .opens i →
      (∀ f ∈ l, ¬ Mentions mark i f) → (∀ j ∈ s, kind j ≠ kind i) → Run (l ++ [e]) (insert i s)
  | closes {l : List ε} {s : Set ι} {e : ε} {i : ι} : Run l s → mark e = .closes i → i ∈ s →
      Run (l ++ [e]) (s \ {i})
  | other {l : List ε} {s : Set ι} {e : ε} : Run l s → mark e = .other → asks e s → Run (l ++ [e]) s

variable {mark kind asks} {l m : List ε} {s : Set ι} {e : ε} {i j : ι}

/-! ## Building a stream -/

namespace Run

/-- Events that neither open nor close. -/
theorem others (h : Run mark kind asks l s) (hm : ∀ e ∈ m, mark e = .other ∧ asks e s) :
    Run mark kind asks (l ++ m) s := by
  induction m generalizing l with
  | nil => simpa using h
  | cons e m ih =>
    obtain ⟨he, hasks⟩ := hm e List.mem_cons_self
    have hnext := ih (h.other he hasks) (fun f hf => hm f (List.mem_cons_of_mem e hf))
    rwa [List.append_assoc, List.singleton_append] at hnext

/-- Some open brackets are closed, in any order. -/
theorem closeAll {close : ι → ε} {stop : List ι} (h : Run mark kind asks l s)
    (hclose : ∀ i, mark (close i) = .closes i) (hnodup : stop.Nodup) (hstop : ∀ i ∈ stop, i ∈ s) :
    Run mark kind asks (l ++ stop.map close) (s \ {i | i ∈ stop}) := by
  induction stop generalizing l s with
  | nil => simpa using h
  | cons i stop ih =>
    obtain ⟨hi, hnodup⟩ := List.nodup_cons.mp hnodup
    have hfirst := h.closes (hclose i) (hstop i List.mem_cons_self)
    have hrest := ih hfirst hnodup (fun j hj => by
      refine ⟨hstop j (List.mem_cons_of_mem i hj), ?_⟩
      rintro rfl
      exact hi hj)
    have hset : (s \ {i}) \ {j | j ∈ stop} = s \ {j | j ∈ i :: stop} := by
      ext j
      simp [and_assoc]
    rw [List.append_assoc, List.singleton_append, hset] at hrest
    exact hrest

/-- New brackets are opened, one after the other, when their kinds and those of the open ones are different. -/
theorem openAll {opn : ι → ε} {start : List ι} (h : Run mark kind asks l s)
    (hopn : ∀ i, mark (opn i) = .opens i) (hnodup : start.Nodup) (hnew : ∀ i ∈ start, ∀ f ∈ l, ¬ Mentions mark i f)
    (hs : ∀ i ∈ start, i ∉ s) (hkind : Set.InjOn kind (s ∪ {i | i ∈ start})) :
    Run mark kind asks (l ++ start.map opn) (s ∪ {i | i ∈ start}) := by
  induction start generalizing l s with
  | nil => simpa using h
  | cons i start ih =>
    obtain ⟨hi, hnodup⟩ := List.nodup_cons.mp hnodup
    have hset : insert i s ∪ {j | j ∈ start} = s ∪ {j | j ∈ i :: start} := by
      ext j
      simp only [Set.mem_union, Set.mem_insert_iff, Set.mem_ofPred_eq, List.mem_cons]
      tauto
    have hfirst := h.opens (hopn i) (hnew i List.mem_cons_self) (fun j hj hsame => by
      -- an open bracket of the same kind would be `i` itself
      have hij : j = i := hkind (.inl hj) (.inr List.mem_cons_self) hsame
      exact hs i List.mem_cons_self (hij ▸ hj))
    have hrest := ih hfirst hnodup
      (fun j hj f hf => by
        rcases List.mem_append.mp hf with hf | hf
        · exact hnew j (List.mem_cons_of_mem i hj) f hf
        · rw [List.mem_singleton.mp hf]
          rintro (hmark | hmark)
          · rw [hopn] at hmark
            obtain rfl : i = j := by injection hmark
            exact hi hj
          · rw [hopn] at hmark
            cases hmark)
      (fun j hj hmem => by
        rcases Set.mem_insert_iff.mp hmem with rfl | hmem
        · exact hi hj
        · exact hs j (List.mem_cons_of_mem i hj) hmem)
      (hset ▸ hkind)
    rw [List.append_assoc, List.singleton_append, hset] at hrest
    exact hrest

/-! ## What holds of a stream -/

/-- The last event of a stream found what it asked for. -/
theorem last (h : Run mark kind asks (l ++ [e]) s) :
    ∃ t, Run mark kind asks l t ∧ (mark e = .other → asks e t) := by
  generalize hm : l ++ [e] = m at h
  cases h with
  | nil => exact absurd hm (List.append_ne_nil_of_right_ne_nil l (List.cons_ne_nil e []))
  | @opens l' t e' i hrun hmark _ _ | @closes l' t e' i hrun hmark _ =>
    obtain ⟨rfl, rfl⟩ := List.append_singleton_inj.mp hm
    refine ⟨t, hrun, fun hother => ?_⟩
    rw [hmark] at hother
    cases hother
  | other hrun hmark hasks =>
    obtain ⟨rfl, rfl⟩ := List.append_singleton_inj.mp hm
    exact ⟨s, hrun, fun _ => hasks⟩

/-- What comes first in a stream is a stream. -/
theorem of_append (h : Run mark kind asks (l ++ m) s) : ∃ t, Run mark kind asks l t := by
  induction m using List.reverseRecOn generalizing s with
  | nil => exact ⟨s, by simpa using h⟩
  | append_singleton m e ih =>
    rw [← List.append_assoc] at h
    obtain ⟨t, hrun, -⟩ := h.last
    exact ih hrun

/-- Every event of a stream found what it asked for. -/
theorem asked (h : Run mark kind asks (l ++ e :: m) s) (he : mark e = .other) :
    ∃ t, Run mark kind asks l t ∧ asks e t := by
  rw [List.append_cons] at h
  obtain ⟨_, hfirst⟩ := h.of_append
  obtain ⟨t, hrun, hasks⟩ := hfirst.last
  exact ⟨t, hrun, hasks he⟩

/-- No two open brackets are of one kind. -/
theorem injOn (h : Run mark kind asks l s) : Set.InjOn kind s := by
  induction h with
  | nil => exact Set.injOn_empty kind
  | opens _ _ _ hkind ih =>
    rintro j (rfl | hj) k (rfl | hk) hsame
    · rfl
    · exact absurd hsame.symm (hkind k hk)
    · exact absurd hsame (hkind j hj)
    · exact ih hj hk hsame
  | closes _ _ _ ih => exact ih.mono Set.sdiff_subset
  | other _ _ _ ih => exact ih

/-- An event about the bracket. -/
theorem filter_concat_of [DecidablePred (Mentions mark i)] (h : Mentions mark i e) :
    (l ++ [e]).filter (Mentions mark i) = l.filter (Mentions mark i) ++ [e] := by
  rw [List.filter_append, List.filter_cons_of_pos (by simpa using h), List.filter_nil]

/-- An event about something else. -/
theorem filter_concat_of_not [DecidablePred (Mentions mark i)] (h : ¬ Mentions mark i e) :
    (l ++ [e]).filter (Mentions mark i) = l.filter (Mentions mark i) := by
  rw [List.filter_append, List.filter_cons_of_neg (by simpa using h), List.filter_nil, List.append_nil]

/-- The events about one bracket: none, or the one that opens it while it is open, or one that opens it and then
    one that closes it. -/
theorem history [DecidablePred (Mentions mark i)] (h : Run mark kind asks l s) :
    (i ∈ s ∧ ∃ e, mark e = .opens i ∧ l.filter (Mentions mark i) = [e]) ∨
      (i ∉ s ∧ l.filter (Mentions mark i) = []) ∨
      (i ∉ s ∧ ∃ e f, mark e = .opens i ∧ mark f = .closes i ∧ l.filter (Mentions mark i) = [e, f]) := by
  induction h with
  | nil => exact .inr (.inl ⟨Set.notMem_empty i, rfl⟩)
  | @opens l s e j _ hmark hnew _ ih =>
    by_cases hij : i = j
    · subst hij
      have hnone : l.filter (Mentions mark i) = [] :=
        List.filter_eq_nil_iff.mpr (fun f hf => by simpa using hnew f hf)
      have hself : Mentions mark i e := .inl hmark
      refine .inl ⟨Set.mem_insert i s, e, hmark, ?_⟩
      rw [filter_concat_of hself, hnone, List.nil_append]
    · have hnot : ¬ Mentions mark i e := by
        rintro (h | h) <;> rw [hmark] at h <;> cases h
        exact hij rfl
      rw [filter_concat_of_not hnot, Set.mem_insert_iff, or_iff_right hij]
      exact ih
  | @closes l s e j _ hmark hj ih =>
    by_cases hij : i = j
    · subst hij
      obtain ⟨-, f, hf, hone⟩ | ⟨hi, -⟩ | ⟨hi, -⟩ := ih
      · have hself : Mentions mark i e := .inr hmark
        refine .inr (.inr ⟨fun hmem => hmem.2 rfl, f, e, hf, hmark, ?_⟩)
        rw [filter_concat_of hself, hone]
        rfl
      · exact absurd hj hi
      · exact absurd hj hi
    · have hnot : ¬ Mentions mark i e := by
        rintro (h | h) <;> rw [hmark] at h <;> cases h
        exact hij rfl
      have hmem : i ∈ s \ {j} ↔ i ∈ s := ⟨fun h => h.1, fun h => ⟨h, hij⟩⟩
      rw [filter_concat_of_not hnot, hmem]
      exact ih
  | @other l s e _ hmark _ ih =>
    have hnot : ¬ Mentions mark i e := by
      rintro (h | h) <;> rw [hmark] at h <;> cases h
    rw [filter_concat_of_not hnot]
    exact ih

/-- The set of a stream is that of its open brackets. -/
theorem isOpen_iff (h : Run mark kind asks l s) : IsOpen mark i l ↔ i ∈ s := by
  classical
  have hmem : ∀ e, e ∈ l ∧ Mentions mark i e ↔ e ∈ l.filter (Mentions mark i) := fun e => by
    rw [List.mem_filter, decide_eq_true_iff]
  constructor
  · rintro ⟨⟨e, he, hopen⟩, hclosed⟩
    obtain ⟨hi, -⟩ | ⟨-, hnone⟩ | ⟨-, f, g, -, hg, htwo⟩ := h.history (i := i)
    · exact hi
    · have hin := (hmem e).mp ⟨he, .inl hopen⟩
      rw [hnone] at hin
      cases hin
    · have hin : g ∈ l.filter (Mentions mark i) := by
        rw [htwo]
        exact List.mem_cons_of_mem f List.mem_cons_self
      exact absurd hg (hclosed g ((hmem g).mpr hin).1)
  · intro hi
    obtain ⟨-, e, he, hone⟩ | ⟨hnot, -⟩ | ⟨hnot, -⟩ := h.history (i := i)
    · have hin : e ∈ l.filter (Mentions mark i) := hone ▸ List.mem_cons_self
      refine ⟨⟨e, ((hmem e).mpr hin).1, he⟩, fun f hf hclose => ?_⟩
      -- an event that closes it would be the one that opens it
      have hf := (hmem f).mp ⟨hf, .inr hclose⟩
      rw [hone, List.mem_singleton] at hf
      rw [hf, he] at hclose
      cases hclose
    · exact absurd hi hnot
    · exact absurd hi hnot

end Run

end Brackets
