import Mathlib.Data.List.Basic

/-!
# `Lib.HashBuckets` — two layouts of a bucketed index

A bucketed index maps a key (a hash modulo the number of buckets) to the indices of the entries with that
key. Its meaning is `entriesOf`: the indices, counted from a start, of the entries of a list whose key is
given, in order. Two layouts store it in plain arrays:

* **runs**: the entries are sorted by key. A bucket holds the index of the first one and a mark in a parallel
  array ends the run (`runEnds`, `setRunHeads`, `walkRun`);
* **links**: a bucket holds the index of the first entry, and a `next` array holds for each entry the index of
  the following one, `0` at the end (`Linked`, `walkLinks`).

Walking either layout visits exactly `entriesOf` (`walkRun_of_first`, `Linked.walk`).
-/

namespace HashBuckets

variable {α : Type*} {key : α → Nat} {k : Nat}

/-! ## The meaning of an index -/

/-- The indices, counted from `start`, of the entries whose key is `k`. -/
def entriesOf (key : α → Nat) (k : Nat) : List α → Nat → List Nat
  | [], _ => []
  | a :: l, start =>
    if key a = k then start :: entriesOf key k l (start + 1) else entriesOf key k l (start + 1)

variable {l : List α} {start : Nat}

theorem mem_entriesOf {i : Nat} :
    i ∈ entriesOf key k l start ↔ ∃ j a, l[j]? = some a ∧ key a = k ∧ i = start + j := by
  induction l generalizing start with
  | nil => simp [entriesOf]
  | cons a l ih =>
    -- index `0` is the head, an index `j + 1` is index `j` of the tail
    have hsplit : (∃ j b, (a :: l)[j]? = some b ∧ key b = k ∧ i = start + j) ↔
        (key a = k ∧ i = start) ∨ ∃ j b, l[j]? = some b ∧ key b = k ∧ i = start + 1 + j := by
      constructor
      · rintro ⟨j, b, hb, hk, hi⟩
        cases j with
        | zero =>
          rw [List.getElem?_cons_zero, Option.some.injEq] at hb
          subst hb
          exact Or.inl ⟨hk, hi⟩
        | succ j => exact Or.inr ⟨j, b, by simpa using hb, hk, by omega⟩
      · rintro (⟨hk, hi⟩ | ⟨j, b, hb, hk, hi⟩)
        · exact ⟨0, a, rfl, hk, hi⟩
        · exact ⟨j + 1, b, by simpa using hb, hk, by omega⟩
    rw [hsplit, ← ih]
    by_cases ha : key a = k
    · simp [entriesOf, ha]
    · simp [entriesOf, ha]

theorem le_of_mem_entriesOf {i : Nat} (hi : i ∈ entriesOf key k l start) :
    start ≤ i ∧ i < start + l.length := by
  obtain ⟨j, a, ha, -, rfl⟩ := mem_entriesOf.mp hi
  have hj : j < l.length := (List.getElem?_eq_some_iff.mp ha).1
  omega

theorem entriesOf_eq_nil (h : ∀ a ∈ l, key a ≠ k) :
    entriesOf key k l start = [] := by
  induction l generalizing start with
  | nil => rfl
  | cons a l ih =>
    rw [entriesOf, if_neg (h a List.mem_cons_self)]
    exact ih (fun b hb => h b (List.mem_cons_of_mem a hb))

theorem entriesOf_append (l₁ l₂ : List α) (start : Nat) :
    entriesOf key k (l₁ ++ l₂) start =
      entriesOf key k l₁ start ++ entriesOf key k l₂ (start + l₁.length) := by
  induction l₁ generalizing start with
  | nil => simp [entriesOf]
  | cons a l₁ ih =>
    have hstart : start + 1 + l₁.length = start + (a :: l₁).length := by
      rw [List.length_cons]
      omega
    rw [List.cons_append, entriesOf, entriesOf, ih, hstart]
    by_cases ha : key a = k
    · rw [if_pos ha, if_pos ha, List.cons_append]
    · rw [if_neg ha, if_neg ha]

theorem nodup_entriesOf (key : α → Nat) (k : Nat) (l : List α) (start : Nat) :
    (entriesOf key k l start).Nodup := by
  induction l generalizing start with
  | nil => exact List.nodup_nil
  | cons a l ih =>
    rw [entriesOf]
    split
    · refine List.nodup_cons.mpr ⟨fun hmem => ?_, ih (start + 1)⟩
      have := (le_of_mem_entriesOf hmem).1
      omega
    · exact ih (start + 1)

theorem entriesOf_snoc (key : α → Nat) (k : Nat) (l : List α) (a : α) (start : Nat) :
    entriesOf key k (l ++ [a]) start =
      if key a = k then entriesOf key k l start ++ [start + l.length] else entriesOf key k l start := by
  rw [entriesOf_append]
  by_cases ha : key a = k <;> simp [entriesOf, ha]

theorem length_entriesOf_le (l : List α) (start : Nat) : (entriesOf key k l start).length ≤ l.length := by
  induction l generalizing start with
  | nil => exact Nat.le_refl 0
  | cons a l ih =>
    have := ih (start + 1)
    rw [entriesOf]
    split
    · simpa using this
    · simp only [List.length_cons]
      omega

/-! ## Runs of entries sorted by key -/

/-- Whether the next entry, if there is one, has another key. -/
def endsRun (key : α → Nat) (a : α) (rest : List α) : Bool := rest.head?.all (fun b => key b ≠ key a)

/-- The mark of each entry: whether it is the last one of its run. -/
def runEnds (key : α → Nat) : List α → List Bool
  | [] => []
  | a :: rest => endsRun key a rest :: runEnds key rest

/-- Follow the marks from index `i`, collecting the indices; `none` when no mark ends the run. -/
def walkRun : List Bool → Nat → Option (List Nat)
  | [], _ => none
  | true :: _, i => some [i]
  | false :: marks, i => (walkRun marks (i + 1)).map (i :: ·)

/-- Store the index of the first entry of each run in its bucket; `fresh` says that a run begins here. -/
def setRunHeads (key : α → Nat) : Bool → List α → Nat → List Nat → List Nat
  | _, [], _, heads => heads
  | fresh, a :: rest, i, heads =>
    setRunHeads key (endsRun key a rest) rest (i + 1) (if fresh then heads.set (key a) i else heads)

/-- A list is sorted by key. -/
def SortedBy (key : α → Nat) (l : List α) : Prop := l.Pairwise (fun a b => key a ≤ key b)

@[simp] theorem length_runEnds (l : List α) : (runEnds key l).length = l.length := by
  induction l with
  | nil => rfl
  | cons a l ih => rw [runEnds, List.length_cons, List.length_cons, ih]

/-- In a sorted list a key does not come back after its run has ended. -/
theorem entriesOf_eq_nil_of_endsRun {a : α} (hsorted : SortedBy key (a :: l)) (hend : endsRun key a l = true)
    (i : Nat) : entriesOf key (key a) l i = [] := by
  obtain ⟨hle, htail⟩ := List.pairwise_cons.mp hsorted
  refine entriesOf_eq_nil (fun c hc => ?_)
  cases l with
  | nil => simp at hc
  | cons b l =>
    have hba : key b ≠ key a := by simpa [endsRun] using hend
    have hab : key a ≤ key b := hle b List.mem_cons_self
    have hbc : key b ≤ key c := by
      rcases List.mem_cons.mp hc with rfl | hc'
      · exact Nat.le_refl _
      · exact (List.pairwise_cons.mp htail).1 c hc'
    omega

/-- **A run is walked to its end.** From the first entry on, the marks delimit the entries of its key. -/
theorem walkRun_runEnds {a : α} (hsorted : SortedBy key (a :: l)) (i : Nat) :
    walkRun (runEnds key (a :: l)) i = some (entriesOf key (key a) (a :: l) i) := by
  induction l generalizing a i with
  | nil => simp [runEnds, endsRun, walkRun, entriesOf]
  | cons b l ih =>
    have hentries : entriesOf key (key a) (a :: b :: l) i = i :: entriesOf key (key a) (b :: l) (i + 1) := by
      rw [entriesOf, if_pos rfl]
    rw [runEnds, hentries]
    by_cases hkey : key b = key a
    · have hend : endsRun key a (b :: l) = false := by simp [endsRun, hkey]
      have hrest := ih (List.pairwise_cons.mp hsorted).2 (i + 1)
      rw [hkey] at hrest
      rw [hend, walkRun, hrest, Option.map_some]
    · have hend : endsRun key a (b :: l) = true := by simp [endsRun, hkey]
      rw [hend, walkRun, entriesOf_eq_nil_of_endsRun hsorted hend]

/-- What the buckets hold after a list: the first index of each key, where a run begins. -/
theorem getElem?_setRunHeads {fresh : Bool} (hsorted : SortedBy key l) (i : Nat) {heads : List Nat}
    (hk : k < heads.length) :
    (setRunHeads key fresh l i heads)[k]? =
      if fresh = true ∨ l.head?.all (fun a => key a ≠ k) = true then
        ((entriesOf key k l i).head?.or heads[k]?) else heads[k]? := by
  induction l generalizing fresh i heads with
  | nil => simp [setRunHeads, entriesOf]
  | cons a l ih =>
    have hlen : k < (if fresh = true then heads.set (key a) i else heads).length := by
      split
      · simpa using hk
      · exact hk
    rw [setRunHeads, ih (List.pairwise_cons.mp hsorted).2 (i + 1) hlen]
    by_cases ha : key a = k
    · -- the entry's own bucket: it is written here when a run begins, and never again in this run
      subst ha
      have hset : (if fresh = true then heads.set (key a) i else heads)[key a]? =
          if fresh = true then some i else heads[key a]? := by
        split
        · exact List.getElem?_set_self hk
        · rfl
      have hentries : (entriesOf key (key a) (a :: l) i).head? = some i := by
        rw [entriesOf, if_pos rfl, List.head?_cons]
      rw [hset, hentries]
      by_cases hend : endsRun key a l = true
      · rw [entriesOf_eq_nil_of_endsRun hsorted hend]
        cases fresh <;> simp
      · have hlater : ¬(endsRun key a l = true ∨ l.head?.all (fun b => key b ≠ key a) = true) :=
          fun h => h.elim hend hend
        rw [if_neg hlater]
        cases fresh <;> simp
    · -- another bucket: this entry leaves it alone, and a run of that key begins after this entry
      have hset : (if fresh = true then heads.set (key a) i else heads)[k]? = heads[k]? := by
        split
        · exact List.getElem?_set_ne ha
        · rfl
      have hentries : entriesOf key k (a :: l) i = entriesOf key k l (i + 1) := by
        rw [entriesOf, if_neg ha]
      have hfresh : endsRun key a l = true ∨ l.head?.all (fun b => key b ≠ k) = true := by
        cases l with
        | nil => exact Or.inl rfl
        | cons b l =>
          by_cases hb : key b = k
          · have hne : key b ≠ key a := by omega
            exact Or.inl (by simpa [endsRun] using hne)
          · exact Or.inr (by simpa using hb)
      rw [hset, hentries, if_pos hfresh, if_pos (Or.inr (by simpa using ha))]

/-- Marks that come before index `n` do not matter to a walk that starts at the first entry of a key. -/
theorem walkRun_of_first (hsorted : SortedBy key l) {first : Nat}
    (hfirst : (entriesOf key k l start).head? = some first) :
    walkRun ((runEnds key l).drop (first - start)) first = some (entriesOf key k l start) := by
  induction l generalizing start with
  | nil => simp [entriesOf] at hfirst
  | cons a l ih =>
    by_cases ha : key a = k
    · subst ha
      have hentries : (entriesOf key (key a) (a :: l) start).head? = some start := by
        rw [entriesOf, if_pos rfl, List.head?_cons]
      rw [hentries, Option.some.injEq] at hfirst
      subst hfirst
      rw [Nat.sub_self, List.drop_zero]
      exact walkRun_runEnds hsorted start
    · rw [entriesOf, if_neg ha] at hfirst ⊢
      have hle := (le_of_mem_entriesOf (List.mem_of_mem_head? hfirst)).1
      have hdrop : first - start = (first - (start + 1)) + 1 := by omega
      rw [hdrop, runEnds, List.drop_succ_cons]
      exact ih (List.pairwise_cons.mp hsorted).2 hfirst

/-! ## Linked entries -/

/-- The indices `l` are linked one after the other from `head` on, and the last one is followed by `0`. -/
def Path (next : List Nat) : Nat → List Nat → Prop
  | head, [] => head = 0
  | head, i :: l => head = i ∧ i ≠ 0 ∧ ∃ j, next[i]? = some j ∧ Path next j l

/-- Follow the links from an index until `0`; `none` when a link leads out of the table, or the steps are
    used up. -/
def walkLinks (next : List Nat) : Nat → Nat → Option (List Nat)
  | _, 0 => some []
  | 0, _ + 1 => none
  | steps + 1, i + 1 => do
      let j ← next[i + 1]?
      let l ← walkLinks next steps j
      return (i + 1) :: l

variable {next : List Nat} {head : Nat}

/-- A path is walked to its end, in as many steps as it has entries. -/
theorem Path.walk {l : List Nat} (h : Path next head l) {steps : Nat} (hsteps : l.length ≤ steps) :
    walkLinks next steps head = some l := by
  induction l generalizing head steps with
  | nil =>
    have hzero : head = 0 := h
    subst hzero
    cases steps <;> rfl
  | cons i l ih =>
    obtain ⟨rfl, hne, j, hj, htail⟩ := h
    obtain ⟨i, rfl⟩ := Nat.exists_eq_succ_of_ne_zero hne
    cases steps with
    | zero => simp at hsteps
    | succ steps =>
      have hrest := ih htail (Nat.le_of_succ_le_succ hsteps)
      simp only [walkLinks, hj, hrest, Option.bind_eq_bind, Option.bind_some]
      rfl

/-- Writing a link outside a path leaves the path. -/
theorem Path.frame {z v : Nat} {l : List Nat} (h : Path next head l) (hz : z ∉ l) :
    Path (next.set z v) head l := by
  induction l generalizing head with
  | nil => exact h
  | cons i l ih =>
    obtain ⟨hhead, hne, j, hj, htail⟩ := h
    rw [List.mem_cons, not_or] at hz
    refine ⟨hhead, hne, j, ?_, ih htail hz.2⟩
    rw [List.getElem?_set_ne hz.1]
    exact hj

/-- Linking a new index behind the last one of a path appends it. -/
theorem Path.snoc {z i : Nat} {l : List Nat} (h : Path next head l) (hlast : l.getLast? = some z) (hnodup : l.Nodup)
    (hi : i ≠ 0) (hiz : i ≠ z) (hfree : next[i]? = some 0) :
    Path (next.set z i) head (l ++ [i]) := by
  induction l generalizing head with
  | nil => simp at hlast
  | cons a l ih =>
    obtain ⟨hhead, hne, j, hj, htail⟩ := h
    obtain ⟨hnotin, hnodup'⟩ := List.nodup_cons.mp hnodup
    have hend : Path (next.set z i) i [i] := by
      refine ⟨rfl, hi, 0, ?_, rfl⟩
      rw [List.getElem?_set_ne (Ne.symm hiz)]
      exact hfree
    cases l with
    | nil =>
      -- the path was `a` alone: its link was `0` and is now `i`
      have haz : a = z := by simpa using hlast
      subst haz
      have hbound : a < next.length := (List.getElem?_eq_some_iff.mp hj).1
      exact ⟨hhead, hne, i, List.getElem?_set_self hbound, hend⟩
    | cons b l =>
      have haz : z ≠ a := fun he => hnotin (he ▸ List.mem_of_getLast? hlast)
      refine ⟨hhead, hne, j, ?_, ih htail hlast hnodup'⟩
      rw [List.getElem?_set_ne haz]
      exact hj

/-- Three arrays index the list `l`, whose entries are numbered from `start`: each bucket leads through the
    links of its entries, `last` remembers the end of each chain, and no later index is linked yet. -/
structure Linked (key : α → Nat) (start : Nat) (l : List α) (heads next : List Nat)
    (last : List (Option Nat)) : Prop where
  path : ∀ k head, heads[k]? = some head → Path next head (entriesOf key k l start)
  ends : ∀ k, k < heads.length → last[k]? = some (entriesOf key k l start).getLast?
  vacant : ∀ i, start + l.length ≤ i → i < next.length → next[i]? = some 0

namespace Linked

variable {start : Nat} {l : List α} {heads next : List Nat} {last : List (Option Nat)} {a : α}

/-- Empty buckets index the empty list. -/
theorem replicate (key : α → Nat) (start buckets n : Nat) :
    Linked key start [] (List.replicate buckets 0) (List.replicate n 0) (List.replicate buckets none) := by
  constructor
  · intro k head hhead
    rw [List.getElem?_replicate] at hhead
    split at hhead
    · rw [Option.some.injEq] at hhead
      exact hhead.symm
    · cases hhead
  · intro k hk
    rw [List.length_replicate] at hk
    rw [List.getElem?_replicate, if_pos hk]
    rfl
  · intro i _ hi
    rw [List.length_replicate] at hi
    rw [List.getElem?_replicate, if_pos hi]

/-- The ends of the chains after the index of `a` has been remembered in its bucket. -/
theorem ends_snoc (h : Linked key start l heads next last) (hbucket : key a < heads.length) (k : Nat)
    (hk : k < heads.length) :
    (last.set (key a) (some (start + l.length)))[k]? = some (entriesOf key k (l ++ [a]) start).getLast? := by
  have hlast := h.ends (key a) hbucket
  have hbound : key a < last.length := (List.getElem?_eq_some_iff.mp hlast).1
  rw [entriesOf_snoc]
  by_cases ha : key a = k
  · subst ha
    rw [if_pos rfl, List.getElem?_set_self hbound, List.getLast?_concat]
  · rw [if_neg ha, List.getElem?_set_ne ha]
    exact h.ends k hk

/-- The first entry of a bucket becomes its head. -/
theorem insert_first (h : Linked key start l heads next last) (hstart : 0 < start)
    (hbucket : heads[key a]? = some 0) (hfits : start + l.length < next.length) :
    Linked key start (l ++ [a]) (heads.set (key a) (start + l.length)) next
      (last.set (key a) (some (start + l.length))) := by
  have hbound : key a < heads.length := (List.getElem?_eq_some_iff.mp hbucket).1
  constructor
  · intro k head hhead
    rw [entriesOf_snoc]
    by_cases ha : key a = k
    · subst ha
      rw [List.getElem?_set_self hbound, Option.some.injEq] at hhead
      subst hhead
      -- a head of `0` means that the bucket had no entries
      have hnil : entriesOf key (key a) l start = [] := by
        have hpath := h.path (key a) 0 hbucket
        cases hl : entriesOf key (key a) l start with
        | nil => rfl
        | cons i is =>
          rw [hl] at hpath
          exact absurd hpath.1.symm hpath.2.1
      rw [if_pos rfl, hnil, List.nil_append]
      refine ⟨rfl, by omega, 0, ?_, rfl⟩
      exact h.vacant _ (Nat.le_refl _) hfits
    · rw [List.getElem?_set_ne ha] at hhead
      rw [if_neg ha]
      exact h.path k head hhead
  · intro k hk
    rw [List.length_set] at hk
    exact h.ends_snoc hbound k hk
  · intro i hi hlt
    rw [List.length_append, List.length_singleton] at hi
    exact h.vacant i (by omega) hlt

/-- A later entry of a bucket is linked behind the last one. -/
theorem insert_later (h : Linked key start l heads next last) (hstart : 0 < start) {head : Nat}
    (hbucket : heads[key a]? = some head) (hhead : head ≠ 0) (hfits : start + l.length < next.length) :
    ∃ z, last[key a]? = some (some z) ∧ z < next.length ∧
      Linked key start (l ++ [a]) heads (next.set z (start + l.length))
        (last.set (key a) (some (start + l.length))) := by
  have hbound : key a < heads.length := (List.getElem?_eq_some_iff.mp hbucket).1
  have hpath := h.path (key a) head hbucket
  obtain ⟨z, hz⟩ : ∃ z, (entriesOf key (key a) l start).getLast? = some z := by
    cases hl : entriesOf key (key a) l start with
    | nil =>
      rw [hl] at hpath
      exact absurd hpath hhead
    | cons i is => exact ⟨(i :: is).getLast (by simp), List.getLast?_eq_some_getLast _⟩
  have hzmem : z ∈ entriesOf key (key a) l start := List.mem_of_getLast? hz
  have hzlt := (le_of_mem_entriesOf hzmem).2
  refine ⟨z, ?_, by omega, ?_, ?_, ?_⟩
  · rw [h.ends (key a) hbound, hz]
  · intro k head' hhead'
    rw [entriesOf_snoc]
    by_cases ha : key a = k
    · subst ha
      rw [hbucket, Option.some.injEq] at hhead'
      subst hhead'
      rw [if_pos rfl]
      exact hpath.snoc hz (nodup_entriesOf key _ l start) (Nat.ne_of_gt (Nat.add_pos_left hstart _)) (by omega)
        (h.vacant _ (Nat.le_refl _) hfits)
    · -- the chains of other buckets do not pass through `z`
      rw [if_neg ha]
      refine (h.path k head' hhead').frame (fun hmem => ha ?_)
      obtain ⟨j, b, hb, hkb, hj⟩ := mem_entriesOf.mp hmem
      obtain ⟨j', b', hb', hkb', hj'⟩ := mem_entriesOf.mp hzmem
      have hjj : j = j' := by omega
      subst hjj
      rw [hb, Option.some.injEq] at hb'
      rw [← hkb, ← hkb', hb']
  · intro k hk
    exact h.ends_snoc hbound k hk
  · intro i hi hlt
    rw [List.length_append, List.length_singleton] at hi
    rw [List.length_set] at hlt
    rw [List.getElem?_set_ne (by omega)]
    exact h.vacant i (by omega) hlt

/-- Walking a bucket visits the indices of its entries. -/
theorem walk (h : Linked key start l heads next last) (hfits : start + l.length ≤ next.length) {head : Nat}
    (hbucket : heads[k]? = some head) : walkLinks next next.length head = some (entriesOf key k l start) :=
  (h.path k head hbucket).walk (Nat.le_trans (length_entriesOf_le l start) (by omega))

end Linked

end HashBuckets
