import Mathlib

/-!
Finite maps over a linear order, as strictly sorted association lists.

The list is kept sorted by construction, so a map is determined by its lookups, and a
cursor placed at a key is a suffix of the list: what it stands on is the least key at or
above the one sought.
-/

universe u v

/-- A finite map, as the list of its entries in increasing order of keys. -/
structure OrdMap (K : Type u) (V : Type v) [LinearOrder K] where
  entries : List (K × V)
  sorted : entries.Pairwise fun a b => a.1 < b.1

namespace OrdMap

variable {K : Type u} {V : Type v} [LinearOrder K]

def empty : OrdMap K V := ⟨[], List.Pairwise.nil⟩

def get (m : OrdMap K V) (k : K) : Option V :=
  (m.entries.find? fun e => decide (e.1 = k)).map Prod.snd

/-- Insertion into a sorted list, replacing the entry with the same key. -/
def insertEntry (k : K) (v : V) : List (K × V) → List (K × V)
  | [] => [(k, v)]
  | e :: l =>
    if k < e.1 then (k, v) :: e :: l
    else if k = e.1 then (k, v) :: l
    else e :: insertEntry k v l

lemma mem_insertEntry {k : K} {v : V} {l : List (K × V)} {x : K × V}
    (h : x ∈ insertEntry k v l) : x = (k, v) ∨ x ∈ l := by
  induction l with
  | nil => simpa [insertEntry] using h
  | cons e l ih =>
    unfold insertEntry at h
    split_ifs at h with h1 h2
    · simpa using h
    · rcases List.mem_cons.mp h with h | h
      · exact Or.inl h
      · exact Or.inr (List.mem_cons_of_mem _ h)
    · rcases List.mem_cons.mp h with h | h
      · exact Or.inr (h ▸ List.mem_cons_self)
      · rcases ih h with h | h
        · exact Or.inl h
        · exact Or.inr (List.mem_cons_of_mem _ h)

lemma sorted_insertEntry (k : K) (v : V) {l : List (K × V)}
    (h : l.Pairwise fun a b => a.1 < b.1) :
    (insertEntry k v l).Pairwise fun a b => a.1 < b.1 := by
  induction l with
  | nil => simp [insertEntry]
  | cons e l ih =>
    obtain ⟨hhd, htl⟩ := List.pairwise_cons.mp h
    unfold insertEntry
    split_ifs with h1 h2
    · refine List.pairwise_cons.mpr ⟨fun x hx => ?_, h⟩
      rcases List.mem_cons.mp hx with rfl | hx
      · exact h1
      · exact h1.trans (hhd x hx)
    · subst h2
      exact List.pairwise_cons.mpr ⟨hhd, htl⟩
    · refine List.pairwise_cons.mpr ⟨fun x hx => ?_, ih htl⟩
      rcases mem_insertEntry hx with rfl | hx
      · exact lt_of_le_of_ne (not_lt.mp h1) (Ne.symm h2)
      · exact hhd x hx

def put (m : OrdMap K V) (k : K) (v : V) : OrdMap K V :=
  ⟨insertEntry k v m.entries, sorted_insertEntry k v m.sorted⟩

def clear (m : OrdMap K V) (k : K) : OrdMap K V :=
  ⟨m.entries.filter fun e => decide (e.1 ≠ k), m.sorted.filter _⟩

/-- The entries a cursor still has before it after seeking `k`. -/
def seek (m : OrdMap K V) (k : K) : List (K × V) :=
  m.entries.dropWhile fun e => decide (e.1 < k)

/-- The entries a cursor that goes down still has before it after seeking `k`. -/
def seekReverse (m : OrdMap K V) (k : K) : List (K × V) :=
  (m.entries.filter fun e => decide (e.1 ≤ k)).reverse

/-- The entries whose keys satisfy `p`. -/
def filter (m : OrdMap K V) (p : K → Bool) : OrdMap K V :=
  ⟨m.entries.filter fun e => p e.1, m.sorted.filter _⟩

/-- The entry with the greatest key at or below `k`. -/
def floor (m : OrdMap K V) (k : K) : Option (K × V) :=
  (m.entries.filter fun e => decide (e.1 ≤ k)).getLast?

/-! ### Lookups -/

lemma find_eq_some {l : List (K × V)} (h : l.Pairwise fun a b => a.1 < b.1) {k : K} {v : V} :
    (l.find? fun e => decide (e.1 = k)).map Prod.snd = some v ↔ (k, v) ∈ l := by
  induction l with
  | nil => simp
  | cons e l ih =>
    obtain ⟨hhd, htl⟩ := List.pairwise_cons.mp h
    by_cases he : e.1 = k
    · subst he
      have hnot : (e.1, v) ∉ l := fun hm => lt_irrefl e.1 (hhd (e.1, v) hm)
      rw [List.find?_cons_of_pos (by simp)]
      simp only [Option.map_some, Option.some.injEq, List.mem_cons, hnot, or_false]
      constructor
      · rintro rfl; rfl
      · intro h; rw [← h]
    · rw [List.find?_cons_of_neg (by simpa using he), ih htl]
      simp only [List.mem_cons]
      constructor
      · exact Or.inr
      · rintro (h | h)
        · exact absurd (by rw [← h]) he
        · exact h

lemma mem_entries_iff (m : OrdMap K V) {k : K} {v : V} :
    (k, v) ∈ m.entries ↔ m.get k = some v :=
  (find_eq_some m.sorted).symm

@[simp] lemma get_empty (k : K) : (empty : OrdMap K V).get k = none := rfl

lemma insertEntry_find (k : K) (v : V) {l : List (K × V)}
    (h : l.Pairwise fun a b => a.1 < b.1) (k' : K) (w : V) :
    (k', w) ∈ insertEntry k v l ↔ if k' = k then w = v else (k', w) ∈ l := by
  induction l with
  | nil => by_cases hk : k' = k <;> simp [insertEntry, hk]
  | cons e l ih =>
    obtain ⟨hhd, htl⟩ := List.pairwise_cons.mp h
    unfold insertEntry
    split_ifs with h1 h2 h3 h4 h5
    · -- `k` goes in front; no later entry has its key
      subst h2
      have hnot : ∀ x ∈ e :: l, k' < x.1 := by
        intro x hx
        rcases List.mem_cons.mp hx with rfl | hx
        · exact h1
        · exact h1.trans (hhd x hx)
      constructor
      · intro hm
        rcases List.mem_cons.mp hm with hm | hm
        · exact (Prod.mk.injEq .. ▸ hm).2
        · exact absurd (hnot _ hm) (lt_irrefl _)
      · rintro rfl; exact List.mem_cons_self
    · simp [h2]
    · subst h4
      have hnot : (k', w) ∉ l := fun hm => by
        have := hhd _ hm
        rw [← h3] at this
        exact lt_irrefl _ this
      simp [hnot]
    · have hne : (k', w) ≠ e := fun hm => h4 (by rw [h3, ← hm])
      simp [h4, hne]
    · subst h5
      have hne : (k', w) ≠ e := fun hm => h3 (by rw [← hm])
      rw [List.mem_cons, ih htl]
      simp [hne]
    · rw [List.mem_cons, ih htl, if_neg h5, List.mem_cons]

@[simp] lemma get_put (m : OrdMap K V) (k k' : K) (v : V) :
    (m.put k v).get k' = if k' = k then some v else m.get k' := by
  ext w
  rw [← mem_entries_iff]
  show (k', w) ∈ insertEntry k v m.entries ↔ _
  rw [insertEntry_find k v m.sorted]
  by_cases hk : k' = k
  · simp [hk, eq_comm]
  · simp [hk, mem_entries_iff]

@[simp] lemma get_clear (m : OrdMap K V) (k k' : K) :
    (m.clear k).get k' = if k' = k then none else m.get k' := by
  ext w
  rw [← mem_entries_iff]
  show (k', w) ∈ m.entries.filter _ ↔ _
  by_cases hk : k' = k
  · simp [hk]
  · simp [hk, mem_entries_iff]

lemma get_filter (m : OrdMap K V) (p : K → Bool) (k : K) :
    (m.filter p).get k = if p k then m.get k else none := by
  ext v
  rw [← mem_entries_iff]
  show (k, v) ∈ m.entries.filter _ ↔ _
  rw [List.mem_filter, mem_entries_iff]
  by_cases hp : p k = true <;> simp [hp]

/-! ### Extensionality -/

lemma eq_of_mem_iff {l l' : List (K × V)} (h : l.Pairwise fun a b => a.1 < b.1)
    (h' : l'.Pairwise fun a b => a.1 < b.1) (he : ∀ x, x ∈ l ↔ x ∈ l') : l = l' := by
  have nd : ∀ {l : List (K × V)}, (l.Pairwise fun a b => a.1 < b.1) → l.Nodup := by
    intro l h
    refine List.Pairwise.imp ?_ h
    rintro a b hab rfl
    exact lt_irrefl _ hab
  refine ((List.perm_ext_iff_of_nodup (nd h) (nd h')).mpr he).eq_of_pairwise
    (fun a b _ _ (hab : a.1 < b.1) hba => ?_) h h'
  exact absurd (hab.trans hba) (lt_irrefl _)

/-- A map is determined by its lookups. -/
theorem ext_get {m m' : OrdMap K V} (h : ∀ k, m.get k = m'.get k) : m = m' := by
  have hl : m.entries = m'.entries := by
    refine eq_of_mem_iff m.sorted m'.sorted fun x => ?_
    obtain ⟨k, v⟩ := x
    rw [mem_entries_iff, mem_entries_iff, h]
  cases m; cases m'; cases hl; rfl

/-! ### Cursors -/

lemma dropWhile_eq_filter {l : List (K × V)} (h : l.Pairwise fun a b => a.1 < b.1) (k : K) :
    l.dropWhile (fun e => decide (e.1 < k)) = l.filter fun e => decide (k ≤ e.1) := by
  induction l with
  | nil => rfl
  | cons e l ih =>
    obtain ⟨hhd, htl⟩ := List.pairwise_cons.mp h
    by_cases he : e.1 < k
    · rw [List.dropWhile_cons_of_pos (by simpa using he),
        List.filter_cons_of_neg (by simpa using he), ih htl]
    · have hall : ∀ x ∈ e :: l, k ≤ x.1 := by
        intro x hx
        rcases List.mem_cons.mp hx with rfl | hx
        · exact not_lt.mp he
        · exact (not_lt.mp he).trans (hhd x hx).le
      rw [List.dropWhile_cons_of_neg (by simpa using he), List.filter_eq_self.mpr]
      intro x hx
      simpa using hall x hx

lemma seek_eq_filter (m : OrdMap K V) (k : K) :
    m.seek k = m.entries.filter fun e => decide (k ≤ e.1) :=
  dropWhile_eq_filter m.sorted k

lemma sorted_seek (m : OrdMap K V) (k : K) : (m.seek k).Pairwise fun a b => a.1 < b.1 := by
  rw [seek_eq_filter]; exact m.sorted.filter _

lemma mem_seek (m : OrdMap K V) {k k' : K} {v : V} :
    (k', v) ∈ m.seek k ↔ k ≤ k' ∧ m.get k' = some v := by
  rw [seek_eq_filter, List.mem_filter, mem_entries_iff]
  simp [and_comm]

/-- On a sorted list, a predicate that what comes earlier inherits holds on a first part. -/
lemma takeWhile_eq_filter {α : Type*} {r : α → α → Prop} {p : α → Bool} {l : List α}
    (h : l.Pairwise r) (hp : ∀ a b, r a b → p b = true → p a = true) :
    l.takeWhile p = l.filter p := by
  induction l with
  | nil => rfl
  | cons x l ih =>
    obtain ⟨hhd, htl⟩ := List.pairwise_cons.mp h
    by_cases hx : p x = true
    · rw [List.takeWhile_cons_of_pos hx, List.filter_cons_of_pos hx, ih htl]
    · rw [List.takeWhile_cons_of_neg hx, List.filter_cons_of_neg hx, eq_comm,
        List.filter_eq_nil_iff]
      exact fun y hy hpy => hx (hp x y (hhd y hy) hpy)

/-- **A walk from `a` up to `b` meets the entries between them.** -/
theorem walk_eq_filter (m : OrdMap K V) (a b : K) :
    (m.seek a).takeWhile (fun e => decide (e.1 < b)) =
      m.entries.filter fun e => decide (a ≤ e.1 ∧ e.1 < b) := by
  have hlt : ∀ x y : K × V, x.1 < y.1 → decide (y.1 < b) = true → decide (x.1 < b) = true :=
    fun x y hxy hy => by simpa using hxy.trans (by simpa using hy)
  rw [takeWhile_eq_filter (m.sorted_seek a) hlt, seek_eq_filter, List.filter_filter]
  simp [Bool.and_comm]

/-- **A cursor stands on the least key at or above the one sought.** -/
theorem seek_head (m : OrdMap K V) {k k' : K} {v : V} {l : List (K × V)}
    (h : m.seek k = (k', v) :: l) :
    k ≤ k' ∧ m.get k' = some v ∧ ∀ k'' w, k ≤ k'' → m.get k'' = some w → k' ≤ k'' := by
  have hmem := m.mem_seek.mp (show (k', v) ∈ m.seek k from h ▸ List.mem_cons_self)
  refine ⟨hmem.1, hmem.2, fun k'' w hle hget => ?_⟩
  have hin : (k'', w) ∈ m.seek k := m.mem_seek.mpr ⟨hle, hget⟩
  have hs := m.sorted_seek k
  rw [h] at hin hs
  rcases List.mem_cons.mp hin with heq | hin
  · exact (Prod.mk.injEq .. ▸ heq).1.ge
  · exact ((List.pairwise_cons.mp hs).1 _ hin).le

lemma seek_nil (m : OrdMap K V) {k : K} (h : m.seek k = []) {k' : K} (hle : k ≤ k') :
    m.get k' = none := by
  cases hg : m.get k' with
  | none => rfl
  | some v =>
    have := m.mem_seek.mpr ⟨hle, hg⟩
    rw [h] at this
    cases this

/-- The entries below `k`, from the greatest one down. -/
def below (m : OrdMap K V) (k : K) : List (K × V) :=
  (m.entries.filter fun e => decide (e.1 < k)).reverse

lemma mem_below (m : OrdMap K V) {k k' : K} {v : V} :
    (k', v) ∈ m.below k ↔ k' < k ∧ m.get k' = some v := by
  rw [below, List.mem_reverse, List.mem_filter, mem_entries_iff]
  simp [and_comm]

/-- **A cursor that goes down stands on the greatest key.** -/
theorem below_head (m : OrdMap K V) {k k' : K} {v : V} {l : List (K × V)}
    (h : m.below k = (k', v) :: l) :
    k' < k ∧ m.get k' = some v ∧ ∀ k'' w, k'' < k → m.get k'' = some w → k'' ≤ k' := by
  have hmem := m.mem_below.mp (show (k', v) ∈ m.below k from h ▸ List.mem_cons_self)
  refine ⟨hmem.1, hmem.2, fun k'' w hlt hget => ?_⟩
  have hin : (k'', w) ∈ m.below k := m.mem_below.mpr ⟨hlt, hget⟩
  have hs : (m.below k).Pairwise fun a b => b.1 < a.1 :=
    List.pairwise_reverse.mpr (m.sorted.filter _)
  rw [h] at hin hs
  rcases List.mem_cons.mp hin with heq | hin
  · exact (Prod.mk.injEq .. ▸ heq).1.le
  · exact ((List.pairwise_cons.mp hs).1 _ hin).le

lemma seekReverse_of_none (m : OrdMap K V) {k : K} (h : m.get k = none) :
    m.seekReverse k = m.below k := by
  rw [seekReverse, below]
  congr 1
  refine List.filter_congr fun ⟨k', v⟩ hmem => ?_
  have hne : k' ≠ k := fun heq => by simp [← heq, m.mem_entries_iff.mp hmem] at h
  simp [hne.le_iff_lt]

lemma seekReverse_of_get (m : OrdMap K V) {k : K} {v : V} (h : m.get k = some v) :
    m.seekReverse k = (k, v) :: m.below k := by
  have happ : m.entries.filter (fun e => decide (e.1 ≤ k)) =
      m.entries.filter (fun e => decide (e.1 < k)) ++ [(k, v)] := by
    refine eq_of_mem_iff (m.sorted.filter _) ?_ fun ⟨k', w⟩ => ?_
    · refine List.pairwise_append.mpr ⟨m.sorted.filter _, List.pairwise_singleton _ _, ?_⟩
      intro x hx y hy
      rw [List.mem_singleton.mp hy]
      simpa using (List.mem_filter.mp hx).2
    · rw [List.mem_append, List.mem_filter, List.mem_filter, List.mem_singleton, mem_entries_iff,
        decide_eq_true_iff, decide_eq_true_iff, le_iff_lt_or_eq, Prod.mk.injEq]
      constructor
      · rintro ⟨hget, hlt | rfl⟩
        · exact .inl ⟨hget, hlt⟩
        · exact .inr ⟨rfl, Option.some.inj (hget.symm.trans h)⟩
      · rintro (⟨hget, hlt⟩ | ⟨rfl, rfl⟩)
        · exact ⟨hget, .inl hlt⟩
        · exact ⟨h, .inr rfl⟩
  rw [seekReverse, happ, List.reverse_append, below]
  rfl

/-- **The floor of a key is the greatest entry at or below it.** -/
theorem floor_eq_some (m : OrdMap K V) {k k' : K} {v : V} (h : m.get k' = some v) (hle : k' ≤ k)
    (hmax : ∀ k'' w, m.get k'' = some w → k'' ≤ k → k'' ≤ k') : m.floor k = some (k', v) := by
  unfold floor
  have hmem : (k', v) ∈ m.entries.filter fun e => decide (e.1 ≤ k) := by
    rw [List.mem_filter, mem_entries_iff]
    exact ⟨h, by simpa using hle⟩
  have hs : (m.entries.filter fun e => decide (e.1 ≤ k)).Pairwise fun a b => a.1 < b.1 :=
    m.sorted.filter _
  have hall : ∀ x ∈ m.entries.filter fun e => decide (e.1 ≤ k), x.1 ≤ k' := by
    rintro ⟨k'', w⟩ hx
    obtain ⟨hin, hx⟩ := List.mem_filter.mp hx
    exact hmax k'' w (m.mem_entries_iff.mp hin) (by simpa using hx)
  generalize m.entries.filter (fun e => decide (e.1 ≤ k)) = l at *
  rcases List.eq_nil_or_concat l with rfl | ⟨l, x, rfl⟩
  · cases hmem
  · rw [List.concat_eq_append] at *
    rw [List.getLast?_concat]
    -- an entry before the last one is below it, and so not the greatest
    rcases List.mem_append.mp hmem with hin | hlast
    · have hlt := (List.pairwise_append.mp hs).2.2 (k', v) hin x (by simp)
      exact absurd (hall x (by simp)) (not_le.mpr hlt)
    · rw [List.mem_singleton.mp hlast]

lemma floor_eq_none (m : OrdMap K V) {k : K} (h : ∀ k' w, m.get k' = some w → k < k') :
    m.floor k = none := by
  rw [floor, List.getLast?_eq_none_iff, List.filter_eq_nil_iff]
  rintro ⟨k', w⟩ hmem
  simpa using h k' w (m.mem_entries_iff.mp hmem)

lemma get_of_floor (m : OrdMap K V) {k k' : K} {v : V} (h : m.floor k = some (k', v)) :
    m.get k' = some v :=
  m.mem_entries_iff.mp (List.mem_of_mem_filter (List.mem_of_getLast? h))

/-- The floor of a key that is present is its own entry. -/
lemma floor_of_get (m : OrdMap K V) {k : K} {v : V} (h : m.get k = some v) :
    m.floor k = some (k, v) :=
  m.floor_eq_some h le_rfl fun _ _ _ hle => hle

/-- A cursor does not see what is put below it. -/
lemma map_fst_insertEntry {k : K} {v w : V} {l : List (K × V)}
    (h : l.Pairwise fun a b => a.1 < b.1) (hk : (k, w) ∈ l) :
    (insertEntry k v l).map Prod.fst = l.map Prod.fst := by
  induction l with
  | nil => cases hk
  | cons e l ih =>
    obtain ⟨hhd, htl⟩ := List.pairwise_cons.mp h
    unfold insertEntry
    rcases List.mem_cons.mp hk with rfl | hk
    · simp
    · have hlt := hhd _ hk
      rw [if_neg (lt_asymm hlt), if_neg hlt.ne', List.map_cons, List.map_cons, ih htl hk]

/-- A new value under an old key leaves the keys a cursor meets as they are. -/
lemma seek_put_keys (m : OrdMap K V) {k : K} (h : m.get k ≠ none) (v : V) (a : K) :
    ((m.put k v).seek a).map Prod.fst = (m.seek a).map Prod.fst := by
  obtain ⟨w, hw⟩ := Option.ne_none_iff_exists'.mp h
  have hkeys := map_fst_insertEntry (v := v) m.sorted (m.mem_entries_iff.mpr hw)
  have hseek : ∀ l : List (K × V), (l.dropWhile fun e => decide (e.1 < a)).map Prod.fst =
      (l.map Prod.fst).dropWhile fun x => decide (x < a) := fun l => by
    rw [List.dropWhile_map]
    rfl
  rw [seek, seek, hseek, hseek]
  exact congrArg _ hkeys

/-! ### Sums -/

section Total

variable {A : Type*} [AddCommMonoid A] (f : K → V → A)

/-- The sum of a weight over the entries. -/
def total (m : OrdMap K V) : A := (m.entries.map fun e => f e.1 e.2).sum

/-- The weight of the entry under `k`, if there is one. -/
def weightAt (m : OrdMap K V) (k : K) : A := ((m.get k).map (f k)).getD 0

lemma find_none_of_lt {l : List (K × V)} {k : K} (h : ∀ e ∈ l, k < e.1) :
    (l.find? fun e => decide (e.1 = k)) = none := by
  rw [List.find?_eq_none]
  intro e he
  simpa using (h e he).ne'

lemma sum_insertEntry (k : K) (v : V) {l : List (K × V)} (h : l.Pairwise fun a b => a.1 < b.1) :
    ((insertEntry k v l).map fun e => f e.1 e.2).sum +
        (((l.find? fun e => decide (e.1 = k)).map Prod.snd).map (f k)).getD 0 =
      (l.map fun e => f e.1 e.2).sum + f k v := by
  induction l with
  | nil => simp [insertEntry]
  | cons e l ih =>
    obtain ⟨hhd, htl⟩ := List.pairwise_cons.mp h
    unfold insertEntry
    split_ifs with h1 h2
    · have hnone : ((e :: l).find? fun e => decide (e.1 = k)) = none := by
        refine find_none_of_lt fun x hx => ?_
        rcases List.mem_cons.mp hx with rfl | hx
        · exact h1
        · exact h1.trans (hhd x hx)
      simp only [hnone, List.map_cons, List.sum_cons, Option.map_none, Option.getD_none, add_zero]
      exact add_comm _ _
    · subst h2
      rw [List.find?_cons_of_pos (by simp)]
      simp only [List.map_cons, List.sum_cons, Option.map_some, Option.getD_some]
      abel
    · rw [List.find?_cons_of_neg (by simpa using Ne.symm h2)]
      simp only [List.map_cons, List.sum_cons, add_assoc, ih htl]

/-- **What a put adds to a sum**: its own weight, for that of the entry it replaces. -/
theorem total_put (m : OrdMap K V) (k : K) (v : V) :
    (m.put k v).total f + m.weightAt f k = m.total f + f k v :=
  sum_insertEntry f k v m.sorted

end Total

end OrdMap
