import Ancestor.BoundedCache
import Mathlib.Data.List.MinMax

/-!
A bounded cache against a reference.

The reference has no list. Its entries carry the times at which they were added and last used, and
when there are too many of them the one with the least time is dropped: the time of the last use
under the policy LRU, the time of the addition under FIFO. The list of the cache is that of the
reference's entries by this time, so its last entry is the one to drop.
-/

namespace Ancestor.UnorderedCache

variable {K V : Type} [DecidableEq K]

/-! ### The reference -/

/-- An entry with the times of its addition and of its last use. -/
structure Item (K V : Type) where
  entry : Entry K V
  added : ℕ
  used : ℕ

/-- The time that the policy goes by. -/
def Item.stamp (policy : EvictionPolicy) (i : Item K V) : ℕ :=
  if policy = .cacheLRU then i.used else i.added

/-- The items in no particular order. Every call has its own time. -/
structure Ref (K V : Type) where
  now : ℕ := 0
  items : List (Item K V) := []

namespace Ref

def lookup (r : Ref K V) (k : K) : Option V :=
  (r.items.find? (·.entry.key = k)).map (·.entry.value)

def mark (now : ℕ) (k : K) (f : V → V) (i : Item K V) : Item K V :=
  if i.entry.key = k then { i with entry := ⟨k, f i.entry.value⟩, used := now } else i

/-- The entry of a key is used, and its value becomes another one. -/
def use (k : K) (f : V → V) (r : Ref K V) : Ref K V where
  now := r.now + 1
  items := r.items.map (mark r.now k f)

/-- The items without the one of the least time. -/
def dropOldest (policy : EvictionPolicy) (items : List (Item K V)) : List (Item K V) :=
  match items.argmin (Item.stamp policy) with
  | none => items
  | some i => items.filter (·.entry.key ≠ i.entry.key)

def add (policy : EvictionPolicy) (n : ℕ) (k : K) (v : V) (r : Ref K V) : Ref K V :=
  if k ∈ r.items.map (·.entry.key) then r.use k fun _ => v
  else
    let items := ⟨⟨k, v⟩, r.now, r.now⟩ :: r.items
    { now := r.now + 1
      items := if n < items.length then dropOldest policy items else items }

def step (policy : EvictionPolicy) (n : ℕ) (r : Ref K V) : Op K V → Ref K V
  | .add k v => r.add policy n k v
  | .get k => r.use k id
  | .del k => { r with items := r.items.filter (·.entry.key ≠ k) }
  | .clear _ => { r with items := [] }

def run (policy : EvictionPolicy) (n : ℕ) (ops : List (Op K V)) : Ref K V :=
  ops.foldl (step policy n) {}

end Ref

/-- The list is that of the reference's items, by the time of the policy and the latest first. -/
def Tracks (policy : EvictionPolicy) (l : List (Entry K V)) (r : Ref K V) : Prop :=
  ∃ its : List (Item K V), its.Perm r.items ∧ its.map Item.entry = l ∧
    its.Pairwise (fun i j => j.stamp policy < i.stamp policy) ∧
    ∀ i ∈ its, i.added < r.now ∧ i.used < r.now

section Tracks

variable {policy : EvictionPolicy} {l : List (Entry K V)} {r : Ref K V} {k : K} {v : V} {n : ℕ}

omit [DecidableEq K] in
theorem Item.stamp_lt {i : Item K V} {t : ℕ} (h : i.added < t ∧ i.used < t) :
    i.stamp policy < t := by
  unfold Item.stamp
  split
  · exact h.2
  · exact h.1

omit [DecidableEq K] in
theorem Tracks.keys (h : Tracks policy l r) :
    (r.items.map (·.entry.key)).Perm (l.map Entry.key) := by
  obtain ⟨its, hperm, rfl, -⟩ := h
  rw [List.map_map]
  exact hperm.symm.map _

/-- Whatever the reference finds under a key is the entry of the list. -/
theorem Tracks.lookup_iff (h : Tracks policy l r) (hn : (l.map Entry.key).Nodup) :
    r.lookup k = some v ↔ ⟨k, v⟩ ∈ l := by
  have hkeys : (r.items.map (·.entry.key)).Nodup := h.keys.nodup_iff.mpr hn
  obtain ⟨its, hperm, rfl, -⟩ := h
  rw [Ref.lookup, Option.map_eq_some_iff, List.mem_map]
  constructor
  · rintro ⟨i, hi, rfl⟩
    have hk : i.entry.key = k := by simpa using List.find?_some hi
    exact ⟨i, hperm.mem_iff.mpr (List.mem_of_find?_eq_some hi), Entry.ext hk rfl⟩
  · rintro ⟨i, hi, hie⟩
    have hmem : i ∈ r.items := hperm.mem_iff.mp hi
    obtain ⟨j, hj⟩ : ∃ j, r.items.find? (·.entry.key = k) = some j :=
      Option.isSome_iff_exists.mp (List.find?_isSome.mpr
        ⟨i, hmem, decide_eq_true (congrArg Entry.key hie)⟩)
    have hjk : j.entry.key = k := by simpa using List.find?_some hj
    obtain rfl : j = i := List.inj_on_of_nodup_map hkeys (List.mem_of_find?_eq_some hj) hmem
      (hjk.trans (congrArg Entry.key hie).symm)
    exact ⟨j, hj, congrArg Entry.value hie⟩

theorem mark_entry {t : ℕ} {f : V → V} {i : Item K V} :
    (Ref.mark t k f i).entry
      = if i.entry.key = k then ⟨k, f i.entry.value⟩ else i.entry := by
  unfold Ref.mark
  split
  · rfl
  · rfl

@[simp] theorem mark_added {t : ℕ} {f : V → V} {i : Item K V} :
    (Ref.mark t k f i).added = i.added := by
  unfold Ref.mark
  split
  · rfl
  · rfl

theorem mark_used {t : ℕ} {f : V → V} {i : Item K V} :
    (Ref.mark t k f i).used = if i.entry.key = k then t else i.used := by
  unfold Ref.mark
  split
  · rfl
  · rfl

theorem Tracks.use (h : Tracks policy l r) (hn : (l.map Entry.key).Nodup) (f : V → V) :
    Tracks policy (assign k f (front policy k l)) (r.use k f) := by
  obtain ⟨its, hperm, rfl, hsort, hnow⟩ := h
  have hbound : ∀ i ∈ its, (Ref.mark r.now k f i).added < r.now + 1 ∧
      (Ref.mark r.now k f i).used < r.now + 1 := by
    intro i hi
    have := hnow i hi
    rw [mark_added, mark_used]
    split <;> omega
  by_cases hpol : policy = .cacheLRU
  · -- the marked item has the latest time, the others keep theirs
    have hfront : (its.filter (·.entry.key = k) ++ its.filter (·.entry.key ≠ k)).Perm its := by
      simpa using List.filter_append_perm (fun i : Item K V => decide (i.entry.key = k)) its
    refine ⟨(its.filter (·.entry.key = k) ++ its.filter (·.entry.key ≠ k)).map
      (Ref.mark r.now k f), (hfront.trans hperm).map _, ?_, ?_, ?_⟩
    · rw [assign, front, if_pos hpol, List.filter_map, List.filter_map, ← List.map_append,
        List.map_map, List.map_map]
      exact List.map_congr_left fun i _ => mark_entry
    · rw [List.pairwise_map, List.pairwise_append]
      refine ⟨?_, ?_, fun i hi j hj => ?_⟩
      · -- one item has the key
        rw [List.map_map, List.Nodup, List.pairwise_map] at hn
        refine (hn.filter _).imp_of_mem fun {i j} hi hj hne => absurd ?_ hne
        rw [List.mem_filter, decide_eq_true_eq] at hi hj
        exact hi.2.trans hj.2.symm
      · refine (hsort.filter _).imp_of_mem fun {i j} hi hj hij => ?_
        rw [List.mem_filter, decide_eq_true_eq] at hi hj
        simpa only [Item.stamp, if_pos hpol, mark_used, if_neg hi.2, if_neg hj.2] using hij
      · rw [List.mem_filter, decide_eq_true_eq] at hi hj
        simpa only [Item.stamp, if_pos hpol, mark_used, if_pos hi.2, if_neg hj.2]
          using (hnow j hj.1).2
    · intro i hi
      obtain ⟨j, hj, rfl⟩ := List.mem_map.mp hi
      exact hbound j (hfront.mem_iff.mp hj)
  · refine ⟨its.map (Ref.mark r.now k f), hperm.map _, ?_, ?_, ?_⟩
    · rw [assign, front, if_neg hpol, List.map_map, List.map_map]
      exact List.map_congr_left fun i _ => mark_entry
    · rw [List.pairwise_map]
      refine hsort.imp fun {i j} hij => ?_
      simpa only [Item.stamp, if_neg hpol, mark_added] using hij
    · intro i hi
      obtain ⟨j, hj, rfl⟩ := List.mem_map.mp hi
      exact hbound j hj

omit [DecidableEq K] in
theorem Tracks.filter (h : Tracks policy l r) (q : Entry K V → Bool) :
    Tracks policy (l.filter q) { r with items := r.items.filter fun i => q i.entry } := by
  obtain ⟨its, hperm, rfl, hsort, hnow⟩ := h
  refine ⟨its.filter fun i => q i.entry, hperm.filter _, ?_, hsort.filter _, ?_⟩
  · rw [List.filter_map]
    rfl
  · intro i hi
    exact hnow i (List.mem_filter.mp hi).1

/-- The item with the least time is the last of the list. -/
theorem dropOldest_perm {its items : List (Item K V)} {i : Item K V}
    (hperm : (its ++ [i]).Perm items) (hn : ((its ++ [i]).map (·.entry.key)).Nodup)
    (hsort : (its ++ [i]).Pairwise fun i j => j.stamp policy < i.stamp policy) :
    its.Perm (Ref.dropOldest policy items) := by
  classical
  have hleast : ∀ j ∈ items, j = i ∨ i.stamp policy < j.stamp policy := by
    intro j hj
    rcases List.mem_append.mp (hperm.mem_iff.mpr hj) with hj | hj
    · exact .inr ((List.pairwise_append.mp hsort).2.2 j hj i (by simp))
    · exact .inl (List.mem_singleton.mp hj)
  have hmin : items.argmin (Item.stamp policy) = some i := by
    refine List.argmin_eq_some_iff.mpr
      ⟨hperm.mem_iff.mp (by simp), fun j hj => ?_, fun j hj hji => ?_⟩
    · rcases hleast j hj with rfl | hlt
      · exact le_rfl
      · exact hlt.le
    · rcases hleast j hj with rfl | hlt
      · exact le_rfl
      · exact absurd hji (not_le.mpr hlt)
  rw [Ref.dropOldest, hmin]
  -- the others have other keys
  rw [List.map_append, List.nodup_append] at hn
  have hkeep : (its ++ [i]).filter (·.entry.key ≠ i.entry.key) = its := by
    rw [List.filter_append, List.filter_cons_of_neg (by simp), List.filter_nil, List.append_nil,
      List.filter_eq_self]
    intro j hj
    exact decide_eq_true (hn.2.2 _ (List.mem_map_of_mem hj) _ (by simp))
  have := hperm.filter (·.entry.key ≠ i.entry.key)
  rwa [hkeep] at this

theorem Tracks.add_new (h : Tracks policy l r) (hn : (l.map Entry.key).Nodup)
    (hlen : l.length ≤ n) (hk : k ∉ l.map Entry.key) :
    Tracks policy ((⟨k, v⟩ :: l).take n) (r.add policy n k v) := by
  have hk' : k ∉ r.items.map (·.entry.key) := fun hmem => hk (h.keys.mem_iff.mp hmem)
  obtain ⟨its, hperm, rfl, hsort, hnow⟩ := h
  rw [List.length_map] at hlen
  have hcons : (⟨⟨k, v⟩, r.now, r.now⟩ :: its : List (Item K V)).Pairwise
      fun i j => j.stamp policy < i.stamp policy := by
    refine List.pairwise_cons.mpr ⟨fun j hj => ?_, hsort⟩
    simpa [Item.stamp] using Item.stamp_lt (hnow j hj)
  have hbound : ∀ i ∈ (⟨⟨k, v⟩, r.now, r.now⟩ :: its : List (Item K V)),
      i.added < r.now + 1 ∧ i.used < r.now + 1 := by
    intro i hi
    rcases List.mem_cons.mp hi with rfl | hi
    · exact ⟨Nat.lt_succ_self _, Nat.lt_succ_self _⟩
    · have := hnow i hi
      omega
  have hpush : (⟨⟨k, v⟩, r.now, r.now⟩ :: its).Perm (⟨⟨k, v⟩, r.now, r.now⟩ :: r.items) :=
    hperm.cons _
  rw [Ref.add, if_neg hk']
  by_cases hfull : n < its.length + 1
  · obtain ⟨init, i, hlast⟩ : ∃ init i, (⟨⟨k, v⟩, r.now, r.now⟩ :: its : List (Item K V))
        = init ++ [i] :=
      ⟨_, _, (List.dropLast_concat_getLast (List.cons_ne_nil _ _)).symm⟩
    have hinit : init.length = n := by
      have := congrArg List.length hlast
      simp only [List.length_cons, List.length_append, List.length_nil] at this
      omega
    have hkeys : ((init ++ [i]).map (·.entry.key)).Nodup := by
      rw [← hlast, List.map_cons, List.nodup_cons]
      rw [List.map_map] at hn hk
      exact ⟨hk, hn⟩
    rw [hlast] at hpush hcons hbound
    refine ⟨init, ?_, ?_, (List.pairwise_append.mp hcons).1,
      fun j hj => hbound j (List.mem_append_left _ hj)⟩
    · simp only [List.length_cons, ← hperm.length_eq, if_pos hfull]
      exact dropOldest_perm hpush hkeys hcons
    · have := congrArg (List.map Item.entry) hlast
      rw [List.map_cons] at this
      rw [this, List.map_append, ← hinit, ← List.length_map Item.entry, List.take_left']
      rfl
  · refine ⟨_, ?_, ?_, hcons, hbound⟩
    · simpa only [List.length_cons, ← hperm.length_eq, if_neg hfull] using hpush
    · rw [List.map_cons, List.take_of_length_le (by simp; omega)]

end Tracks

/-! ### Runs -/

section Run

variable {policy : EvictionPolicy} {n : ℕ}

/-- What a cache and the reference have in common after the same calls. -/
structure Match (policy : EvictionPolicy) (n : ℕ) (c : Cache K V) (r : Ref K V) : Prop where
  linked : c.Linked
  tracks : Tracks policy c.entries r
  bound : c.entries.length ≤ n

theorem match_step (hpol : policy ≠ .cacheNone) {c : Cache K V} {r : Ref K V} (op : Op K V)
    (h : Match policy n c r) :
    ∃ c', step (bounded policy n) c op = .ok c' ∧ Match policy n c' (r.step policy n op) := by
  have hn := Cache.entries_nodup h.linked
  have hcfg : (bounded policy n : Config K V).policy ≠ .cacheNone := hpol
  cases op with
  | add k v =>
    by_cases hk : k ∈ c.entries.map Entry.key
    · obtain ⟨c', hrun, hl, he⟩ := Cache.add_known (bounded policy n) v h.linked hk
      have hk' : k ∈ r.items.map (·.entry.key) := h.tracks.keys.mem_iff.mpr hk
      refine ⟨c', hrun, hl, ?_, ?_⟩
      · rw [he, Ref.step, Ref.add, if_pos hk']
        exact h.tracks.use hn _
      · rw [he, assign, List.length_map, front_perm.length_eq]
        exact h.bound
    · obtain ⟨c', hrun, hl, he⟩ := Cache.add_new (n := n) (v := v) h.linked hpol hk
      refine ⟨c', hrun, hl, ?_, ?_⟩
      · rw [he]
        exact h.tracks.add_new hn h.bound hk
      · rw [he]
        exact List.length_take_le _ _
  | get k =>
    obtain ⟨hl, he⟩ := Cache.Get_spec (bounded policy n) k h.linked
    refine ⟨_, rfl, hl, ?_, ?_⟩
    · rw [he, ← assign_id (k := k) (l := front _ k c.entries)]
      exact h.tracks.use hn id
    · rw [he, front_perm.length_eq]
      exact h.bound
  | del k =>
    obtain ⟨hl, he⟩ := Cache.del_spec k h.linked hcfg
    refine ⟨_, rfl, hl, ?_, ?_⟩
    · rw [he]
      exact h.tracks.filter _
    · rw [he]
      exact (List.length_filter_le _ _).trans h.bound
  | clear walk =>
    have he := Cache.clear_all h.linked hcfg walk
    refine ⟨_, rfl, (Cache.clear_spec hcfg _ h.linked).1, ?_, ?_⟩
    · rw [he]
      exact ⟨[], .nil, rfl, .nil, by simp⟩
    · rw [he]
      exact Nat.zero_le _

theorem match_run (hpol : policy ≠ .cacheNone) (ops : List (Op K V)) :
    ∀ {c : Cache K V} {r : Ref K V}, Match policy n c r →
      ∃ c', run (bounded policy n) c ops = .ok c' ∧
        Match policy n c' (ops.foldl (Ref.step policy n) r) := by
  induction ops with
  | nil => intro c r h; exact ⟨c, rfl, h⟩
  | cons op ops ih =>
    intro c r h
    obtain ⟨c₁, hstep, h₁⟩ := match_step hpol op h
    obtain ⟨c', hrun, h'⟩ := ih h₁
    refine ⟨c', ?_, h'⟩
    rw [run, List.foldlM_cons, hstep]
    exact hrun

theorem Match.Get_eq {c : Cache K V} {r : Ref K V} (h : Match policy n c r) (k : K) :
    (c.Get (bounded policy n) k).1 = r.lookup k := by
  ext v
  rw [h.tracks.lookup_iff (Cache.entries_nodup h.linked), Cache.mem_entries h.linked, Cache.Get]
  cases hg : c.get k with
  | none => simp
  | some q =>
    obtain ⟨p, e⟩ := q
    have hk : e.key = k := ((Cache.get_eq_some h.linked).mp hg).2.2
    simp only [Option.some.injEq, Prod.mk.injEq, exists_eq_left']
    constructor
    · rintro rfl
      exact Entry.ext hk rfl
    · rintro rfl
      rfl

/-- After any calls the map and the list of a bounded cache hold the same entries, at most `n` of
them, and these are the ones of the reference. The eviction ends and meets no missing element. -/
theorem bounded_refines (policy : EvictionPolicy)
    (hpol : policy = .cacheLRU ∨ policy = .cacheFIFO) (n : ℕ) (ops : List (Op K V)) :
    ∃ c, run (bounded policy n) {} ops = .ok c ∧ c.Linked ∧ c.length ≤ n ∧
      ∀ k, (c.Get (bounded policy n) k).1 = (Ref.run policy n ops).lookup k := by
  have hne : policy ≠ .cacheNone := by
    rintro rfl
    simp at hpol
  have hstart : Match policy n ({} : Cache K V) {} :=
    ⟨Cache.linked_empty, ⟨[], .nil, rfl, .nil, by simp⟩, Nat.zero_le _⟩
  obtain ⟨c, hrun, hc⟩ := match_run hne ops hstart
  refine ⟨c, hrun, hc.linked, ?_, hc.Get_eq⟩
  rw [Cache.length_eq hc.linked]
  exact hc.bound

/-- Key 1 is read before the third key comes, so key 2 has to go. -/
theorem bounded_refines_three :
    ∃ c, run (bounded .cacheLRU 2) {} [.add 1 10, .add 2 20, .get 1, .add 3 30] = .ok c ∧
      (c.Get (bounded .cacheLRU 2) 1).1 = some 10 ∧ (c.Get (bounded .cacheLRU 2) 2).1 = none := by
  obtain ⟨c, hrun, -, -, hc⟩ := bounded_refines .cacheLRU (.inl rfl) 2
    [.add 1 10, .add 2 20, .get 1, .add 3 30]
  exact ⟨c, hrun, (hc 1).trans (by decide), (hc 2).trans (by decide)⟩

end Run

end Ancestor.UnorderedCache
