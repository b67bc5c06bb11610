import Mathlib.Data.List.AList
import Mathlib.Data.List.Pairwise
import Mathlib.Data.List.Nodup

/-!
The cache over a hash map (`util/cache/cache.go`), with a bound on its size.

An entry is in a hash map, under its key, and in a list that says what goes next. A new entry goes
to the front of the list. Under the policy LRU an entry that is read or written again goes there
too, under FIFO it stays where it is. What has to go is taken from the back.

The list of the entries, newest first, is the state of the cache in its own terms, and each call
has its effect on that list.
-/

namespace Ancestor.UnorderedCache

variable {K V : Type} [DecidableEq K]

/-! ### The cache -/

inductive EvictionPolicy
  | cacheLRU | cacheFIFO | cacheNone
  deriving DecidableEq, Repr

structure Config (K V : Type) where
  policy : EvictionPolicy
  shouldEvict : Option (ℕ → K → V → Bool)

/-- The element of the list that `le` points to is the entry's own and has no name of its own. -/
@[ext] structure Entry (K V : Type) where
  key : K
  value : V
  deriving DecidableEq, Repr

/-- Pointers are positions in `objs`. The front of the list `ll` comes first. -/
structure Cache (K V : Type) where
  objs : List (Entry K V) := []
  hmap : AList (fun _ : K => ℕ) := ∅
  ll : List ℕ := []

inductive Fault
  /-- `Back` of an empty list is nil, and `evict` reads its value. -/
  | nilElement
  | outOfFuel
  deriving DecidableEq, Repr

namespace Cache

variable (cfg : Config K V) (c : Cache K V)

def deref (p : ℕ) : Option (ℕ × Entry K V) := c.objs[p]?.map (p, ·)

def get (key : K) : Option (ℕ × Entry K V) := (c.hmap.lookup key).bind c.deref

def length : ℕ := c.hmap.keys.length

def access (p : ℕ) : Cache K V :=
  if cfg.policy = .cacheLRU then
    -- `MoveToFront` leaves a list alone that the element is not of
    { c with ll := if p ∈ c.ll then p :: c.ll.erase p else c.ll }
  else c

def removeElement (p : ℕ) (e : Entry K V) : Cache K V :=
  { c with
    ll := if cfg.policy = .cacheNone then c.ll else c.ll.erase p
    hmap := c.hmap.erase e.key }

def evict : Except Fault (Bool × Cache K V) :=
  match cfg.shouldEvict with
  | none => .ok (false, c)
  | some shouldEvict =>
    if cfg.policy = .cacheNone then .ok (false, c)
    else if c.length = 0 then .ok (false, c)
    else
      match c.ll.getLast?.bind c.deref with
      | none => .error .nilElement
      | some (p, e) =>
        if shouldEvict c.length e.key e.value then .ok (true, c.removeElement cfg p e)
        else .ok (false, c)

/-- The loop of `Add`. -/
def evictLoop : ℕ → Cache K V → Except Fault (Cache K V)
  | 0, _ => .error .outOfFuel
  | n + 1, c => do
    let (evicted, c) ← c.evict cfg
    if evicted then evictLoop n c else .ok c

/-- A new entry, before anything is evicted. -/
def push (key : K) (value : V) : Cache K V where
  objs := c.objs ++ [⟨key, value⟩]
  ll := if cfg.policy = .cacheNone then c.ll else c.objs.length :: c.ll
  hmap := c.hmap.insert key c.objs.length

/-- A turn of the loop takes an entry away, so there are at most as many turns as entries, and the
last look. -/
def add (key : K) (value : V) : Except Fault (Cache K V) :=
  match c.get key with
  | some (p, e) =>
    let c := c.access cfg p
    .ok { c with objs := c.objs.set p { e with value } }
  | none =>
    let c := c.push cfg key value
    c.evictLoop cfg (c.length + 1)

def Get (key : K) : Option V × Cache K V :=
  match c.get key with
  | some (p, e) => (some e.value, c.access cfg p)
  | none => (none, c)

def del (key : K) : Cache K V :=
  match c.get key with
  | some (p, e) => c.removeElement cfg p e
  | none => c

/-- The loop of `clear`, over the keys in the order in which the map gives them. -/
def clear (keys : List K) : Cache K V := keys.foldl (del cfg) c

end Cache

/-- The order in which a walk over a map meets its keys. -/
structure Walk (K : Type) where
  order : List K → List K
  perm : ∀ l, (order l).Perm l

inductive Op (K V : Type)
  | add (key : K) (value : V)
  | get (key : K)
  | del (key : K)
  | clear (walk : Walk K)

def step (cfg : Config K V) (c : Cache K V) : Op K V → Except Fault (Cache K V)
  | .add key value => c.add cfg key value
  | .get key => .ok (c.Get cfg key).2
  | .del key => .ok (c.del cfg key)
  | .clear walk => .ok (c.clear cfg (walk.order c.hmap.keys))

def run (cfg : Config K V) (c : Cache K V) (ops : List (Op K V)) : Except Fault (Cache K V) :=
  ops.foldlM (step cfg) c

/-- The configuration with at most `n` entries. -/
def bounded (policy : EvictionPolicy) (n : ℕ) : Config K V where
  policy
  shouldEvict := some fun size _ _ => n < size

/-! ### The map and the list -/

namespace Cache

variable {cfg : Config K V} {c : Cache K V} {k : K} {v : V} {p : ℕ} {n : ℕ}

/-- The map and the list hold the same entries, each of them once. -/
structure Linked (c : Cache K V) : Prop where
  nodup : c.ll.Nodup
  mapped : ∀ p ∈ c.ll, ∃ e, c.objs[p]? = some e ∧ c.hmap.lookup e.key = some p
  listed : ∀ k p, c.hmap.lookup k = some p → p ∈ c.ll ∧ ∃ v, c.objs[p]? = some ⟨k, v⟩

/-- The entries, the newest first. -/
def entries (c : Cache K V) : List (Entry K V) := c.ll.filterMap (c.objs[·]?)

theorem linked_empty : ({} : Cache K V).Linked where
  nodup := List.nodup_nil
  mapped := by simp
  listed := by simp

theorem get_eq_none (h : c.Linked) : c.get k = none ↔ c.hmap.lookup k = none := by
  unfold get
  constructor
  · intro hg
    cases hp : c.hmap.lookup k with
    | none => rfl
    | some p =>
      obtain ⟨-, v, hv⟩ := h.listed k p hp
      simp [hp, deref, hv] at hg
  · intro hp
    simp [hp]

theorem get_eq_some (h : c.Linked) {e : Entry K V} :
    c.get k = some (p, e) ↔ c.hmap.lookup k = some p ∧ c.objs[p]? = some e ∧ e.key = k := by
  unfold get deref
  constructor
  · intro hg
    obtain ⟨q, hq, hd⟩ := Option.bind_eq_some_iff.mp hg
    obtain ⟨e', he', hpe⟩ := Option.map_eq_some_iff.mp hd
    obtain ⟨rfl, rfl⟩ := Prod.mk.inj hpe
    obtain ⟨-, v, hv⟩ := h.listed k q hq
    have : e' = ⟨k, v⟩ := Option.some.inj (he'.symm.trans hv)
    exact ⟨hq, he', by rw [this]⟩
  · rintro ⟨hp, he, -⟩
    simp [hp, he]

/-- Where the entry of a key is in the list, and that the others have other keys. -/
theorem Linked.split (h : c.Linked) (hp : c.hmap.lookup k = some p) :
    ∃ a b, c.ll = a ++ p :: b ∧ p ∉ a ∧ p ∉ b ∧
      ∀ q ∈ a ++ b, ∀ e, c.objs[q]? = some e → e.key ≠ k := by
  obtain ⟨a, b, hab⟩ := List.append_of_mem (h.listed k p hp).1
  have hn : p ∉ a ++ b := (List.nodup_middle.mp (hab ▸ h.nodup)).notMem
  rw [List.mem_append, not_or] at hn
  refine ⟨a, b, hab, hn.1, hn.2, fun q hq e he hek => ?_⟩
  have hql : q ∈ c.ll := by
    rw [hab]
    simp only [List.mem_append, List.mem_cons] at hq ⊢
    tauto
  obtain ⟨e', he', hl⟩ := h.mapped q hql
  obtain rfl : e = e' := Option.some.inj (he.symm.trans he')
  obtain rfl : q = p := by
    rw [hek, hp] at hl
    exact (Option.some.inj hl).symm
  rw [List.mem_append] at hq
  exact hq.elim hn.1 hn.2

theorem mem_entries (h : c.Linked) {e : Entry K V} :
    e ∈ c.entries ↔ ∃ p, c.get e.key = some (p, e) := by
  simp only [get_eq_some h, entries, List.mem_filterMap]
  constructor
  · rintro ⟨p, hp, he⟩
    obtain ⟨e', he', hl⟩ := h.mapped p hp
    obtain rfl : e = e' := Option.some.inj (he.symm.trans he')
    exact ⟨p, hl, he, trivial⟩
  · rintro ⟨p, hl, he, -⟩
    exact ⟨p, (h.listed _ p hl).1, he⟩

theorem entries_nodup (h : c.Linked) : (c.entries.map Entry.key).Nodup := by
  rw [entries, List.Nodup, List.pairwise_map, List.pairwise_filterMap]
  refine h.nodup.imp_of_mem fun {p q} hp hq hne e he e' he' heq => hne ?_
  obtain ⟨d, hd, hl⟩ := h.mapped p hp
  obtain ⟨d', hd', hl'⟩ := h.mapped q hq
  obtain rfl : d = e := Option.some.inj (hd.symm.trans he)
  obtain rfl : d' = e' := Option.some.inj (hd'.symm.trans he')
  rw [heq] at hl
  exact Option.some.inj (hl.symm.trans hl')

/-- The size that `ShouldEvict` is asked with is the number of entries in the list. -/
theorem length_eq (h : c.Linked) : c.length = c.entries.length := by
  have hperm : c.hmap.keys.Perm (c.entries.map Entry.key) := by
    rw [List.perm_ext_iff_of_nodup c.hmap.keys_nodup (entries_nodup h)]
    intro k
    rw [← AList.mem_keys, ← AList.lookup_isSome, Option.isSome_iff_exists, List.mem_map]
    constructor
    · rintro ⟨p, hp⟩
      obtain ⟨-, v, hv⟩ := h.listed k p hp
      exact ⟨⟨k, v⟩, (mem_entries h).mpr ⟨p, (get_eq_some h).mpr ⟨hp, hv, rfl⟩⟩, rfl⟩
    · rintro ⟨e, he, rfl⟩
      obtain ⟨p, hp⟩ := (mem_entries h).mp he
      exact ⟨p, ((get_eq_some h).mp hp).1⟩
  rw [length, hperm.length_eq, List.length_map]

end Cache

/-! ### What the calls do to the entries -/

/-- The entry of a key at the front, under the policy that moves it there. -/
def front (policy : EvictionPolicy) (k : K) (l : List (Entry K V)) : List (Entry K V) :=
  if policy = .cacheLRU then l.filter (·.key = k) ++ l.filter (·.key ≠ k) else l

/-- The value under a key becomes another one. -/
def assign (k : K) (f : V → V) (l : List (Entry K V)) : List (Entry K V) :=
  l.map fun e => if e.key = k then ⟨k, f e.value⟩ else e

theorem front_perm {policy : EvictionPolicy} {k : K} {l : List (Entry K V)} :
    (front policy k l).Perm l := by
  unfold front
  split
  · simpa using List.filter_append_perm (fun e : Entry K V => decide (e.key = k)) l
  · exact .refl l

theorem assign_id {k : K} {l : List (Entry K V)} : assign k id l = l := by
  refine (List.map_congr_left fun e _ => ?_).trans (List.map_id l)
  split
  · rename_i hk
    exact Entry.ext hk.symm rfl
  · rfl

def without (k : K) (l : List (Entry K V)) : List (Entry K V) := l.filter (·.key ≠ k)

namespace Cache

variable {cfg : Config K V} {c : Cache K V} {k : K} {v : V} {p : ℕ} {n : ℕ}

omit [DecidableEq K] in
theorem entries_split {a b : List ℕ} {e : Entry K V} (hl : c.ll = a ++ p :: b)
    (he : c.objs[p]? = some e) :
    c.entries = a.filterMap (c.objs[·]?) ++ e :: b.filterMap (c.objs[·]?) := by
  rw [entries, hl, List.filterMap_append, List.filterMap_cons_some he]

/-- Of the entries in a part of the list that has no entry of the key, all have other keys. -/
theorem filter_key_ne {a : List ℕ} (ha : ∀ q ∈ a, ∀ e, c.objs[q]? = some e → e.key ≠ k) :
    (a.filterMap (c.objs[·]?)).filter (·.key ≠ k) = a.filterMap (c.objs[·]?) := by
  rw [List.filter_eq_self]
  intro e he
  obtain ⟨q, hq, hqe⟩ := List.mem_filterMap.mp he
  exact decide_eq_true (ha q hq e hqe)

theorem filter_key_eq {a : List ℕ} (ha : ∀ q ∈ a, ∀ e, c.objs[q]? = some e → e.key ≠ k) :
    (a.filterMap (c.objs[·]?)).filter (·.key = k) = [] := by
  rw [List.filter_eq_nil_iff]
  intro e he hk
  obtain ⟨q, hq, hqe⟩ := List.mem_filterMap.mp he
  exact ha q hq e hqe (of_decide_eq_true hk)

omit [DecidableEq K] in
theorem erase_split {a b : List ℕ} (hl : c.ll = a ++ p :: b) (ha : p ∉ a) :
    c.ll.erase p = a ++ b := by
  rw [hl, List.erase_append_right _ ha, List.erase_cons_head]

theorem linked_access (h : c.Linked) : (c.access cfg p).Linked := by
  unfold access
  split
  · split
    · rename_i hp
      have hperm : (p :: c.ll.erase p).Perm c.ll := (List.perm_cons_erase hp).symm
      exact ⟨hperm.nodup_iff.mpr h.nodup, fun q hq => h.mapped q (hperm.mem_iff.mp hq),
        fun k q hq => ⟨hperm.mem_iff.mpr (h.listed k q hq).1, (h.listed k q hq).2⟩⟩
    · exact h
  · exact h

theorem entries_access (h : c.Linked) (hp : c.hmap.lookup k = some p) :
    (c.access cfg p).entries = front cfg.policy k c.entries := by
  unfold access front
  split
  · obtain ⟨hmem, v, hv⟩ := h.listed k p hp
    obtain ⟨a, b, hl, ha, -, hab⟩ := h.split hp
    have hA := fun q hq => hab q (List.mem_append_left b hq)
    have hB := fun q hq => hab q (List.mem_append_right a hq)
    rw [if_pos hmem, entries_split hl hv, List.filter_append, List.filter_append,
      List.filter_cons_of_pos (by simp), List.filter_cons_of_neg (by simp), filter_key_eq hA,
      filter_key_eq hB, filter_key_ne hA, filter_key_ne hB]
    simp only [entries, erase_split hl ha, List.filterMap_cons_some hv, List.filterMap_append,
      List.nil_append, List.singleton_append]
  · rfl

theorem linked_set (h : c.Linked) (hp : c.hmap.lookup k = some p) :
    { c with objs := c.objs.set p ⟨k, v⟩ }.Linked := by
  obtain ⟨-, w, hw⟩ := h.listed k p hp
  have hlt : p < c.objs.length := (List.getElem?_eq_some_iff.mp hw).1
  refine ⟨h.nodup, fun q hq => ?_, fun k' q hq => ?_⟩
  · obtain rfl | hne := eq_or_ne q p
    · exact ⟨⟨k, v⟩, List.getElem?_set_self hlt, hp⟩
    · obtain ⟨e, he, hl⟩ := h.mapped q hq
      exact ⟨e, (List.getElem?_set_ne hne.symm).trans he, hl⟩
  · obtain ⟨hmem, w', hw'⟩ := h.listed k' q hq
    refine ⟨hmem, ?_⟩
    obtain rfl | hne := eq_or_ne q p
    · obtain rfl : k' = k := congrArg Entry.key (Option.some.inj (hw'.symm.trans hw))
      exact ⟨v, List.getElem?_set_self hlt⟩
    · exact ⟨w', (List.getElem?_set_ne hne.symm).trans hw'⟩

theorem entries_set (h : c.Linked) (hp : c.hmap.lookup k = some p) :
    { c with objs := c.objs.set p ⟨k, v⟩ }.entries = assign k (fun _ => v) c.entries := by
  obtain ⟨-, w, hw⟩ := h.listed k p hp
  have hlt : p < c.objs.length := (List.getElem?_eq_some_iff.mp hw).1
  unfold entries assign
  rw [List.map_filterMap]
  refine List.filterMap_congr fun q hq => ?_
  obtain ⟨e, he, hl⟩ := h.mapped q hq
  obtain rfl | hne := eq_or_ne q p
  · obtain rfl : e = ⟨k, w⟩ := Option.some.inj (he.symm.trans hw)
    simp only [List.getElem?_set_self hlt, hw, Option.map_some, if_true]
  · have hk : e.key ≠ k := by
      intro hk
      rw [hk, hp] at hl
      exact hne (Option.some.inj hl).symm
    simp [List.getElem?_set_ne hne.symm, he, hk]

theorem linked_remove (h : c.Linked) (hpol : cfg.policy ≠ .cacheNone)
    (hp : c.hmap.lookup k = some p) : (c.removeElement cfg p ⟨k, v⟩).Linked := by
  obtain ⟨a, b, hl, ha, hb, hab⟩ := h.split hp
  have herase : (c.removeElement cfg p ⟨k, v⟩).ll = a ++ b := by
    rw [removeElement, if_neg hpol, erase_split hl ha]
  refine ⟨?_, fun q hq => ?_, fun k' q hq => ?_⟩
  · rw [herase]
    exact (List.nodup_middle.mp (hl ▸ h.nodup)).of_cons
  · rw [herase] at hq
    have hq' : q ∈ c.ll := by
      rw [hl]
      simp only [List.mem_append, List.mem_cons] at hq ⊢
      tauto
    obtain ⟨e, he, hlook⟩ := h.mapped q hq'
    exact ⟨e, he, (AList.lookup_erase_ne (hab q hq e he)).trans hlook⟩
  · have hne : k' ≠ k := by
      rintro rfl
      simp [removeElement] at hq
    replace hq : c.hmap.lookup k' = some q := (AList.lookup_erase_ne hne).symm.trans hq
    obtain ⟨hmem, w, hw⟩ := h.listed k' q hq
    refine ⟨?_, w, hw⟩
    have hqp : q ≠ p := by
      rintro rfl
      obtain ⟨-, w', hw'⟩ := h.listed k q hp
      exact hne (congrArg Entry.key (Option.some.inj (hw.symm.trans hw')))
    rw [herase]
    rw [hl] at hmem
    simp only [List.mem_append, List.mem_cons] at hmem ⊢
    tauto

theorem entries_remove (h : c.Linked) (hpol : cfg.policy ≠ .cacheNone)
    (hp : c.hmap.lookup k = some p) :
    (c.removeElement cfg p ⟨k, v⟩).entries = without k c.entries := by
  obtain ⟨hmem, w, hw⟩ := h.listed k p hp
  obtain ⟨a, b, hl, ha, -, hab⟩ := h.split hp
  have hA := fun q hq => hab q (List.mem_append_left b hq)
  have hB := fun q hq => hab q (List.mem_append_right a hq)
  rw [without, entries_split hl hw, List.filter_append, List.filter_cons_of_neg (by simp),
    filter_key_ne hA, filter_key_ne hB]
  simp only [entries, removeElement, if_neg hpol, erase_split hl ha, List.filterMap_append]

theorem linked_push (h : c.Linked) (hpol : cfg.policy ≠ .cacheNone)
    (hk : c.hmap.lookup k = none) : (c.push cfg k v).Linked := by
  have hold : ∀ q ∈ c.ll, q < c.objs.length := by
    intro q hq
    obtain ⟨e, he, -⟩ := h.mapped q hq
    exact (List.getElem?_eq_some_iff.mp he).1
  have hnew : (c.objs ++ [⟨k, v⟩])[c.objs.length]? = some ⟨k, v⟩ := by simp
  refine ⟨?_, fun q hq => ?_, fun k' q hq => ?_⟩
  · rw [push, if_neg hpol, List.nodup_cons]
    exact ⟨fun hmem => lt_irrefl _ (hold _ hmem), h.nodup⟩
  · rw [push, if_neg hpol, List.mem_cons] at hq
    obtain rfl | hq := hq
    · exact ⟨⟨k, v⟩, hnew, AList.lookup_insert _⟩
    · obtain ⟨e, he, hl⟩ := h.mapped q hq
      have hne : e.key ≠ k := by
        intro hek
        rw [hek, hk] at hl
        cases hl
      exact ⟨e, (List.getElem?_append_left (hold q hq)).trans he,
        (AList.lookup_insert_ne hne).trans hl⟩
  · rw [push, if_neg hpol]
    obtain rfl | hne := eq_or_ne k' k
    · obtain rfl : c.objs.length = q :=
        Option.some.inj ((AList.lookup_insert c.hmap).symm.trans hq)
      exact ⟨List.mem_cons_self, v, hnew⟩
    · replace hq : c.hmap.lookup k' = some q := (AList.lookup_insert_ne hne).symm.trans hq
      obtain ⟨hmem, w, hw⟩ := h.listed k' q hq
      exact ⟨List.mem_cons_of_mem _ hmem, w, (List.getElem?_append_left (hold q hmem)).trans hw⟩

theorem entries_push (h : c.Linked) (hpol : cfg.policy ≠ .cacheNone) :
    (c.push cfg k v).entries = ⟨k, v⟩ :: c.entries := by
  rw [entries, push, if_neg hpol, List.filterMap_cons_some (b := ⟨k, v⟩) (by simp), entries]
  congr 1
  refine List.filterMap_congr fun q hq => ?_
  obtain ⟨e, he, -⟩ := h.mapped q hq
  exact List.getElem?_append_left (List.getElem?_eq_some_iff.mp he).1

theorem getLast_deref (h : c.Linked) (hne : c.entries ≠ []) :
    ∃ p e, c.ll.getLast?.bind c.deref = some (p, e) ∧ c.hmap.lookup e.key = some p ∧
      without e.key c.entries = c.entries.dropLast := by
  have hll : c.ll ≠ [] := by
    intro hnil
    exact hne (by rw [entries, hnil, List.filterMap_nil])
  obtain ⟨e, he, hl⟩ := h.mapped _ (List.getLast_mem hll)
  have hsplit : c.ll = c.ll.dropLast ++ [c.ll.getLast hll] :=
    (List.dropLast_concat_getLast hll).symm
  refine ⟨c.ll.getLast hll, e, ?_, hl, ?_⟩
  · rw [List.getLast?_eq_some_getLast hll, Option.bind_some, deref, he, Option.map_some]
  · have hnd := entries_nodup h
    rw [entries_split hsplit he, List.filterMap_nil] at hnd ⊢
    rw [List.dropLast_concat, without, List.filter_append, List.filter_cons_of_neg (by simp),
      List.filter_nil, List.append_nil, List.filter_eq_self]
    intro d hd
    rw [List.map_append, List.nodup_append] at hnd
    exact decide_eq_true (hnd.2.2 _ (List.mem_map_of_mem hd) _ (by simp))

section Bounded

variable {policy : EvictionPolicy}

theorem evict_done (h : c.Linked) (hn : c.entries.length ≤ n) :
    c.evict (bounded policy n) = .ok (false, c) := by
  by_cases hnil : c.entries = []
  · have h0 : c.length = 0 := by rw [length_eq h, hnil, List.length_nil]
    simp [evict, bounded, h0]
  · obtain ⟨p, e, hlast, -⟩ := getLast_deref h hnil
    have hlt : ¬ n < c.length := by rw [length_eq h]; omega
    simp [evict, bounded, hlast, hlt]

theorem evict_more (h : c.Linked) (hpol : policy ≠ .cacheNone) (hn : n < c.entries.length) :
    ∃ c', c.evict (bounded policy n) = .ok (true, c') ∧ c'.Linked ∧
      c'.entries = c.entries.dropLast := by
  have hnil : c.entries ≠ [] := by
    intro hnil
    rw [hnil] at hn
    simp at hn
  obtain ⟨p, e, hlast, hl, hdrop⟩ := getLast_deref h hnil
  have hlt : n < c.length := by rw [length_eq h]; exact hn
  refine ⟨c.removeElement (bounded policy n) p e, ?_, linked_remove h hpol hl, ?_⟩
  · simp [evict, bounded, hlast, hlt, hpol, Nat.ne_of_gt (Nat.zero_lt_of_lt hlt)]
  · rw [← hdrop]
    exact entries_remove h hpol hl

/-- The loop ends, and the entries at the back are gone. -/
theorem evictLoop_spec (hpol : policy ≠ .cacheNone) :
    ∀ {fuel : ℕ} {c : Cache K V}, c.Linked → c.entries.length < fuel →
      ∃ c', c.evictLoop (bounded policy n) fuel = .ok c' ∧ c'.Linked ∧
        c'.entries = c.entries.take n := by
  intro fuel
  induction fuel with
  | zero => intro c h hf; omega
  | succ fuel ih =>
    intro c h hf
    by_cases hn : c.entries.length ≤ n
    · refine ⟨c, ?_, h, (List.take_of_length_le hn).symm⟩
      simp [evictLoop, evict_done h hn, Except.bind, bind]
    · obtain ⟨c₁, he, h₁, hd⟩ := evict_more h hpol (not_le.mp hn)
      have hlen : c₁.entries.length < fuel := by
        rw [hd, List.length_dropLast]
        omega
      obtain ⟨c', hrun, h', ht⟩ := ih h₁ hlen
      refine ⟨c', ?_, h', ?_⟩
      · simp [evictLoop, he, Except.bind, bind, hrun]
      · rw [ht, hd, List.dropLast_eq_take, List.take_take, Nat.min_eq_left (by omega)]

theorem add_known (cfg : Config K V) (v : V) (h : c.Linked)
    (hk : k ∈ c.entries.map Entry.key) :
    ∃ c', c.add cfg k v = .ok c' ∧ c'.Linked ∧
      c'.entries = assign k (fun _ => v) (front cfg.policy k c.entries) := by
  obtain ⟨e, he, rfl⟩ := List.mem_map.mp hk
  obtain ⟨p, hp⟩ := (mem_entries h).mp he
  have hl : c.hmap.lookup e.key = some p := ((get_eq_some h).mp hp).1
  have hl' : (c.access cfg p).hmap.lookup e.key = some p := by
    unfold access
    split
    · exact hl
    · exact hl
  refine ⟨_, by rw [add, hp], linked_set (linked_access h) hl', ?_⟩
  rw [entries_set (linked_access h) hl', entries_access h hl]

theorem get_none_iff (h : c.Linked) : c.get k = none ↔ k ∉ c.entries.map Entry.key := by
  constructor
  · intro hg hk
    obtain ⟨e, he, rfl⟩ := List.mem_map.mp hk
    obtain ⟨p, hp⟩ := (mem_entries h).mp he
    rw [hg] at hp
    cases hp
  · intro hk
    cases hg : c.get k with
    | none => rfl
    | some q =>
      obtain ⟨p, e⟩ := q
      obtain ⟨-, -, rfl⟩ := (get_eq_some h).mp hg
      exact absurd (List.mem_map_of_mem ((mem_entries h).mpr ⟨p, hg⟩)) hk

theorem add_new (h : c.Linked) (hpol : policy ≠ .cacheNone)
    (hk : k ∉ c.entries.map Entry.key) :
    ∃ c', c.add (bounded policy n) k v = .ok c' ∧ c'.Linked ∧
      c'.entries = (⟨k, v⟩ :: c.entries).take n := by
  have hg := (get_none_iff h).mpr hk
  have hpush : (c.push (bounded policy n) k v).Linked :=
    linked_push h hpol ((get_eq_none h).mp hg)
  have hfuel : (c.push (bounded policy n) k v).entries.length
      < (c.push (bounded policy n) k v).length + 1 := by
    rw [length_eq hpush]
    exact Nat.lt_succ_self _
  obtain ⟨c', hrun, h', he⟩ := evictLoop_spec (n := n) hpol hpush hfuel
  refine ⟨c', by rw [add, hg]; exact hrun, h', ?_⟩
  rw [he, entries_push h hpol]

end Bounded

theorem front_of_notMem {policy : EvictionPolicy} {l : List (Entry K V)}
    (hk : k ∉ l.map Entry.key) : front policy k l = l := by
  have hne : ∀ e ∈ l, e.key ≠ k := fun e he hek => hk (hek ▸ List.mem_map_of_mem he)
  unfold front
  split
  · rw [List.filter_eq_nil_iff.mpr (by simpa using hne),
      List.filter_eq_self.mpr (by simpa using hne), List.nil_append]
  · rfl

theorem Get_spec (cfg : Config K V) (k : K) (h : c.Linked) :
    (c.Get cfg k).2.Linked ∧ (c.Get cfg k).2.entries = front cfg.policy k c.entries := by
  unfold Get
  cases hg : c.get k with
  | none => exact ⟨h, (front_of_notMem ((get_none_iff h).mp hg)).symm⟩
  | some q =>
    obtain ⟨p, e⟩ := q
    exact ⟨linked_access h, entries_access h ((get_eq_some h).mp hg).1⟩

theorem del_spec (k : K) (h : c.Linked) (hpol : cfg.policy ≠ .cacheNone) :
    (c.del cfg k).Linked ∧ (c.del cfg k).entries = without k c.entries := by
  unfold del
  cases hg : c.get k with
  | none =>
    refine ⟨h, (List.filter_eq_self.mpr fun e he => ?_).symm⟩
    have hk := (get_none_iff h).mp hg
    exact decide_eq_true fun hek => hk (hek ▸ List.mem_map_of_mem he)
  | some q =>
    obtain ⟨p, e⟩ := q
    obtain ⟨hl, -, rfl⟩ := (get_eq_some h).mp hg
    exact ⟨linked_remove h hpol hl, entries_remove h hpol hl⟩

theorem clear_spec (hpol : cfg.policy ≠ .cacheNone) :
    ∀ (keys : List K) {c : Cache K V}, c.Linked → (c.clear cfg keys).Linked ∧
      (c.clear cfg keys).entries = c.entries.filter (·.key ∉ keys) := by
  intro keys
  induction keys with
  | nil => intro c h; simp [clear, h]
  | cons k keys ih =>
    intro c h
    obtain ⟨h₁, he₁⟩ := del_spec k h hpol
    obtain ⟨h', he'⟩ := ih h₁
    refine ⟨h', ?_⟩
    rw [clear, List.foldl_cons, ← clear, he', he₁, without, List.filter_filter]
    refine List.filter_congr fun e _ => ?_
    simp [Bool.and_comm]

theorem clear_all (h : c.Linked) (hpol : cfg.policy ≠ .cacheNone) (walk : Walk K) :
    (c.clear cfg (walk.order c.hmap.keys)).entries = [] := by
  rw [(clear_spec hpol _ h).2, List.filter_eq_nil_iff]
  intro e he
  obtain ⟨p, hp⟩ := (mem_entries h).mp he
  have hmem : e.key ∈ c.hmap := by
    rw [← AList.lookup_isSome, ((get_eq_some h).mp hp).1]
    rfl
  simpa [(walk.perm _).mem_iff] using AList.mem_keys.mp hmem

end Cache

end Ancestor.UnorderedCache
