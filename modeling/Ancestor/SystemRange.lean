import Ancestor.RaftLog

/-!
The system ranges of nodes (`pd/region.go`, `client/admin.go`) and the caches that locate a
key in a range (`util/cache/range_cache.go`, `client/range_cache.go`).

The range of a node goes from the decimal numeral of its ID up to that of the next ID, without
padding. Bytewise, the numerals of `1` and `2` enclose that of `10`, and the one of `9` comes
after the one of `10`.
-/

namespace Ancestor

open Bytes

/-! ### The ranges of nodes -/

def nodeKey (id : NodeID) : Key := newKey [systemPrefix, fmtInt 0 id.toInt64]

/-- The descriptor `addSystemRangeDescriptor` makes; `id + 1` wraps as an `int32` does. -/
def systemRangeDescriptor (id : NodeID) : RangeDescriptor :=
  { rangeID := id.toInt64
    startKey := nodeKey id
    endKey := nodeKey (id + 1)
    replicas := [⟨id, id⟩, ⟨id, id⟩, ⟨id, id⟩] }

/-! ### The cache of the placement driver -/

structure RangeDescriptorCache where
  minReplica : Int
  unstable : RangeID → Option RangeDescriptor := fun _ => none
  ranges : RangeID → Option RangeDescriptor := fun _ => none
  cache : OrdMap Key RangeDescriptor := .empty

namespace RangeDescriptorCache

def addOne (r : RangeDescriptorCache) (rd : RangeDescriptor) : RangeDescriptorCache :=
  let key := rd.startKey
  let r :=
    if (r.cache.get key).isSome then
      { r with
        cache := r.cache.clear key
        ranges := Function.update r.ranges rd.rangeID none
        unstable := Function.update r.unstable rd.rangeID none }
    else r
  let r := { r with
    cache := r.cache.put key rd
    ranges := Function.update r.ranges rd.rangeID (some rd) }
  if (rd.replicas.length : Int) < r.minReplica then
    { r with unstable := Function.update r.unstable rd.rangeID (some rd) }
  else r

def add (r : RangeDescriptorCache) (rds : List RangeDescriptor) : RangeDescriptorCache :=
  rds.foldl addOne r

/-- None stands for `ErrNotFound`. -/
def lookup (r : RangeDescriptorCache) (key : Key) : Option RangeDescriptor :=
  match r.cache.floor key with
  | none => none
  | some (_, rd) => if ¬ (key ≥ rd.startKey ∧ key < rd.endKey) then none else some rd

lemma addOne_get (r : RangeDescriptorCache) (rd : RangeDescriptor) (k : Key) :
    (r.addOne rd).cache.get k = if k = rd.startKey then some rd else r.cache.get k := by
  unfold addOne
  by_cases hin : (r.cache.get rd.startKey).isSome <;>
    by_cases hsmall : (rd.replicas.length : Int) < r.minReplica <;>
    by_cases hk : k = rd.startKey <;> simp [hin, hsmall, hk]

/-- The cache holds, under each start key, what was added under it last. -/
lemma add_get (r : RangeDescriptorCache) {rds : List RangeDescriptor}
    (hinj : ∀ rd ∈ rds, ∀ rd' ∈ rds, rd.startKey = rd'.startKey → rd = rd')
    {rd : RangeDescriptor} (hrd : rd ∈ rds ∨ r.cache.get rd.startKey = some rd ∧
      ∀ rd' ∈ rds, rd'.startKey = rd.startKey → rd' = rd) :
    (r.add rds).cache.get rd.startKey = some rd := by
  induction rds generalizing r with
  | nil =>
    rcases hrd with h | h
    · cases h
    · exact h.1
  | cons rd' rds ih =>
    refine ih (r.addOne rd') (fun a ha b hb => hinj a (.tail _ ha) b (.tail _ hb)) ?_
    have hsame : ∀ x ∈ rd' :: rds, x.startKey = rd.startKey → x = rd := by
      rcases hrd with h | h
      · exact fun x hx hk => hinj x hx rd h hk
      · exact h.2
    by_cases hmem : rd ∈ rds
    · exact .inl hmem
    · refine .inr ⟨?_, fun x hx => hsame x (.tail _ hx)⟩
      rw [addOne_get]
      by_cases hk : rd.startKey = rd'.startKey
      · rw [if_pos hk, hsame rd' List.mem_cons_self hk.symm]
      · rw [if_neg hk]
        rcases hrd with h | h
        · rcases List.mem_cons.mp h with rfl | h
          · exact absurd rfl hk
          · exact absurd h hmem
        · exact h.1

end RangeDescriptorCache

/-- `handleBootstrap` of a new node, once the descriptor is saved. -/
def addSystemRangeDescriptor (r : RangeDescriptorCache) (id : NodeID) : RangeDescriptorCache :=
  r.add [systemRangeDescriptor id]

/-! ### The cache of the client -/

namespace Client

/-- `rangeCompareKey.Compare`: an empty key stands for the end of the key space. -/
def rangeCompareKey (a b : Key) : Ordering :=
  if b.length = 0 then .lt
  else if a.length = 0 then .gt
  else if a < b then .lt
  else if a = b then .eq
  else .gt

section Compare

variable {a b : Key} (ha : a ≠ []) (hb : b ≠ [])
include ha hb

lemma rangeCompareKey_lt_iff : rangeCompareKey a b = .lt ↔ a < b := by
  rw [rangeCompareKey, if_neg (by simpa using hb), if_neg (by simpa using ha)]
  by_cases hlt : a < b
  · simp [hlt]
  · by_cases heq : a = b <;> simp [hlt, heq]

lemma rangeCompareKey_gt_iff : rangeCompareKey a b = .gt ↔ b < a := by
  rw [rangeCompareKey, if_neg (by simpa using hb), if_neg (by simpa using ha)]
  rcases lt_trichotomy a b with hlt | rfl | hgt
  · simp [hlt, hlt.le]
  · simp
  · simp [hgt, not_lt.mpr hgt.le, hgt.ne']

end Compare

inductive CacheError
  | notFound
  /-- `NewKey` panics on a span whose start is not below its end. -/
  | panic (start stop : Key)
  deriving DecidableEq, Repr

/-- What is taken of the interval tree: it holds what was inserted, in an order of its own. -/
structure IntervalTree where
  insert : RangeDescriptor → List RangeDescriptor → List RangeDescriptor
  insert_perm : ∀ rd l, (insert rd l).Perm (rd :: l)

namespace IntervalTree

lemma mem_insert (T : IntervalTree) {rd x : RangeDescriptor} {l : List RangeDescriptor} :
    x ∈ T.insert rd l ↔ x = rd ∨ x ∈ l := by
  rw [(T.insert_perm rd l).mem_iff, List.mem_cons]

/-- By their starts, and those with one start in the order in which they were added. -/
def byStart : IntervalTree where
  insert := List.orderedInsert fun rd e => rangeCompareKey rd.startKey e.startKey = .lt
  insert_perm := List.perm_orderedInsert _

end IntervalTree

/-- The intervals of the tree in its own order. -/
structure RangeDescriptorCache where
  tree : List RangeDescriptor := []

namespace RangeDescriptorCache

def newKey (start stop : Key) : Except CacheError (Key × Key) :=
  if rangeCompareKey start stop ≠ .lt then .error (.panic start stop) else .ok (start, stop)

def add (T : IntervalTree) (rdc : RangeDescriptorCache) (rd : RangeDescriptor) :
    Except CacheError RangeDescriptorCache := do
  let _ ← newKey rd.startKey rd.endKey
  return ⟨T.insert rd rdc.tree⟩

/-- `IntervalKey.Overlap`, of the span from `start` to `stop` with that of a range. -/
def overlap (start stop : Key) (rd : RangeDescriptor) : Bool :=
  rangeCompareKey stop rd.startKey = .gt && rangeCompareKey start rd.endKey = .lt

def getOverlaps (rdc : RangeDescriptorCache) (start stop : Key) :
    Except CacheError (List RangeDescriptor) := do
  let (start, stop) ← newKey start stop
  return rdc.tree.filter (overlap start stop)

def lookup (rdc : RangeDescriptorCache) (key : Key) : Except CacheError RangeDescriptor := do
  match ← rdc.getOverlaps key (bytesNext key) with
  | [] => throw .notFound
  | rd :: _ => return rd

lemma newKey_of_lt {start stop : Key} (hs : start ≠ []) (h : start < stop) :
    newKey start stop = .ok (start, stop) := by
  have hstop : stop ≠ [] := fun hnil => List.not_lt_nil start (hnil ▸ h)
  rw [newKey, if_neg (not_not.mpr ((rangeCompareKey_lt_iff hs hstop).mpr h))]

lemma add_of_lt (T : IntervalTree) (rdc : RangeDescriptorCache) {rd : RangeDescriptor}
    (hs : rd.startKey ≠ []) (h : rd.startKey < rd.endKey) :
    rdc.add T rd = .ok ⟨T.insert rd rdc.tree⟩ := by
  rw [add, newKey_of_lt hs h]
  rfl

/-- Ranges with a nonempty span are all kept. -/
lemma foldlM_add (T : IntervalTree) (rdc : RangeDescriptorCache) {rds : List RangeDescriptor}
    (h : ∀ rd ∈ rds, rd.startKey ≠ [] ∧ rd.startKey < rd.endKey) :
    ∃ rdc', rds.foldlM (add T) rdc = .ok rdc' ∧
      ∀ x, x ∈ rdc'.tree ↔ x ∈ rds ∨ x ∈ rdc.tree := by
  induction rds generalizing rdc with
  | nil => exact ⟨rdc, rfl, by simp⟩
  | cons rd rds ih =>
    obtain ⟨hs, hlt⟩ := h rd List.mem_cons_self
    obtain ⟨rdc', hrun, hmem⟩ := ih ⟨T.insert rd rdc.tree⟩ fun x hx => h x (.tail _ hx)
    refine ⟨rdc', ?_, fun x => ?_⟩
    · rw [List.foldlM_cons, add_of_lt T rdc hs hlt]
      exact hrun
    · rw [hmem, T.mem_insert, List.mem_cons]
      tauto

lemma overlap_iff {key : Key} {rd : RangeDescriptor} (hk : key ≠ []) (hs : rd.startKey ≠ [])
    (he : rd.endKey ≠ []) :
    overlap key (bytesNext key) rd = true ↔ rd.startKey ≤ key ∧ key < rd.endKey := by
  have hnext : bytesNext key ≠ [] := by simp [bytesNext]
  rw [overlap, Bool.and_eq_true, decide_eq_true_iff, decide_eq_true_iff,
    rangeCompareKey_gt_iff hnext hs, rangeCompareKey_lt_iff hk he, ← le_iff_lt_bytesNext]

/-- A key that lies in one range of the cache only is found there. -/
lemma lookup_unique {rdc : RangeDescriptorCache} {key : Key} {rd : RangeDescriptor}
    (hk : key ≠ []) (hmem : rd ∈ rdc.tree)
    (hspan : ∀ x ∈ rdc.tree, x.startKey ≠ [] ∧ x.endKey ≠ [])
    (hin : rd.startKey ≤ key ∧ key < rd.endKey)
    (honly : ∀ x ∈ rdc.tree, x.startKey ≤ key → key < x.endKey → x = rd) :
    rdc.lookup key = .ok rd := by
  have hfound : rd ∈ rdc.tree.filter (overlap key (bytesNext key)) := by
    rw [List.mem_filter, overlap_iff hk (hspan rd hmem).1 (hspan rd hmem).2]
    exact ⟨hmem, hin⟩
  have hall : ∀ x ∈ rdc.tree.filter (overlap key (bytesNext key)), x = rd := by
    intro x hx
    obtain ⟨hx, ho⟩ := List.mem_filter.mp hx
    rw [overlap_iff hk (hspan x hx).1 (hspan x hx).2] at ho
    exact honly x hx ho.1 ho.2
  rw [lookup, getOverlaps, newKey_of_lt hk (lt_bytesNext key)]
  simp only [bind, Except.bind, pure, Except.pure]
  generalize rdc.tree.filter (overlap key (bytesNext key)) = l at *
  cases l with
  | nil => cases hfound
  | cons x l => simp [hall x List.mem_cons_self]

end RangeDescriptorCache

end Client

/-! ### The order of the node keys -/

section Numerals

variable {m n : NodeID}

/-- The number of a positive node ID. -/
def NodeID.num (n : NodeID) : ℕ := n.toInt.toNat

/-- The greatest node ID: the one after it is negative. -/
def maxNodeID : NodeID := 2147483647

lemma nodeKey_of_pos (h : 0 < n) : nodeKey n = 0x00 :: decimal n.num := by
  have hneg : ¬ n.toInt64 < 0 := by
    rw [Int64.not_lt, Int64.le_iff_toInt_le, Int32.toInt_toInt64]
    exact (Int32.lt_iff_toInt_lt.mp h).le
  rw [nodeKey, fmtInt, if_neg hneg, Int32.toInt_toInt64]
  simp [newKey, systemPrefix, decimalPad, NodeID.num]

lemma num_pos (h : 0 < n) : 0 < n.num := by
  have hpos : 0 < n.toInt := Int32.lt_iff_toInt_lt.mp h
  unfold NodeID.num
  omega

lemma num_inj (hm : 0 < m) (hn : 0 < n) (h : m.num = n.num) : m = n := by
  have hm' : 0 < m.toInt := Int32.lt_iff_toInt_lt.mp hm
  have hn' : 0 < n.toInt := Int32.lt_iff_toInt_lt.mp hn
  unfold NodeID.num at h
  exact Int32.toInt_inj.mp (by omega)

lemma succ_of_ne_max (h : 0 < n) (hmax : n ≠ maxNodeID) :
    0 < n + 1 ∧ (n + 1).num = n.num + 1 := by
  have hpos : 0 < n.toInt := Int32.lt_iff_toInt_lt.mp h
  have hlt : n.toInt < 2147483647 := by
    have hle := Int32.toInt_lt n
    have hne : n.toInt ≠ 2147483647 := fun he => hmax (Int32.toInt_inj.mp he)
    omega
  have hsum : (n + 1).toInt = n.toInt + 1 := by
    rw [Int32.toInt_add, show (1 : Int32).toInt = 1 from rfl]
    exact Int.bmod_eq_of_le (by omega) (by omega)
  refine ⟨Int32.lt_iff_toInt_lt.mpr ?_, ?_⟩
  · rw [hsum]
    show (0 : Int) < _
    omega
  · unfold NodeID.num
    omega

lemma startKey_lt_endKey_of (hm : 0 < m) (hn : 0 < n) (hmax : n ≠ maxNodeID) :
    (systemRangeDescriptor m).startKey < (systemRangeDescriptor n).endKey ↔
      decimal m.num < decimal (n.num + 1) := by
  obtain ⟨hpos, hnum⟩ := succ_of_ne_max hn hmax
  rw [systemRangeDescriptor, systemRangeDescriptor, nodeKey_of_pos hm, nodeKey_of_pos hpos, hnum]
  simp

/-- **The range of a node is empty** for the greatest ID, and for those whose numeral is all
nines. -/
theorem startKey_lt_endKey_iff (h : 0 < n) :
    (systemRangeDescriptor n).startKey < (systemRangeDescriptor n).endKey ↔
      n ≠ maxNodeID ∧ ∀ k, n.num + 1 ≠ 10 ^ k := by
  by_cases hmax : n = maxNodeID
  · subst hmax
    simp only [ne_eq, not_true_eq_false, false_and, iff_false]
    decide
  · rw [startKey_lt_endKey_of h h hmax, decimal_lt_succ_iff (num_pos h)]
    exact (and_iff_right hmax).symm

/-- The keys of a node's range. -/
def systemSpan (n : NodeID) : Set Key :=
  Set.Ico (systemRangeDescriptor n).startKey (systemRangeDescriptor n).endKey

/-- **Two nonempty ranges meet** exactly when the digits of one ID start those of the other, or
of the number after the other. -/
theorem disjoint_systemSpan_iff (hm : 0 < m) (hn : 0 < n) (hne : m ≠ n)
    (hm' : m ≠ maxNodeID ∧ ∀ k, m.num + 1 ≠ 10 ^ k)
    (hn' : n ≠ maxNodeID ∧ ∀ k, n.num + 1 ≠ 10 ^ k) :
    Disjoint (systemSpan m) (systemSpan n) ↔ ¬ Leads m.num n.num ∧ ¬ Leads n.num m.num := by
  have hnum : m.num ≠ n.num := fun h => hne (num_inj hm hn h)
  have hspan := (startKey_lt_endKey_iff hm).mpr hm'
  have hspan' := (startKey_lt_endKey_iff hn).mpr hn'
  rw [← not_or, ← overlap_iff_leads (num_pos hm) (num_pos hn) hm'.2 hn'.2 hnum,
    ← startKey_lt_endKey_of hm hn hn'.1, ← startKey_lt_endKey_of hn hm hm'.1, not_and_or,
    not_lt, not_lt, systemSpan, systemSpan, Set.Ico_disjoint_Ico]
  rw [min_le_iff, le_max_iff, le_max_iff]
  constructor
  · rintro ((h | h) | (h | h))
    · exact absurd hspan (not_lt.mpr h)
    · exact .inr h
    · exact .inl h
    · exact absurd hspan' (not_lt.mpr h)
  · rintro (h | h)
    · exact .inr (.inl h)
    · exact .inl (.inr h)

end Numerals

/-! ### Locating a node -/

/-- What the system ranges of the nodes are for: none is empty, no two share a key, and the key
of a node is located in its own range by both caches, whatever registrations came before. -/
structure Separate (S : Set NodeID) : Prop where
  nonempty : ∀ n ∈ S, (systemRangeDescriptor n).startKey < (systemRangeDescriptor n).endKey
  disjoint : ∀ m ∈ S, ∀ n ∈ S, m ≠ n → Disjoint (systemSpan m) (systemSpan n)
  lookup : ∀ (minReplica : Int) (l : List NodeID), (∀ n ∈ l, n ∈ S) → ∀ n ∈ l,
    (l.foldl addSystemRangeDescriptor ⟨minReplica, fun _ => none, fun _ => none, .empty⟩).lookup
      (nodeKey n) = some (systemRangeDescriptor n)
  clientLookup : ∀ (T : Client.IntervalTree) (l : List NodeID), (∀ n ∈ l, n ∈ S) → ∃ rdc,
    (l.map systemRangeDescriptor).foldlM (Client.RangeDescriptorCache.add T) {} = .ok rdc ∧
      ∀ n ∈ l, rdc.lookup (nodeKey n) = .ok (systemRangeDescriptor n)

/-- No ID is the greatest one or all nines, and the digits of none start those of another, or
of the number after another. -/
def Apart (S : Set NodeID) : Prop :=
  (∀ n ∈ S, n ≠ maxNodeID ∧ ∀ k, n.num + 1 ≠ 10 ^ k) ∧
    ∀ m ∈ S, ∀ n ∈ S, m ≠ n → ¬ Leads m.num n.num

section Located

variable {S : Set NodeID}

lemma Apart.spans (h : Apart S) (hpos : ∀ n ∈ S, 0 < n) :
    (∀ n ∈ S, (systemRangeDescriptor n).startKey < (systemRangeDescriptor n).endKey) ∧
      ∀ m ∈ S, ∀ n ∈ S, m ≠ n → Disjoint (systemSpan m) (systemSpan n) := by
  refine ⟨fun n hn => (startKey_lt_endKey_iff (hpos n hn)).mpr (h.1 n hn),
    fun m hm n hn hne => ?_⟩
  rw [disjoint_systemSpan_iff (hpos m hm) (hpos n hn) hne (h.1 m hm) (h.1 n hn)]
  exact ⟨h.2 m hm n hn hne, h.2 n hn m hm hne.symm⟩

lemma nodeKey_ne_nil (n : NodeID) : nodeKey n ≠ [] := by simp [nodeKey, newKey, systemPrefix]

/-- A key in the spans of two nodes makes them one. -/
lemma eq_of_mem_spans (hdisj : ∀ m ∈ S, ∀ n ∈ S, m ≠ n → Disjoint (systemSpan m) (systemSpan n))
    {m n : NodeID} (hm : m ∈ S) (hn : n ∈ S) {k : Key} (hk : k ∈ systemSpan m)
    (hk' : k ∈ systemSpan n) : m = n := by
  by_contra hne
  exact Set.disjoint_left.mp (hdisj m hm n hn hne) hk hk'

lemma foldl_addSystemRangeDescriptor (r : RangeDescriptorCache) (l : List NodeID) :
    l.foldl addSystemRangeDescriptor r = r.add (l.map systemRangeDescriptor) := by
  rw [RangeDescriptorCache.add, List.foldl_map]
  rfl

variable (hlt : ∀ n ∈ S, (systemRangeDescriptor n).startKey < (systemRangeDescriptor n).endKey)
  (hdisj : ∀ m ∈ S, ∀ n ∈ S, m ≠ n → Disjoint (systemSpan m) (systemSpan n))
  {l : List NodeID} (hl : ∀ n ∈ l, n ∈ S)
include hlt hdisj hl

/-- The floor of a start key is the entry under it, and no other range has that start key. -/
lemma lookup_located (r : RangeDescriptorCache) {n : NodeID} (hn : n ∈ l) :
    (l.foldl addSystemRangeDescriptor r).lookup (nodeKey n) = some (systemRangeDescriptor n) := by
  have hown : ∀ n ∈ l, nodeKey n ∈ systemSpan n := fun n hn => ⟨le_rfl, hlt n (hl n hn)⟩
  have hget : (l.foldl addSystemRangeDescriptor r).cache.get (nodeKey n) =
      some (systemRangeDescriptor n) := by
    rw [foldl_addSystemRangeDescriptor]
    refine RangeDescriptorCache.add_get r (fun rd hrd rd' hrd' hk => ?_)
      (.inl (List.mem_map_of_mem hn))
    obtain ⟨a, ha, rfl⟩ := List.mem_map.mp hrd
    obtain ⟨b, hb, rfl⟩ := List.mem_map.mp hrd'
    change nodeKey a = nodeKey b at hk
    rw [eq_of_mem_spans hdisj (hl a ha) (hl b hb) (hown a ha) (hk ▸ hown b hb)]
  rw [RangeDescriptorCache.lookup, OrdMap.floor_of_get _ hget]
  exact if_neg (not_not.mpr (hown n hn))

/-- The key of a node overlaps its own range only, so the order of the tree is of no account. -/
lemma clientLookup_located (T : Client.IntervalTree) : ∃ rdc,
    (l.map systemRangeDescriptor).foldlM (Client.RangeDescriptorCache.add T) {} = .ok rdc ∧
      ∀ n ∈ l, rdc.lookup (nodeKey n) = .ok (systemRangeDescriptor n) := by
  have hown : ∀ n ∈ l, nodeKey n ∈ systemSpan n := fun n hn => ⟨le_rfl, hlt n (hl n hn)⟩
  have hspan : ∀ rd ∈ l.map systemRangeDescriptor,
      rd.startKey ≠ [] ∧ rd.startKey < rd.endKey := by
    intro rd hrd
    obtain ⟨n, hn, rfl⟩ := List.mem_map.mp hrd
    exact ⟨nodeKey_ne_nil n, hlt n (hl n hn)⟩
  obtain ⟨rdc, hrun, hmem⟩ := Client.RangeDescriptorCache.foldlM_add T {} hspan
  have hin : ∀ rd ∈ rdc.tree, ∃ n ∈ l, systemRangeDescriptor n = rd := fun rd hrd =>
    List.mem_map.mp (((hmem rd).mp hrd).resolve_right List.not_mem_nil)
  refine ⟨rdc, hrun, fun n hn => Client.RangeDescriptorCache.lookup_unique (nodeKey_ne_nil n)
    ((hmem _).mpr (.inl (List.mem_map_of_mem hn))) (fun rd hrd => ?_) (hown n hn)
    (fun rd hrd hle hlt' => ?_)⟩
  · obtain ⟨m, -, rfl⟩ := hin rd hrd
    exact ⟨nodeKey_ne_nil m, nodeKey_ne_nil (m + 1)⟩
  · obtain ⟨m, hm, rfl⟩ := hin rd hrd
    rw [eq_of_mem_spans hdisj (hl m hm) (hl n hn) ⟨hle, hlt'⟩ (hown n hn)]

end Located

/-- IDs of one digit, without `9`, are apart. -/
lemma apart_of_lt_nine {S : Set NodeID} (h : ∀ n ∈ S, 0 < n ∧ n < 9) : Apart S := by
  have hnum : ∀ n ∈ S, 0 < n.num ∧ n.num < 9 := by
    intro n hn
    have hlt : n.toInt < 9 := Int32.lt_iff_toInt_lt.mp (h n hn).2
    refine ⟨num_pos (h n hn).1, ?_⟩
    unfold NodeID.num
    omega
  have hten : ∀ {k : ℕ}, 0 < k → 10 ≤ 10 ^ k := fun hk => Nat.le_self_pow hk.ne' 10
  refine ⟨fun n hn => ⟨?_, fun k hk => ?_⟩, fun m hm n hn _ hlead => ?_⟩
  · rintro rfl
    exact absurd (h _ hn).2 (by decide)
  · have hbound := hnum n hn
    rcases Nat.eq_zero_or_pos k with rfl | hpos
    · rw [pow_zero] at hk
      omega
    · have hle := hten hpos
      omega
  · obtain ⟨k, hk, hlead⟩ := hlead
    have hle := hten hk
    have hbound := hnum m hm
    have hbound' := hnum n hn
    rw [Nat.div_eq_of_lt (by omega), Nat.div_eq_of_lt (by omega)] at hlead
    omega

/-- **The ranges of nodes are separate** exactly when no ID is the greatest one or all nines,
and the digits of none start those of another, or of the number after another. -/
theorem systemRanges_separate_iff (S : Set NodeID) (hpos : ∀ n ∈ S, 0 < n) :
    Separate S ↔ Apart S := by
  constructor
  · intro h
    have hspan : ∀ n ∈ S, n ≠ maxNodeID ∧ ∀ k, n.num + 1 ≠ 10 ^ k := fun n hn =>
      (startKey_lt_endKey_iff (hpos n hn)).mp (h.nonempty n hn)
    refine ⟨hspan, fun m hm n hn hne => ?_⟩
    have hd := h.disjoint m hm n hn hne
    rw [disjoint_systemSpan_iff (hpos m hm) (hpos n hn) hne (hspan m hm) (hspan n hn)] at hd
    exact hd.1
  · intro h
    obtain ⟨hlt, hdisj⟩ := h.spans hpos
    exact
      { nonempty := hlt
        disjoint := hdisj
        lookup := fun minReplica l hl n hn => lookup_located hlt hdisj hl ⟨minReplica, _, _, _⟩ hn
        clientLookup := fun T l hl => clientLookup_located hlt hdisj hl T }

/-- The first eight nodes are kept apart. -/
theorem systemRanges_separate_oneDigit :
    (∀ n ∈ ({n | 0 < n ∧ n < 9} : Set NodeID), 0 < n) ∧ Separate {n | 0 < n ∧ n < 9} :=
  ⟨fun _ hn => hn.1, (systemRanges_separate_iff {n | 0 < n ∧ n < 9} fun _ hn => hn.1).mpr
    (apart_of_lt_nine fun _ hn => hn)⟩

/-- The key of node `10` lies in the range of node `1` too, where the client looks it up; the
range of node `9` is empty, and adding it to the client's cache panics. -/
theorem systemRanges_collide :
    ¬ Separate {1, 10} ∧ ¬ Separate {9} ∧
      nodeKey 10 ∈ systemSpan 1 ∧ nodeKey 10 ∈ systemSpan 10 ∧
      (([1, 10].map systemRangeDescriptor).foldlM (Client.RangeDescriptorCache.add .byStart) {} >>=
        (·.lookup (nodeKey 10))) = .ok (systemRangeDescriptor 1) ∧
      (([9].map systemRangeDescriptor).foldlM (Client.RangeDescriptorCache.add .byStart) {} >>=
        (·.lookup (nodeKey 9))) = .error (.panic (nodeKey 9) (nodeKey 10)) := by
  have h1 : nodeKey 10 ∈ systemSpan 1 := ⟨by decide, by decide⟩
  have h10 : nodeKey 10 ∈ systemSpan 10 := ⟨by decide, by decide⟩
  refine ⟨fun h => ?_, fun h => ?_, h1, h10, by decide, by decide⟩
  · exact Set.disjoint_left.mp (h.disjoint 1 (by simp) 10 (by simp) (by decide)) h1 h10
  · exact absurd (h.nonempty 9 rfl) (by decide)

end Ancestor
