import Ancestor.Iteration
import Ancestor.RangeIndex

/-!
Iteration while ranges are split.

A split leaves the old id to the upper half and gives the lower half a new one. The client may
have the descriptor from before: a scan from a key of the upper half is answered, and the end of
the range is still right; for a key of the lower half the range is not found, and the client asks
the placement driver again. Ranges that are split further give the loop more turns, and there are
as many of them as there are splits.
-/

namespace Ancestor.Client

open Hoare
open RangeIndex (halves)

/-! ### Ranges -/

/-- The ranges of the placement driver split the keys of the users, without a gap and without an
overlap. -/
structure SplitsUsers (pd : Ancestor.RangeDescriptorCache) : Prop where
  keyed : ∀ s rd, pd.cache.get s = some rd → rd.startKey = s
  span : ∀ s rd, pd.cache.get s = some rd → userPrefix ≤ s →
    s < rd.endKey ∧ rd.endKey ≤ endPrefix ∧ rd.replicas ≠ []
  apart : ∀ s rd s' rd', pd.cache.get s = some rd → pd.cache.get s' = some rd' →
    userPrefix ≤ s → s < s' → rd.endKey ≤ s'
  covers : ∀ k, userPrefix ≤ k → k < endPrefix →
    ∃ s rd, pd.cache.get s = some rd ∧ userPrefix ≤ s ∧ s ≤ k ∧ k < rd.endKey
  ids : ∀ s rd, pd.cache.get s = some rd → userPrefix ≤ s → pd.ranges rd.rangeID = some rd

/-- A range of the users. -/
structure Current (pd : Ancestor.RangeDescriptorCache) (rd : RangeDescriptor) : Prop where
  entry : pd.cache.get rd.startKey = some rd
  user : userPrefix ≤ rd.startKey

/-- A split at `x.1` of the range that has this key; `x.2` is the new id. It needs a key inside
the range and an id that no range has. -/
def splitAt (pd : Ancestor.RangeDescriptorCache) (x : Key × RangeID) :
    Ancestor.RangeDescriptorCache :=
  if userPrefix ≤ x.1 ∧ x.1 < endPrefix ∧ pd.ranges x.2 = none then
    match pd.lookup x.1 with
    | some d => if d.startKey < x.1 then pd.add (halves d x.1 x.2 d.replicas) else pd
    | none => pd
  else pd

section Split

variable {pd : Ancestor.RangeDescriptorCache} {d rd : RangeDescriptor} {m : Key} {newID : RangeID}

lemma SplitsUsers.current (h : SplitsUsers pd) {k : Key} (hk : userPrefix ≤ k)
    (hk' : k < endPrefix) : ∃ rd, Current pd rd ∧ rd.startKey ≤ k ∧ k < rd.endKey := by
  obtain ⟨s, rd, hget, hs, hsk, hlt⟩ := h.covers k hk hk'
  obtain rfl := h.keyed s rd hget
  exact ⟨rd, ⟨hget, hs⟩, hsk, hlt⟩

lemma SplitsUsers.lookup (h : SplitsUsers pd) {k : Key} (hrd : Current pd rd)
    (hstart : rd.startKey ≤ k) (hstop : k < rd.endKey) : pd.lookup k = some rd :=
  lookup_of_apart hrd.entry hstart hstop fun s rd' hget => h.apart _ _ s rd' hrd.entry hget hrd.user

lemma SplitsUsers.eq_of_spans (h : SplitsUsers pd) {k : Key} (hrd : Current pd rd)
    (hstart : rd.startKey ≤ k) (hstop : k < rd.endKey) (hd : Current pd d)
    (hstart' : d.startKey ≤ k) (hstop' : k < d.endKey) : rd = d :=
  Option.some.inj ((h.lookup hrd hstart hstop).symm.trans (h.lookup hd hstart' hstop'))

lemma SplitsUsers.eq_of_id (h : SplitsUsers pd) (hrd : Current pd rd) (hd : Current pd d)
    (hid : rd.rangeID = d.rangeID) : rd = d := by
  have hr := h.ids _ _ hrd.entry hrd.user
  rw [hid, h.ids _ _ hd.entry hd.user, Option.some.injEq] at hr
  exact hr.symm

lemma SplitsUsers.id_ne (h : SplitsUsers pd) (hrd : Current pd rd) (hnew : pd.ranges newID = none) :
    rd.rangeID ≠ newID := by
  rintro rfl
  rw [h.ids _ _ hrd.entry hrd.user] at hnew
  cases hnew

lemma get_halves (s : Key) :
    (pd.add (halves d m newID d.replicas)).cache.get s =
      if s = d.startKey then some ⟨newID, d.startKey, m, d.replicas⟩
      else if s = m then some ⟨d.rangeID, m, d.endKey, d.replicas⟩ else pd.cache.get s := by
  simp only [Ancestor.RangeDescriptorCache.add, halves, List.foldl_cons, List.foldl_nil,
    Ancestor.RangeDescriptorCache.addOne_get]

lemma halves_cases {s : Key}
    (h : (pd.add (halves d m newID d.replicas)).cache.get s = some rd) :
    (s = d.startKey ∧ rd = ⟨newID, d.startKey, m, d.replicas⟩) ∨
      (s = m ∧ rd = ⟨d.rangeID, m, d.endKey, d.replicas⟩) ∨
      (s ≠ d.startKey ∧ pd.cache.get s = some rd) := by
  rw [get_halves] at h
  split_ifs at h with h₁ h₂
  · exact .inl ⟨h₁, (Option.some.inj h).symm⟩
  · exact .inr (.inl ⟨h₂, (Option.some.inj h).symm⟩)
  · exact .inr (.inr ⟨h₁, h⟩)

lemma ranges_halves (id : RangeID) :
    (pd.add (halves d m newID d.replicas)).ranges id =
      if id = newID then some ⟨newID, d.startKey, m, d.replicas⟩
      else if id = d.rangeID then some ⟨d.rangeID, m, d.endKey, d.replicas⟩ else pd.ranges id := by
  simp only [Ancestor.RangeDescriptorCache.add, halves, List.foldl_cons, List.foldl_nil,
    Ancestor.RangeDescriptorCache.addOne_ranges]

/-- What a split does: nothing, or it cuts a range in two. -/
inductive Cut (pd : Ancestor.RangeDescriptorCache) : Ancestor.RangeDescriptorCache → Prop
  | none : Cut pd pd
  | halves {d : RangeDescriptor} {m : Key} {newID : RangeID} (hd : Current pd d)
      (hstart : d.startKey < m) (hstop : m < d.endKey) (hnew : pd.ranges newID = none) :
      Cut pd (pd.add (halves d m newID d.replicas))

lemma cut_splitAt (h : SplitsUsers pd) (x : Key × RangeID) : Cut pd (splitAt pd x) := by
  unfold splitAt
  split_ifs with hx
  · obtain ⟨d, hd, hle, hlt⟩ := h.current hx.1 hx.2.1
    rw [h.lookup hd hle hlt]
    simp only
    split_ifs with hin
    · exact .halves hd hin hlt hx.2.2
    · exact .none
  · exact .none

section Halves

variable (h : SplitsUsers pd) (hd : Current pd d) (hstart : d.startKey < m) (hstop : m < d.endKey)
include h hd

/-- Another range is beside the one that is split. -/
lemma SplitsUsers.beside {s : Key} (hne : s ≠ d.startKey) (hget : pd.cache.get s = some rd)
    (hs : userPrefix ≤ s) : rd.endKey ≤ d.startKey ∨ d.endKey ≤ s := by
  rcases lt_or_gt_of_ne hne with hlt | hlt
  · exact .inl (h.apart _ _ _ _ hget hd.entry hs hlt)
  · exact .inr (h.apart _ _ _ _ hd.entry hget hd.user hlt)

include hstart hstop

/-- Another range stays. -/
lemma SplitsUsers.get_beside {s : Key} (hne : s ≠ d.startKey) (hget : pd.cache.get s = some rd)
    (hs : userPrefix ≤ s) :
    (pd.add (halves d m newID d.replicas)).cache.get s = some rd := by
  have hm : s ≠ m := by
    rintro rfl
    have hspan := (h.span _ _ hget hs).1
    rcases h.beside hd hne hget hs with hle | hle <;> order
  rw [get_halves, if_neg hne, if_neg hm, hget]

lemma SplitsUsers.apart_halves {s s' : Key} {rd' : RangeDescriptor}
    (hget : (pd.add (halves d m newID d.replicas)).cache.get s = some rd)
    (hget' : (pd.add (halves d m newID d.replicas)).cache.get s' = some rd')
    (hs : userPrefix ≤ s) (hlt : s < s') : rd.endKey ≤ s' := by
  have hs' := hs.trans hlt.le
  rcases halves_cases hget with ⟨rfl, rfl⟩ | ⟨rfl, rfl⟩ | ⟨hne, hold⟩ <;>
    rcases halves_cases hget' with ⟨rfl, rfl⟩ | ⟨rfl, rfl⟩ | ⟨hne', hold'⟩
  · exact absurd hlt (lt_irrefl _)
  · exact le_rfl
  · have hspan := (h.span _ _ hold' hs').1
    rcases h.beside hd hne' hold' hs' with hle | hle <;> order
  · exact absurd hlt hstart.not_gt
  · exact absurd hlt (lt_irrefl _)
  · have hspan := (h.span _ _ hold' hs').1
    rcases h.beside hd hne' hold' hs' with hle | hle <;> order
  · rcases h.beside hd hne hold hs with hle | hle <;> order
  · rcases h.beside hd hne hold hs with hle | hle <;> order
  · exact h.apart _ _ _ _ hold hold' hs hlt

/-- A key of the range that is split is in one of the halves. -/
lemma SplitsUsers.covers_halves {k : Key} (hk : userPrefix ≤ k) (hk' : k < endPrefix) :
    ∃ s rd, (pd.add (halves d m newID d.replicas)).cache.get s = some rd ∧ userPrefix ≤ s ∧
      s ≤ k ∧ k < rd.endKey := by
  obtain ⟨s, rd, hget, hs, hle, hlt⟩ := h.covers k hk hk'
  by_cases hsd : s = d.startKey
  · subst hsd
    rw [hd.entry] at hget
    cases hget
    rcases lt_or_ge k m with hkm | hkm
    · exact ⟨d.startKey, ⟨newID, d.startKey, m, d.replicas⟩, by rw [get_halves, if_pos rfl],
        hs, hle, hkm⟩
    · exact ⟨m, ⟨d.rangeID, m, d.endKey, d.replicas⟩,
        by rw [get_halves, if_neg hstart.ne', if_pos rfl], hs.trans hstart.le, hkm, hlt⟩
  · exact ⟨s, rd, h.get_beside hd hstart hstop hsd hget hs, hs, hle, hlt⟩

end Halves

/-- **A split leaves the keys split into ranges.** -/
lemma SplitsUsers.cut (h : SplitsUsers pd) {pd' : Ancestor.RangeDescriptorCache}
    (hcut : Cut pd pd') : SplitsUsers pd' := by
  cases hcut with
  | none => exact h
  | @halves d m newID hd hstart hstop hnew =>
    have hspan := h.span _ _ hd.entry hd.user
    constructor
    case keyed =>
      intro s rd hget
      rcases halves_cases hget with ⟨rfl, rfl⟩ | ⟨rfl, rfl⟩ | ⟨-, hold⟩
      · rfl
      · rfl
      · exact h.keyed s rd hold
    case span =>
      intro s rd hget hs
      rcases halves_cases hget with ⟨rfl, rfl⟩ | ⟨rfl, rfl⟩ | ⟨-, hold⟩
      · exact ⟨hstart, hstop.le.trans hspan.2.1, hspan.2.2⟩
      · exact ⟨hstop, hspan.2⟩
      · exact h.span s rd hold hs
    case apart =>
      exact fun s rd s' rd' hget hget' hs hlt => h.apart_halves hd hstart hstop hget hget' hs hlt
    case covers => exact fun k hk hk' => h.covers_halves hd hstart hstop hk hk'
    case ids =>
      intro s rd hget hs
      rcases halves_cases hget with ⟨rfl, rfl⟩ | ⟨rfl, rfl⟩ | ⟨hne, hold⟩
      · rw [ranges_halves, if_pos rfl]
      · rw [ranges_halves, if_neg (h.id_ne hd hnew), if_pos rfl]
      · obtain rfl := h.keyed s rd hold
        have hrd : Current pd rd := ⟨hold, hs⟩
        have hid : rd.rangeID ≠ d.rangeID := fun hid => hne (by rw [h.eq_of_id hrd hd hid])
        rw [ranges_halves, if_neg (h.id_ne hrd hnew), if_neg hid, h.ids _ _ hold hs]

/-- A descriptor that a client has got at some time: the id is that of a range with the same
end. -/
structure Was (pd : Ancestor.RangeDescriptorCache) (rd cur : RangeDescriptor) : Prop where
  current : Current pd cur
  id : cur.rangeID = rd.rangeID
  stop : cur.endKey = rd.endKey

lemma Was.cut (h : SplitsUsers pd) {cur : RangeDescriptor} (hrd : Was pd rd cur)
    {pd' : Ancestor.RangeDescriptorCache} (hcut : Cut pd pd') : ∃ cur', Was pd' rd cur' := by
  cases hcut with
  | none => exact ⟨cur, hrd⟩
  | @halves d m newID hd hstart hstop hnew =>
    by_cases hid : cur.rangeID = d.rangeID
    · -- its range was split: the id is that of the upper half
      obtain rfl := h.eq_of_id hrd.current hd hid
      refine ⟨⟨cur.rangeID, m, cur.endKey, cur.replicas⟩, ⟨?_, hd.user.trans hstart.le⟩, hrd.id,
        hrd.stop⟩
      rw [get_halves, if_neg hstart.ne', if_pos rfl]
    · have hne : cur.startKey ≠ d.startKey := fun heq => hid (by
        have hentry := hrd.current.entry
        rw [heq, hd.entry, Option.some.injEq] at hentry
        rw [hentry])
      exact ⟨cur, ⟨h.get_beside hd hstart hstop hne hrd.current.entry hrd.current.user,
        hrd.current.user⟩, hrd.id, hrd.stop⟩

/-- The number of ranges that end after `s`. -/
def rangesPast (pd : Ancestor.RangeDescriptorCache) (s : Key) : ℕ :=
  pd.cache.total fun _ rd => if s < rd.endKey then 1 else 0

lemma rangesPast_le (s : Key) : rangesPast pd s ≤ pd.cache.entries.length := by
  have hle := List.sum_le_card_nsmul (pd.cache.entries.map fun e => if s < e.2.endKey then 1 else 0)
    1 fun x hx => by
      obtain ⟨e, -, rfl⟩ := List.mem_map.mp hx
      split <;> decide
  simpa [rangesPast, OrdMap.total] using hle

/-- Past the end of a range there is one range less. -/
lemma rangesPast_lt {s : Key} (hrd : Current pd rd) (h : s < rd.endKey) :
    rangesPast pd rd.endKey < rangesPast pd s := by
  refine List.sum_lt_sum _ _ (fun e _ => ?_) ⟨(rd.startKey, rd), ?_, ?_⟩
  · by_cases hlt : rd.endKey < e.2.endKey
    · simp [hlt, h.trans hlt]
    · simp [hlt]
  · exact (OrdMap.mem_entries_iff _).mpr hrd.entry
  · simp [h]

/-- A split makes one range more at most. -/
lemma rangesPast_cut {pd' : Ancestor.RangeDescriptorCache} (hcut : Cut pd pd') (s : Key) :
    rangesPast pd' s ≤ rangesPast pd s + 1 := by
  cases hcut with
  | none => exact Nat.le_succ _
  | @halves d m newID hd hstart hstop hnew =>
    have hput := pd.cache.total_put (fun _ rd => if s < rd.endKey then 1 else 0) m
      ⟨d.rangeID, m, d.endKey, d.replicas⟩
    have hput' := (pd.cache.put m ⟨d.rangeID, m, d.endKey, d.replicas⟩).total_put
      (fun _ rd => if s < rd.endKey then 1 else 0) d.startKey ⟨newID, d.startKey, m, d.replicas⟩
    have hold : (pd.cache.put m ⟨d.rangeID, m, d.endKey, d.replicas⟩).weightAt
        (fun _ rd => if s < rd.endKey then 1 else 0) d.startKey =
        if s < d.endKey then 1 else 0 := by
      rw [OrdMap.weightAt, OrdMap.get_put, if_neg hstart.ne, hd.entry]
      rfl
    have hcache : (pd.add (RangeIndex.halves d m newID d.replicas)).cache =
        (pd.cache.put m ⟨d.rangeID, m, d.endKey, d.replicas⟩).put d.startKey
          ⟨newID, d.startKey, m, d.replicas⟩ := by
      simp only [Ancestor.RangeDescriptorCache.add, halves, List.foldl_cons, List.foldl_nil,
        Ancestor.RangeDescriptorCache.addOne_cache]
    rw [hold] at hput'
    have hone : (if s < m then 1 else 0) ≤ 1 := by split <;> decide
    rw [rangesPast, rangesPast, hcache]
    simp only at hput hput' ⊢
    omega

end Split

/-! ### The cluster -/

/-- The ranges as the placement driver and the nodes have them, what the client has of them, and
the splits to come: one list for each answer of a node, which are made after it. -/
structure Cluster where
  pd : Ancestor.RangeDescriptorCache
  rangeCache : RangeDescriptorCache := {}
  splits : List (List (Key × RangeID)) := []

def Cluster.advance (w : Cluster) : Cluster :=
  { w with pd := (w.splits.headD []).foldl splitAt w.pd, splits := w.splits.tail }

/-- A clear of the cache refreshes it: what it leaves for the keys of the users is what the
placement driver has. -/
def Refreshes (left : Cluster → RangeDescriptor → Bool) : Prop :=
  ∀ w rd, left w rd = true → userPrefix < rd.endKey → Current w.pd rd

/-- A range answers a scan from a key that it has with its first two rows up to the end that the
client has for it, and is not found for other keys. -/
def cluster (T : IntervalTree) (left : Cluster → RangeDescriptor → Bool) (rows : List KeyValue) :
    Reach Cluster where
  rangeCache := Cluster.rangeCache
  setRangeCache rangeCache w := { w with rangeCache }
  tree := T
  left
  getRangeDescriptors key := fun w =>
    match w.pd.lookup key with
    | some rd => .ok rd w
    | none => .error ⟨.lookup, false⟩ w
  getNodeConn _ := return
  isStop := return false
  scan s _ rd := fun w =>
    match w.pd.ranges rd.rangeID with
    | some cur =>
      if cur.startKey ≤ s ∧ s < cur.endKey then .ok ((within rows s rd.endKey).take 2) w.advance
      else .error ⟨.node (.rangeNotFound rd.rangeID), true⟩ w
    | none => .error ⟨.node (.rangeNotFound rd.rangeID), true⟩ w

/-- The keys of the users are split into ranges, and what the client has for them was right once. -/
structure Cluster.Good (w : Cluster) : Prop where
  splits : SplitsUsers w.pd
  bounds : ∀ rd ∈ w.rangeCache.tree, rd.startKey ≠ [] ∧ rd.endKey ≠ []
  was : ∀ rd ∈ w.rangeCache.tree, userPrefix < rd.endKey →
    rd.replicas ≠ [] ∧ ∃ cur, Was w.pd rd cur

/-- A bound for the turns of the loop from `s` on. -/
def Cluster.turns (w : Cluster) (s : Key) : ℕ :=
  rangesPast w.pd s + (w.splits.map List.length).sum

section Advance

variable {w : Cluster}

/-- What a list of splits keeps. -/
lemma foldl_splitAt {pd : Ancestor.RangeDescriptorCache} (h : SplitsUsers pd)
    (l : List (Key × RangeID)) :
    SplitsUsers (l.foldl splitAt pd) ∧
      (∀ rd cur, Was pd rd cur → ∃ cur', Was (l.foldl splitAt pd) rd cur') ∧
      ∀ s, rangesPast (l.foldl splitAt pd) s ≤ rangesPast pd s + l.length := by
  induction l generalizing pd with
  | nil => exact ⟨h, fun _ cur hcur => ⟨cur, hcur⟩, fun _ => le_rfl⟩
  | cons x l ih =>
    have hcut := cut_splitAt h x
    obtain ⟨hsplit, hwas, hpast⟩ := ih (h.cut hcut)
    refine ⟨hsplit, fun rd cur hcur => ?_, fun s => ?_⟩
    · obtain ⟨cur', hcur'⟩ := hcur.cut h hcut
      exact hwas rd cur' hcur'
    · have hone := rangesPast_cut hcut s
      have hrest := hpast s
      simp only [List.foldl_cons, List.length_cons]
      omega

lemma Cluster.Good.advance (h : w.Good) : w.advance.Good where
  splits := (foldl_splitAt h.splits _).1
  bounds := h.bounds
  was rd hrd hlt := by
    obtain ⟨hrep, cur, hcur⟩ := h.was rd hrd hlt
    exact ⟨hrep, (foldl_splitAt h.splits _).2.1 rd cur hcur⟩

lemma turns_advance (h : w.Good) (s : Key) : w.advance.turns s ≤ w.turns s := by
  have hpast := (foldl_splitAt h.splits (w.splits.headD [])).2.2 s
  have hsum : (w.splits.map List.length).sum =
      (w.splits.headD []).length + (w.splits.tail.map List.length).sum := by
    cases w.splits <;> simp
  rw [Cluster.turns, Cluster.turns, hsum]
  simp only [Cluster.advance]
  omega

end Advance

/-! ### Requests -/

section Requests

variable (T : IntervalTree) (left : Cluster → RangeDescriptor → Bool) {w : Cluster} {s : Key}
  {cur : RangeDescriptor}

lemma Current.was {pd : Ancestor.RangeDescriptorCache} (h : Current pd cur) : Was pd cur cur :=
  ⟨h, rfl, rfl⟩

/-- A current range joins the cache. -/
lemma Cluster.Good.insert (h : w.Good) (hcur : Current w.pd cur) :
    Cluster.Good { w with
      rangeCache := ⟨T.insert cur w.rangeCache.tree⟩ } := by
  have hspan := h.splits.span _ _ hcur.entry hcur.user
  refine ⟨h.splits, fun rd hrd => ?_, fun rd hrd hlt => ?_⟩ <;>
    rcases T.mem_insert.mp hrd with rfl | hrd
  · refine ⟨fun hnil => ?_, fun hnil => List.not_lt_nil _ (hnil ▸ hspan.1)⟩
    have huser := hcur.user
    rw [hnil] at huser
    exact absurd huser (by decide)
  · exact h.bounds rd hrd
  · exact ⟨hspan.2.2, rd, hcur.was⟩
  · exact h.was rd hrd hlt

lemma Cluster.Good.clear (h : w.Good) (left : RangeDescriptor → Bool) :
    Cluster.Good { w with rangeCache := ⟨w.rangeCache.tree.filter left⟩ } where
  splits := h.splits
  bounds rd hrd := h.bounds rd (List.mem_filter.mp hrd).1
  was rd hrd := h.was rd (List.mem_filter.mp hrd).1

/-- The client finds a descriptor for the key: one it has, or the current one. -/
lemma getRangeDescFromCache_good (rows : List KeyValue) (h : w.Good) (hcur : Current w.pd cur)
    (hstart : cur.startKey ≤ s) (hstop : s < cur.endKey) : ∃ rd rangeCache,
    (cluster T left rows).getRangeDescFromCache s w = .ok { desc := rd } { w with rangeCache } ∧
      Cluster.Good { w with rangeCache } ∧ rd ∈ rangeCache.tree ∧
      (rd = cur ∨ rd ∈ w.rangeCache.tree) ∧ rd.startKey ≤ s ∧ s < rd.endKey := by
  have hne : s ≠ [] := by
    rintro rfl
    exact absurd (hcur.user.trans hstart) (by decide)
  have hcache : (cluster T left rows).rangeCache w = w.rangeCache := rfl
  rw [Reach.getRangeDescFromCache, run_bind_get, hcache]
  rcases w.rangeCache.lookup_cases h.bounds hne with ⟨rd, hmem, hl, hle, hlt⟩ | ⟨hl, hnone⟩
  · exact ⟨rd, w.rangeCache, by rw [hl]; rfl, h, hmem, .inr hmem, hle, hlt⟩
  have hgood := h.insert T hcur
  have hbounds := hgood.bounds cur (T.mem_insert.mpr (.inl rfl))
  have hlocate : traced ((cluster T left rows).getRangeDescriptors s) w = .ok cur w := by
    refine traced_ok ?_
    simp only [cluster, h.splits.lookup hcur hstart hstop]
  have hadd : w.rangeCache.add (cluster T left rows).tree cur =
      .ok ⟨T.insert cur w.rangeCache.tree⟩ :=
    w.rangeCache.add_of_lt T hbounds.1 (hstart.trans_lt hstop)
  rw [hl]
  simp only
  rw [run_bind_ok hlocate, run_bind_get]
  rcases RangeDescriptorCache.lookup_cases ⟨_⟩ hgood.bounds hne with
    ⟨rd, hmem, hl', hle, hlt⟩ | ⟨-, hnone'⟩
  · refine ⟨rd, ⟨_⟩, ?_, hgood, hmem, T.mem_insert.mp hmem, hle, hlt⟩
    rw [hcache, hadd]
    simp only [ofCache, pure_bind, hl']
    rfl
  · have hle := hnone' cur (T.mem_insert.mpr (.inl rfl)) hstart
    exact absurd hstop (not_lt.mpr hle)

end Requests

section Turn

variable (T : IntervalTree) (left : Cluster → RangeDescriptor → Bool) (rows : List KeyValue)
  {w : Cluster} {s : Key} {rd cur : RangeDescriptor}

section Scan

variable (h : w.Good) (hwas : Was w.pd rd cur)
include h hwas

lemma Was.ranges_eq : w.pd.ranges rd.rangeID = some cur := by
  rw [← hwas.id]
  exact h.splits.ids _ _ hwas.current.entry hwas.current.user

lemma scan_answered (hin : cur.startKey ≤ s) (hlt : s < rd.endKey) (id : NodeID) :
    (cluster T left rows).scan s id rd w = .ok ((within rows s rd.endKey).take 2) w.advance := by
  simp only [cluster, hwas.ranges_eq h, hin, hwas.stop, hlt, and_self, if_true]

lemma scan_missed (hin : ¬ cur.startKey ≤ s) (id : NodeID) :
    (cluster T left rows).scan s id rd w = .error ⟨.node (.rangeNotFound rd.rangeID), true⟩ w := by
  simp only [cluster, hwas.ranges_eq h, hin, false_and, if_false]

/-- The end of the range that has answered is a boundary now, and past it there are fewer turns. -/
lemma answered_turns (hlt : s < rd.endKey) :
    rd.endKey ≤ endPrefix ∧ w.advance.turns rd.endKey < w.turns s := by
  have hspan := h.splits.span _ _ hwas.current.entry hwas.current.user
  have hpast := rangesPast_lt hwas.current (hwas.stop ▸ hlt)
  have hle := turns_advance h rd.endKey
  rw [hwas.stop] at hspan hpast
  refine ⟨hspan.2.1, ?_⟩
  unfold Cluster.turns at hle ⊢
  omega

end Scan

/-- **A turn of the loop**: some range answers with its first two rows, if not at once then after
the client has asked the placement driver again. -/
lemma request_good (hleft : Refreshes left) (h : w.Good) (hs : InUserSpan s)
    (hend : s < endPrefix) : ∃ rd w',
    (cluster T left rows).request s w = .ok (some (rd, (within rows s rd.endKey).take 2)) w' ∧
      w'.Good ∧ (s < rd.endKey ∧ rd.endKey ≤ endPrefix) ∧
      (∀ s', w'.turns s' ≤ w.turns s') ∧ w'.turns rd.endKey < w.turns s := by
  obtain ⟨cur, hcur, hstart, hstop⟩ := h.splits.current hs.1 hend
  obtain ⟨rd, rangeCache, hrd, hgood, hmem, -, -, hlt⟩ :=
    getRangeDescFromCache_good T left rows h hcur hstart hstop
  obtain ⟨hrep, cur', hwas⟩ := hgood.was rd hmem (hs.1.trans_lt hlt)
  have hx := List.getElem?_eq_getElem (List.length_pos_iff.mpr hrep)
  by_cases hin : cur'.startKey ≤ s
  · have hscan := scan_answered T left rows hgood hwas hin hlt
    obtain ⟨hle, hturns⟩ := answered_turns hgood hwas hlt
    exact ⟨rd, _, requestNode_ok hrd hx rfl (run_bind_ok (hscan _)), hgood.advance, ⟨hlt, hle⟩,
      turns_advance hgood, hturns⟩
  · -- the client has a descriptor from before a split, and the key is in the other half
    have hscan := scan_missed T left rows hgood hwas hin
    have hclean := hgood.clear (left { w with rangeCache })
    have hclear : (cluster T left rows).base.clearRangeCache { w with rangeCache } =
        .ok () { w with
          rangeCache := ⟨rangeCache.tree.filter (left { w with rangeCache })⟩ } := rfl
    obtain ⟨rd', rangeCache', hrd', hgood', hmem', hor, hle', hlt'⟩ :=
      getRangeDescFromCache_good T left rows hclean hcur hstart hstop
    obtain rfl : rd' = cur := by
      rcases hor with heq | hmem
      · exact heq
      · have hnew := hleft _ _ (List.mem_filter.mp hmem).2 (hs.1.trans_lt hlt')
        exact h.splits.eq_of_spans hnew hle' hlt' hcur hstart hstop
    have hy := List.getElem?_eq_getElem
      (List.length_pos_iff.mpr (h.splits.span _ _ hcur.entry hcur.user).2.2)
    have hscan' := scan_answered T left rows hgood' hcur.was hstart hstop
    obtain ⟨hle, hturns⟩ := answered_turns hgood' hcur.was hstop
    exact ⟨rd', _, requestNode_refresh hrd hx rfl (run_bind_error (hscan _)) rfl rfl hclear hrd'
      hy rfl (run_bind_ok (hscan' _)), hgood'.advance, ⟨hstop, hle⟩, turns_advance hgood', hturns⟩

end Turn

/-! ### Iteration -/

/-- The keys of the users in one range. -/
def undivided : Ancestor.RangeDescriptorCache :=
  Ancestor.RangeDescriptorCache.addOne { minReplica := 1 } userRange

lemma undivided_get {s : Key} {rd : RangeDescriptor} (h : undivided.cache.get s = some rd) :
    s = userPrefix ∧ rd = userRange := by
  rw [undivided, Ancestor.RangeDescriptorCache.addOne_get] at h
  split_ifs at h with hs
  · exact ⟨hs, (Option.some.inj h).symm⟩
  · cases h

lemma splitsUsers_undivided : SplitsUsers undivided where
  keyed s rd hget := by
    obtain ⟨rfl, rfl⟩ := undivided_get hget
    rfl
  span s rd hget _ := by
    obtain ⟨rfl, rfl⟩ := undivided_get hget
    decide
  apart s rd s' rd' hget hget' _ hlt := by
    obtain ⟨rfl, rfl⟩ := undivided_get hget
    obtain ⟨rfl, rfl⟩ := undivided_get hget'
    exact absurd hlt (lt_irrefl _)
  covers k hk hk' := by
    have hget : undivided.cache.get userPrefix = some userRange := by
      rw [undivided, Ancestor.RangeDescriptorCache.addOne_get]
      rfl
    exact ⟨userPrefix, userRange, hget, le_rfl, hk, hk'⟩
  ids s rd hget _ := by
    obtain ⟨rfl, rfl⟩ := undivided_get hget
    rw [undivided, Ancestor.RangeDescriptorCache.addOne_ranges, if_pos rfl]

/-- A clear that leaves the descriptors which are still right. -/
def leavesCurrent (w : Cluster) (rd : RangeDescriptor) : Bool :=
  w.pd.cache.get rd.startKey = some rd ∧ userPrefix ≤ rd.startKey

lemma refreshes_leavesCurrent : Refreshes leavesCurrent := by
  intro w rd h _
  obtain ⟨hget, huser⟩ := of_decide_eq_true h
  exact ⟨hget, huser⟩

/-- A row under the user's key `c`. -/
def rowC : KeyValue := ⟨userKey [99], { bytes := [3] }⟩

/-- **Iteration over ranges is complete.** The ranges split the keys of the users and are split
further between the requests, as often as the cluster likes; the client starts with descriptors
that were right once, and a clear of its cache refreshes them. `Seek` and then `Next` read the rows
from the key on, in order and each of them once, and the iterator is invalid after the last one. -/
theorem iterate_splits (T : IntervalTree) {left : Cluster → RangeDescriptor → Bool}
    (hleft : Refreshes left) {rows : List KeyValue}
    (hsorted : rows.Pairwise fun a b => a.key < b.key) {doPutData : CM Cluster Unit}
    {w w₀ : Cluster} (hput : doPutData w = .ok () w₀) (hw₀ : w₀.Good)
    {k : Key} (hk : k ≠ []) {fuel n : ℕ}
    (hfuel : w₀.pd.cache.entries.length + (w₀.splits.map List.length).sum < fuel)
    (hn : rows.length ≤ n) :
    ∃ it w', (cluster T left rows).iterate fuel doPutData n k w =
        .ok ((ahead rows (userKey k)).map KeyValue.pair, it) w' ∧ it.valid = false := by
  have hfetch : ∀ (w : Cluster) s, (w.Good ∧ ∀ s, w.turns s < fuel) → InUserSpan s →
      ∃ p w', (cluster T left rows).scanMutilRange fuel s w = .ok p w' ∧ Found (FirstTwo rows) s p ∧
        (w'.Good ∧ ∀ s, w'.turns s < fuel) := by
    intro w s hw hs
    refine scanMutilRange_found (K := InUserSpan) (m := Cluster.turns) ?_ fuel hw hs (hw.2 s)
    rintro w s ⟨hw, hturns⟩ hs hend
    obtain ⟨rd, w', hrun, hw', ⟨hlt, hle⟩, hmono, hless⟩ :=
      request_good T left rows hleft hw hs (lt_endPrefix hs hend)
    exact ⟨rd, _, w', hrun, ⟨⟨hlt, hle, rfl⟩, hs.1.trans hlt.le, hle⟩,
      ⟨hw', fun s' => (hmono s').trans_lt (hturns s')⟩, hless⟩
  have hbound : ∀ s, w₀.turns s < fuel := fun s => by
    have hle : rangesPast w₀.pd s ≤ w₀.pd.cache.entries.length := rangesPast_le s
    unfold Cluster.turns
    omega
  obtain ⟨it, w', hrun, hvalid, -⟩ := iterate_complete hsorted hfetch hk hput ⟨hw₀, hbound⟩
    ((List.length_filter_le _ _).trans hn)
  exact ⟨it, w', hrun, hvalid⟩

/-- After the first answer the range is split at the third row. The second row is then in the
half with the new id, which the client does not know. -/
theorem iterate_splits_once :
    ∃ it w', (cluster .byStart leavesCurrent [rowA, rowB, rowC]).iterate 3 (return) 3 [97]
        { pd := undivided, splits := [[([2, 99], 3)]] } =
      .ok ((ahead [rowA, rowB, rowC] (userKey [97])).map KeyValue.pair, it) w' ∧
        it.valid = false :=
  iterate_splits .byStart refreshes_leavesCurrent (by decide +kernel) rfl
    { splits := splitsUsers_undivided
      bounds := List.forall_mem_nil _
      was := List.forall_mem_nil _ }
    (by decide) (by decide +kernel) le_rfl

end Ancestor.Client
