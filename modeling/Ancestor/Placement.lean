import Ancestor.Session

/-!
Ranges that split the key space, and requests that find them.

The keys of the records and of the users, from `txnPrefix` up to `endPrefix`, are split into
ranges without a gap and without an overlap; below them are the ranges of the nodes. The cache of
the client holds some of the ranges.
-/

namespace Ancestor

open Hoare Client

/-- The ranges of the placement driver split the keys from `txnPrefix` up to `endPrefix`. -/
structure SplitsKeys (pd : RangeDescriptorCache) : Prop where
  keyed : ∀ s rd, pd.cache.get s = some rd → rd.startKey = s
  system : ∀ s rd, pd.cache.get s = some rd → s < txnPrefix →
    s ≠ [] ∧ rd.endKey ≠ [] ∧ rd.endKey ≤ txnPrefix
  span : ∀ s rd, pd.cache.get s = some rd → txnPrefix ≤ s →
    s < rd.endKey ∧ rd.endKey ≤ endPrefix ∧ rd.replicas ≠ []
  apart : ∀ s rd s' rd', pd.cache.get s = some rd → pd.cache.get s' = some rd' →
    txnPrefix ≤ s → s < s' → rd.endKey ≤ s'
  covers : ∀ k, txnPrefix ≤ k → k < endPrefix →
    ∃ s rd, pd.cache.get s = some rd ∧ txnPrefix ≤ s ∧ s ≤ k ∧ k < rd.endKey

/-- The range `rd` of the placement driver holds `k`. -/
structure Locates (pd : RangeDescriptorCache) (k : Key) (rd : RangeDescriptor) : Prop where
  entry : pd.cache.get rd.startKey = some rd
  above : txnPrefix ≤ rd.startKey
  start : rd.startKey ≤ k
  stop : k < rd.endKey

/-- The client has descriptors of the placement driver only. -/
def Cached (pd : RangeDescriptorCache) (rdc : Client.RangeDescriptorCache) : Prop :=
  ∀ rd ∈ rdc.tree, pd.cache.get rd.startKey = some rd

section Located

variable {pd : RangeDescriptorCache} {k : Key} {rd : RangeDescriptor}

lemma SplitsKeys.locates (h : SplitsKeys pd) (hk : txnPrefix ≤ k) (hk' : k < endPrefix) :
    ∃ rd, Locates pd k rd := by
  obtain ⟨s, rd, hget, hs, hsk, hlt⟩ := h.covers k hk hk'
  obtain rfl := h.keyed s rd hget
  exact ⟨rd, hget, hs, hsk, hlt⟩

/-- No other range holds the key. -/
lemma SplitsKeys.unique (h : SplitsKeys pd) (hl : Locates pd k rd) {rd' : RangeDescriptor}
    (hget : pd.cache.get rd'.startKey = some rd') (hstart : rd'.startKey ≤ k)
    (hstop : k < rd'.endKey) : rd' = rd := by
  rcases lt_trichotomy rd'.startKey rd.startKey with hlt | heq | hlt
  · by_cases hs : txnPrefix ≤ rd'.startKey
    · have hle := (h.apart _ _ _ _ hget hl.entry hs hlt).trans hl.start
      exact absurd hstop (not_lt.mpr hle)
    · have hle := (h.system _ _ hget (not_le.mp hs)).2.2.trans (hl.above.trans hl.start)
      exact absurd hstop (not_lt.mpr hle)
  · rw [heq, hl.entry, Option.some.injEq] at hget
    exact hget.symm
  · have hle := (h.apart _ _ _ _ hl.entry hget hl.above hlt).trans hstart
    exact absurd hl.stop (not_lt.mpr hle)

/-- A range that ends before the next one starts is found for its keys. -/
lemma lookup_of_apart (hget : pd.cache.get rd.startKey = some rd) (hstart : rd.startKey ≤ k)
    (hstop : k < rd.endKey)
    (hapart : ∀ s rd', pd.cache.get s = some rd' → rd.startKey < s → rd.endKey ≤ s) :
    pd.lookup k = some rd := by
  have hfloor := pd.cache.floor_eq_some hget hstart fun s rd' hget' hle => by
    by_contra hlt
    exact absurd hstop (not_lt.mpr ((hapart s rd' hget' (not_le.mp hlt)).trans hle))
  rw [RangeDescriptorCache.lookup, hfloor]
  simp only [ge_iff_le, hstart, hstop, and_self, not_true, if_false]

/-- **The placement driver finds the range of a key.** -/
lemma SplitsKeys.lookup (h : SplitsKeys pd) (hl : Locates pd k rd) : pd.lookup k = some rd :=
  lookup_of_apart hl.entry hl.start hl.stop fun s rd' hget =>
    h.apart _ _ s rd' hl.entry hget hl.above

lemma Locates.ne_nil (hl : Locates pd k rd) : k ≠ [] := by
  rintro rfl
  exact absurd (hl.above.trans hl.start) (by decide)

lemma SplitsKeys.replica (h : SplitsKeys pd) (hl : Locates pd k rd) :
    ∃ r, rd.replicas[0]? = some r := by
  cases hrep : rd.replicas with
  | nil => exact absurd hrep (h.span _ _ hl.entry hl.above).2.2
  | cons r l => exact ⟨r, rfl⟩

lemma SplitsKeys.bounds (h : SplitsKeys pd) (hget : pd.cache.get rd.startKey = some rd) :
    rd.startKey ≠ [] ∧ rd.endKey ≠ [] := by
  by_cases hs : txnPrefix ≤ rd.startKey
  · have hlt := (h.span _ _ hget hs).1
    refine ⟨fun hnil => ?_, fun hnil => List.not_lt_nil _ (hnil ▸ hlt)⟩
    rw [hnil] at hs
    exact absurd hs (by decide)
  · exact (h.system _ _ hget (not_le.mp hs)).imp_right And.left

variable {rdc : Client.RangeDescriptorCache}

/-- A client that has the range of the key finds it. -/
lemma SplitsKeys.clientLookup (h : SplitsKeys pd) (hc : Cached pd rdc) (hl : Locates pd k rd)
    (hmem : rd ∈ rdc.tree) : rdc.lookup k = .ok rd := by
  exact Client.RangeDescriptorCache.lookup_unique hl.ne_nil hmem (fun x hx => h.bounds (hc x hx))
    ⟨hl.start, hl.stop⟩ fun x hx => h.unique hl (hc x hx)

/-- A client that does not have it finds nothing. -/
lemma SplitsKeys.clientLookup_none (h : SplitsKeys pd) (hc : Cached pd rdc) (hl : Locates pd k rd)
    (hmem : rd ∉ rdc.tree) : rdc.lookup k = .error .notFound := by
  have hne := hl.ne_nil
  have hnone : rdc.tree.filter (Client.RangeDescriptorCache.overlap k (bytesNext k)) = [] := by
    rw [List.filter_eq_nil_iff]
    intro x hx ho
    obtain ⟨hs, he⟩ := h.bounds (hc x hx)
    obtain ⟨hstart, hstop⟩ := (Client.RangeDescriptorCache.overlap_iff hne hs he).mp ho
    exact hmem (h.unique hl (hc x hx) hstart hstop ▸ hx)
  rw [Client.RangeDescriptorCache.lookup, Client.RangeDescriptorCache.getOverlaps,
    Client.RangeDescriptorCache.newKey_of_lt hne (lt_bytesNext k)]
  simp only [bind, Except.bind, pure, Except.pure, hnone]
  rfl

end Located

/-! ### Requests -/

section Requests

variable {env : Env} {w : Session} {k : Key}

lemma getRangeDescFromCache_ok (h : SplitsKeys env.pd) (hc : Cached env.pd w.rangeCache)
    (hk : txnPrefix ≤ k) (hk' : k < endPrefix) :
    ∃ rd rangeCache, getRangeDescFromCache env k w = .ok { desc := rd } { w with rangeCache } ∧
      Cached env.pd rangeCache ∧ Locates env.pd k rd := by
  obtain ⟨rd, hl⟩ := h.locates hk hk'
  by_cases hmem : rd ∈ w.rangeCache.tree
  · refine ⟨rd, w.rangeCache, ?_, hc, hl⟩
    rw [getRangeDescFromCache, run_bind_get, h.clientLookup hc hl hmem]
    rfl
  · obtain ⟨hs, -⟩ := h.bounds hl.entry
    have hadd := w.rangeCache.add_of_lt env.tree hs (hl.start.trans_lt hl.stop)
    have hc' : Cached env.pd ⟨env.tree.insert rd w.rangeCache.tree⟩ := by
      intro x hx
      rcases env.tree.mem_insert.mp hx with rfl | hx
      · exact hl.entry
      · exact hc x hx
    have hfound := h.clientLookup hc' hl (env.tree.mem_insert.mpr (.inl rfl))
    refine ⟨rd, _, ?_, hc', hl⟩
    rw [getRangeDescFromCache, run_bind_get, h.clientLookup_none hc hl hmem]
    simp only [h.lookup hl]
    rw [run_bind_get, hadd]
    simp only [ofCache, pure_bind, hfound]
    rfl

/-- **A request reaches the range of its key.** The closure runs once; what it ends with is what
the request ends with. -/
theorem requestNode_located {α : Type} (h : SplitsKeys env.pd) (hc : Cached env.pd w.rangeCache)
    (hk : txnPrefix ≤ k) (hk' : k < endPrefix) {call : NodeID → RangeDescriptor → CM Session α}
    {Q : α → Session → Prop}
    (hcall : ∀ id rd rangeCache, Cached env.pd rangeCache → Locates env.pd k rd →
      ∃ a w', call id rd { w with rangeCache } = .ok a w' ∧ Q a w') :
    ∃ a w', requestNode (base env) k call w = .ok (some a) w' ∧ Q a w' := by
  obtain ⟨rd, rangeCache, hrd, hc', hl⟩ := getRangeDescFromCache_ok h hc hk hk'
  obtain ⟨r, hr⟩ := h.replica hl
  obtain ⟨a, w', hrun, hQ⟩ := hcall r.nodeID rd rangeCache hc' hl
  exact ⟨a, w', requestNode_ok hrd hr rfl hrun, hQ⟩

/-- The key that the closure has not found is not found. -/
lemma requestNode_missing {α : Type} (h : SplitsKeys env.pd) (hc : Cached env.pd w.rangeCache)
    (hk : txnPrefix ≤ k) (hk' : k < endPrefix) {call : NodeID → RangeDescriptor → CM Session α}
    {key : Key} {Q : Session → Prop}
    (hcall : ∀ id rd rangeCache, Cached env.pd rangeCache → Locates env.pd k rd →
      ∃ e w', call id rd { w with rangeCache } = .error e w' ∧ e.cause = .notExist key ∧ Q w') :
    ∃ e w', requestNode (base env) k call w = .error e w' ∧ e.cause = .notExist key ∧ Q w' := by
  obtain ⟨rd, rangeCache, hrd, hc', hl⟩ := getRangeDescFromCache_ok h hc hk hk'
  obtain ⟨r, hr⟩ := h.replica hl
  obtain ⟨e, w', hrun, he, hQ⟩ := hcall r.nodeID rd rangeCache hc' hl
  exact ⟨e.trace, w', requestNode_notExist hrd hr rfl hrun he rfl, he, hQ⟩

end Requests

end Ancestor
