import Ancestor.Snapshot
import Ancestor.Split
import Ancestor.Stats

/-!
The split key of a range and the statistics of its two parts (`storage/rebalance.go`).

`getSplitKey` walks the entries of the range and adds up their sizes. It stops at the first
entry of a key above the start at which the sum has reached the split size, and answers with
that key and with the sum. The range is then cut at the key, so the entry that the walk stopped
at is in the right part, while the sum, which becomes the statistics of the left part, has it.
-/

namespace Ancestor.SplitKey

open Split Hoare

/-! ### The running total -/

/-- The entries whose user keys are in the span of the descriptor. -/
def spanEntries (d : RangeDescriptor) (eng : Engine) : List (MVCCKey × Entry) :=
  eng.entries.filter fun e => keyIn ⟨d.rangeID, d⟩ e.1

def byteTotal (l : List (MVCCKey × Entry)) : ℕ := (l.map fun e => e.1.length + e.2.size).sum

/-- The statistics that stand for the entries. -/
def statsOf (l : List (MVCCKey × Entry)) : RangeStats :=
  ⟨Int64.ofNat (byteTotal l), Int64.ofNat l.length⟩

/-- The entries up to one of them. -/
def upTo (l : List (MVCCKey × Entry)) (x : MVCCKey) : List (MVCCKey × Entry) :=
  l.filter fun e => decide (e.1 ≤ x)

/-- An entry of the key `k` above the start, at which the running total has reached the size. -/
structure Hit (l : List (MVCCKey × Entry)) (startKey : Key) (splitSize : Int64)
    (e : MVCCKey × Entry) (k : Key) : Prop where
  mem : e ∈ l
  key : e.1 ∈ entryKeys k
  above : startKey < k
  reached : splitSize ≤ (statsOf (upTo l e.1)).totalBytes

/-- The range can be cut at `k`. -/
def Cut (d : RangeDescriptor) (eng : Engine) (splitSize : Int64) (k : Key) : Prop :=
  ∃ e, Hit (spanEntries d eng) d.startKey splitSize e k

section Totals

variable {l pre post : List (MVCCKey × Entry)} {e : MVCCKey × Entry}

lemma statsOf_append (l l' : List (MVCCKey × Entry)) :
    statsOf (l ++ l') = statsOf l + statsOf l' := by
  ext <;> simp [statsOf, byteTotal, Int64.ofNat_add]

/-- Up to an entry of a sorted list: what stands before it, and the entry. -/
lemma upTo_eq (h : (pre ++ e :: post).Pairwise fun a b => a.1 < b.1) :
    upTo (pre ++ e :: post) e.1 = pre ++ [e] := by
  obtain ⟨-, hpost, hpre⟩ := List.pairwise_append.mp h
  have hbefore : pre.filter (fun x => decide (x.1 ≤ e.1)) = pre :=
    List.filter_eq_self.mpr fun x hx => decide_eq_true (hpre x hx e List.mem_cons_self).le
  have hafter : post.filter (fun x => decide (x.1 ≤ e.1)) = [] :=
    List.filter_eq_nil_iff.mpr fun x hx => by
      simpa using (List.pairwise_cons.mp hpost).1 x hx
  have hself : decide (e.1 ≤ e.1) = true := decide_eq_true le_rfl
  rw [upTo, List.filter_append, hbefore, List.filter_cons, if_pos hself, hafter]

lemma sorted_spanEntries (d : RangeDescriptor) (eng : Engine) :
    (spanEntries d eng).Pairwise fun a b => a.1 < b.1 :=
  eng.sorted.filter _

lemma splitEntries_eq_span {r : Replica} {eng : Engine} (h : Encoded eng) :
    r.splitEntries eng = spanEntries r.rangeDesc eng :=
  splitEntries_exact h

lemma mem_spanEntries {d : RangeDescriptor} {eng : Engine} {k : Key} (hk : e.1 ∈ entryKeys k) :
    e ∈ spanEntries d eng ↔ e ∈ eng.entries ∧ d.startKey ≤ k ∧ k < d.endKey := by
  rw [spanEntries, List.mem_filter, keyIn_eq hk, decide_eq_true_eq]

/-- Entries come in the order of their keys. -/
lemma key_le_of_le {x y : MVCCKey} {k k' : Key} (hx : x ∈ entryKeys k) (hy : y ∈ entryKeys k')
    (h : x ≤ y) : k ≤ k' := by
  by_contra hlt
  have hyk : y < newMVCCKey k := (lt_newMVCCKey_iff hy k).mpr (not_le.mp hlt)
  exact lt_irrefl k ((lt_newMVCCKey_iff hx k).mp (h.trans_lt hyk))

end Totals

/-! ### The walk -/

section Loop

variable {startKey : Key} {splitSize : Int64} {e : MVCCKey × Entry} {k : Key}

/-- What the walk of `getSplitKey` comes to on the entries `rest` of `l`. -/
def Outcome (l rest : List (MVCCKey × Entry)) (startKey : Key) (splitSize : Int64) :
    Except Err GetSplitKeyResponse → Prop
  | .ok resp => ∃ e ∈ rest, Hit l startKey splitSize e resp.splitKey ∧
      (∀ y ∈ rest, ∀ k, Hit l startKey splitSize y k → e.1 ≤ y.1) ∧
      ⟨resp.rangeBytes, resp.rangeCount⟩ = statsOf (upTo l e.1)
  | .error err => err = .noSplitKey ∧ ∀ y ∈ rest, ∀ k, ¬ Hit l startKey splitSize y k

/-- An entry that is no hit can be left out in front. -/
lemma Outcome.cons {l rest : List (MVCCKey × Entry)} {out : Except Err GetSplitKeyResponse}
    (he : ∀ k, ¬ Hit l startKey splitSize e k) (h : Outcome l rest startKey splitSize out) :
    Outcome l (e :: rest) startKey splitSize out := by
  cases out with
  | error err =>
    refine ⟨h.1, fun y hy k hit => ?_⟩
    rcases List.mem_cons.mp hy with rfl | hy
    · exact he k hit
    · exact h.2 y hy k hit
  | ok resp =>
    obtain ⟨x, hx, hit, hfirst, hstats⟩ := h
    refine ⟨x, List.mem_cons_of_mem _ hx, hit, fun y hy k hit => ?_, hstats⟩
    rcases List.mem_cons.mp hy with rfl | hy
    · exact absurd hit (he k)
    · exact hfirst y hy k hit

lemma decode_of_mem (hk : e.1 ∈ entryKeys k) :
    ∃ t b, decodeMVCCKey e.1 = .ok (k, t, b) := by
  rcases hk with h | ⟨t, h⟩
  · exact ⟨_, _, h ▸ decodeMVCCKey_key k⟩
  · exact ⟨_, _, h ▸ decodeMVCCKey_timeKey k t⟩

/-- **The walk stops at the first hit.** The accumulators hold what is behind it. -/
theorem splitKeyLoop_outcome (rest : List (MVCCKey × Entry)) (pre : List (MVCCKey × Entry))
    (hsorted : (pre ++ rest).Pairwise fun a b => a.1 < b.1)
    (henc : ∀ e ∈ rest, ∃ k, e.1 ∈ entryKeys k) :
    Outcome (pre ++ rest) rest startKey splitSize
      (splitKeyLoop startKey splitSize rest (statsOf pre).totalBytes
        (statsOf pre).totalCount) := by
  induction rest generalizing pre with
  | nil => exact ⟨rfl, fun y hy => absurd hy List.not_mem_nil⟩
  | cons e rest ih =>
    obtain ⟨k, hk⟩ := henc e List.mem_cons_self
    obtain ⟨t, b, hdec⟩ := decode_of_mem hk
    have hupTo : statsOf (upTo (pre ++ e :: rest) e.1) =
        ⟨(statsOf pre).totalBytes + Int64.ofNat (e.1.length + e.2.size),
          (statsOf pre).totalCount + 1⟩ := by
      rw [upTo_eq hsorted, statsOf_append]
      rfl
    -- the accumulators of the next round are those of `pre ++ [e]`
    have hnext := ih (pre ++ [e]) (by simpa using hsorted)
      fun x hx => henc x (List.mem_cons_of_mem _ hx)
    rw [← upTo_eq hsorted, hupTo] at hnext
    simp only [upTo_eq hsorted, List.append_assoc, List.singleton_append] at hnext
    unfold splitKeyLoop
    by_cases hreached : (statsOf pre).totalBytes + Int64.ofNat (e.1.length + e.2.size) ≥ splitSize
    · simp only [if_pos hreached, hdec]
      by_cases hle : k ≤ startKey
      · rw [if_pos hle]
        refine hnext.cons fun k' hit => ?_
        rw [entryKeys_inj hit.key hk] at hit
        exact not_lt.mpr hle hit.above
      · rw [if_neg hle]
        refine ⟨e, List.mem_cons_self, ⟨by simp, hk, not_le.mp hle, ?_⟩, fun y hy _ _ => ?_, ?_⟩
        · rw [hupTo]
          exact hreached
        · rcases List.mem_cons.mp hy with rfl | hy
          · exact le_rfl
          · obtain ⟨-, hrest, -⟩ := List.pairwise_append.mp hsorted
            exact ((List.pairwise_cons.mp hrest).1 y hy).le
        · rw [hupTo]
    · simp only [if_neg hreached]
      refine hnext.cons fun k' hit => hreached ?_
      have := hit.reached
      rwa [hupTo] at this

lemma getSplitKey_outcome {r : Replica} {eng : Engine} (req : GetSplitKeyRequest)
    (h : Encoded eng) :
    Outcome (spanEntries r.rangeDesc eng) (spanEntries r.rangeDesc eng) r.rangeDesc.startKey
      req.splitSize (r.getSplitKey eng req) := by
  rw [Replica.getSplitKey, splitEntries_eq_span h]
  exact splitKeyLoop_outcome _ [] (sorted_spanEntries r.rangeDesc eng)
    fun e he => h e (List.mem_filter.mp he).1

end Loop

/-! ### The cut -/

/-- Two spans without a common key that make up a third, each with a key of its own. -/
structure Partition (d prev post : RangeDescriptor) : Prop where
  covers : ∀ k, d.Covers k ↔ prev.Covers k ∨ post.Covers k
  disjoint : ∀ k, ¬ (prev.Covers k ∧ post.Covers k)
  left : ∃ k, prev.Covers k
  right : ∃ k, post.Covers k

/-- The answer of `getSplitKey`: a stored key strictly inside the range, the least one that the
range can be cut at, and `split` at this key cuts the range in two. -/
structure Cuts (r : Replica) (eng : Engine) (splitSize : Int64) (k : Key) : Prop where
  stored : ∃ e ∈ eng.entries, e.1 ∈ entryKeys k
  inside : r.rangeDesc.startKey < k ∧ k < r.rangeDesc.endKey
  least : IsLeast {k | Cut r.rangeDesc eng splitSize k} k
  split : ∀ (s : Store) (req : SplitRequest), req.rangeID = r.rangeID → req.splitKey = k →
    s.replicas req.newRangeID = none →
      ∃ prev post s', r.split req s = .ok [prev, post] s' ∧ Partition r.rangeDesc prev post

section Cuts

variable {r : Replica} {eng : Engine} {splitSize : Int64} {k : Key}

/-- A range is cut in two at every key strictly inside. -/
lemma partition_of_inside {req : SplitRequest} (hs : r.rangeDesc.startKey < req.splitKey)
    (he : req.splitKey < r.rangeDesc.endKey) :
    Partition r.rangeDesc (prevDesc r req) (postDesc r req) := by
  have hne : r.rangeDesc.endKey ≠ [] := fun h => List.not_lt_nil _ (h ▸ he)
  have hne' : req.splitKey ≠ [] := fun h => List.not_lt_nil _ (h ▸ hs)
  have hd : ∀ k, r.rangeDesc.Covers k ↔ r.rangeDesc.startKey ≤ k ∧ k < r.rangeDesc.endKey :=
    fun k => by simp [RangeDescriptor.Covers, hne]
  have hprev : ∀ k, (prevDesc r req).Covers k ↔ r.rangeDesc.startKey ≤ k ∧ k < req.splitKey :=
    fun k => by simp [RangeDescriptor.Covers, prevDesc, makeRangeDesc, hne']
  have hpost : ∀ k, (postDesc r req).Covers k ↔ req.splitKey ≤ k ∧ k < r.rangeDesc.endKey :=
    fun k => by simp [RangeDescriptor.Covers, postDesc, makeRangeDesc, hne]
  refine ⟨fun k => ?_, fun k => ?_, ⟨r.rangeDesc.startKey, ?_⟩, ⟨req.splitKey, ?_⟩⟩
  · rw [hd, hprev, hpost]
    constructor
    · rintro ⟨h1, h2⟩
      rcases lt_or_ge k req.splitKey with h | h
      · exact .inl ⟨h1, h⟩
      · exact .inr ⟨h, h2⟩
    · rintro (⟨h1, h2⟩ | ⟨h1, h2⟩)
      · exact ⟨h1, h2.trans he⟩
      · exact ⟨hs.le.trans h1, h2⟩
  · rw [hprev, hpost]
    rintro ⟨⟨-, h1⟩, h2, -⟩
    exact not_le.mpr h1 h2
  · exact (hprev _).mpr ⟨le_rfl, hs⟩
  · exact (hpost _).mpr ⟨le_rfl, he⟩

lemma split_ok {req : SplitRequest} {s : Store} (hid : req.rangeID = r.rangeID)
    (hs : r.rangeDesc.startKey < req.splitKey) (he : req.splitKey < r.rangeDesc.endKey)
    (hnew : s.replicas req.newRangeID = none) :
    r.split req s = .ok [prevDesc r req, postDesc r req]
      (fillRangeStats (s.add ⟨req.newRangeID, prevDesc r req⟩) r.rangeID req.newRangeID
        req.newRangeBytes req.newRangeCount) := by
  have hvalid : r.validateKeyRange req.splitKey = true :=
    (validateKeyRange_eq (hs.trans he) _).mpr ⟨hs.le, he⟩
  rw [split_run, if_neg (by simp [hid, hvalid]), if_neg (by simp [hnew])]

/-- A key that the range can be cut at is inside. -/
lemma Cut.inside (h : Cut r.rangeDesc eng splitSize k) :
    r.rangeDesc.startKey < k ∧ k < r.rangeDesc.endKey := by
  obtain ⟨e, hit⟩ := h
  exact ⟨hit.above, ((mem_spanEntries hit.key).mp hit.mem).2.2⟩

lemma cuts_of_first {e : MVCCKey × Entry}
    (hit : Hit (spanEntries r.rangeDesc eng) r.rangeDesc.startKey splitSize e k)
    (hfirst : ∀ y ∈ spanEntries r.rangeDesc eng, ∀ k,
      Hit (spanEntries r.rangeDesc eng) r.rangeDesc.startKey splitSize y k → e.1 ≤ y.1) :
    Cuts r eng splitSize k := by
  have hcut : Cut r.rangeDesc eng splitSize k := ⟨e, hit⟩
  refine ⟨⟨e, ((mem_spanEntries hit.key).mp hit.mem).1, hit.key⟩, hcut.inside, ⟨hcut, ?_⟩, ?_⟩
  · rintro k' ⟨y, hit'⟩
    exact key_le_of_le hit.key hit'.key (hfirst y hit'.mem k' hit')
  · rintro s req hid rfl hnew
    obtain ⟨hs, he⟩ := hcut.inside
    exact ⟨_, _, _, split_ok hid hs he hnew, partition_of_inside hs he⟩

end Cuts

/-- **The split key cuts strictly inside the range.** -/
theorem getSplitKey_cuts (r : Replica) (eng : Engine) (req : GetSplitKeyRequest)
    (henc : Encoded eng) :
    (∀ resp, r.getSplitKey eng req = .ok resp → Cuts r eng req.splitSize resp.splitKey) ∧
      ((∃ resp, r.getSplitKey eng req = .ok resp) ↔ ∃ k, Cut r.rangeDesc eng req.splitSize k) ∧
      (r.getSplitKey eng req = .error .noSplitKey ↔
        ∀ k, ¬ Cut r.rangeDesc eng req.splitSize k) := by
  have hout := getSplitKey_outcome (r := r) req henc
  cases hrun : r.getSplitKey eng req with
  | ok resp =>
    rw [hrun] at hout
    obtain ⟨e, -, hit, hfirst, -⟩ := hout
    have hcuts : Cuts r eng req.splitSize resp.splitKey := cuts_of_first hit hfirst
    refine ⟨fun resp' h => ?_, ⟨fun _ => ⟨_, e, hit⟩, fun _ => ⟨resp, rfl⟩⟩, ?_⟩
    · cases h
      exact hcuts
    · constructor
      · intro h
        cases h
      · intro h
        exact absurd ⟨e, hit⟩ (h resp.splitKey)
  | error err =>
    rw [hrun] at hout
    obtain ⟨rfl, hno⟩ := hout
    have hnone : ∀ k, ¬ Cut r.rangeDesc eng req.splitSize k := by
      rintro k ⟨e, hit⟩
      exact hno e hit.mem k hit
    refine ⟨fun resp h => ?_, ⟨?_, ?_⟩, ⟨fun _ => hnone, fun _ => rfl⟩⟩
    · cases h
    · rintro ⟨resp, h⟩
      cases h
    · rintro ⟨k, hk⟩
      exact absurd hk (hnone k)

/-- The range `[1, 9)` with the keys `2` and `3`, and keys of its neighbours. -/
def twoKeys : Replica := ⟨1, ⟨1, [1], [9], []⟩⟩

def twoKeysEngine : Engine :=
  ((((OrdMap.empty.put (newMVCCKey [0]) (.raw [5])).put (newMVCCKey [2]) (.raw [7])).put
    (newMVCCTimeKey [3] ⟨1, 0⟩) (.raw [7])).put (newMVCCKey [3]) (.raw [7])).put
    (newMVCCKey [9]) (.raw [5])

lemma encoded_twoKeys : Encoded twoKeysEngine := by
  have hempty : Encoded OrdMap.empty := fun e he => absurd he List.not_mem_nil
  have h0 := encoded_put hempty (metaKey_mem [0]) (.raw [5])
  have h2 := encoded_put h0 (metaKey_mem [2]) (.raw [7])
  have h3 := encoded_put h2 (versionKeys_subset _ (timeKey_mem [3] ⟨1, 0⟩)) (.raw [7])
  have h3' := encoded_put h3 (metaKey_mem [3]) (.raw [7])
  exact encoded_put h3' (metaKey_mem [9]) (.raw [5])

/-- The total reaches `5` at the metadata of `3`. -/
theorem getSplitKey_cuts_two_keys :
    twoKeys.getSplitKey twoKeysEngine ⟨⟨[1], .zero, 1, {}⟩, 5⟩ = .ok ⟨[3], 8, 2⟩ ∧
      Cuts twoKeys twoKeysEngine 5 [3] := by
  have hrun : twoKeys.getSplitKey twoKeysEngine ⟨⟨[1], .zero, 1, {}⟩, 5⟩ = .ok ⟨[3], 8, 2⟩ := by
    decide +kernel
  exact ⟨hrun, (getSplitKey_cuts twoKeys twoKeysEngine _ encoded_twoKeys).1 _ hrun⟩

/-! ### The statistics of the parts -/

/-- The request of `requestSplit` for an answer of `getSplitKey`. -/
def requestSplit (rangeID newID : RangeID) (resp : GetSplitKeyResponse) : SplitRequest :=
  { key := resp.splitKey
    rangeID := rangeID
    splitKey := resp.splitKey
    newRangeID := newID
    newRangeBytes := resp.rangeBytes
    newRangeCount := resp.rangeCount }

/-- The statistics that the store keeps for the range are those of its entries. -/
def StatsExact (s : Store) (d : RangeDescriptor) : Prop :=
  s.rangeStats d.rangeID = statsOf (spanEntries d s.eng)

/-- The answer of `getSplitKey` describes the left part, and a split with its values leaves both
parts with exact statistics if the range had them. -/
structure Describes (r : Replica) (s : Store) (resp : GetSplitKeyResponse) : Prop where
  left : ⟨resp.rangeBytes, resp.rangeCount⟩ =
    statsOf (spanEntries { r.rangeDesc with endKey := resp.splitKey } s.eng)
  parts : ∀ newID, s.replicas newID = none →
    s.rangeStats r.rangeID = statsOf (spanEntries r.rangeDesc s.eng) →
      ∃ prev post s', r.split (requestSplit r.rangeID newID resp) s = .ok [prev, post] s' ∧
        StatsExact s' prev ∧ StatsExact s' post

section Parts

variable {r : Replica} {s : Store} {eng : Engine} {l : List (MVCCKey × Entry)}

lemma statsOf_filter (p : MVCCKey × Entry → Bool) (l : List (MVCCKey × Entry)) :
    statsOf l = statsOf (l.filter p) + statsOf (l.filter fun e => !p e) := by
  have hperm := List.filter_append_perm p l
  have hbytes : byteTotal (l.filter p ++ l.filter fun e => !p e) = byteTotal l :=
    (hperm.map _).sum_eq
  rw [← statsOf_append, statsOf, statsOf, hbytes, hperm.length_eq]

/-- What `getSplitKey` has counted too much: the entries of the split key that it has passed. -/
def passed (d : RangeDescriptor) (eng : Engine) (k : Key) (x : MVCCKey) : List (MVCCKey × Entry) :=
  (upTo (spanEntries d eng) x).filter fun e => !decide (e.1 < newMVCCKey k)

/-- The part of a span below a key. -/
lemma filter_lt_span {d : RangeDescriptor} {k : Key} (h : Encoded eng) (he : k ≤ d.endKey) :
    (spanEntries d eng).filter (fun y => decide (y.1 < newMVCCKey k)) =
      spanEntries { d with endKey := k } eng := by
  rw [spanEntries, spanEntries, List.filter_filter]
  refine List.filter_congr fun y hy => ?_
  obtain ⟨k', hk'⟩ := h y hy
  rw [keyIn_eq hk', keyIn_eq hk', ← Bool.decide_and, decide_eq_decide, lt_newMVCCKey_iff hk']
  constructor
  · rintro ⟨h1, h2, -⟩
    exact ⟨h2, h1⟩
  · rintro ⟨h1, h2⟩
    exact ⟨h2, h1, h2.trans_le he⟩

/-- The part of a span from a key on. -/
lemma filter_ge_span {d : RangeDescriptor} {k : Key} (h : Encoded eng) (hs : d.startKey ≤ k) :
    (spanEntries d eng).filter (fun y => !decide (y.1 < newMVCCKey k)) =
      spanEntries { d with startKey := k } eng := by
  rw [spanEntries, spanEntries, List.filter_filter]
  refine List.filter_congr fun y hy => ?_
  obtain ⟨k', hk'⟩ := h y hy
  rw [keyIn_eq hk', keyIn_eq hk', ← decide_not, ← Bool.decide_and, decide_eq_decide,
    lt_newMVCCKey_iff hk', not_lt]
  constructor
  · rintro ⟨h1, -, h2⟩
    exact ⟨h1, h2⟩
  · rintro ⟨h1, h2⟩
    exact ⟨h1, hs.trans h1, h2⟩

lemma statsOf_upTo {d : RangeDescriptor} {e : MVCCKey × Entry} {k : Key} (h : Encoded eng)
    (hk : e.1 ∈ entryKeys k) (he : k ≤ d.endKey) :
    statsOf (upTo (spanEntries d eng) e.1) =
      statsOf (spanEntries { d with endKey := k } eng) + statsOf (passed d eng k e.1) := by
  have hle : newMVCCKey k ≤ e.1 := by
    rw [← not_lt, lt_newMVCCKey_iff hk]
    exact lt_irrefl k
  have hleft : (upTo (spanEntries d eng) e.1).filter (fun y => decide (y.1 < newMVCCKey k)) =
      spanEntries { d with endKey := k } eng := by
    rw [← filter_lt_span h he, upTo, List.filter_filter]
    refine List.filter_congr fun y _ => ?_
    by_cases hy : y.1 < newMVCCKey k
    · simp [hy, (hy.trans_le hle).le]
    · simp [hy]
  rw [statsOf_filter (fun y => decide (y.1 < newMVCCKey k)), hleft, passed]

lemma length_passed_le (d : RangeDescriptor) (eng : Engine) (k : Key) (x : MVCCKey) :
    (passed d eng k x).length ≤ eng.entries.length := by
  refine (List.length_filter_le _ _).trans ((List.length_filter_le _ _).trans ?_)
  exact List.length_filter_le _ _

lemma mem_passed {d : RangeDescriptor} {e : MVCCKey × Entry} {k : Key}
    (he : e ∈ spanEntries d eng) (hk : e.1 ∈ entryKeys k) : e ∈ passed d eng k e.1 := by
  refine List.mem_filter.mpr ⟨List.mem_filter.mpr ⟨he, decide_eq_true le_rfl⟩, ?_⟩
  simpa using (lt_newMVCCKey_iff hk k).not.mpr (lt_irrefl k)

lemma statsOf_ne_zero (hne : l ≠ []) (hlen : l.length < 2 ^ 64) : statsOf l ≠ 0 := by
  intro h
  have hcount : Int64.ofNat l.length = 0 := congrArg RangeStats.totalCount h
  have hmod : l.length % 2 ^ 64 = 0 := by
    have := congrArg (fun i : Int64 => i.toBitVec.toNat) hcount
    simpa using this
  rw [Nat.mod_eq_of_lt hlen] at hmod
  exact hne (List.length_eq_zero_iff.mp hmod)

lemma fillRangeStats_new {oldID newID : RangeID} (h : newID ≠ oldID) (b c : Int64) :
    (fillRangeStats s oldID newID b c).rangeStats newID = ⟨b, c⟩ := by
  simp [fillRangeStats, h]

lemma fillRangeStats_old {oldID newID : RangeID} (h : newID ≠ oldID) (b c : Int64) :
    (fillRangeStats s oldID newID b c).rangeStats oldID = s.rangeStats oldID - ⟨b, c⟩ := by
  simp only [fillRangeStats, Function.update_self, Function.update_of_ne h.symm]
  rfl

/-- **What a split makes of the statistics.** The answer counts the left part and the entries of
the split key up to the one the walk stopped at, and the right part is left without these. -/
theorem rangeStats_split {req : GetSplitKeyRequest} {resp : GetSplitKeyResponse} {newID : RangeID}
    (henc : Encoded s.eng) (hok : r.getSplitKey s.eng req = .ok resp)
    (hnew : s.replicas newID = none) (hne : newID ≠ r.rangeID)
    (hexact : s.rangeStats r.rangeID = statsOf (spanEntries r.rangeDesc s.eng)) :
    ∃ e ∈ s.eng.entries, e.1 ∈ entryKeys resp.splitKey ∧ ∃ prev post s',
      r.split (requestSplit r.rangeID newID resp) s = .ok [prev, post] s' ∧
      s'.rangeStats newID = statsOf (spanEntries prev s.eng) +
        statsOf (passed r.rangeDesc s.eng resp.splitKey e.1) ∧
      s'.rangeStats r.rangeID = statsOf (spanEntries post s.eng) -
        statsOf (passed r.rangeDesc s.eng resp.splitKey e.1) := by
  have hout := getSplitKey_outcome (r := r) req henc
  rw [hok] at hout
  obtain ⟨e, -, hit, -, hstats⟩ := hout
  obtain ⟨hs, he⟩ := Cut.inside (r := r) ⟨e, hit⟩
  rw [statsOf_upTo henc hit.key he.le] at hstats
  refine ⟨e, ((mem_spanEntries hit.key).mp hit.mem).1, hit.key, _, _, _,
    split_ok rfl hs he hnew, ?_, ?_⟩
  · exact (fillRangeStats_new hne _ _).trans hstats
  · have hold : s.rangeStats r.rangeID - ⟨resp.rangeBytes, resp.rangeCount⟩ =
        statsOf (spanEntries { r.rangeDesc with startKey := resp.splitKey } s.eng) -
          statsOf (passed r.rangeDesc s.eng resp.splitKey e.1) := by
      rw [hexact, hstats, statsOf_filter (fun y => decide (y.1 < newMVCCKey resp.splitKey)),
        filter_lt_span henc he.le, filter_ge_span henc hs.le, add_sub_add_left_eq_sub]
    exact (fillRangeStats_old hne _ _).trans hold

/-- **When the statistics of a split describe the parts:** never, if there is a split key. The
engine has fewer entries than the counter can count. -/
theorem splitStats_iff (r : Replica) (s : Store) (req : GetSplitKeyRequest)
    (henc : Encoded s.eng) (hlen : s.eng.entries.length < 2 ^ 64) :
    (∀ resp, r.getSplitKey s.eng req = .ok resp → Describes r s resp) ↔
      ∀ k, ¬ Cut r.rangeDesc s.eng req.splitSize k := by
  have hout := getSplitKey_outcome (r := r) req henc
  constructor
  · rintro hall k ⟨y, hy⟩
    cases hrun : r.getSplitKey s.eng req with
    | error err =>
      rw [hrun] at hout
      exact hout.2 y hy.mem k hy
    | ok resp =>
      rw [hrun] at hout
      obtain ⟨e, -, hit, -, hstats⟩ := hout
      have hend := ((mem_spanEntries hit.key).mp hit.mem).2.2
      -- the entry at which the walk stopped is counted, and it is not in the left part
      rw [statsOf_upTo henc hit.key hend.le, (hall resp hrun).left, left_eq_add] at hstats
      exact statsOf_ne_zero (List.ne_nil_of_mem (mem_passed hit.mem hit.key))
        ((length_passed_le _ _ _ _).trans_lt hlen) hstats
  · intro hno resp hok
    rw [hok] at hout
    obtain ⟨e, -, hit, -⟩ := hout
    exact absurd ⟨e, hit⟩ (hno resp.splitKey)

end Parts

/-- A store with the two keys, and their statistics. -/
def twoKeysStore : Store :=
  { Store.empty.add twoKeys with
    eng := twoKeysEngine
    rangeStats := fun _ => ⟨24, 3⟩ }

/-- No total reaches the split size, and there is no answer. -/
theorem splitStats_no_key :
    twoKeys.getSplitKey twoKeysStore.eng ⟨⟨[1], .zero, 1, {}⟩, 100⟩ = .error .noSplitKey ∧
      ∀ resp, twoKeys.getSplitKey twoKeysStore.eng ⟨⟨[1], .zero, 1, {}⟩, 100⟩ = .ok resp →
        Describes twoKeys twoKeysStore resp := by
  have hrun : twoKeys.getSplitKey twoKeysEngine ⟨⟨[1], .zero, 1, {}⟩, 100⟩ =
      .error .noSplitKey := by
    decide +kernel
  refine ⟨hrun, (splitStats_iff twoKeys twoKeysStore _ encoded_twoKeys (by decide)).mpr ?_⟩
  have hout := getSplitKey_outcome (r := twoKeys) ⟨⟨[1], .zero, 1, {}⟩, 100⟩ encoded_twoKeys
  rw [hrun] at hout
  rintro k ⟨e, hit⟩
  exact hout.2 e hit.mem k hit

/-- The answer counts the metadata of `3`, which the cut puts in the right part: the left part
has one entry of four bytes. -/
theorem splitStats_stop_counted :
    twoKeysStore.rangeStats 1 = statsOf (spanEntries twoKeys.rangeDesc twoKeysStore.eng) ∧
      twoKeys.getSplitKey twoKeysStore.eng ⟨⟨[1], .zero, 1, {}⟩, 5⟩ = .ok ⟨[3], 8, 2⟩ ∧
      statsOf (spanEntries ⟨2, [1], [3], []⟩ twoKeysStore.eng) = ⟨4, 1⟩ ∧
      statsOf (spanEntries ⟨1, [3], [9], []⟩ twoKeysStore.eng) = ⟨20, 2⟩ ∧
      (stateAfter (twoKeys.split (requestSplit 1 2 ⟨[3], 8, 2⟩)) twoKeysStore).rangeStats 2 =
        ⟨8, 2⟩ ∧
      (stateAfter (twoKeys.split (requestSplit 1 2 ⟨[3], 8, 2⟩)) twoKeysStore).rangeStats 1 =
        ⟨16, 1⟩ ∧
      ¬ Describes twoKeys twoKeysStore ⟨[3], 8, 2⟩ := by
  have hleft : (⟨8, 2⟩ : RangeStats) ≠
      statsOf (spanEntries { twoKeys.rangeDesc with endKey := [3] } twoKeysStore.eng) := by
    decide +kernel
  refine ⟨by decide +kernel, by decide +kernel, by decide +kernel, by decide +kernel,
    by decide +kernel, by decide +kernel, fun h => hleft h.left⟩

end Ancestor.SplitKey
