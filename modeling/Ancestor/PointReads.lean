import Ancestor.Reads
import Ancestor.Scan

/-!
Scans and point reads.

A scan in either direction ends, and what it returns is what reads of the single keys of its
interval return. Forward it goes from key to key by seeks; backward it meets a key's oldest
version first, and steps over the key from its metadata.
-/

namespace Ancestor

section Rows

variable {eng : Engine} {txn : Transaction} {ts : Timestamp} {s e : Key} {k : Key} {n : ℕ}

lemma sorted_keysIn (hok : EngineOk eng) : (keysIn eng s e).Pairwise (· < ·) :=
  (sorted_keysOf hok).filter _

lemma mem_keysIn : k ∈ keysIn eng s e ↔ k ∈ keysOf eng ∧ s ≤ k ∧ k < e := by
  rw [keysIn, List.mem_filter, decide_eq_true_iff]

/-- A key without entries is absent. -/
lemma getInternal_of_not_mem (hok : EngineOk eng) (hk : k ≠ []) (h : k ∉ keysOf eng) :
    getInternal eng k ts txn = .ok none := by
  have hget : eng.get (newMVCCKey k) = none := by
    cases hg : eng.get (newMVCCKey k) with
    | none => rfl
    | some x => exact absurd ((mem_keysOf hok).mpr ⟨_, x, hg, .inl rfl⟩) h
  rw [getInternal_eq (fun x hx => by simp [hget] at hx) hk]
  simp only [metaAt, hget]

lemma mem_keysIn_of_error (hok : EngineOk eng) (hk : k ≠ []) {err : Err}
    (h : getInternal eng k ts txn = .error err) (hs : s ≤ k) (he : k < e) : k ∈ keysIn eng s e := by
  refine mem_keysIn.mpr ⟨by_contra fun hin => ?_, hs, he⟩
  rw [getInternal_of_not_mem hok hk hin] at h
  cases h

/-- The rows that reads of the single keys of `[s, e)` find. -/
def rowsIn (eng : Engine) (ts : Timestamp) (txn : Transaction) (s e : Key) : List KeyValue :=
  (keysIn eng s e).filterMap (rowOf eng ts txn)

lemma rowOf_eq_some {row : KeyValue} :
    rowOf eng ts txn k = some row ↔
      row.key = k ∧ getInternal eng k ts txn = .ok (some row.value) ∧ row.value.bytes ≠ [] := by
  constructor
  · intro h
    refine ⟨key_of_rowOf h, ?_⟩
    unfold rowOf at h
    split at h
    · rename_i value hget
      split_ifs at h with hempty
      cases h
      exact ⟨hget, by simpa using hempty⟩
    · cases h
  · rintro ⟨rfl, hget, hne⟩
    rw [rowOf, hget]
    exact if_neg (by simpa using hne)

lemma sorted_rowsIn (hok : EngineOk eng) :
    (rowsIn eng ts txn s e).Pairwise fun a b => a.key < b.key := by
  rw [rowsIn, filterMap_keysIn]
  exact (sorted_rowsOf hok).filter _

lemma mem_rowsIn (hok : EngineOk eng) (hs : s ≠ []) {row : KeyValue} :
    row ∈ rowsIn eng ts txn s e ↔ s ≤ row.key ∧ row.key < e ∧
      getInternal eng row.key ts txn = .ok (some row.value) ∧ row.value.bytes ≠ [] := by
  rw [rowsIn, List.mem_filterMap]
  constructor
  · rintro ⟨k, hk, hrow⟩
    obtain ⟨rfl, hget, hne⟩ := rowOf_eq_some.mp hrow
    obtain ⟨-, hle, hlt⟩ := mem_keysIn.mp hk
    exact ⟨hle, hlt, hget, hne⟩
  · rintro ⟨hle, hlt, hget, hne⟩
    refine ⟨row.key, mem_keysIn.mpr ⟨by_contra fun hin => ?_, hle, hlt⟩,
      rowOf_eq_some.mpr ⟨rfl, hget, hne⟩⟩
    rw [getInternal_of_not_mem hok (ne_nil_of_le hs hle) hin] at hget
    cases hget

/-- The keys before `k` in a sorted list are those below it. -/
lemma eq_filter_of_append {ks before after : List Key} (hs : ks.Pairwise (· < ·))
    (h : ks = before ++ k :: after) : before = ks.filter fun k' => decide (k' < k) := by
  subst h
  obtain ⟨-, hafter, hbefore⟩ := List.pairwise_append.mp hs
  have hlt : ∀ a ∈ before, decide (a < k) = true := fun a ha => by
    simpa using hbefore a ha k List.mem_cons_self
  have hge : ∀ a ∈ k :: after, ¬ decide (a < k) = true := fun a ha => by
    rcases List.mem_cons.mp ha with rfl | ha
    · simp
    · simpa using ((List.pairwise_cons.mp hafter).1 a ha).le
  rw [List.filter_append, List.filter_eq_self.mpr hlt, List.filter_eq_nil_iff.mpr hge,
    List.append_nil]

/-- The keys that stop a forward scan are those that err before its rows are complete. -/
lemma stops_keysIn (hok : EngineOk eng) (hs : s ≠ []) :
    (∃ k, Stops eng ts txn n (keysIn eng s e) [] k) ↔
      ∃ k, s ≤ k ∧ k < e ∧ (∃ err, getInternal eng k ts txn = .error err) ∧
        (n = 0 ∨ ((rowsIn eng ts txn s e).filter fun row => decide (row.key < k)).length < n) := by
  have hrows : ∀ {before after k}, keysIn eng s e = before ++ k :: after →
      before.filterMap (rowOf eng ts txn) =
        (rowsIn eng ts txn s e).filter fun row => decide (row.key < k) := fun {before _ k} h => by
    rw [eq_filter_of_append (sorted_keysIn hok) h, rowsIn, List.filter_filterMap,
      List.filterMap_filter]
    refine List.filterMap_congr fun k' _ => ?_
    cases hrow : rowOf eng ts txn k' with
    | none => simp
    | some row => simp [Option.filter, key_of_rowOf hrow]
  constructor
  · rintro ⟨k, before, after, heq, herr, hlt⟩
    obtain ⟨-, hle, hke⟩ := mem_keysIn.mp (show k ∈ keysIn eng s e by rw [heq]; simp)
    refine ⟨k, hle, hke, herr, ?_⟩
    rwa [List.length_nil, Nat.zero_add, hrows heq] at hlt
  · rintro ⟨k, hle, hke, ⟨err, herr⟩, hlt⟩
    obtain ⟨before, after, heq⟩ := List.append_of_mem
      (mem_keysIn_of_error hok (ne_nil_of_le hs hle) herr hle hke)
    refine ⟨k, before, after, heq, ⟨err, herr⟩, ?_⟩
    rwa [List.length_nil, Nat.zero_add, hrows heq]

end Rows

/-! ### Forward -/

section Forward

variable {eng : Engine} {txn : Transaction} {ts : Timestamp} {max : Int64} {startKey endKey : Key}

lemma limit_eq_zero (hmax : 0 ≤ max) : limit max = 0 ↔ max = 0 := by
  have hle : (0 : Int) ≤ max.toInt := Int64.le_iff_toInt_le.mp hmax
  rw [limit, ← Int64.toInt_inj, Int64.toInt_zero]
  omega

/-- **A forward scan equals point reads.** -/
theorem scanInternal_point_reads (hok : EngineOk eng) (hstart : startKey ≠ []) (hmax : 0 ≤ max) :
    ∃ result rows, ScanEnds eng txn ts max false startKey endKey result ∧
      scanInternal eng startKey endKey txn ts max false = result ∧
      rows.Pairwise (fun a b => a.key < b.key) ∧
      (∀ k v, ⟨k, v⟩ ∈ rows ↔ startKey ≤ k ∧ k < endKey ∧
        getInternal eng k ts txn = .ok (some v) ∧ v.bytes ≠ []) ∧
      ((∃ err, result = .error err) ↔ ∃ k, startKey ≤ k ∧ k < endKey ∧
        (∃ err, getInternal eng k ts txn = .error err) ∧
        (max = 0 ∨ (rows.filter fun row => decide (row.key < k)).length < max.toInt)) ∧
      ((∀ err, result ≠ .error err) →
        result = .ok (if max = 0 then rows else rows.take max.toInt.toNat)) := by
  have hends : ScanEnds eng txn ts max false startKey endKey _ :=
    scanEnds_forward hok startKey endKey
  have hlimit : ∀ l : ℕ, l < limit max ↔ (l : Int) < max.toInt := fun l => by
    rw [limit]
    omega
  refine ⟨_, rowsIn eng ts txn startKey endKey, hends, scanInternal_of_ends _ _ _ _ _ hstart hends,
    sorted_rowsIn hok, fun k v => mem_rowsIn hok hstart, ?_, fun hno => ?_⟩
  · rw [← limit_eq_zero hmax]
    simp only [← hlimit, ← stops_keysIn hok hstart]
    rcases collect_cases (keysIn eng startKey endKey) (nil_room _) with
      ⟨herr, hstop⟩ | ⟨hrows, hstop⟩
    · exact iff_of_true herr hstop
    · refine iff_of_false ?_ (not_exists.mpr hstop)
      rintro ⟨err, herr⟩
      rw [hrows] at herr
      cases herr
  · rcases collect_cases (keysIn eng startKey endKey) (nil_room _) with
      ⟨⟨err, herr⟩, -⟩ | ⟨hrows, -⟩
    · exact absurd herr (hno err)
    · rw [hrows, List.nil_append]
      simp only [cut, limit_eq_zero hmax]
      rfl

theorem scanInternal_point_reads_neighbours :
    ∃ result, ScanEnds neighbours {} ⟨5, 0⟩ 1 false [97] [98] result ∧
      scanInternal neighbours [97] [98] {} ⟨5, 0⟩ 1 false = result ∧
      result = .ok [⟨[97], { bytes := [49] }⟩] := by
  have hstart : ([97] : Key) ≠ [] := by decide
  have hmax : (0 : Int64) ≤ 1 := by decide
  obtain ⟨result, rows, hends, hscan, -⟩ :=
    scanInternal_point_reads engineOk_neighbours hstart hmax
  exact ⟨result, hends, hscan, hscan.symm.trans (by decide +kernel)⟩

end Forward

/-! ### Backward -/

section Backward

variable {eng : Engine} {txn : Transaction} {ts : Timestamp} {max : Int64} {startKey endKey : Key}

/-- Every version stands below the metadata of its key. -/
def Headed (eng : Engine) : Prop :=
  ∀ k t, eng.get (newMVCCTimeKey k t) ≠ none → eng.get (newMVCCKey k) ≠ none

lemma Headed.get (h : Headed eng) (hok : EngineOk eng) {k : Key} (hk : k ∈ keysOf eng) :
    ∃ e, eng.get (newMVCCKey k) = some e := by
  obtain ⟨x, e, he, rfl | ⟨t, -, rfl⟩⟩ := (mem_keysOf hok).mp hk
  · exact ⟨e, he⟩
  · exact Option.ne_none_iff_exists'.mp (h k t (by simp [he]))

/-- The keys below `b`, from the greatest one down. -/
def keysBelow (eng : Engine) (b : Key) : List Key :=
  ((keysOf eng).filter fun k => decide (k < b)).reverse

lemma mem_keysBelow {b k : Key} : k ∈ keysBelow eng b ↔ k ∈ keysOf eng ∧ k < b := by
  rw [keysBelow, List.mem_reverse, List.mem_filter, decide_eq_true_iff]

lemma sorted_keysBelow (hok : EngineOk eng) (b : Key) : (keysBelow eng b).Pairwise (· > ·) :=
  List.pairwise_reverse.mpr ((sorted_keysOf hok).filter _)

/-- Past the first key below `b`, the keys go on with those below it. -/
lemma keysBelow_next (hok : EngineOk eng) {b k : Key} {ks : List Key}
    (h : keysBelow eng b = k :: ks) : keysBelow eng k = ks := by
  have hsorted := sorted_keysBelow hok b
  have hkb : k < b := (mem_keysBelow.mp (h ▸ List.mem_cons_self : k ∈ keysBelow eng b)).2
  have hfilter : keysBelow eng k = (keysBelow eng b).filter fun k' => decide (k' < k) := by
    rw [keysBelow, keysBelow, ← List.filter_reverse, ← List.filter_reverse, List.filter_filter]
    refine List.filter_congr fun k' _ => ?_
    rw [← Bool.decide_and, decide_eq_decide]
    exact ⟨fun hlt => ⟨hlt, hlt.trans hkb⟩, And.left⟩
  rw [h] at hfilter hsorted
  rw [hfilter, List.filter_cons_of_neg (by simp), List.filter_eq_self]
  exact fun k' hk' => by simpa using (List.pairwise_cons.mp hsorted).1 k' hk'

lemma IsEntryOf.lt_key_iff {k b : Key} {x : MVCCKey} (h : IsEntryOf k x) :
    x < newMVCCKey b ↔ k < b := by
  rw [← not_le, h.key_le_iff, not_le]

/-- **A cursor that goes down from a key stands on an entry of the first key below it.** -/
theorem below_keysBelow (hok : EngineOk eng) (b : Key) :
    match keysBelow eng b with
    | [] => eng.below (newMVCCKey b) = []
    | k :: _ => ∃ x e l, eng.below (newMVCCKey b) = (x, e) :: l ∧ IsEntryOf k x := by
  cases hbelow : eng.below (newMVCCKey b) with
  | nil =>
    cases hks : keysBelow eng b with
    | nil => rfl
    | cons k ks =>
      obtain ⟨hk, hlt⟩ := mem_keysBelow.mp (hks ▸ List.mem_cons_self : k ∈ keysBelow eng b)
      obtain ⟨x, e, he, hent⟩ := (mem_keysOf hok).mp hk
      have hmem := eng.mem_below.mpr ⟨hent.lt_key_iff.mpr hlt, he⟩
      rw [hbelow] at hmem
      cases hmem
  | cons p l =>
    obtain ⟨x, e⟩ := p
    obtain ⟨hlt, he, hmost⟩ := eng.below_head hbelow
    obtain ⟨k₀, hent₀⟩ := hok.keysOk x e he
    have hk₀ : k₀ ∈ keysBelow eng b :=
      mem_keysBelow.mpr ⟨(mem_keysOf hok).mpr ⟨x, e, he, hent₀⟩, hent₀.lt_key_iff.mp hlt⟩
    have hsorted := sorted_keysBelow hok b
    cases hks : keysBelow eng b with
    | nil => rw [hks] at hk₀; cases hk₀
    | cons k ks =>
      obtain ⟨hk, hkb⟩ := mem_keysBelow.mp (hks ▸ List.mem_cons_self : k ∈ keysBelow eng b)
      rw [hks] at hk₀ hsorted
      rcases List.mem_cons.mp hk₀ with rfl | hin
      · exact ⟨x, e, l, rfl, hent₀⟩
      · -- an entry of a greater key would come first
        obtain ⟨x', e', he', hent⟩ := (mem_keysOf hok).mp hk
        have hgt := (List.pairwise_cons.mp hsorted).1 k₀ hin
        exact absurd (hmost x' e' (hent.lt_key_iff.mpr hkb) he')
          (not_le.mpr (hent₀.lt_of_lt hgt hent))

lemma meets_below (hok : EngineOk eng) (hhead : Headed eng) (b : Key) :
    Meets eng true (eng.below (newMVCCKey b)) (keysBelow eng b) := by
  generalize hks : keysBelow eng b = ks
  induction ks generalizing b with
  | nil =>
    have hbelow := below_keysBelow hok b
    rw [hks] at hbelow
    rw [hbelow]
    exact .nil
  | cons k ks ih =>
    have hbelow := below_keysBelow hok b
    rw [hks] at hbelow
    obtain ⟨x, e, l, hbelow, hent⟩ := hbelow
    -- the metadata that the loop seeks is there, and it steps over it
    have hnext : nextIter eng true k = eng.below (newMVCCKey k) := by
      have hk := (mem_keysBelow.mp (hks ▸ List.mem_cons_self : k ∈ keysBelow eng b)).1
      obtain ⟨e', he'⟩ := hhead.get hok hk
      rw [nextIter, if_pos rfl, eng.seekReverse_of_get he', List.tail_cons]
    rw [hbelow]
    exact .cons hent (hnext ▸ ih k (keysBelow_next hok hks))

/-- The first position leaves out the end key itself. -/
lemma scanFirst_reverse (eng : Engine) (startKey endKey : Key) :
    scanFirst eng true startKey endKey = eng.below (newMVCCKey endKey) := by
  rw [scanFirst, if_pos rfl]
  cases hget : eng.get (newMVCCKey endKey) with
  | some e => rw [eng.seekReverse_of_get hget]; simp
  | none =>
    rw [eng.seekReverse_of_none hget]
    cases hbelow : eng.below (newMVCCKey endKey) with
    | nil => rfl
    | cons p l => exact if_neg (not_not.mpr (eng.below_head hbelow).1)

lemma takeWhile_keysBelow (hok : EngineOk eng) (s e : Key) :
    (keysBelow eng e).takeWhile (inBound s true) = (keysIn eng s e).reverse := by
  rw [OrdMap.takeWhile_eq_filter (sorted_keysBelow hok e), keysBelow, keysIn, ← List.filter_reverse,
    List.filter_filter, ← List.filter_reverse]
  · refine List.filter_congr fun k _ => ?_
    simp [inBound]
  · intro a b hab hb
    simpa [inBound] using (show s ≤ b by simpa [inBound] using hb).trans (le_of_lt hab)

/-- **A backward scan reads the keys of its interval from the last one down** and ends. -/
theorem scanEnds_reverse (hok : EngineOk eng) (hhead : Headed eng) (startKey endKey : Key) :
    ScanEnds eng txn ts max true startKey endKey
      (collect (getInternal eng · ts txn) (limit max) (keysIn eng startKey endKey).reverse []) := by
  have hfuel : (keysBelow eng endKey).length < eng.entries.length + 1 := by
    rw [keysBelow, List.length_reverse]
    exact Nat.lt_succ_of_le ((List.length_filter_le _ _).trans (length_keysOf_le eng))
  unfold ScanEnds
  rw [← takeWhile_keysBelow hok, scanFirst_reverse]
  exact scanTurns_meets startKey (meets_below hok hhead endKey) hfuel (nil_room _)

/-- Without a limit, the reads of a list of keys succeed when each of them does. -/
lemma collect_zero_iff {ks : List Key} {l : List KeyValue} :
    collect (getInternal eng · ts txn) 0 ks [] = .ok l ↔
      (∀ k ∈ ks, ∀ err, getInternal eng k ts txn ≠ .error err) ∧
        l = ks.filterMap (rowOf eng ts txn) := by
  rcases collect_cases ks (nil_room 0) with
    ⟨⟨err, herr⟩, k, before, after, rfl, hk, -⟩ | ⟨hrows, hstop⟩
  · obtain ⟨err', hk⟩ := hk
    refine iff_of_false (fun h => ?_) fun h => h.1 k (by simp) err' hk
    rw [herr] at h
    cases h
  · rw [hrows, Except.ok.injEq]
    refine ⟨fun h => ⟨fun k hk err herr => ?_, h.symm⟩, fun h => h.2.symm⟩
    obtain ⟨before, after, heq⟩ := List.append_of_mem hk
    exact hstop k ⟨before, after, heq, ⟨err, herr⟩, .inl rfl⟩

/-- The reads of keys from the last one down return the last rows. -/
lemma collect_reverse {ks : List Key} {l : List KeyValue} {n : ℕ} (hn : n ≠ 0)
    (h : collect (getInternal eng · ts txn) n ks.reverse [] = .ok l) :
    l = ((ks.filterMap (rowOf eng ts txn)).drop
      ((ks.filterMap (rowOf eng ts txn)).length - n)).reverse := by
  rcases collect_cases ks.reverse (nil_room _) with ⟨⟨err, herr⟩, -⟩ | ⟨hrows, -⟩
  · rw [herr] at h
    cases h
  · rw [hrows, List.nil_append, List.filterMap_reverse, cut, if_neg hn, Except.ok.injEq] at h
    rw [← h, List.take_reverse]

/-- Reads that all succeed, do so under any limit and in the other order. -/
lemma collect_reverse_ok {ks : List Key} (n : ℕ)
    (h : ∀ k ∈ ks, ∀ err, getInternal eng k ts txn ≠ .error err) :
    ∃ l, collect (getInternal eng · ts txn) n ks.reverse [] = .ok l := by
  rcases collect_cases ks.reverse (nil_room _) with
    ⟨-, k, before, after, heq, ⟨err, herr⟩, -⟩ | ⟨hrows, -⟩
  · have hk : k ∈ ks.reverse := heq ▸ by simp
    exact absurd herr (h k (List.mem_reverse.mp hk) err)
  · exact ⟨_, hrows⟩

/-- A forward scan without a limit succeeds when every key of the interval can be read. -/
lemma scanInternal_forward_iff (hok : EngineOk eng) (hstart : startKey ≠ []) {l : List KeyValue} :
    scanInternal eng startKey endKey txn ts 0 false = .ok l ↔
      (∀ k ∈ keysIn eng startKey endKey, ∀ err, getInternal eng k ts txn ≠ .error err) ∧
        l = rowsIn eng ts txn startKey endKey := by
  rw [scanInternal_of_ends _ _ _ _ _ hstart (scanEnds_forward hok startKey endKey)]
  exact collect_zero_iff

/-- A backward scan is the reads of the keys from the last one down. -/
lemma scanInternal_reverse (hok : EngineOk eng) (hhead : Headed eng) (hstart : startKey ≠ []) :
    scanInternal eng startKey endKey txn ts max true =
      collect (getInternal eng · ts txn) (limit max) (keysIn eng startKey endKey).reverse [] :=
  scanInternal_of_ends _ _ _ _ _ hstart (scanEnds_reverse hok hhead startKey endKey)

/-- A backward scan without a limit succeeds under the same condition. -/
lemma scanInternal_reverse_iff (hok : EngineOk eng) (hhead : Headed eng) (hstart : startKey ≠ [])
    {l : List KeyValue} :
    scanInternal eng startKey endKey txn ts 0 true = .ok l ↔
      (∀ k ∈ keysIn eng startKey endKey, ∀ err, getInternal eng k ts txn ≠ .error err) ∧
        l = (rowsIn eng ts txn startKey endKey).reverse := by
  rw [scanInternal_reverse hok hhead hstart, rowsIn, ← List.filterMap_reverse]
  have hmem : ∀ k, k ∈ keysIn eng startKey endKey ↔ k ∈ (keysIn eng startKey endKey).reverse :=
    fun k => List.mem_reverse.symm
  simp only [hmem]
  exact collect_zero_iff

lemma limit_ne_zero (hmax : 0 < max) : limit max ≠ 0 := by
  have hlt : (0 : Int) < max.toInt := Int64.lt_iff_toInt_lt.mp hmax
  rw [limit]
  omega

/-- **A backward scan is the forward scan backwards.** -/
theorem scanInternal_backwards (hok : EngineOk eng) (hhead : Headed eng) (hstart : startKey ≠ []) :
    ∃ rows : List KeyValue, rows.Pairwise (fun a b => a.key < b.key) ∧
      (∀ k v, ⟨k, v⟩ ∈ rows ↔ startKey ≤ k ∧ k < endKey ∧
        getInternal eng k ts txn = .ok (some v) ∧ v.bytes ≠ []) ∧
      ScanEnds eng txn ts 0 true startKey endKey (scanInternal eng startKey endKey txn ts 0 true) ∧
      ((∃ l, scanInternal eng startKey endKey txn ts 0 true = .ok l) ↔
        ∃ l, scanInternal eng startKey endKey txn ts 0 false = .ok l) ∧
      (∀ l, scanInternal eng startKey endKey txn ts 0 false = .ok l →
        l = rows ∧ scanInternal eng startKey endKey txn ts 0 true = .ok l.reverse) ∧
      ∀ max, 0 < max →
        ScanEnds eng txn ts max true startKey endKey
          (scanInternal eng startKey endKey txn ts max true) ∧
        ((∃ l, scanInternal eng startKey endKey txn ts 0 false = .ok l) →
          ∃ l, scanInternal eng startKey endKey txn ts max true = .ok l) ∧
        ∀ l, scanInternal eng startKey endKey txn ts max true = .ok l →
          l = (rows.drop (rows.length - max.toInt.toNat)).reverse := by
  have hends : ∀ max, ScanEnds eng txn ts max true startKey endKey
      (scanInternal eng startKey endKey txn ts max true) := fun max => by
    rw [scanInternal_reverse hok hhead hstart]
    exact scanEnds_reverse hok hhead startKey endKey
  refine ⟨rowsIn eng ts txn startKey endKey, sorted_rowsIn hok, fun k v => mem_rowsIn hok hstart,
    hends 0, ?_, fun l hl => ?_, fun max hmax => ⟨hends max, ?_, fun l hl => ?_⟩⟩
  · simp only [scanInternal_forward_iff hok hstart, scanInternal_reverse_iff hok hhead hstart,
      exists_and_left, exists_eq, and_true]
  · obtain ⟨hread, rfl⟩ := (scanInternal_forward_iff hok hstart).mp hl
    exact ⟨rfl, (scanInternal_reverse_iff hok hhead hstart).mpr ⟨hread, rfl⟩⟩
  · rintro ⟨l, hl⟩
    rw [scanInternal_reverse hok hhead hstart]
    exact collect_reverse_ok _ ((scanInternal_forward_iff hok hstart).mp hl).1
  · rw [scanInternal_reverse hok hhead hstart] at hl
    exact collect_reverse (limit_ne_zero hmax) hl

lemma headed_neighbours : Headed neighbours := by
  intro k t h
  by_cases ha : k = [97]
  · simp [neighbours, newMVCCKey_inj, newMVCCKey_ne_timeKey, ha]
  · by_cases hz : k = [97, 0]
    · simp [neighbours, newMVCCKey_inj, newMVCCKey_ne_timeKey, hz]
    · exact absurd (by simp [neighbours, newMVCCTimeKey_inj, newMVCCTimeKey_ne_key, ha, hz]) h

theorem scanInternal_backwards_neighbours :
    scanInternal neighbours [97] [98] {} ⟨5, 0⟩ 0 true =
      .ok [⟨[97, 0], { bytes := [51] }⟩, ⟨[97], { bytes := [49] }⟩] := by
  have hstart : ([97] : Key) ≠ [] := by decide
  have hfwd : scanInternal neighbours [97] [98] {} ⟨5, 0⟩ 0 false =
      .ok [⟨[97], { bytes := [49] }⟩, ⟨[97, 0], { bytes := [51] }⟩] := by decide +kernel
  obtain ⟨rows, -, -, -, -, hzero, -⟩ :=
    scanInternal_backwards engineOk_neighbours headed_neighbours hstart
  exact (hzero _ hfwd).2

end Backward

end Ancestor
