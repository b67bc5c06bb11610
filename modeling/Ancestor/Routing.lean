import Ancestor.SystemRange
import Ancestor.Store
import Ancestor.Scan

/-!
Which range holds a key: the four tests of the system, for one descriptor.

The placement driver looks the greatest start key at or below the key up and compares with the
end key (`util/cache/range_cache.go`); the client queries a tree of intervals with a comparison
that takes an empty bound for the end of the key space (`client/range_cache.go`); a node compares
the key with the bounds of its replica (`storage/replica.go`); and a scan stops at the encoded
end key (`storage/replica_command.go`).
-/

namespace Ancestor

variable {rd : RangeDescriptor} {key : Key}

/-! ### The placement driver -/

/-- `Lookup` in a cache that holds just the descriptor finds it. -/
def PdFinds (minReplica : Int) (rd : RangeDescriptor) (key : Key) : Prop :=
  (RangeDescriptorCache.add { minReplica } [rd]).lookup key = some rd

lemma pdFinds_iff (minReplica : Int) :
    PdFinds minReplica rd key ↔ rd.startKey ≤ key ∧ key < rd.endKey := by
  have hget : ∀ k, (RangeDescriptorCache.add { minReplica } [rd]).cache.get k =
      if k = rd.startKey then some rd else none := fun k =>
    RangeDescriptorCache.addOne_get { minReplica } rd k
  have hstart : ∀ k w, (RangeDescriptorCache.add { minReplica } [rd]).cache.get k = some w →
      k = rd.startKey := by
    intro k w hk
    rw [hget] at hk
    split_ifs at hk with h
    exact h
  unfold PdFinds RangeDescriptorCache.lookup
  by_cases hle : rd.startKey ≤ key
  · rw [OrdMap.floor_eq_some _ ((hget rd.startKey).trans (if_pos rfl)) hle
      fun k w hk _ => (hstart k w hk).le]
    by_cases hlt : key < rd.endKey
    · simp [hle, hlt]
    · simp [hlt]
  · rw [OrdMap.floor_eq_none _ fun k w hk => hstart k w hk ▸ not_le.mp hle]
    simp [hle]

/-! ### The client -/

/-- `lookup` in a cache that holds just the descriptor finds it. -/
def ClientFinds (T : Client.IntervalTree) (rd : RangeDescriptor) (key : Key) : Prop :=
  (Client.RangeDescriptorCache.add T {} rd >>= fun rdc => rdc.lookup key) = .ok rd

namespace Client.RangeDescriptorCache

lemma newKey_ok {start stop : Key} (hs : start ≠ []) (h : stop = [] ∨ start < stop) :
    newKey start stop = .ok (start, stop) := by
  obtain rfl | h := h
  · simp [newKey, rangeCompareKey]
  · exact newKey_of_lt hs h

lemma overlap_covers (hk : key ≠ []) (hs : rd.startKey ≠ []) :
    overlap key (bytesNext key) rd = true ↔ rd.Covers key := by
  have hnext : bytesNext key ≠ [] := by simp [bytesNext]
  have hend : rangeCompareKey key rd.endKey = .lt ↔ rd.endKey = [] ∨ key < rd.endKey := by
    by_cases he : rd.endKey = []
    · simp [he, rangeCompareKey]
    · simp [rangeCompareKey_lt_iff hk he, he]
  rw [overlap, Bool.and_eq_true, decide_eq_true_iff, decide_eq_true_iff,
    rangeCompareKey_gt_iff hnext hs, ← le_iff_lt_bytesNext, hend]
  rfl

end Client.RangeDescriptorCache

lemma clientFinds_iff (T : Client.IntervalTree) (hs : rd.startKey ≠ [])
    (he : rd.endKey = [] ∨ rd.startKey < rd.endKey) (hk : key ≠ []) :
    ClientFinds T rd key ↔ rd.Covers key := by
  have hcache : Client.RangeDescriptorCache.add T {} rd = .ok ⟨[rd]⟩ := by
    rw [Client.RangeDescriptorCache.add, Client.RangeDescriptorCache.newKey_ok hs he,
      ← List.perm_singleton.mp (T.insert_perm rd [])]
    rfl
  rw [ClientFinds, hcache, ← Client.RangeDescriptorCache.overlap_covers hk hs]
  simp only [bind, Except.bind, Client.RangeDescriptorCache.lookup,
    Client.RangeDescriptorCache.getOverlaps,
    Client.RangeDescriptorCache.newKey_of_lt hk (lt_bytesNext key), pure, Except.pure]
  by_cases h : Client.RangeDescriptorCache.overlap key (bytesNext key) rd = true
  · simp [h]
  · simp [h, throw, throwThe, MonadExceptOf.throw]

/-! ### The node -/

/-- The replica of the range. -/
def replicaOf (rd : RangeDescriptor) : Replica := ⟨rd.rangeID, rd⟩

/-- Some scan of the range, up to its end key, returns a row of the key. -/
def Scannable (rd : RangeDescriptor) (key : Key) : Prop :=
  ∃ eng startKey reqTxn ts max rows, EngineOk eng ∧
    (replicaOf rd).validateKeyRange startKey = true ∧
    scanInternal eng startKey rd.endKey reqTxn ts max false = .ok rows ∧
    ∃ row ∈ rows, row.key = key

section Bounds

variable {eng : Engine} {startKey endKey : Key} {txn : Transaction} {ts : Timestamp} {max : Int64}

/-- **A scan stays within its bounds.** -/
lemma scanInternal_bounds (hok : EngineOk eng) {rows : List KeyValue}
    (h : scanInternal eng startKey endKey txn ts max false = .ok rows) :
    ∀ row ∈ rows, startKey ≤ row.key ∧ row.key < endKey := by
  by_cases hempty : startKey = []
  · rw [scanInternal, if_pos (by simpa using hempty)] at h
    cases h
  · rw [scanInternal_of_ends _ _ _ _ _ hempty (scanEnds_forward hok startKey endKey)] at h
    rcases collect_cases (keysIn eng startKey endKey) (nil_room _) with ⟨⟨e, he⟩, -⟩ | ⟨hrows, -⟩
    · rw [he] at h
      cases h
    · rw [hrows, List.nil_append, filterMap_keysIn] at h
      cases h
      intro row hrow
      simpa using (List.mem_filter.mp (mem_of_mem_cut hrow)).2

end Bounds

/-- An engine with one key, which has one committed version. -/
def oneRow (key : Key) (value : Value) : Engine where
  entries := [(newMVCCKey key, .metaData ⟨[], .zero, false⟩),
    (newMVCCTimeKey key .zero, .value { value := some value })]
  sorted := by simpa using newMVCCKey_lt_timeKey key .zero

section OneRow

variable {value : Value}

lemma get_oneRow {x : MVCCKey} {e : Entry} (h : (oneRow key value).get x = some e) :
    (x = newMVCCKey key ∧ e = .metaData ⟨[], .zero, false⟩) ∨
      (x = newMVCCTimeKey key .zero ∧ e = .value { value := some value }) := by
  have hmem := (oneRow key value).mem_entries_iff.mpr h
  simpa [oneRow] using hmem

lemma engineOk_oneRow : EngineOk (oneRow key value) := by
  intro x e he
  obtain ⟨rfl, rfl⟩ | ⟨rfl, rfl⟩ := get_oneRow he
  · refine .inl ⟨key, rfl, fun m hm => ?_⟩
    cases hm
    decide
  · exact .inr ⟨key, .zero, value, rfl, by decide, rfl⟩

lemma getInternal_oneRow (hk : key ≠ []) (txn : Transaction) :
    getInternal (oneRow key value) key .zero txn = .ok (some value) := by
  have hmeta : (oneRow key value).get (newMVCCKey key) = some (.metaData ⟨[], .zero, false⟩) :=
    (oneRow key value).mem_entries_iff.mp List.mem_cons_self
  have hseek : (oneRow key value).seek (newMVCCTimeKey key .zero) =
      [(newMVCCTimeKey key .zero, .value { value := some value })] := by
    simp [OrdMap.seek, oneRow, newMVCCKey_lt_timeKey]
  simp [getInternal, mvccGetMeta, hk, hmeta, mvccGet, mvccGetInternal, hseek, bind, Except.bind,
    pure, Except.pure]

lemma getInternal_oneRow_ne {k : Key} (hk : k ≠ []) (hne : k ≠ key) (txn : Transaction) :
    getInternal (oneRow key value) k .zero txn = .ok none := by
  have hmeta : (oneRow key value).get (newMVCCKey k) = none := by
    cases h : (oneRow key value).get (newMVCCKey k) with
    | none => rfl
    | some e =>
      obtain ⟨hx, -⟩ | ⟨hx, -⟩ := get_oneRow h
      · exact absurd (newMVCCKey_inj.mp hx) hne
      · exact absurd hx (newMVCCTimeKey_ne_key _ _ _).symm
  rw [getInternal_eq (fun e he => by simp [hmeta] at he) hk]
  simp only [metaAt, hmeta]

end OneRow

lemma scannable_iff (hs : rd.startKey ≠ []) (he : rd.endKey = [] ∨ rd.startKey < rd.endKey) :
    Scannable rd key ↔ rd.startKey ≤ key ∧ key < rd.endKey := by
  constructor
  · rintro ⟨eng, startKey, reqTxn, ts, max, rows, hok, hvalid, hscan, row, hrow, rfl⟩
    obtain ⟨hle, hlt⟩ := scanInternal_bounds hok hscan row hrow
    exact ⟨((validateKeyRange_iff _ _).mp hvalid).1.trans hle, hlt⟩
  · rintro ⟨hle, hlt⟩
    have hk : key ≠ [] := ne_nil_of_le hs hle
    let value : Value := { bytes := [1] }
    have hread : ∀ k, rd.startKey ≤ k → k < rd.endKey →
        ∃ r, getInternal (oneRow key value) k .zero {} = .ok r := by
      intro k hstart _
      have hne : k ≠ [] := ne_nil_of_le hs hstart
      by_cases hkey : k = key
      · rw [hkey]
        exact ⟨_, getInternal_oneRow hk {}⟩
      · exact ⟨_, getInternal_oneRow_ne hne hkey {}⟩
    have hmem : ⟨key, value⟩ ∈ rowsOf (oneRow key value) .zero {} := by
      refine List.mem_filterMap.mpr ⟨key, ?_, by rw [rowOf, getInternal_oneRow hk]; rfl⟩
      rw [mem_keysOf engineOk_oneRow]
      exact ⟨_, _, (oneRow key value).mem_entries_iff.mp List.mem_cons_self, .inl rfl⟩
    have hlen : (rowsOf (oneRow key value) .zero {}).length ≤ 2 :=
      (List.length_filterMap_le _ _).trans (length_keysOf_le (oneRow key value))
    refine ⟨oneRow key value, rd.startKey, {}, .zero, 2, _, engineOk_oneRow, ?_,
      scanInternal_rows engineOk_oneRow hs hread (n := 2) rfl (by decide), ⟨key, value⟩, ?_, rfl⟩
    · exact (validateKeyRange_iff _ _).mpr ⟨le_rfl, he⟩
    · rw [List.take_of_length_le ((List.length_filter_le _ _).trans hlen), List.mem_filter]
      exact ⟨hmem, by simpa using ⟨hle, hlt⟩⟩

/-! ### Agreement -/

/-- The four tests give one answer. -/
def Agree (minReplica : Int) (T : Client.IntervalTree) (rd : RangeDescriptor) (key : Key) : Prop :=
  (PdFinds minReplica rd key ↔ ClientFinds T rd key) ∧
    (ClientFinds T rd key ↔ (replicaOf rd).validateKeyRange key = true) ∧
    ((replicaOf rd).validateKeyRange key = true ↔ Scannable rd key)

/-- **When the four tests agree.** They do for a range with an end key; for one without, the
placement driver finds no key and a scan returns none, while the client and the node take every
key from the start on. -/
theorem agree_iff (minReplica : Int) (T : Client.IntervalTree) (hs : rd.startKey ≠ [])
    (he : rd.endKey = [] ∨ rd.startKey < rd.endKey) (hk : key ≠ []) :
    Agree minReplica T rd key ↔ rd.endKey ≠ [] ∨ key < rd.startKey := by
  have hnode : (replicaOf rd).validateKeyRange key = true ↔ rd.Covers key :=
    validateKeyRange_iff (replicaOf rd) key
  rw [Agree, pdFinds_iff, clientFinds_iff T hs he hk, hnode, scannable_iff hs he,
    RangeDescriptor.Covers]
  by_cases hend : rd.endKey = []
  · simp [hend]
  · simp [hend]

/-- **The last range is lost**: the client and the node take a key of a range without an end
key, the placement driver and the scans do not. -/
theorem unbounded_disagrees :
    ClientFinds .byStart ⟨1, [2], [], []⟩ [2, 1] ∧
      (replicaOf ⟨1, [2], [], []⟩).validateKeyRange [2, 1] = true ∧
      ¬PdFinds 3 ⟨1, [2], [], []⟩ [2, 1] ∧ ¬Scannable ⟨1, [2], [], []⟩ [2, 1] ∧
      ¬Agree 3 .byStart ⟨1, [2], [], []⟩ [2, 1] := by
  have hscan : ¬Scannable ⟨1, [2], [], []⟩ [2, 1] := fun h => by
    rw [scannable_iff (by decide) (.inl rfl)] at h
    exact absurd h.2 (by decide)
  exact ⟨rfl, rfl, by unfold PdFinds; decide, hscan, fun h => hscan (h.2.2.mp rfl)⟩

theorem agree_user_range : Agree 3 .byStart ⟨2, [2], [3], []⟩ [2, 1] :=
  (agree_iff 3 .byStart (by decide) (by decide) (by decide)).mpr (by decide)

end Ancestor
