import Ancestor.IdAllocator
import Ancestor.LogKeys

/-!
The keys that a node keeps in its engine (`util/keys.go`, `storage/replica_raftstorage.go`,
`storage/stats.go`, `meta/data.go`).

Raft state, logs, statistics, records and data share one engine. What is of raft stands under
`SystemPrefix` and is encoded as data is; the statistics of the node stand under the same prefix
as they are. The encoding puts 0xff after a zero byte, so that no encoded key is a raw one.
-/

namespace Ancestor

open Encoding Bytes

/-! ### The keys -/

-- "rfhs"
def hardStatePrefix : Bytes := systemPrefix ++ [0x72, 0x66, 0x68, 0x73]

-- "stat"
def rangeStatsKeyPrefix : Bytes := systemPrefix ++ [0x73, 0x74, 0x61, 0x74]

def raftHardStateKey (id : RangeID) : MVCCKey :=
  newMVCCKey (newKey [hardStatePrefix, fmtInt 0 id])

/-- This key is not encoded. -/
def makeRangeStatsKey (id : NodeID) : MVCCKey :=
  rangeStatsKeyPrefix ++ [0x5f] ++ fmtInt 0 id.toInt64

/-- The keys of raft. -/
inductive RaftKey
  | hardState (id : RangeID)
  | appliedIndex (id : RangeID)
  | lastIndex (id : RangeID)
  | offsetIndex (id : RangeID)
  | log (id : RangeID) (index : UInt64)
  deriving DecidableEq, Repr

def RaftKey.encode : RaftKey → MVCCKey
  | .hardState id => raftHardStateKey id
  | .appliedIndex id => raftAppliedIndexKey id
  | .lastIndex id => raftLastIndexKey id
  | .offsetIndex id => raftOffsetIndexKey id
  | .log id index => raftLogKey id index

/-- Whose keys are kept as MVCC data. -/
inductive Space
  | txn
  | user
  deriving DecidableEq, Repr

def Space.prefixBytes : Space → Bytes
  | .txn => txnPrefix
  | .user => userPrefix

/-- All that is kept in an engine. Of a key of the data there is the metadata, without a timestamp,
and a version for every timestamp. -/
inductive StoredKey
  | raft (k : RaftKey)
  | stats (id : NodeID)
  | data (s : Space) (k : Bytes) (ts : Option Timestamp)
  deriving DecidableEq, Repr

def StoredKey.encode : StoredKey → MVCCKey
  | .raft k => k.encode
  | .stats id => makeRangeStatsKey id
  | .data s k none => newMVCCKey (newKey [s.prefixBytes, k])
  | .data s k (some ts) => newMVCCTimeKey (newKey [s.prefixBytes, k]) ts

/-! ### Keys of raft -/

/-- The four bytes that a kind of key of raft has for a name. -/
def RaftKey.name : RaftKey → Bytes
  | .hardState _ => [0x72, 0x66, 0x68, 0x73]
  | .appliedIndex _ => [0x72, 0x66, 0x61, 0x69]
  | .lastIndex _ => [0x72, 0x66, 0x6c, 0x69]
  | .offsetIndex _ => [0x72, 0x66, 0x6f, 0x66]
  | .log _ _ => [0x72, 0x66, 0x6c, 0x67]

/-- What stands after the name. -/
def RaftKey.text : RaftKey → Bytes
  | .hardState id | .appliedIndex id | .lastIndex id | .offsetIndex id => fmtInt 0 id
  | .log id index => fmtInt 16 id ++ 0x5f :: decimalPad 16 index.toNat

lemma fmtInt_zero_injective : Function.Injective (fmtInt 0) := by
  intro a b h
  have hparse : some a = some b := by
    rw [← IdAllocator.parseInt_formatInt a, ← IdAllocator.parseInt_formatInt b]
    exact congrArg IdAllocator.parseInt h
  exact Option.some.inj hparse

namespace RaftKey

lemma encode_eq (a : RaftKey) : a.encode = newMVCCKey (systemPrefix ++ (a.name ++ a.text)) := by
  cases a <;> simp [encode, name, text, raftHardStateKey, raftAppliedIndexKey, raftLastIndexKey,
    raftOffsetIndexKey, raftLogKey, newKey, hardStatePrefix, appliedIndexPrefix, lastIndexPrefix,
    offsetIndexPrefix, logKeyPrefix]

lemma length_name (a : RaftKey) : a.name.length = 4 := by cases a <;> rfl

/-- The text of a log key names the range and the index. -/
lemma log_text_inj {id id' : RangeID} {i j : UInt64}
    (h : (RaftKey.log id i).text = (RaftKey.log id' j).text) : id = id' ∧ i = j := by
  rw [text, text, List.append_cons_inj_of_notMem (sep_notMem_fmtInt 16 id)
    (sep_notMem_decimalPad 16 i.toNat)] at h
  exact ⟨fmtInt_injective (by omega) h.1,
    UInt64.toNat_inj.mp (decimalPad_injective (by omega) h.2.2)⟩

lemma encode_injective : Function.Injective encode := by
  intro a b h
  rw [encode_eq, encode_eq, newMVCCKey_inj, List.append_cancel_left_eq] at h
  obtain ⟨hname, htext⟩ := List.append_inj h (by rw [length_name, length_name])
  -- kinds have different names
  cases a <;> cases b <;> simp [name] at hname
  case log.log =>
    obtain ⟨rfl, rfl⟩ := log_text_inj htext
    rfl
  all_goals exact congrArg _ (fmtInt_zero_injective htext)

end RaftKey

/-! ### Keys of all kinds -/

/-- The code of a key of raft begins with an escaped zero. -/
lemma encode_raft (a : RaftKey) : ∃ l, a.encode = 0x00 :: 0xff :: l := by
  rw [RaftKey.encode_eq, newMVCCKey, encodeBytes_eq]
  exact ⟨_, rfl⟩

lemma makeRangeStatsKey_eq (id : NodeID) : ∃ l, makeRangeStatsKey id = 0x00 :: 0x73 :: l :=
  ⟨_, rfl⟩

lemma makeRangeStatsKey_injective : Function.Injective makeRangeStatsKey := by
  intro a b h
  have hid := fmtInt_zero_injective (List.append_cancel_left h)
  have hback := congrArg Int64.toInt32 hid
  rwa [Int32.toInt32_toInt64, Int32.toInt32_toInt64] at hback

/-- The code of a key of the data begins with the byte of its space. -/
lemma encode_data (s : Space) (k : Bytes) (ts : Option Timestamp) :
    ∃ c l, (StoredKey.data s k ts).encode = c :: l ∧ 0 < c := by
  have hmeta : ∃ c l, newMVCCKey (newKey [s.prefixBytes, k]) = c :: l ∧ 0 < c := by
    rw [newMVCCKey, encodeBytes_eq]
    cases s
    · exact ⟨0x01, _, rfl, by decide⟩
    · exact ⟨0x02, _, rfl, by decide⟩
  cases ts with
  | none => exact hmeta
  | some ts =>
    obtain ⟨c, l, hl, hc⟩ := hmeta
    refine ⟨c, l ++ tsBytes ts, ?_, hc⟩
    rw [StoredKey.encode, newMVCCTimeKey_eq, hl, List.cons_append]

lemma space_inj {s s' : Space} {k k' : Bytes}
    (h : newKey [s.prefixBytes, k] = newKey [s'.prefixBytes, k']) : s = s' ∧ k = k' := by
  have hcons : s.prefixBytes ++ k = s'.prefixBytes ++ k' := by simpa [newKey] using h
  cases s <;> cases s'
  · exact ⟨rfl, List.append_cancel_left hcons⟩
  · exact absurd (List.head_eq_of_cons_eq hcons) (by decide)
  · exact absurd (List.head_eq_of_cons_eq hcons) (by decide)
  · exact ⟨rfl, List.append_cancel_left hcons⟩

lemma data_inj {s s' : Space} {k k' : Bytes} {ts ts' : Option Timestamp}
    (h : (StoredKey.data s k ts).encode = (StoredKey.data s' k' ts').encode) :
    s = s' ∧ k = k' ∧ ts = ts' := by
  cases ts with
  | none =>
    cases ts' with
    | none =>
      obtain ⟨hs, hk⟩ := space_inj (newMVCCKey_inj.mp h)
      exact ⟨hs, hk, rfl⟩
    | some => exact absurd h (newMVCCKey_ne_timeKey _ _ _)
  | some =>
    cases ts' with
    | none => exact absurd h (newMVCCTimeKey_ne_key _ _ _)
    | some =>
      obtain ⟨hkey, rfl⟩ := newMVCCTimeKey_inj.mp h
      obtain ⟨hs, hk⟩ := space_inj hkey
      exact ⟨hs, hk, rfl⟩

/-- The key of a record or of a user. -/
def StoredKey.IsData : StoredKey → Prop
  | .data _ _ _ => True
  | .raft _ | .stats _ => False

/-- What is not data has a zero byte first. -/
lemma encode_system {a : StoredKey} (h : ¬ a.IsData) : ∃ l, a.encode = 0x00 :: l := by
  cases a with
  | raft k =>
    obtain ⟨l, hl⟩ := encode_raft k
    exact ⟨_, hl⟩
  | stats id =>
    obtain ⟨l, hl⟩ := makeRangeStatsKey_eq id
    exact ⟨_, hl⟩
  | data => exact absurd trivial h

/-- **Data sorts above the rest.** -/
lemma encode_lt_data {a : StoredKey} (h : ¬ a.IsData) (s : Space) (k : Bytes)
    (ts : Option Timestamp) : a.encode < (StoredKey.data s k ts).encode := by
  obtain ⟨l, hl⟩ := encode_system h
  obtain ⟨c, l', hl', hc⟩ := encode_data s k ts
  rw [hl, hl', List.cons_lt_cons_iff]
  exact .inl hc

lemma raft_lt_data (a : RaftKey) (s : Space) (k : Bytes) (ts : Option Timestamp) :
    a.encode < (StoredKey.data s k ts).encode :=
  encode_lt_data (a := .raft a) (fun h => h) s k ts

lemma stats_lt_data (id : NodeID) (s : Space) (k : Bytes) (ts : Option Timestamp) :
    makeRangeStatsKey id < (StoredKey.data s k ts).encode :=
  encode_lt_data (a := .stats id) (fun h => h) s k ts

/-- The statistics sort below raft. -/
lemma stats_lt_raft (id : NodeID) (k : RaftKey) : makeRangeStatsKey id < k.encode := by
  obtain ⟨l, hl⟩ := makeRangeStatsKey_eq id
  obtain ⟨l', hl'⟩ := encode_raft k
  rw [hl, hl', List.cons_lt_cons_iff, List.cons_lt_cons_iff]
  exact .inr ⟨rfl, .inl (by decide)⟩

/-- **Different things are kept under different keys.** -/
lemma storedKey_injective : Function.Injective StoredKey.encode := by
  intro a b h
  cases a with
  | raft k =>
    cases b with
    | raft k' => rw [RaftKey.encode_injective h]
    | stats id => exact absurd h (stats_lt_raft id k).ne'
    | data s k' ts => exact absurd h (raft_lt_data k s k' ts).ne
  | stats id =>
    cases b with
    | raft k => exact absurd h (stats_lt_raft id k).ne
    | stats id' => rw [makeRangeStatsKey_injective h]
    | data s k ts => exact absurd h (stats_lt_data id s k ts).ne
  | data s k ts =>
    cases b with
    | raft k' => exact absurd h (raft_lt_data k' s k ts).ne'
    | stats id => exact absurd h (stats_lt_data id s k ts).ne'
    | data =>
      obtain ⟨rfl, rfl, rfl⟩ := data_inj h
      rfl

/-! ### Between two entries of a log -/

/-- Between two keys of logs there are only keys of logs. -/
lemma name_between {id : RangeID} {i j : UInt64} {k : RaftKey} (h : raftLogKey id i ≤ k.encode)
    (h' : k.encode < raftLogKey id j) : k.name = (RaftKey.log id i).name := by
  have hi := RaftKey.encode_eq (.log id i)
  have hj := RaftKey.encode_eq (.log id j)
  rw [RaftKey.encode] at hi hj
  rw [hi, RaftKey.encode_eq, newMVCCKey_le_iff, ← List.append_assoc] at h
  rw [hj, RaftKey.encode_eq, newMVCCKey_lt_iff, ← List.append_assoc systemPrefix] at h'
  obtain ⟨c, hc⟩ := exists_append_of_between h h'
  rw [List.append_assoc, List.append_cancel_left_eq] at hc
  exact (List.append_inj hc (by rw [RaftKey.length_name, RaftKey.length_name])).1

/-- Between two keys of a log there are only keys of this log. -/
lemma log_between {id : RangeID} {i j : UInt64} {a : StoredKey} (h : raftLogKey id i < a.encode)
    (h' : a.encode < raftLogKey id j) : ∃ k, a = .raft (.log id k) := by
  cases a with
  | stats id' => exact absurd (stats_lt_raft id' (.log id i)) h.not_gt
  | data s k ts => exact absurd (raft_lt_data (.log id j) s k ts) h'.not_gt
  | raft k =>
    simp only [StoredKey.encode] at h h'
    have hname := name_between h.le h'
    cases k with
    | hardState | appliedIndex | lastIndex | offsetIndex => simp [RaftKey.name] at hname
    | log id' k => exact ⟨k, by rw [id_of_between h.le h']⟩

/-- Between an entry of a log and the next one there are only entries whose indexes have more
digits. -/
lemma next_entry {id : RangeID} {i : UInt64} (hi : i.toNat < 10 ^ 16) {a : StoredKey}
    (h : raftLogKey id i < a.encode) (h' : a.encode < raftLogKey id (i + 1)) :
    ∃ k, 10 ^ 16 ≤ k.toNat ∧ a = .raft (.log id k) := by
  obtain ⟨k, rfl⟩ := log_between h h'
  refine ⟨k, ?_, rfl⟩
  by_contra hk
  have hk : k.toNat < 10 ^ 16 := not_le.mp hk
  have hsucc : (i + 1).toNat = i.toNat + 1 := by
    rw [UInt64.toNat_add, UInt64.toNat_one]
    omega
  have hlt : i.toNat < k.toNat := UInt64.lt_iff_toNat_lt.mp ((raftLogKey_lt_iff id hi hk).mp h)
  have hlt' : k.toNat < i.toNat + 1 := by
    rw [← hsucc]
    exact UInt64.lt_iff_toNat_lt.mp ((raftLogKey_lt_iff id hk (by omega)).mp h')
  omega

/-- **What is kept in one engine does not meet.** Keys of different kinds are different, and so are
keys of one kind for different ids, indexes, keys and timestamps. Data sorts above raft and
statistics. A log is sorted by its indexes up to sixteen digits, and nothing else stands between an
entry and the next one. -/
theorem namespaces_apart :
    Function.Injective StoredKey.encode ∧
    (∀ (a : StoredKey) s k ts, ¬ a.IsData → a.encode < (StoredKey.data s k ts).encode) ∧
    (∀ (id : RangeID) (i j : UInt64), i.toNat < 10 ^ 16 → j.toNat < 10 ^ 16 →
      (raftLogKey id i < raftLogKey id j ↔ i < j)) ∧
    ∀ (id : RangeID) (i : UInt64) (a : StoredKey), i.toNat < 10 ^ 16 →
      raftLogKey id i < a.encode → a.encode < raftLogKey id (i + 1) →
        ∃ k, 10 ^ 16 ≤ k.toNat ∧ a = .raft (.log id k) :=
  ⟨storedKey_injective, fun _ s k ts h => encode_lt_data h s k ts,
    fun id _ _ hi hj => raftLogKey_lt_iff id hi hj, fun _ _ _ hi h h' => next_entry hi h h'⟩

theorem namespaces_apart_log :
    makeRangeStatsKey 7 < newMVCCKey (newKey [txnPrefix, [0x61]]) ∧
      raftLogKey 7 9 < raftLogKey 7 10 ∧
      ∃ k : UInt64, 10 ^ 16 ≤ k.toNat ∧
        StoredKey.raft (.log 7 10000000000000000) = .raft (.log 7 k) :=
  ⟨namespaces_apart.2.1 (.stats 7) .txn [0x61] none (fun h => h),
    (namespaces_apart.2.2.1 7 9 10 (by decide) (by decide)).mpr (by decide),
    namespaces_apart.2.2.2 7 1000000000000000 _ (by decide) (by decide +kernel)
      (by decide +kernel)⟩

end Ancestor
