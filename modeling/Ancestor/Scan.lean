import Ancestor.Effect

/-!
Scans over the keys of a range (`storage/replica_command.go`, `storage/engine/mvcc.go`).

A scan moves a cursor over the engine from one key to the next and reads each key as a get
does. The cursor stands on encoded keys, of which a key may have many: the scan decodes what
it stands on and then seeks past the key.
-/

namespace Ancestor

structure KeyValue where
  key : Key
  value : Value
  deriving DecidableEq, Repr

/-- Where `Seek` puts an iterator: the entries it still has before it. A reversed one goes down
from the greatest key at or below the one sought. -/
def seekIter (eng : Engine) (reverse : Bool) (k : MVCCKey) : List (MVCCKey × Entry) :=
  if reverse then eng.seekReverse k else eng.seek k

/-- `GetMetaKey`, for an iterator that stands on `metaKey`; none past the end of the scan. -/
def getMetaKey (metaKey encEndKey : MVCCKey) (reverse : Bool) :
    Except Err (Option (Key × MVCCKey)) :=
  if decide (metaKey < encEndKey) = reverse then .ok none
  else
    match decodeMVCCKey metaKey with
    | .error msg => .error (.decodeKey msg)
    | .ok (key, _, isValue) =>
      .ok (some (key,
        if isValue then metaKey.take (metaKey.length - encodeTimestampSize) else metaKey))

/-- The loop of `scanInternal`. A turn passes all entries of one key, so the number of entries
bounds the number of turns. -/
def scanLoop (eng : Engine) (encEndKey : MVCCKey) (reqTxn : Transaction) (ts : Timestamp)
    (max : Int64) (reverse : Bool) :
    ℕ → List (MVCCKey × Entry) → Int64 → List KeyValue → Except Err (List KeyValue)
  | 0, _, _, keyValues => .ok keyValues
  | _ + 1, [], _, keyValues => .ok keyValues
  | n + 1, (k, _) :: _, cnt, keyValues => do
    match ← getMetaKey k encEndKey reverse with
    | none => return keyValues
    | some (metaKey, encMetaKey) =>
      let iter :=
        if reverse then (seekIter eng true encMetaKey).tail
        else seekIter eng false (newMVCCKey (bytesNext metaKey))
      match ← getInternal eng metaKey ts reqTxn with
      | none => scanLoop eng encEndKey reqTxn ts max reverse n iter cnt keyValues
      | some value =>
        if value.bytes.length = 0 then
          scanLoop eng encEndKey reqTxn ts max reverse n iter cnt keyValues
        else
          let keyValues := keyValues ++ [⟨metaKey, value⟩]
          let cnt := cnt + 1
          if cnt = max ∧ max > 0 then return keyValues
          else scanLoop eng encEndKey reqTxn ts max reverse n iter cnt keyValues

def scanInternal (eng : Engine) (startKey endKey : Key) (reqTxn : Transaction) (ts : Timestamp)
    (max : Int64) (reverse : Bool) : Except Err (List KeyValue) :=
  if startKey.length = 0 then .error .invalidKey
  else
    let (encKey, encEndKey) :=
      if reverse then (newMVCCKey endKey, newMVCCKey startKey)
      else (newMVCCKey startKey, newMVCCKey endKey)
    let iter :=
      match reverse, seekIter eng reverse encKey with
      | true, (k, e) :: l => if ¬ k < encKey then l else (k, e) :: l
      | _, iter => iter
    scanLoop eng encEndKey reqTxn ts max reverse (eng.entries.length + 1) iter 0 []

/-! ### The keys of an engine -/

def rowKey (e : MVCCKey × Entry) : Option Key :=
  match decodeMVCCKey e.1 with
  | .ok (k, _, _) => some k
  | .error _ => none

lemma ne_nil_of_le {a b : Key} (ha : a ≠ []) (h : a ≤ b) : b ≠ [] := by
  rintro rfl
  cases a with
  | nil => exact ha rfl
  | cons x l => exact absurd (List.nil_lt_cons x l) (not_lt.mpr h)

/-- The keys that have entries. -/
def keysOf (eng : Engine) : List Key := (eng.entries.filterMap rowKey).dedup

section Keys

variable {eng : Engine} {k s : Key} {x : MVCCKey} {e : Entry}

lemma IsEntryOf.decode (h : IsEntryOf k x) : ∃ t b, decodeMVCCKey x = .ok (k, t, b) := by
  rcases h with rfl | ⟨t, -, rfl⟩
  · exact ⟨_, _, decodeMVCCKey_key k⟩
  · exact ⟨_, _, decodeMVCCKey_timeKey k t⟩

lemma IsEntryOf.rowKey (h : IsEntryOf k x) (e : Entry) : rowKey (x, e) = some k := by
  obtain ⟨t, b, hdec⟩ := h.decode
  simp only [Ancestor.rowKey, hdec]

lemma IsEntryOf.key_le_iff (h : IsEntryOf k x) : newMVCCKey s ≤ x ↔ s ≤ k := by
  constructor
  · intro hle
    by_contra hlt
    exact absurd (h.lt_of_lt (not_le.mp hlt) (.inl rfl)) (not_lt.mpr hle)
  · exact fun hle => (newMVCCKey_le_iff.mpr hle).trans h.key_le

lemma EngineOk.isEntryOf_rowKey (hok : EngineOk eng) (he : eng.get x = some e)
    (hk : rowKey (x, e) = some k) : IsEntryOf k x := by
  obtain ⟨k', hk'⟩ := hok.keysOk x e he
  rw [hk'.rowKey e, Option.some.injEq] at hk
  exact hk ▸ hk'

lemma mem_keysOf (hok : EngineOk eng) :
    k ∈ keysOf eng ↔ ∃ x e, eng.get x = some e ∧ IsEntryOf k x := by
  rw [keysOf, List.mem_dedup, List.mem_filterMap]
  constructor
  · rintro ⟨⟨x, e⟩, hmem, hk⟩
    have he := eng.mem_entries_iff.mp hmem
    exact ⟨x, e, he, hok.isEntryOf_rowKey he hk⟩
  · rintro ⟨x, e, he, hk⟩
    exact ⟨(x, e), eng.mem_entries_iff.mpr he, hk.rowKey e⟩

/-- Entries follow the order of their keys, so the keys come out sorted. -/
lemma sorted_keysOf (hok : EngineOk eng) : (keysOf eng).Pairwise (· < ·) := by
  have hle : (eng.entries.filterMap rowKey).Pairwise (· ≤ ·) := by
    rw [List.pairwise_filterMap]
    refine eng.sorted.imp_of_mem ?_
    rintro ⟨x, e⟩ ⟨x', e'⟩ hmem hmem' hlt k hk k' hk'
    have hent := hok.isEntryOf_rowKey (eng.mem_entries_iff.mp hmem) hk
    have hent' := hok.isEntryOf_rowKey (eng.mem_entries_iff.mp hmem') hk'
    exact not_lt.mp fun h => absurd (hent'.lt_of_lt h hent) (not_lt.mpr hlt.le)
  have hnd : (keysOf eng).Pairwise (· ≠ ·) := List.nodup_dedup _
  exact ((hle.sublist (List.dedup_sublist _)).and hnd).imp fun h => lt_of_le_of_ne h.1 h.2

lemma length_keysOf_le (eng : Engine) : (keysOf eng).length ≤ eng.entries.length :=
  (List.dedup_sublist _).length_le.trans (List.length_filterMap_le _ _)

/-- The keys at or above `s`. -/
def keysFrom (eng : Engine) (s : Key) : List Key := (keysOf eng).filter fun k => decide (s ≤ k)

/-- Past the first key at or above `s`, the keys go on with those above it. -/
lemma keysFrom_next (hok : EngineOk eng) {ks : List Key} (h : keysFrom eng s = k :: ks) :
    keysFrom eng (bytesNext k) = ks := by
  have hsorted : (keysFrom eng s).Pairwise (· < ·) := (sorted_keysOf hok).filter _
  have hs : s ≤ k := by
    have hmem : k ∈ keysFrom eng s := h ▸ List.mem_cons_self
    simpa using (List.mem_filter.mp hmem).2
  have hnext : ∀ k', bytesNext k ≤ k' ↔ k < k' := fun k' =>
    ⟨(lt_bytesNext k).trans_le, bytesNext_le⟩
  have hfilter : keysFrom eng (bytesNext k) =
      (keysFrom eng s).filter fun k' => decide (k < k') := by
    rw [keysFrom, keysFrom, List.filter_filter]
    refine List.filter_congr fun k' _ => ?_
    rw [← Bool.decide_and, decide_eq_decide, hnext]
    exact ⟨fun hlt => ⟨hlt, hs.trans hlt.le⟩, And.left⟩
  rw [h] at hfilter hsorted
  rw [hfilter, List.filter_cons_of_neg (by simp), List.filter_eq_self]
  exact fun k' hk' => by simpa using (List.pairwise_cons.mp hsorted).1 k' hk'

/-- **A cursor sought at a key stands on an entry of the first key at or above it.** -/
theorem seek_keysFrom (hok : EngineOk eng) (s : Key) :
    match keysFrom eng s with
    | [] => eng.seek (newMVCCKey s) = []
    | k :: _ => ∃ x e l, eng.seek (newMVCCKey s) = (x, e) :: l ∧ IsEntryOf k x := by
  have hmem : ∀ {k}, k ∈ keysFrom eng s ↔ k ∈ keysOf eng ∧ s ≤ k := fun {k} => by
    rw [keysFrom, List.mem_filter, decide_eq_true_iff]
  cases hseek : eng.seek (newMVCCKey s) with
  | nil =>
    cases hks : keysFrom eng s with
    | nil => rfl
    | cons k ks =>
      obtain ⟨hk, hle⟩ := hmem.mp (hks ▸ List.mem_cons_self : k ∈ keysFrom eng s)
      obtain ⟨x, e, he, hent⟩ := (mem_keysOf hok).mp hk
      rw [eng.seek_nil hseek (hent.key_le_iff.mpr hle)] at he
      cases he
  | cons p l =>
    obtain ⟨x, e⟩ := p
    obtain ⟨hle, he, hleast⟩ := eng.seek_head hseek
    obtain ⟨k₀, hent₀⟩ := hok.keysOk x e he
    have hk₀ : k₀ ∈ keysFrom eng s :=
      hmem.mpr ⟨(mem_keysOf hok).mpr ⟨x, e, he, hent₀⟩, hent₀.key_le_iff.mp hle⟩
    have hsorted : (keysFrom eng s).Pairwise (· < ·) := (sorted_keysOf hok).filter _
    cases hks : keysFrom eng s with
    | nil => rw [hks] at hk₀; cases hk₀
    | cons k ks =>
      obtain ⟨hk, hsk⟩ := hmem.mp (hks ▸ List.mem_cons_self : k ∈ keysFrom eng s)
      rw [hks] at hk₀ hsorted
      rcases List.mem_cons.mp hk₀ with rfl | hin
      · exact ⟨x, e, l, rfl, hent₀⟩
      · -- an entry of a smaller key would come first
        obtain ⟨x', e', he', hent⟩ := (mem_keysOf hok).mp hk
        have hlt := (List.pairwise_cons.mp hsorted).1 k₀ hin
        exact absurd (hleast x' e' (hent.key_le_iff.mpr hsk) he')
          (not_le.mpr (hent.lt_of_lt hlt hent₀))

end Keys

/-! ### The loop turn by turn -/

/-- How a turn of the loop ends: with the result of the scan, or with the cursor moved on. -/
inductive Turn
  | done (result : Except Err (List KeyValue))
  | next (iter : List (MVCCKey × Entry)) (cnt : Int64) (keyValues : List KeyValue)

section Turns

variable (eng : Engine) (encEndKey : MVCCKey) (reqTxn : Transaction) (ts : Timestamp)
  (max : Int64) (reverse : Bool)

def scanTurn : List (MVCCKey × Entry) → Int64 → List KeyValue → Turn
  | [], _, keyValues => .done (.ok keyValues)
  | (k, _) :: _, cnt, keyValues =>
    match getMetaKey k encEndKey reverse with
    | .error e => .done (.error e)
    | .ok none => .done (.ok keyValues)
    | .ok (some (metaKey, encMetaKey)) =>
      let iter :=
        if reverse then (seekIter eng true encMetaKey).tail
        else seekIter eng false (newMVCCKey (bytesNext metaKey))
      match getInternal eng metaKey ts reqTxn with
      | .error e => .done (.error e)
      | .ok none => .next iter cnt keyValues
      | .ok (some value) =>
        if value.bytes.length = 0 then .next iter cnt keyValues
        else if cnt + 1 = max ∧ max > 0 then .done (.ok (keyValues ++ [⟨metaKey, value⟩]))
        else .next iter (cnt + 1) (keyValues ++ [⟨metaKey, value⟩])

/-- The result after at most `n` turns; none if the loop goes on after them. -/
def scanTurns : ℕ → List (MVCCKey × Entry) → Int64 → List KeyValue →
    Option (Except Err (List KeyValue))
  | 0, _, _, _ => none
  | n + 1, iter, cnt, keyValues =>
    match scanTurn eng encEndKey reqTxn ts max reverse iter cnt keyValues with
    | .done result => some result
    | .next iter cnt keyValues => scanTurns n iter cnt keyValues

lemma scanLoop_succ (n : ℕ) (iter : List (MVCCKey × Entry)) (cnt : Int64)
    (keyValues : List KeyValue) :
    scanLoop eng encEndKey reqTxn ts max reverse (n + 1) iter cnt keyValues =
      match scanTurn eng encEndKey reqTxn ts max reverse iter cnt keyValues with
      | .done result => result
      | .next iter cnt keyValues =>
        scanLoop eng encEndKey reqTxn ts max reverse n iter cnt keyValues := by
  cases iter with
  | nil => rfl
  | cons e l =>
    obtain ⟨k, e⟩ := e
    simp only [scanLoop, scanTurn, bind, Except.bind]
    cases getMetaKey k encEndKey reverse with
    | error err => rfl
    | ok o =>
      cases o with
      | none => rfl
      | some p =>
        obtain ⟨metaKey, encMetaKey⟩ := p
        simp only
        cases getInternal eng metaKey ts reqTxn with
        | error err => rfl
        | ok r =>
          cases r with
          | none => rfl
          | some value =>
            simp only
            split_ifs <;> rfl

/-- The bound on the turns in `scanLoop` does not show once the loop ends within it. -/
lemma scanLoop_of_turns {n : ℕ} {iter : List (MVCCKey × Entry)} {cnt : Int64}
    {keyValues : List KeyValue} {result : Except Err (List KeyValue)}
    (h : scanTurns eng encEndKey reqTxn ts max reverse n iter cnt keyValues = some result) :
    scanLoop eng encEndKey reqTxn ts max reverse n iter cnt keyValues = result := by
  induction n generalizing iter cnt keyValues with
  | zero => cases h
  | succ n ih =>
    rw [scanLoop_succ]
    rw [scanTurns] at h
    cases hturn : scanTurn eng encEndKey reqTxn ts max reverse iter cnt keyValues with
    | done r =>
      rw [hturn] at h
      exact Option.some.inj h
    | next iter' cnt' keyValues' =>
      rw [hturn] at h
      exact ih h

/-- Where `scanInternal` places its iterator before the loop. -/
def scanFirst (startKey endKey : Key) : List (MVCCKey × Entry) :=
  if reverse then
    match eng.seekReverse (newMVCCKey endKey) with
    | [] => []
    | (k, e) :: l => if ¬ k < newMVCCKey endKey then l else (k, e) :: l
  else eng.seek (newMVCCKey startKey)

/-- The loop of `scanInternal` ends, with `result`. -/
def ScanEnds (startKey endKey : Key) (result : Except Err (List KeyValue)) : Prop :=
  scanTurns eng (newMVCCKey (if reverse then startKey else endKey)) reqTxn ts max reverse
    (eng.entries.length + 1) (scanFirst eng reverse startKey endKey) 0 [] = some result

lemma scanInternal_of_ends {startKey endKey : Key} {result : Except Err (List KeyValue)}
    (hstart : startKey ≠ []) (h : ScanEnds eng reqTxn ts max reverse startKey endKey result) :
    scanInternal eng startKey endKey reqTxn ts max reverse = result := by
  have hloop := scanLoop_of_turns _ _ _ _ _ _ h
  rw [scanInternal, if_neg (by simpa using hstart)]
  cases reverse with
  | false => exact hloop
  | true =>
    rw [scanFirst, if_pos rfl] at hloop
    simp only [seekIter, if_true]
    cases hseek : eng.seekReverse (newMVCCKey endKey) <;> rw [hseek] at hloop <;> exact hloop

end Turns

/-! ### A scan as reads of its keys -/

/-- Reads the keys in turn and keeps the values that are not empty, `max` of them at most unless
`max` is zero. -/
def collect (read : Key → Except Err (Option Value)) (max : ℕ) :
    List Key → List KeyValue → Except Err (List KeyValue)
  | [], rows => .ok rows
  | k :: ks, rows => do
    match ← read k with
    | none => collect read max ks rows
    | some value =>
      if value.bytes.length = 0 then collect read max ks rows
      else if rows.length + 1 = max then return rows ++ [⟨k, value⟩]
      else collect read max ks (rows ++ [⟨k, value⟩])

/-- The number of rows asked for: all of them unless `max` is positive. -/
def limit (max : Int64) : ℕ := max.toInt.toNat

/-- The keys of `[startKey, endKey)`, or those down to `startKey`. -/
def inBound (encEnd : Key) (reverse : Bool) (k : Key) : Bool :=
  if reverse then decide (encEnd ≤ k) else decide (k < encEnd)

/-- Where the loop goes on from the key `k`. -/
def nextIter (eng : Engine) (reverse : Bool) (k : Key) : List (MVCCKey × Entry) :=
  if reverse then (eng.seekReverse (newMVCCKey k)).tail else eng.seek (newMVCCKey (bytesNext k))

/-- A cursor from which the loop meets the keys `ks`, one in each turn. -/
inductive Meets (eng : Engine) (reverse : Bool) : List (MVCCKey × Entry) → List Key → Prop
  | nil : Meets eng reverse [] []
  | cons {x : MVCCKey} {e : Entry} {l : List (MVCCKey × Entry)} {k : Key} {ks : List Key}
    (hent : IsEntryOf k x) (hnext : Meets eng reverse (nextIter eng reverse k) ks) :
    Meets eng reverse ((x, e) :: l) (k :: ks)

section Reads

variable {eng : Engine} {txn : Transaction} {ts : Timestamp} {max : Int64} {n : ℕ}
  {reverse : Bool}

lemma count_eq_max_iff {l : ℕ} (hl : l < limit max ∨ limit max = 0) :
    (Int64.ofNat l + 1 = max ∧ max > 0) ↔ l + 1 = limit max := by
  have hbound := Int64.toInt_lt max
  have hpos : max > 0 ↔ 0 < max.toInt := Int64.lt_iff_toInt_lt
  unfold limit at *
  rcases hl with hl | hl
  · have hsum : (Int64.ofNat l + 1).toInt = l + 1 := by
      rw [Int64.toInt_add, Int64.toInt_ofNat_of_lt (by omega)]
      exact Int.bmod_eq_of_le (by simp; omega) (by simp; omega)
    rw [← Int64.toInt_inj, hsum, hpos]
    omega
  · rw [hpos]
    omega

lemma getMetaKey_entry {k : Key} {x : MVCCKey} (h : IsEntryOf k x) (encEnd : Key)
    (reverse : Bool) :
    getMetaKey x (newMVCCKey encEnd) reverse =
      .ok (if inBound encEnd reverse k then some (k, newMVCCKey k) else none) := by
  have hlt : x < newMVCCKey encEnd ↔ k < encEnd := by
    rw [← not_le, h.key_le_iff, not_le]
  have hdec : ∃ t b, decodeMVCCKey x = .ok (k, t, b) ∧
      (if b then x.take (x.length - encodeTimestampSize) else x) = newMVCCKey k := by
    rcases h with rfl | ⟨t, -, rfl⟩
    · exact ⟨_, _, decodeMVCCKey_key k, rfl⟩
    · refine ⟨_, _, decodeMVCCKey_timeKey k t, ?_⟩
      rw [newMVCCTimeKey_eq]
      simp [encodeTimestampSize]
  obtain ⟨t, b, hdec, hkey⟩ := hdec
  have hstop : decide (x < newMVCCKey encEnd) = reverse ↔ ¬ inBound encEnd reverse k = true := by
    cases reverse <;> simp [inBound, hlt]
  unfold getMetaKey
  by_cases hin : inBound encEnd reverse k = true
  · rw [if_neg (by rw [hstop, not_not]; exact hin), hdec, if_pos hin]
    simp only [hkey]
  · rw [if_pos (hstop.mpr hin), if_neg hin]

/-- Before the first row there is room for one. -/
lemma nil_room (n : ℕ) : ([] : List KeyValue).length < n ∨ n = 0 := (Nat.eq_zero_or_pos n).symm

/-- **A scan reads the keys it meets**, and then it ends. The induction is on the keys still
ahead of the cursor. -/
theorem scanTurns_meets (encEnd : Key) {iter : List (MVCCKey × Entry)} {ks : List Key}
    (hmeet : Meets eng reverse iter ks) {fuel : ℕ} (hfuel : ks.length < fuel)
    {rows : List KeyValue} (hrows : rows.length < limit max ∨ limit max = 0) :
    scanTurns eng (newMVCCKey encEnd) txn ts max reverse fuel iter (Int64.ofNat rows.length) rows =
      some (collect (getInternal eng · ts txn) (limit max) (ks.takeWhile (inBound encEnd reverse))
        rows) := by
  induction hmeet generalizing fuel rows with
  | nil =>
    obtain ⟨fuel, rfl⟩ : ∃ f, fuel = f + 1 := ⟨fuel - 1, by omega⟩
    rfl
  | @cons x e l k ks hent hnext ih =>
    obtain ⟨fuel, rfl⟩ : ∃ f, fuel = f + 1 := ⟨fuel - 1, by omega⟩
    have hfuel : ks.length < fuel := by simpa using hfuel
    have hiter : (if reverse = true then (seekIter eng true (newMVCCKey k)).tail
        else seekIter eng false (newMVCCKey (bytesNext k))) = nextIter eng reverse k := by
      cases reverse <;> rfl
    rw [scanTurns, scanTurn, getMetaKey_entry hent]
    by_cases hk : inBound encEnd reverse k = true
    · rw [if_pos hk, List.takeWhile_cons_of_pos hk, collect]
      simp only [bind, Except.bind, hiter]
      cases hget : getInternal eng k ts txn with
      | error err => rfl
      | ok r =>
        cases r with
        | none => exact ih hfuel hrows
        | some value =>
          by_cases hempty : value.bytes.length = 0
          · simp only [hempty, if_true]
            exact ih hfuel hrows
          · simp only [hempty, if_false, count_eq_max_iff hrows]
            by_cases hlast : rows.length + 1 = limit max
            · rw [if_pos hlast, if_pos hlast]
              rfl
            · rw [if_neg hlast, if_neg hlast]
              have hcnt : Int64.ofNat rows.length + 1 =
                  Int64.ofNat (rows ++ [(⟨k, value⟩ : KeyValue)]).length := by
                simp [Int64.ofNat_add]
              simp only [hcnt]
              refine ih hfuel ?_
              rw [List.length_append, List.length_singleton]
              omega
    · rw [if_neg hk, List.takeWhile_cons_of_neg hk]
      rfl

/-- The keys with entries in `[s, e)`. -/
def keysIn (eng : Engine) (s e : Key) : List Key :=
  (keysOf eng).filter fun k => decide (s ≤ k ∧ k < e)

lemma meets_seek (hok : EngineOk eng) (s : Key) :
    Meets eng false (eng.seek (newMVCCKey s)) (keysFrom eng s) := by
  generalize hks : keysFrom eng s = ks
  induction ks generalizing s with
  | nil =>
    have hseek := seek_keysFrom hok s
    rw [hks] at hseek
    rw [hseek]
    exact .nil
  | cons k ks ih =>
    have hseek := seek_keysFrom hok s
    rw [hks] at hseek
    obtain ⟨x, e, l, hseek, hent⟩ := hseek
    rw [hseek]
    exact .cons hent (ih (bytesNext k) (keysFrom_next hok hks))

lemma takeWhile_keysFrom (hok : EngineOk eng) (s e : Key) :
    (keysFrom eng s).takeWhile (inBound e false) = keysIn eng s e := by
  have hsorted : (keysFrom eng s).Pairwise (· < ·) := (sorted_keysOf hok).filter _
  rw [OrdMap.takeWhile_eq_filter hsorted, keysFrom, keysIn, List.filter_filter]
  · refine List.filter_congr fun k _ => ?_
    simp [inBound, Bool.and_comm]
  · intro a b hab hb
    simpa [inBound] using hab.trans (by simpa [inBound] using hb)

lemma length_keysFrom_lt (eng : Engine) (s : Key) :
    (keysFrom eng s).length < eng.entries.length + 1 :=
  Nat.lt_succ_of_le ((List.length_filter_le _ _).trans (length_keysOf_le eng))

/-- **A forward scan reads the keys of its interval** and ends. -/
theorem scanEnds_forward (hok : EngineOk eng) (startKey endKey : Key) :
    ScanEnds eng txn ts max false startKey endKey
      (collect (getInternal eng · ts txn) (limit max) (keysIn eng startKey endKey) []) := by
  rw [← takeWhile_keysFrom hok]
  exact scanTurns_meets endKey (meets_seek hok startKey) (length_keysFrom_lt eng startKey)
    (nil_room _)

/-- The row of a key in a scan: none when a read finds nothing there, or the empty value. -/
def rowOf (eng : Engine) (ts : Timestamp) (txn : Transaction) (k : Key) : Option KeyValue :=
  match getInternal eng k ts txn with
  | .ok (some value) => if value.bytes.length = 0 then none else some ⟨k, value⟩
  | _ => none

/-- The rows a scan of the whole engine would return. -/
def rowsOf (eng : Engine) (ts : Timestamp) (txn : Transaction) : List KeyValue :=
  (keysOf eng).filterMap (rowOf eng ts txn)

lemma key_of_rowOf {k : Key} {row : KeyValue} (h : rowOf eng ts txn k = some row) :
    row.key = k := by
  unfold rowOf at h
  split at h
  · split_ifs at h
    cases h
    rfl
  · cases h

lemma sorted_rowsOf (hok : EngineOk eng) :
    (rowsOf eng ts txn).Pairwise fun a b => a.key < b.key := by
  rw [rowsOf, List.pairwise_filterMap]
  refine (sorted_keysOf hok).imp fun hlt row hrow row' hrow' => ?_
  rwa [key_of_rowOf hrow, key_of_rowOf hrow']

lemma filterMap_keysIn (s e : Key) :
    (keysIn eng s e).filterMap (rowOf eng ts txn) =
      (rowsOf eng ts txn).filter fun row => decide (s ≤ row.key ∧ row.key < e) := by
  rw [rowsOf, List.filter_filterMap, keysIn, List.filterMap_filter]
  refine List.filterMap_congr fun k _ => ?_
  cases hrow : rowOf eng ts txn k with
  | none => simp
  | some row => simp [Option.filter, key_of_rowOf hrow]

/-- The first `n` rows, or all of them. -/
def cut (n : ℕ) (rows : List KeyValue) : List KeyValue := if n = 0 then rows else rows.take n

lemma cut_of_length {rows : List KeyValue} (h : rows.length ≤ n ∨ n = 0) : cut n rows = rows := by
  unfold cut
  split_ifs with hn
  · rfl
  · exact List.take_of_length_le (h.resolve_right hn)

lemma mem_of_mem_cut {row : KeyValue} {rows : List KeyValue} (h : row ∈ cut n rows) :
    row ∈ rows := by
  unfold cut at h
  split_ifs at h
  · exact h
  · exact List.mem_of_mem_take h

/-- A key that errs stops the reads when fewer than `n` rows come before it. -/
def Stops (eng : Engine) (ts : Timestamp) (txn : Transaction) (n : ℕ) (ks : List Key)
    (rows : List KeyValue) (k : Key) : Prop :=
  ∃ before after, ks = before ++ k :: after ∧ (∃ e, getInternal eng k ts txn = .error e) ∧
    (n = 0 ∨ rows.length + (before.filterMap (rowOf eng ts txn)).length < n)

lemma stops_cons {k k' : Key} {ks : List Key} {rows : List KeyValue} {r : Option Value}
    (hr : getInternal eng k ts txn = .ok r) :
    Stops eng ts txn n (k :: ks) rows k' ↔
      Stops eng ts txn n ks (rows ++ (rowOf eng ts txn k).toList) k' := by
  have hlen : ∀ before : List Key, ((k :: before).filterMap (rowOf eng ts txn)).length =
      (rowOf eng ts txn k).toList.length + (before.filterMap (rowOf eng ts txn)).length := by
    intro before
    cases hrow : rowOf eng ts txn k with
    | none => simp [hrow]
    | some row => simp [hrow, Nat.add_comm]
  constructor
  · rintro ⟨before, after, heq, ⟨e, he⟩, hlt⟩
    cases before with
    | nil =>
      cases heq
      rw [hr] at he
      cases he
    | cons x before =>
      cases heq
      refine ⟨before, after, rfl, ⟨e, he⟩, ?_⟩
      rw [hlen] at hlt
      rwa [List.length_append, Nat.add_assoc]
  · rintro ⟨before, after, rfl, he, hlt⟩
    refine ⟨k :: before, after, rfl, he, ?_⟩
    rw [hlen]
    rwa [List.length_append, Nat.add_assoc] at hlt

/-- No key stops the reads once they have their rows. -/
lemma not_stops_of_full {ks : List Key} {rows : List KeyValue} (hn : n ≠ 0)
    (h : n ≤ rows.length) (k : Key) : ¬ Stops eng ts txn n ks rows k := by
  rintro ⟨before, after, -, -, hlt⟩
  have := hlt.resolve_left hn
  omega

/-- **The reads of a list of keys** fail at a key that stops them, and otherwise keep its rows. -/
theorem collect_cases (ks : List Key) {rows : List KeyValue}
    (hrows : rows.length < n ∨ n = 0) :
    ((∃ e, collect (getInternal eng · ts txn) n ks rows = .error e) ∧
      ∃ k, Stops eng ts txn n ks rows k) ∨
    (collect (getInternal eng · ts txn) n ks rows =
        .ok (cut n (rows ++ ks.filterMap (rowOf eng ts txn))) ∧
      ∀ k, ¬ Stops eng ts txn n ks rows k) := by
  induction ks generalizing rows with
  | nil =>
    refine .inr ⟨?_, ?_⟩
    · rw [collect, List.filterMap_nil, List.append_nil, cut_of_length (hrows.imp_left Nat.le_of_lt)]
    · rintro k ⟨before, after, heq, -⟩
      simp at heq
  | cons k ks ih =>
    cases hr : getInternal eng k ts txn with
    | error e =>
      refine .inl ⟨⟨e, ?_⟩, k, [], ks, rfl, ⟨e, hr⟩, by simpa [or_comm] using hrows⟩
      rw [collect, hr]
      rfl
    | ok r =>
      simp only [stops_cons hr]
      rw [collect, hr]
      simp only [bind, Except.bind]
      -- a read without a row leaves the rows as they are
      have hskip : rowOf eng ts txn k = none →
          rows ++ (k :: ks).filterMap (rowOf eng ts txn) =
            rows ++ ks.filterMap (rowOf eng ts txn) ∧
          rows ++ (rowOf eng ts txn k).toList = rows := fun h => by simp [h]
      cases r with
      | none =>
        obtain ⟨happ, hsame⟩ := hskip (by simp only [rowOf, hr])
        rw [happ, hsame]
        exact ih hrows
      | some value =>
        by_cases hempty : value.bytes.length = 0
        · obtain ⟨happ, hsame⟩ := hskip (by simp only [rowOf, hr, if_pos hempty])
          rw [happ, hsame]
          simp only [hempty, if_true]
          exact ih hrows
        · have hrow : rowOf eng ts txn k = some ⟨k, value⟩ := by
            simp only [rowOf, hr, if_neg hempty]
          have happ : rows ++ (k :: ks).filterMap (rowOf eng ts txn) =
              (rows ++ [⟨k, value⟩]) ++ ks.filterMap (rowOf eng ts txn) := by simp [hrow]
          have hadd : (rows ++ [(⟨k, value⟩ : KeyValue)]).length = rows.length + 1 := by simp
          rw [happ, hrow, Option.toList_some]
          simp only [hempty, if_false]
          by_cases hlast : rows.length + 1 = n
          · refine .inr ⟨?_, not_stops_of_full (by omega) (by omega)⟩
            rw [if_pos hlast, cut, if_neg (by omega), List.take_append_of_le_length (by omega),
              List.take_of_length_le (by omega)]
            rfl
          · rw [if_neg hlast]
            exact ih (by omega)

/-- **A forward scan returns the first rows of its interval**, when every key there can be
read. -/
theorem scanInternal_rows (hok : EngineOk eng) {startKey endKey : Key} (hstart : startKey ≠ [])
    (hread : ∀ k, startKey ≤ k → k < endKey → ∃ r, getInternal eng k ts txn = .ok r)
    (hmax : max.toInt = n) (hn : 0 < n) :
    scanInternal eng startKey endKey txn ts max false = .ok (((rowsOf eng ts txn).filter
      fun row => decide (startKey ≤ row.key ∧ row.key < endKey)).take n) := by
  have hlimit : limit max = n := by
    rw [limit, hmax]
    rfl
  rw [scanInternal_of_ends _ _ _ _ _ hstart (scanEnds_forward hok startKey endKey), hlimit]
  rcases collect_cases (keysIn eng startKey endKey) (nil_room _) with
    ⟨-, k, before, after, heq, ⟨e, he⟩, -⟩ | ⟨h, -⟩
  · have hin : k ∈ keysIn eng startKey endKey := heq ▸ by simp
    obtain ⟨hs, he'⟩ : startKey ≤ k ∧ k < endKey := by simpa using (List.mem_filter.mp hin).2
    obtain ⟨r, hr⟩ := hread k hs he'
    rw [he] at hr
    cases hr
  · rw [h, List.nil_append, filterMap_keysIn, cut, if_neg (by omega)]

end Reads

end Ancestor
