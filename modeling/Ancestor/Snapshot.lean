import Ancestor.Footprint
import Ancestor.Store

/-!
The part of the engine a raft snapshot carries (`storage/replica_raftstorage.go`).

`data` and `clear` compare the encoded keys of the engine with the bounds of the range as they
are, while `getSplitKey` encodes the bounds first. An encoded key and a raw bound compare as
the user key and the bound do when the bound has no zero byte, and never for all keys
otherwise. `clear` clears on the engine itself, and `data` keeps the slices that the iterator
hands it: on badger the one removes nothing, and the other has what the iterator left there.
-/

namespace Ancestor

open Encoding Bytes

/-- The loop of `data`, from where the cursor stands. -/
def dataLoop (endKey : Key) : List (MVCCKey × Entry) → List (MVCCKey × Entry)
  | [] => []
  | (k, e) :: l => if endKey ≤ k then [] else (k, e) :: dataLoop endKey l

/-- The key-value pairs of the snapshot, as they are when the loop is over. -/
def Replica.data [Backend] (r : Replica) (eng : Engine) : List (MVCCKey × Entry) :=
  let l := eng.seek r.rangeDesc.startKey
  Backend.slices.held l (dataLoop r.rangeDesc.endKey l).length

/-- The loop of `clear`: the cursor reads the engine as it was when the loop began. -/
def clearLoop [Backend] (endKey : Key) : List (MVCCKey × Entry) → Engine → Engine
  | [], eng => eng
  | (k, _) :: l, eng => if endKey ≤ k then eng else clearLoop endKey l (erase eng k)

def Replica.clear [Backend] (r : Replica) (eng : Engine) : Engine :=
  clearLoop r.rangeDesc.endKey (eng.seek r.rangeDesc.startKey) eng

/-! ### Encoded keys against raw bounds -/

section Raw

lemma encodeBytes_nil (w : Bytes) : encodeBytes [] [] ++ w = 0 :: 1 :: w := by
  simp [encodeBytes_eq]

lemma encodeBytes_zero (k w : Bytes) :
    encodeBytes [] (0 :: k) ++ w = 0 :: 0xff :: (encodeBytes [] k ++ w) := by
  simp [encodeBytes_eq, escByte]

lemma encodeBytes_cons {x : UInt8} (hx : x ≠ 0) (k w : Bytes) :
    encodeBytes [] (x :: k) ++ w = x :: (encodeBytes [] k ++ w) := by
  simp [encodeBytes_eq, escByte, hx]

/-- **A bound without zero bytes compares with the code of a key as with the key.** -/
theorem encodeBytes_lt_raw_iff {b : Bytes} (hb : 0 ∉ b) (k w : Bytes) :
    encodeBytes [] k ++ w < b ↔ k < b := by
  induction b generalizing k with
  | nil => simp
  | cons c b ih =>
    obtain ⟨hc, hb⟩ : 0 ≠ c ∧ 0 ∉ b := by simpa using hb
    have hpos : 0 < c := UInt8.pos_iff_ne_zero.mpr hc.symm
    rcases k with _ | ⟨x, k⟩
    · rw [encodeBytes_nil]
      simp [List.cons_lt_cons_iff, hpos]
    · by_cases hx : x = 0
      · subst hx
        rw [encodeBytes_zero]
        simp [List.cons_lt_cons_iff, hpos]
      · rw [encodeBytes_cons hx, List.cons_lt_cons_iff, List.cons_lt_cons_iff, ih hb]

/-- A long enough run of `ff` is above a string. -/
lemma le_code_replicate (q w : Bytes) : q ≤ encodeBytes [] (List.replicate q.length 0xff) ++ w := by
  induction q with
  | nil => exact nil_le _
  | cons c q ih =>
    rw [List.length_cons, List.replicate_succ, encodeBytes_cons (by decide)]
    by_cases hc : c = 0xff
    · rw [hc]
      exact cons_le_cons ih
    · exact cons_le_cons_of_lt (lt_ff hc) _ _

/-- Below every bound that starts with `ff` there is a key whose code is not below the rest. -/
lemma exists_code_ge (q : Bytes) : ∃ k, k < 0xff :: q ∧ ∀ w, q ≤ encodeBytes [] k ++ w := by
  induction q with
  | nil => exact ⟨[], List.nil_lt_cons _ _, fun w => nil_le _⟩
  | cons c q ih =>
    by_cases hc : c = 0xff
    · subst hc
      obtain ⟨k, hlt, hge⟩ := ih
      refine ⟨0xff :: k, List.cons_lt_cons_iff.mpr (.inr ⟨rfl, hlt⟩), fun w => ?_⟩
      rw [encodeBytes_cons (by decide)]
      exact cons_le_cons (hge w)
    · -- `fe` and a run of `ff` that outlasts the rest of the bound
      refine ⟨0xfe :: List.replicate q.length 0xff, ?_, fun w => ?_⟩
      · exact List.cons_lt_cons_iff.mpr (.inl (by decide))
      · rw [encodeBytes_cons (by decide)]
        have hle : c ≤ 0xfe := by
          have := UInt8.lt_iff_toNat_lt.mp (lt_ff hc)
          rw [UInt8.le_iff_toNat_le]
          show c.toNat ≤ 254
          have h255 : (0xff : UInt8).toNat = 255 := rfl
          omega
        rcases hle.lt_or_eq with hlt | rfl
        · exact cons_le_cons_of_lt hlt _ _
        · exact cons_le_cons (le_code_replicate q w)

/-- The code of a key that starts with a zero byte escapes it, and that is where a bound that
goes on with another byte is passed. -/
lemma exists_code_ge_zero (b : Bytes) :
    ∃ k, k < 0 :: b ∧ ∀ w, 0 :: b ≤ encodeBytes [] k ++ w := by
  rcases b with _ | ⟨c, b⟩
  · refine ⟨[], List.nil_lt_cons _ _, fun w => ?_⟩
    rw [encodeBytes_nil]
    exact cons_le_cons (nil_le _)
  · by_cases hc : c = 0xff
    · subst hc
      obtain ⟨k, hlt, hge⟩ := exists_code_ge b
      refine ⟨0 :: k, List.cons_lt_cons_iff.mpr (.inr ⟨rfl, hlt⟩), fun w => ?_⟩
      rw [encodeBytes_zero]
      exact cons_le_cons (cons_le_cons (hge w))
    · refine ⟨[0], ?_, fun w => ?_⟩
      · exact List.cons_lt_cons_iff.mpr (.inr ⟨rfl, List.nil_lt_cons _ _⟩)
      · rw [encodeBytes_zero]
        exact cons_le_cons (cons_le_cons_of_lt (lt_ff hc) _ _)

/-- **Below every bound with a zero byte there is a key whose code is not**, and it is at or above
every string without zero bytes that is below the bound. -/
theorem exists_raw_mismatch {b : Bytes} (hb : 0 ∈ b) :
    ∃ k, k < b ∧ (∀ w, b ≤ encodeBytes [] k ++ w) ∧ ∀ a, 0 ∉ a → a < b → a ≤ k := by
  induction b with
  | nil => cases hb
  | cons c b ih =>
    by_cases hc : c = 0
    · subst hc
      obtain ⟨k, hlt, hge⟩ := exists_code_ge_zero b
      refine ⟨k, hlt, hge, fun a ha hab => ?_⟩
      rcases a with _ | ⟨x, a⟩
      · exact nil_le _
      · -- no string without zero bytes but the empty one is below
        have hx : 0 ≠ x := fun h => ha (h ▸ List.mem_cons_self)
        rcases List.cons_lt_cons_iff.mp hab with h | ⟨h, -⟩
        · exact absurd h UInt8.not_lt_zero
        · exact absurd h.symm hx
    · have hb : 0 ∈ b := by simpa [Ne.symm hc] using hb
      obtain ⟨k, hlt, hge, habove⟩ := ih hb
      refine ⟨c :: k, List.cons_lt_cons_iff.mpr (.inr ⟨rfl, hlt⟩), fun w => ?_, fun a ha hab => ?_⟩
      · rw [encodeBytes_cons hc]
        exact cons_le_cons (hge w)
      · rcases a with _ | ⟨x, a⟩
        · exact nil_le _
        · rcases List.cons_lt_cons_iff.mp hab with h | ⟨rfl, h⟩
          · exact cons_le_cons_of_lt h _ _
          · exact cons_le_cons (habove a (fun h0 => ha (List.mem_cons_of_mem _ h0)) h)

end Raw

/-! ### What the loops take -/

section Loops

variable (r : Replica) (eng : Engine)

/-- The comparison that `data` and `clear` make. -/
def rawIn (x : MVCCKey) : Bool := r.rangeDesc.startKey ≤ x ∧ x < r.rangeDesc.endKey

lemma dataLoop_eq (endKey : Key) (l : List (MVCCKey × Entry)) :
    dataLoop endKey l = l.takeWhile fun e => decide (e.1 < endKey) := by
  induction l with
  | nil => rfl
  | cons e l ih =>
    by_cases h : endKey ≤ e.1
    · simp [dataLoop, h, not_lt.mpr h]
    · simp [dataLoop, h, not_le.mp h, ih]

/-- The entries that the loops go over. -/
lemma dataLoop_seek : dataLoop r.rangeDesc.endKey (eng.seek r.rangeDesc.startKey) =
    eng.entries.filter fun e => rawIn r e.1 := by
  rw [dataLoop_eq, walk_eq]
  simp [rawIn]

lemma take_length_dataLoop (endKey : Key) (l : List (MVCCKey × Entry)) :
    l.take (dataLoop endKey l).length = dataLoop endKey l := by
  rw [dataLoop_eq]
  exact (List.prefix_iff_eq_take.mp (List.takeWhile_prefix _)).symm

lemma length_data [Backend] :
    (r.data eng).length = (eng.entries.filter fun e => rawIn r e.1).length := by
  have hle : (dataLoop r.rangeDesc.endKey (eng.seek r.rangeDesc.startKey)).length ≤
      (eng.seek r.rangeDesc.startKey).length := by
    rw [dataLoop_eq]
    exact (List.takeWhile_prefix _).length_le
  rw [Replica.data, Backend.slices.length_held, min_eq_left hle, dataLoop_seek]

section Ordered

attribute [local instance] Backend.ordered

lemma data_eq : r.data eng = eng.entries.filter fun e => rawIn r e.1 :=
  (take_length_dataLoop _ _).trans (dataLoop_seek r eng)

lemma clearLoop_entries (endKey : Key) (l : List (MVCCKey × Entry)) (eng : Engine) :
    (clearLoop endKey l eng).entries =
      eng.entries.filter fun e => decide (e.1 ∉ (dataLoop endKey l).map Prod.fst) := by
  induction l generalizing eng with
  | nil => simp [clearLoop, dataLoop]
  | cons e l ih =>
    by_cases h : endKey ≤ e.1
    · simp [clearLoop, dataLoop, h]
    · simp only [clearLoop, dataLoop, if_neg h, ih, erase_ordered, OrdMap.clear, List.filter_filter,
        List.map_cons, List.mem_cons, not_or]
      refine List.filter_congr fun x _ => ?_
      simp [Bool.and_comm]

lemma clear_eq : (r.clear eng).entries = eng.entries.filter fun e => !rawIn r e.1 := by
  rw [Replica.clear, clearLoop_entries, dataLoop_seek]
  refine List.filter_congr fun e he => ?_
  have hmem : e.1 ∈ (eng.entries.filter fun e => rawIn r e.1).map Prod.fst ↔ rawIn r e.1 := by
    constructor
    · intro h
      obtain ⟨e', he', heq⟩ := List.mem_map.mp h
      exact heq ▸ (List.mem_filter.mp he').2
    · intro h
      exact List.mem_map.mpr ⟨e, List.mem_filter.mpr ⟨he, h⟩, rfl⟩
  simp [hmem]

end Ordered

/-- On badger the loop goes over the range and leaves it as it is. -/
lemma clear_badger [Slices] : @Replica.clear .badger r eng = eng := by
  have hloop : ∀ l, @clearLoop .badger r.rangeDesc.endKey l eng = eng := by
    intro l
    induction l with
    | nil => rfl
    | cons e l ih => simp [clearLoop, ih]
  exact hloop _

lemma splitEntries_eq : r.splitEntries eng = eng.entries.filter fun e =>
    decide (newMVCCKey r.rangeDesc.startKey ≤ e.1 ∧ e.1 < newMVCCKey r.rangeDesc.endKey) := by
  exact walk_eq eng (newMVCCKey r.rangeDesc.startKey) (newMVCCKey r.rangeDesc.endKey)

end Loops

/-! ### Exactness -/

/-- Every entry stands under a key's metadata key or under one of its version keys. -/
def Encoded (eng : Engine) : Prop := ∀ e ∈ eng.entries, ∃ k, e.1 ∈ entryKeys k

lemma encoded_put {eng : Engine} {x : MVCCKey} {k : Key} (h : Encoded eng) (hx : x ∈ entryKeys k)
    (v : Entry) : Encoded (eng.put x v) := by
  intro e he
  rcases OrdMap.mem_insertEntry he with rfl | he
  · exact ⟨k, hx⟩
  · exact h e he

/-- The decoded user key is in the range. -/
def keyIn (r : Replica) (x : MVCCKey) : Bool :=
  match decodeMVCCKey x with
  | .ok (k, _, _) => r.rangeDesc.startKey ≤ k ∧ k < r.rangeDesc.endKey
  | .error _ => false

/-- A snapshot carries the entries of the range, installing one removes them, and these are the
entries that `getSplitKey` walks over and whose keys the replica accepts. -/
structure Exact [Backend] (r : Replica) (eng : Engine) : Prop where
  data : r.data eng = eng.entries.filter fun e => keyIn r e.1
  clear : (r.clear eng).entries = eng.entries.filter fun e => !keyIn r e.1
  splitEntries : r.splitEntries eng = r.data eng
  accepts : ∀ e ∈ eng.entries, ∀ k, e.1 ∈ entryKeys k →
    (e ∈ r.data eng ↔ r.validateKeyRange k = true)

section Exact

variable {r : Replica} {eng : Engine} {x : MVCCKey} {k : Key}

lemma entryKeys_eq (hx : x ∈ entryKeys k) : ∃ w, x = encodeBytes [] k ++ w := by
  rcases hx with rfl | ⟨t, rfl⟩
  · exact ⟨[], (List.append_nil _).symm⟩
  · exact ⟨tsBytes t, newMVCCTimeKey_eq k t⟩

lemma keyIn_eq (hx : x ∈ entryKeys k) :
    keyIn r x = decide (r.rangeDesc.startKey ≤ k ∧ k < r.rangeDesc.endKey) := by
  rcases hx with rfl | ⟨t, rfl⟩
  · rw [keyIn, decodeMVCCKey_key]
  · rw [keyIn, decodeMVCCKey_timeKey]

/-- Encoded bounds compare with the entries of a key as the bounds do with the key. -/
lemma lt_newMVCCKey_iff (hx : x ∈ entryKeys k) (b : Key) : x < newMVCCKey b ↔ k < b := by
  obtain ⟨w, rfl⟩ := entryKeys_eq hx
  constructor
  · intro h
    by_contra hlt
    rcases (not_lt.mp hlt).lt_or_eq with hbk | rfl
    · have := encodeBytes_lt hbk [] w
      rw [List.append_nil] at this
      exact lt_asymm h this
    · rcases eq_or_ne w [] with rfl | hw
      · rw [List.append_nil] at h
        exact lt_irrefl _ h
      · exact lt_asymm h (lt_append_of_ne_nil hw)
  · intro h
    have := encodeBytes_lt h w []
    rwa [List.append_nil] at this

/-- **The walk of `getSplitKey` is exact**, whatever the bounds. -/
theorem splitEntries_exact (h : Encoded eng) :
    r.splitEntries eng = eng.entries.filter fun e => keyIn r e.1 := by
  rw [splitEntries_eq]
  refine List.filter_congr fun e he => ?_
  obtain ⟨k, hk⟩ := h e he
  rw [keyIn_eq hk, decide_eq_decide, ← not_lt, lt_newMVCCKey_iff hk, lt_newMVCCKey_iff hk, not_lt]

lemma validateKeyRange_eq (h : r.rangeDesc.startKey < r.rangeDesc.endKey) (k : Key) :
    r.validateKeyRange k = true ↔ r.rangeDesc.startKey ≤ k ∧ k < r.rangeDesc.endKey := by
  have hne : r.rangeDesc.endKey ≠ [] := fun he => List.not_lt_nil _ (he ▸ h)
  simp [validateKeyRange_iff, RangeDescriptor.Covers, hne]

/-- Bounds without zero bytes compare with the stored keys as with the user keys. -/
lemma rawIn_eq_keyIn (hs : 0 ∉ r.rangeDesc.startKey) (he : 0 ∉ r.rangeDesc.endKey)
    (hx : ∃ k, x ∈ entryKeys k) : rawIn r x = keyIn r x := by
  obtain ⟨k, hk⟩ := hx
  obtain ⟨w, hw⟩ := entryKeys_eq hk
  rw [keyIn_eq hk, rawIn, hw, decide_eq_decide, encodeBytes_lt_raw_iff he, ← not_lt,
    encodeBytes_lt_raw_iff hs, not_lt]

section Ordered

attribute [local instance] Backend.ordered

/-- Exactness comes down to one comparison for each entry. -/
lemma exact_of_rawIn (hlt : r.rangeDesc.startKey < r.rangeDesc.endKey) (h : Encoded eng)
    (hraw : ∀ e ∈ eng.entries, rawIn r e.1 = keyIn r e.1) : Exact r eng := by
  have hdata : r.data eng = eng.entries.filter fun e => keyIn r e.1 := by
    rw [data_eq]
    exact List.filter_congr hraw
  refine ⟨hdata, ?_, (splitEntries_exact h).trans hdata.symm, fun e he k hk => ?_⟩
  · rw [clear_eq]
    exact List.filter_congr fun e he => by rw [hraw e he]
  · rw [hdata, List.mem_filter, keyIn_eq hk, validateKeyRange_eq hlt, decide_eq_true_eq]
    exact and_iff_right he

/-- An engine with one entry, the metadata of `k`. -/
def single (k : Key) : Engine :=
  OrdMap.empty.put (newMVCCKey k) (.metaData ⟨[], .zero, false⟩)

lemma entries_single (k : Key) :
    (single k).entries = [(newMVCCKey k, .metaData ⟨[], .zero, false⟩)] := rfl

lemma encoded_single (k : Key) : Encoded (single k) := by
  intro e he
  rw [entries_single, List.mem_singleton] at he
  exact ⟨k, he ▸ metaKey_mem k⟩

lemma rawIn_of_exact (h : Exact r (single k)) :
    rawIn r (newMVCCKey k) = true ↔ r.rangeDesc.startKey ≤ k ∧ k < r.rangeDesc.endKey := by
  have hdata := h.data
  rw [data_eq, entries_single] at hdata
  have heq : rawIn r (newMVCCKey k) = keyIn r (newMVCCKey k) := by
    cases hr : rawIn r (newMVCCKey k) <;> cases hk : keyIn r (newMVCCKey k) <;>
      simp [hr, hk] at hdata ⊢
  rw [heq, keyIn_eq (metaKey_mem k), decide_eq_true_eq]

/-- **When a snapshot is exact**, on the engine that `engine.go` describes. -/
theorem exact_iff (r : Replica) (hlt : r.rangeDesc.startKey < r.rangeDesc.endKey) :
    (∀ eng, Encoded eng → Exact r eng) ↔
      0 ∉ r.rangeDesc.startKey ∧ 0 ∉ r.rangeDesc.endKey := by
  constructor
  · intro h
    have hraw : ∀ k, (r.rangeDesc.startKey ≤ newMVCCKey k ∧ newMVCCKey k < r.rangeDesc.endKey) ↔
        r.rangeDesc.startKey ≤ k ∧ k < r.rangeDesc.endKey := fun k => by
      rw [← rawIn_of_exact (h (single k) (encoded_single k)), rawIn, decide_eq_true_eq]
    have hcode : ∀ {b k : Key}, (∀ w, b ≤ encodeBytes [] k ++ w) → b ≤ newMVCCKey k := fun hge => by
      simpa [newMVCCKey] using hge []
    have hs : 0 ∉ r.rangeDesc.startKey := by
      intro hs
      obtain ⟨k, hk, hge, -⟩ := exists_raw_mismatch hs
      rcases lt_or_ge (newMVCCKey k) r.rangeDesc.endKey with hend | hend
      · -- an entry below the range is taken
        exact not_lt.mpr ((hraw k).mp ⟨hcode hge, hend⟩).1 hk
      · -- the entry of the start key is left out
        have hstart := ((hraw r.rangeDesc.startKey).mpr ⟨le_rfl, hlt⟩).2
        have hlt := (lt_newMVCCKey_iff (metaKey_mem k) r.rangeDesc.startKey).mpr hk
        exact not_lt.mpr hend (hlt.trans hstart)
    refine ⟨hs, fun he => ?_⟩
    obtain ⟨k, hk, hge, habove⟩ := exists_raw_mismatch he
    have hend := ((hraw k).mpr ⟨habove _ hs hlt, hk⟩).2
    exact not_lt.mpr (hcode hge) hend
  · rintro ⟨hs, he⟩ eng hok
    exact exact_of_rawIn hlt hok fun e hmem => rawIn_eq_keyIn hs he (hok e hmem)

def upToB00 : Replica := ⟨1, ⟨1, [97], [98, 0], []⟩⟩

def fromB00 : Replica := ⟨1, ⟨1, [98, 0], [122], []⟩⟩

-- With an end key `b00` the key `b` is of the range, and its entry is neither sent nor removed.
-- With a start key `b00` it is not, and its entry is sent and removed.
example : upToB00.validateKeyRange [98] = true ∧ upToB00.data (single [98]) = [] ∧
    (upToB00.clear (single [98])).entries = (single [98]).entries := by decide +kernel

example : fromB00.validateKeyRange [98] = false ∧
    fromB00.data (single [98]) = (single [98]).entries ∧
    (fromB00.clear (single [98])).entries = [] := by decide +kernel

end Ordered

section Shipped

variable [Slices]

attribute [local instance] Backend.badger

/-- **When a snapshot is exact on badger**: when there is nothing to carry and nothing to remove. -/
theorem exact_badger_iff (r : Replica) (hlt : r.rangeDesc.startKey < r.rangeDesc.endKey)
    (eng : Engine) (h : Encoded eng) :
    Exact r eng ↔ ∀ e ∈ eng.entries, keyIn r e.1 = false ∧ rawIn r e.1 = false := by
  constructor
  · intro hex
    have hkey : ∀ e ∈ eng.entries, keyIn r e.1 = false := by
      have hclear := hex.clear
      rw [clear_badger] at hclear
      intro e he
      rw [hclear, List.mem_filter] at he
      simpa using he.2
    have hdata : (r.data eng).length = 0 := by
      rw [hex.data, List.length_eq_zero_iff, List.filter_eq_nil_iff]
      exact fun e he => by simp [hkey e he]
    rw [length_data, List.length_eq_zero_iff, List.filter_eq_nil_iff] at hdata
    exact fun e he => ⟨hkey e he, by simpa using hdata e he⟩
  · intro hnone
    have hkey : (eng.entries.filter fun e => keyIn r e.1) = [] :=
      List.filter_eq_nil_iff.mpr fun e he => by simp [(hnone e he).1]
    have hdata : r.data eng = [] := by
      rw [← List.length_eq_zero_iff, length_data, List.length_eq_zero_iff,
        List.filter_eq_nil_iff]
      exact fun e he => by simp [(hnone e he).2]
    refine ⟨hdata.trans hkey.symm, ?_, ?_, fun e he k hk => ?_⟩
    · rw [clear_badger, eq_comm, List.filter_eq_self]
      exact fun e he => by simp [(hnone e he).1]
    · rw [splitEntries_exact h, hkey, hdata]
    · have hout := (hnone e he).1
      rw [keyIn_eq hk, decide_eq_false_iff_not] at hout
      rw [hdata, validateKeyRange_eq hlt]
      exact iff_of_false List.not_mem_nil hout

end Shipped

section Traces

attribute [local instance] Slices.twoItems Backend.badger

def lowerHalf : Replica := ⟨1, ⟨1, [97], [109], []⟩⟩

theorem exact_badger_iff_outside : Exact lowerHalf (single [122]) :=
  (exact_badger_iff lowerHalf (by decide) (single [122]) (encoded_single [122])).mpr (by decide)

/-- The keys `b` and `c`, each with a committed version. -/
def twoKeys : Engine :=
  (((OrdMap.empty.put (newMVCCKey [98]) (.metaData ⟨[], ⟨5, 0⟩, false⟩)).put
    (newMVCCTimeKey [98] ⟨5, 0⟩) (.value { value := some { bytes := [1] } })).put
    (newMVCCKey [99]) (.metaData ⟨[], ⟨7, 0⟩, false⟩)).put
    (newMVCCTimeKey [99] ⟨7, 0⟩) (.value { value := some { bytes := [2] } })

lemma encoded_twoKeys : Encoded twoKeys := by
  have hempty : Encoded (OrdMap.empty : Engine) := fun _ he => by cases he
  exact encoded_put (encoded_put (encoded_put (encoded_put hempty (metaKey_mem [98]) _)
    (versionKeys_subset _ (timeKey_mem [98] _)) _) (metaKey_mem [99]) _)
    (versionKeys_subset _ (timeKey_mem [99] _)) _

/-- The four entries are of the range, and no bound has a zero byte. The snapshot has those of `c`
twice and none of `b`, and nothing is removed. -/
theorem snapshot_of_reused_slices :
    Encoded twoKeys ∧ 0 ∉ lowerHalf.rangeDesc.startKey ∧ 0 ∉ lowerHalf.rangeDesc.endKey ∧
      (∀ e ∈ twoKeys.entries, keyIn lowerHalf e.1 = true) ∧
      lowerHalf.splitEntries twoKeys = twoKeys.entries ∧
      lowerHalf.data twoKeys = twoKeys.entries.drop 2 ++ twoKeys.entries.drop 2 ∧
      lowerHalf.clear twoKeys = twoKeys ∧ ¬ Exact lowerHalf twoKeys := by
  have hdata : lowerHalf.data twoKeys = twoKeys.entries.drop 2 ++ twoKeys.entries.drop 2 := by
    decide +kernel
  refine ⟨encoded_twoKeys, by decide, by decide, by decide +kernel, by decide +kernel, hdata,
    clear_badger _ _, fun h => ?_⟩
  have hexact := h.data
  rw [hdata] at hexact
  exact absurd hexact (by decide +kernel)

end Traces

end Exact

end Ancestor
