import Ancestor.Encoding
import Ancestor.Timestamp

/-!
User keys and the encoded keys of the engine (`meta/data.go`, `util/keys.go`).

A user key `k` owns one metadata entry, under `newMVCCKey k`, and one entry for each of its
versions, under `newMVCCTimeKey k ts`. The entries of a key are contiguous in the engine,
the metadata first and then the versions from the newest to the oldest.
-/

namespace Ancestor

open Encoding

abbrev Key := Bytes
abbrev MVCCKey := Bytes

def encodeTimestampSize : ℕ := 12

def systemPrefix : Bytes := [0x00]
def txnPrefix : Bytes := [0x01]
def userPrefix : Bytes := [0x02]
def endPrefix : Bytes := [0x03]

/-- The next byte string in lexicographic order. -/
def bytesNext (b : Bytes) : Bytes := b ++ [0]

def newKey (bs : List Bytes) : Key := bs.flatten

def newMVCCKey (key : Key) : MVCCKey := encodeBytes [] key

def newMVCCTimeKey (k : Key) (ts : Timestamp) : MVCCKey :=
  encodeUint32Decreasing (encodeUint64Decreasing (encodeBytes [] k) ts.wallTime.toUInt64)
    ts.logical.toUInt32

/-- `MVCCKey.Decode`: the user key, the timestamp, and whether the key carries one. -/
def decodeMVCCKey (k : MVCCKey) : Except String (Key × Timestamp × Bool) := do
  let (buf, key) ← decodeBytes k []
  if buf.length = 0 then return (key, .zero, false)
  if buf.length ≠ encodeTimestampSize then
    throw "there should be 12 bytes for encoded timestamp"
  let (buf, wt) ← decodeUint64Decreasing buf
  let (_, lt) ← decodeUint32Decreasing buf
  return (key, ⟨wt.toInt64, lt.toInt32⟩, true)

/-! ### The order of encoded keys -/

/-- The twelve bytes a version's timestamp adds to the key. -/
def tsBytes (ts : Timestamp) : Bytes :=
  Bytes.bigEndian 8 (~~~ts.wallTime.toUInt64).toNat ++
    Bytes.bigEndian 4 (~~~ts.logical.toUInt32).toNat

@[simp] lemma length_tsBytes (ts : Timestamp) : (tsBytes ts).length = 12 := by simp [tsBytes]

lemma tsBytes_ne_nil (ts : Timestamp) : tsBytes ts ≠ [] :=
  List.ne_nil_of_length_pos (by simp)

lemma newMVCCTimeKey_eq (k : Key) (ts : Timestamp) :
    newMVCCTimeKey k ts = newMVCCKey k ++ tsBytes ts := by
  simp [newMVCCTimeKey, newMVCCKey, tsBytes, encodeUint32Decreasing, encodeUint64Decreasing,
    encodeUint32_eq, encodeUint64_eq]

/-- **A version's key decodes to its user key and its timestamp.** -/
theorem decodeMVCCKey_timeKey (k : Key) (ts : Timestamp) :
    decodeMVCCKey (newMVCCTimeKey k ts) = .ok (k, ts, true) := by
  have h64 := decodeUint64_encode (~~~ts.wallTime.toUInt64)
    (encodeUint32 [] (~~~ts.logical.toUInt32))
  have h32 := decodeUint32_encode (~~~ts.logical.toUInt32) []
  rw [encodeUint64_eq, encodeUint32_eq, List.nil_append, List.nil_append] at h64
  rw [encodeUint32_eq, List.nil_append, List.append_nil] at h32
  have hlen : (tsBytes ts).length = 12 := length_tsBytes ts
  have hdec := decodeBytes_encode k (tsBytes ts)
  simp only [decodeMVCCKey, newMVCCTimeKey_eq, newMVCCKey, hdec, encodeTimestampSize,
    bind, Except.bind, hlen, decodeUint64Decreasing, decodeUint32Decreasing]
  simp only [tsBytes, h64, h32, Except.map, pure, Except.pure]
  simp

lemma decodeMVCCKey_key (k : Key) : decodeMVCCKey (newMVCCKey k) = .ok (k, .zero, false) := by
  have hdec := decodeBytes_encode k []
  rw [List.append_nil] at hdec
  simp [decodeMVCCKey, newMVCCKey, hdec, bind, Except.bind, pure, Except.pure]

lemma not_toUInt64_inj {a b : Int64} (h : (~~~a.toUInt64).toNat = (~~~b.toUInt64).toNat) :
    a = b := by
  have : a.toUInt64 = b.toUInt64 := by simpa [UInt64.not_inj] using UInt64.toNat_inj.mp h
  cases a; cases b; cases this; rfl

lemma not_toUInt32_inj {a b : Int32} (h : (~~~a.toUInt32).toNat = (~~~b.toUInt32).toNat) :
    a = b := by
  have : a.toUInt32 = b.toUInt32 := by simpa [UInt32.not_inj] using UInt32.toNat_inj.mp h
  cases a; cases b; cases this; rfl

lemma tsBytes_injective : Function.Injective tsBytes := by
  rintro ⟨w, l⟩ ⟨w', l'⟩ h
  obtain ⟨h1, h2⟩ := List.append_inj h (by simp)
  have hw := Bytes.bigEndian_injOn (UInt64.toNat_lt _) (UInt64.toNat_lt _) h1
  have hl := Bytes.bigEndian_injOn (UInt32.toNat_lt _) (UInt32.toNat_lt _) h2
  exact Timestamp.mk.injEq .. ▸ ⟨not_toUInt64_inj hw, not_toUInt32_inj hl⟩

lemma newMVCCKey_inj {k k' : Key} : newMVCCKey k = newMVCCKey k' ↔ k = k' := by
  constructor
  · intro h
    exact (encodeBytes_inj (u := []) (w := []) (by simpa [newMVCCKey] using h)).1
  · rintro rfl; rfl

lemma newMVCCTimeKey_inj {k k' : Key} {t t' : Timestamp} :
    newMVCCTimeKey k t = newMVCCTimeKey k' t' ↔ k = k' ∧ t = t' := by
  constructor
  · intro h
    rw [newMVCCTimeKey_eq, newMVCCTimeKey_eq] at h
    obtain ⟨hk, ht⟩ := encodeBytes_inj h
    exact ⟨hk, tsBytes_injective ht⟩
  · rintro ⟨rfl, rfl⟩; rfl

lemma newMVCCKey_ne_timeKey (k k' : Key) (t : Timestamp) :
    newMVCCKey k ≠ newMVCCTimeKey k' t := by
  intro h
  rw [newMVCCTimeKey_eq, ← List.append_nil (newMVCCKey k)] at h
  exact tsBytes_ne_nil t (encodeBytes_inj h).2.symm

lemma newMVCCTimeKey_ne_key (k k' : Key) (t : Timestamp) :
    newMVCCTimeKey k t ≠ newMVCCKey k' := (newMVCCKey_ne_timeKey k' k t).symm

/-- Complementing turns the order of non-negative wall times around. -/
lemma not_toUInt64_lt {a b : Int64} (ha : 0 ≤ a) (hb : 0 ≤ b) :
    (~~~a.toUInt64).toNat < (~~~b.toUInt64).toNat ↔ b < a := by
  have e : ∀ c : Int64, 0 ≤ c → (c.toUInt64.toNat : Int) = c.toInt := fun c hc => by
    have h0 : 0 ≤ c.toInt := by simpa [Int64.le_iff_toInt_le] using hc
    have hlt : c.toBitVec.toNat < 2 ^ 64 := c.toBitVec.isLt
    have hcond : c.toInt = _ := BitVec.toInt_eq_toNat_cond c.toBitVec
    have hdef : c.toUInt64.toNat = c.toBitVec.toNat := rfl
    split_ifs at hcond <;> omega
  have ea := e a ha
  have eb := e b hb
  have la := UInt64.toNat_lt a.toUInt64
  have lb := UInt64.toNat_lt b.toUInt64
  rw [Int64.lt_iff_toInt_lt, ← ea, ← eb]
  simp only [UInt64.toNat_not, UInt64.size]
  omega

lemma not_toUInt32_lt {a b : Int32} (ha : 0 ≤ a) (hb : 0 ≤ b) :
    (~~~a.toUInt32).toNat < (~~~b.toUInt32).toNat ↔ b < a := by
  have e : ∀ c : Int32, 0 ≤ c → (c.toUInt32.toNat : Int) = c.toInt := fun c hc => by
    have h0 : 0 ≤ c.toInt := by simpa [Int32.le_iff_toInt_le] using hc
    have hlt : c.toBitVec.toNat < 2 ^ 32 := c.toBitVec.isLt
    have hcond : c.toInt = _ := BitVec.toInt_eq_toNat_cond c.toBitVec
    have hdef : c.toUInt32.toNat = c.toBitVec.toNat := rfl
    split_ifs at hcond <;> omega
  have ea := e a ha
  have eb := e b hb
  have la := UInt32.toNat_lt a.toUInt32
  have lb := UInt32.toNat_lt b.toUInt32
  rw [Int32.lt_iff_toInt_lt, ← ea, ← eb]
  simp only [UInt32.toNat_not, UInt32.size]
  omega

/-- Versions of a key sort as the complements of their parts. -/
lemma newMVCCTimeKey_lt_code (k : Key) (t u : Timestamp) :
    newMVCCTimeKey k t < newMVCCTimeKey k u ↔
      (~~~t.wallTime.toUInt64).toNat < (~~~u.wallTime.toUInt64).toNat ∨
        u.wallTime = t.wallTime ∧
          (~~~t.logical.toUInt32).toNat < (~~~u.logical.toUInt32).toNat := by
  have hinj : ∀ a b : Int64, Bytes.bigEndian 8 (~~~a.toUInt64).toNat =
      Bytes.bigEndian 8 (~~~b.toUInt64).toNat ↔ b = a := fun a b => by
    constructor
    · intro h
      exact (not_toUInt64_inj
        (Bytes.bigEndian_injOn (UInt64.toNat_lt _) (UInt64.toNat_lt _) h)).symm
    · rintro rfl; rfl
  have hpre : newMVCCTimeKey k t < newMVCCTimeKey k u ↔ tsBytes t < tsBytes u := by
    rw [newMVCCTimeKey_eq, newMVCCTimeKey_eq, Bytes.append_lt_append_iff rfl]
    simp
  rw [hpre, tsBytes, tsBytes, Bytes.append_lt_append_iff (by simp),
    Bytes.bigEndian_lt_iff (UInt64.toNat_lt _) (UInt64.toNat_lt _),
    Bytes.bigEndian_lt_iff (UInt32.toNat_lt _) (UInt32.toNat_lt _), hinj]

/-- **Versions of a key sort from the newest to the oldest.** -/
theorem newMVCCTimeKey_lt_iff (k : Key) {t u : Timestamp} (ht : t.Nonneg) (hu : u.Nonneg) :
    newMVCCTimeKey k t < newMVCCTimeKey k u ↔ u < t := by
  rw [newMVCCTimeKey_lt_code, not_toUInt64_lt ht.1 hu.1, not_toUInt32_lt ht.2 hu.2,
    Timestamp.lt_iff]

/-- Nothing lies between a string and its `Next`. -/
lemma bytesNext_le {a b : Bytes} (h : a < b) : bytesNext a ≤ b := by
  induction a generalizing b with
  | nil =>
    rcases b with _ | ⟨y, b⟩
    · exact absurd h (lt_irrefl _)
    · refine not_lt.mp fun hlt => ?_
      rcases List.cons_lt_cons_iff.mp hlt with hy | ⟨-, hb⟩
      · exact UInt8.not_lt_zero hy
      · exact List.not_lt_nil _ hb
  | cons x a ih =>
    rcases b with _ | ⟨y, b⟩
    · exact absurd h (List.not_lt_nil _)
    · refine not_lt.mp fun hlt => ?_
      rcases List.cons_lt_cons_iff.mp h with hxy | ⟨rfl, hab⟩
      · rcases List.cons_lt_cons_iff.mp hlt with hyx | ⟨rfl, -⟩
        · exact lt_irrefl _ (hxy.trans hyx)
        · exact lt_irrefl _ hxy
      · rcases List.cons_lt_cons_iff.mp hlt with hyx | ⟨-, hba⟩
        · exact lt_irrefl _ hyx
        · exact absurd hba (not_lt.mpr (ih hab))

lemma lt_bytesNext (a : Bytes) : a < bytesNext a := Bytes.lt_append_of_ne_nil (by simp)

lemma le_iff_lt_bytesNext {a b : Bytes} : a ≤ b ↔ a < bytesNext b :=
  ⟨fun h => h.trans_lt (lt_bytesNext b), fun h => not_lt.mp fun hba =>
    absurd (bytesNext_le hba) (not_le.mpr h)⟩

lemma newMVCCKey_lt_iff {a b : Key} : newMVCCKey a < newMVCCKey b ↔ a < b := by
  constructor
  · intro h
    rcases lt_trichotomy a b with hab | rfl | hab
    · exact hab
    · exact absurd h (lt_irrefl _)
    · have hba : newMVCCKey b < newMVCCKey a := by
        simpa [newMVCCKey] using encodeBytes_lt hab [] []
      exact absurd h (not_lt.mpr hba.le)
  · intro h
    simpa [newMVCCKey] using encodeBytes_lt h [] []

lemma newMVCCKey_le_iff {a b : Key} : newMVCCKey a ≤ newMVCCKey b ↔ a ≤ b := by
  rw [← not_lt, newMVCCKey_lt_iff, not_lt]

/-- **The entries of a key are contiguous.** -/
theorem key_of_between {k k' : Key} {a b w : Bytes} (h : newMVCCKey k ++ a ≤ newMVCCKey k' ++ w)
    (h' : newMVCCKey k' ++ w ≤ newMVCCKey k ++ b) : k' = k := by
  rcases lt_trichotomy k' k with hlt | heq | hlt
  · exact absurd (encodeBytes_lt hlt w a) (not_lt.mpr h)
  · exact heq
  · exact absurd (encodeBytes_lt hlt b w) (not_lt.mpr h')

lemma newMVCCTimeKey_le_iff (k : Key) {t u : Timestamp} (ht : t.Nonneg) (hu : u.Nonneg) :
    newMVCCTimeKey k t ≤ newMVCCTimeKey k u ↔ u ≤ t := by
  rw [← not_lt, newMVCCTimeKey_lt_iff k hu ht, not_lt]

lemma newMVCCKey_lt_timeKey (k : Key) (t : Timestamp) : newMVCCKey k < newMVCCTimeKey k t := by
  rw [newMVCCTimeKey_eq]
  exact Bytes.lt_append_of_ne_nil (tsBytes_ne_nil t)

/-- Past a version's key and up to the next key stand the older versions. -/
lemma bytesNext_timeKey_le_iff (k : Key) {t u : Timestamp} (ht : t.Nonneg) (hu : u.Nonneg) :
    bytesNext (newMVCCTimeKey k t) ≤ newMVCCTimeKey k u ↔ u < t := by
  rw [← newMVCCTimeKey_lt_iff k ht hu]
  exact ⟨fun h => (lt_bytesNext _).trans_le h, bytesNext_le⟩

/-! ### Encoding and decoding are inverse -/

/-- A string other than the empty one that decodes is the key the encoder makes. -/
lemma decodeMVCCKey_ok {m : MVCCKey} {k : Key} {ts : Timestamp} {ok : Bool} (hm : m ≠ [])
    (h : decodeMVCCKey m = .ok (k, ts, ok)) :
    m = if ok then newMVCCTimeKey k ts else newMVCCKey k := by
  unfold decodeMVCCKey at h
  cases hd : decodeBytes m [] with
  | error e => rw [hd] at h; cases h
  | ok r =>
    obtain ⟨buf, key⟩ := r
    have hbuf := decodeBytes_ok hm hd
    simp only [hd, bind, Except.bind] at h
    by_cases h0 : buf.length = 0
    · -- no timestamp follows the code of the key
      rw [if_pos h0] at h
      cases h
      rw [List.length_eq_zero_iff.mp h0, List.append_nil] at hbuf
      exact hbuf
    · rw [if_neg h0] at h
      by_cases h12 : buf.length ≠ encodeTimestampSize
      · rw [if_pos h12] at h; cases h
      · rw [if_neg h12] at h
        cases h64 : decodeUint64Decreasing buf with
        | error e => rw [h64] at h; cases h
        | ok r64 =>
          obtain ⟨buf', wt⟩ := r64
          simp only [h64, pure, Except.pure] at h
          cases h32 : decodeUint32Decreasing buf' with
          | error e => rw [h32] at h; cases h
          | ok r32 =>
            obtain ⟨rest, lt⟩ := r32
            rw [h32] at h
            cases h
            have e64 := decodeUint64Decreasing_ok h64
            have e32 := decodeUint32Decreasing_ok h32
            simp only [encodeUint64Decreasing, encodeUint64_eq, List.nil_append] at e64
            simp only [encodeUint32Decreasing, encodeUint32_eq, List.nil_append] at e32
            -- twelve bytes are read, so none is left
            have hrest : rest = [] := by
              have hlen : buf.length = 12 := by simpa [encodeTimestampSize] using h12
              rw [e64, e32] at hlen
              simp only [List.length_append, Bytes.length_bigEndian] at hlen
              exact List.length_eq_zero_iff.mp (by omega)
            subst hrest
            rw [if_pos rfl, newMVCCTimeKey_eq, hbuf, newMVCCKey, e64, e32]
            simp [tsBytes]

/-- **Decoding inverts encoding, in both directions.** Every key the encoder makes decodes to
what it was made from, every non-empty string that decodes is the key the encoder makes of the
result, and an escaped string is read off whatever follows it. -/
theorem decode_inverts_encode :
    (∀ (k : Key) (ts : Timestamp), decodeMVCCKey (newMVCCTimeKey k ts) = .ok (k, ts, true) ∧
      decodeMVCCKey (newMVCCKey k) = .ok (k, .zero, false)) ∧
    (∀ (m : MVCCKey) (k : Key) (ts : Timestamp) (ok : Bool), m ≠ [] →
      decodeMVCCKey m = .ok (k, ts, ok) →
      m = if ok then newMVCCTimeKey k ts else newMVCCKey k) ∧
    ∀ d rest : Bytes, decodeBytes (encodeBytes [] d ++ rest) [] = .ok (rest, d) := by
  refine ⟨fun k ts => ⟨decodeMVCCKey_timeKey k ts, decodeMVCCKey_key k⟩, ?_,
    fun d rest => decodeBytes_encode d rest⟩
  intro m k ts ok hm h
  exact decodeMVCCKey_ok hm h

theorem decode_inverts_encode_zero_byte :
    decodeMVCCKey [0x00, 0xff, 0x00, 0x01] = .ok ([0x00], .zero, false) ∧
      [0x00, 0xff, 0x00, 0x01] = newMVCCKey [0x00] :=
  ⟨by decide, decode_inverts_encode.2.1 [0x00, 0xff, 0x00, 0x01] [0x00] .zero false (by decide)
    (by decide)⟩

/-! ### The entries of a key in the order of encoded keys -/

/-- The metadata key of `a`, or the key of a version of `a` with a timestamp whose parts are not
negative. -/
def IsEntryOf (a : Key) (m : MVCCKey) : Prop :=
  m = newMVCCKey a ∨ ∃ t : Timestamp, t.Nonneg ∧ m = newMVCCTimeKey a t

lemma IsEntryOf.exists_append {a : Key} {m : MVCCKey} (h : IsEntryOf a m) :
    ∃ w, m = newMVCCKey a ++ w := by
  rcases h with rfl | ⟨t, -, rfl⟩
  · exact ⟨[], by simp⟩
  · exact ⟨tsBytes t, newMVCCTimeKey_eq a t⟩

lemma IsEntryOf.key_le {a : Key} {m : MVCCKey} (h : IsEntryOf a m) : newMVCCKey a ≤ m := by
  rcases h with rfl | ⟨t, -, rfl⟩
  · exact le_rfl
  · exact (newMVCCKey_lt_timeKey a t).le

lemma IsEntryOf.lt_of_lt {a b : Key} {m n : MVCCKey} (hab : a < b) (hm : IsEntryOf a m)
    (hn : IsEntryOf b n) : m < n := by
  obtain ⟨u, rfl⟩ := hm.exists_append
  obtain ⟨w, rfl⟩ := hn.exists_append
  exact encodeBytes_lt hab u w

/-- Between the key of `a` and the key of its `Next` stand the entries of `a` and no others. -/
lemma IsEntryOf.between_iff {a b : Key} {m : MVCCKey} (hm : IsEntryOf b m) :
    newMVCCKey a ≤ m ∧ m < newMVCCKey (bytesNext a) ↔ b = a := by
  constructor
  · rintro ⟨hle, hlt⟩
    rcases lt_trichotomy b a with hba | heq | hab
    · exact absurd (hm.lt_of_lt hba (Or.inl rfl)) (not_lt.mpr hle)
    · exact heq
    · -- past `a` a key is at least `Next a`, and so are its entries
      rcases (bytesNext_le hab).lt_or_eq with hnext | hnext
      · exact absurd (IsEntryOf.lt_of_lt hnext (Or.inl rfl) hm) (not_lt.mpr hlt.le)
      · exact absurd (hnext ▸ hm.key_le) (not_le.mpr hlt)
  · rintro rfl
    exact ⟨hm.key_le, hm.lt_of_lt (lt_bytesNext b) (Or.inl rfl)⟩

/-- Entries of one key, in the engine's order: the metadata first, then the versions from the
newest on. -/
lemma sorted_entries {a : Key} {ms : List MVCCKey} (hs : ms.Pairwise (· < ·))
    (hall : ∀ m ∈ ms, IsEntryOf a m) :
    ∃ ts : List Timestamp, ts.Pairwise (· > ·) ∧ (∀ t ∈ ts, t.Nonneg) ∧
      (ms = ts.map (newMVCCTimeKey a) ∨ ms = newMVCCKey a :: ts.map (newMVCCTimeKey a)) := by
  induction ms with
  | nil => exact ⟨[], .nil, by simp, by simp⟩
  | cons m ms ih =>
    obtain ⟨hm, hs⟩ := List.pairwise_cons.mp hs
    obtain ⟨ts, hts, hnn, hms⟩ := ih hs fun n hn => hall n (List.mem_cons_of_mem m hn)
    have hmeta : ms = ts.map (newMVCCTimeKey a) := by
      rcases hms with hms | hms
      · exact hms
      · have hlt : m < newMVCCKey a := hm _ (by rw [hms]; exact List.mem_cons_self)
        exact absurd (hall m List.mem_cons_self).key_le (not_le.mpr hlt)
    rcases hall m List.mem_cons_self with rfl | ⟨t, ht, rfl⟩
    · exact ⟨ts, hts, hnn, Or.inr (by rw [hmeta])⟩
    · refine ⟨t :: ts, List.pairwise_cons.mpr ⟨?_, hts⟩, ?_, Or.inl (by rw [hmeta]; rfl)⟩
      · intro u hu
        have hlt := hm (newMVCCTimeKey a u) (by rw [hmeta]; exact List.mem_map_of_mem hu)
        exact (newMVCCTimeKey_lt_iff a ht (hnn u hu)).mp hlt
      · intro u hu
        rcases List.mem_cons.mp hu with rfl | hu
        · exact ht
        · exact hnn u hu

/-- **The encoded order is the MVCC order.** Entries compare as their keys do; of one key, the
metadata stands before the versions and a newer version before an older one. So in any sorted
run of encoded keys the stretch from the key of `a` up to the key of its `Next` is made of the
entries of `a`, with the newest version first. -/
theorem encoded_order :
    (∀ (a b : Key) (m n : MVCCKey), a < b → IsEntryOf a m → IsEntryOf b n → m < n) ∧
    (∀ (a : Key) (t : Timestamp), t.Nonneg → newMVCCKey a < newMVCCTimeKey a t) ∧
    (∀ (a : Key) (t u : Timestamp), t.Nonneg → u.Nonneg →
      (newMVCCTimeKey a t < newMVCCTimeKey a u ↔ u.less t = true)) ∧
    (∀ (a b : Key) (m : MVCCKey), IsEntryOf b m →
      (newMVCCKey a ≤ m ∧ m < newMVCCKey (bytesNext a) ↔ IsEntryOf a m)) ∧
    ∀ (a : Key) (ms : List MVCCKey), ms.Pairwise (· < ·) → (∀ m ∈ ms, ∃ b, IsEntryOf b m) →
      ∃ ts : List Timestamp, ts.Pairwise (fun t u => u.less t = true) ∧
        ((ms.filter fun m => newMVCCKey a ≤ m ∧ m < newMVCCKey (bytesNext a)) =
            ts.map (newMVCCTimeKey a) ∨
          (ms.filter fun m => newMVCCKey a ≤ m ∧ m < newMVCCKey (bytesNext a)) =
            newMVCCKey a :: ts.map (newMVCCTimeKey a)) := by
  have hbetween : ∀ (a b : Key) (m : MVCCKey), IsEntryOf b m →
      (newMVCCKey a ≤ m ∧ m < newMVCCKey (bytesNext a) ↔ IsEntryOf a m) := by
    intro a b m hm
    rw [hm.between_iff]
    constructor
    · rintro rfl; exact hm
    · intro hma
      obtain ⟨u, hu⟩ := hm.exists_append
      obtain ⟨w, hw⟩ := hma.exists_append
      exact (encodeBytes_inj (hu ▸ hw)).1
  refine ⟨fun a b m n hab hm hn => hm.lt_of_lt hab hn, fun a t _ => newMVCCKey_lt_timeKey a t,
    ?_, hbetween, ?_⟩
  · intro a t u ht hu
    rw [newMVCCTimeKey_lt_iff a ht hu, Timestamp.less_iff]
  · intro a ms hs hall
    obtain ⟨ts, hts, -, hms⟩ := sorted_entries (a := a)
      (hs.filter fun m => decide (newMVCCKey a ≤ m ∧ m < newMVCCKey (bytesNext a))) (by
        intro m hm
        obtain ⟨hmem, hin⟩ := List.mem_filter.mp hm
        obtain ⟨b, hb⟩ := hall m hmem
        exact (hbetween a b m hb).mp (of_decide_eq_true hin))
    exact ⟨ts, hts.imp fun h => (Timestamp.less_iff _ _).mpr h, hms⟩

theorem encoded_order_prefix_keys :
    newMVCCTimeKey [0x61] ⟨0, 0⟩ < newMVCCTimeKey [0x61, 0x00] ⟨5, 1⟩ ∧
      newMVCCTimeKey [0x61] ⟨5, 1⟩ < newMVCCTimeKey [0x61] ⟨5, 0⟩ :=
  ⟨encoded_order.1 [0x61] [0x61, 0x00] _ _ (by decide) (Or.inr ⟨⟨0, 0⟩, by decide, rfl⟩)
      (Or.inr ⟨⟨5, 1⟩, by decide, rfl⟩),
    (encoded_order.2.2.1 [0x61] ⟨5, 1⟩ ⟨5, 0⟩ (by decide) (by decide)).mpr (by decide)⟩

end Ancestor
