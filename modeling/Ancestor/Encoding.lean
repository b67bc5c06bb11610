import Ancestor.Lib.Bytes

/-!
The key encodings of `util/encoding/encoding.go`: fixed-width big-endian integers, also
complemented so that they sort downwards, and byte strings escaped so that they sort as
the strings do and end where they say.
-/

namespace Ancestor.Encoding

def encodeUint32 (b : Bytes) (v : UInt32) : Bytes :=
  b ++ [(v >>> 24).toUInt8, (v >>> 16).toUInt8, (v >>> 8).toUInt8, v.toUInt8]

def encodeUint32Decreasing (b : Bytes) (v : UInt32) : Bytes := encodeUint32 b (~~~v)

def decodeUint32 : Bytes → Except String (Bytes × UInt32)
  | b0 :: b1 :: b2 :: b3 :: b =>
    .ok (b, (b0.toUInt32 <<< 24) ||| (b1.toUInt32 <<< 16) ||| (b2.toUInt32 <<< 8) ||| b3.toUInt32)
  | _ => .error "insufficient bytes to decode uint32 int value"

def decodeUint32Decreasing (b : Bytes) : Except String (Bytes × UInt32) :=
  (decodeUint32 b).map fun r => (r.1, ~~~r.2)

def encodeUint64 (b : Bytes) (v : UInt64) : Bytes :=
  b ++ [(v >>> 56).toUInt8, (v >>> 48).toUInt8, (v >>> 40).toUInt8, (v >>> 32).toUInt8,
    (v >>> 24).toUInt8, (v >>> 16).toUInt8, (v >>> 8).toUInt8, v.toUInt8]

def encodeUint64Decreasing (b : Bytes) (v : UInt64) : Bytes := encodeUint64 b (~~~v)

def decodeUint64 : Bytes → Except String (Bytes × UInt64)
  | b0 :: b1 :: b2 :: b3 :: b4 :: b5 :: b6 :: b7 :: b =>
    .ok (b, (b0.toUInt64 <<< 56) ||| (b1.toUInt64 <<< 48) ||| (b2.toUInt64 <<< 40) |||
      (b3.toUInt64 <<< 32) ||| (b4.toUInt64 <<< 24) ||| (b5.toUInt64 <<< 16) |||
      (b6.toUInt64 <<< 8) ||| b7.toUInt64)
  | _ => .error "insufficient bytes to decode uint64 int value"

def decodeUint64Decreasing (b : Bytes) : Except String (Bytes × UInt64) :=
  (decodeUint64 b).map fun r => (r.1, ~~~r.2)

structure Escapes where
  escape : UInt8
  escapedTerm : UInt8
  escaped00 : UInt8
  escapedFF : UInt8

def ascendingEscapes : Escapes := ⟨0x00, 0x01, 0xff, 0x00⟩

/-- Appends the escaped `data` and the terminator to `b`. The source copies the runs between
two escape bytes at a time; this goes byte by byte. -/
def encodeBytes (b : Bytes) : Bytes → Bytes
  | [] => b ++ [ascendingEscapes.escape, ascendingEscapes.escapedTerm]
  | x :: data =>
    if x = ascendingEscapes.escape then
      encodeBytes (b ++ [ascendingEscapes.escape, ascendingEscapes.escaped00]) data
    else encodeBytes (b ++ [x]) data

/-- The loop of `decodeBytes`: what is left of the input and what has been decoded. -/
def decodeLoop (e : Escapes) : Bytes → Bytes → Except String (Bytes × Bytes)
  | [], _ => .error "did not find terminator"
  | [x], _ => if x = e.escape then .error "malformed escape" else .error "did not find terminator"
  | x :: v :: b, r =>
    if x = e.escape then
      if v = e.escapedTerm then .ok (b, r)
      else if v = e.escaped00 then decodeLoop e b (r ++ [e.escapedFF])
      else .error "unknown escape"
    else decodeLoop e (v :: b) (r ++ [x])

-- An empty input decodes to an empty string, without an error.
def decodeBytesWith (b r : Bytes) (e : Escapes) : Except String (Bytes × Bytes) :=
  if b.length = 0 then .ok ([], []) else decodeLoop e b r

def decodeBytes (b r : Bytes) : Except String (Bytes × Bytes) :=
  decodeBytesWith b r ascendingEscapes

/-! ### Fixed-width integers -/

lemma encodeUint32_eq (b : Bytes) (v : UInt32) :
    encodeUint32 b v = b ++ Bytes.bigEndian 4 v.toNat := by
  simp only [encodeUint32, Bytes.bigEndian, List.append_cancel_left_eq, List.cons.injEq, and_true,
    ← UInt8.toNat_inj, UInt32.toNat_toUInt8, UInt32.toNat_shiftRight, UInt8.toNat_ofNat',
    Nat.shiftRight_eq_div_pow]
  simp

lemma encodeUint64_eq (b : Bytes) (v : UInt64) :
    encodeUint64 b v = b ++ Bytes.bigEndian 8 v.toNat := by
  simp only [encodeUint64, Bytes.bigEndian, List.append_cancel_left_eq, List.cons.injEq, and_true,
    ← UInt8.toNat_inj, UInt64.toNat_toUInt8, UInt64.toNat_shiftRight, UInt8.toNat_ofNat',
    Nat.shiftRight_eq_div_pow]
  simp

lemma decodeUint32_encode (v : UInt32) (u : Bytes) :
    decodeUint32 (encodeUint32 [] v ++ u) = .ok (u, v) := by
  simp only [encodeUint32, decodeUint32, List.nil_append, List.cons_append, Except.ok.injEq,
    Prod.mk.injEq, true_and]
  refine UInt32.eq_of_toBitVec_eq (BitVec.eq_of_getLsbD_eq fun i hi => ?_)
  simp only [UInt32.toBitVec_or, UInt32.toBitVec_shiftLeft, UInt8.toBitVec_toUInt32,
    UInt32.toBitVec_toUInt8, UInt32.toBitVec_shiftRight, UInt32.toBitVec_ofNat,
    BitVec.ofNat_eq_ofNat, BitVec.reduceMod, BitVec.ushiftRight_eq', BitVec.toNat_ofNat,
    Nat.reducePow, Nat.reduceMod, BitVec.shiftLeft_eq', BitVec.getLsbD_or,
    BitVec.getLsbD_shiftLeft, BitVec.getLsbD_setWidth, BitVec.getLsbD_ushiftRight]
  grind

lemma decodeUint64_encode (v : UInt64) (u : Bytes) :
    decodeUint64 (encodeUint64 [] v ++ u) = .ok (u, v) := by
  simp only [encodeUint64, decodeUint64, List.nil_append, List.cons_append, Except.ok.injEq,
    Prod.mk.injEq, true_and]
  refine UInt64.eq_of_toBitVec_eq (BitVec.eq_of_getLsbD_eq fun i hi => ?_)
  simp only [UInt64.toBitVec_or, UInt64.toBitVec_shiftLeft, UInt8.toBitVec_toUInt64,
    UInt64.toBitVec_toUInt8, UInt64.toBitVec_shiftRight, UInt64.toBitVec_ofNat,
    BitVec.ofNat_eq_ofNat, BitVec.reduceMod, BitVec.ushiftRight_eq', BitVec.toNat_ofNat,
    Nat.reducePow, Nat.reduceMod, BitVec.shiftLeft_eq', BitVec.getLsbD_or,
    BitVec.getLsbD_shiftLeft, BitVec.getLsbD_setWidth, BitVec.getLsbD_ushiftRight]
  grind

/-- The eight bytes a number was read from are its code. -/
lemma decodeUint64_ok {b u : Bytes} {v : UInt64} (h : decodeUint64 b = .ok (u, v)) :
    b = encodeUint64 [] v ++ u := by
  unfold decodeUint64 at h
  split at h
  · simp only [Except.ok.injEq, Prod.mk.injEq] at h
    obtain ⟨rfl, rfl⟩ := h
    simp only [encodeUint64, List.nil_append, List.cons_append, List.cons.injEq, and_true]
    refine ⟨?_, ?_, ?_, ?_, ?_, ?_, ?_, ?_⟩ <;>
    · refine UInt8.eq_of_toBitVec_eq (BitVec.eq_of_getLsbD_eq fun i hi => ?_)
      simp only [UInt64.toBitVec_or, UInt64.toBitVec_shiftLeft, UInt8.toBitVec_toUInt64,
        UInt64.toBitVec_toUInt8, UInt64.toBitVec_shiftRight, UInt64.toBitVec_ofNat,
        BitVec.ofNat_eq_ofNat, BitVec.reduceMod, BitVec.ushiftRight_eq', BitVec.toNat_ofNat,
        Nat.reducePow, Nat.reduceMod, BitVec.shiftLeft_eq', BitVec.getLsbD_or,
        BitVec.getLsbD_shiftLeft, BitVec.getLsbD_setWidth, BitVec.getLsbD_ushiftRight]
      grind
  · cases h

lemma decodeUint32_ok {b u : Bytes} {v : UInt32} (h : decodeUint32 b = .ok (u, v)) :
    b = encodeUint32 [] v ++ u := by
  unfold decodeUint32 at h
  split at h
  · simp only [Except.ok.injEq, Prod.mk.injEq] at h
    obtain ⟨rfl, rfl⟩ := h
    simp only [encodeUint32, List.nil_append, List.cons_append, List.cons.injEq, and_true]
    refine ⟨?_, ?_, ?_, ?_⟩ <;>
    · refine UInt8.eq_of_toBitVec_eq (BitVec.eq_of_getLsbD_eq fun i hi => ?_)
      simp only [UInt32.toBitVec_or, UInt32.toBitVec_shiftLeft, UInt8.toBitVec_toUInt32,
        UInt32.toBitVec_toUInt8, UInt32.toBitVec_shiftRight, UInt32.toBitVec_ofNat,
        BitVec.ofNat_eq_ofNat, BitVec.reduceMod, BitVec.ushiftRight_eq', BitVec.toNat_ofNat,
        Nat.reducePow, Nat.reduceMod, BitVec.shiftLeft_eq', BitVec.getLsbD_or,
        BitVec.getLsbD_shiftLeft, BitVec.getLsbD_setWidth, BitVec.getLsbD_ushiftRight]
      grind
  · cases h

lemma decodeUint64Decreasing_ok {b u : Bytes} {v : UInt64}
    (h : decodeUint64Decreasing b = .ok (u, v)) : b = encodeUint64Decreasing [] v ++ u := by
  rw [decodeUint64Decreasing] at h
  cases hd : decodeUint64 b with
  | error e => rw [hd] at h; cases h
  | ok r =>
    rw [hd] at h
    cases h
    rw [encodeUint64Decreasing, UInt64.not_not]
    exact decodeUint64_ok hd

lemma decodeUint32Decreasing_ok {b u : Bytes} {v : UInt32}
    (h : decodeUint32Decreasing b = .ok (u, v)) : b = encodeUint32Decreasing [] v ++ u := by
  rw [decodeUint32Decreasing] at h
  cases hd : decodeUint32 b with
  | error e => rw [hd] at h; cases h
  | ok r =>
    rw [hd] at h
    cases h
    rw [encodeUint32Decreasing, UInt32.not_not]
    exact decodeUint32_ok hd

/-! ### Escaped strings -/

/-- The code of one byte. -/
def escByte (x : UInt8) : Bytes := if x = 0 then [0x00, 0xff] else [x]

lemma encodeBytes_eq (b data : Bytes) :
    encodeBytes b data = b ++ (data.flatMap escByte ++ [0x00, 0x01]) := by
  induction data generalizing b with
  | nil => simp [encodeBytes, ascendingEscapes]
  | cons x data ih =>
    by_cases hx : x = 0 <;> simp [encodeBytes, ascendingEscapes, escByte, hx, ih]

/-- **Decoding gives back the string and what follows its code.** -/
theorem decodeBytes_encode (data u : Bytes) :
    decodeBytes (encodeBytes [] data ++ u) [] = .ok (u, data) := by
  have hloop : ∀ data r : Bytes, decodeLoop ascendingEscapes
      (data.flatMap escByte ++ ([0x00, 0x01] ++ u)) r = .ok (u, r ++ data) := by
    intro data
    induction data with
    | nil => intro r; simp [decodeLoop, ascendingEscapes]
    | cons x data ih =>
      intro r
      by_cases hx : x = 0
      · have hih := ih (r ++ [0])
        simp only [hx, List.flatMap_cons, escByte, if_true, List.cons_append, List.nil_append,
          decodeLoop, ascendingEscapes] at hih ⊢
        simp [hih]
      · -- an unescaped byte is never the last one: the terminator follows
        obtain ⟨y, l, hl⟩ : ∃ y l, data.flatMap escByte ++ ([0x00, 0x01] ++ u) = y :: l :=
          List.exists_cons_of_ne_nil (by simp)
        have hih := ih (r ++ [x])
        rw [hl] at hih
        rw [List.flatMap_cons, escByte, if_neg hx, List.append_assoc, hl, List.singleton_append,
          decodeLoop, if_neg (by simpa [ascendingEscapes] using hx), hih]
        simp
  rw [decodeBytes, decodeBytesWith, if_neg (by simp [encodeBytes_eq]), encodeBytes_eq]
  simpa using hloop data []

/-- What the loop accepts is a code: the bytes it adds, escaped, and the terminator. -/
lemma decodeLoop_ok {b r u d : Bytes} (h : decodeLoop ascendingEscapes b r = .ok (u, d)) :
    ∃ data, d = r ++ data ∧ b = encodeBytes [] data ++ u := by
  fun_induction decodeLoop ascendingEscapes b r with
  | case1 => cases h
  | case2 => cases h
  | case3 => cases h
  | case4 b r =>
    cases h
    exact ⟨[], by simp, by simp [encodeBytes, ascendingEscapes]⟩
  | case5 b r hterm ih =>
    obtain ⟨data, rfl, rfl⟩ := ih h
    refine ⟨0 :: data, by simp [ascendingEscapes], ?_⟩
    simp [encodeBytes_eq, escByte, ascendingEscapes]
  | case6 => cases h
  | case7 x v b r hx ih =>
    obtain ⟨data, rfl, hb⟩ := ih h
    have hx0 : x ≠ 0 := hx
    refine ⟨x :: data, by simp, ?_⟩
    rw [hb]
    simp [encodeBytes_eq, escByte, hx0]

/-- **A string that decodes is the code of what it decodes to.** -/
theorem decodeBytes_ok {b u d : Bytes} (hb : b ≠ []) (h : decodeBytes b [] = .ok (u, d)) :
    b = encodeBytes [] d ++ u := by
  have hlen : ¬ b.length = 0 := by simpa using hb
  rw [decodeBytes, decodeBytesWith, if_neg hlen] at h
  obtain ⟨data, hd, hdata⟩ := decodeLoop_ok h
  rw [List.nil_append] at hd
  rw [hd]
  exact hdata

/-- **Escaped strings sort as the strings, whatever follows them.** -/
theorem encodeBytes_lt {a b : Bytes} (h : a < b) (u w : Bytes) :
    encodeBytes [] a ++ u < encodeBytes [] b ++ w := by
  simp only [encodeBytes_eq, List.nil_append, List.append_assoc]
  induction a generalizing b with
  | nil =>
    rcases b with _ | ⟨y, b⟩
    · exact absurd h (lt_irrefl _)
    · -- the terminator of `a` meets the first byte of `b`
      by_cases hy : y = 0
      · simp [escByte, hy, List.cons_lt_cons_iff]
      · have : (0 : UInt8) < y := UInt8.pos_iff_ne_zero.mpr hy
        simp [escByte, hy, List.cons_lt_cons_iff, this]
  | cons x a ih =>
    rcases b with _ | ⟨y, b⟩
    · exact absurd h (List.not_lt_nil _)
    · rcases List.cons_lt_cons_iff.mp h with hxy | ⟨rfl, hab⟩
      · have hy : y ≠ 0 := by rintro rfl; exact absurd hxy (UInt8.not_lt_zero)
        have hpos : (0 : UInt8) < y := UInt8.pos_iff_ne_zero.mpr hy
        by_cases hx : x = 0
        · simp [escByte, hx, hy, List.cons_lt_cons_iff, hpos]
        · simp [escByte, hx, hy, List.cons_lt_cons_iff, hxy]
      · simp only [List.flatMap_cons, List.append_assoc]
        exact List.append_left_lt (ih hab)

lemma encodeBytes_inj {a b u w : Bytes} (h : encodeBytes [] a ++ u = encodeBytes [] b ++ w) :
    a = b ∧ u = w := by
  rcases lt_trichotomy a b with hab | rfl | hab
  · exact absurd (encodeBytes_lt hab u w) (h ▸ lt_irrefl _)
  · exact ⟨rfl, List.append_cancel_left h⟩
  · exact absurd (encodeBytes_lt hab w u) (h ▸ lt_irrefl _)

end Ancestor.Encoding
