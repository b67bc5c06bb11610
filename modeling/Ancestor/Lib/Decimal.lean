import Ancestor.Lib.Bytes

/-!
Decimal numerals as byte strings, plain and padded with zeros to a width, and their order.

Padded numerals of one width sort as the numbers do. Plain ones of the same length do too;
of different lengths, the longer one is compared through its leading digits.
-/

namespace Bytes

/-- The decimal numeral of a number, without leading zeros. -/
def decimal (n : ℕ) : Bytes := (Nat.toDigits 10 n).map fun c => UInt8.ofNat c.toNat

/-- The decimal numeral with at least `w` digits. -/
def decimalPad (w n : ℕ) : Bytes := List.replicate (w - (decimal n).length) 0x30 ++ decimal n

/-- The character of a digit. -/
def digitByte (d : ℕ) : UInt8 := UInt8.ofNat (48 + d)

lemma strictMonoOn_digitByte : StrictMonoOn digitByte (Set.Iio 10) := by
  intro a ha b hb hab
  have ha' : a < 10 := ha
  have hb' : b < 10 := hb
  have hsize : UInt8.size = 256 := rfl
  rw [UInt8.lt_iff_toNat_lt, digitByte, digitByte, UInt8.toNat_ofNat_of_lt' (by omega),
    UInt8.toNat_ofNat_of_lt' (by omega)]
  omega

lemma digitChar_byte {d : ℕ} (hd : d < 10) :
    UInt8.ofNat (Nat.digitChar d).toNat = digitByte d := by
  interval_cases d <;> rfl

lemma decimal_of_lt {n : ℕ} (h : n < 10) : decimal n = [digitByte n] := by
  rw [decimal, Nat.toDigits_of_lt_base h, List.map_singleton, digitChar_byte h]

lemma decimal_of_le {n : ℕ} (h : 10 ≤ n) :
    decimal n = decimal (n / 10) ++ [digitByte (n % 10)] := by
  rw [decimal, Nat.toDigits_of_base_le (by omega) h, List.map_append, List.map_singleton,
    digitChar_byte (Nat.mod_lt _ (by omega)), decimal]

lemma length_decimal_le_iff {n k : ℕ} (hk : 0 < k) : (decimal n).length ≤ k ↔ n < 10 ^ k := by
  rw [decimal, List.length_map, Nat.length_toDigits_le_iff (by omega) hk]

lemma length_decimal_pos (n : ℕ) : 0 < (decimal n).length := by
  rw [decimal, List.length_map]
  exact Nat.length_toDigits_pos

lemma lt_pow_length (n : ℕ) : n < 10 ^ (decimal n).length :=
  (length_decimal_le_iff (length_decimal_pos n)).mp le_rfl

lemma decimal_eq (n : ℕ) : decimal n = positional 10 digitByte (decimal n).length n := by
  induction n using Nat.strong_induction_on with
  | _ n ih =>
    by_cases h : n < 10
    · rw [decimal_of_lt h]
      simp [positional, Nat.mod_eq_of_lt h]
    · have hlen : (decimal n).length = (decimal (n / 10)).length + 1 := by
        rw [decimal_of_le (by omega)]
        simp
      rw [hlen, positional_add, pow_one, ← ih (n / 10) (by omega)]
      nth_rewrite 1 [decimal_of_le (by omega)]
      simp [positional]

lemma decimal_injective : Function.Injective decimal := by
  intro n m h
  have hlen : (decimal n).length = (decimal m).length := congrArg List.length h
  have hm := lt_pow_length m
  rw [← hlen] at hm
  rw [decimal_eq n, decimal_eq m, ← hlen] at h
  exact positional_injOn strictMonoOn_digitByte (lt_pow_length n) hm h

/-! ### Reading a numeral -/

def digitValue (c : UInt8) : Option ℕ :=
  if 0x30 ≤ c ∧ c ≤ 0x39 then some (c.toNat - 48) else none

/-- The number of a string of digits, which is not empty. -/
def ofDecimal (b : Bytes) : Option ℕ :=
  if b = [] then none else b.foldlM (fun n c => (digitValue c).map (10 * n + ·)) 0

lemma digitValue_digitByte {d : ℕ} (hd : d < 10) : digitValue (digitByte d) = some d := by
  interval_cases d <;> rfl

lemma decimal_ne_nil (n : ℕ) : decimal n ≠ [] := List.ne_nil_of_length_pos (length_decimal_pos n)

lemma foldlM_decimal (n : ℕ) :
    (decimal n).foldlM (fun n c => (digitValue c).map (10 * n + ·)) 0 = some n := by
  induction n using Nat.strong_induction_on with
  | _ n ih =>
    by_cases h : n < 10
    · simp [decimal_of_lt h, digitValue_digitByte h]
    · have hmod : digitValue (digitByte (n % 10)) = some (n % 10) :=
        digitValue_digitByte (Nat.mod_lt _ (by omega))
      rw [decimal_of_le (by omega), List.foldlM_append, ih (n / 10) (by omega)]
      simp only [Option.bind_eq_bind, Option.bind_some, List.foldlM_cons, List.foldlM_nil, hmod,
        Option.map_some, Option.pure_def, Option.some.injEq]
      omega

/-- **A numeral reads as its number.** -/
theorem ofDecimal_decimal (n : ℕ) : ofDecimal (decimal n) = some n := by
  rw [ofDecimal, if_neg (decimal_ne_nil n), foldlM_decimal]

lemma decimal_head {n : ℕ} {c : UInt8} (h : (decimal n).head? = some c) : 0x30 ≤ c := by
  induction n using Nat.strong_induction_on with
  | _ n ih =>
    by_cases hn : n < 10
    · rw [decimal_of_lt hn] at h
      cases h
      interval_cases n <;> decide
    · rw [decimal_of_le (by omega), List.head?_append_of_ne_nil _ (decimal_ne_nil _)] at h
      exact ih (n / 10) (by omega) h

/-! ### The order of plain numerals -/

section Order

variable {n m k : ℕ}

lemma length_decimal_div (h : 10 ^ k ≤ n) :
    (decimal n).length = (decimal (n / 10 ^ k)).length + k := by
  induction k with
  | zero => simp
  | succ k ih =>
    have hk : 10 ^ k ≤ n := le_trans (Nat.pow_le_pow_right (by omega) (by omega)) h
    have hten : 10 ≤ n / 10 ^ k := (Nat.le_div_iff_mul_le (by positivity)).mpr (by
      rw [mul_comm, ← pow_succ]
      exact h)
    rw [ih hk, decimal_of_le hten, Nat.div_div_eq_div_mul, ← pow_succ, List.length_append,
      List.length_singleton]
    omega

/-- A numeral is that of its leading digits, and the digits after them. -/
lemma decimal_split (h : 10 ^ k ≤ n) :
    decimal n = decimal (n / 10 ^ k) ++ positional 10 digitByte k n := by
  rw [decimal_eq n, length_decimal_div h, positional_add, ← decimal_eq]

/-- **Numerals of one length sort as the numbers do.** -/
theorem decimal_lt_iff (h : (decimal n).length = (decimal m).length) :
    decimal n < decimal m ↔ n < m := by
  have hm := lt_pow_length m
  rw [← h] at hm
  rw [decimal_eq n, decimal_eq m, ← h]
  exact positional_lt_iff strictMonoOn_digitByte (lt_pow_length n) hm

lemma pow_le_of_length (hk : 0 < k) (h : (decimal n).length + k = (decimal m).length) :
    10 ^ k ≤ m := by
  by_contra hlt
  have hle := (length_decimal_le_iff hk).mpr (not_le.mp hlt)
  have hpos := length_decimal_pos n
  omega

lemma length_leading (hk : 0 < k) (h : (decimal n).length + k = (decimal m).length) :
    (decimal n).length = (decimal (m / 10 ^ k)).length := by
  have hdiv := length_decimal_div (pow_le_of_length hk h)
  omega

/-- **A longer numeral is compared through its leading digits**; it comes after the shorter
one when these are the same. -/
theorem decimal_lt_longer_iff (hk : 0 < k)
    (h : (decimal n).length + k = (decimal m).length) :
    decimal n < decimal m ↔ n ≤ m / 10 ^ k := by
  have hlen := length_leading hk h
  have hrest : positional 10 digitByte k m ≠ [] := by
    rw [ne_eq, ← List.length_eq_zero_iff, length_positional]
    omega
  have hsplit : decimal n ++ [] < decimal (m / 10 ^ k) ++ positional 10 digitByte k m ↔ _ :=
    append_lt_append_iff hlen
  rw [List.append_nil, ← decimal_split (pow_le_of_length hk h), decimal_lt_iff hlen,
    decimal_injective.eq_iff] at hsplit
  have hnil : [] < positional 10 digitByte k m := by
    simpa using lt_append_of_ne_nil (a := []) hrest
  rw [hsplit, le_iff_lt_or_eq, and_iff_left hnil]

/-- **A longer numeral comes before a shorter one when its leading digits do.** -/
theorem decimal_longer_lt_iff (hk : 0 < k)
    (h : (decimal n).length + k = (decimal m).length) :
    decimal m < decimal n ↔ m / 10 ^ k < n := by
  have hlen := (length_leading hk h).symm
  have hsplit : decimal (m / 10 ^ k) ++ positional 10 digitByte k m < decimal n ++ [] ↔ _ :=
    append_lt_append_iff hlen
  rw [List.append_nil, ← decimal_split (pow_le_of_length hk h), decimal_lt_iff hlen] at hsplit
  rw [hsplit]
  simp

/-! A number and the next one bound the strings that start with the number's digits, unless
the next one is longer. -/

lemma length_decimal_mono (h : n ≤ m) : (decimal n).length ≤ (decimal m).length :=
  (length_decimal_le_iff (length_decimal_pos m)).mpr (h.trans_lt (lt_pow_length m))

lemma length_decimal_succ_le (n : ℕ) : (decimal (n + 1)).length ≤ (decimal n).length + 1 := by
  have hlt := lt_pow_length n
  rw [length_decimal_le_iff (by omega), pow_succ]
  omega

lemma length_decimal_succ (h : ∀ k, n + 1 ≠ 10 ^ k) :
    (decimal (n + 1)).length = (decimal n).length := by
  refine le_antisymm ?_ (length_decimal_mono (by omega))
  have hlt := lt_pow_length n
  have hne := h (decimal n).length
  rw [length_decimal_le_iff (length_decimal_pos n)]
  omega

lemma length_decimal_pow (hn : 0 < n) (h : n + 1 = 10 ^ k) :
    (decimal n).length + 1 = (decimal (n + 1)).length := by
  have hk : 0 < k := by
    rcases Nat.eq_zero_or_pos k with rfl | hk
    · simp at h
      omega
    · exact hk
  have hshort : (decimal n).length ≤ k := (length_decimal_le_iff hk).mpr (by omega)
  have hlong : ¬ (decimal (n + 1)).length ≤ k := by
    rw [length_decimal_le_iff hk]
    omega
  have hle := length_decimal_succ_le n
  omega

lemma decimal_lt_succ_iff (hn : 0 < n) : decimal n < decimal (n + 1) ↔ ∀ k, n + 1 ≠ 10 ^ k := by
  constructor
  · intro hlt k hk
    rw [decimal_lt_longer_iff one_pos (length_decimal_pow hn hk)] at hlt
    omega
  · intro h
    exact (decimal_lt_iff (length_decimal_succ h).symm).mpr (by omega)

/-- The digits of `m` start those of `n`, or those of the number after `n`. -/
def Leads (m n : ℕ) : Prop := ∃ k, 0 < k ∧ (m = n / 10 ^ k ∨ m = (n + 1) / 10 ^ k)

lemma length_of_eq_div (hm : 0 < m) (h : m = n / 10 ^ k) :
    (decimal m).length + k = (decimal n).length := by
  have hle : 10 ^ k ≤ n := by
    by_contra hlt
    rw [Nat.div_eq_of_lt (not_le.mp hlt)] at h
    omega
  rw [length_decimal_div hle, ← h]

lemma length_of_leads (hm : 0 < m) (hn : ∀ k, n + 1 ≠ 10 ^ k) (h : Leads m n) :
    ∃ k, 0 < k ∧ (decimal m).length + k = (decimal n).length ∧
      (m = n / 10 ^ k ∨ m = (n + 1) / 10 ^ k) := by
  obtain ⟨k, hk, h⟩ := h
  refine ⟨k, hk, ?_, h⟩
  rcases h with h | h
  · exact length_of_eq_div hm h
  · rw [← length_decimal_succ hn]
    exact length_of_eq_div hm h

lemma overlap_longer_iff (hk : 0 < k) (h : (decimal m).length + k = (decimal n).length)
    (hm : ∀ k, m + 1 ≠ 10 ^ k) (hn : ∀ k, n + 1 ≠ 10 ^ k) :
    decimal m < decimal (n + 1) ∧ decimal n < decimal (m + 1) ↔
      m = n / 10 ^ k ∨ m = (n + 1) / 10 ^ k := by
  have hnext : (decimal m).length + k = (decimal (n + 1)).length := by
    rw [length_decimal_succ hn, h]
  have hnext' : (decimal (m + 1)).length + k = (decimal n).length := by
    rw [length_decimal_succ hm, h]
  rw [decimal_lt_longer_iff hk hnext, decimal_longer_lt_iff hk hnext']
  have hmono : n / 10 ^ k ≤ (n + 1) / 10 ^ k := Nat.div_le_div_right (by omega)
  have hpos : 0 < 10 ^ k := by positivity
  have hstep : (n + 1) / 10 ^ k ≤ n / 10 ^ k + 1 := by
    rw [← Nat.add_div_right n hpos]
    exact Nat.div_le_div_right (by omega)
  omega

/-- **The strings from one numeral up to the next meet those of another number** exactly when
the digits of one of the two start those of the other, or of the number after it. -/
theorem overlap_iff_leads (hm : 0 < m) (hn : 0 < n) (hm' : ∀ k, m + 1 ≠ 10 ^ k)
    (hn' : ∀ k, n + 1 ≠ 10 ^ k) (hne : m ≠ n) :
    decimal m < decimal (n + 1) ∧ decimal n < decimal (m + 1) ↔ Leads m n ∨ Leads n m := by
  have longer : ∀ {m n : ℕ}, 0 < m → 0 < n → (∀ k, m + 1 ≠ 10 ^ k) → (∀ k, n + 1 ≠ 10 ^ k) →
      (decimal m).length < (decimal n).length →
      (decimal m < decimal (n + 1) ∧ decimal n < decimal (m + 1) ↔ Leads m n ∨ Leads n m) := by
    intro m n hm hn hm' hn' hlt
    obtain ⟨k, hk⟩ := Nat.exists_eq_add_of_lt hlt
    have hlen : (decimal m).length + (k + 1) = (decimal n).length := by omega
    rw [overlap_longer_iff (by omega) hlen hm' hn']
    constructor
    · exact fun h => .inl ⟨k + 1, by omega, h⟩
    · rintro (h | h)
      · obtain ⟨j, -, hj, h⟩ := length_of_leads hm hn' h
        obtain rfl : j = k + 1 := by omega
        exact h
      · obtain ⟨j, hj, hlen', -⟩ := length_of_leads hn hm' h
        omega
  rcases lt_trichotomy (decimal m).length (decimal n).length with hlt | heq | hgt
  · exact longer hm hn hm' hn' hlt
  · -- numerals of one length: the spans follow one another
    have hsucc := length_decimal_succ hm'
    have hsucc' := length_decimal_succ hn'
    rw [decimal_lt_iff (by omega), decimal_lt_iff (by omega)]
    constructor
    · omega
    · rintro (h | h)
      · obtain ⟨j, hj, hlen, -⟩ := length_of_leads hm hn' h
        omega
      · obtain ⟨j, hj, hlen, -⟩ := length_of_leads hn hm' h
        omega
  · rw [and_comm, longer hn hm hn' hm' hgt, or_comm]

end Order

/-! ### Padded numerals -/

lemma positional_leading_zeros {k w n : ℕ} (h : n < 10 ^ w) :
    positional 10 digitByte (k + w) n =
      List.replicate k 0x30 ++ positional 10 digitByte w n := by
  rw [positional_add, Nat.div_eq_of_lt h]
  have hzero : positional 10 digitByte k 0 = List.replicate k 0x30 := by
    induction k with
    | zero => rfl
    | succ k ih => simp only [positional, ih, List.replicate_succ, Nat.zero_div]; rfl
  rw [hzero]

lemma decimalPad_eq {w n : ℕ} (hw : 0 < w) (h : n < 10 ^ w) :
    decimalPad w n = positional 10 digitByte w n := by
  have hle : (decimal n).length ≤ w := (length_decimal_le_iff hw).mpr h
  have hadd := positional_leading_zeros (k := w - (decimal n).length) (lt_pow_length n)
  rw [Nat.sub_add_cancel hle] at hadd
  rw [decimalPad, hadd, ← decimal_eq]

/-- **Padded numerals sort as the numbers do.** -/
theorem decimalPad_lt_iff {w n m : ℕ} (hw : 0 < w) (hn : n < 10 ^ w) (hm : m < 10 ^ w) :
    decimalPad w n < decimalPad w m ↔ n < m := by
  rw [decimalPad_eq hw hn, decimalPad_eq hw hm]
  exact positional_lt_iff strictMonoOn_digitByte hn hm

lemma decimalPad_inj {w n m : ℕ} (hw : 0 < w) (hn : n < 10 ^ w) (hm : m < 10 ^ w)
    (h : decimalPad w n = decimalPad w m) : n = m := by
  rw [decimalPad_eq hw hn, decimalPad_eq hw hm] at h
  exact positional_injOn strictMonoOn_digitByte hn hm h

lemma length_decimalPad {w n : ℕ} (hw : 0 < w) (h : n < 10 ^ w) :
    (decimalPad w n).length = w := by
  rw [decimalPad_eq hw h, length_positional]

/-! ### Numerals of any length -/

lemma mem_decimal {n : ℕ} {c : UInt8} (h : c ∈ decimal n) : ∃ d < 10, c = digitByte d := by
  induction n using Nat.strong_induction_on with
  | _ n ih =>
    by_cases hn : n < 10
    · rw [decimal_of_lt hn, List.mem_singleton] at h
      exact ⟨n, hn, h⟩
    · rw [decimal_of_le (by omega), List.mem_append, List.mem_singleton] at h
      rcases h with h | h
      · exact ih (n / 10) (by omega) h
      · exact ⟨n % 10, Nat.mod_lt _ (by omega), h⟩

lemma mem_decimalPad {w n : ℕ} {c : UInt8} (h : c ∈ decimalPad w n) :
    ∃ d < 10, c = digitByte d := by
  rcases List.mem_append.mp h with h | h
  · exact ⟨0, by omega, (List.mem_replicate.mp h).2⟩
  · exact mem_decimal h

lemma le_length_decimalPad (w n : ℕ) : w ≤ (decimalPad w n).length := by
  rw [decimalPad, List.length_append, List.length_replicate]
  omega

/-- The padded zero comes first, among numerals of any length. -/
lemma decimalPad_zero_le {w : ℕ} (hw : 0 < w) (n : ℕ) : decimalPad w 0 ≤ decimalPad w n := by
  have hzero : decimalPad w 0 = List.replicate w 0x30 := by
    have hlen : w - 1 + 1 = w := by omega
    rw [decimalPad, decimal_of_lt (by omega), List.length_singleton]
    nth_rewrite 2 [← hlen]
    rw [List.replicate_succ']
    rfl
  rw [hzero]
  refine replicate_le (le_length_decimalPad w n) fun c hc => ?_
  obtain ⟨d, hd, rfl⟩ := mem_decimalPad hc
  interval_cases d <;> decide

lemma decimalPad_injective {w : ℕ} (hw : 0 < w) : Function.Injective (decimalPad w) := by
  have hlong : ∀ {n : ℕ}, ¬ n < 10 ^ w → decimalPad w n = decimal n := by
    intro n hn
    have hlen : ¬ (decimal n).length ≤ w := (length_decimal_le_iff hw).not.mpr hn
    rw [decimalPad, Nat.sub_eq_zero_of_le (by omega)]
    rfl
  have hlen : ∀ {n : ℕ}, (decimalPad w n).length = w ↔ n < 10 ^ w := by
    intro n
    by_cases hn : n < 10 ^ w
    · exact iff_of_true (length_decimalPad hw hn) hn
    · refine iff_of_false ?_ hn
      rw [hlong hn]
      exact fun h => hn ((length_decimal_le_iff hw).mp h.le)
  intro n m h
  have hsame : n < 10 ^ w ↔ m < 10 ^ w := by rw [← hlen, ← hlen, h]
  by_cases hn : n < 10 ^ w
  · exact decimalPad_inj hw hn (hsame.mp hn) h
  · rw [hlong hn, hlong (hsame.not.mp hn)] at h
    exact decimal_injective h

end Bytes
