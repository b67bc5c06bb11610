import Ancestor.RaftLog

/-!
The keys of raft logs in the engine, and what the loops over them leave behind.

The keys of one log are contiguous, and sorted as the indexes are, as long as range IDs and
indexes have at most sixteen digits. Logs of different ranges share no key.
-/

namespace Ancestor

open Encoding Bytes

/-! ### The order of log keys -/

section Keys

/-- The range IDs and indexes whose log keys have a fixed width. -/
def ValidID (id : RangeID) : Prop := 0 ≤ id ∧ id.toInt < 10 ^ 16

instance (id : RangeID) : Decidable (ValidID id) := inferInstanceAs (Decidable (_ ∧ _))

lemma ValidID.toNat_lt {id : RangeID} (h : ValidID id) : id.toInt.toNat < 10 ^ 16 := by
  have := h.2
  omega

lemma fmtInt_of_valid {id : RangeID} (h : ValidID id) (p : ℕ) :
    fmtInt p id = decimalPad p id.toInt.toNat := by
  have h0 : ¬ id < 0 := Int64.not_lt.mpr h.1
  rw [fmtInt, if_neg h0]

lemma ValidID.eq_of_toNat {id id' : RangeID} (h : ValidID id) (h' : ValidID id')
    (he : id.toInt.toNat = id'.toInt.toNat) : id = id' := by
  have h0 : 0 ≤ id.toInt := by simpa [Int64.le_iff_toInt_le] using h.1
  have h0' : 0 ≤ id'.toInt := by simpa [Int64.le_iff_toInt_le] using h'.1
  exact Int64.toInt_inj.mp (by omega)

/-- The part of a log key that names the range. -/
def logName (id : RangeID) : Key := logKeyPrefix ++ fmtInt 16 id ++ [0x5f]

lemma raftLogKey_eq (id : RangeID) (i : UInt64) :
    raftLogKey id i = newMVCCKey (logName id ++ decimalPad 16 i.toNat) := by
  simp [raftLogKey, newKey, logName]

lemma length_logName {id : RangeID} (h : ValidID id) : (logName id).length = 22 := by
  rw [logName, fmtInt_of_valid h, List.length_append, List.length_append,
    length_decimalPad (by omega) h.toNat_lt]
  rfl

lemma logName_inj {id id' : RangeID} (h : ValidID id) (h' : ValidID id')
    (he : logName id = logName id') : id = id' := by
  rw [logName, logName, fmtInt_of_valid h, fmtInt_of_valid h'] at he
  have hpad := List.append_cancel_left (List.append_cancel_right he)
  exact h.eq_of_toNat h' (decimalPad_inj (by omega) h.toNat_lt h'.toNat_lt hpad)

lemma raftLogKey_lt_iff (id : RangeID) {i j : UInt64} (hi : i.toNat < 10 ^ 16)
    (hj : j.toNat < 10 ^ 16) : raftLogKey id i < raftLogKey id j ↔ i < j := by
  rw [raftLogKey_eq, raftLogKey_eq, newMVCCKey_lt_iff, append_lt_append_iff rfl,
    decimalPad_lt_iff (by omega) hi hj, UInt64.lt_iff_toNat_lt]
  simp

lemma raftLogKey_le_iff (id : RangeID) {i j : UInt64} (hi : i.toNat < 10 ^ 16)
    (hj : j.toNat < 10 ^ 16) : raftLogKey id i ≤ raftLogKey id j ↔ i ≤ j := by
  rw [← not_lt, raftLogKey_lt_iff id hj hi, UInt64.not_lt]

lemma raftLogKey_inj (id : RangeID) {i j : UInt64} (hi : i.toNat < 10 ^ 16)
    (hj : j.toNat < 10 ^ 16) (h : raftLogKey id i = raftLogKey id j) : i = j :=
  UInt64.le_antisymm ((raftLogKey_le_iff id hi hj).mp h.le) ((raftLogKey_le_iff id hj hi).mp h.ge)

/-- The last index with sixteen digits. -/
def topIndex : UInt64 := 9999999999999999

lemma le_topIndex {i : UInt64} (h : i.toNat < 10 ^ 16) : i ≤ topIndex := by
  rw [UInt64.le_iff_toNat_le, show topIndex.toNat = 10 ^ 16 - 1 from rfl]
  omega

/-- The stretch of the engine that belongs to the log of a range. -/
def InLog (id : RangeID) (k : MVCCKey) : Prop :=
  raftLogKey id 0 ≤ k ∧ k ≤ raftLogKey id topIndex

lemma inLog_raftLogKey (id : RangeID) {i : UInt64} (h : i.toNat < 10 ^ 16) :
    InLog id (raftLogKey id i) :=
  ⟨(raftLogKey_le_iff id (by decide) h).mpr (UInt64.zero_le),
    (raftLogKey_le_iff id h (by decide)).mpr (le_topIndex h)⟩

/-- A key that departs from the log's name within its first bytes is outside of the stretch. -/
lemma not_inLog_of_prefix {id : RangeID} {p q rest w : Bytes} (hq : logName id = q ++ rest)
    (hlen : p.length = q.length) (hne : p ≠ q) : ¬ InLog id (newMVCCKey (p ++ w)) := by
  rintro ⟨hle, hge⟩
  rw [raftLogKey_eq, newMVCCKey_le_iff, hq, List.append_assoc] at hle hge
  rcases lt_trichotomy p q with hlt | heq | hlt
  · exact absurd ((append_lt_append_iff hlen).mpr (Or.inl hlt)) (not_lt.mpr hle)
  · exact hne heq
  · exact absurd ((append_lt_append_iff hlen.symm).mpr (Or.inl hlt)) (not_lt.mpr hge)

lemma not_inLog_offset (id id' : RangeID) : ¬ InLog id (raftOffsetIndexKey id') := by
  have hk : raftOffsetIndexKey id' = newMVCCKey (offsetIndexPrefix ++ fmtInt 0 id') := by
    simp [raftOffsetIndexKey, newKey]
  rw [hk]
  exact not_inLog_of_prefix (q := logKeyPrefix) (by rw [logName, List.append_assoc]) rfl (by decide)

lemma not_inLog_last (id id' : RangeID) : ¬ InLog id (raftLastIndexKey id') := by
  have hk : raftLastIndexKey id' = newMVCCKey (lastIndexPrefix ++ fmtInt 0 id') := by
    simp [raftLastIndexKey, newKey]
  rw [hk]
  exact not_inLog_of_prefix (q := logKeyPrefix) (by rw [logName, List.append_assoc]) rfl (by decide)

lemma inLog_ne_offset {id id' : RangeID} {k : MVCCKey} (h : InLog id k) :
    k ≠ raftOffsetIndexKey id' := fun he => not_inLog_offset id id' (he ▸ h)

lemma inLog_ne_last {id id' : RangeID} {k : MVCCKey} (h : InLog id k) :
    k ≠ raftLastIndexKey id' := fun he => not_inLog_last id id' (he ▸ h)

lemma indexKey_inj {p : Bytes} {id id' : RangeID} (h : ValidID id) (h' : ValidID id')
    (he : newMVCCKey (newKey [p, fmtInt 0 id]) = newMVCCKey (newKey [p, fmtInt 0 id'])) :
    id = id' := by
  have hplain : ∀ n, decimalPad 0 n = decimal n := fun n => by simp [decimalPad]
  have hk := newMVCCKey_inj.mp he
  simp only [newKey, List.flatten_cons, List.flatten_nil, List.append_nil,
    List.append_cancel_left_eq, fmtInt_of_valid h, fmtInt_of_valid h', hplain] at hk
  exact h.eq_of_toNat h' (decimal_injective hk)

lemma offset_ne_last (id id' : RangeID) : raftOffsetIndexKey id ≠ raftLastIndexKey id' := by
  intro h
  have hk := newMVCCKey_inj.mp h
  simp [newKey, offsetIndexPrefix, lastIndexPrefix, systemPrefix] at hk

/-- The keys the log of a range is kept under. -/
def Own (id : RangeID) : Set MVCCKey :=
  {k | InLog id k ∨ k = raftOffsetIndexKey id ∨ k = raftLastIndexKey id}

/-- **Logs of different ranges do not share a key.** -/
theorem own_disjoint {id id' : RangeID} (h : ValidID id) (h' : ValidID id') (hne : id ≠ id') :
    Disjoint (Own id) (Own id') := by
  rw [Set.disjoint_left]
  rintro k (hk | rfl | rfl) (hk' | hk' | hk')
  · -- two stretches: one ends before the other begins
    have hlen : (logName id).length = (logName id').length := by
      rw [length_logName h, length_logName h']
    have hbetween := fun {a b : RangeID} (hab : logName a < logName b)
        (hl : (logName a).length = (logName b).length) (i j : UInt64) =>
      show raftLogKey a i < raftLogKey b j by
        rw [raftLogKey_eq, raftLogKey_eq, newMVCCKey_lt_iff]
        exact (append_lt_append_iff hl).mpr (Or.inl hab)
    rcases lt_trichotomy (logName id) (logName id') with hlt | heq | hlt
    · exact absurd (hk'.1.trans hk.2) (not_le.mpr (hbetween hlt hlen _ _))
    · exact hne (logName_inj h h' heq)
    · exact absurd (hk.1.trans hk'.2) (not_le.mpr (hbetween hlt hlen.symm _ _))
  · exact not_inLog_offset id id' (hk' ▸ hk)
  · exact not_inLog_last id id' (hk' ▸ hk)
  · exact not_inLog_offset id' id hk'
  · exact hne (indexKey_inj h h' hk')
  · exact offset_ne_last id id' hk'
  · exact not_inLog_last id' id hk'
  · exact offset_ne_last id' id hk'.symm
  · exact hne (indexKey_inj h h' hk')

end Keys

/-! ### Log keys of any width -/

section Width

lemma fmtInt_injective {p : ℕ} (hp : 0 < p) : Function.Injective (fmtInt p) := by
  have hsign : ∀ n m : ℕ, (0x2d :: decimalPad p n : Bytes) ≠ decimalPad p m := by
    intro n m h
    have hmem : (0x2d : UInt8) ∈ decimalPad p m := h ▸ List.mem_cons_self
    obtain ⟨d, hd, heq⟩ := mem_decimalPad hmem
    interval_cases d <;> exact absurd heq (by decide)
  intro i j h
  unfold fmtInt at h
  have hneg : ∀ {i : Int64}, i < 0 → i.toInt < 0 := fun h => by
    simpa [Int64.lt_iff_toInt_lt] using h
  have hpos : ∀ {i : Int64}, ¬ i < 0 → 0 ≤ i.toInt := fun h => by
    simpa [Int64.lt_iff_toInt_lt] using h
  by_cases hi : i < 0 <;> by_cases hj : j < 0
  · rw [if_pos hi, if_pos hj, List.cons.injEq] at h
    have := decimalPad_injective hp h.2
    have := hneg hi
    have := hneg hj
    exact Int64.toInt_inj.mp (by omega)
  · rw [if_pos hi, if_neg hj] at h
    exact absurd h (hsign _ _)
  · rw [if_neg hi, if_pos hj] at h
    exact absurd h.symm (hsign _ _)
  · rw [if_neg hi, if_neg hj] at h
    have := decimalPad_injective hp h
    have := hpos hi
    have := hpos hj
    exact Int64.toInt_inj.mp (by omega)

lemma sep_notMem_decimalPad (p n : ℕ) : 0x5f ∉ decimalPad p n := by
  intro h
  obtain ⟨d, hd, heq⟩ := mem_decimalPad h
  interval_cases d <;> exact absurd heq (by decide)

lemma sep_notMem_fmtInt (p : ℕ) (i : Int64) : 0x5f ∉ fmtInt p i := by
  unfold fmtInt
  split_ifs
  · simp [sep_notMem_decimalPad]
  · exact sep_notMem_decimalPad p _

lemma raftLogKey_zero_le (id : RangeID) (i : UInt64) : raftLogKey id 0 ≤ raftLogKey id i := by
  rw [raftLogKey_eq, raftLogKey_eq, newMVCCKey_le_iff, ← not_lt, append_lt_append_iff rfl]
  simpa using decimalPad_zero_le (by omega) i.toNat

/-- Between two keys of a log there is none of another log. -/
lemma id_of_between {id id' : RangeID} {i j k : UInt64}
    (h : raftLogKey id i ≤ raftLogKey id' k) (h' : raftLogKey id' k < raftLogKey id j) :
    id' = id := by
  rw [raftLogKey_eq, raftLogKey_eq, newMVCCKey_le_iff] at h
  rw [raftLogKey_eq, raftLogKey_eq, newMVCCKey_lt_iff] at h'
  obtain ⟨c, hc⟩ := exists_append_of_between h h'
  simp only [logName, List.append_assoc, List.append_cancel_left_eq, List.singleton_append] at hc
  rw [List.append_cons_inj_of_notMem (sep_notMem_fmtInt 16 id')
    (sep_notMem_decimalPad 16 k.toNat)] at hc
  exact fmtInt_injective (by omega) hc.1

end Width

/-! ### What the loops leave in the engine -/

section Loops

variable {id : RangeID} {eng : Engine} {k : MVCCKey}

lemma get_putEntries_of_ne {ents : List RaftEntry} (h : ∀ e ∈ ents, k ≠ raftLogKey id e.index) :
    (RaftReplica.putEntries id ents eng).get k = eng.get k := by
  induction ents generalizing eng with
  | nil => rfl
  | cons a l ih =>
    rw [RaftReplica.putEntries, ih fun e he => h e (List.mem_cons_of_mem a he), OrdMap.get_put,
      if_neg (h a List.mem_cons_self)]

lemma get_putEntries_of_mem {ents : List RaftEntry} {e : RaftEntry} (he : e ∈ ents)
    (huniq : ∀ e' ∈ ents, raftLogKey id e'.index = raftLogKey id e.index → e' = e) :
    (RaftReplica.putEntries id ents eng).get (raftLogKey id e.index) = some (.raftEntry e) := by
  induction ents generalizing eng with
  | nil => cases he
  | cons a l ih =>
    have huniq' : ∀ e' ∈ l, raftLogKey id e'.index = raftLogKey id e.index → e' = e :=
      fun e' he' => huniq e' (List.mem_cons_of_mem a he')
    rw [RaftReplica.putEntries]
    by_cases hmem : e ∈ l
    · exact ih hmem huniq'
    · have hea : a = e := ((List.mem_cons.mp he).resolve_right hmem).symm
      have hne : ∀ e' ∈ l, raftLogKey id e.index ≠ raftLogKey id e'.index := fun e' he' hk =>
        hmem (huniq' e' he' hk.symm ▸ he')
      rw [get_putEntries_of_ne hne, OrdMap.get_put, hea, if_pos rfl]

lemma get_clearEntries_of_ne [Backend] {n : ℕ} {i : UInt64}
    (h : ∀ j < n, k ≠ raftLogKey id (i + UInt64.ofNat j)) :
    (RaftReplica.clearEntries id n i eng).get k = eng.get k := by
  induction n generalizing i eng with
  | zero => rfl
  | succ n ih =>
    have hhd : k ≠ raftLogKey id i := by simpa using h 0 (by omega)
    rw [RaftReplica.clearEntries, ih ?_, get_erase_ne _ hhd]
    intro j hj
    have hsucc : i + 1 + UInt64.ofNat j = i + UInt64.ofNat (j + 1) := by
      rw [UInt64.ofNat_add, UInt64.add_assoc, UInt64.add_comm (UInt64.ofNat j)]
      rfl
    rw [hsucc]
    exact h (j + 1) (by omega)

lemma loadIndex_putIndex (eng : Engine) (k : MVCCKey) (i : UInt64) :
    loadIndex (putIndex eng k i) k = .ok i := by
  have hdec := decodeUint64_encode i []
  rw [List.append_nil] at hdec
  have hlen : (encodeUint64 [] i).length = 8 := by simp [encodeUint64]
  simp [loadIndex, putIndex, Value.setInt, Value.getInt, hlen, hdec, Except.map]

lemma get_putIndex_of_ne (eng : Engine) {k k' : MVCCKey} (hne : k' ≠ k) (i : UInt64) :
    (putIndex eng k i).get k' = eng.get k' := by
  rw [putIndex, OrdMap.get_put, if_neg hne]

lemma loadIndex_congr {eng eng' : Engine} (h : eng'.get k = eng.get k) :
    loadIndex eng' k = loadIndex eng k := by
  rw [loadIndex, loadIndex, h]

end Loops

end Ancestor
