import Ancestor.Lib.Steps
import Ancestor.LogKeys
import Ancestor.RefLog

/-!
The raft logs of a node refine lists of entries.

The engine of a node holds the logs of all its ranges. A walk between two keys of a log meets
exactly the entries between the two indexes, and an operation on one log does not touch the
others. Nothing is asked of what stands outside of the reference log, for an engine may leave
there what was cleared; what a compaction deletes in its place is the condition of a run.
-/

namespace Ancestor

open Encoding Bytes

/-! ### The refinement -/

/-- The replica and the engine show the reference log of the range. -/
structure Refines (id : RangeID) (r : RaftReplica) (eng : Engine) (l : RefLog) : Prop where
  rangeID : r.rangeID = id
  rangeDesc : r.rangeDesc.rangeID = id
  offset : r.raftOffsetIndex = l.offset
  last : r.raftLastIndex = l.last
  ordered : l.Ordered
  stored : ∀ e ∈ l.log, eng.get (raftLogKey id e.index) = some (.raftEntry e)
  contiguous : ∀ k, InLog id k → eng.get k ≠ none → ∃ i : UInt64, i.toNat < 10 ^ 16 ∧
    k = raftLogKey id i
  savedOffset : loadIndex eng (raftOffsetIndexKey id) = .ok l.offset
  savedLast : loadIndex eng (raftLastIndexKey id) = .ok l.last

section Queries

variable {id : RangeID} {r : RaftReplica} {eng : Engine} {l : RefLog}

lemma entriesLoop_of_walk {ekey : MVCCKey} {w : List (MVCCKey × Entry)} {ents : List RaftEntry}
    (h : w.takeWhile (fun e => decide (e.1 < bytesNext ekey)) =
      ents.map fun e => (raftLogKey id e.index, .raftEntry e)) :
    RaftReplica.entriesLoop ekey w = .ok ents := by
  induction w generalizing ents with
  | nil =>
    rw [List.takeWhile_nil, eq_comm, List.map_eq_nil_iff] at h
    rw [h, RaftReplica.entriesLoop]
  | cons kv w ih =>
    obtain ⟨k, v⟩ := kv
    by_cases hk : k < bytesNext ekey
    · rw [List.takeWhile_cons_of_pos (by simpa using hk)] at h
      rcases ents with _ | ⟨e, ents⟩
      · simp at h
      · rw [List.map_cons, List.cons.injEq, Prod.mk.injEq] at h
        obtain ⟨⟨-, rfl⟩, htl⟩ := h
        rw [RaftReplica.entriesLoop, if_neg (not_lt.mpr (le_iff_lt_bytesNext.mpr hk)), ih htl]
        rfl
    · rw [List.takeWhile_cons_of_neg (by simpa using hk), eq_comm, List.map_eq_nil_iff] at h
      have hgt : ekey < k := not_le.mp fun hle => hk (le_iff_lt_bytesNext.mp hle)
      unfold RaftReplica.entriesLoop
      rw [h, if_pos hgt]

/-- **A walk between two log keys meets the entries between the two indexes.** -/
lemma Refines.walk (h : Refines id r eng l) {lo hi : UInt64} (hlo : l.first ≤ lo.toNat)
    (hlt : lo < hi) (hhi : hi.toNat ≤ l.last.toNat + 1) :
    (eng.seek (raftLogKey id lo)).takeWhile
        (fun e => decide (e.1 < bytesNext (raftLogKey id (hi - 1)))) =
      (l.slice lo hi).map fun e => (raftLogKey id e.index, .raftEntry e) := by
  have hlt' := UInt64.lt_iff_toNat_lt.mp hlt
  have hb := h.ordered.bound
  have hone : (1 : UInt64) ≤ hi := UInt64.le_iff_toNat_le.mpr (by rw [UInt64.toNat_one]; omega)
  have hsub : (hi - 1).toNat = hi.toNat - 1 := UInt64.toNat_sub_of_le _ _ hone
  have hbetween : ∀ i : UInt64, i.toNat < 10 ^ 16 →
      (raftLogKey id lo ≤ raftLogKey id i ∧ raftLogKey id i < bytesNext (raftLogKey id (hi - 1)) ↔
        lo ≤ i ∧ i < hi) := by
    intro i hi'
    rw [← le_iff_lt_bytesNext, raftLogKey_le_iff id (by omega) hi',
      raftLogKey_le_iff id hi' (by omega), UInt64.le_iff_toNat_le, UInt64.le_iff_toNat_le,
      UInt64.lt_iff_toNat_lt]
    omega
  refine OrdMap.eq_of_mem_iff ?_ ?_ ?_
  · rw [walk_eq]
    exact eng.sorted.filter _
  · -- the indexes of a slice increase
    rw [List.pairwise_map]
    have hpair : (l.log.map fun e => e.index.toNat).Pairwise (· < ·) := by
      rw [h.ordered.indexes]
      exact List.pairwise_lt_range'
    rw [List.pairwise_map] at hpair
    refine (hpair.filter _).imp_of_mem fun {e e'} he he' hlt => ?_
    have hi1 := h.ordered.index_lt (List.mem_filter.mp he).1
    have hi2 := h.ordered.index_lt (List.mem_filter.mp he').1
    exact (raftLogKey_lt_iff id hi1 hi2).mpr (UInt64.lt_iff_toNat_lt.mpr hlt)
  · rintro ⟨k, v⟩
    rw [mem_walk, List.mem_map]
    constructor
    · rintro ⟨hin, hget⟩
      have hlog : InLog id k := by
        refine ⟨le_trans (inLog_raftLogKey id (by omega)).1 hin.1, ?_⟩
        exact (le_iff_lt_bytesNext.mpr hin.2).trans (inLog_raftLogKey id (by omega)).2
      obtain ⟨i, hi', rfl⟩ := h.contiguous k hlog (by rw [hget]; simp)
      obtain ⟨hge, hlt'⟩ := (hbetween i hi').mp hin
      have hge' := UInt64.le_iff_toNat_le.mp hge
      have hlt'' := UInt64.lt_iff_toNat_lt.mp hlt'
      obtain ⟨e, he, hei⟩ := (h.ordered.mem_iff i.toNat).mpr ⟨by omega, by omega⟩
      obtain rfl := UInt64.toNat_inj.mp hei
      refine ⟨e, List.mem_filter.mpr ⟨he, decide_eq_true ⟨hge, hlt'⟩⟩, ?_⟩
      rw [h.stored e he, Option.some.injEq] at hget
      rw [hget]
    · rintro ⟨e, he, heq⟩
      obtain ⟨hmem, hin⟩ := List.mem_filter.mp he
      cases heq
      have hi' := h.ordered.index_lt hmem
      exact ⟨(hbetween e.index hi').mpr (of_decide_eq_true hin), h.stored e hmem⟩

lemma toInt_sub_toInt64 {lo hi : UInt64} (hlt : lo < hi) (hhi : hi.toNat ≤ 10 ^ 16) :
    (hi.toInt64 - lo.toInt64).toInt = (hi.toNat - lo.toNat : ℕ) := by
  have hlt' := UInt64.lt_iff_toNat_lt.mp hlt
  have hsub : (hi - lo).toNat = hi.toNat - lo.toNat :=
    UInt64.toNat_sub_of_le _ _ (UInt64.le_of_lt hlt)
  have he : (hi.toInt64 - lo.toInt64) = (hi - lo).toInt64 := rfl
  have hcond : (hi - lo).toInt64.toInt = _ := BitVec.toInt_eq_toNat_cond (hi - lo).toBitVec
  have hdef : (hi - lo).toBitVec.toNat = (hi - lo).toNat := rfl
  rw [he, hcond, hdef, hsub, if_pos (by omega)]

/-- `Entries` returns the slice it is asked for. -/
lemma Refines.entries (h : Refines id r eng l) {lo hi : UInt64} (maxSize : UInt64)
    (hoff : r.raftOffsetIndex ≤ lo) (hlo : l.first ≤ lo.toNat) (hlt : lo < hi)
    (hhi : hi.toNat ≤ l.last.toNat + 1) :
    r.entries eng lo hi maxSize = .ok (l.slice lo hi) := by
  have hlen : (l.slice lo hi).length = hi.toNat - lo.toNat := by
    have := congrArg List.length (h.ordered.slice_indexes hlo hlt hhi)
    simpa using this
  have hb := h.ordered.bound
  have hcount : ((l.slice lo hi).length : Int) = (hi.toInt64 - lo.toInt64).toInt := by
    rw [toInt_sub_toInt64 hlt (by omega), hlen]
  have hloop := entriesLoop_of_walk (h.walk hlo hlt hhi)
  rw [RaftReplica.entries, if_neg (UInt64.not_le.mpr hlt), if_neg (UInt64.not_lt.mpr hoff)]
  simp only [h.rangeID, hloop, bind, Except.bind, hcount, if_true]
  rfl

lemma Refines.compacted {lo hi : UInt64} (maxSize : UInt64) (hlt : lo < hi)
    (hoff : lo < r.raftOffsetIndex) : r.entries eng lo hi maxSize = .error .compacted := by
  rw [RaftReplica.entries, if_neg (UInt64.not_le.mpr hlt), if_pos hoff]
  rfl

lemma Refines.term (h : Refines id r eng l) {i : UInt64} (hoff : r.raftOffsetIndex ≤ i)
    (hpos : 1 ≤ i.toNat) (hlast : i ≤ r.raftLastIndex) :
    ∃ e ∈ l.log, e.index = i ∧ r.term eng i = .ok e.term := by
  have hb := h.ordered.bound
  rw [h.last] at hlast
  have hlast' := UInt64.le_iff_toNat_le.mp hlast
  have hsucc : (i + 1).toNat = i.toNat + 1 := by
    rw [UInt64.toNat_add, UInt64.toNat_one]
    omega
  have hfirst : l.first ≤ i.toNat := by
    have hoff' := UInt64.le_iff_toNat_le.mp hoff
    rw [h.offset] at hoff'
    rw [RefLog.first]
    omega
  have hlt : i < i + 1 := UInt64.lt_iff_toNat_lt.mpr (by omega)
  have hents := h.entries 0 hoff hfirst hlt (by omega)
  have hidx := h.ordered.slice_indexes hfirst hlt (by omega)
  rw [hsucc, Nat.add_sub_cancel_left] at hidx
  obtain ⟨e, hslice⟩ : ∃ e, l.slice i (i + 1) = [e] := by
    refine List.length_eq_one_iff.mp ?_
    simpa using congrArg List.length hidx
  have he : e ∈ l.slice i (i + 1) := by rw [hslice]; exact List.mem_singleton_self e
  refine ⟨e, (List.mem_filter.mp he).1, ?_, ?_⟩
  · rw [hslice] at hidx
    exact UInt64.toNat_inj.mp (by simpa using hidx)
  · rw [RaftReplica.term, hents, hslice]
    rfl

end Queries

/-! ### The operations -/

/-- What raft promises about entries it hands over: their indexes follow one another, from one
above the offset that is at most one past the last. -/
def Appends (r : RaftReplica) : List RaftEntry → Prop
  | [] => True
  | e :: l =>
    (e :: l).map (fun e => e.index.toNat) = List.range' e.index.toNat (l.length + 1) ∧
      r.raftOffsetIndex < e.index ∧ e.index.toNat ≤ r.raftLastIndex.toNat + 1 ∧
      e.index.toNat + l.length < 10 ^ 16

instance (r : RaftReplica) (ents : List RaftEntry) : Decidable (Appends r ents) :=
  match ents with
  | [] => isTrue trivial
  | _ :: _ => inferInstanceAs (Decidable (_ ∧ _ ∧ _ ∧ _))

section Operations

variable {id : RangeID} {r : RaftReplica} {eng : Engine} {l : RefLog}

/-- What one range keeps in the engine is all that its log depends on. -/
lemma Refines.frame (h : Refines id r eng l) {eng' : Engine}
    (hsame : ∀ k ∈ Own id, eng'.get k = eng.get k) : Refines id r eng' l where
  rangeID := h.rangeID
  rangeDesc := h.rangeDesc
  offset := h.offset
  last := h.last
  ordered := h.ordered
  stored e he := by
    rw [hsame _ (Or.inl (inLog_raftLogKey id (h.ordered.index_lt he)))]
    exact h.stored e he
  contiguous k hk hget := h.contiguous k hk (by rwa [hsame k (Or.inl hk)] at hget)
  savedOffset := by
    rw [loadIndex_congr (hsame _ (Or.inr (Or.inl rfl)))]
    exact h.savedOffset
  savedLast := by
    rw [loadIndex_congr (hsame _ (Or.inr (Or.inr rfl)))]
    exact h.savedLast

lemma Refines.restart (h : Refines id r eng l) :
    Refines id (RaftReplica.newReplica r.rangeDesc eng) eng l where
  rangeID := h.rangeDesc
  rangeDesc := h.rangeDesc
  offset := by
    simp [RaftReplica.newReplica, RaftReplica.loadRaftPrevIndex, RaftReplica.loadOffsetIndex,
      h.rangeDesc, h.savedOffset, Except.toOption]
  last := by
    simp [RaftReplica.newReplica, RaftReplica.loadRaftPrevIndex, RaftReplica.loadLastIndex,
      h.rangeDesc, h.savedLast, Except.toOption]
  ordered := h.ordered
  stored := h.stored
  contiguous := h.contiguous
  savedOffset := h.savedOffset
  savedLast := h.savedLast

/-! #### Compaction -/

section Compact

variable [Backend]

/-- What a compaction deletes: of the keys that the batch holds when it is committed, those that
stand in the engine are keys of the log below the index. -/
def Harmless (r : RaftReplica) (eng : Engine) (index : UInt64) : Prop :=
  ∀ kv ∈ scan eng (raftLogKey r.rangeID 0) (raftLogKey r.rangeID index) 0, eng.get kv.1 ≠ none →
    raftLogKey r.rangeID 0 ≤ kv.1 ∧ kv.1 < raftLogKey r.rangeID index

instance (r : RaftReplica) (eng : Engine) (index : UInt64) : Decidable (Harmless r eng index) :=
  inferInstanceAs (Decidable (∀ kv ∈ _, _))

omit [Backend] in
/-- Keys that are copied are the keys that the loop has met. -/
lemma harmless_ordered (r : RaftReplica) (eng : Engine) (index : UInt64) :
    @Harmless .ordered r eng index := by
  intro kv hkv _
  rw [scan_ordered, if_pos rfl] at hkv
  unfold iterate at hkv
  split_ifs at hkv with hlt
  · exact (mem_walk.mp hkv).1
  · cases hkv

/-- The engine after the log has been compacted to `index`. -/
lemma compact_run (h : Refines id r eng l) {index : UInt64}
    (hharm : r.raftOffsetIndex < index → index ≤ r.raftLastIndex → Harmless r eng index) :
    (l.offset < index ∧ index ≤ l.last ∧ ∃ eng',
      r.compact eng index = .ok ({ r with raftOffsetIndex := index },
        putIndex eng' (raftOffsetIndexKey id) index) ∧
      (∀ k, eng'.get k ≠ none → eng.get k ≠ none) ∧
      ∀ k, ¬ (raftLogKey id 0 ≤ k ∧ k < raftLogKey id index) → eng'.get k = eng.get k) ∨
    (¬ (l.offset < index ∧ index ≤ l.last) ∧ ∃ e, r.compact eng index = .error e) := by
  rw [← h.offset, ← h.last]
  unfold RaftReplica.compact
  by_cases h1 : index ≤ r.raftOffsetIndex
  · exact Or.inr ⟨fun hc => UInt64.not_lt.mpr h1 hc.1, _, if_pos h1⟩
  · rw [if_neg h1]
    by_cases h2 : index > r.raftLastIndex
    · exact Or.inr ⟨fun hc => UInt64.not_lt.mpr hc.2 h2, _, if_pos h2⟩
    · have hharm := hharm (UInt64.not_le.mp h1) (UInt64.not_lt.mp h2)
      rw [Harmless, h.rangeID] at hharm
      refine Or.inl ⟨UInt64.not_le.mp h1, UInt64.not_lt.mp h2,
        (scan eng (raftLogKey id 0) (raftLogKey id index) 0).foldl
          (fun batch kv => batch.clear kv.1) eng, ?_, fun k hk hnone => hk ?_, fun k hk => ?_⟩
      · simp only [if_neg h2, RaftReplica.setOffsetIndex, h.rangeID]
      · rw [get_foldl_clear, hnone, ite_self]
      · rw [get_foldl_clear]
        split_ifs with hmem
        · obtain ⟨kv, hkv, rfl⟩ := List.mem_map.mp hmem
          by_contra hne
          exact hk (hharm kv hkv (Ne.symm hne))
        · rfl

omit [Backend] in
lemma RefLog.Ordered.filter_ge_indexes (h : l.Ordered) {index : UInt64} (h1 : l.offset < index)
    (h2 : index ≤ l.last) :
    (l.log.filter fun e => decide (index ≤ e.index)).map (fun e => e.index.toNat) =
      List.range' index.toNat (l.last.toNat + 1 - index.toNat) := by
  have h1' := UInt64.lt_iff_toNat_lt.mp h1
  have h2' := UInt64.le_iff_toNat_le.mp h2
  have hlast := h.last
  have hfirst : l.first ≤ index.toNat := by
    rw [RefLog.first]
    omega
  rw [← filter_range' (n := l.log.length) hfirst (by omega) (by omega : _ ≤ _), ← h.indexes,
    List.filter_map]
  congr 1
  refine List.filter_congr fun e he => ?_
  have hle := ((h.mem_iff e.index.toNat).mp ⟨e, he, rfl⟩).2
  simp only [Function.comp_apply, decide_eq_decide, UInt64.le_iff_toNat_le]
  omega

omit [Backend] in
lemma RefLog.Ordered.compact (h : l.Ordered) {index : UInt64} (h1 : l.offset < index)
    (h2 : index ≤ l.last) :
    RefLog.Ordered ⟨index, l.log.filter fun e => decide (index ≤ e.index)⟩ := by
  have h1' := UInt64.lt_iff_toNat_lt.mp h1
  have h2' := UInt64.le_iff_toNat_le.mp h2
  have hidx := h.filter_ge_indexes h1 h2
  have hnewFirst : max 1 index.toNat = index.toNat := by omega
  have hb := h.bound
  refine RefLog.Ordered.of_indexes (n := l.last.toNat + 1 - index.toNat) ?_ (by omega) ?_
  · rw [RefLog.first, hnewFirst]
    exact hidx
  · rw [RefLog.first, hnewFirst]
    omega

omit [Backend] in
lemma Refines.compact (h : Refines id r eng l) {index : UInt64} (h1 : l.offset < index)
    (h2 : index ≤ l.last) {eng' : Engine} (hsub : ∀ k, eng'.get k ≠ none → eng.get k ≠ none)
    (hget : ∀ k, ¬ (raftLogKey id 0 ≤ k ∧ k < raftLogKey id index) → eng'.get k = eng.get k) :
    Refines id { r with raftOffsetIndex := index } (putIndex eng' (raftOffsetIndexKey id) index)
      (l.compact index) := by
  have hl : l.compact index = ⟨index, l.log.filter fun e => decide (index ≤ e.index)⟩ := by
    rw [RefLog.compact, if_pos ⟨h1, h2⟩]
  have hord := h.ordered.compact h1 h2
  have hb : index.toNat < 10 ^ 16 :=
    lt_of_le_of_lt (UInt64.le_iff_toNat_le.mp h2) h.ordered.bound
  have hlast : RefLog.last ⟨index, l.log.filter fun e => decide (index ≤ e.index)⟩ = l.last := by
    have h2' := UInt64.le_iff_toNat_le.mp h2
    have hnew := hord.last
    have hlen := congrArg List.length (h.ordered.filter_ge_indexes h1 h2)
    simp only [List.length_map, List.length_range'] at hlen
    simp only [RefLog.first, hlen] at hnew
    have h1' := UInt64.lt_iff_toNat_lt.mp h1
    exact UInt64.toNat_inj.mp (by omega)
  rw [hl]
  refine ⟨h.rangeID, h.rangeDesc, rfl, h.last.trans hlast.symm, hord, fun e he => ?_,
    fun k hk hne => ?_, loadIndex_putIndex eng' _ index, ?_⟩
  · obtain ⟨he, hle⟩ := List.mem_filter.mp he
    have hi := h.ordered.index_lt he
    rw [get_putIndex_of_ne _ (inLog_ne_offset (inLog_raftLogKey id hi)), hget, h.stored e he]
    rintro ⟨-, hlt⟩
    exact UInt64.not_lt.mpr (of_decide_eq_true hle) ((raftLogKey_lt_iff id hi hb).mp hlt)
  · rw [get_putIndex_of_ne _ (inLog_ne_offset hk)] at hne
    exact h.contiguous k hk (hsub k hne)
  · have hkey : (putIndex eng' (raftOffsetIndexKey id) index).get (raftLastIndexKey id) =
        eng.get (raftLastIndexKey id) := by
      rw [get_putIndex_of_ne _ (offset_ne_last id id).symm, hget]
      rintro ⟨hle, hlt⟩
      exact not_inLog_last id id ⟨hle, hlt.le.trans (inLog_raftLogKey id hb).2⟩
    rw [loadIndex_congr hkey, hlast]
    exact h.savedLast

end Compact

/-! #### Appending -/

section Append

variable {e : RaftEntry} {tl : List RaftEntry}

/-- The last of the entries handed over. -/
lemma getLast_of_appends (ha : Appends r (e :: tl)) :
    ∃ e', (e :: tl).getLast? = some e' ∧ e'.index.toNat = e.index.toNat + tl.length := by
  have hlast := RefLog.last_of_indexes (l := ⟨0, e :: tl⟩) ha.1 (by omega)
  refine ⟨(e :: tl).getLast (by simp), List.getLast?_eq_getLast_of_ne_nil _, ?_⟩
  rw [RefLog.last, List.getLast?_eq_getLast_of_ne_nil (by simp)] at hlast
  simp only [Option.map_some, Option.getD_some] at hlast
  omega

/-- The engine after the entries have been appended: it holds the new entries, and below them and
outside of the log what it held. -/
lemma append_run [Backend] (h : Refines id r eng l) (ha : Appends r (e :: tl)) :
    ∃ (last : UInt64) (eng' : Engine), last.toNat = e.index.toNat + tl.length ∧
      r.append eng (e :: tl) = ({ r with raftLastIndex := last },
        putIndex eng' (raftLastIndexKey id) last) ∧
      (∀ e' ∈ e :: tl, eng'.get (raftLogKey id e'.index) = some (.raftEntry e')) ∧
      ∀ k, (∀ i : UInt64, e.index ≤ i → i.toNat < 10 ^ 16 → k ≠ raftLogKey id i) →
        eng'.get k = eng.get k := by
  obtain ⟨e', hlast, hidx⟩ := getLast_of_appends ha
  obtain ⟨hmap, -, -, hbound⟩ := ha
  have hold := h.ordered.bound
  have hsucc : (e'.index + 1).toNat = e'.index.toNat + 1 := by
    rw [UInt64.toNat_add, UInt64.toNat_one]
    omega
  -- the indexes the second loop goes over
  have hoff : ∀ j < r.raftLastIndex.toNat + 1 - (e'.index + 1).toNat,
      (e'.index + 1 + UInt64.ofNat j).toNat = e'.index.toNat + 1 + j ∧
        e'.index.toNat + 1 + j ≤ l.last.toNat := by
    intro j hj
    rw [h.last] at hj
    rw [UInt64.toNat_add, hsucc, UInt64.toNat_ofNat']
    omega
  have hrange : ∀ e'' ∈ e :: tl, e.index.toNat ≤ e''.index.toNat ∧
      e''.index.toNat ≤ e'.index.toNat := by
    intro e'' he''
    have := (mem_indexes_iff hmap e''.index.toNat).mp ⟨e'', he'', rfl⟩
    omega
  refine ⟨e'.index, RaftReplica.clearEntries id (r.raftLastIndex.toNat + 1 - (e'.index + 1).toNat)
    (e'.index + 1) (RaftReplica.putEntries id (e :: tl) eng), hidx, ?_, ?_, ?_⟩
  · rw [RaftReplica.append, hlast]
    simp only [RaftReplica.setLastIndex, h.rangeID]
  · intro e'' he''
    have hr := hrange e'' he''
    rw [get_clearEntries_of_ne]
    · refine get_putEntries_of_mem he'' fun e₂ he₂ hk => ?_
      have hr₂ := hrange e₂ he₂
      have := raftLogKey_inj id (by omega) (by omega) hk
      exact index_inj hmap he₂ he'' (by rw [this])
    · intro j hj hk
      have hj' := hoff j hj
      have := raftLogKey_inj id (by omega) (by omega) hk
      rw [this, hj'.1] at hr
      omega
  · intro k hk
    rw [get_clearEntries_of_ne, get_putEntries_of_ne]
    · intro e₂ he₂
      have hr₂ := hrange e₂ he₂
      exact hk e₂.index (UInt64.le_iff_toNat_le.mpr hr₂.1) (by omega)
    · intro j hj
      have hj' := hoff j hj
      exact hk _ (UInt64.le_iff_toNat_le.mpr (by omega)) (by omega)

lemma RefLog.Ordered.append (h : Refines id r eng l) (ha : Appends r (e :: tl)) :
    (l.append (e :: tl)).Ordered := by
  obtain ⟨hmap, hoff, hlast, hbound⟩ := ha
  rw [h.offset] at hoff
  rw [h.last] at hlast
  have hoff' := UInt64.lt_iff_toNat_lt.mp hoff
  have hord := h.ordered.last
  have hfirst : l.first ≤ e.index.toNat := by
    rw [RefLog.first]
    omega
  have hkeep : (l.log.filter fun x => decide (x.index < e.index)).map (fun x => x.index.toNat) =
      List.range' l.first (e.index.toNat - l.first) := by
    rw [← filter_range' (n := l.log.length) le_rfl hfirst (by omega), ← h.ordered.indexes,
      List.filter_map]
    congr 1
    refine List.filter_congr fun x hx => ?_
    have hle := ((h.ordered.mem_iff x.index.toNat).mp ⟨x, hx, rfl⟩).1
    simp only [Function.comp_apply, decide_eq_decide, UInt64.lt_iff_toNat_lt]
    omega
  refine RefLog.Ordered.of_indexes (n := e.index.toNat - l.first + (tl.length + 1)) ?_ (by omega) ?_
  · show ((l.log.filter fun x => decide (x.index < e.index)) ++ (e :: tl)).map _ = _
    have happ := List.range'_append_1 (s := l.first) (m := e.index.toNat - l.first)
      (n := tl.length + 1)
    rw [Nat.add_sub_cancel' hfirst] at happ
    rw [List.map_append, hkeep, hmap, happ]
    rfl
  · show l.first + _ ≤ _
    omega

lemma mem_append_log (l : RefLog) (y : RaftEntry) :
    y ∈ (l.append (e :: tl)).log ↔ (y ∈ l.log ∧ y.index < e.index) ∨ y ∈ e :: tl := by
  show y ∈ (l.log.filter fun x => decide (x.index < e.index)) ++ (e :: tl) ↔ _
  rw [List.mem_append, List.mem_filter, decide_eq_true_iff]

lemma last_append_log (l : RefLog) (ha : Appends r (e :: tl)) :
    (l.append (e :: tl)).last.toNat = e.index.toNat + tl.length := by
  obtain ⟨e', hl', hidx⟩ := getLast_of_appends ha
  have hlast : (l.append (e :: tl)).last = e'.index := by
    show (((l.log.filter fun x => decide (x.index < e.index)) ++ (e :: tl)).getLast?.map
      RaftEntry.index).getD 0 = e'.index
    rw [List.getLast?_append, hl']
    rfl
  rw [hlast, hidx]

/-- Under the log keys stand the entries of the reference log after the append. -/
lemma append_stored (h : Refines id r eng l) {eng' : Engine}
    (hnew : ∀ e' ∈ e :: tl, eng'.get (raftLogKey id e'.index) = some (.raftEntry e'))
    (hold : ∀ k, (∀ i : UInt64, e.index ≤ i → i.toNat < 10 ^ 16 → k ≠ raftLogKey id i) →
      eng'.get k = eng.get k) (y : RaftEntry) (hy : y ∈ (l.append (e :: tl)).log) :
    eng'.get (raftLogKey id y.index) = some (.raftEntry y) := by
  rcases (mem_append_log l y).mp hy with ⟨hy, hlt⟩ | hy
  · -- below the new entries: what the log held
    rw [hold _ fun j hj hj' hk => ?_, h.stored y hy]
    rw [raftLogKey_inj id (h.ordered.index_lt hy) hj' hk] at hlt
    exact UInt64.not_lt.mpr hj hlt
  · exact hnew y hy

lemma Refines.append [Backend] (h : Refines id r eng l) (ha : Appends r (e :: tl)) :
    Refines id (r.append eng (e :: tl)).1 (r.append eng (e :: tl)).2 (l.append (e :: tl)) := by
  obtain ⟨last, eng', hlast, hrun, hnew, hold⟩ := append_run h ha
  have hlastEq : last = (l.append (e :: tl)).last :=
    UInt64.toNat_inj.mp (hlast.trans (last_append_log l ha).symm)
  rw [hrun]
  have hord := RefLog.Ordered.append h ha
  refine ⟨h.rangeID, h.rangeDesc, h.offset, hlastEq, hord, ?_, ?_, ?_, ?_⟩
  · intro y hy
    rw [get_putIndex_of_ne _ (inLog_ne_last (inLog_raftLogKey id (hord.index_lt hy)))]
    exact append_stored h hnew hold y hy
  · intro k hk hne
    by_cases hlog : ∃ i : UInt64, i.toNat < 10 ^ 16 ∧ k = raftLogKey id i
    · exact hlog
    · rw [get_putIndex_of_ne _ (inLog_ne_last hk),
        hold k fun i _ hi hki => hlog ⟨i, hi, hki⟩] at hne
      exact h.contiguous k hk hne
  · have hkey : (putIndex eng' (raftLastIndexKey id) last).get (raftOffsetIndexKey id) =
        eng.get (raftOffsetIndexKey id) := by
      rw [get_putIndex_of_ne _ (offset_ne_last id id), hold]
      intro i _ hi hk
      exact inLog_ne_offset (inLog_raftLogKey id hi) hk.symm
    rw [loadIndex_congr hkey]
    exact h.savedOffset
  · rw [← hlastEq]
    exact loadIndex_putIndex eng' _ last

lemma append_frame [Backend] (h : Refines id r eng l) (ha : Appends r (e :: tl)) {k : MVCCKey}
    (hk : k ∉ Own id) : (r.append eng (e :: tl)).2.get k = eng.get k := by
  obtain ⟨last, eng', -, hrun, -, hold⟩ := append_run h ha
  rw [hrun, get_putIndex_of_ne _ fun hc => hk (Or.inr (Or.inr hc)), hold]
  intro i _ hi hc
  exact hk (Or.inl (hc ▸ inLog_raftLogKey id hi))

end Append

lemma compact_frame [Backend] (h : Refines id r eng l) {index : UInt64}
    (hharm : r.raftOffsetIndex < index → index ≤ r.raftLastIndex → Harmless r eng index)
    {p : RaftReplica × Engine} (hp : r.compact eng index = .ok p) {k : MVCCKey} (hk : k ∉ Own id) :
    p.2.get k = eng.get k := by
  rcases compact_run h hharm with ⟨-, h2, eng', hrun, -, hget⟩ | ⟨-, e, hrun⟩
  · rw [hrun] at hp
    cases hp
    have hb : index.toNat < 10 ^ 16 :=
      lt_of_le_of_lt (UInt64.le_iff_toNat_le.mp h2) h.ordered.bound
    rw [get_putIndex_of_ne _ fun hc => hk (Or.inr (Or.inl hc)), hget]
    rintro ⟨hle, hlt⟩
    exact hk (Or.inl ⟨hle, hlt.le.trans (inLog_raftLogKey id hb).2⟩)
  · rw [hrun] at hp
    cases hp

end Operations

/-! ### Runs of a node -/

/-- The engine of a node and the replicas on it. -/
structure LogNode where
  eng : Engine
  replicas : RangeID → RaftReplica

inductive LogOp
  | append (id : RangeID) (ents : List RaftEntry)
  | compact (id : RangeID) (index : UInt64)
  | restart (id : RangeID)
  deriving DecidableEq, Repr

def LogOp.rangeID : LogOp → RangeID
  | .append id _ | .compact id _ | .restart id => id

namespace LogNode

def set (n : LogNode) (id : RangeID) (p : RaftReplica × Engine) : LogNode :=
  ⟨p.2, Function.update n.replicas id p.1⟩

@[simp] lemma set_eng (n : LogNode) (id : RangeID) (p : RaftReplica × Engine) :
    (n.set id p).eng = p.2 := rfl

@[simp] lemma set_replicas (n : LogNode) (id id' : RangeID) (p : RaftReplica × Engine) :
    (n.set id p).replicas id' = if id' = id then p.1 else n.replicas id' := by
  simp [set, Function.update_apply]

-- A refused compaction changes nothing.
def step [Backend] (n : LogNode) : LogOp → Option LogNode
  | .append id ents => some (n.set id ((n.replicas id).append n.eng ents))
  | .compact id index =>
    match (n.replicas id).compact n.eng index with
    | .ok p => some (n.set id p)
    | .error _ => some n
  | .restart id => some (n.set id (RaftReplica.newReplica (n.replicas id).rangeDesc n.eng, n.eng))

/-- What the callers of the storage promise about an operation. -/
def Legal (n : LogNode) (op : LogOp) : Prop :=
  ValidID op.rangeID ∧
    match op with
    | .append id ents => Appends (n.replicas id) ents
    | .compact _ _ | .restart _ => True

instance (n : LogNode) (op : LogOp) : Decidable (n.Legal op) :=
  match op with
  | .append id ents => inferInstanceAs (Decidable (ValidID id ∧ Appends (n.replicas id) ents))
  | .compact id _ | .restart id => inferInstanceAs (Decidable (ValidID id ∧ True))

/-- A compaction that goes through deletes only what stands below its index. -/
def Spares [Backend] (n : LogNode) : LogOp → Prop
  | .compact id index => (n.replicas id).raftOffsetIndex < index →
      index ≤ (n.replicas id).raftLastIndex → Harmless (n.replicas id) n.eng index
  | _ => True

instance [Backend] (n : LogNode) (op : LogOp) : Decidable (n.Spares op) :=
  match op with
  | .compact _ _ => inferInstanceAs (Decidable (_ → _ → _))
  | .append _ _ | .restart _ => inferInstanceAs (Decidable True)

/-- No log of a range with a valid ID has been written. -/
def Fresh (n : LogNode) : Prop :=
  ∀ id, ValidID id → (n.replicas id).rangeID = id ∧ (n.replicas id).rangeDesc.rangeID = id ∧
    (n.replicas id).raftOffsetIndex = 0 ∧ (n.replicas id).raftLastIndex = 0 ∧
    ∀ k ∈ Own id, n.eng.get k = none

end LogNode

/-- The reference logs of all ranges. -/
def RefLogs.step (ls : RangeID → RefLog) : LogOp → RangeID → RefLog
  | .append id ents => Function.update ls id ((ls id).append ents)
  | .compact id index => Function.update ls id ((ls id).compact index)
  | .restart _ => ls

def RefLogs.after (ops : List LogOp) : RangeID → RefLog := ops.foldl RefLogs.step fun _ => {}

section Runs

def AllRefine (n : LogNode) (ls : RangeID → RefLog) : Prop :=
  ∀ id, ValidID id → Refines id (n.replicas id) n.eng (ls id)

lemma LogNode.Fresh.refine {n : LogNode} (h : n.Fresh) : AllRefine n fun _ => {} := by
  intro id hid
  obtain ⟨hrid, hdesc, hoff, hlast, hnone⟩ := h id hid
  have hord : RefLog.Ordered {} := ⟨rfl, rfl, by decide⟩
  refine ⟨hrid, hdesc, hoff, hlast, hord, ?_, ?_, ?_, ?_⟩
  · intro e he
    cases he
  · intro k hk hne
    exact absurd (hnone k (Or.inl hk)) hne
  · rw [loadIndex, hnone _ (Or.inr (Or.inl rfl))]
  · rw [loadIndex, hnone _ (Or.inr (Or.inr rfl))]
    rfl

/-- An operation on one range that refines its log leaves the others as they were. -/
lemma AllRefine.set {n : LogNode} {ls : RangeID → RefLog} (h : AllRefine n ls) {id : RangeID}
    (hid : ValidID id) {p : RaftReplica × Engine} {l : RefLog} (hown : Refines id p.1 p.2 l)
    (hframe : ∀ k ∉ Own id, p.2.get k = n.eng.get k) :
    AllRefine (n.set id p) (Function.update ls id l) := by
  intro id' hid'
  by_cases heq : id' = id
  · subst heq
    rw [LogNode.set_replicas, if_pos rfl, Function.update_self]
    exact hown
  · rw [LogNode.set_replicas, if_neg heq, Function.update_of_ne heq]
    refine (h id' hid').frame fun k hk => hframe k ?_
    exact Set.disjoint_left.mp (own_disjoint hid' hid heq) hk

lemma AllRefine.step [Backend] {n n' : LogNode} {ls : RangeID → RefLog} {op : LogOp}
    (h : AllRefine n ls) (hlegal : n.Legal op) (hspares : n.Spares op)
    (hstep : n.step op = some n') : AllRefine n' (RefLogs.step ls op) := by
  obtain ⟨hid, hop⟩ := hlegal
  cases op with
  | append id ents =>
    cases hstep
    rcases ents with _ | ⟨e, tl⟩
    · exact h.set hid (h id hid) fun _ _ => rfl
    · exact h.set hid ((h id hid).append hop) fun k hk => append_frame (h id hid) hop hk
  | compact id index =>
    rcases compact_run (h id hid) hspares with ⟨h1, h2, eng', hrun, hsub, hget⟩ | ⟨hno, e, hrun⟩
    · simp only [LogNode.step, hrun, Option.some.injEq] at hstep
      subst hstep
      exact h.set hid ((h id hid).compact h1 h2 hsub hget)
        fun k hk => compact_frame (h id hid) hspares hrun hk
    · simp only [LogNode.step, hrun, Option.some.injEq] at hstep
      subst hstep
      have hsame : RefLogs.step ls (.compact id index) = ls := by
        rw [RefLogs.step, RefLog.compact, if_neg hno, Function.update_eq_self]
      rw [hsame]
      exact h
  | restart id =>
    cases hstep
    have hset : AllRefine (n.set id (RaftReplica.newReplica (n.replicas id).rangeDesc n.eng, n.eng))
        (Function.update ls id (ls id)) := h.set hid (h id hid).restart fun _ _ => rfl
    rw [Function.update_eq_self] at hset
    exact hset

/-- The refinement is kept along a run. -/
lemma AllRefine.run [Backend] {n n' : LogNode} {ls : RangeID → RefLog} {ops : List LogOp}
    (h : AllRefine n ls)
    (hlegal : Steps.Along LogNode.step (fun n op => n.Legal op ∧ n.Spares op) n ops)
    (hrun : Steps.run LogNode.step n ops = some n') : AllRefine n' (ops.foldl RefLogs.step ls) := by
  induction ops generalizing n ls with
  | nil =>
    cases hrun
    exact h
  | cons op ops ih =>
    obtain ⟨t, ht, hrest⟩ := Steps.run_cons.mp hrun
    exact ih (h.step hlegal.1.1 hlegal.1.2 ht) (hlegal.2 t ht) hrest

/-- **The stored logs are the reference logs**, on every engine. After any run of appends, restarts
and compactions that delete only what stands below their index, `Entries` returns the slice of the
reference log, `Term` the term of its entry, and what has been compacted is reported so. -/
theorem log_refines_list [Backend] {n n' : LogNode} {ops : List LogOp} (hfresh : n.Fresh)
    (hlegal : Steps.Along LogNode.step (fun n op => n.Legal op ∧ n.Spares op) n ops)
    (hrun : Steps.run LogNode.step n ops = some n') (id : RangeID) (hid : ValidID id) :
    let r := n'.replicas id
    let l := RefLogs.after ops id
    (∀ lo hi maxSize : UInt64, r.raftOffsetIndex ≤ lo → lo ≠ 0 → lo < hi →
      hi ≤ r.lastIndex + 1 → r.entries n'.eng lo hi maxSize = .ok (l.slice lo hi) ∧
        (l.slice lo hi).map (fun e => e.index.toNat) =
          List.range' lo.toNat (hi.toNat - lo.toNat)) ∧
    (∀ i : UInt64, r.raftOffsetIndex ≤ i → 1 ≤ i → i ≤ r.lastIndex →
      ∃ e ∈ l.log, e.index = i ∧ r.term n'.eng i = .ok e.term) ∧
    ∀ lo hi maxSize : UInt64, lo < hi → lo < r.raftOffsetIndex →
      r.entries n'.eng lo hi maxSize = .error .compacted := by
  have h : Refines id (n'.replicas id) n'.eng (RefLogs.after ops id) :=
    (hfresh.refine.run hlegal hrun) id hid
  refine ⟨?_, ?_, fun lo hi maxSize hlt hoff => Refines.compacted maxSize hlt hoff⟩
  · intro lo hi maxSize hoff h0 hlt hhi
    have hb := h.ordered.bound
    have hpos : lo.toNat ≠ 0 := fun hc => h0 (UInt64.toNat_inj.mp hc)
    have hoff' := UInt64.le_iff_toNat_le.mp hoff
    rw [h.offset] at hoff'
    have hfirst : (RefLogs.after ops id).first ≤ lo.toNat := by
      rw [RefLog.first]
      omega
    have hhi' : hi.toNat ≤ (RefLogs.after ops id).last.toNat + 1 := by
      have := UInt64.le_iff_toNat_le.mp hhi
      rw [RaftReplica.lastIndex, h.last, UInt64.toNat_add, UInt64.toNat_one] at this
      omega
    exact ⟨h.entries maxSize hoff hfirst hlt hhi', h.ordered.slice_indexes hfirst hlt hhi'⟩
  · intro i hoff hpos hlast
    exact h.term hoff (UInt64.le_iff_toNat_le.mp hpos) hlast

/-- A node without any log. -/
def blankNode : LogNode where
  eng := .empty
  replicas id := { rangeID := id, rangeDesc := { rangeID := id, startKey := [], endKey := [] } }

lemma blankNode_fresh : blankNode.Fresh := fun _ _ => ⟨rfl, rfl, rfl, rfl, fun _ _ => rfl⟩

section Shipped

attribute [local instance] Slices.twoItems Backend.badger

/-- Two ranges write logs; the first is compacted before it holds anything below the index, and
overwrites a tail; it starts again. -/
def twoLogs : List LogOp :=
  [.append 1 [⟨.normal, 1, 1, []⟩, ⟨.normal, 1, 2, []⟩, ⟨.normal, 1, 3, []⟩],
    .append 10 [⟨.normal, 4, 1, []⟩], .append 1 [⟨.normal, 2, 2, []⟩, ⟨.normal, 2, 3, []⟩],
    .compact 1 1, .compact 1 9, .restart 1]

theorem log_refines_list_twoLogs : ∃ n, Steps.run LogNode.step blankNode twoLogs = some n ∧
    (n.replicas 1).entries n.eng 2 4 0 = .ok [⟨.normal, 2, 2, []⟩, ⟨.normal, 2, 3, []⟩] := by
  obtain ⟨n, hn⟩ := Option.isSome_iff_exists.mp
    (by decide +kernel : (Steps.run LogNode.step blankNode twoLogs).isSome)
  have hidx : (Steps.run LogNode.step blankNode twoLogs).map
      (fun n => ((n.replicas 1).raftOffsetIndex, (n.replicas 1).raftLastIndex)) = some (1, 3) := by
    decide +kernel
  rw [hn, Option.map_some, Option.some.injEq, Prod.mk.injEq] at hidx
  have h := (log_refines_list blankNode_fresh (by decide +kernel) hn 1 (by decide)).1 2 4 0
    (by rw [hidx.1]; decide) (by decide) (by decide) (by rw [RaftReplica.lastIndex, hidx.2]; decide)
  refine ⟨n, hn, h.1.trans ?_⟩
  decide +kernel

/-- The entries 1 to 4 are written, and the log is compacted to 3. -/
def compactedLog : List LogOp :=
  [.append 1 [⟨.normal, 1, 1, []⟩, ⟨.normal, 1, 2, []⟩, ⟨.normal, 1, 3, []⟩,
    ⟨.normal, 1, 4, []⟩], .compact 1 3]

/-- The keys of the entries 1 and 2 are written over, in the iterator, by those of 3 and 4 before
the batch is committed: these are the entries that are gone. -/
theorem compact_deletes_kept_entries :
    Steps.Along LogNode.step LogNode.Legal blankNode compactedLog ∧
      ∃ n, Steps.run LogNode.step blankNode compactedLog = some n ∧
        (n.replicas 1).raftOffsetIndex = 3 ∧ (n.replicas 1).lastIndex = 4 ∧
        (RefLogs.after compactedLog 1).slice 3 5 = [⟨.normal, 1, 3, []⟩, ⟨.normal, 1, 4, []⟩] ∧
        (n.replicas 1).entries n.eng 3 5 0 = .ok [] ∧
        n.eng.get (raftLogKey 1 1) = some (.raftEntry ⟨.normal, 1, 1, []⟩) := by
  refine ⟨by decide +kernel, ?_⟩
  obtain ⟨n, hn⟩ := Option.isSome_iff_exists.mp
    (by decide +kernel : (Steps.run LogNode.step blankNode compactedLog).isSome)
  have hrun : (Steps.run LogNode.step blankNode compactedLog).map
      (fun n => ((n.replicas 1).raftOffsetIndex, (n.replicas 1).lastIndex,
        (n.replicas 1).entries n.eng 3 5 0, n.eng.get (raftLogKey 1 1))) =
      some (3, 4, .ok [], some (.raftEntry ⟨.normal, 1, 1, []⟩)) := by
    decide +kernel
  rw [hn, Option.map_some, Option.some.injEq] at hrun
  simp only [Prod.mk.injEq] at hrun
  exact ⟨n, hn, hrun.1, hrun.2.1, by decide +kernel, hrun.2.2.1, hrun.2.2.2⟩

end Shipped

end Runs

end Ancestor
