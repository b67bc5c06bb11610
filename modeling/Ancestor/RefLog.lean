import Ancestor.Data

/-!
The reference for a raft log: a list of entries whose indexes follow one another.
-/

namespace Ancestor

/-- A log as a list of entries, with the index it was last compacted to. -/
structure RefLog where
  offset : UInt64 := 0
  log : List RaftEntry := []

namespace RefLog

def last (l : RefLog) : UInt64 := (l.log.getLast?.map RaftEntry.index).getD 0

/-- The new entries replace what was there from the first of them on. -/
def append (l : RefLog) (ents : List RaftEntry) : RefLog :=
  match ents with
  | [] => l
  | ent :: _ => { l with log := l.log.filter (fun e => decide (e.index < ent.index)) ++ ents }

/-- The entries below the index are dropped; an index that is not above the offset or is past
the end is refused. -/
def compact (l : RefLog) (index : UInt64) : RefLog :=
  if l.offset < index ∧ index ≤ l.last then
    ⟨index, l.log.filter fun e => decide (index ≤ e.index)⟩
  else l

/-- The entries from `lo` up to `hi`. -/
def slice (l : RefLog) (lo hi : UInt64) : List RaftEntry :=
  l.log.filter fun e => decide (lo ≤ e.index ∧ e.index < hi)

/-- The first index a log holds an entry for. -/
def first (l : RefLog) : ℕ := max 1 l.offset.toNat

/-- The indexes of the entries are the numbers from the first to the last. -/
structure Ordered (l : RefLog) : Prop where
  indexes : l.log.map (fun e => e.index.toNat) = List.range' l.first l.log.length
  last : l.first + l.log.length = l.last.toNat + 1
  bound : l.last.toNat < 10 ^ 16

end RefLog

section Indexes

variable {l : List RaftEntry} {a n : ℕ}

lemma mem_indexes_iff (h : l.map (fun e => e.index.toNat) = List.range' a n) (m : ℕ) :
    (∃ e ∈ l, e.index.toNat = m) ↔ a ≤ m ∧ m < a + n := by
  rw [← List.mem_range'_1, ← h, List.mem_map]

lemma index_inj (h : l.map (fun e => e.index.toNat) = List.range' a n) {e e' : RaftEntry}
    (he : e ∈ l) (he' : e' ∈ l) (heq : e.index.toNat = e'.index.toNat) : e = e' := by
  have hnd : (l.map fun e => e.index.toNat).Nodup := h ▸ List.nodup_range'
  exact List.inj_on_of_nodup_map hnd he he' heq

/-- The part of a stretch of numbers between two of them is a stretch too. -/
lemma filter_range' {lo hi : ℕ} (hlo : a ≤ lo) (hlt : lo ≤ hi) (hhi : hi ≤ a + n) :
    (List.range' a n).filter (fun m => decide (lo ≤ m ∧ m < hi)) = List.range' lo (hi - lo) := by
  have hsplit : List.range' a n =
      List.range' a (lo - a) ++ (List.range' lo (hi - lo) ++ List.range' hi (a + n - hi)) := by
    have h1 : List.range' lo (hi - lo) ++ List.range' hi (a + n - hi) =
        List.range' lo ((hi - lo) + (a + n - hi)) := by
      have := List.range'_append_1 (s := lo) (m := hi - lo) (n := a + n - hi)
      rwa [Nat.add_sub_cancel' hlt] at this
    have h2 := List.range'_append_1 (s := a) (m := lo - a) (n := (hi - lo) + (a + n - hi))
    rw [Nat.add_sub_cancel' hlo] at h2
    rw [h1, h2]
    congr 1
    omega
  rw [hsplit, List.filter_append, List.filter_append, List.filter_eq_nil_iff.mpr,
    List.filter_eq_self.mpr, List.filter_eq_nil_iff.mpr, List.nil_append, List.append_nil]
  all_goals
    intro m hm
    rw [List.mem_range'_1] at hm
    simp only [decide_eq_true_eq]
    omega

end Indexes

namespace RefLog

variable {l : RefLog}

lemma Ordered.mem_iff (h : l.Ordered) (m : ℕ) :
    (∃ e ∈ l.log, e.index.toNat = m) ↔ l.first ≤ m ∧ m ≤ l.last.toNat := by
  rw [mem_indexes_iff h.indexes, h.last]
  omega

lemma last_of_indexes {a n : ℕ} (h : l.log.map (fun e => e.index.toNat) = List.range' a n)
    (hn : 0 < n) : l.last.toNat + 1 = a + n := by
  obtain ⟨e, he⟩ : ∃ e, l.log.getLast? = some e := by
    refine Option.isSome_iff_exists.mp (List.getLast?_isSome.mpr fun hnil => ?_)
    rw [hnil, List.map_nil, eq_comm, List.range'_eq_nil_iff] at h
    omega
  have hmap := congrArg List.getLast? h
  rw [List.getLast?_map, he, List.getLast?_range', if_neg (by omega)] at hmap
  simp only [Option.map_some, Option.some.injEq] at hmap
  rw [last, he, Option.map_some, Option.getD_some, hmap]
  omega

lemma Ordered.of_indexes {n : ℕ}
    (h : l.log.map (fun e => e.index.toNat) = List.range' l.first n) (hn : 0 < n)
    (hb : l.first + n ≤ 10 ^ 16) : l.Ordered := by
  have hlen := congrArg List.length h
  simp only [List.length_map, List.length_range'] at hlen
  have hlast := last_of_indexes h hn
  exact ⟨by rw [h, hlen], by omega, by omega⟩

lemma Ordered.index_lt (h : l.Ordered) {e : RaftEntry} (he : e ∈ l.log) :
    e.index.toNat < 10 ^ 16 := by
  have hm := (h.mem_iff e.index.toNat).mp ⟨e, he, rfl⟩
  have hb := h.bound
  omega

/-- The indexes of a slice are the numbers it goes over. -/
lemma Ordered.slice_indexes (h : l.Ordered) {lo hi : UInt64} (hlo : l.first ≤ lo.toNat)
    (hlt : lo < hi) (hhi : hi.toNat ≤ l.last.toNat + 1) :
    (l.slice lo hi).map (fun e => e.index.toNat) =
      List.range' lo.toNat (hi.toNat - lo.toNat) := by
  have hlt' := UInt64.lt_iff_toNat_lt.mp hlt
  have hlast := h.last
  rw [← filter_range' (n := l.log.length) hlo hlt'.le (by omega), ← h.indexes, List.filter_map,
    slice]
  rfl

end RefLog

end Ancestor
