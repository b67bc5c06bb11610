import Ancestor.Lib.OrdMap
import Ancestor.Data

/-!
The storage engine (`storage/engine/engine.go`): an ordered map from encoded keys to stored
values, with the range statistics that the write path keeps beside it.

A stored value is one of the records the storage layer marshals; reading one as another
kind is the unmarshalling error. Commands run in a state monad whose errors keep the
state, as a Go function that returns an error keeps the writes it has made.

Whether `Clear` removes anything, and what the slices hold that a caller has kept of an iterator, is
left to the backend: `engine.go` says one thing and `badger.go` does another.
-/

namespace Ancestor

inductive Entry
  | metaData (m : MVCCMetadata)
  | value (v : MVCCValue)
  | txn (t : Transaction)
  | raftEntry (e : RaftEntry)
  | plain (v : Value)
  | raw (b : Bytes)
  deriving DecidableEq, Repr

/-- The number of bytes stored. -/
def Entry.size : Entry → ℕ
  | .metaData m => m.size
  | .value v => v.size
  | .txn t => t.size
  | .raftEntry e => e.size
  | .plain v => v.size
  | .raw b => b.length

abbrev Engine := OrdMap MVCCKey Entry

/-- `Engine.Iterate` with a callback that never stops: the entries of `[start, stop)`. -/
def iterate (eng : Engine) (start stop : MVCCKey) : List (MVCCKey × Entry) :=
  if start < stop then (eng.seek start).takeWhile fun e => decide (e.1 < stop) else []

/-! ### Backends -/

/-- What the slices hold that a caller has kept of an iterator: `held l n` are those of the first
`n` entries of a walk over `l`, once the iterator has gone on. The value of a single entry is not
written over: its buffer is taken again by the entry after the next. Only keys are written over
keys. -/
class Slices where
  held : List (MVCCKey × Entry) → ℕ → List (MVCCKey × Entry)
  length_held : ∀ l n, (held l n).length = min n l.length
  value_held : ∀ l, (held l 1).map Prod.snd = (l.take 1).map Prod.snd
  key_held : ∀ l l' n, l.map Prod.fst = l'.map Prod.fst →
    (held l n).map Prod.fst = (held l' n).map Prod.fst

@[reducible] def Slices.copies : Slices where
  held l n := l.take n
  length_held _ _ := List.length_take
  value_held _ := rfl
  key_held l l' n h := by rw [List.map_take, List.map_take, h]

/-- A key copied into the buffer of another one; a longer key takes a new buffer. -/
def overwrite (old new : MVCCKey) : MVCCKey :=
  if new.length ≤ old.length then new ++ old.drop new.length else old

def everyOther {α : Type*} : List α → List α
  | [] => []
  | [a] => [a]
  | a :: _ :: l => a :: everyOther l

/-- What the first `n` buffers hold of two items that take turns and go on for `m` entries. -/
def takeTurns {α : Type*} (write : α → α → α) (l : List α) (n m : ℕ) : List α :=
  (l.take n).mapIdx fun i a => (everyOther ((l.take m).drop (i + 2))).foldl write a

lemma length_takeTurns {α : Type*} (write : α → α → α) (l : List α) (n m : ℕ) :
    (takeTurns write l n m).length = min n l.length := by
  simp [takeTurns]

/-- The iterator of badger without prefetched values. It has two items that take turns, and loads
the key after the next one into the item it leaves, in place; so the entry a loop has stopped at
and the one after it are loaded too. A value is loaded, into the buffer of the item, when the loop
asks for it. This is exact as long as no key in an item is longer than the ones before it and its
values have one size. -/
@[reducible] def Slices.twoItems : Slices where
  held l n := (takeTurns overwrite (l.map Prod.fst) n (n + 2)).zip
    (takeTurns (fun buf v => if v.size = buf.size then v else buf) (l.map Prod.snd) n n)
  length_held l n := by simp [length_takeTurns]
  value_held l := by
    cases l <;> simp [takeTurns, everyOther]
  key_held l l' n h := by
    rw [List.map_fst_zip (by simp [length_takeTurns]),
      List.map_fst_zip (by simp [length_takeTurns]), h]

/-- What an engine may have in place of an ordered map: whether what `Clear` deletes is gone, and
what the slices of its iterators hold. -/
class Backend where
  clears : Bool
  slices : Slices

/-- The engine that `engine.go` describes. -/
@[reducible] def Backend.ordered : Backend := ⟨true, .copies⟩

/-- The engine of `badger.go`: `Clear` deletes in a transaction that nothing commits. -/
@[reducible] def Backend.badger [s : Slices] : Backend := ⟨false, s⟩

/-- The keys and values that a caller has kept of an iterator stay what they were. -/
def Backend.Copies [b : Backend] : Prop := ∀ l n, b.slices.held l n = l.take n

/-- What a caller has kept of the first `n` entries of a walk over `l` is what it has read. -/
def Backend.Intact [b : Backend] (l : List (MVCCKey × Entry)) (n : ℕ) : Prop :=
  b.slices.held l n = l.take n

instance [Backend] (l : List (MVCCKey × Entry)) (n : ℕ) : Decidable (Backend.Intact l n) :=
  inferInstanceAs (Decidable (_ = _))

lemma Backend.copies_ordered : @Backend.Copies .ordered := fun _ _ => rfl

/-- The engine does what `engine.go` says. -/
def Backend.Documented [b : Backend] : Prop := b.clears = true ∧ Backend.Copies

lemma Backend.documented_ordered : @Backend.Documented .ordered := ⟨rfl, Backend.copies_ordered⟩

lemma Backend.Documented.eq_ordered [b : Backend] (h : Backend.Documented) : b = .ordered := by
  obtain ⟨clears, ⟨held, hlen, hval, hkey⟩⟩ := b
  obtain ⟨rfl, hcopies⟩ := h
  obtain rfl : held = fun l n => l.take n := funext fun l => funext fun n => hcopies l n
  rfl

/-- `Engine.Clear`. A batch clears with `OrdMap.clear`, for it is committed. -/
def erase [Backend] {V : Type*} (m : OrdMap MVCCKey V) (k : MVCCKey) : OrdMap MVCCKey V :=
  if Backend.clears then m.clear k else m

@[simp] lemma erase_ordered {V : Type*} (m : OrdMap MVCCKey V) (k : MVCCKey) :
    @erase .ordered V m k = m.clear k := rfl

@[simp] lemma erase_badger [Slices] {V : Type*} (m : OrdMap MVCCKey V) (k : MVCCKey) :
    @erase .badger V m k = m := rfl

lemma get_erase_ne [Backend] {V : Type*} (m : OrdMap MVCCKey V) {k k' : MVCCKey} (h : k' ≠ k) :
    (erase m k).get k' = m.get k' := by
  unfold erase
  split_ifs
  · rw [OrdMap.get_clear, if_neg h]
  · rfl

/-- The slices kept of the walk over `[start, stop)`: at most `max` entries, all of them for
`max = 0`. -/
def scan [Backend] (eng : Engine) (start stop : MVCCKey) (max : ℕ) : List (MVCCKey × Entry) :=
  let n := (iterate eng start stop).length
  Backend.slices.held (eng.seek start) (if max = 0 then n else min max n)

lemma take_length_iterate (eng : Engine) (a b : MVCCKey) :
    (eng.seek a).take (iterate eng a b).length = iterate eng a b := by
  unfold iterate
  split_ifs
  · exact (List.prefix_iff_eq_take.mp (List.takeWhile_prefix _)).symm
  · rfl

lemma scan_copies [Backend] (h : Backend.Copies) (eng : Engine) (a b : MVCCKey) (max : ℕ) :
    scan eng a b max = if max = 0 then iterate eng a b else (iterate eng a b).take max := by
  have htake := take_length_iterate eng a b
  rw [scan, h]
  split_ifs
  · exact htake
  · calc (eng.seek a).take (min max (iterate eng a b).length)
        = ((eng.seek a).take (iterate eng a b).length).take max := List.take_take.symm
      _ = (iterate eng a b).take max := by rw [htake]

lemma scan_ordered (eng : Engine) (a b : MVCCKey) (max : ℕ) :
    @scan .ordered eng a b max = if max = 0 then iterate eng a b else (iterate eng a b).take max :=
  @scan_copies .ordered Backend.copies_ordered eng a b max

lemma scan_eq_nil [Backend] {eng : Engine} {a b : MVCCKey} (h : iterate eng a b = []) (max : ℕ) :
    scan eng a b max = [] := by
  rw [← List.length_eq_zero_iff, scan, Backend.slices.length_held, h]
  simp

/-- The one entry that a scan stops after: its value is the stored one, and so is its key where
the slices are copies. -/
lemma scan_one [Backend] {eng : Engine} {a b k : MVCCKey} {e : Entry} {l : List (MVCCKey × Entry)}
    (h : iterate eng a b = (k, e) :: l) :
    ∃ x, scan eng a b 1 = [(x, e)] ∧ (Backend.Copies → x = k) := by
  obtain ⟨l', hseek⟩ : ∃ l', eng.seek a = (k, e) :: l' := by
    have htake := take_length_iterate eng a b
    rw [h] at htake
    cases hl : eng.seek a with
    | nil => simp [hl] at htake
    | cons p l' =>
      rw [hl, List.length_cons, List.take_succ_cons, List.cons.injEq] at htake
      exact ⟨l', by rw [htake.1]⟩
  have hscan : scan eng a b 1 = Backend.slices.held ((k, e) :: l') 1 := by
    simp [scan, h, hseek]
  have hlen := Backend.slices.length_held ((k, e) :: l') 1
  have hval := Backend.slices.value_held ((k, e) :: l')
  rw [hscan]
  match hheld : Backend.slices.held ((k, e) :: l') 1, hlen, hval with
  | [(x, e')], _, hval =>
    refine ⟨x, by simpa using hval, fun hcopies => ?_⟩
    have := hheld.symm.trans (hcopies _ 1)
    simpa using congrArg (List.map Prod.fst) this

/-- The entries a cursor meets from `a` on, up to `b`. -/
lemma walk_eq (eng : Engine) (a b : MVCCKey) :
    (eng.seek a).takeWhile (fun e => decide (e.1 < b)) =
      eng.entries.filter fun e => decide (a ≤ e.1 ∧ e.1 < b) := by
  convert eng.walk_eq_filter a b

lemma mem_walk {eng : Engine} {a b k : MVCCKey} {v : Entry} :
    (k, v) ∈ (eng.seek a).takeWhile (fun e => decide (e.1 < b)) ↔
      (a ≤ k ∧ k < b) ∧ eng.get k = some v := by
  rw [walk_eq, List.mem_filter, OrdMap.mem_entries_iff, decide_eq_true_iff, and_comm]

lemma get_foldl_clear (l : List (MVCCKey × Entry)) (eng : Engine) (k : MVCCKey) :
    (l.foldl (fun batch kv => batch.clear kv.1) eng).get k =
      if k ∈ l.map Prod.fst then none else eng.get k := by
  induction l generalizing eng with
  | nil => simp
  | cons kv l ih =>
    rw [List.foldl_cons, ih, OrdMap.get_clear]
    by_cases hk : k = kv.1 <;> by_cases hl : k ∈ l.map Prod.fst <;> simp [hk, hl]

lemma mem_iterate_keys {eng : Engine} {a b k : MVCCKey} :
    k ∈ (iterate eng a b).map Prod.fst ↔ (a ≤ k ∧ k < b) ∧ eng.get k ≠ none := by
  rw [List.mem_map, Option.ne_none_iff_exists']
  unfold iterate
  split_ifs with hab
  · constructor
    · rintro ⟨⟨k', v⟩, hv, rfl⟩
      obtain ⟨hin, hget⟩ := mem_walk.mp hv
      exact ⟨hin, v, hget⟩
    · rintro ⟨hin, v, hv⟩
      exact ⟨(k, v), mem_walk.mpr ⟨hin, hv⟩, rfl⟩
  · simp only [List.not_mem_nil, false_and, exists_false, false_iff, not_and]
    intro hin
    exact absurd (hin.1.trans_lt hin.2) hab

structure RangeStats where
  totalBytes : Int64 := 0
  totalCount : Int64 := 0
  deriving DecidableEq, Repr

def RangeStats.update (rs : RangeStats) (origKeySize origValSize keySize valueSize : ℕ) :
    RangeStats :=
  let rs := if keySize ≠ 0 ∨ valueSize ≠ 0 then
      { totalBytes := rs.totalBytes + Int64.ofNat keySize + Int64.ofNat valueSize,
        totalCount := rs.totalCount + 1 : RangeStats }
    else rs
  if origKeySize ≠ 0 ∨ origValSize ≠ 0 then
    { totalBytes := rs.totalBytes - Int64.ofNat origKeySize - Int64.ofNat origValSize,
      totalCount := rs.totalCount - 1 }
  else rs

/-- The engine of a node and the statistics of the range a command runs on. -/
structure St where
  eng : Engine := .empty
  stats : RangeStats := {}

abbrev M := EStateM Err St

namespace M

def putEng (k : MVCCKey) (e : Entry) : M Unit :=
  modify fun s => { s with eng := s.eng.put k e }

def clearEng [Backend] (k : MVCCKey) : M Unit :=
  modify fun s => { s with eng := erase s.eng k }

def updateRangeStats (origKeySize origValSize keySize valueSize : ℕ) : M Unit :=
  modify fun s => { s with stats := s.stats.update origKeySize origValSize keySize valueSize }

/-- A read of the current engine. -/
def read {α : Type} (f : Engine → Except Err α) : M α := fun s =>
  match f s.eng with
  | .ok a => .ok a s
  | .error e => .error e s

end M

end Ancestor
