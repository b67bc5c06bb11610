import Ancestor.Flush
import Ancestor.Iterator

/-!
A transaction reads its own writes.

The reference is a finite map: a write changes it, a read looks a key up, and an iterator lists the
keys from one on. What a transaction has written is partly in its buffer and partly on the engine,
and its deletions are nil values there and marks or missing entries here; the answers are those of
the reference map in every case.
-/

namespace Ancestor

open M Hoare Client
open Protocol (isUserKey isTxnID)

/-! ### Iterators -/

section Iterate

variable {env : Env} {txn : Transaction} {w : Session}

/-- The ranges that end after `s`. -/
def rangesAfter (env : Env) (s : Key) : List (Key × RangeDescriptor) :=
  env.pd.cache.entries.filter fun e => decide (s < e.2.endKey)

/-- Past the end of a range there is one range less. -/
lemma rangesAfter_lt {s : Key} {rd : RangeDescriptor} (hl : Locates env.pd s rd) :
    (rangesAfter env rd.endKey).length < (rangesAfter env s).length := by
  have hsub : rangesAfter env rd.endKey =
      (rangesAfter env s).filter fun e => decide (rd.endKey < e.2.endKey) := by
    rw [rangesAfter, rangesAfter, List.filter_filter]
    refine List.filter_congr fun e _ => ?_
    rw [← Bool.decide_and, decide_eq_decide]
    exact ⟨fun h => ⟨h, hl.stop.trans h⟩, And.left⟩
  rw [hsub, List.length_filter_lt_length_iff_exists]
  refine ⟨(rd.startKey, rd), ?_, by simp⟩
  rw [rangesAfter, List.mem_filter, OrdMap.mem_entries_iff]
  exact ⟨hl.entry, by simpa using hl.stop⟩

/-- Where an iterator stands: on the first of the rows `l`, with the others from its scan key on. -/
def Ahead (eng : Engine) (txn : Transaction) (result : Option KeyValue) (scanKey : Key) :
    List KeyValue → Prop
  | [] => result = none
  | row :: l => result = some row ∧ userPrefix ≤ scanKey ∧ scanKey ≤ endPrefix ∧
      rowsFrom eng txn scanKey = l

lemma Ahead.of_stands {eng : Engine} {p : Option KeyValue × Key} {l : List KeyValue}
    (h : Stands (rowsOf eng txn.timestamp txn) p l) : Ahead eng txn p.1 p.2 l := by
  cases l with
  | nil => exact congrArg Prod.fst h
  | cons row l => exact h

variable (hsplit : SplitsKeys env.pd) (hts : txn.timestamp.Nonneg)
include hsplit hts

lemma scanRange_ok (h : Sound env txn w) {s : Key} (hs : userPrefix ≤ s) {rd : RangeDescriptor}
    (hl : Locates env.pd s rd) : scanRange s rd w =
      .ok (rd, ((rowsOf w.store.eng txn.timestamp txn).filter
        fun row => decide (s ≤ row.key ∧ row.key < rd.endKey)).take 2) w := by
  have hr := h.served _ _ hl.entry hl.above
  have hend := (hsplit.span _ _ hl.entry hl.above).2.1
  have hscan := ask_ok (sendScan_rows hts h.held hr hl.covers hs hend rd.rangeID)
  rw [scanRange, run_bind_get, h.own, run_bind_ok (raisePriority_ok hscan)]
  rfl

/-- A turn of the loop: the range of the key answers, and there is one range less ahead. -/
lemma request_ok (h : Sound env txn w) {s : Key} (hs : InUserSpan s) (hlt : s < endPrefix) :
    ∃ rd rangeCache, env.reach.request s w =
        .ok (some (rd, (within (rowsOf w.store.eng txn.timestamp txn) s rd.endKey).take 2))
          { w with rangeCache } ∧
      Cached env.pd rangeCache ∧ Locates env.pd s rd := by
  have hpre : txnPrefix ≤ userPrefix := by decide
  have hcall : ∀ (_ : NodeID) rd rangeCache, Cached env.pd rangeCache → Locates env.pd s rd →
      ∃ val w', scanRange s rd { w with rangeCache } = .ok val w' ∧
        ∃ rd rangeCache, Cached env.pd rangeCache ∧ Locates env.pd s rd ∧
          w' = { w with rangeCache } ∧
          val = (rd, (within (rowsOf w.store.eng txn.timestamp txn) s rd.endKey).take 2) :=
    fun _ rd rangeCache hc hl => ⟨_, _, scanRange_ok hsplit hts (h.withCache hc) hs.1 hl,
      rd, rangeCache, hc, hl, rfl, rfl⟩
  obtain ⟨val, w', hrun, rd, rangeCache, hc, hl, rfl, rfl⟩ :=
    requestNode_located hsplit h.cached (hpre.trans hs.1) hlt hcall
  exact ⟨rd, rangeCache, by rw [reach_request, hrun], hc, hl⟩

/-- **The loop over the ranges ends on the next row.** The ranges ahead bound its turns. -/
theorem scanMutilRange_ok (h : Sound env txn w) (fuel : ℕ) {s : Key} (hs : userPrefix ≤ s)
    (hs' : s ≤ endPrefix) (hfuel : (rangesAfter env s).length < fuel) :
    ∃ result scanKey rangeCache, scanMutilRange env fuel s w =
        .ok (result, scanKey) { w with rangeCache } ∧ Cached env.pd rangeCache ∧
      Ahead w.store.eng txn result scanKey (rowsFrom w.store.eng txn s) := by
  obtain ⟨⟨result, scanKey⟩, w', hrun, hfound, rangeCache, rfl, hc⟩ := scanMutilRange_found
    (r := env.reach) (A := FirstTwo (rowsOf w.store.eng txn.timestamp txn)) (K := InUserSpan)
    (P := fun w' => ∃ rangeCache, w' = { w with rangeCache } ∧ Cached env.pd rangeCache)
    (m := fun _ s => (rangesAfter env s).length)
    (by
      rintro _ s ⟨rangeCache, rfl, hc⟩ hs hend
      obtain ⟨rd, rangeCache', hrun, hc', hl⟩ :=
        request_ok hsplit hts (h.withCache hc) hs (lt_endPrefix hs hend)
      have hstop := (hsplit.span _ _ hl.entry hl.above).2.1
      exact ⟨rd, _, _, hrun, ⟨⟨hl.stop, hstop, rfl⟩, hs.1.trans hl.stop.le, hstop⟩,
        ⟨rangeCache', rfl, hc'⟩, rangesAfter_lt hl⟩)
    fuel ⟨w.rangeCache, rfl, h.cached⟩ ⟨hs, hs'⟩ hfuel
  rw [reach_scanMutilRange] at hrun
  exact ⟨result, scanKey, rangeCache, hrun, hc,
    .of_stands (hfound.stands (sorted_rowsOf h.held.ok) ⟨hs, hs'⟩)⟩

/-- **An iterator moves to the next row.** -/
lemma Iter.next_ok (h : Sound env txn w) (it : Iter) (hs : userPrefix ≤ it.scanKey)
    (hs' : it.scanKey ≤ endPrefix) :
    ∃ it' rangeCache, it.next env w = .ok it' { w with rangeCache } ∧ Cached env.pd rangeCache ∧
      Ahead w.store.eng txn it'.result it'.scanKey (rowsFrom w.store.eng txn it.scanKey) := by
  have hfuel : (rangesAfter env it.scanKey).length < env.turns :=
    Nat.lt_succ_of_le (List.length_filter_le _ _)
  obtain ⟨result, scanKey, rangeCache, hrun, hc, hahead⟩ :=
    scanMutilRange_ok hsplit hts h env.turns hs hs' hfuel
  refine ⟨{ it with result, scanKey }, rangeCache, ?_, hc, hahead⟩
  rw [Iter.next, hrun]

end Iterate

/-! ### Reads -/

section Read

variable {env : Env} {txn : Transaction} {w : Session} {k : Key}

lemma userKey_eq (k : Key) : userKey k = 0x02 :: k := by simp [userKey, newKey, userPrefix]

lemma isUserKey_userKey (k : Key) : isUserKey (userKey k) := by
  rw [userKey_eq]
  rfl

lemma userKey_inj {k k' : Key} : userKey k = userKey k' ↔ k = k' := by
  rw [userKey_eq, userKey_eq, List.cons.injEq]
  simp

lemma userKey_le_iff {k k' : Key} : userKey k ≤ userKey k' ↔ k ≤ k' := by
  rw [userKey_eq, userKey_eq, ← not_lt, ← not_lt, List.cons_lt_cons_iff]
  simp

lemma exists_userKey {key : Key} (h : isUserKey key) : ∃ k, key = userKey k := by
  cases key with
  | nil => simp [isUserKey, userPrefix] at h
  | cons a l =>
    have ha : a = 0x02 := by simpa [isUserKey, userPrefix] using h
    exact ⟨l, by rw [userKey_eq, ha]⟩

/-- What the transaction has for a key: its buffer over the engine. -/
def viewed (w : Session) (k : Key) : Option Bytes :=
  (w.dbTxn.kvCache.get (userKey k)).getD (shownAt w.store.eng (userKey k))

/-- `Get` with the answer that a key does not exist as an answer. -/
def getAnswer [Backend] (env : Env) (k : Key) : CM Session (Option Bytes) := fun w =>
  match Client.get env k w with
  | .ok v w => .ok (some v) w
  | .error e w =>
    match e.cause with
    | .notExist _ => .ok none w
    | _ => .error e w

variable (hsplit : SplitsKeys env.pd) (hts : txn.timestamp.Nonneg) (hk : k ≠ [])
include hsplit hts hk

omit hsplit hk in
lemma readRange_ok [Backend] (h : Sound env txn w) {rd : RangeDescriptor}
    (hl : Locates env.pd (userKey k) rd) :
    readRange k rd w = match shownAt w.store.eng (userKey k) with
      | some v => .ok v w
      | none => .error ⟨.notExist k, true⟩ w := by
  have hr := h.served _ _ hl.entry hl.above
  obtain ⟨v, hexec, hshown⟩ := execute_get hts h.held hr (isUserKey_userKey k) hl.covers rd.rangeID
  have hparse : traced (parseBatchGetResponse [.get v]) w = .ok [v] w := rfl
  rw [readRange, run_bind_get, h.own, run_bind_ok (traced_ok (raisePriority_ok (ask_ok hexec))),
    run_bind_ok hparse, ← hshown, Value.content]
  by_cases hempty : v.bytes = []
  · simp only [hempty, List.length_nil, if_true]
    rfl
  · simp only [hempty, List.length_eq_zero_iff, if_false]
    rfl

/-- A read of the engine answers with what is shown. -/
lemma snapshotGet_ok [Backend] (h : Sound env txn w) :
    ∃ rangeCache, Cached env.pd rangeCache ∧ match shownAt w.store.eng (userKey k) with
      | some v => snapshotGet env k w = .ok v { w with rangeCache }
      | none => ∃ e, snapshotGet env k w = .error e { w with rangeCache } ∧
          e.cause = .notExist k := by
  obtain ⟨hlow, hhigh⟩ := range_of_isUserKey (isUserKey_userKey k)
  have hne : ¬ k.length = 0 := by simpa using hk
  rw [snapshotGet, if_neg hne]
  cases hv : shownAt w.store.eng (userKey k) with
  | some v =>
    have hcall : ∀ (_ : NodeID) rd rangeCache, Cached env.pd rangeCache →
        Locates env.pd (userKey k) rd → ∃ a w', readRange k rd { w with rangeCache } = .ok a w' ∧
          a = v ∧ ∃ rangeCache, Cached env.pd rangeCache ∧ w' = { w with rangeCache } := by
      intro _ rd rangeCache hc hl
      have hread := readRange_ok hts (h.withCache hc) hl
      rw [hv] at hread
      exact ⟨v, _, hread, rfl, rangeCache, hc, rfl⟩
    obtain ⟨a, w', hrun, rfl, rangeCache, hc, rfl⟩ :=
      requestNode_located hsplit h.cached hlow hhigh hcall
    exact ⟨rangeCache, hc, run_bind_ok hrun⟩
  | none =>
    have hcall : ∀ (_ : NodeID) rd rangeCache, Cached env.pd rangeCache →
        Locates env.pd (userKey k) rd → ∃ e w', readRange k rd { w with rangeCache } = .error e w' ∧
          e.cause = .notExist k ∧ ∃ rangeCache, Cached env.pd rangeCache ∧
            w' = { w with rangeCache } := by
      intro _ rd rangeCache hc hl
      have hread := readRange_ok hts (h.withCache hc) hl
      rw [hv] at hread
      exact ⟨_, _, hread, rfl, rangeCache, hc, rfl⟩
    obtain ⟨e, w', hrun, he, rangeCache, hc, rfl⟩ :=
      requestNode_missing hsplit h.cached hlow hhigh hcall
    exact ⟨rangeCache, hc, e, run_bind_error hrun, he⟩

/-- **A read answers from the buffer over the engine.** -/
lemma getAnswer_ok [Backend] (h : Sound env txn w) :
    ∃ rangeCache, getAnswer env k w = .ok (viewed w k) { w with rangeCache } ∧
      Cached env.pd rangeCache := by
  rw [getAnswer, Client.get, run_bind_get, viewed]
  cases hb : w.dbTxn.kvCache.get (userKey k) with
  | some b =>
    refine ⟨w.rangeCache, ?_, h.cached⟩
    cases b <;> rfl
  | none =>
    obtain ⟨rangeCache, hc, hrun⟩ := snapshotGet_ok hsplit hts hk h
    refine ⟨rangeCache, ?_, hc⟩
    cases hv : shownAt w.store.eng (userKey k) with
    | some v =>
      rw [hv] at hrun
      simp only [hrun]
      rfl
    | none =>
      rw [hv] at hrun
      obtain ⟨e, hrun, he⟩ := hrun
      simp only [hrun, he]
      rfl

end Read

/-! ### The calls of a transaction -/

/-- `next` moves the iterator of the last `seek`, as long as it is valid. -/
inductive TxnCall
  | set (k : Key) (v : Bytes)
  | delete (k : Key)
  | get (k : Key)
  | seek (k : Key) (choice : Choice)
  | next

/-- Keys are not empty, and values are neither. -/
def TxnCall.Valid : TxnCall → Prop
  | .set k v => k ≠ [] ∧ v ≠ []
  | .delete k | .get k | .seek k _ => k ≠ []
  | .next => True

inductive Answer
  | done
  /-- The value of a key, or that it does not exist. -/
  | value (v : Option Bytes)
  /-- What an iterator stands on, or that it is no longer valid. -/
  | row (r : Option (Key × Bytes))
  deriving DecidableEq, Repr

def perform [Backend] (env : Env) : TxnCall → CM (Session × Iter) Answer
  | .set k v => do
    beside (Client.set k v)
    return .done
  | .delete k => do
    beside (Client.delete k)
    return .done
  | .get k => return .value (← beside (getAnswer env k))
  | .seek k choice => do
    let it ← beside (Client.seek env k choice)
    modify fun p => (p.1, it)
    return .row it.row
  | .next => do
    let it := (← getThe (Session × Iter)).2
    if it.valid then
      let it ← beside (it.next env)
      modify fun p => (p.1, it)
      return .row it.row
    else return .row none

def performAll [Backend] (env : Env) : List TxnCall → CM (Session × Iter) (List Answer)
  | [] => return []
  | call :: calls => do
    let answer ← perform env call
    return answer :: (← performAll env calls)

/-! ### The reference -/

/-- A finite map, and what an iterator that was opened on it has still ahead. -/
structure Reference where
  map : OrdMap Key Bytes
  rest : List (Key × Bytes) := []

namespace Reference

def perform (σ : Reference) : TxnCall → Answer × Reference
  | .set k v => (.done, { σ with map := σ.map.put k v })
  | .delete k => (.done, { σ with map := σ.map.clear k })
  | .get k => (.value (σ.map.get k), σ)
  | .seek k _ => (.row (σ.map.seek k).head?, { σ with rest := σ.map.seek k })
  | .next => (.row σ.rest.tail.head?, { σ with rest := σ.rest.tail })

def answers (σ : Reference) : List TxnCall → List Answer
  | [] => []
  | call :: calls => (σ.perform call).1 :: (σ.perform call).2.answers calls

end Reference

/-- What a row is to the user of an iterator. -/
def KeyValue.pair (row : KeyValue) : Key × Bytes :=
  (row.key.drop userPrefix.length, row.value.bytes)

/-- The session stands where the reference stands. -/
structure Follows (env : Env) (txn : Transaction) (p : Session × Iter) (σ : Reference) : Prop where
  sound : Sound env txn p.1
  view : ∀ k, σ.map.get k = viewed p.1 k
  ahead : ∃ l, Ahead p.1.store.eng txn p.2.result p.2.scanKey l ∧ l.map KeyValue.pair = σ.rest

section Simulation

variable {env : Env} {txn : Transaction} {w : Session} {it : Iter} {σ : Reference}

/-- **The rows of an engine that shows the map are the entries of the map.** -/
lemma rowsFrom_eq_seek {eng : Engine} (h : Held txn eng) (hts : txn.timestamp.Nonneg)
    {m : OrdMap Key Bytes} (hm : ∀ k, m.get k = shownAt eng (userKey k)) (k : Key) :
    (rowsFrom eng txn (userKey k)).map KeyValue.pair = m.seek k := by
  have huser : ∀ row ∈ rowsFrom eng txn (userKey k), ∃ u, row.key = userKey u := by
    intro row hrow
    rw [rowsFrom, List.mem_filter, decide_eq_true_iff] at hrow
    have hlow := (between_of_isUserKey (isUserKey_userKey k)).1
    exact exists_userKey (isUserKey_of_between (hlow.trans hrow.2.1) hrow.2.2)
  have hpair : ∀ {row : KeyValue} {u : Key}, row.key = userKey u →
      row.pair = (u, row.value.bytes) := fun {row u} hrow => by
    rw [KeyValue.pair, hrow, userKey_eq]
    rfl
  refine OrdMap.eq_of_mem_iff ?_ (m.sorted_seek k) ?_
  · rw [List.pairwise_map]
    refine (sorted_rowsFrom h.ok).imp_of_mem fun {a b} ha hb hlt => ?_
    obtain ⟨u, hu⟩ := huser a ha
    obtain ⟨v, hv⟩ := huser b hb
    rw [hpair hu, hpair hv]
    rw [hu, hv] at hlt
    exact not_le.mp fun hle => absurd hlt (not_lt.mpr (userKey_le_iff.mpr hle))
  · rintro ⟨u, b⟩
    rw [m.mem_seek, hm, ← userKey_le_iff, ← mem_rowsFrom h hts (isUserKey_userKey u),
      List.mem_map]
    constructor
    · rintro ⟨row, hrow, heq⟩
      obtain ⟨u', hu'⟩ := huser row hrow
      rw [hpair hu', Prod.mk.injEq] at heq
      exact ⟨row, hrow, heq.1 ▸ hu', heq.2⟩
    · rintro ⟨row, hrow, hu, hb⟩
      exact ⟨row, hrow, by rw [hpair hu, hb]⟩

/-- A write to the buffer overlays the engine at its key. -/
lemma Follows.buffer (h : Follows env txn (w, it) σ) (k : Key) (b : Option Bytes)
    (hb : b ≠ some []) {m : OrdMap Key Bytes}
    (hm : ∀ k', m.get k' = if k' = k then b else σ.map.get k') :
    Follows env txn ({ w with dbTxn :=
      { w.dbTxn with dirty := true, kvCache := w.dbTxn.kvCache.put (userKey k) b } }, it)
        { σ with map := m } where
  sound := by
    refine ⟨h.sound.own, h.sound.cached, h.sound.served, h.sound.held, fun key b' hget => ?_⟩
    rw [OrdMap.get_put] at hget
    split_ifs at hget with hkey
    · cases hget
      exact ⟨hkey ▸ isUserKey_userKey k, hb⟩
    · exact h.sound.buffered key b' hget
  view := fun k' => by
    rw [hm, viewed, OrdMap.get_put]
    by_cases hk : k' = k
    · rw [if_pos hk, if_pos (userKey_inj.mpr hk)]
      rfl
    · rw [if_neg hk, if_neg (mt userKey_inj.mp hk)]
      exact h.view k'
  ahead := h.ahead

lemma Follows.withCache (h : Follows env txn (w, it) σ)
    {rangeCache : Client.RangeDescriptorCache} (hc : Cached env.pd rangeCache) :
    Follows env txn ({ w with rangeCache }, it) σ :=
  ⟨h.sound.withCache hc, h.view, h.ahead⟩

lemma Ahead.row {eng : Engine} {l : List KeyValue}
    (h : Ahead eng txn it.result it.scanKey l) : it.row = (l.map KeyValue.pair).head? := by
  cases l with
  | nil =>
    rw [Ahead] at h
    rw [Iter.row, h]
    rfl
  | cons row l =>
    rw [Iter.row, h.1]
    rfl

variable (hsplit : SplitsKeys env.pd) (hts : txn.timestamp.Nonneg) (hid : isTxnID txn.id)
  (hpending : txn.status = .pending)

include hsplit hts in
lemma next_follows [Backend] (h : Follows env txn (w, it) σ) :
    ∃ p, perform env .next (w, it) = .ok (σ.perform .next).1 p ∧
      Follows env txn p (σ.perform .next).2 := by
  obtain ⟨l, hahead, hrest⟩ := h.ahead
  rw [perform, run_bind_get]
  cases l with
  | nil =>
    have hnone : it.result = none := hahead
    have hrest' : σ.rest = [] := hrest.symm
    refine ⟨(w, it), ?_, h.sound, h.view, [], hahead, ?_⟩
    · simp only [Iter.valid, hnone, Reference.perform, hrest']
      rfl
    · simp only [Reference.perform, hrest']
      rfl
  | cons row l =>
    obtain ⟨hres, hs, hs', hrows⟩ := hahead
    obtain ⟨it', rangeCache, hrun, hc, hahead'⟩ := Iter.next_ok hsplit hts h.sound it hs hs'
    rw [show rowsFrom w.store.eng txn it.scanKey = l from hrows] at hahead'
    have hrest' : σ.rest.tail = l.map KeyValue.pair := by rw [← hrest]; rfl
    refine ⟨({ w with rangeCache }, it'), ?_, h.sound.withCache hc, h.view, l, hahead', ?_⟩
    · have hvalid : it.valid = true := by rw [Iter.valid, hres]; rfl
      simp only [hvalid, if_true]
      rw [run_bind_ok (beside_ok hrun)]
      show EStateM.Result.ok _ _ = _
      rw [hahead'.row, ← hrest']
      rfl
    · exact hrest'.symm

include hsplit hts hid hpending

lemma seek_follows [Backend] (h : Follows env txn (w, it) σ) {k : Key} (hk : k ≠ [])
    (choice : Choice) :
    ∃ p, perform env (.seek k choice) (w, it) = .ok (σ.perform (.seek k choice)).1 p ∧
      Follows env txn p (σ.perform (.seek k choice)).2 := by
  have hw : Sound env txn w := h.sound
  obtain ⟨w₁, hflush, hsound, hshown, hleft⟩ := doPutData_ok hsplit hts hid hpending hw choice
  -- the engine shows the whole map now
  have hmap : ∀ k, σ.map.get k = shownAt w₁.store.eng (userKey k) := fun k => by
    rw [hshown _ (isUserKey_userKey k)]
    exact h.view k
  have hview : ∀ k, σ.map.get k = viewed w₁ k := fun k => by
    rw [viewed]
    cases hb : w₁.dbTxn.kvCache.get (userKey k) with
    | none => exact hmap k
    | some b =>
      rw [show σ.map.get k = viewed w k from h.view k, viewed, hleft _ b hb]
      rfl
  obtain ⟨hs, hs'⟩ := between_of_isUserKey (isUserKey_userKey k)
  obtain ⟨it', rangeCache, hrun, hc, hahead⟩ := Iter.next_ok hsplit hts hsound (newIter k) hs hs'.le
  have hrows := rowsFrom_eq_seek hsound.held hts hmap k
  have hseek : Client.seek env k choice w = .ok it' { w₁ with rangeCache } := by
    rw [Client.seek, if_neg (by simpa using hk), run_bind_ok (traced_ok hflush)]
    exact hrun
  refine ⟨({ w₁ with rangeCache }, it'), ?_, hsound.withCache hc, hview, _, hahead, hrows⟩
  rw [perform, run_bind_ok (beside_ok hseek)]
  show EStateM.Result.ok _ _ = _
  rw [hahead.row]
  exact congrArg (fun l => EStateM.Result.ok (Answer.row (List.head? l)) _) hrows

/-- **One call.** -/
theorem perform_follows [Backend] (h : Follows env txn (w, it) σ) {call : TxnCall}
    (hcall : call.Valid) :
    ∃ p, perform env call (w, it) = .ok (σ.perform call).1 p ∧
      Follows env txn p (σ.perform call).2 := by
  cases call with
  | set k v =>
    have hset : Client.set k v w = .ok () { w with dbTxn :=
        { w.dbTxn with dirty := true, kvCache := w.dbTxn.kvCache.put (userKey k) (some v) } } := by
      rw [Client.set, if_neg (by simpa using hcall.2)]
      rfl
    refine ⟨_, ?_, h.buffer k (some v) (by simpa using hcall.2) fun k' => by simp⟩
    rw [perform, run_bind_ok (beside_ok hset)]
    rfl
  | delete k =>
    have hdelete : Client.delete k w = .ok () { w with dbTxn :=
        { w.dbTxn with dirty := true, kvCache := w.dbTxn.kvCache.put (userKey k) none } } := rfl
    refine ⟨_, ?_, h.buffer k none (by simp) fun k' => by simp⟩
    rw [perform, run_bind_ok (beside_ok hdelete)]
    rfl
  | get k =>
    obtain ⟨rangeCache, hrun, hc⟩ := getAnswer_ok hsplit hts hcall h.sound
    refine ⟨_, ?_, h.withCache hc⟩
    rw [perform, run_bind_ok (beside_ok hrun), ← show σ.map.get k = viewed w k from h.view k]
    rfl
  | seek k choice => exact seek_follows hsplit hts hid hpending h hcall choice
  | next => exact next_follows hsplit hts h

/-- **A run of calls answers as the reference does.** The induction is on the calls. -/
theorem performAll_follows [Backend] {p : Session × Iter} (h : Follows env txn p σ)
    {calls : List TxnCall}
    (hcalls : ∀ call ∈ calls, call.Valid) :
    ∃ p', performAll env calls p = .ok (σ.answers calls) p' := by
  induction calls generalizing p σ with
  | nil => exact ⟨p, rfl⟩
  | cons call calls ih =>
    obtain ⟨w, it⟩ := p
    obtain ⟨p₁, hone, hfollows⟩ :=
      perform_follows hsplit hts hid hpending h (hcalls call List.mem_cons_self)
    obtain ⟨p', hrun⟩ := ih hfollows fun call' hcall' => hcalls call' (.tail _ hcall')
    refine ⟨p', ?_⟩
    rw [performAll, run_bind_ok hone, run_bind_ok hrun]
    rfl

end Simulation

/-! ### The initial map -/

/-- Adds what is shown under a user key. -/
def addShown (eng : Engine) (m : OrdMap Key Bytes) (key : Key) : OrdMap Key Bytes :=
  if isUserKey key then
    match shownAt eng key with
    | some v => m.put (key.drop userPrefix.length) v
    | none => m
  else m

/-- The user keys of an engine with the newest of their values. -/
def initialMap (eng : Engine) : OrdMap Key Bytes := (keysOf eng).foldl (addShown eng) .empty

section Initial

variable {eng : Engine}

lemma addShown_userKey (m : OrdMap Key Bytes) (k k' : Key) :
    (addShown eng m (userKey k)).get k' =
      if k' = k then (shownAt eng (userKey k)).or (m.get k') else m.get k' := by
  have hdrop : (userKey k).drop userPrefix.length = k := by rw [userKey_eq]; rfl
  rw [addShown, if_pos (isUserKey_userKey k), hdrop]
  cases shownAt eng (userKey k) with
  | none => simp
  | some v => by_cases hk : k' = k <;> simp [hk]

lemma foldl_addShown (ks : List Key) (m : OrdMap Key Bytes) (k : Key) :
    (ks.foldl (addShown eng) m).get k =
      if userKey k ∈ ks then (shownAt eng (userKey k)).or (m.get k) else m.get k := by
  induction ks generalizing m with
  | nil => simp
  | cons key ks ih =>
    rw [List.foldl_cons, ih]
    by_cases hkey : isUserKey key
    · obtain ⟨u, rfl⟩ := exists_userKey hkey
      rw [addShown_userKey]
      by_cases hu : k = u
      · subst hu
        by_cases hin : userKey k ∈ ks <;> cases shownAt eng (userKey k) <;> simp [hin]
      · have hne : userKey k ≠ userKey u := mt userKey_inj.mp hu
        simp [hu, hne]
    · have hne : userKey k ≠ key := fun h => hkey (h ▸ isUserKey_userKey k)
      rw [addShown, if_neg hkey]
      simp [hne]

lemma get_initialMap (hok : EngineOk eng) (k : Key) :
    (initialMap eng).get k = shownAt eng (userKey k) := by
  rw [initialMap, foldl_addShown]
  by_cases hin : userKey k ∈ keysOf eng
  · rw [if_pos hin]
    simp
  · rw [if_neg hin]
    cases hv : shownAt eng (userKey k) with
    | none => rfl
    | some v => exact absurd (mem_keysOf_of_shown hok hv) hin

/-- Every version is committed, and none is above `ts`. -/
structure CommittedBy (ts : Timestamp) (eng : Engine) : Prop extends Protocol.Laid eng where
  committed : ∀ k, isUserKey k → (metaAt eng k = none ∧ ∀ t, verAt eng k t = none) ∨
    ∃ m v, metaAt eng k = some m ∧ m.transactionID = [] ∧ m.timestamp ≤ ts ∧
      verAt eng k m.timestamp = some v ∧ (m.deleted = true → v.bytes = []) ∧
      ∀ t, verAt eng k t ≠ none → t ≤ m.timestamp

lemma CommittedBy.held {txn : Transaction} (h : CommittedBy txn.timestamp eng) : Held txn eng where
  toLaid := h.toLaid
  alone := fun k hk => by
    rcases h.committed k hk with ⟨hm, hv⟩ | ⟨m, v, hm, hid, hle, hv, hdel, hlast⟩
    · exact .absent hm hv
    · exact .newest m v hm (.inl ⟨hid, hle⟩) hv hdel hlast

end Initial

/-! ### The result -/

/-- **A transaction reads its own writes.** A transaction that runs alone, on an engine whose
versions are all committed at or below its timestamp and over any split of the keys into ranges,
gets the answers of the map of those versions with its own writes made to it. It does not matter
when the buffer is flushed, in which order its batches go out and what is left in it. -/
theorem reads_own_writes [Backend] {env : Env} {w : Session} {name : String} {id : Bytes}
    {now : Timestamp}
    {ver : Option Timestamp} {priority : Int32} (hsplit : SplitsKeys env.pd)
    (hnew : w.dbTxn = newTransaction name id now ver priority)
    (hts : w.dbTxn.txn.timestamp.Nonneg)
    (hcommitted : CommittedBy w.dbTxn.txn.timestamp w.store.eng)
    (hcached : Cached env.pd w.rangeCache)
    (hserved : ∀ s rd, env.pd.cache.get s = some rd → txnPrefix ≤ s →
      w.store.replicas rd.rangeID = some ⟨rd.rangeID, rd⟩)
    {it : Iter} (hit : it.result = none) {calls : List TxnCall}
    (hcalls : ∀ call ∈ calls, call.Valid) :
    ∃ p, performAll env calls (w, it) =
      .ok (Reference.answers ⟨initialMap w.store.eng, []⟩ calls) p := by
  have hbuffer : w.dbTxn.kvCache = .empty := by rw [hnew]; rfl
  have hid : isTxnID w.dbTxn.txn.id := by rw [hnew]; rfl
  have hpending : w.dbTxn.txn.status = .pending := by rw [hnew]; rfl
  have hfollows : Follows env w.dbTxn.txn (w, it) ⟨initialMap w.store.eng, []⟩ := by
    refine ⟨⟨rfl, hcached, hserved, hcommitted.held, fun k b hb => ?_⟩, fun k => ?_, [], hit, rfl⟩
    · rw [hbuffer] at hb
      simp at hb
    · rw [viewed, hbuffer, get_initialMap hcommitted.ok]
      rfl
  exact performAll_follows hsplit hts hid hpending hfollows hcalls

namespace OwnWrites

/-- Two ranges of user keys beside the one of the records. -/
def ranges : List RangeDescriptor :=
  [⟨1, txnPrefix, userPrefix, [⟨1, 1⟩]⟩, ⟨2, userPrefix, [0x02, 0x62], [⟨1, 1⟩]⟩,
    ⟨3, [0x02, 0x62], endPrefix, [⟨1, 1⟩]⟩]

def env : Env := { pd := RangeDescriptorCache.add { minReplica := 1 } ranges }

lemma mem_ranges {s : Key} {rd : RangeDescriptor} (h : env.pd.cache.get s = some rd) :
    rd ∈ ranges ∧ rd.startKey = s := by
  have hentries : env.pd.cache.entries = ranges.map fun rd => (rd.startKey, rd) := by decide
  have hmem := env.pd.cache.mem_entries_iff.mpr h
  rw [hentries, List.mem_map] at hmem
  obtain ⟨rd', hmem, heq⟩ := hmem
  rw [Prod.mk.injEq] at heq
  exact heq.2 ▸ ⟨hmem, heq.2 ▸ heq.1⟩

lemma splitsKeys : SplitsKeys env.pd where
  keyed := fun s rd h => (mem_ranges h).2
  system := fun s rd h hlt => by
    obtain ⟨hmem, rfl⟩ := mem_ranges h
    have hall : ∀ rd ∈ ranges, ¬ rd.startKey < txnPrefix := by decide
    exact absurd hlt (hall rd hmem)
  span := fun s rd h _ => by
    obtain ⟨hmem, rfl⟩ := mem_ranges h
    have hall : ∀ rd ∈ ranges, rd.startKey < rd.endKey ∧ rd.endKey ≤ endPrefix ∧
        rd.replicas ≠ [] := by decide
    exact hall rd hmem
  apart := fun s rd s' rd' h h' _ hlt => by
    obtain ⟨hmem, rfl⟩ := mem_ranges h
    obtain ⟨hmem', rfl⟩ := mem_ranges h'
    have hall : ∀ rd ∈ ranges, ∀ rd' ∈ ranges, rd.startKey < rd'.startKey →
        rd.endKey ≤ rd'.startKey := by decide
    exact hall rd hmem rd' hmem' hlt
  covers := fun k hlow hhigh => by
    by_cases h2 : k < userPrefix
    · exact ⟨txnPrefix, _, rfl, le_rfl, hlow, h2⟩
    · by_cases h3 : k < [0x02, 0x62]
      · exact ⟨userPrefix, _, rfl, by decide, not_lt.mp h2, h3⟩
      · exact ⟨[0x02, 0x62], _, rfl, by decide, not_lt.mp h3, hhigh⟩

/-- The key `a` has a committed value. -/
def eng : Engine :=
  (OrdMap.empty.put (newMVCCKey (userKey [0x61])) (.metaData ⟨[], ⟨5, 0⟩, false⟩)).put
    (newMVCCTimeKey (userKey [0x61]) ⟨5, 0⟩) (.value { value := some { bytes := [0x31] } })

lemma committedBy : CommittedBy ⟨7, 0⟩ eng where
  ok := (EngineOk.put_meta (fun x e h => by simp at h) _ (by decide)).put_ver _ (by decide) _
  dataKey := fun k _ e he => by
    simp only [eng, OrdMap.get_put, newMVCCKey_ne_timeKey, if_false, newMVCCKey_inj] at he
    split_ifs at he
    · cases he
      exact ⟨_, rfl⟩
    · simp at he
  committed := fun k _ => by
    have hmeta : ∀ k, metaAt (OrdMap.empty : Engine) k = none := fun k => by simp [metaAt]
    have hver : ∀ k t, verAt (OrdMap.empty : Engine) k t = none := fun k t => by simp [verAt]
    by_cases hk : k = userKey [0x61]
    · subst hk
      refine .inr ⟨⟨[], ⟨5, 0⟩, false⟩, { bytes := [0x31] }, by simp [eng], rfl, by decide,
        by simp [eng], by simp, fun t ht => ?_⟩
      by_cases h5 : t = ⟨5, 0⟩
      · exact h5.le
      · simp [eng, h5, hver] at ht
    · exact .inl ⟨by simp [eng, hk, hmeta], fun t => by simp [eng, hk, hver]⟩

def session : Session where
  dbTxn := newTransaction "t" [0x74] ⟨7, 0⟩ none 0
  store :=
    { (ranges.foldl (fun s rd => s.add ⟨rd.rangeID, rd⟩) Store.empty) with eng }

/-- Buffered and flushed writes, and a deletion of each kind. -/
def calls : List TxnCall :=
  let choice : Choice := ⟨List.reverse, List.reverse_perm, fun k => decide (k = userKey [0x63])⟩
  [.set [0x63] [0x32], .get [0x63], .get [0x61], .seek [0x61] choice, .next, .delete [0x61],
    .get [0x61], .delete [0x62], .seek [0x61] choice, .next, .get [0x61]]

end OwnWrites

section Shipped

attribute [local instance] Slices.twoItems Backend.badger

open OwnWrites in
theorem reads_own_writes_three_ranges :
    ∃ p, performAll env calls (session, newIter []) =
      .ok [.done, .value (some [0x32]), .value (some [0x31]), .row (some ([0x61], [0x31])),
        .row (some ([0x63], [0x32])), .done, .value none, .done,
        .row (some ([0x63], [0x32])), .row none, .value none] p := by
  have hserved : ∀ s rd, env.pd.cache.get s = some rd → txnPrefix ≤ s →
      session.store.replicas rd.rangeID = some ⟨rd.rangeID, rd⟩ := by
    intro s rd h _
    obtain ⟨hmem, -⟩ := mem_ranges h
    have hall : ∀ rd ∈ ranges, session.store.replicas rd.rangeID = some ⟨rd.rangeID, rd⟩ := by
      decide
    exact hall rd hmem
  have hcalls : ∀ call ∈ calls, call.Valid := by
    simp [calls, TxnCall.Valid]
  have hcached : Cached env.pd session.rangeCache := fun _ h => by cases h
  have hit : (newIter []).result = none := rfl
  have hnew : session.dbTxn = newTransaction "t" [0x74] ⟨7, 0⟩ none 0 := rfl
  obtain ⟨p, hp⟩ :=
    reads_own_writes splitsKeys hnew (by decide) committedBy hcached hserved hit hcalls
  exact ⟨p, hp.trans (congrArg (EStateM.Result.ok · p) (by decide +kernel))⟩

end Shipped

end Ancestor
