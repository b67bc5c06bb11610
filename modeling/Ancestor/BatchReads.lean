import Ancestor.BatchGet

/-!
`BatchGet` against any assignment of the keys to ranges and any ranges that are not found.

The values of the keys are those of one snapshot. Where a key is can change with every lookup, and
which batches are not answered is any finite pattern. The map at the start of a round is determined
by the batches that were answered before: it has the keys without an answer, with an empty value,
and the keys that have been answered with a value.
-/

namespace Ancestor.Client.BatchReads

open Hoare
open LeaderIndex (Cached)
open UnorderedCache (Walk)

/-! ### The surroundings -/

/-- A batch as it was sent. -/
structure Sent where
  keys : List Key
  answered : Bool
  deriving DecidableEq, Repr

/-- `time` counts the lookups; `notFound` says which of the next batches have no range, and all
after them are answered. -/
structure World where
  time : ℕ := 0
  notFound : List Bool := []
  log : List Sent := []

def World.sent (w : World) (keys : List Key) : World where
  time := w.time
  notFound := w.notFound.tail
  log := w.log ++ [⟨keys, !w.notFound.headD false⟩]

def World.located (w : World) : World := { w with time := w.time + 1 }

section Surroundings

variable (snap : Key → Bytes) (located : ℕ → Key → Cached)

/-- An empty value is that of a key that does not exist. -/
def valueOf (key : Key) : Value := { bytes := snap (stripped key) }

def reads : Reads World where
  base :=
    { getRangeDescFromCache := fun key w => .ok (located w.time key).rd w.located
      clearRangeCache := return
      getNodeConn := fun _ => return
      isStop := return false }
  gets rangeID keys w :=
    if w.notFound.headD false then .error ⟨.node (.rangeNotFound rangeID), true⟩ (w.sent keys)
    else .ok (keys.map fun key => some ⟨key, valueOf snap key⟩) (w.sent keys)
  raise := id

/-- What `BatchGet` gets from a batch. -/
def answers (s : Sent) : List KeyValue :=
  if s.answered then s.keys.map fun key => ⟨stripped key, valueOf snap key⟩ else []

end Surroundings

/-- The batches as they are sent, by the pattern. -/
def sends : List Bool → List GetBatch → List Sent
  | _, [] => []
  | p, breq :: l => ⟨breq.keys, !p.headD false⟩ :: sends p.tail l

lemma sends_keys (p : List Bool) (l : List GetBatch) :
    (sends p l).map Sent.keys = l.map GetBatch.keys := by
  induction l generalizing p with
  | nil => rfl
  | cons breq l ih => rw [sends, List.map_cons, List.map_cons, ih]

lemma sends_answered (l : List GetBatch) : ∀ s ∈ sends [] l, s.answered = true := by
  induction l with
  | nil => simp [sends]
  | cons breq l ih =>
    intro s hs
    rcases List.mem_cons.mp hs with rfl | hs
    · rfl
    · exact ih s hs

section Requests

variable (snap : Key → Bytes) (located : ℕ → Key → Cached)

lemma parse_values (keys : List Key) (w : World) :
    Reads.parseBatchGetResponse (keys.map fun key => some ⟨key, valueOf snap key⟩) w =
      .ok (keys.map fun key => ⟨stripped key, valueOf snap key⟩) w := by
  induction keys with
  | nil => rfl
  | cons key keys ih =>
    rw [List.map_cons, Reads.parseBatchGetResponse, run_bind_ok ih]
    rfl

lemma requestNode_located {α : Type} (key : Key) {m : CM World α} {a : α} {w w' : World}
    (h : m w.located = .ok a w') :
    requestNode (reads snap located).base key (fun _ _ => m) w = .ok (some a) w' :=
  requestNode_ok (b := (reads snap located).base) rfl
    (List.getElem?_eq_getElem (located w.time key).lead) rfl h

lemma readBatch_spec (breq : GetBatch) (w : World) :
    (reads snap located).readBatch breq w =
      .ok (answers snap ⟨breq.keys, !w.notFound.headD false⟩) (w.sent breq.keys) := by
  unfold Reads.readBatch
  cases hnf : w.notFound.headD false with
  | true =>
    simp only [reads, hnf, if_true, answers]
    rfl
  | false =>
    simp only [reads, hnf, answers]
    exact traced_ok (parse_values snap breq.keys _)

lemma sendBatches_spec (l : List GetBatch) (kvs : List KeyValue) (w : World) :
    ∃ w', (reads snap located).sendBatches l kvs w =
        .ok (kvs ++ (sends w.notFound l).flatMap (answers snap)) w' ∧
      w'.log = w.log ++ sends w.notFound l ∧ w'.notFound = w.notFound.drop l.length := by
  induction l generalizing kvs w with
  | nil => exact ⟨w, by simp [Reads.sendBatches, sends]; rfl, by simp [sends], rfl⟩
  | cons breq l ih =>
    have hreq := requestNode_located snap located breq.key
      (readBatch_spec snap located breq w.located)
    obtain ⟨w', hrun, hlog, hnf⟩ :=
      ih (kvs ++ answers snap ⟨breq.keys, !w.notFound.headD false⟩) (w.located.sent breq.keys)
    refine ⟨w', ?_, ?_, ?_⟩
    · rw [Reads.sendBatches, run_bind_ok (traced_ok hreq)]
      refine hrun.trans ?_
      rw [sends, List.flatMap_cons, List.append_assoc]
      rfl
    · rw [hlog, sends]
      simp only [World.sent, World.located, List.append_assoc, List.singleton_append]
    · rw [hnf]
      simp [World.sent, World.located]

end Requests

/-! ### The batches of a round -/

/-- The keys that go to the nodes: those with an empty value. -/
def unanswered (vals : Vals) (l : List Key) : List Key :=
  l.filter fun k => ((vals.lookup k).getD []).length = 0

lemma unanswered_cons (vals : Vals) (k : Key) (l : List Key) :
    unanswered vals (k :: l) =
      if ((vals.lookup k).getD []).length = 0 then k :: unanswered vals l
      else unanswered vals l := by
  unfold unanswered
  rw [List.filter_cons]
  simp only [decide_eq_true_eq]

lemma addGet_keys (rangeID : RangeID) (key : Key) (m : List GetBatch) :
    ((addGet rangeID key m).flatMap GetBatch.keys).Perm (key :: m.flatMap GetBatch.keys) := by
  induction m with
  | nil => exact .refl _
  | cons breq m ih =>
    rw [addGet]
    split_ifs
    · rw [List.flatMap_cons, List.flatMap_cons]
      simp only [List.append_assoc, List.singleton_append]
      exact List.perm_middle
    · rw [List.flatMap_cons, List.flatMap_cons]
      exact (ih.append_left _).trans List.perm_middle

lemma addGet_ne_nil {rangeID : RangeID} {key : Key} {m : List GetBatch}
    (h : ∀ breq ∈ m, breq.keys ≠ []) : ∀ breq ∈ addGet rangeID key m, breq.keys ≠ [] := by
  induction m with
  | nil => simp [addGet]
  | cons x m ih =>
    intro breq hb
    rw [addGet] at hb
    split_ifs at hb
    · rcases List.mem_cons.mp hb with rfl | hb
      · simp
      · exact h breq (List.mem_cons_of_mem _ hb)
    · rcases List.mem_cons.mp hb with rfl | hb
      · exact h _ List.mem_cons_self
      · exact ih (fun y hy => h y (List.mem_cons_of_mem _ hy)) breq hb

section Round

variable (snap : Key → Bytes) (located : ℕ → Key → Cached)

lemma addReads_spec (vals : Vals) (l : List Key) {m : List GetBatch}
    (hm : ∀ breq ∈ m, breq.keys ≠ []) (w : World) :
    ∃ breqs t, l.foldlM ((reads snap located).addRead vals) m w = .ok breqs { w with time := t } ∧
      (breqs.flatMap GetBatch.keys).Perm
        (m.flatMap GetBatch.keys ++ (unanswered vals l).map userKey) ∧
      ∀ breq ∈ breqs, breq.keys ≠ [] := by
  induction l generalizing m w with
  | nil => exact ⟨m, w.time, rfl, by simp [unanswered], hm⟩
  | cons k l ih =>
    by_cases hk : ((vals.lookup k).getD []).length = 0
    · -- the key goes to the batch of its range
      have hadd : (reads snap located).addRead vals m k w =
          .ok (addGet (located w.time (userKey k)).rd.desc.rangeID (userKey k) m) w.located := by
        rw [Reads.addRead, if_neg (not_not.mpr hk)]
        rfl
      obtain ⟨breqs, t, hrun, hperm, hne⟩ := ih (addGet_ne_nil hm) w.located
      refine ⟨breqs, t, ?_, ?_, hne⟩
      · rw [List.foldlM_cons, run_bind_ok hadd]
        exact hrun
      · rw [unanswered_cons, if_pos hk, List.map_cons]
        exact (hperm.trans ((addGet_keys _ _ m).append_right _)).trans List.perm_middle.symm
    · have hskip : (reads snap located).addRead vals m k w = .ok m w := by
        rw [Reads.addRead, if_pos hk]
        rfl
      obtain ⟨breqs, t, hrun, hperm, hne⟩ := ih hm w
      refine ⟨breqs, t, ?_, ?_, hne⟩
      · rw [List.foldlM_cons, run_bind_ok hskip]
        exact hrun
      · rwa [unanswered_cons, if_neg hk]

end Round

/-! ### The map -/

/-- A key has been answered. -/
def answeredIn (log : List Sent) (k : Key) : Bool :=
  log.any fun s => s.answered && decide (userKey k ∈ s.keys)

/-- The value of a key that has been answered. -/
def settled (snap : Key → Bytes) (k : Key) : Option Bytes :=
  if snap k = [] then none else some (snap k)

lemma foldl_insert (keys : List Key) (vals : Vals) (k : Key) :
    (keys.foldl (fun vals k => vals.insert k []) vals).lookup k =
      if k ∈ keys then some [] else vals.lookup k := by
  induction keys generalizing vals with
  | nil => simp
  | cons k' keys ih =>
    rw [List.foldl_cons, ih]
    by_cases hk : k = k'
    · subst hk
      simp
    · simp [hk, AList.lookup_insert_ne hk]

lemma foldl_store {snap : Key → Bytes} {kvs : List KeyValue}
    (h : ∀ kv ∈ kvs, kv.value.bytes = snap kv.key) (vals : Vals) (k : Key) :
    (kvs.foldl Reads.store vals).lookup k =
      if k ∈ kvs.map KeyValue.key then settled snap k else vals.lookup k := by
  induction kvs generalizing vals with
  | nil => simp
  | cons kv kvs ih =>
    rw [List.foldl_cons, ih fun x hx => h x (List.mem_cons_of_mem _ hx)]
    have hkv := h kv List.mem_cons_self
    by_cases hmem : k ∈ kvs.map KeyValue.key
    · simp [hmem]
    · rw [if_neg hmem]
      by_cases hk : k = kv.key
      · subst hk
        rw [if_pos (by simp), Reads.store, settled, hkv]
        by_cases he : snap kv.key = []
        · simp [he]
        · simp [he]
      · rw [if_neg (by simp [hk, hmem]), Reads.store]
        split_ifs
        · exact AList.lookup_erase_ne hk
        · exact AList.lookup_insert_ne hk

/-- The map after the batches of the log. -/
def Tallied (snap : Key → Bytes) (keys : List Key) (log : List Sent) (vals : Vals) : Prop :=
  ∀ k, vals.lookup k =
    if k ∈ keys then if answeredIn log k then settled snap k else some [] else none

section Tally

variable {snap : Key → Bytes} {keys : List Key} {log sents : List Sent} {vals : Vals}

lemma tallied_start : Tallied snap keys [] (keys.foldl (fun vals k => vals.insert k []) ∅) := by
  intro k
  rw [foldl_insert]
  simp [answeredIn]

/-- A key without an answer is a requested one, and no batch with it was answered. -/
lemma Tallied.mem_unanswered (h : Tallied snap keys log vals) {k : Key} :
    k ∈ unanswered vals vals.keys ↔ k ∈ keys ∧ answeredIn log k = false := by
  rw [unanswered, List.mem_filter, ← AList.mem_keys, ← AList.lookup_isSome, h k]
  by_cases hk : k ∈ keys
  · by_cases ha : answeredIn log k = true
    · by_cases hs : snap k = []
      · simp [hk, ha, settled, hs]
      · simp [hk, ha, settled, hs]
    · simp [hk, Bool.not_eq_true _ ▸ ha]
  · simp [hk]

lemma answers_value : ∀ kv ∈ sents.flatMap (answers snap), kv.value.bytes = snap kv.key := by
  intro kv hkv
  obtain ⟨s, -, hs⟩ := List.mem_flatMap.mp hkv
  unfold answers at hs
  split_ifs at hs
  · obtain ⟨key, -, rfl⟩ := List.mem_map.mp hs
    rfl
  · cases hs

lemma mem_answers (hsents : ∀ s ∈ sents, ∀ key ∈ s.keys, ∃ k, key = userKey k) {k : Key} :
    k ∈ (sents.flatMap (answers snap)).map KeyValue.key ↔ answeredIn sents k = true := by
  simp only [answeredIn, List.any_eq_true, Bool.and_eq_true, decide_eq_true_iff, List.mem_map,
    List.mem_flatMap]
  constructor
  · rintro ⟨kv, ⟨s, hs, hkv⟩, rfl⟩
    unfold answers at hkv
    split_ifs at hkv with ha
    · obtain ⟨key, hkey, rfl⟩ := List.mem_map.mp hkv
      obtain ⟨k, rfl⟩ := hsents s hs key hkey
      refine ⟨s, hs, ha, ?_⟩
      simpa only [stripped_userKey] using hkey
    · cases hkv
  · rintro ⟨s, hs, ha, hkey⟩
    refine ⟨⟨k, valueOf snap (userKey k)⟩, ⟨s, hs, ?_⟩, rfl⟩
    rw [answers, if_pos ha]
    exact List.mem_map.mpr ⟨userKey k, hkey, by rw [stripped_userKey]⟩

lemma answeredIn_append (log sents : List Sent) (k : Key) :
    answeredIn (log ++ sents) k = (answeredIn log k || answeredIn sents k) := by
  simp [answeredIn]

lemma Tallied.round (h : Tallied snap keys log vals)
    (hsents : ∀ s ∈ sents, ∀ key ∈ s.keys, ∃ k ∈ keys, key = userKey k) :
    Tallied snap keys (log ++ sents)
      ((sents.flatMap (answers snap)).foldl Reads.store vals) := by
  intro k
  have huser : ∀ s ∈ sents, ∀ key ∈ s.keys, ∃ k, key = userKey k := fun s hs key hkey =>
    (hsents s hs key hkey).imp fun _ hk => hk.2
  rw [foldl_store answers_value, answeredIn_append, h k]
  simp only [mem_answers huser]
  by_cases ha : answeredIn sents k = true
  · have hk : k ∈ keys := by
      obtain ⟨s, hs, hkey⟩ := List.any_eq_true.mp ha
      rw [Bool.and_eq_true, decide_eq_true_iff] at hkey
      obtain ⟨k', hk', heq⟩ := hsents s hs _ hkey.2
      rwa [userKey_injective heq]
    simp [ha, hk]
  · simp [ha]

/-- With every batch answered there is nothing left. -/
lemma Tallied.unanswered_eq_nil (h : Tallied snap keys log vals)
    (hall : ∀ k ∈ keys, answeredIn log k = true) : unanswered vals vals.keys = [] := by
  rw [List.eq_nil_iff_forall_not_mem]
  intro k hk
  obtain ⟨hmem, hno⟩ := h.mem_unanswered.mp hk
  rw [hall k hmem] at hno
  cases hno

lemma Tallied.lookup_done (h : Tallied snap keys log vals)
    (hdone : unanswered vals vals.keys = []) (k : Key) :
    vals.lookup k = if k ∈ keys then settled snap k else none := by
  rw [h k]
  by_cases hk : k ∈ keys
  · have ha : answeredIn log k = true := by
      by_contra hno
      have hmem := h.mem_unanswered.mpr ⟨hk, by simpa using hno⟩
      rw [hdone] at hmem
      cases hmem
    simp [hk, ha]
  · simp [hk]

/-- Before every batch there was a key without an answer. -/
def InTime (keys : List Key) (log : List Sent) : Prop :=
  ∀ i < log.length, ∃ k ∈ keys, answeredIn (log.take i) k = false

/-- The batches of a round have each of the keys without an answer once. -/
structure Round (vals : Vals) (sents : List Sent) : Prop where
  keys : (sents.flatMap Sent.keys).Perm ((unanswered vals vals.keys).map userKey)
  ne_nil : ∀ s ∈ sents, s.keys ≠ []

lemma Round.nodup (h : Round vals sents) : (sents.flatMap Sent.keys).Nodup := by
  rw [h.keys.nodup_iff]
  exact (vals.keys_nodup.filter _).map userKey_injective

lemma Round.mem (h : Round vals sents) {s : Sent} (hs : s ∈ sents) {key : Key}
    (hkey : key ∈ s.keys) : ∃ k ∈ unanswered vals vals.keys, key = userKey k := by
  obtain ⟨k, hk, rfl⟩ := List.mem_map.mp
    (h.keys.mem_iff.mp (List.mem_flatMap.mpr ⟨s, hs, hkey⟩))
  exact ⟨k, hk, rfl⟩

lemma InTime.round (h : InTime keys log) (ht : Tallied snap keys log vals)
    (hr : Round vals sents) : InTime keys (log ++ sents) := by
  intro i hi
  rcases Nat.lt_or_ge i log.length with hlt | hge
  · rw [List.take_append_of_le_length hlt.le]
    exact h i hlt
  · obtain ⟨j, rfl⟩ := Nat.exists_eq_add_of_le hge
    rw [List.length_append, Nat.add_lt_add_iff_left] at hi
    -- a key of the batch, which is in no other batch of the round
    have hs : sents[j] ∈ sents.drop j := by
      rw [List.drop_eq_getElem_cons hi]
      exact List.mem_cons_self
    obtain ⟨key, hkey⟩ := List.exists_mem_of_ne_nil _ (hr.ne_nil _ (List.mem_of_mem_drop hs))
    obtain ⟨k, hk, rfl⟩ := hr.mem (List.mem_of_mem_drop hs) hkey
    obtain ⟨hmem, hno⟩ := ht.mem_unanswered.mp hk
    refine ⟨k, hmem, ?_⟩
    rw [List.take_length_add_append, answeredIn_append, hno, Bool.false_or, answeredIn,
      List.any_eq_false]
    intro s' hs' ha
    rw [Bool.and_eq_true, decide_eq_true_iff] at ha
    have hpair := (List.nodup_flatMap.mp hr.nodup).2
    rw [← List.take_append_drop j sents, List.pairwise_append] at hpair
    exact hpair.2.2 s' hs' _ hs ha.2 hkey

end Tally

/-! ### Rounds -/

section Rounds

variable (snap : Key → Bytes) (located : ℕ → Key → Cached) {keys : List Key} {vals : Vals}

lemma createBatchRequests_spec (order : Walk Key) (vals : Vals) (w : World) :
    ∃ breqs t, (reads snap located).createBatchRequests order vals w =
        .ok breqs { w with time := t } ∧
      (breqs.flatMap GetBatch.keys).Perm ((unanswered vals vals.keys).map userKey) ∧
      (∀ breq ∈ breqs, breq.keys ≠ []) ∧ (breqs = [] ↔ unanswered vals vals.keys = []) := by
  obtain ⟨breqs, t, hrun, hperm, hne⟩ :=
    addReads_spec snap located vals (order.order vals.keys) (m := []) (by simp) w
  have hwalk : (unanswered vals (order.order vals.keys)).Perm (unanswered vals vals.keys) :=
    (order.perm vals.keys).filter _
  replace hperm : (breqs.flatMap GetBatch.keys).Perm ((unanswered vals vals.keys).map userKey) :=
    hperm.trans (hwalk.map userKey)
  refine ⟨breqs, t, hrun, hperm, hne, fun h => ?_, fun h => ?_⟩
  · rw [h] at hperm
    exact List.map_eq_nil_iff.mp hperm.symm.eq_nil
  · rw [h] at hperm
    have hnil : ∀ breq ∈ breqs, breq.keys = [] := List.flatMap_eq_nil_iff.mp hperm.eq_nil
    exact List.eq_nil_iff_forall_not_mem.mpr fun breq hb => hne breq hb (hnil breq hb)

lemma doBatchGet_done (orders : Orders) (w : World) (hdone : unanswered vals vals.keys = []) :
    ∃ w', (reads snap located).doBatchGet orders vals w = .ok none w' ∧ w'.log = w.log := by
  obtain ⟨breqs, t, hrun, -, -, hnil⟩ := createBatchRequests_spec snap located orders.vals vals w
  refine ⟨{ w with time := t }, ?_, rfl⟩
  rw [Reads.doBatchGet, run_bind_ok (traced_ok hrun), hnil.mpr hdone]
  rfl

lemma doBatchGet_round (orders : Orders) (w : World) (hpend : unanswered vals vals.keys ≠ []) :
    ∃ sents w', (reads snap located).doBatchGet orders vals w =
        .ok (some (sents.flatMap (answers snap))) w' ∧
      w'.log = w.log ++ sents ∧ Round vals sents ∧
      w'.notFound.length ≤ w.notFound.length - 1 ∧
      (w.notFound = [] → ∀ s ∈ sents, s.answered = true) := by
  obtain ⟨breqs, t, hrun, hperm, hne, hnil⟩ :=
    createBatchRequests_spec snap located orders.vals vals w
  have hbreqs : breqs.length ≠ 0 := fun h =>
    hpend (hnil.mp (List.length_eq_zero_iff.mp h))
  have horder := orders.breqs.perm breqs
  obtain ⟨w', hsend, hlog, hnf⟩ := sendBatches_spec snap located (orders.breqs.order breqs) []
    { w with time := t }
  have hkeys : (sends w.notFound (orders.breqs.order breqs)).flatMap Sent.keys =
      (orders.breqs.order breqs).flatMap GetBatch.keys := by
    rw [List.flatMap_def, sends_keys, List.flatMap_def]
  refine ⟨sends w.notFound (orders.breqs.order breqs), w', ?_, hlog, ⟨?_, fun s hs => ?_⟩, ?_, ?_⟩
  · rw [Reads.doBatchGet, run_bind_ok (traced_ok hrun), if_neg hbreqs, run_bind_ok hsend]
    rfl
  · rw [hkeys]
    exact (horder.flatMap_right _).trans hperm
  · have hmem : s.keys ∈ (orders.breqs.order breqs).map GetBatch.keys := by
      rw [← sends_keys w.notFound]
      exact List.mem_map_of_mem hs
    obtain ⟨breq, hb, heq⟩ := List.mem_map.mp hmem
    rw [← heq]
    exact hne breq (horder.mem_iff.mp hb)
  · rw [hnf, List.length_drop, horder.length_eq]
    simp only
    omega
  · intro hnone
    rw [hnone]
    exact sends_answered _

/-- A round takes the map and the log to the next ones. -/
lemma round_spec {w : World} (orders : Orders) (ht : Tallied snap keys w.log vals)
    (hi : InTime keys w.log) (hpend : unanswered vals vals.keys ≠ []) :
    ∃ kvs w', (reads snap located).doBatchGet orders vals w = .ok (some kvs) w' ∧
      Tallied snap keys w'.log (kvs.foldl Reads.store vals) ∧ InTime keys w'.log ∧
      w'.notFound.length ≤ w.notFound.length - 1 ∧
      (w.notFound = [] → ∀ k ∈ keys, answeredIn w'.log k = true) := by
  obtain ⟨sents, w', hrun, hlog, hr, hnf, hall⟩ :=
    doBatchGet_round snap located orders w hpend
  have hsents : ∀ s ∈ sents, ∀ key ∈ s.keys, ∃ k ∈ keys, key = userKey k := by
    intro s hs key hkey
    obtain ⟨k, hk, rfl⟩ := hr.mem hs hkey
    exact ⟨k, (ht.mem_unanswered.mp hk).1, rfl⟩
  refine ⟨_, w', hrun, hlog ▸ ht.round hsents, hlog ▸ hi.round ht hr, hnf, fun hnone k hk => ?_⟩
  rw [hlog, answeredIn_append, Bool.or_eq_true]
  by_cases ha : answeredIn w.log k = true
  · exact .inl ha
  · -- the key is in a batch of the round, and all of them are answered
    have hmem : userKey k ∈ sents.flatMap Sent.keys := by
      rw [hr.keys.mem_iff]
      exact List.mem_map_of_mem (ht.mem_unanswered.mpr ⟨hk, by simpa using ha⟩)
    obtain ⟨s, hs, hkey⟩ := List.mem_flatMap.mp hmem
    refine .inr (List.any_eq_true.mpr ⟨s, hs, ?_⟩)
    rw [Bool.and_eq_true, decide_eq_true_iff]
    exact ⟨hall hnone s hs, hkey⟩

variable (orders : ℕ → Orders)

lemma loop_done {w : World} (fuel round : ℕ) (hdone : unanswered vals vals.keys = []) :
    ∃ w', (reads snap located).batchGetLoop orders (fuel + 1) round vals w = .ok vals w' ∧
      w'.log = w.log := by
  obtain ⟨w', hrun, hlog⟩ := doBatchGet_done snap located (orders round) w hdone
  refine ⟨w', ?_, hlog⟩
  rw [Reads.batchGetLoop, run_bind_ok (traced_ok hrun)]
  rfl

/-- The loop ends: a round without an answer is one of the pattern, and after the pattern one round
answers everything. -/
lemma loop_spec (n : ℕ) {fuel round : ℕ} {vals : Vals} {w : World} (hn : w.notFound.length ≤ n)
    (hfuel : n + 2 ≤ fuel) (ht : Tallied snap keys w.log vals) (hi : InTime keys w.log) :
    ∃ vals' w', (reads snap located).batchGetLoop orders fuel round vals w = .ok vals' w' ∧
      (∀ k, vals'.lookup k = if k ∈ keys then settled snap k else none) ∧
      InTime keys w'.log := by
  induction n generalizing fuel round vals w with
  | zero =>
    obtain ⟨fuel, rfl⟩ : ∃ f, fuel = f + 1 + 1 := ⟨fuel - 2, by omega⟩
    by_cases hpend : unanswered vals vals.keys = []
    · obtain ⟨w', hrun, hlog⟩ := loop_done snap located orders (fuel + 1) round hpend
      exact ⟨vals, w', hrun, ht.lookup_done hpend, hlog ▸ hi⟩
    · obtain ⟨kvs, w₁, hrun, ht₁, hi₁, -, hall⟩ :=
        round_spec snap located (orders round) ht hi hpend
      have hdone := ht₁.unanswered_eq_nil (hall (List.length_eq_zero_iff.mp (Nat.le_zero.mp hn)))
      obtain ⟨w', hrun', hlog⟩ := loop_done snap located orders fuel (round + 1) hdone
      refine ⟨_, w', ?_, ht₁.lookup_done hdone, hlog ▸ hi₁⟩
      rw [Reads.batchGetLoop, run_bind_ok (traced_ok hrun)]
      exact hrun'
  | succ n ih =>
    obtain ⟨fuel, rfl⟩ : ∃ f, fuel = f + 1 := ⟨fuel - 1, by omega⟩
    by_cases hpend : unanswered vals vals.keys = []
    · obtain ⟨w', hrun, hlog⟩ := loop_done snap located orders fuel round hpend
      exact ⟨vals, w', hrun, ht.lookup_done hpend, hlog ▸ hi⟩
    · obtain ⟨kvs, w₁, hrun, ht₁, hi₁, hnf, -⟩ :=
        round_spec snap located (orders round) ht hi hpend
      obtain ⟨vals', w', hrun', hl, hi'⟩ :=
        @ih fuel (round + 1) _ w₁ (by omega) (by omega) ht₁ hi₁
      refine ⟨vals', w', ?_, hl, hi'⟩
      rw [Reads.batchGetLoop, run_bind_ok (traced_ok hrun)]
      exact hrun'

end Rounds

/-! ### One key -/

section Get

variable (snap : Key → Bytes) (located : ℕ → Key → Cached) (k : Key)

lemma readRange_notFound (rd : RangeDescriptor) {w : World} (h : w.notFound.headD false = true) :
    (reads snap located).readRange k rd w =
      .error ⟨.node (.rangeNotFound rd.rangeID), true⟩ (w.sent [userKey k]) := by
  have hgets : (reads snap located).raised ((reads snap located).gets rd.rangeID [userKey k]) w =
      .error ⟨.node (.rangeNotFound rd.rangeID), true⟩ (w.sent [userKey k]) := by
    simp only [Reads.raised, reads, h, if_true]
  rw [Reads.readRange, run_bind_error (traced_error hgets)]
  rfl

/-- The value of the key, or that it does not exist. -/
lemma readRange_answered (rd : RangeDescriptor) {w : World} (h : w.notFound.headD false = false) :
    (reads snap located).readRange k rd w =
      if snap k = [] then .error ⟨.notExist k, true⟩ (w.sent [userKey k])
      else .ok (snap k) (w.sent [userKey k]) := by
  have hgets : (reads snap located).raised ((reads snap located).gets rd.rangeID [userKey k]) w =
      .ok ([userKey k].map fun key => some ⟨key, valueOf snap key⟩) (w.sent [userKey k]) := by
    simp only [Reads.raised, reads, h, Bool.false_eq_true, if_false]
  rw [Reads.readRange, run_bind_ok (traced_ok hgets),
    run_bind_ok (traced_ok (parse_values snap [userKey k] _))]
  simp only [List.map_cons, List.map_nil, valueOf, stripped_userKey, List.length_eq_zero_iff]
  split_ifs
  · rfl
  · rfl

lemma assign_error {m : CM World Bytes} {e : Error} {w w' : World} (v : Option Bytes)
    (h : m w = .error e w') : assign m (w, v) = .error e (w', v) := by
  rw [assign, h]

lemma assign_ok {m : CM World Bytes} {a : Bytes} {w w' : World} (v : Option Bytes)
    (h : m w = .ok a w') : assign m (w, v) = .ok () (w', some a) := by
  rw [assign, h]

/-- The loop of a read ends with the value, whatever is not found before. -/
lemma get_loop {n : ℕ} (rd : RangeDesc) (id : NodeID) (i : ℕ) {w : World} (v : Option Bytes)
    (h : w.notFound.length < n) :
    ∃ w' rd', nodeLoop (reads snap located).base.beside (userKey k)
        (fun _ rd => assign ((reads snap located).readRange k rd)) n rd id i (w, v) =
      if snap k = [] then .error ⟨.notExist k, true⟩ (w', v) else .ok rd' (w', some (snap k)) := by
  induction n generalizing rd id i w with
  | zero => exact absurd h (Nat.not_lt_zero _)
  | succ n ih =>
    have hconn : (reads snap located).base.beside.getNodeConn id (w, v) = .ok () (w, v) := rfl
    cases hnf : w.notFound.headD false with
    | true =>
      -- the range is looked up again
      have hcall := assign_error v (readRange_notFound snap located k rd.desc hnf)
      have hlen : (w.sent [userKey k]).located.notFound.length < n := by
        cases hw : w.notFound with
        | nil => simp [hw] at hnf
        | cons b l => simpa [World.located, World.sent, hw] using h
      have hcache : (reads snap located).base.beside.getRangeDescFromCache (userKey k)
          (w.sent [userKey k], v) =
          .ok (located w.time (userKey k)).rd ((w.sent [userKey k]).located, v) := rfl
      have hrep := List.getElem?_eq_getElem (located w.time (userKey k)).lead
      obtain ⟨w', rd', hrun⟩ := ih (located w.time (userKey k)).rd _ _ hlen
      exact ⟨w', rd', Eq.trans
        (nodeLoop_rangeNotFound hconn hcall rfl rfl rfl hcache hrep) hrun⟩
    | false =>
      have hread := readRange_answered snap located k rd.desc hnf
      refine ⟨w.sent [userKey k], rd.setLeaderNodeIdx i, ?_⟩
      by_cases hk : snap k = []
      · rw [if_pos hk] at hread ⊢
        exact Eq.trans (nodeLoop_notExist hconn (assign_error v hread) rfl rfl) rfl
      · rw [if_neg hk] at hread ⊢
        exact nodeLoop_ok hconn (assign_ok v hread)

/-- What a read comes to. -/
def valueGot : EStateM.Result Error World Bytes → Option Bytes
  | .ok v _ => some v
  | .error _ _ => none

lemma get_request {w : World} (h : w.notFound.length ≤ maxRetries) :
    ∃ w' rd', doNodeRequest (reads snap located).base.beside (userKey k)
        (fun _ rd => assign ((reads snap located).readRange k rd)) (w, none) =
      if snap k = [] then .error ⟨.notExist k, true⟩ (w', none)
      else .ok rd' (w', some (snap k)) := by
  have hcache : (reads snap located).base.beside.getRangeDescFromCache (userKey k)
      (w, (none : Option Bytes)) = .ok (located w.time (userKey k)).rd (w.located, none) := rfl
  have hrep := List.getElem?_eq_getElem (located w.time (userKey k)).lead
  obtain ⟨w', rd', hloop⟩ := get_loop snap located k (located w.time (userKey k)).rd _ _
    (w := w.located) none (Nat.lt_succ_of_le h)
  exact ⟨w', rd', Eq.trans (doNodeRequest_first hcache hrep) hloop⟩

/-- A read of a key gives its value, or that it does not exist. -/
lemma snapshotGet_value {k : Key} (hk : k ≠ []) {w : World} (h : w.notFound.length ≤ maxRetries) :
    valueGot ((reads snap located).snapshotGet k w) = settled snap k := by
  obtain ⟨w', rd', hrun⟩ := get_request snap located k h
  rw [Reads.snapshotGet, if_neg (by simpa using hk), settled]
  by_cases hs : snap k = []
  · rw [if_pos hs] at hrun ⊢
    have hreq : requestNode (reads snap located).base (userKey k)
        (fun _ rd => (reads snap located).readRange k rd) w = .error ⟨.notExist k, true⟩ w' := by
      rw [requestNode, hrun]
    rw [run_bind_error hreq]
    rfl
  · rw [if_neg hs] at hrun ⊢
    have hreq : requestNode (reads snap located).base (userKey k)
        (fun _ rd => (reads snap located).readRange k rd) w = .ok (some (snap k)) w' := by
      rw [requestNode, hrun]
    rw [run_bind_ok hreq]
    rfl

end Get

/-- **Many reads at once.** With enough turns `BatchGet` returns the map of the requested keys that
have a value. For a key that is not empty this is what a read of the key alone gives, and before
every batch that is sent there is a key without an answer. -/
theorem batchGet_reads (snap : Key → Bytes) (located : ℕ → Key → Cached) (orders : ℕ → Orders)
    (keys : List Key) (pattern : List Bool) (fuel : ℕ) (hfuel : pattern.length + 2 ≤ fuel) :
    ∃ vals w', (reads snap located).batchGet orders fuel keys { notFound := pattern } =
        .ok vals w' ∧
      (∀ k, vals.lookup k = if k ∈ keys ∧ snap k ≠ [] then some (snap k) else none) ∧
      (∀ k ∈ keys, k ≠ [] → ∀ w : World, w.notFound.length ≤ maxRetries →
        vals.lookup k = valueGot ((reads snap located).snapshotGet k w)) ∧
      InTime keys w'.log := by
  have hstart : InTime keys [] := fun i hi => absurd hi (Nat.not_lt_zero i)
  obtain ⟨vals, w', hrun, hl, hi⟩ := @loop_spec snap located keys orders pattern.length fuel 0 _
    { notFound := pattern } le_rfl hfuel tallied_start hstart
  refine ⟨vals, w', hrun, fun k => ?_, fun k hk hne w hw => ?_, hi⟩
  · rw [hl k, settled]
    by_cases hk : k ∈ keys
    · by_cases hs : snap k = []
      · simp [hs]
      · simp [hk, hs]
    · simp [hk]
  · rw [hl k, if_pos hk, snapshotGet_value snap located hne hw]

def inOrder : Orders := ⟨⟨id, fun _ => .refl _⟩, ⟨id, fun _ => .refl _⟩⟩

def otherRange : Cached where
  rd := { desc := { rangeID := 2, startKey := [2], endKey := [3], replicas := [{ nodeID := 3 }] } }
  lead := by decide

/-- The key `[1]` is in one range with the others until the second lookup, and then in another. -/
def moved (time : ℕ) (key : Key) : Cached :=
  if time < 2 ∨ key ≠ userKey [1] then LeaderIndex.twoReplicas else otherRange

/-- One of two keys has a value, the first batch has no range, and in the second round the keys are
in two ranges. -/
theorem batchGet_reads_two :
    ∃ vals w', (reads (fun k => if k = [1] then [7] else []) moved).batchGet
        (fun _ => inOrder) 3 [[1], [2], [1]] { notFound := [true] } = .ok vals w' ∧
      vals.lookup [1] = some [7] ∧ vals.lookup [2] = none := by
  obtain ⟨vals, w', hrun, hl, -⟩ := batchGet_reads (fun k => if k = [1] then [7] else []) moved
    (fun _ => inOrder) [[1], [2], [1]] [true] 3 (by decide)
  exact ⟨vals, w', hrun, (hl [1]).trans (by decide), (hl [2]).trans (by decide)⟩

/-- The empty key has a value: `BatchGet` returns it, and `Get` refuses the key. -/
theorem empty_key_refused :
    ∃ vals w', (reads (fun _ => [7]) fun _ _ => LeaderIndex.twoReplicas).batchGet
        (fun _ => inOrder) 2 [[]] {} = .ok vals w' ∧ vals.lookup [] = some [7] ∧
      (reads (fun _ => [7]) fun _ _ => LeaderIndex.twoReplicas).snapshotGet [] {} =
        .error ⟨.invalidKey, false⟩ {} :=
  ⟨_, _, rfl, rfl, rfl⟩

end Ancestor.Client.BatchReads
