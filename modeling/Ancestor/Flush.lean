import Ancestor.Alone
import Ancestor.Placement

/-!
The buffered writes of a transaction on their way to the ranges.

The writes are grouped by range and cut into batches, the batches go out in any order, and a part
of the buffer may be left behind. Afterwards the engine shows every write of the buffer, so that
what is left in it says the same as the engine.
-/

namespace Ancestor

open M Hoare Client
open Protocol (isUserKey isTxnID ne_nil_of_isTxnID)

/-- A session of the transaction `txn` that runs alone, between two calls. -/
structure Sound (env : Env) (txn : Transaction) (w : Session) : Prop where
  own : w.dbTxn.txn = txn
  cached : Cached env.pd w.rangeCache
  served : ∀ s rd, env.pd.cache.get s = some rd → txnPrefix ≤ s →
    w.store.replicas rd.rangeID = some ⟨rd.rangeID, rd⟩
  held : Held txn w.store.eng
  buffered : ∀ k b, w.dbTxn.kvCache.get k = some b → isUserKey k ∧ b ≠ some []

variable {env : Env} {txn : Transaction} {w : Session}

lemma ask_ok {α : Type} {m : StoreM α} {a : α} {store : Store} (h : m w.store = .ok a store) :
    ask m w = .ok a { w with store } := by
  rw [ask, h]

lemma raisePriority_ok {α : Type} {m : CM Session α} {a : α} {w' : Session} (h : m w = .ok a w') :
    raisePriority m w = .ok a w' := by
  rw [raisePriority, h]

lemma Locates.covers {pd : RangeDescriptorCache} {k : Key} {rd : RangeDescriptor}
    (hl : Locates pd k rd) : rd.Covers k := ⟨hl.start, .inr hl.stop⟩

/-- A user key is in one of the ranges. -/
lemma range_of_isUserKey {k : Key} (hk : isUserKey k) : txnPrefix ≤ k ∧ k < endPrefix := by
  obtain ⟨hle, hlt⟩ := between_of_isUserKey hk
  have hpre : txnPrefix ≤ userPrefix := by decide
  exact ⟨hpre.trans hle, hlt⟩

lemma range_of_isTxnID {id : Key} (hid : isTxnID id) : txnPrefix ≤ id ∧ id < endPrefix := by
  cases id with
  | nil => simp [isTxnID, txnPrefix] at hid
  | cons a l =>
    have ha : a = 0x01 := by simpa [isTxnID, txnPrefix] using hid
    subst ha
    exact ⟨Bytes.cons_le_cons (Bytes.nil_le l), List.cons_lt_cons_iff.mpr (.inl (by decide))⟩

/-! ### The record -/

section Begin

variable (hid : isTxnID txn.id) (hpending : txn.status = .pending)
include hpending

lemma mvccPutTxn_begin (st : St) : ∃ st' r, Ancestor.beginTransaction txn st = .ok () st' ∧
    st'.eng = st.eng.put (newMVCCKey txn.id) (.txn r) := by
  have hlook : Looked st txn.id .beginTxn none := by simp [Looked]
  have hrun := mvccPutTxn_run txn .beginTxn true hlook
  have hnext : ∃ r, nextTxn none txn .beginTxn = .ok (some r) := by
    simp [nextTxn, hpending]
  obtain ⟨r, hr⟩ := hnext
  rw [hr] at hrun
  obtain ⟨st', hst, heng⟩ := hrun
  exact ⟨st', r, hst, heng⟩

include hid

/-- The record of the transaction is written beside the cells. -/
lemma beginTransaction_ok [Backend] (hsplit : SplitsKeys env.pd) (h : Sound env txn w) :
    ∃ w', Client.beginTransaction env w = .ok () w' ∧ Sound env txn w' ∧ w'.dbTxn = w.dbTxn ∧
      ∀ k, isUserKey k → shownAt w'.store.eng k = shownAt w.store.eng k := by
  obtain ⟨hlow, hhigh⟩ := range_of_isTxnID hid
  have hcall : ∀ (_ : NodeID) rd rangeCache, Cached env.pd rangeCache → Locates env.pd txn.id rd →
      ∃ resp w', ask (send rd.rangeID (.beginTransaction
        { key := txn.id, timestamp := txn.timestamp, rangeID := rd.rangeID, txn }))
          { w with rangeCache } = .ok resp w' ∧ Sound env txn w' ∧ w'.dbTxn = w.dbTxn ∧
        ∀ k, isUserKey k → shownAt w'.store.eng k = shownAt w.store.eng k := by
    intro _ rd rangeCache hc hl
    have hr := h.served _ _ hl.entry hl.above
    obtain ⟨st, r, hst, heng⟩ := mvccPutTxn_begin hpending
      ⟨w.store.eng, w.store.rangeStats rd.rangeID⟩
    have hcmd : send rd.rangeID (.beginTransaction
        { key := txn.id, timestamp := txn.timestamp, rangeID := rd.rangeID, txn }) w.store =
          .ok (.beginTransaction txn) (Replica.keep ⟨rd.rangeID, rd⟩ w.store st) := by
      rw [send, run_bind_ok (getReplica_ok hr)]
      exact executeCmd_ok (f := fun _ => .beginTransaction txn)
        ((validateKeyRange_iff ⟨rd.rangeID, rd⟩ txn.id).mpr hl.covers) rfl hst
    have hcells : ∀ k, isUserKey k → cell st.eng k = cell w.store.eng k := fun k hk => by
      rw [heng, Protocol.cell_put_txn hk hid]
    refine ⟨_, _, ask_ok hcmd, ⟨h.own, hc, h.served, ?_, h.buffered⟩, rfl, fun k hk => ?_⟩
    · show Held txn st.eng
      rw [heng]
      exact h.held.put_txn hid r
    · show (cell st.eng k).shown = _
      rw [hcells k hk]
      rfl
  obtain ⟨a, w', hrun, hQ⟩ := requestNode_located hsplit h.cached hlow hhigh hcall
  refine ⟨w', ?_, hQ⟩
  rw [Client.beginTransaction, run_bind_get, h.own, run_bind_ok hrun]
  rfl

end Begin

/-! ### Batches -/

/-- The keys of the puts. -/
def batchKeys (breqs : List PutBatch) : List Key := breqs.flatMap fun breq => breq.req.map (·.key)

/-- A batch of writes of the buffer `c` to one of the replicas. -/
def BatchOf (txn : Transaction) (c : OrdMap Key (Option Bytes))
    (replicas : RangeID → Option Replica) (breq : PutBatch) : Prop :=
  isUserKey breq.key ∧ ∃ r, replicas breq.rangeID = some r ∧ ∀ req ∈ breq.req, PutOf txn c r req

section Batches

variable {c : OrdMap Key (Option Bytes)} {replicas : RangeID → Option Replica} {r : Replica}
  {req : PutRequest} {breqs : List PutBatch}

lemma mem_batchKeys_addPut {k : Key} :
    k ∈ batchKeys (addPut req breqs) ↔ k = req.key ∨ k ∈ batchKeys breqs := by
  induction breqs with
  | nil => simp [addPut, batchKeys]
  | cons breq breqs ih =>
    simp only [batchKeys, List.flatMap_cons, List.mem_append] at ih ⊢
    unfold addPut
    split_ifs
    · simp only [List.flatMap_cons, List.map_append, List.map_cons, List.map_nil, List.mem_append,
        List.mem_singleton]
      tauto
    · simp only [List.flatMap_cons, List.mem_append, ih]
      tauto

/-- The batch of a range takes the puts of that range only. -/
lemma batchOf_addPut (h : ∀ breq ∈ breqs, BatchOf txn c replicas breq) (hreq : PutOf txn c r req)
    (hr : replicas r.rangeID = some r) :
    ∀ breq ∈ addPut req breqs, BatchOf txn c replicas breq := by
  obtain ⟨k, b, hk, -, -, -, rfl⟩ := id hreq
  induction breqs with
  | nil =>
    intro breq hbreq
    obtain rfl := List.mem_singleton.mp hbreq
    refine ⟨hk, r, hr, fun req hmem => ?_⟩
    obtain rfl := List.mem_singleton.mp hmem
    exact hreq
  | cons breq₀ breqs ih =>
    have hmore := ih fun breq hbreq => h breq (.tail _ hbreq)
    obtain ⟨hkey, r₀, hr₀, hall⟩ := h breq₀ List.mem_cons_self
    unfold addPut
    split_ifs with hid
    · intro breq hbreq
      rcases List.mem_cons.mp hbreq with rfl | hbreq
      · refine ⟨hkey, r₀, hr₀, fun req hmem => ?_⟩
        have heq : r₀ = r := by
          have hr' : replicas breq₀.rangeID = some r := hid ▸ hr
          rw [hr₀, Option.some.injEq] at hr'
          exact hr'
        rcases List.mem_append.mp hmem with hmem | hmem
        · exact hall req hmem
        · obtain rfl := List.mem_singleton.mp hmem
          exact heq ▸ hreq
      · exact h breq (.tail _ hbreq)
    · intro breq hbreq
      rcases List.mem_cons.mp hbreq with rfl | hbreq
      · exact h _ List.mem_cons_self
      · exact hmore breq hbreq

/-- The slices of a list make the list up again. -/
lemma flatten_slices {α : Type} {n : ℕ} (hn : 0 < n) (fuel : ℕ) {l : List α}
    (hl : l.length ≤ fuel) : (slices n fuel l).flatten = l := by
  induction fuel generalizing l with
  | zero =>
    have hnil : l = [] := List.length_eq_zero_iff.mp (by omega)
    subst hnil
    rfl
  | succ fuel ih =>
    cases l with
    | nil => rfl
    | cons x l =>
      have hdrop : ((x :: l).drop n).length ≤ fuel := by
        rw [List.length_drop]
        omega
      rw [slices, List.flatten_cons, ih hdrop, List.take_append_drop]
      simp

end Batches

/-! ### The flush -/

lemma Sound.withCache (h : Sound env txn w) {rangeCache : Client.RangeDescriptorCache}
    (hc : Cached env.pd rangeCache) : Sound env txn { w with rangeCache } :=
  ⟨h.own, hc, h.served, h.held, h.buffered⟩

/-- The writes of the buffer to the keys `ks` have gone out. -/
structure Writes (env : Env) (txn : Transaction) (ks : List Key) (w w' : Session) : Prop where
  sound : Sound env txn w'
  kept : w'.dbTxn = w.dbTxn
  wrote : Wrote txn w.dbTxn.kvCache ks w.store w'.store

/-- A loop over requests that write writes what they write. -/
lemma forM_writes {β : Type} {f : β → CM Session Unit} {ks : β → List Key} {l : List β}
    (h : Sound env txn w)
    (hf : ∀ b ∈ l, ∀ u, Sound env txn u → u.dbTxn = w.dbTxn →
      u.store.replicas = w.store.replicas → ∃ u', f b u = .ok () u' ∧ Writes env txn (ks b) u u') :
    ∃ w', l.forM f w = .ok () w' ∧ Writes env txn (l.flatMap ks) w w' := by
  induction l generalizing w with
  | nil => exact ⟨w, rfl, h, rfl, .refl h.held⟩
  | cons b l ih =>
    obtain ⟨w₁, hone, hw₁⟩ := hf b List.mem_cons_self w h rfl rfl
    obtain ⟨w', hrun, hw'⟩ := ih hw₁.sound fun b hb u hu hkept hrep =>
      hf b (.tail _ hb) u hu (hkept.trans hw₁.kept) (hrep.trans hw₁.wrote.replicas)
    refine ⟨w', ?_, hw'.sound, hw'.kept.trans hw₁.kept, ?_⟩
    · show (f b >>= fun _ => l.forM f) w = _
      rw [run_bind_ok hone]
      exact hrun
    · have hmore := hw'.wrote
      rw [hw₁.kept] at hmore
      exact hw₁.wrote.trans hmore

section Flush

variable (hsplit : SplitsKeys env.pd)
include hsplit

/-- The walk over the buffer: every write is in the batch of its range. -/
lemma foldlM_addWrite (es : List (Key × Option Bytes)) (h : Sound env txn w)
    (hes : ∀ e ∈ es, w.dbTxn.kvCache.get e.1 = some e.2) {acc : List PutBatch}
    (hacc : ∀ breq ∈ acc, BatchOf txn w.dbTxn.kvCache w.store.replicas breq) :
    ∃ breqs rangeCache, es.foldlM (addWrite env txn) acc w = .ok breqs { w with rangeCache } ∧
      Cached env.pd rangeCache ∧
      (∀ breq ∈ breqs, BatchOf txn w.dbTxn.kvCache w.store.replicas breq) ∧
      ∀ k, k ∈ batchKeys breqs ↔ k ∈ es.map Prod.fst ∨ k ∈ batchKeys acc := by
  induction es generalizing w acc with
  | nil => exact ⟨acc, w.rangeCache, rfl, h.cached, hacc, by simp⟩
  | cons e es ih =>
    obtain ⟨key, v⟩ := e
    have hget := hes _ List.mem_cons_self
    obtain ⟨huser, hv⟩ := h.buffered key v hget
    obtain ⟨hlow, hhigh⟩ := range_of_isUserKey huser
    obtain ⟨rd, rangeCache, hrd, hc, hl⟩ := getRangeDescFromCache_ok hsplit h.cached hlow hhigh
    have hr := h.served _ _ hl.entry hl.above
    have hput : PutOf txn w.dbTxn.kvCache ⟨rd.rangeID, rd⟩ (putRequest txn rd.rangeID key v) :=
      ⟨key, v, huser, hv, hget, hl.covers, rfl⟩
    obtain ⟨breqs, rangeCache', hrun, hc', hok, hkeys⟩ := ih (h.withCache hc)
      (fun e he => hes e (.tail _ he)) (batchOf_addPut hacc hput hr)
    refine ⟨breqs, rangeCache', ?_, hc', hok, fun k => ?_⟩
    · have hone : addWrite env txn acc (key, v) w =
          .ok (addPut (putRequest txn rd.rangeID key v) acc) { w with rangeCache } := by
        rw [addWrite, run_bind_ok hrd]
        rfl
      rw [List.foldlM_cons, run_bind_ok hone]
      exact hrun
    · rw [hkeys, mem_batchKeys_addPut, List.map_cons, List.mem_cons]
      show _ ∨ k = key ∨ _ ↔ _
      tauto

lemma createBatchPutRequest_ok (h : Sound env txn w) :
    ∃ breqs rangeCache, createBatchPutRequest env w = .ok breqs { w with rangeCache } ∧
      Cached env.pd rangeCache ∧
      (∀ breq ∈ breqs, BatchOf txn w.dbTxn.kvCache w.store.replicas breq) ∧
      ∀ k, k ∈ batchKeys breqs ↔ ∃ b, w.dbTxn.kvCache.get k = some b := by
  have hnone : ∀ breq ∈ ([] : List PutBatch),
      BatchOf txn w.dbTxn.kvCache w.store.replicas breq := fun _ hmem => by cases hmem
  obtain ⟨breqs, rangeCache, hrun, hc, hok, hkeys⟩ := foldlM_addWrite hsplit
    w.dbTxn.kvCache.entries h (fun e he => w.dbTxn.kvCache.mem_entries_iff.mp he) hnone
  refine ⟨breqs, rangeCache, ?_, hc, hok, fun k => ?_⟩
  · rw [createBatchPutRequest, run_bind_get, h.own]
    exact hrun
  · rw [hkeys]
    simp [batchKeys, OrdMap.mem_entries_iff]

variable (hts : txn.timestamp.Nonneg)
include hts

/-- **A batch writes its keys.** -/
lemma putBatch_ok [Backend] (h : Sound env txn w) {breq : PutBatch}
    (hbreq : BatchOf txn w.dbTxn.kvCache w.store.replicas breq) :
    ∃ w', putBatch env breq w = .ok () w' ∧ Writes env txn (breq.req.map (·.key)) w w' := by
  obtain ⟨huser, r, hr, hreqs⟩ := hbreq
  obtain ⟨hlow, hhigh⟩ := range_of_isUserKey huser
  obtain ⟨resps, store, hexec, hwrote⟩ := execute_puts hts h.held hr hreqs
  have hcall : ∀ (_ : NodeID) (rd : RangeDescriptor) rangeCache, Cached env.pd rangeCache →
      Locates env.pd breq.key rd →
      ∃ resps w', ask (execute breq.rangeID [] (breq.req.map .put)) { w with rangeCache } =
          .ok resps w' ∧ Writes env txn (breq.req.map (·.key)) w w' := by
    intro _ rd rangeCache hc _
    refine ⟨resps, _, ask_ok hexec, ⟨h.own, hc, fun s rd hrd hs => ?_, hwrote.held, h.buffered⟩,
      rfl, hwrote⟩
    show store.replicas _ = _
    rw [hwrote.replicas]
    exact h.served s rd hrd hs
  obtain ⟨a, w', hrun, hQ⟩ := requestNode_located hsplit h.cached hlow hhigh hcall
  refine ⟨w', ?_, hQ⟩
  rw [putBatch, hrun]

lemma splitBatchPutRequest_ok [Backend] (h : Sound env txn w) {breqs : List PutBatch}
    (hbreqs : ∀ breq ∈ breqs, BatchOf txn w.dbTxn.kvCache w.store.replicas breq) :
    ∃ w', splitBatchPutRequest env breqs w = .ok () w' ∧
      Writes env txn (batchKeys breqs) w w' := by
  refine forM_writes h fun breq hbreq u hu hkept hrep => ?_
  obtain ⟨huser, r, hr, hreqs⟩ := hbreqs breq hbreq
  have hall : (slices maxBatchPutSize breq.req.length breq.req).flatten = breq.req :=
    flatten_slices (by decide) _ le_rfl
  have hslice : ∀ req ∈ slices maxBatchPutSize breq.req.length breq.req, ∀ v, Sound env txn v →
      v.dbTxn = u.dbTxn → v.store.replicas = u.store.replicas →
      ∃ v', putBatch env { breq with req } v = .ok () v' ∧
        Writes env txn (req.map (·.key)) v v' := by
    intro req hreq v hv hkept' hrep'
    refine putBatch_ok hsplit hts hv ⟨huser, r, ?_, fun q hq => ?_⟩
    · rw [hrep', hrep]
      exact hr
    · rw [hkept', hkept]
      exact hreqs q (hall ▸ List.mem_flatten.mpr ⟨req, hreq, hq⟩)
  obtain ⟨u', hrun, hu'⟩ := forM_writes hu hslice
  rw [List.flatMap_def, ← List.map_flatten, hall] at hu'
  exact ⟨u', hrun, hu'⟩

variable (hid : isTxnID txn.id) (hpending : txn.status = .pending)
include hid hpending

omit hts in
lemma ensureBegun_ok [Backend] (h : Sound env txn w) :
    ∃ w', ensureBegun env w = .ok () w' ∧ Sound env txn w' ∧
      w'.dbTxn.kvCache = w.dbTxn.kvCache ∧
      ∀ k, isUserKey k → shownAt w'.store.eng k = shownAt w.store.eng k := by
  rw [ensureBegun, run_bind_get]
  by_cases hbegun : w.dbTxn.hasBegin = true
  · rw [if_pos hbegun]
    exact ⟨w, rfl, h, rfl, fun _ _ => rfl⟩
  · obtain ⟨w', hrun, hs, hkept, hshown⟩ := beginTransaction_ok hid hpending hsplit h
    rw [if_neg hbegun, run_bind_ok (traced_ok hrun)]
    refine ⟨_, rfl, ⟨hs.own, hs.cached, hs.served, hs.held, hs.buffered⟩, ?_, hshown⟩
    show w'.dbTxn.kvCache = _
    rw [hkept]

/-- **A flush shows the buffer on the engine**, whatever is left in the buffer. -/
theorem doPutData_ok [Backend] (h : Sound env txn w) (choice : Choice) :
    ∃ w', doPutData env choice w = .ok () w' ∧ Sound env txn w' ∧
      (∀ k, isUserKey k →
        shownAt w'.store.eng k = (w.dbTxn.kvCache.get k).getD (shownAt w.store.eng k)) ∧
      ∀ k b, w'.dbTxn.kvCache.get k = some b → w.dbTxn.kvCache.get k = some b := by
  obtain ⟨w₁, hbegun, hs, hcache, hshown⟩ := ensureBegun_ok hsplit hid hpending h
  rw [doPutData, run_bind_ok hbegun, run_bind_get]
  by_cases hempty : w₁.dbTxn.kvCache.entries.length = 0
  · rw [if_pos hempty]
    have hnone : ∀ k, w.dbTxn.kvCache.get k = none := fun k => by
      rw [← hcache]
      simp [OrdMap.get, List.length_eq_zero_iff.mp hempty]
    refine ⟨w₁, rfl, hs, fun k hk => ?_, fun k b hb => hcache ▸ hb⟩
    rw [hnone, hshown k hk]
    rfl
  · rw [if_neg hempty]
    obtain ⟨breqs, rangeCache, hcreate, hc, hok, hkeys⟩ := createBatchPutRequest_ok hsplit hs
    have hperm := choice.perm breqs
    obtain ⟨w₂, hrun, hw₂⟩ := splitBatchPutRequest_ok hsplit hts (hs.withCache hc)
      fun breq hbreq => hok breq (hperm.mem_iff.mp hbreq)
    rw [run_bind_ok (traced_ok hcreate), run_bind_ok (traced_ok hrun)]
    have hleft : ∀ k b, (w₂.dbTxn.kvCache.filter choice.left).get k = some b →
        w.dbTxn.kvCache.get k = some b := fun k b hb => by
      rw [OrdMap.get_filter, hw₂.kept] at hb
      split_ifs at hb
      exact hcache ▸ hb
    refine ⟨_, rfl, ⟨hw₂.sound.own, hw₂.sound.cached, hw₂.sound.served, hw₂.sound.held,
      fun k b hb => h.buffered k b (hleft k b hb)⟩, fun k hk => ?_, hleft⟩
    show shownAt w₂.store.eng k = _
    rw [← hshown k hk]
    have hmem : k ∈ batchKeys (choice.order breqs) ↔ ∃ b, w₁.dbTxn.kvCache.get k = some b :=
      (hperm.flatMap_right _).mem_iff.trans (hkeys k)
    rw [hcache] at hmem
    cases hb : w.dbTxn.kvCache.get k with
    | some b => exact hw₂.wrote.wrote k (hmem.mpr ⟨b, hb⟩) b (hcache ▸ hb)
    | none =>
      refine hw₂.wrote.rest k fun hin => ?_
      obtain ⟨b, hb'⟩ := hmem.mp hin
      simp [hb] at hb'

end Flush

end Ancestor
