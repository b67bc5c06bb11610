import Ancestor.Pooled

/-!
What a transaction leaves on the engine.

While a transaction runs, a cell is the one it has found or that one with its intent on top, and
the key of every intent is in the pool. Its end resolves the keys of the pool: a commit moves each
intent to the time of the commit, a rollback uncovers what was below. Either way every version is
committed again, below the next transaction.
-/

namespace Ancestor

open M Hoare Versions Client
open Protocol (isUserKey isTxnID Laid ne_nil_of_isUserKey ne_nil_of_isTxnID cell_put_txn
  recAt_updates)

/-! ### Cells -/

namespace Cell

variable {c c' : Cell} {txn rec : Transaction} {v : Value} {ts : Timestamp}

/-- Absent, or with a committed newest version that is not above `ts`. -/
def CommittedBy (c : Cell) (ts : Timestamp) : Prop :=
  (c.metaData = none ∧ ∀ t, c.vers t = none) ∨
    ∃ m v, c.metaData = some m ∧ m.transactionID = [] ∧ m.timestamp ≤ ts ∧
      c.vers m.timestamp = some v ∧ (m.deleted = true → v.bytes = []) ∧
      ∀ t, c.vers t ≠ none → t ≤ m.timestamp

lemma CommittedBy.mono (h : c.CommittedBy ts) {ts' : Timestamp} (hle : ts ≤ ts') :
    c.CommittedBy ts' :=
  h.imp_right fun ⟨m, v, hm, hid, hts, hv⟩ => ⟨m, v, hm, hid, hts.trans hle, hv⟩

lemma CommittedBy.le (h : c.CommittedBy ts) {t : Timestamp} (ht : c.vers t ≠ none) : t ≤ ts := by
  rcases h with ⟨-, hv⟩ | ⟨m, v, -, -, hle, -, -, hlast⟩
  · exact absurd (hv t) ht
  · exact (hlast t ht).trans hle

lemma CommittedBy.transactionID (h : c.CommittedBy ts) {m : MVCCMetadata}
    (hm : c.metaData = some m) : m.transactionID = [] := by
  rcases h with ⟨hnone, -⟩ | ⟨m', v, hm', hid, -⟩
  · rw [hnone] at hm
    cases hm
  · rw [hm', Option.some.injEq] at hm
    exact hm ▸ hid

/-- A second write of the transaction replaces the first. -/
lemma write_write (c : Cell) (txn : Transaction) (v v' : Value) :
    (c.write txn v).write txn v' = c.write txn v' := by
  simp [write, setMeta, setVer]

lemma shown_write (c : Cell) (txn : Transaction) (v : Value) :
    (c.write txn v).shown = v.content := by
  refine shown_newest (write_metaData c txn v) ?_
  simp

section Resolve

variable [Backend] (h : c.CommittedBy ts) (hlt : ts < txn.timestamp)
  (hr : (c.write txn v).Resolved ⟨txn.id, txn.timestamp, isNoneValue v⟩ rec c')

include h hlt hr

/-- **A committed intent moves up** and shows what it has shown before. -/
lemma CommittedBy.commit (hrec : rec.status = .committed) (hup : txn.timestamp < rec.timestamp) :
    c'.CommittedBy rec.timestamp ∧ c'.shown = (c.write txn v).shown := by
  cases hr with
  | pendingStay hst | pendingMove _ hst | abortLast hst | abortOlder _ _ hst =>
    rw [hrec] at hst
    cases hst
  | commitStay _ hle => exact absurd hup (not_lt.mpr hle)
  | commitMove v' _ _ hv =>
    have hself : (c.write txn v).vers txn.timestamp = some v := by simp
    obtain rfl : v' = v := by
      have hfound : Finds (c.write txn v).vers txn.timestamp (some v) :=
        finds_some hself le_rfl fun u _ hu => hu
      exact Option.some.inj (hv.unique hfound)
    have hnew : ((c.write txn v').move ⟨txn.id, txn.timestamp, isNoneValue v'⟩ [] rec.timestamp
        v').vers rec.timestamp = some v' := by
      rw [move_vers_of_ne _ _ _ _ hup.ne', if_pos rfl]
    -- the version below, if it has stayed, is not above the new one
    refine ⟨.inr ⟨_, v', move_metaData _ _ _ _ _, rfl, le_rfl, hnew, bytes_of_isNoneValue,
      fun t ht => ?_⟩, ?_⟩
    · by_contra hle
      have hlt' : rec.timestamp < t := not_le.mp hle
      rw [move_vers_of_ne _ _ _ _ (hup.trans hlt').ne', if_neg hlt'.ne', write_vers,
        if_neg (hup.trans hlt').ne'] at ht
      exact absurd ((h.le ht).trans_lt (hlt.trans hup)) (not_lt.mpr hlt'.le)
    · rw [shown_newest (move_metaData _ _ _ _ _) hnew, shown_write]

/-- **An aborted intent uncovers** what it has covered, if its version is cleared. -/
lemma CommittedBy.abort (hclears : Backend.clears = true) (hrec : rec.status = .aborted) :
    c'.CommittedBy ts ∧ c'.shown = c.shown := by
  have hbelow : ∀ t, t ≠ txn.timestamp → (c.write txn v).vers t = c.vers t := fun t ht => by
    rw [write_vers, if_neg ht]
  have hdrop : (c.write txn v).drop txn.timestamp =
      (c.write txn v).setVer txn.timestamp none := if_pos hclears
  have hdropMeta : ∀ c : Cell, c.dropMeta = c.setMeta none := fun c => if_pos hclears
  have hgone : ∀ m t, (((c.write txn v).setVer txn.timestamp none).setMeta m).vers t =
      c.vers t := by
    intro m t
    by_cases ht : t = txn.timestamp
    · have hnone : c.vers t = none := by
        by_contra hne
        exact absurd (h.le hne) (not_le.mpr (ht ▸ hlt))
      rw [hnone, ht]
      simp [setVer, setMeta]
    · simp [setVer, setMeta, write_vers, ht]
  cases hr with
  | pendingStay hst | pendingMove _ hst | commitStay hst | commitMove _ hst =>
    rw [hrec] at hst
    cases hst
  | abortLast _ hno =>
    have hnone : ∀ t, c.vers t = none := fun t => by
      by_contra hne
      have ht : t < txn.timestamp := (h.le hne).trans_lt hlt
      exact hne ((hbelow t ht.ne).symm.trans (hno t ht))
    rw [hdrop, hdropMeta]
    refine ⟨.inl ⟨rfl, fun t => (hgone none t).trans (hnone t)⟩, ?_⟩
    rcases h with ⟨hm, -⟩ | ⟨m, v', -, -, -, hv', -⟩
    · simp [shown, hm, setMeta]
    · rw [hnone] at hv'
      cases hv'
  | abortOlder t v' _ ht hv hmax =>
    rw [hbelow t ht.ne] at hv
    rcases h with ⟨-, hnone⟩ | ⟨m, v₀, hm, hid, hle, hv₀, hdel, hlast⟩
    · rw [hnone] at hv
      cases hv
    -- the newest version below the intent is the one that was the newest
    · have htm : t = m.timestamp := by
        refine le_antisymm (hlast t (hv ▸ Option.some_ne_none v')) (not_lt.mp fun hlt' => ?_)
        have hcov := hmax m.timestamp hlt' (hle.trans_lt hlt)
        rw [hbelow _ (hle.trans_lt hlt).ne, hv₀] at hcov
        cases hcov
      subst htm
      obtain rfl : v' = v₀ := Option.some.inj (hv.symm.trans hv₀)
      rw [hdrop]
      have hnewest := (hgone (some ⟨[], m.timestamp, decide (v'.bytes.length = 0)⟩) _).trans hv
      refine ⟨.inr ⟨_, v', rfl, rfl, hle, hnewest, fun hd => ?_, fun u hu => ?_⟩, ?_⟩
      · exact List.length_eq_zero_iff.mp (decide_eq_true_iff.mp hd)
      · rw [hgone] at hu
        exact hlast u hu
      · rw [shown_newest (m := ⟨[], m.timestamp, _⟩) rfl hnewest, shown_newest hm hv]

end Resolve

end Cell

lemma CommittedBy.cell {ts : Timestamp} {eng : Engine} (h : CommittedBy ts eng) {k : Key}
    (hk : isUserKey k) : (cell eng k).CommittedBy ts := h.committed k hk

/-! ### The engine under a transaction -/

/-- The engine that `txn` has found as `eng₀`, with its intents on keys of `S`; a transaction that
has begun has a pending record. -/
structure Over (eng₀ : Engine) (txn : Transaction) (begun : Prop) (S : List Key) (eng : Engine) :
    Prop extends Laid eng where
  cells : ∀ k, isUserKey k → cell eng k = cell eng₀ k ∨
    k ∈ S ∧ ∃ v, cell eng k = (cell eng₀ k).write txn v
  record : begun → ∃ r, recAt eng txn.id = some r ∧ r.status = .pending

section Over

variable {eng₀ eng : Engine} {txn : Transaction} {begun begun' : Prop} {S S' : List Key}

lemma Over.mono (h : Over eng₀ txn begun S eng) (hb : begun' → begun) (hS : S ⊆ S') :
    Over eng₀ txn begun' S' eng :=
  ⟨h.toLaid, fun k hk => (h.cells k hk).imp_right (And.imp_left (hS ·)), h.record ∘ hb⟩

lemma Over.refl (h : Laid eng) (hbegun : ¬ begun) : Over eng txn begun S eng :=
  ⟨h, fun _ _ => .inl rfl, fun h => absurd h hbegun⟩

/-- A put of the transaction leaves its intent on the key, or nothing where nothing was. -/
lemma Over.put [Backend] {s s' : St} {k : Key} {id : RangeID} {b : Option Bytes}
    (h : Over eng₀ txn begun S s.eng) (hheld : Held txn s.eng) (hid : isTxnID txn.id)
    (hts : txn.timestamp.Nonneg) (hk : isUserKey k) (hS : k ∈ S)
    (hrun : Ancestor.put (putRequest txn id k b) s = .ok () s') :
    Over eng₀ txn begun S s'.eng := by
  have hput := put_run (putRequest txn id k b) h.ok (h.dataKey k hk) (ne_nil_of_isUserKey hk) hts
  cases hc : (cell s.eng k).put (putRequest txn id k b) with
  | error e =>
    rw [show cell s.eng (putRequest txn id k b).key = cell s.eng k from rfl, hc] at hput
    rw [hrun] at hput
    cases hput
  | ok c =>
    rw [show cell s.eng (putRequest txn id k b).key = cell s.eng k from rfl, hc] at hput
    obtain ⟨s₁, hs₁, hu⟩ := hput
    obtain rfl : s₁ = s' := by
      rw [hs₁] at hrun
      cases hrun
      rfl
    -- an intent of the transaction is at its timestamp
    have hmoved : ∀ m, (cell s.eng k).metaData = some m → m.transactionID ≠ [] →
        m.timestamp = txn.timestamp := by
      intro m hm hne
      cases hheld.alone k hk with
      | absent hm' =>
        rw [hm'] at hm
        cases hm
      | newest m' v hm' hown =>
        rw [hm', Option.some.injEq] at hm
        subst hm
        exact hown.elim (fun h => absurd h.1 hne) And.right
    refine ⟨h.toLaid.updates hu, fun k' hk' => ?_, fun hb => ?_⟩
    · by_cases hkk : k' = k
      · subst hkk
        rw [show cell s₁.eng k' = c from hu.cell_self]
        cases Cell.put_cases hc with
        | skip => exact h.cells k' hk'
        | write =>
          refine .inr ⟨hS, ?_⟩
          rcases h.cells k' hk' with heq | ⟨-, v, heq⟩
          · exact ⟨_, by rw [heq]; rfl⟩
          · exact ⟨_, by rw [heq]; exact Cell.write_write _ txn _ _⟩
        | movedSkip m _ hm hne _ hts' | movedWrite m _ hm hne _ hts' =>
          exact absurd (hmoved m hm hne) hts'
      · rw [cell_updates hu hkk]
        exact h.cells k' hk'
    · rw [recAt_updates hu hk hid]
      exact h.record hb

lemma Over.put_txn (h : Over eng₀ txn begun S eng) (hid : isTxnID txn.id) {r : Transaction}
    (hr : begun' → r.status = .pending) :
    Over eng₀ txn begun' S (eng.put (newMVCCKey txn.id) (.txn r)) where
  toLaid := h.toLaid.put_txn hid r
  cells := fun k hk => by
    rw [cell_put_txn hk hid]
    exact h.cells k hk
  record := fun hb => ⟨r, by rw [recAt_put_txn, if_pos rfl], hr hb⟩

/-- A batch of puts keeps to the keys of `S`. -/
lemma Over.execute [Backend] {s s' : Store} {r : Replica} {id : RangeID}
    {c : OrdMap Key (Option Bytes)}
    {reqs : List PutRequest} {resps : List Response} (h : Over eng₀ txn begun S s.eng)
    (hheld : Held txn s.eng) (hid : isTxnID txn.id) (hts : txn.timestamp.Nonneg)
    (hr : s.replicas id = some r) (hreqs : ∀ req ∈ reqs, PutOf txn c r req)
    (hS : ∀ req ∈ reqs, req.key ∈ S)
    (hrun : Ancestor.execute id [] (reqs.map .put) s = .ok resps s') :
    Over eng₀ txn begun S s'.eng := by
  induction reqs generalizing s resps with
  | nil =>
    cases hrun
    exact h
  | cons req reqs ih =>
    obtain ⟨k, b, hk, hb, -, hcov, rfl⟩ := hreqs _ List.mem_cons_self
    obtain ⟨st, hst, hheld', -⟩ :=
      hheld.put (s := ⟨s.eng, s.rangeStats r.rangeID⟩) hts hk r.rangeID hb
    have hone : r.executeCmd (.put (putRequest txn r.rangeID k b)) s = .ok .put (r.keep s st) :=
      executeCmd_ok (f := fun _ => .put) ((validateKeyRange_iff r k).mpr hcov) rfl hst
    rw [List.map_cons, Ancestor.execute, run_bind_ok (getReplica_ok hr),
      run_bind_ok (applyRequest_ok hone)] at hrun
    obtain ⟨resps', s₁, hmore, hret⟩ := of_bind_ok hrun
    cases hret
    have hover : Over eng₀ txn begun S st.eng :=
      Over.put (s := ⟨s.eng, s.rangeStats r.rangeID⟩) h hheld hid hts hk
        (hS _ List.mem_cons_self) hst
    exact ih (s := r.keep s st) hover hheld' hr (fun req hreq => hreqs req (.tail _ hreq))
      (fun req hreq => hS req (.tail _ hreq)) hmore

end Over

/-! ### The flush -/

section Flush

variable {env : Env} {eng₀ : Engine} {txn : Transaction} {begun : Prop} {S : List Key}
  {w : Session} (hsplit : SplitsKeys env.pd) (hts : txn.timestamp.Nonneg) (hid : isTxnID txn.id)

include hsplit hid

lemma Over.ensureBegun [Backend] (h : Over eng₀ txn (w.dbTxn.hasBegin = true) S w.store.eng)
    (hpending : txn.status = .pending) (hs : Sound env txn w) :
    ∃ w', Client.ensureBegun env w = .ok () w' ∧ Over eng₀ txn True S w'.store.eng ∧
      w'.dbTxn = { w.dbTxn with hasBegin := true } := by
  rw [Client.ensureBegun, run_bind_get]
  by_cases hbegun : w.dbTxn.hasBegin = true
  · rw [if_pos hbegun]
    refine ⟨w, rfl, h.mono (fun _ => hbegun) (List.Subset.refl S), ?_⟩
    rw [← hbegun]
  · obtain ⟨hlow, hhigh⟩ := range_of_isTxnID hid
    have hcall : ∀ (_ : NodeID) rd rangeCache, Cached env.pd rangeCache →
        Locates env.pd txn.id rd → ∃ resp w', ask (send rd.rangeID (.beginTransaction
          { key := txn.id, timestamp := txn.timestamp, rangeID := rd.rangeID, txn }))
            { w with rangeCache } = .ok resp w' ∧ Over eng₀ txn True S w'.store.eng ∧
          w'.dbTxn = w.dbTxn := by
      intro _ rd rangeCache hc hl
      have hr := hs.served _ _ hl.entry hl.above
      have hlook : Looked ⟨w.store.eng, w.store.rangeStats rd.rangeID⟩ txn.id .beginTxn none := by
        simp [Looked]
      have hrun := mvccPutTxn_run txn .beginTxn true hlook
      rw [nextTxn_begin hpending] at hrun
      obtain ⟨st, hst, heng⟩ := hrun
      have hcmd : send rd.rangeID (.beginTransaction
          { key := txn.id, timestamp := txn.timestamp, rangeID := rd.rangeID, txn }) w.store =
            .ok (.beginTransaction txn) (Replica.keep ⟨rd.rangeID, rd⟩ w.store st) := by
        rw [send, run_bind_ok (getReplica_ok hr)]
        exact executeCmd_ok (f := fun _ => .beginTransaction txn)
          ((validateKeyRange_iff ⟨rd.rangeID, rd⟩ txn.id).mpr hl.covers) rfl hst
      refine ⟨_, _, ask_ok hcmd, ?_, rfl⟩
      show Over eng₀ txn True S st.eng
      rw [heng]
      exact Over.put_txn h hid fun _ => hpending
    obtain ⟨a, w', hrun, hover, hkept⟩ := requestNode_located hsplit hs.cached hlow hhigh hcall
    have hbegin : Client.beginTransaction env w = .ok () w' := by
      rw [Client.beginTransaction, run_bind_get, hs.own, run_bind_ok hrun]
      rfl
    rw [if_neg hbegun, run_bind_ok (traced_ok hbegin)]
    refine ⟨_, rfl, hover, ?_⟩
    show { w'.dbTxn with hasBegin := true } = _
    rw [hkept]

include hts

lemma Over.putBatch [Backend] (h : Over eng₀ txn begun S w.store.eng) (hs : Sound env txn w)
    {breq : PutBatch} (hbreq : BatchOf txn w.dbTxn.kvCache w.store.replicas breq)
    (hS : ∀ req ∈ breq.req, req.key ∈ S) :
    ∃ w', Client.putBatch env breq w = .ok () w' ∧ Over eng₀ txn begun S w'.store.eng := by
  obtain ⟨w', hrun, hw⟩ := putBatch_ok hsplit hts hs hbreq
  refine ⟨w', hrun, ?_⟩
  obtain ⟨huser, r, hr, hreqs⟩ := hbreq
  obtain ⟨hlow, hhigh⟩ := range_of_isUserKey huser
  obtain ⟨resps, store, hexec, -⟩ := execute_puts hts hs.held hr hreqs
  have hover := h.execute hs.held hid hts hr hreqs hS hexec
  have hcall : ∀ (_ : NodeID) (rd : RangeDescriptor) rangeCache, Cached env.pd rangeCache →
      Locates env.pd breq.key rd →
      ∃ resps w', ask (Ancestor.execute breq.rangeID [] (breq.req.map .put))
        { w with rangeCache } = .ok resps w' ∧ Over eng₀ txn begun S w'.store.eng :=
    fun _ _ _ _ _ => ⟨resps, _, ask_ok hexec, hover⟩
  obtain ⟨a, w₁, hreq, hover'⟩ := requestNode_located hsplit hs.cached hlow hhigh hcall
  rw [Client.putBatch, hreq] at hrun
  cases hrun
  exact hover'

/-- The batches keep to the keys of `S`. -/
lemma Over.splitBatchPutRequest [Backend] (h : Over eng₀ txn begun S w.store.eng)
    (hs : Sound env txn w)
    {breqs : List PutBatch}
    (hbreqs : ∀ breq ∈ breqs, BatchOf txn w.dbTxn.kvCache w.store.replicas breq)
    (hS : ∀ k ∈ batchKeys breqs, k ∈ S) :
    ∃ w', Client.splitBatchPutRequest env breqs w = .ok () w' ∧ w'.dbTxn = w.dbTxn ∧
      Over eng₀ txn begun S w'.store.eng := by
  -- what the next batch needs
  let I : Session → Prop := fun u => Sound env txn u ∧ u.dbTxn = w.dbTxn ∧
    u.store.replicas = w.store.replicas ∧ Over eng₀ txn begun S u.store.eng
  have hbatch : ∀ breq ∈ breqs, ∀ u, I u → ∃ u',
      (slices maxBatchPutSize breq.req.length breq.req).forM
        (fun req => Client.putBatch env { breq with req }) u = .ok () u' ∧ I u' := by
    intro breq hbreq u hu
    obtain ⟨huser, r, hr, hreqs⟩ := hbreqs breq hbreq
    have hall : (slices maxBatchPutSize breq.req.length breq.req).flatten = breq.req :=
      flatten_slices (by decide) _ le_rfl
    refine forM_ok (fun req hreq v hv => ?_) hu
    have hmem : ∀ q ∈ req, q ∈ breq.req := fun q hq =>
      hall ▸ List.mem_flatten.mpr ⟨req, hreq, hq⟩
    have hof : BatchOf txn v.dbTxn.kvCache v.store.replicas { breq with req } := by
      rw [hv.2.1, hv.2.2.1]
      exact ⟨huser, r, hr, fun q hq => hreqs q (hmem q hq)⟩
    have hin : ∀ q ∈ req, q.key ∈ S := fun q hq => hS _
      (List.mem_flatMap.mpr ⟨breq, hbreq, List.mem_map_of_mem (hmem q hq)⟩)
    obtain ⟨v', hrun, hw⟩ := putBatch_ok hsplit hts hv.1 hof
    obtain ⟨v₁, hrun', hover⟩ := hv.2.2.2.putBatch hsplit hts hid hv.1 hof hin
    obtain rfl : v' = v₁ := by
      rw [hrun] at hrun'
      cases hrun'
      rfl
    exact ⟨v', hrun, hw.sound, hw.kept.trans hv.2.1, hw.wrote.replicas.trans hv.2.2.1, hover⟩
  obtain ⟨w', hrun, -, hkept, -, hover⟩ := forM_ok hbatch (s := w) ⟨hs, rfl, rfl, h⟩
  exact ⟨w', hrun, hkept, hover⟩

end Flush

/-! ### The resolution -/

/-- A cell that is committed by `ts` and shows what `b` has for the key. -/
def Rests (b : Key → Option Bytes) (ts : Timestamp) (k : Key) (c : Cell) : Prop :=
  c.CommittedBy ts ∧ c.shown = b k

/-- On the way from `eng₁`: every key outside of `rest` is at rest. -/
structure Settling (b : Key → Option Bytes) (ts : Timestamp) (eng₁ : Engine) (rest : List Key)
    (eng : Engine) : Prop extends Laid eng where
  cells : ∀ k, isUserKey k → k ∈ rest ∧ cell eng k = cell eng₁ k ∨ Rests b ts k (cell eng k)

/-- The record `rec` brings the intents of `eng₁` to rest; the other keys are so already. -/
structure Settles [Backend] (b : Key → Option Bytes) (ts : Timestamp) (eng₁ : Engine)
    (rec : Transaction) : Prop where
  intent : ∀ k m, isUserKey k → metaAt eng₁ k = some m → m.transactionID = rec.id →
    verAt eng₁ k m.timestamp ≠ none ∧ (Backend.Copies ∨ rec.status ≠ .aborted) ∧
      ∀ c, (cell eng₁ k).Resolved m rec c → Rests b ts k c
  other : ∀ k, isUserKey k → (∀ m, metaAt eng₁ k = some m → m.transactionID ≠ rec.id) →
    Rests b ts k (cell eng₁ k)

section Settle

variable {b : Key → Option Bytes} {ts : Timestamp} {eng₁ : Engine} {rec : Transaction}

lemma Settling.mono {eng : Engine} {rest rest' : List Key} (h : Settling b ts eng₁ rest eng)
    (hsub : rest ⊆ rest') : Settling b ts eng₁ rest' eng :=
  ⟨h.toLaid, fun k hk => (h.cells k hk).imp_left (And.imp_left (hsub ·))⟩

variable [Backend] (hset : Settles b ts eng₁ rec) (hts : rec.timestamp.Nonneg)
  (hid : isTxnID rec.id)

include hset hts hid

/-- **One intent is resolved**, or was no intent of the transaction. -/
lemma Settling.resolve {s : St} {k : Key} {rest : List Key}
    (h : Settling b ts eng₁ (k :: rest) s.eng) (hk : isUserKey k) :
    ∃ s', mvccResolveIntent ⟨k, rec⟩ s = .ok () s' ∧ Settling b ts eng₁ rest s'.eng := by
  have hne := ne_nil_of_isUserKey hk
  have hd := h.dataKey k hk
  -- the other keys are where they were before
  have hother : ∀ (eng : Engine) c, Updates s.eng eng k c → Rests b ts k c →
      Settling b ts eng₁ rest eng := by
    refine fun eng c hu hc => ⟨h.toLaid.updates hu, fun k' hk' => ?_⟩
    by_cases hkk : k' = k
    · subst hkk
      rw [show cell eng k' = c from hu.cell_self]
      exact .inr hc
    · rw [cell_updates hu hkk]
      refine (h.cells k' hk').imp_left fun ⟨hmem, heq⟩ => ⟨?_, heq⟩
      exact (List.mem_cons.mp hmem).resolve_left hkk
  by_cases hown : ∃ m, metaAt s.eng k = some m ∧ m.transactionID = rec.id
  · obtain ⟨m, hm, hown⟩ := hown
    rcases h.cells k hk with ⟨-, heq⟩ | hrest
    · obtain ⟨hver, hkept, hres⟩ :=
        hset.intent k m hk (by rw [← cell_metaData, ← heq]; exact hm) hown
      rcases mvccResolveIntent_run (i := ⟨k, rec⟩) h.ok hd hne hts hm hown
        (hkept.imp_right fun hno hab => absurd hab hno) with
        ⟨s', c, hrun, hc, hu⟩ | ⟨s', -, -, -, hnone⟩
      · exact ⟨s', hrun, hother s'.eng c hu (hres c (heq ▸ hc))⟩
      · rw [← cell_vers, ← heq, cell_vers] at hver
        exact absurd (hnone m.timestamp le_rfl) hver
    · have hnil := hrest.1.transactionID (show (cell s.eng k).metaData = some m from hm)
      exact absurd (hown.symm.trans hnil) (ne_nil_of_isTxnID hid)
  · have hnone : ∀ m, metaAt s.eng k = some m → m.transactionID ≠ rec.id :=
      fun m hm hid => hown ⟨m, hm, hid⟩
    refine ⟨s, mvccResolveIntent_skip hd hne hnone, hother s.eng _ (updates_refl h.ok hd) ?_⟩
    rcases h.cells k hk with ⟨-, heq⟩ | hrest
    · rw [heq]
      refine hset.other k hk fun m hm => hnone m ?_
      rw [← cell_metaData, heq]
      exact hm
    · exact hrest

lemma Settling.resolveAll {s : St} {keys rest : List Key}
    (h : Settling b ts eng₁ (keys ++ rest) s.eng) (hkeys : ∀ k ∈ keys, isUserKey k) :
    ∃ s', mvccResolveWriteIntent (keys.map (⟨·, rec⟩)) s = .ok () s' ∧
      Settling b ts eng₁ rest s'.eng := by
  induction keys generalizing s with
  | nil => exact ⟨s, rfl, h⟩
  | cons k keys ih =>
    obtain ⟨s₁, hone, h₁⟩ := Settling.resolve hset hts hid h (hkeys k List.mem_cons_self)
    obtain ⟨s', hrun, h'⟩ := ih h₁ fun k' hk' => hkeys k' (.tail _ hk')
    refine ⟨s', ?_, h'⟩
    rw [List.map_cons, mvccResolveWriteIntent_cons _ hone]
    exact hrun

end Settle

/-! ### The tasks of the workers -/

/-- The client has true descriptors, and the store has the ranges. -/
structure Served (env : Env) (w : Session) : Prop where
  cached : Cached env.pd w.rangeCache
  served : ∀ s rd, env.pd.cache.get s = some rd → txnPrefix ≤ s →
    w.store.replicas rd.rangeID = some ⟨rd.rangeID, rd⟩

lemma Sound.toServed {env : Env} {txn : Transaction} {w : Session} (h : Sound env txn w) :
    Served env w := ⟨h.cached, h.served⟩

section Tasks

variable [Backend] {env : Env} {b : Key → Option Bytes} {ts : Timestamp} {eng₁ : Engine}
  {rec : Transaction} {w : Session} (hsplit : SplitsKeys env.pd) (hset : Settles b ts eng₁ rec)
  (hts : rec.timestamp.Nonneg) (hid : isTxnID rec.id)

include hsplit hset hts hid

/-- **A task brings its keys to rest.** -/
lemma resolveKeys_settles {keys rest : List Key} (hw : Served env w)
    (h : Settling b ts eng₁ (keys ++ rest) w.store.eng) (hkeys : ∀ k ∈ keys, isUserKey k) :
    ∃ w', Pooled.resolveKeys env rec keys w = .ok () w' ∧ Served env w' ∧ w'.dbTxn = w.dbTxn ∧
      Settling b ts eng₁ rest w'.store.eng := by
  cases keys with
  | nil => exact ⟨w, rfl, hw, rfl, h⟩
  | cons key keys =>
    obtain ⟨hlow, hhigh⟩ := range_of_isUserKey (hkeys key List.mem_cons_self)
    have hcall : ∀ (_ : NodeID) rd rangeCache, Cached env.pd rangeCache →
        Locates env.pd key rd → ∃ resp w', ask (send rd.rangeID (.resolveIntent
          { key, timestamp := rec.timestamp, rangeID := rd.rangeID, txn := rec
            intents := (key :: keys).map (⟨·, rec⟩) })) { w with rangeCache } = .ok resp w' ∧
          Served env w' ∧ w'.dbTxn = w.dbTxn ∧ Settling b ts eng₁ rest w'.store.eng := by
      intro _ rd rangeCache hc hl
      have hr := hw.served _ _ hl.entry hl.above
      obtain ⟨st, hst, hsettling⟩ := Settling.resolveAll
        (s := ⟨w.store.eng, w.store.rangeStats rd.rangeID⟩) hset hts hid h hkeys
      have hcmd : send rd.rangeID (.resolveIntent
          { key, timestamp := rec.timestamp, rangeID := rd.rangeID, txn := rec
            intents := (key :: keys).map (⟨·, rec⟩) }) w.store =
            .ok .resolveIntent (Replica.keep ⟨rd.rangeID, rd⟩ w.store st) := by
        rw [send, run_bind_ok (getReplica_ok hr)]
        exact executeCmd_ok (f := fun _ => .resolveIntent)
          ((validateKeyRange_iff ⟨rd.rangeID, rd⟩ key).mpr hl.covers) rfl hst
      exact ⟨_, _, ask_ok hcmd, ⟨hc, hw.served⟩, rfl, hsettling⟩
    obtain ⟨a, w', hrun, hQ⟩ := requestNode_located hsplit hw.cached hlow hhigh hcall
    refine ⟨w', ?_, hQ⟩
    rw [Pooled.resolveKeys, run_bind_ok hrun]
    rfl

lemma foldl_settles (order : SendOrder) (tasks : List (RangeID × List Key)) (hw : Served env w)
    (hrec : w.dbTxn.txn = rec) (h : Settling b ts eng₁ (poolKeys tasks) w.store.eng)
    (hkeys : ∀ k ∈ poolKeys tasks, isUserKey k) :
    ∃ w', tasks.foldl (fun w task =>
        stateAfter (Pooled.resolveKeys env w.dbTxn.txn (order.keys task.2)) w) w = w' ∧
      Served env w' ∧ w'.dbTxn = w.dbTxn ∧ Settling b ts eng₁ [] w'.store.eng := by
  induction tasks generalizing w with
  | nil => exact ⟨w, rfl, hw, rfl, h⟩
  | cons task tasks ih =>
    have hperm := order.keys_perm task.2
    have hsub : poolKeys (task :: tasks) ⊆ order.keys task.2 ++ poolKeys tasks := fun k hk => by
      rw [poolKeys, List.flatMap_cons, List.mem_append] at hk
      exact List.mem_append.mpr (hk.imp_left hperm.mem_iff.mpr)
    obtain ⟨w₁, hone, hw₁, hkept, h₁⟩ := resolveKeys_settles hsplit hset hts hid hw (h.mono hsub)
      fun k hk => hkeys k (List.mem_append_left _ (hperm.mem_iff.mp hk))
    obtain ⟨w', hrun, hw', hkept', h'⟩ := ih hw₁ (hkept ▸ hrec) h₁
      fun k hk => hkeys k (List.mem_append_right _ hk)
    refine ⟨w', ?_, hw', hkept'.trans hkept, h'⟩
    rw [List.foldl_cons, hrec, stateAfter_ok hone]
    exact hrun

/-- **The keys of the pool are brought to rest**, in whichever order they are taken. -/
lemma send_settles (order : SendOrder) {l : List (RangeID × List Key)} (hw : Served env w)
    (hrec : w.dbTxn.txn = rec) (h : Settling b ts eng₁ (poolKeys l) w.store.eng)
    (hkeys : ∀ k ∈ poolKeys l, isUserKey k) :
    Served env (Pooled.send env order w (some l)) ∧
      Settling b ts eng₁ [] (Pooled.send env order w (some l)).store.eng := by
  have hmem : ∀ k, k ∈ poolKeys (order.tasks l) ↔ k ∈ poolKeys l := fun k =>
    ((order.tasks_perm l).flatMap_right _).mem_iff
  obtain ⟨w', hrun, hw', -, h'⟩ := foldl_settles hsplit hset hts hid order (order.tasks l) hw hrec
    (h.mono fun k hk => (hmem k).mpr hk) fun k hk => hkeys k ((hmem k).mp hk)
  rw [Pooled.send, hrun]
  exact ⟨hw', h'⟩

end Tasks

/-! ### The end -/

section End

variable {env : Env} {txn : Transaction} {w : Session}

lemma endTransaction_pending (txn : Transaction) {s : St} {r : Transaction} (hne : txn.id ≠ [])
    (hrec : recAt s.eng txn.id = some r) (hpending : r.status = .pending) (commit : Bool) :
    ∃ s' r', Ancestor.endTransaction txn commit s = .ok () s' ∧
      s'.eng = s.eng.put (newMVCCKey txn.id) (.txn r') := by
  have hlook := looked_of_recAt hne hrec (by decide : TxnChangeType.endTxn ≠ .beginTxn)
  have hput := mvccPutTxn_run { txn with status := if commit then .committed else .aborted }
    .endTxn false hlook
  rw [nextTxn_end hpending] at hput
  obtain ⟨s', hs', heng⟩ := hput
  exact ⟨s', _, hs', heng⟩

variable [Backend] (hsplit : SplitsKeys env.pd) (hid : isTxnID txn.id)

include hsplit hid

/-- A pending record is ended at the first attempt. -/
lemma endTransaction_run (hw : Served env w) {r : Transaction}
    (hrec : recAt w.store.eng txn.id = some r) (hpending : r.status = .pending) (now : Timestamp)
    (dirty commit : Bool) :
    ∃ w' r', Client.endTransaction (base env) (return now) Pooled.answerEnd txn dirty commit w =
        (⟨none, { txn with timestamp := now }, dirty⟩, w') ∧ Served env w' ∧
      w'.dbTxn = w.dbTxn ∧ w'.store.eng = w.store.eng.put (newMVCCKey txn.id) (.txn r') := by
  obtain ⟨hlow, hhigh⟩ := range_of_isTxnID hid
  obtain ⟨rd, rangeCache, hrd, hc, hl⟩ := getRangeDescFromCache_ok hsplit hw.cached hlow hhigh
  obtain ⟨rep, hrep⟩ := hsplit.replica hl
  have hr := hw.served _ _ hl.entry hl.above
  obtain ⟨st, r', hst, heng⟩ := endTransaction_pending { txn with timestamp := now }
    (s := ⟨w.store.eng, w.store.rangeStats rd.rangeID⟩) (ne_nil_of_isTxnID hid) hrec hpending commit
  have hcmd : send rd.rangeID (.endTransaction
      { key := txn.id, timestamp := now, rangeID := rd.rangeID
        txn := { txn with timestamp := now }, commit }) w.store =
        .ok .endTransaction (Replica.keep ⟨rd.rangeID, rd⟩ w.store st) := by
    rw [send, run_bind_ok (getReplica_ok hr)]
    exact executeCmd_ok (f := fun _ => .endTransaction)
      ((validateKeyRange_iff ⟨rd.rangeID, rd⟩ txn.id).mpr hl.covers) rfl hst
  have hcall : nodeEndTransaction Pooled.answerEnd { txn with timestamp := now } commit rep.nodeID
      rd { w with rangeCache } =
        .ok () { w with rangeCache, store := Replica.keep ⟨rd.rangeID, rd⟩ w.store st } := by
    simp only [nodeEndTransaction, Pooled.answerEnd, hcmd]
    rfl
  have hreq : doNodeRequest (base env) txn.id
      (nodeEndTransaction Pooled.answerEnd { txn with timestamp := now } commit) w = _ :=
    doNodeRequest_ok hrd hrep rfl hcall
  have hclock : (return now : CM Session Timestamp) w = .ok now w := rfl
  refine ⟨{ w with rangeCache, store := Replica.keep ⟨rd.rangeID, rd⟩ w.store st }, r', ?_,
    ⟨hc, hw.served⟩, rfl, heng⟩
  simp only [Client.endTransaction, hclock, hreq]

variable {b : Key → Option Bytes} {ts now : Timestamp}

/-- **The end brings every key to rest**: the record is decided, and the intents follow it. -/
lemma endTransaction_settles (hw : Served env w) (hown : w.dbTxn.txn = txn)
    {l : List (RangeID × List Key)} {r : Transaction} (hlaid : Laid w.store.eng)
    (hrec : recAt w.store.eng txn.id = some r) (hpending : r.status = .pending)
    (hnow : now.Nonneg) (hset : Settles b ts w.store.eng { txn with timestamp := now })
    (h : Settling b ts w.store.eng (poolKeys l) w.store.eng)
    (hkeys : ∀ k ∈ poolKeys l, isUserKey k) (hclean : w.dbTxn.dirty = false → poolKeys l = [])
    (order : SendOrder) (commit : Bool) :
    ∃ w' pool, Pooled.endTransaction env now order commit (w, some l) = .ok () (w', pool) ∧
      Served env w' ∧ Settling b ts w.store.eng [] w'.store.eng := by
  obtain ⟨w₁, r', hend, hw₁, hkept, heng⟩ :=
    endTransaction_run hsplit hid hw hrec hpending now w.dbTxn.dirty commit
  have hcell : ∀ k, isUserKey k → cell w₁.store.eng k = cell w.store.eng k := fun k hk => by
    rw [heng, cell_put_txn hk hid]
  have h₁ : Settling b ts w.store.eng (poolKeys l) w₁.store.eng :=
    ⟨heng ▸ hlaid.put_txn hid r', fun k hk => by
      rw [hcell k hk]
      exact h.cells k hk⟩
  let w₂ : Session := { w₁ with dbTxn.txn := { txn with timestamp := now } }
  have hrun : Pooled.endTransaction env now order commit (w, some l) =
      .ok () (if w.dbTxn.dirty then (Pooled.send env order w₂ (some l), none)
        else (w₂, some l)) := by
    simp only [Pooled.endTransaction, hown, hend]
    rfl
  rw [hrun]
  by_cases hdirty : w.dbTxn.dirty = true
  · rw [if_pos hdirty]
    obtain ⟨hw', h'⟩ := send_settles hsplit hset hnow hid order (w := w₂) ⟨hw₁.cached, hw₁.served⟩
      rfl h₁ hkeys
    exact ⟨_, none, rfl, hw', h'⟩
  · rw [if_neg hdirty]
    rw [hclean (by simpa using hdirty)] at h₁
    exact ⟨w₂, some l, rfl, ⟨hw₁.cached, hw₁.served⟩, h₁⟩

end End

/-! ### What the end makes of the intents -/

section Outcome

variable {eng₀ eng : Engine} {txn : Transaction} {begun : Prop} {S : List Key}
  {b : Key → Option Bytes} {ts₀ ts : Timestamp}

/-- Keys without an intent are at rest before the end, and the others after it. -/
lemma Over.settling (h : Over eng₀ txn begun S eng)
    (hsame : ∀ k, isUserKey k → cell eng k = cell eng₀ k → Rests b ts k (cell eng k)) :
    Settling b ts eng S eng :=
  ⟨h.toLaid, fun k hk => (h.cells k hk).symm.imp (fun hin => ⟨hin.1, rfl⟩) (hsame k hk)⟩

lemma Over.settles [Backend] (h : Over eng₀ txn begun S eng) (h₀ : CommittedBy ts₀ eng₀)
    (hid : isTxnID txn.id) {rec : Transaction} (hrec : rec.id = txn.id)
    (hkept : Backend.Copies ∨ rec.status ≠ .aborted ∨ S = [])
    (hsame : ∀ k, isUserKey k → cell eng k = cell eng₀ k → Rests b ts k (cell eng k))
    (hres : ∀ k v c, isUserKey k → k ∈ S → cell eng k = (cell eng₀ k).write txn v →
      ((cell eng₀ k).write txn v).Resolved ⟨txn.id, txn.timestamp, isNoneValue v⟩ rec c →
      Rests b ts k c) : Settles b ts eng rec where
  intent := fun k m hk hm hown => by
    rw [← cell_metaData] at hm
    rcases h.cells k hk with heq | ⟨hin, v, heq⟩
    · have hnil := (h₀.cell hk).transactionID (heq ▸ hm)
      exact absurd (hrec ▸ hown.symm.trans hnil) (ne_nil_of_isTxnID hid)
    · have hmeta : m = ⟨txn.id, txn.timestamp, isNoneValue v⟩ := by
        rw [heq, Cell.write_metaData, Option.some.injEq] at hm
        exact hm.symm
      subst hmeta
      have hkept : Backend.Copies ∨ rec.status ≠ .aborted :=
        hkept.imp_right fun h => h.resolve_right fun hnil => by simp [hnil] at hin
      refine ⟨?_, hkept, fun c hc => hres k v c hk hin heq (heq ▸ hc)⟩
      rw [← cell_vers, heq, Cell.write_vers, if_pos rfl]
      simp
  other := fun k hk hnone => by
    rcases h.cells k hk with heq | ⟨-, v, heq⟩
    · exact hsame k hk heq
    · refine absurd hrec.symm (hnone ⟨txn.id, txn.timestamp, isNoneValue v⟩ ?_)
      rw [← cell_metaData, heq, Cell.write_metaData]

lemma Settling.committedBy {eng₁ : Engine} (h : Settling b ts eng₁ [] eng) : CommittedBy ts eng ∧
    ∀ k, isUserKey k → shownAt eng k = b k := by
  have hrest : ∀ k, isUserKey k → Rests b ts k (cell eng k) := fun k hk =>
    (h.cells k hk).resolve_left fun hin => by simp at hin
  exact ⟨⟨h.toLaid, fun k hk => (hrest k hk).1⟩, fun k hk => (hrest k hk).2⟩

end Outcome

end Ancestor
