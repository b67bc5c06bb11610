import Ancestor.LogKeys
import Ancestor.Replication
import Ancestor.SnapshotCut

/-!
A replica on its node (`storage/replica.go`, `storage/replica_raftstorage.go`).

A replica that has fallen behind gets a snapshot of another one: it drops the entries of the range
and takes those of the snapshot. The snapshot is read in two steps, the index with its term and
then the data. A node that starts again reads its applied index from the engine.
-/

namespace Ancestor

open Hoare

/-- A replica and its store. `cut` are the index and the term that `snapshot` has read, until it
has read the data. -/
structure Member where
  raft : RaftReplica
  store : Store
  cut : Option (UInt64 × UInt64) := none

/-- The first half of `replica.snapshot`. -/
def Member.readIndex (m : Member) : Except RaftErr (UInt64 × UInt64) := do
  let index ← m.raft.loadAppliedIndex m.store.eng
  let term ← m.raft.term m.store.eng index
  return (index, term)

/-- The second half, after the first one has read `cut`. -/
def Member.readData [Backend] (id : RangeID) (m : Member) (cut : UInt64 × UInt64) : RaftSnapshot :=
  ⟨rangeData id m.store, cut.1, cut.2⟩

/-! ### Requests that leave the replicas alone -/

/-- A write to keys in `S`; neither a split nor a new descriptor. -/
def Request.OnKeys (S : Set Key) : Request → Prop
  | .split _ | .updateRange _ => False
  | request => request.Within S ∅

section Keep

variable {α : Type} {S : Set Key} {r : Replica} {id : RangeID} {R : RangeID → Option Replica}

lemma Request.OnKeys.within {request : Request} (h : request.OnKeys S) (I : Set RangeID) :
    request.Within S I := by
  cases request
  case split => exact absurd h id
  case updateRange => exact absurd h id
  all_goals exact h

/-- The replicas stay as they are, whether the program succeeds or fails. -/
def KeepsReplicas (m : StoreM α) : Prop :=
  ∀ R, Triple (fun s => s.replicas = R) m (fun _ s => s.replicas = R) fun _ s => s.replicas = R

lemma keepsReplicas_onEngine (m : M α) : KeepsReplicas (r.onEngine m) := by
  intro R s hs
  unfold Replica.onEngine
  cases m ⟨s.eng, s.rangeStats r.rangeID⟩ <;> exact hs

lemma KeepsReplicas.bind {β : Type} {m : StoreM α} {f : α → StoreM β} (h : KeepsReplicas m)
    (hf : ∀ a, KeepsReplicas (f a)) : KeepsReplicas (m >>= f) :=
  fun R => (h R).bind fun a => hf a R

lemma keepsReplicas_pure (a : α) : KeepsReplicas (pure a) := fun _ => triple_pure fun _ h => h

lemma keepsReplicas_throw (e : Err) : KeepsReplicas (throw e : StoreM α) :=
  fun _ => triple_throw fun _ h => h

lemma keepsReplicas_executeCmd [Backend] {request : Request} (h : request.OnKeys S) :
    KeepsReplicas (r.executeCmd request) := by
  have hrun : ∀ {β : Type} (m : M β) (f : β → Response),
      KeepsReplicas (do return f (← r.onEngine m)) := fun m f =>
    (keepsReplicas_onEngine m).bind fun _ => keepsReplicas_pure _
  have hdispatch : KeepsReplicas (r.dispatch request) := by
    cases request
    case split => exact absurd h id
    case updateRange => exact absurd h id
    all_goals exact hrun _ _
  intro R s hs
  rw [executeCmd_run]
  split_ifs
  · exact hdispatch R s hs
  · exact hs

lemma keepsReplicas_applyRequest [Backend] {request : Request} (pusheeTxn : List Transaction)
    (h : request.OnKeys S) : KeepsReplicas (r.applyRequest pusheeTxn request) := by
  have hexec := keepsReplicas_executeCmd (r := r) h
  have hpre : ∀ err, KeepsReplicas (r.preprocessWriteIntentError pusheeTxn err) := by
    intro err
    unfold Replica.preprocessWriteIntentError
    cases err
    case writeIntent wiErr =>
      simp only
      cases pusheeTxn.find? fun t => wiErr.intent.txn.id = t.id with
      | none => exact keepsReplicas_pure _
      | some txn => exact (keepsReplicas_onEngine _).bind fun _ => keepsReplicas_pure _
    all_goals exact keepsReplicas_pure _
  have hout : KeepsReplicas (outcome (r.executeCmd request)) := fun R =>
    ((hexec R).outcome).imp (fun _ h => h) (fun res s hs => by cases res <;> exact hs)
      fun _ _ h => h
  refine hout.bind fun res => ?_
  cases res with
  | ok resp => exact keepsReplicas_pure _
  | error err =>
    refine (hpre err).bind fun resolved => ?_
    cases resolved
    · exact keepsReplicas_throw _
    · exact hexec

/-- **A batch of writes leaves the replicas alone.** -/
lemma keepsReplicas_execute [Backend] (pusheeTxn : List Transaction) {l : List Request}
    (h : ∀ request ∈ l, request.OnKeys S) : KeepsReplicas (execute id pusheeTxn l) := by
  induction l with
  | nil => exact keepsReplicas_pure _
  | cons request l ih =>
    have hget : KeepsReplicas (getReplica id) := by
      intro R s hs
      rw [getReplica_run]
      cases s.replicas id <;> exact hs
    refine hget.bind fun r => ?_
    refine (keepsReplicas_applyRequest pusheeTxn (h request List.mem_cons_self)).bind fun _ => ?_
    exact (ih fun q hq => h q (.tail _ hq)).bind fun _ => keepsReplicas_pure _

lemma KeepsReplicas.after {m : StoreM α} (h : KeepsReplicas m) (s : Store) :
    (stateAfter m s).replicas = s.replicas := by
  have hm := h s.replicas s rfl
  unfold stateAfter
  cases hrun : m s <;> rw [hrun] at hm <;> exact hm

end Keep

/-! ### Installing a snapshot -/

/-- The keys of a range. -/
def RangeDescriptor.keys (d : RangeDescriptor) : Set Key := {k | d.startKey ≤ k ∧ k < d.endKey}

section Install

attribute [local instance] Backend.ordered

variable {l : List (MVCCKey × Entry)} {eng leader : Engine} {x : MVCCKey} {e : Entry} {k : Key}

lemma get_putPairs_of_notMem (h : x ∉ l.map Prod.fst) :
    (l.foldl (fun eng kv => eng.put kv.1 kv.2) eng).get x = eng.get x := by
  induction l generalizing eng with
  | nil => rfl
  | cons p l ih =>
    rw [List.map_cons, List.mem_cons, not_or] at h
    rw [List.foldl_cons, ih h.2, OrdMap.get_put, if_neg h.1]

lemma get_putPairs_of_mem (hl : l.Pairwise fun a b => a.1 < b.1) (h : (x, e) ∈ l) :
    (l.foldl (fun eng kv => eng.put kv.1 kv.2) eng).get x = some e := by
  induction l generalizing eng with
  | nil => cases h
  | cons p l ih =>
    obtain ⟨hhd, htl⟩ := List.pairwise_cons.mp hl
    rw [List.foldl_cons]
    rcases List.mem_cons.mp h with rfl | h
    · rw [get_putPairs_of_notMem, OrdMap.get_put, if_pos rfl]
      intro hmem
      obtain ⟨q, hq, hqx⟩ := List.mem_map.mp hmem
      exact absurd (hhd q hq) (by rw [hqx]; exact lt_irrefl _)
    · exact ih htl h

/-- Raft keeps its indexes below the keys of records and users. -/
lemma indexKey_ne {p t : Bytes} (hk : txnPrefix ≤ k) (hx : x ∈ entryKeys k) :
    x ≠ newMVCCKey (newKey [systemPrefix ++ p, t]) := by
  rintro rfl
  have hkey := entryKeys_inj hx (metaKey_mem _)
  rw [hkey] at hk
  refine absurd hk (not_le.mpr ?_)
  simp [newKey, systemPrefix, txnPrefix, List.cons_lt_cons_iff]

variable {r r' : RaftReplica} {snap : RaftSnapshot} {st : St}

/-- Bounds without zero bytes take an entry exactly if they take its key. -/
lemma rawIn_entry (hs : 0 ∉ r.rangeDesc.startKey) (he : 0 ∉ r.rangeDesc.endKey)
    (hx : x ∈ entryKeys k) : rawIn r.toReplica x = true ↔ k ∈ r.rangeDesc.keys := by
  obtain ⟨w, rfl⟩ := entryKeys_eq hx
  rw [rawIn, decide_eq_true_iff, ← not_lt, encodeBytes_lt_raw_iff hs, encodeBytes_lt_raw_iff he,
    not_lt]
  rfl

/-- **The entries of the range are those of the snapshot.** -/
lemma applySnapshot_get (hdata : snap.data = r.toReplica.data leader)
    (hs : 0 ∉ r.rangeDesc.startKey) (he : 0 ∉ r.rangeDesc.endKey) (hk : k ∈ r.rangeDesc.keys)
    (hlow : txnPrefix ≤ k) (hx : x ∈ entryKeys k) :
    (r.applySnapshot snap st).2.eng.get x = leader.get x := by
  have hraw : rawIn r.toReplica x = true := (rawIn_entry hs he hx).mpr hk
  have hclear : (r.clear st.eng).get x = none := by
    by_contra hne
    obtain ⟨v, hv⟩ := Option.ne_none_iff_exists'.mp hne
    rw [← OrdMap.mem_entries_iff, clear_eq, List.mem_filter, hraw] at hv
    exact absurd hv.2 (by simp)
  have hput : (snap.data.foldl (fun eng kv => eng.put kv.1 kv.2) (r.clear st.eng)).get x =
      leader.get x := by
    rw [hdata, data_eq]
    have hsorted := leader.sorted.filter fun e => rawIn r.toReplica e.1
    cases hg : leader.get x with
    | some v =>
      refine get_putPairs_of_mem hsorted (List.mem_filter.mpr ⟨?_, hraw⟩)
      exact leader.mem_entries_iff.mpr hg
    | none =>
      rw [get_putPairs_of_notMem, hclear]
      intro hmem
      obtain ⟨⟨y, v⟩, hy, rfl⟩ := List.mem_map.mp hmem
      rw [leader.mem_entries_iff.mp (List.mem_filter.mp hy).1] at hg
      cases hg
  have heng : (r.applySnapshot snap st).2.eng = putIndex (putIndex
      (snap.data.foldl (fun eng kv => eng.put kv.1 kv.2) (r.clear st.eng))
      (raftLastIndexKey r.rangeID) snap.index) (raftAppliedIndexKey r.rangeID) snap.index := rfl
  have hlast : x ≠ raftLastIndexKey r.rangeID := indexKey_ne hlow hx
  have happlied : x ≠ raftAppliedIndexKey r.rangeID := indexKey_ne hlow hx
  rw [heng, get_putIndex_of_ne _ happlied, get_putIndex_of_ne _ hlast, hput]

/-- What else the engine holds from `txnPrefix` on was there before or is of the snapshot. -/
lemma applySnapshot_encoded (hdata : snap.data = r.toReplica.data leader)
    (heng : DataEncoded st.eng) (hleader : DataEncoded leader) :
    DataEncoded (r.applySnapshot snap st).2.eng := by
  have hput : DataEncoded
      (snap.data.foldl (fun eng kv => eng.put kv.1 kv.2) (r.clear st.eng)) := by
    intro x e hx hlow
    by_cases hmem : x ∈ snap.data.map Prod.fst
    · obtain ⟨⟨y, v⟩, hy, rfl⟩ := List.mem_map.mp hmem
      rw [hdata, data_eq] at hy
      exact hleader y v (leader.mem_entries_iff.mp (List.mem_filter.mp hy).1) hlow
    · rw [get_putPairs_of_notMem hmem, ← OrdMap.mem_entries_iff, clear_eq] at hx
      exact heng x e (st.eng.mem_entries_iff.mp (List.mem_filter.mp hx).1) hlow
  exact (hput.put (metaKey_mem _) _).put (metaKey_mem _) _

/-- **A snapshot brings the keys of the range to where the other replica has them.** -/
lemma applySnapshot_agreeOn {d : RangeDescriptor} {eng' : Engine}
    (hr : r.toReplica = ⟨d.rangeID, d⟩) (h : AgreeOn d.keys st.eng eng)
    (h' : AgreeOn d.keys leader eng') (hs : 0 ∉ d.startKey) (he : 0 ∉ d.endKey)
    (hdata : snap.data = Replica.data ⟨d.rangeID, d⟩ leader) :
    AgreeOn d.keys (r.applySnapshot snap st).2.eng eng' := by
  rw [← hr] at hdata
  have hdesc : r.rangeDesc = d := by rw [hr]
  have hget : ∀ k ∈ d.keys, ∀ x ∈ entryKeys k,
      (r.applySnapshot snap st).2.eng.get x = leader.get x := fun k hk x hx =>
    applySnapshot_get hdata (by rw [hdesc]; exact hs) (by rw [hdesc]; exact he)
      (by rw [hdesc]; exact hk) (h.data k hk) hx
  have hagree : AgreeOn d.keys (r.applySnapshot snap st).2.eng leader := by
    refine ⟨applySnapshot_encoded hdata h.encoded h'.encoded, h'.encoded, h.data, hget,
      fun k hk rec hrec => ?_⟩
    rw [hget k hk _ (metaKey_mem k)] at hrec
    exact h'.records k hk rec hrec
  exact hagree.trans h'

end Install

/-! ### The log and the applied index -/

/-- The first element above `i` splits an increasing list: those before it are the ones up to
`i`. -/
lemma next_split {α : Type} {l : List α} {index : α → UInt64} {i : UInt64} {x : α}
    (h : l.Pairwise fun a b => index a < index b)
    (hnext : l.find? (fun a => decide (i < index a)) = some x) :
    ∃ l₁ l₂, l = l₁ ++ x :: l₂ ∧ i < index x ∧ (l.filter fun a => decide (index a ≤ i)) = l₁ ∧
      (l.filter fun a => decide (index a ≤ index x)) = l₁ ++ [x] := by
  obtain ⟨hlt, l₁, l₂, rfl, hl₁⟩ := List.find?_eq_some_iff_append.mp hnext
  have hlt : i < index x := by simpa using hlt
  obtain ⟨-, hpair, -⟩ := List.pairwise_append.mp h
  have hbefore : ∀ a ∈ l₁, index a ≤ i := fun a ha => by simpa using hl₁ a ha
  have hafter : ∀ a ∈ l₂, index x < index a := (List.pairwise_cons.mp hpair).1
  have hfirst : ∀ j, i ≤ j → l₁.filter (fun a => decide (index a ≤ j)) = l₁ := fun j hj =>
    List.filter_eq_self.mpr fun a ha => by simpa using UInt64.le_trans (hbefore a ha) hj
  have hlast : ∀ j, j ≤ index x → l₂.filter (fun a => decide (index a ≤ j)) = [] := fun j hj =>
    List.filter_eq_nil_iff.mpr fun a ha => by
      simpa using UInt64.lt_of_le_of_lt hj (hafter a ha)
  have hle := UInt64.le_of_lt hlt
  refine ⟨l₁, l₂, rfl, hlt, ?_, ?_⟩
  · simp [hfirst i UInt64.le_rfl, hlast i hle, hlt]
  · simp [hfirst (index x) hle, hlast (index x) UInt64.le_rfl]

section Applied

variable {d : RangeDescriptor} {m : Member}

lemma readIndex_eq {cut : UInt64 × UInt64}
    (hload : m.raft.loadAppliedIndex m.store.eng = .ok m.raft.raftAppliedIndex)
    (hcut : m.readIndex.toOption = some cut) : cut.1 = m.raft.raftAppliedIndex := by
  simp only [Member.readIndex, hload, bind, Except.bind] at hcut
  cases hterm : m.raft.term m.store.eng m.raft.raftAppliedIndex with
  | error e => simp [hterm, Except.toOption] at hcut
  | ok term =>
    simp only [hterm, pure, Except.pure, Except.toOption, Option.some.injEq] at hcut
    rw [← hcut]

lemma applySnapshot_agree [Backend] (hengine : Backend.Documented) {r : RaftReplica}
    {snap : RaftSnapshot} {eng eng' other : Engine} (st : St) (hr : r.toReplica = ⟨d.rangeID, d⟩)
    (h : AgreeOn d.keys st.eng eng) (h' : AgreeOn d.keys other eng') (hs : 0 ∉ d.startKey)
    (he : 0 ∉ d.endKey) (hdata : snap.data = Replica.data ⟨d.rangeID, d⟩ other) :
    AgreeOn d.keys (r.applySnapshot snap st).2.eng eng' := by
  obtain rfl := hengine.eq_ordered
  exact applySnapshot_agreeOn hr h h' hs he hdata

/-- A replica that starts again has the applied index of before. -/
lemma newReplica_applied {r : RaftReplica} {eng : Engine} (hr : r.toReplica = ⟨d.rangeID, d⟩)
    (hload : r.loadAppliedIndex eng = .ok r.raftAppliedIndex) :
    (RaftReplica.newReplica r.rangeDesc eng).toReplica = ⟨d.rangeID, d⟩ ∧
      (RaftReplica.newReplica r.rangeDesc eng).raftAppliedIndex = r.raftAppliedIndex ∧
      (RaftReplica.newReplica r.rangeDesc eng).loadAppliedIndex eng = .ok r.raftAppliedIndex := by
  have hdesc : r.rangeDesc = d := by rw [hr]
  have hid : r.rangeID = d.rangeID := by rw [hr]
  rw [RaftReplica.loadAppliedIndex, hid] at hload
  refine ⟨?_, ?_, ?_⟩
  · show (⟨r.rangeDesc.rangeID, r.rangeDesc⟩ : Replica) = _
    rw [hdesc]
  · simp [RaftReplica.newReplica, RaftReplica.loadRaftPrevIndex, RaftReplica.loadAppliedIndex,
      hdesc, hload, Except.toOption]
  · rw [← hload]
    show loadIndex _ (raftAppliedIndexKey r.rangeDesc.rangeID) = _
    rw [hdesc]

/-- A replica that has applied nothing. -/
structure Member.Fresh (d : RangeDescriptor) (s₀ : Store) (m : Member) : Prop where
  replica : m.raft.toReplica = ⟨d.rangeID, d⟩
  applied : m.raft.raftAppliedIndex = 0
  persisted : m.raft.loadAppliedIndex m.store.eng = .ok 0
  agree : AgreeStores d.keys {d.rangeID} ∅ m.store s₀
  cut : m.cut = none

end Applied

namespace Replication

/-- Node 1 has the range only, every other node has something of another range too. -/
def member (i : NodeID) : Member where
  raft := { rangeID := 7, rangeDesc := desc }
  store := node (if i = 1 then .empty else others)

lemma member_fresh (i : NodeID) : (member i).Fresh desc (node .empty) where
  replica := rfl
  applied := rfl
  persisted := by
    by_cases hi : i = 1
    · simp only [member, if_pos hi]
      rfl
    · simp only [member, if_neg hi]
      decide +kernel
  agree := by
    have hkeys : desc.keys = keys := by
      ext k
      simp [RangeDescriptor.keys, keys, RangeDescriptor.Covers, desc]
    have hagree := agree_others
    rw [← hkeys] at hagree
    by_cases hi : i = 1
    · simp only [member, if_pos hi]
      exact ⟨hagree.agree.trans hagree.agree.symm, fun _ _ => rfl, fun _ _ => rfl⟩
    · simp only [member, if_neg hi]
      exact ⟨hagree.agree.symm, fun _ _ => rfl, fun _ _ => rfl⟩
  cut := rfl

end Replication

end Ancestor
