import Ancestor.Badger

/-!
The three handles of the engine (`storage/engine/badger.go`): the database, a snapshot and a
batch, and what they answer for a key that is not there.

All three read through a badger transaction, which answers `ErrKeyNotFound`. `getInternal` turns
this into a nil value, and `getProtoInternal` takes every nil error for a key it has found. A
batch has a `Get` of its own, which returns the error as it is.
-/

namespace Ancestor.Badger

/-! ### Reads of a transaction -/

inductive BadgerError
  | keyNotFound
  | discardedTxn
  deriving DecidableEq, Repr

/-- A badger transaction with the database as it was when the transaction began. -/
structure Handle (K V : Type*) [LinearOrder K] where
  db : OrdMap K V
  txn : Txn K V := {}
  discarded : Bool := false

section Reads

variable {K V : Type*} [LinearOrder K]

/-- The last write of a key. -/
def Txn.pending (txn : Txn K V) (k : K) : Option (Option V) :=
  (txn.writes.reverse.find? fun w => decide (w.1 = k)).map Prod.snd

/-- What a transaction sees: its own writes, and the database below them. -/
def Handle.view (h : Handle K V) (k : K) : Option V := (h.txn.pending k).getD (h.db.get k)

def Handle.get (h : Handle K V) (k : K) : Except BadgerError V :=
  if h.discarded then .error .discardedTxn else (h.view k).elim (.error .keyNotFound) .ok

lemma overwrite_append (m : K → Option V) (writes : List (K × Option V)) (w : K × Option V) :
    overwrite m (writes ++ [w]) = Function.update (overwrite m writes) w.1 w.2 := by
  simp [overwrite]

/-- **A transaction sees what its commit will leave.** -/
lemma view_eq_commit (db : OrdMap K V) (txn : Txn K V) (discarded : Bool) :
    (Handle.mk db txn discarded).view = (txn.commit db).get := by
  rw [get_commit]
  obtain ⟨writes⟩ := txn
  funext k
  unfold Handle.view Txn.pending
  -- the last write decides, so the induction takes the writes from the end
  induction writes using List.reverseRecOn with
  | nil => rfl
  | append_singleton writes w ih =>
    rw [overwrite_append, List.reverse_append, List.reverse_singleton, List.singleton_append]
    by_cases hk : w.1 = k
    · subst hk
      simp
    · rw [List.find?_cons_of_neg (by simpa using hk), ih, Function.update_of_ne (Ne.symm hk)]

end Reads

/-! ### The handles -/

inductive HandleError
  | engine (e : EngineError)
  | badger (e : BadgerError)
  | annotated (e : BadgerError) (key : MVCCKey)
  | unmarshal (msg : String)
  deriving DecidableEq, Repr

/-- The results of `GetProto`, and what it has unmarshalled into the message. -/
structure ProtoResult (μ : Type) where
  ok : Bool := false
  keyBytes : Int64 := 0
  valBytes : Int64 := 0
  err : Option HandleError := none
  msg : Option μ := none

/-- The end of `GetProto`. No message is to be filled if there is no `unmarshal`. -/
def ProtoResult.found {μ : Type} (unmarshal : Option (Bytes → Except String μ)) (key : MVCCKey)
    (data : Option Bytes) : ProtoResult μ :=
  let res : ProtoResult μ :=
    { ok := true
      keyBytes := Int64.ofNat key.length
      valBytes := Int64.ofNat (data.getD []).length }
  match unmarshal with
  | none => res
  | some unmarshal =>
    match unmarshal (data.getD []) with
    | .ok msg => { res with msg := some msg }
    | .error msg => { res with err := some (.unmarshal msg) }

namespace RocksDB

def newTransaction (r : RocksDB) : Handle MVCCKey Bytes := ⟨r.rdb, {}, false⟩

def getInternal (r : RocksDB) (key : MVCCKey) (txn : Option (Handle MVCCKey Bytes)) :
    Except HandleError (Option Bytes) :=
  if key.length = 0 then .error (.engine .emptyKey)
  else
    match (txn.getD r.newTransaction).get key with
    | .ok value => .ok (some value)
    | .error .keyNotFound => .ok none
    | .error e => .error (.annotated e key)

def getProtoInternal {μ : Type} (r : RocksDB) (key : MVCCKey)
    (unmarshal : Option (Bytes → Except String μ)) (txn : Option (Handle MVCCKey Bytes)) :
    ProtoResult μ :=
  if key.length = 0 then { err := some (.engine .emptyKey) }
  else
    match r.getInternal key txn with
    | .error e => { err := some e }
    | .ok data => .found unmarshal key data

def getProto {μ : Type} (r : RocksDB) (key : MVCCKey)
    (unmarshal : Option (Bytes → Except String μ)) : ProtoResult μ :=
  r.getProtoInternal key unmarshal none

end RocksDB

structure RocksDBSnapshot where
  parent : RocksDB
  handle : Handle MVCCKey Bytes

def RocksDB.newSnapshot (r : RocksDB) : RocksDBSnapshot := ⟨r, r.newTransaction⟩

namespace RocksDBSnapshot

def get (r : RocksDBSnapshot) (key : MVCCKey) : Except HandleError (Option Bytes) :=
  r.parent.getInternal key (some r.handle)

def getProto {μ : Type} (r : RocksDBSnapshot) (key : MVCCKey)
    (unmarshal : Option (Bytes → Except String μ)) : ProtoResult μ :=
  r.parent.getProtoInternal key unmarshal (some r.handle)

end RocksDBSnapshot

structure RocksDBBatch where
  parent : RocksDB
  batch : Handle MVCCKey Bytes

/-- A batch over the database, with the writes made on it. -/
def RocksDB.batchWith (r : RocksDB) (txn : Txn MVCCKey Bytes) : RocksDBBatch :=
  ⟨r, { r.newTransaction with txn := txn }⟩

namespace RocksDBBatch

def get (r : RocksDBBatch) (key : MVCCKey) : Except HandleError (Option Bytes) :=
  if key.length = 0 then .error (.engine .emptyKey)
  else
    match r.batch.get key with
    | .ok value => .ok (some value)
    | .error e => .error (.badger e)

def getProto {μ : Type} (r : RocksDBBatch) (key : MVCCKey)
    (unmarshal : Option (Bytes → Except String μ)) : ProtoResult μ :=
  if key.length = 0 then { err := some (.engine .emptyKey) }
  else
    match r.get key with
    | .error e => { err := some e }
    | .ok data => .found unmarshal key data

end RocksDBBatch

/-! ### What they answer -/

section Answers

variable {μ : Type} {r : RocksDB} {key : MVCCKey} {unmarshal : Option (Bytes → Except String μ)}

lemma newTransaction_get (r : RocksDB) (key : MVCCKey) :
    r.newTransaction.get key = (r.rdb.get key).elim (.error .keyNotFound) .ok := rfl

@[simp] lemma found_ok (data : Option Bytes) :
    (ProtoResult.found unmarshal key data).ok = true := by
  unfold ProtoResult.found
  cases unmarshal with
  | none => rfl
  | some unmarshal => cases hdata : unmarshal (data.getD []) <;> simp [hdata]

/-- The database answers with what it holds, nil for what it does not: this is `RocksDB.get`. -/
lemma getInternal_none (hkey : key ≠ []) : r.getInternal key none = .ok (r.rdb.get key) := by
  rw [RocksDB.getInternal, if_neg (List.length_eq_zero_iff.not.mpr hkey), Option.getD_none,
    newTransaction_get]
  cases r.rdb.get key <;> rfl

lemma getInternal_eq_get (r : RocksDB) (key : MVCCKey) :
    r.getInternal key none = (r.get key).mapError HandleError.engine := by
  by_cases hkey : key = []
  · subst hkey
    rfl
  · rw [getInternal_none hkey, RocksDB.get, if_neg (List.length_eq_zero_iff.not.mpr hkey)]
    rfl

lemma getProto_ok (hkey : key ≠ []) : (r.getProto key unmarshal).ok = true := by
  rw [RocksDB.getProto, RocksDB.getProtoInternal, if_neg (List.length_eq_zero_iff.not.mpr hkey),
    getInternal_none hkey]
  exact found_ok _

/-- A batch answers with what its commit will leave, and with an error for a key that will not be
there. -/
lemma batch_get (txn : Txn MVCCKey Bytes) (hkey : key ≠ []) : (r.batchWith txn).get key =
    ((txn.commit r.rdb).get key).elim (.error (.badger .keyNotFound)) (.ok ∘ some) := by
  have hview : (r.batchWith txn).batch.view key = (txn.commit r.rdb).get key :=
    congrFun (view_eq_commit r.rdb txn false) key
  have hget : (r.batchWith txn).batch.get key =
      ((r.batchWith txn).batch.view key).elim (.error .keyNotFound) .ok := rfl
  rw [RocksDBBatch.get, if_neg (List.length_eq_zero_iff.not.mpr hkey), hget, hview]
  cases (txn.commit r.rdb).get key <;> rfl

lemma batch_getProto_ok (txn : Txn MVCCKey Bytes) (hkey : key ≠ []) :
    ((r.batchWith txn).getProto key unmarshal).ok = ((txn.commit r.rdb).get key).isSome := by
  rw [RocksDBBatch.getProto, if_neg (List.length_eq_zero_iff.not.mpr hkey), batch_get txn hkey]
  cases (txn.commit r.rdb).get key with
  | none => rfl
  | some v => exact found_ok _

end Answers

/-! ### Absent keys -/

/-- A write on a batch. -/
inductive Write
  | put (key : MVCCKey) (value : Bytes)
  | clear (key : MVCCKey)
  deriving DecidableEq, Repr

def Write.action (b : BatchID) : Write → Action
  | .put key value => .batchPut b key value
  | .clear key => .batchClear b key

/-- The handles answer alike. The batch has the writes of `txn`, and `committed` is its parent
after the commit. -/
structure Alike {μ : Type} (r committed : RocksDB) (txn : Txn MVCCKey Bytes) (key : MVCCKey)
    (unmarshal : Option (Bytes → Except String μ)) : Prop where
  snapshot : r.newSnapshot.get key = r.getInternal key none
  fresh : (r.batchWith {}).get key = r.getInternal key none
  absent : r.rdb.get key = none → r.getInternal key none = .ok none
  batch : (r.batchWith txn).get key = committed.getInternal key none
  proto : (r.getProto key unmarshal).ok = true ↔ (r.rdb.get key).isSome
  protoSnapshot : (r.newSnapshot.getProto key unmarshal).ok = true ↔ (r.rdb.get key).isSome
  protoBatch : ((r.batchWith txn).getProto key unmarshal).ok = true ↔
    (committed.rdb.get key).isSome

section Run

variable {r : RocksDB} {b : BatchID}

/-- The batch is open over a database that nothing has changed. -/
def Open (r : RocksDB) (b : BatchID) (r' : RocksDB) : Prop :=
  r'.rdb = r.rdb ∧ ∃ txn, r'.batch b = some txn

lemma Open.set {r' : RocksDB} (h : Open r b r') (txn : Txn MVCCKey Bytes) :
    Open r b (r'.setBatch b (some txn)) :=
  ⟨h.1, txn, Function.update_self ..⟩

lemma open_write {r' : RocksDB} (h : Open r b r') (w : Write) :
    ∃ r'', r'.step (w.action b) = some r'' ∧ Open r b r'' := by
  obtain ⟨txn, htxn⟩ := h.2
  cases w with
  | put key value =>
    refine ⟨_, by rw [Write.action, RocksDB.step, htxn, Option.map_some], ?_⟩
    by_cases hkey : key.length = 0
    · rw [RocksDB.batchPut, if_pos hkey]
      exact h
    · rw [RocksDB.batchPut, if_neg hkey]
      exact h.set _
  | clear key =>
    refine ⟨_, by rw [Write.action, RocksDB.step, htxn, Option.map_some], ?_⟩
    by_cases hkey : key.length = 0
    · rw [RocksDB.batchClear, if_pos hkey]
      exact h
    · rw [RocksDB.batchClear, if_neg hkey]
      exact h.set _

/-- Any writes can be made on a new batch, and they leave the database. -/
lemma run_writes (r : RocksDB) (b : BatchID) (ops : List Write) :
    ∃ r', Steps.run RocksDB.step (r.newBatch b) (ops.map (Write.action b)) = some r' ∧
      Open r b r' := by
  have hnew : Open r b (r.newBatch b) := ⟨rfl, _, Function.update_self ..⟩
  refine Steps.progress (C := fun _ a => ∃ w, a = Write.action b w) ?_ hnew ?_
  · rintro r' a hopen ⟨w, rfl⟩
    exact open_write hopen w
  · have hD : ∀ a ∈ ops.map (Write.action b), ∃ w, a = Write.action b w := by
      intro a ha
      obtain ⟨w, -, rfl⟩ := List.mem_map.mp ha
      exact ⟨w, rfl⟩
    exact ((Steps.along_of_forall (C := fun _ _ => True) (fun _ _ => trivial) _ _).and_forall
      hD).imp fun _ _ h => h.1

end Run

/-- **When the handles answer alike:** for a key that is there, before and after the batch. -/
theorem handles_alike_iff {μ : Type} (r : RocksDB) (b : BatchID) (ops : List Write)
    (key : MVCCKey) (hkey : key ≠ []) (unmarshal : Option (Bytes → Except String μ)) :
    ∃ r' txn committed,
      Steps.run RocksDB.step (r.newBatch b) (ops.map (Write.action b)) = some r' ∧
      r'.batch b = some txn ∧ r'.step (.commit b) = some committed ∧
      (Alike r committed txn key unmarshal ↔
        (r.rdb.get key).isSome ∧ (committed.rdb.get key).isSome) := by
  obtain ⟨r', hrun, hdb, txn, htxn⟩ := run_writes r b ops
  have hcommit : r'.step (.commit b) = some (r'.commit b txn) := by
    rw [RocksDB.step, htxn, Option.map_some]
  have hrdb : (r'.commit b txn).rdb = txn.commit r.rdb := by rw [← hdb]; rfl
  refine ⟨r', txn, r'.commit b txn, hrun, htxn, hcommit, ?_⟩
  constructor
  · intro h
    have hfound : (r.rdb.get key).isSome := h.proto.mp (getProto_ok hkey)
    refine ⟨hfound, ?_⟩
    have hbatch := h.batch
    rw [batch_get txn hkey, getInternal_none hkey, hrdb] at hbatch
    rw [hrdb]
    cases hget : (txn.commit r.rdb).get key with
    | some v => rfl
    | none =>
      rw [hget] at hbatch
      cases hbatch
  · rintro ⟨hdb, hcommitted⟩
    obtain ⟨v, hv⟩ := Option.isSome_iff_exists.mp hdb
    obtain ⟨w, hw⟩ := Option.isSome_iff_exists.mp hcommitted
    have hw' : (txn.commit r.rdb).get key = some w := hrdb ▸ hw
    refine ⟨rfl, ?_, fun h => ?_, ?_, ?_, ?_, ?_⟩
    · rw [batch_get {} hkey, getInternal_none hkey, hv]
      exact congrArg (Option.elim · _ _) hv
    · rw [hv] at h
      cases h
    · rw [batch_get txn hkey, getInternal_none hkey, hw, hw']
      rfl
    · exact iff_of_true (getProto_ok hkey) hdb
    · exact iff_of_true (getProto_ok hkey) hdb
    · rw [batch_getProto_ok txn hkey, hrdb]

/-- A database with one key. -/
def oneKey : RocksDB := { rdb := OrdMap.empty.put [1] [7] }

/-- The key is there, and the batch overwrites it. -/
theorem handles_alike_overwritten : ∃ r' txn committed,
    Steps.run RocksDB.step (oneKey.newBatch 0) [.batchPut 0 [1] [8], .batchClear 0 [2]] =
        some r' ∧
      r'.batch 0 = some txn ∧ r'.step (.commit 0) = some committed ∧
      Alike oneKey committed txn [1] (some fun b => Except.ok (ε := String) b) := by
  obtain ⟨r', txn, committed, hrun, htxn, hcommit, hiff⟩ :=
    handles_alike_iff oneKey 0 [.put [1] [8], .clear [2]] [1] (by decide)
      (some fun b => Except.ok (ε := String) b)
  refine ⟨r', txn, committed, hrun, htxn, hcommit, hiff.mpr ⟨by decide, ?_⟩⟩
  cases hrun
  cases hcommit
  decide

/-- A key that is not there: the database and a snapshot answer nil, a batch an error; and
`GetProto` has found it on the first two. -/
theorem handles_differ_absent :
    oneKey.getInternal [2] none = .ok none ∧ oneKey.newSnapshot.get [2] = .ok none ∧
      (oneKey.batchWith {}).get [2] = .error (.badger .keyNotFound) ∧
      (oneKey.getProto (μ := Unit) [2] none).ok = true ∧
      (oneKey.newSnapshot.getProto (μ := Unit) [2] none).ok = true ∧
      ((oneKey.batchWith {}).getProto (μ := Unit) [2] none).ok = false ∧
      ¬ Alike (μ := Unit) oneKey oneKey {} [2] none := by
  refine ⟨by decide, by decide, by decide, by decide, by decide, by decide, fun h => ?_⟩
  exact absurd h.fresh (by decide)

end Ancestor.Badger
