import Ancestor.Engine
import Ancestor.Lib.Steps

/-!
The engine over badger (`storage/engine/badger.go`), against a map.

A badger transaction keeps its writes to itself and they become visible when it commits.
`Put` runs in a transaction that `Update` commits, and a batch is a transaction that `Commit`
commits and `Close` discards. `Clear` deletes in a transaction of its own that nothing commits.
-/

namespace Ancestor.Badger

/-! ### Transactions over a map -/

section Transactions

variable {K V : Type*} [LinearOrder K]

/-- The writes of a read-write transaction, the latest last. -/
structure Txn (K V : Type*) where
  writes : List (K × Option V) := []

def Txn.set (txn : Txn K V) (k : K) (v : V) : Txn K V := ⟨txn.writes ++ [(k, some v)]⟩

def Txn.delete (txn : Txn K V) (k : K) : Txn K V := ⟨txn.writes ++ [(k, none)]⟩

def applyWrite (db : OrdMap K V) : K × Option V → OrdMap K V
  | (k, some v) => db.put k v
  | (k, none) => db.clear k

def Txn.commit (txn : Txn K V) (db : OrdMap K V) : OrdMap K V := txn.writes.foldl applyWrite db

/-- `DB.Update`: a new transaction, committed at the end. -/
def update (db : OrdMap K V) (f : Txn K V → Txn K V) : OrdMap K V := (f {}).commit db

/-- A map after some writes. -/
def overwrite (m : K → Option V) (writes : List (K × Option V)) : K → Option V :=
  writes.foldl (fun m w => Function.update m w.1 w.2) m

lemma get_applyWrite (db : OrdMap K V) (w : K × Option V) :
    (applyWrite db w).get = Function.update db.get w.1 w.2 := by
  obtain ⟨k, v⟩ := w
  funext k'
  cases v <;> simp [applyWrite, Function.update_apply]

/-- **A commit overwrites the map.** -/
lemma get_commit (txn : Txn K V) (db : OrdMap K V) :
    (txn.commit db).get = overwrite db.get txn.writes := by
  obtain ⟨writes⟩ := txn
  unfold Txn.commit overwrite
  induction writes generalizing db with
  | nil => rfl
  | cons w writes ih => rw [List.foldl_cons, List.foldl_cons, ih, get_applyWrite]

/-- Two maps that agree on a key agree on it after the same writes. -/
lemma overwrite_congr {m m' : K → Option V} {k : K} (h : m k = m' k)
    (writes : List (K × Option V)) : overwrite m writes k = overwrite m' writes k := by
  unfold overwrite
  induction writes generalizing m m' with
  | nil => exact h
  | cons w writes ih =>
    refine ih ?_
    simp only [Function.update_apply, h]

lemma update_eq_overwrite [DecidableEq K] (m : K → Option V) (k : K) (v : Option V) :
    Function.update m k v = overwrite m [(k, v)] := by
  funext k'
  simp [overwrite, Function.update_apply]

end Transactions

/-! ### The engine -/

abbrev BatchID := ℕ

inductive EngineError
  | emptyKey
  deriving DecidableEq, Repr

/-- The database, the batches that are open, and the transactions that nobody finishes. -/
structure RocksDB where
  rdb : OrdMap MVCCKey Bytes := .empty
  batch : BatchID → Option (Txn MVCCKey Bytes) := fun _ => none
  abandoned : List (Txn MVCCKey Bytes) := []

namespace RocksDB

def put (r : RocksDB) (key : MVCCKey) (value : Bytes) : Except EngineError RocksDB :=
  if key.length = 0 then .error .emptyKey
  else .ok { r with rdb := update r.rdb fun txn => txn.set key value }

def get (r : RocksDB) (key : MVCCKey) : Except EngineError (Option Bytes) :=
  if key.length = 0 then .error .emptyKey else .ok (r.rdb.get key)

def clear (r : RocksDB) (key : MVCCKey) : Except EngineError RocksDB :=
  if key.length = 0 then .error .emptyKey
  else .ok { r with abandoned := Txn.delete {} key :: r.abandoned }

def newBatch (r : RocksDB) (b : BatchID) : RocksDB :=
  { r with batch := Function.update r.batch b (some {}) }

def setBatch (r : RocksDB) (b : BatchID) (txn : Option (Txn MVCCKey Bytes)) : RocksDB :=
  { r with batch := Function.update r.batch b txn }

def batchPut (r : RocksDB) (b : BatchID) (txn : Txn MVCCKey Bytes) (key : MVCCKey)
    (value : Bytes) : Except EngineError RocksDB :=
  if key.length = 0 then .error .emptyKey else .ok (r.setBatch b (some (txn.set key value)))

def batchClear (r : RocksDB) (b : BatchID) (txn : Txn MVCCKey Bytes) (key : MVCCKey) :
    Except EngineError RocksDB :=
  if key.length = 0 then .error .emptyKey else .ok (r.setBatch b (some (txn.delete key)))

def commit (r : RocksDB) (b : BatchID) (txn : Txn MVCCKey Bytes) : RocksDB :=
  { r.setBatch b none with rdb := txn.commit r.rdb }

end RocksDB

inductive Action
  | put (key : MVCCKey) (value : Bytes)
  | clear (key : MVCCKey)
  | newBatch (b : BatchID)
  | batchPut (b : BatchID) (key : MVCCKey) (value : Bytes)
  | batchClear (b : BatchID) (key : MVCCKey)
  | commit (b : BatchID)
  | close (b : BatchID)
  deriving DecidableEq, Repr

/-- A call that returns an error changes nothing. -/
def RocksDB.after (r : RocksDB) : Except EngineError RocksDB → RocksDB
  | .ok r' => r'
  | .error _ => r

/-- **The shipped engine** is the backend of the commands: `Put` changes the database as they take
it to, and `Clear` erases nothing. -/
theorem RocksDB.backend [Slices] (r : RocksDB) (key : MVCCKey) (value : Bytes) :
    (key ≠ [] → (r.after (r.put key value)).rdb = r.rdb.put key value) ∧
      (r.after (r.clear key)).rdb = @erase .badger Bytes r.rdb key := by
  refine ⟨fun h => ?_, ?_⟩
  · rw [RocksDB.put, if_neg (by simpa using h)]
    rfl
  · rw [RocksDB.clear, erase_badger]
    split_ifs <;> rfl

-- A batch that is not open is a nil pointer for `Put` and `Clear`, and a panic of `Commit`.
def RocksDB.step (r : RocksDB) : Action → Option RocksDB
  | .put key value => some (r.after (r.put key value))
  | .clear key => some (r.after (r.clear key))
  | .newBatch b => if r.batch b = none then some (r.newBatch b) else none
  | .batchPut b key value => (r.batch b).map fun txn => r.after (r.batchPut b txn key value)
  | .batchClear b key => (r.batch b).map fun txn => r.after (r.batchClear b txn key)
  | .commit b => (r.batch b).map fun txn => r.commit b txn
  | .close b => some (r.setBatch b none)

/-! ### The map -/

/-- What the engine is for: a map, and for every open batch the writes it is to make. -/
structure Ref where
  map : MVCCKey → Option Bytes := fun _ => none
  batch : BatchID → Option (List (MVCCKey × Option Bytes)) := fun _ => none

def Ref.write (m : Ref) (b : BatchID) (writes : List (MVCCKey × Option Bytes)) (key : MVCCKey)
    (value : Option Bytes) : Ref :=
  if key = [] then m
  else { m with batch := Function.update m.batch b (some (writes ++ [(key, value)])) }

def Ref.step (m : Ref) : Action → Option Ref
  | .put key value =>
    some (if key = [] then m else { m with map := Function.update m.map key (some value) })
  | .clear key => some (if key = [] then m else { m with map := Function.update m.map key none })
  | .newBatch b =>
    if m.batch b = none then some { m with batch := Function.update m.batch b (some []) } else none
  | .batchPut b key value => (m.batch b).map fun writes => m.write b writes key (some value)
  | .batchClear b key => (m.batch b).map fun writes => m.write b writes key none
  | .commit b => (m.batch b).map fun writes =>
      { map := overwrite m.map writes, batch := Function.update m.batch b none }
  | .close b => some { m with batch := Function.update m.batch b none }

/-- The engine and the map side by side. -/
structure State where
  engine : RocksDB := {}
  ref : Ref := {}

def State.step (σ : State) (a : Action) : Option State :=
  (σ.engine.step a).bind fun engine => (σ.ref.step a).map fun ref => ⟨engine, ref⟩

/-- Every `Get` answers with what the map holds. -/
def Agrees (σ : State) : Prop := ∀ key, key ≠ [] → σ.engine.get key = .ok (σ.ref.map key)

/-- A direct `Clear` is of a key that the map does not hold. -/
def ClearsAbsent (σ : State) : Action → Prop
  | .clear key => key ≠ [] → σ.ref.map key = none
  | _ => True

instance (σ : State) (a : Action) : Decidable (ClearsAbsent σ a) := by
  cases a <;> unfold ClearsAbsent <;> infer_instance

/-! ### One step -/

/-- The open batches are the same on both sides. -/
def Batches (σ : State) : Prop := ∀ b, σ.ref.batch b = (σ.engine.batch b).map Txn.writes

lemma agrees_iff {σ : State} :
    Agrees σ ↔ ∀ key, key ≠ [] → σ.engine.rdb.get key = σ.ref.map key := by
  refine forall_congr' fun key => imp_congr_right fun hkey => ?_
  have hlen := List.length_eq_zero_iff.not.mpr hkey
  rw [RocksDB.get, if_neg hlen, Except.ok.injEq]

section Step

variable {σ σ' : State}

lemma batches_update {r : RocksDB} {m : Ref} (h : Batches ⟨r, m⟩) (b : BatchID)
    (txn : Option (Txn MVCCKey Bytes)) (q : BatchID) :
    Function.update m.batch b (txn.map Txn.writes) q =
      (Function.update r.batch b txn q).map Txn.writes := by
  by_cases hq : q = b
  · subst hq
    simp
  · simpa [hq] using h q

/-- What a step does to the two maps: nothing, the same writes, or a `Clear` that only the map
sees. -/
inductive Effect (σ : State) : Action → State → Prop
  | same {a : Action} {σ' : State} (writes : List (MVCCKey × Option Bytes))
      (hget : σ'.engine.rdb.get = overwrite σ.engine.rdb.get writes)
      (hmap : σ'.ref.map = overwrite σ.ref.map writes) (hbatches : Batches σ')
      (hclear : ClearsAbsent σ a) : Effect σ a σ'
  | clear {σ' : State} (key : MVCCKey) (hkey : key ≠ []) (hget : σ'.engine.rdb = σ.engine.rdb)
      (hmap : σ'.ref.map = Function.update σ.ref.map key none) (hbatches : Batches σ') :
      Effect σ (.clear key) σ'

lemma step_eq {a : Action} (h : σ.step a = some σ') :
    σ.engine.step a = some σ'.engine ∧ σ.ref.step a = some σ'.ref := by
  obtain ⟨engine, he, h'⟩ := Option.bind_eq_some_iff.mp h
  obtain ⟨ref, hr, rfl⟩ := Option.map_eq_some_iff.mp h'
  exact ⟨he, hr⟩

/-- A step that adds to a batch. -/
lemma effect_write {b : BatchID} {key : MVCCKey} {value : Option Bytes} {txn : Txn MVCCKey Bytes}
    {writes : List (MVCCKey × Option Bytes)} {a : Action} {r : RocksDB} (hbatches : Batches σ)
    (hb : σ.engine.batch b = some txn) (hw : σ.ref.batch b = some writes) (ha : ClearsAbsent σ a)
    (hr : r = if key.length = 0 then σ.engine
      else σ.engine.setBatch b (some ⟨txn.writes ++ [(key, value)]⟩)) :
    Effect σ a ⟨r, σ.ref.write b writes key value⟩ := by
  have hwrites : writes = txn.writes := by
    have := hbatches b
    rw [hw, hb] at this
    exact Option.some.inj this
  subst hwrites hr
  by_cases hkey : key = []
  · subst hkey
    exact .same [] rfl rfl hbatches ha
  · have hlen := List.length_eq_zero_iff.not.mpr hkey
    rw [if_neg hlen, Ref.write, if_neg hkey]
    exact .same [] rfl rfl (fun q => batches_update hbatches b (some _) q) ha

theorem step_effect {a : Action} (hbatches : Batches σ) (h : σ.step a = some σ') :
    Effect σ a σ' := by
  obtain ⟨he, hr⟩ := step_eq h
  obtain ⟨engine, ref⟩ := σ'
  simp only at he hr
  cases a with
  | put key value =>
    simp only [RocksDB.step, Ref.step, Option.some.injEq] at he hr
    by_cases hkey : key = []
    · subst hkey
      cases he
      cases hr
      exact .same [] rfl rfl hbatches trivial
    · have hlen := List.length_eq_zero_iff.not.mpr hkey
      rw [RocksDB.put, if_neg hlen] at he
      rw [if_neg hkey] at hr
      subst he hr
      exact .same [(key, some value)] (get_commit _ _) (update_eq_overwrite _ _ _) hbatches trivial
  | clear key =>
    simp only [RocksDB.step, Ref.step, Option.some.injEq] at he hr
    by_cases hkey : key = []
    · subst hkey
      cases he
      cases hr
      exact .same [] rfl rfl hbatches fun h => absurd rfl h
    · have hlen := List.length_eq_zero_iff.not.mpr hkey
      rw [RocksDB.clear, if_neg hlen] at he
      rw [if_neg hkey] at hr
      subst he hr
      exact .clear key hkey rfl rfl hbatches
  | newBatch b =>
    simp only [RocksDB.step, Ref.step] at he hr
    split_ifs at he hr
    cases he
    cases hr
    exact .same [] rfl rfl (fun q => batches_update hbatches b (some {}) q) trivial
  | batchPut b key value =>
    obtain ⟨txn, hb, rfl⟩ := Option.map_eq_some_iff.mp he
    obtain ⟨writes, hw, rfl⟩ := Option.map_eq_some_iff.mp hr
    refine effect_write hbatches hb hw trivial ?_
    unfold RocksDB.batchPut
    split_ifs <;> rfl
  | batchClear b key =>
    obtain ⟨txn, hb, rfl⟩ := Option.map_eq_some_iff.mp he
    obtain ⟨writes, hw, rfl⟩ := Option.map_eq_some_iff.mp hr
    refine effect_write hbatches hb hw trivial ?_
    unfold RocksDB.batchClear
    split_ifs <;> rfl
  | commit b =>
    obtain ⟨txn, hb, rfl⟩ := Option.map_eq_some_iff.mp he
    obtain ⟨writes, hw, rfl⟩ := Option.map_eq_some_iff.mp hr
    have hwrites := hbatches b
    rw [hb, hw] at hwrites
    cases hwrites
    exact .same txn.writes (get_commit _ _) rfl (fun q => batches_update hbatches b none q) trivial
  | close b =>
    cases he
    cases hr
    exact .same [] rfl rfl (fun q => batches_update hbatches b none q) trivial

lemma batches_step {a : Action} (hbatches : Batches σ) (h : σ.step a = some σ') : Batches σ' := by
  cases step_effect hbatches h with
  | same writes hget hmap hb hclear => exact hb
  | clear key hkey hget hmap hb => exact hb

/-- A step keeps the two maps alike exactly when it is not a `Clear` of a key that is there. -/
lemma agrees_step {a : Action} (hbatches : Batches σ) (hagrees : Agrees σ)
    (h : σ.step a = some σ') : Agrees σ' ↔ ClearsAbsent σ a := by
  rw [agrees_iff] at hagrees ⊢
  cases step_effect hbatches h with
  | same writes hget hmap hb hclear =>
    refine iff_of_true ?_ hclear
    rw [hget, hmap]
    exact fun key hkey => overwrite_congr (hagrees key hkey) writes
  | clear key hkey hget hmap hb =>
    rw [hget, hmap]
    constructor
    · intro h _
      have hnone := h key hkey
      rw [Function.update_self] at hnone
      rw [← hagrees key hkey, hnone]
    · intro h k hk
      by_cases heq : k = key
      · rw [heq, Function.update_self, hagrees key hkey, h hkey]
      · rw [Function.update_of_ne heq, hagrees k hk]

end Step

/-- **When the engine is a map.** In a run of puts, clears and batches, every `Get` of every
state answers as the map does, exactly when no direct `Clear` is of a key that is there. -/
theorem get_map_iff {l : List Action} {σ : State} (hrun : Steps.run State.step {} l = some σ) :
    Steps.Always State.step Agrees {} l ↔ Steps.Along State.step ClearsAbsent {} l := by
  refine Steps.always_iff_along (I := Batches) (fun _ _ _ hb h => batches_step hb h)
    (fun _ _ _ hb ha h => agrees_step hb ha h) (fun b => rfl) ?_ hrun
  exact agrees_iff.mpr fun key _ => rfl

/-- **A `Clear` takes no effect**: the value that was put is still there. -/
theorem clear_keeps_value :
    ∃ σ, Steps.run State.step {} [.put [1] [7], .clear [1]] = some σ ∧
      σ.engine.get [1] = .ok (some [7]) ∧ σ.ref.map [1] = none ∧ ¬Agrees σ := by
  refine ⟨_, rfl, rfl, rfl, fun h => ?_⟩
  exact absurd (h [1] (by decide)) (by decide)

/-- A batch that is closed leaves nothing, and one that is committed takes a put away. -/
def batches : List Action :=
  [.put [1] [7], .newBatch 0, .batchClear 0 [1], .close 0, .newBatch 1, .batchPut 1 [2] [8],
    .batchClear 1 [1], .commit 1, .clear [1]]

theorem get_map_batches :
    (Steps.run State.step {} batches).map (fun σ => (σ.engine.get [1], σ.engine.get [2])) =
        some (.ok none, .ok (some [8])) ∧
      Steps.Always State.step Agrees {} batches := by
  obtain ⟨σ, hσ⟩ : ∃ σ, Steps.run State.step {} batches = some σ := ⟨_, rfl⟩
  exact ⟨by decide +kernel, (get_map_iff hσ).mpr (by decide +kernel)⟩

end Ancestor.Badger
