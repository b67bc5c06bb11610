import Ancestor.Effect

/-!
Which entries of the engine a command can touch.

The commands are followed on any engine, laid out in any way. `Only X m` says that `m` keeps to
the entries in `X`; the rules follow the program, and each command is shown to keep to the
entries of one key.
-/

namespace Ancestor

open M Hoare

/-! ### Frames -/

/-- The versions of a key. -/
def versionKeys (k : Key) : Set MVCCKey := {x | ∃ t, x = newMVCCTimeKey k t}

/-- The entries of a user key or transaction ID. -/
def entryKeys (k : Key) : Set MVCCKey := insert (newMVCCKey k) (versionKeys k)

/-- Whether it succeeds or fails, the command touches only entries in `X`. -/
def Only {α : Type} (X : Set MVCCKey) (m : M α) : Prop :=
  ∀ eng₀ : Engine, Triple (fun s => ∀ x ∉ X, s.eng.get x = eng₀.get x) m
    (fun _ s => ∀ x ∉ X, s.eng.get x = eng₀.get x) fun _ s => ∀ x ∉ X, s.eng.get x = eng₀.get x

section Frame

variable {α β : Type} {X Y : Set MVCCKey} {m : M α} {f : α → M β} {k k' : Key}

lemma timeKey_mem (k : Key) (t : Timestamp) : newMVCCTimeKey k t ∈ versionKeys k := ⟨t, rfl⟩

lemma versionKeys_subset (k : Key) : versionKeys k ⊆ entryKeys k := Set.subset_insert _ _

lemma metaKey_mem (k : Key) : newMVCCKey k ∈ entryKeys k := Set.mem_insert _ _

lemma metaKey_notMem (k : Key) : newMVCCKey k ∉ versionKeys k :=
  fun ⟨t, h⟩ => newMVCCKey_ne_timeKey k k t h

/-- An entry belongs to one key. -/
lemma entryKeys_inj {x : MVCCKey} (h : x ∈ entryKeys k) (h' : x ∈ entryKeys k') : k = k' := by
  rcases h with rfl | ⟨t, rfl⟩ <;> rcases h' with h' | ⟨t', h'⟩
  · exact newMVCCKey_inj.mp h'
  · exact absurd h' (newMVCCKey_ne_timeKey _ _ _)
  · exact absurd h' (newMVCCTimeKey_ne_key _ _ _)
  · exact (newMVCCTimeKey_inj.mp h').1

lemma Only.after (h : Only X m) (s : St) {x : MVCCKey} (hx : x ∉ X) :
    (stateAfter m s).eng.get x = s.eng.get x := by
  have hm := h s.eng s fun _ _ => rfl
  unfold stateAfter
  cases hrun : m s <;> rw [hrun] at hm <;> exact hm x hx

lemma Only.mono (h : Only X m) (hXY : X ⊆ Y) : Only Y m := by
  intro eng₀ s hs
  have hm := h s.eng s fun _ _ => rfl
  cases hrun : m s <;> rw [hrun] at hm <;>
    exact fun x hx => (hm x fun hX => hx (hXY hX)).trans (hs x hx)

lemma Only.bind (h : Only X m) (hf : ∀ a, Only X (f a)) : Only X (m >>= f) :=
  fun eng₀ => (h eng₀).bind fun a => hf a eng₀

lemma only_pure (a : α) : Only X (pure a) := fun _ => triple_pure fun _ h => h

lemma only_throw (e : Err) : Only X (throw e : M α) := fun _ => triple_throw fun _ h => h

lemma only_read (g : Engine → Except Err α) : Only X (M.read g) := by
  intro eng₀ s hs
  unfold M.read
  cases g s.eng <;> exact hs

lemma only_updateRangeStats (a b c d : ℕ) : Only X (updateRangeStats a b c d) :=
  fun _ _ hs => hs

lemma only_putEng {x : MVCCKey} (hx : x ∈ X) (e : Entry) : Only X (putEng x e) := by
  intro eng₀ s hs y hy
  show (s.eng.put x e).get y = _
  have hne : y ≠ x := fun h => hy (h ▸ hx)
  rw [OrdMap.get_put, if_neg hne, hs y hy]

lemma only_clearEng [Backend] {x : MVCCKey} (hx : x ∈ X) : Only X (clearEng x) := by
  intro eng₀ s hs y hy
  show (erase s.eng x).get y = _
  have hne : y ≠ x := fun h => hy (h ▸ hx)
  rw [get_erase_ne _ hne, hs y hy]

/-! ### The commands -/

lemma only_mvccPutMeta (k : Key) (txn : Transaction) (deleted : Bool) (a b : ℕ) :
    Only {newMVCCKey k} (mvccPutMeta k txn deleted a b) := by
  have hrest : Only {newMVCCKey k} (do
      putEng (newMVCCKey k) (.metaData ⟨txn.id, txn.timestamp, deleted⟩)
      updateRangeStats a b (newMVCCKey k).length
        (⟨txn.id, txn.timestamp, deleted⟩ : MVCCMetadata).size
      return ((newMVCCKey k).length, (⟨txn.id, txn.timestamp, deleted⟩ : MVCCMetadata).size)) :=
    (only_putEng (Set.mem_singleton _) _).bind fun _ =>
      (only_updateRangeStats _ _ _ _).bind fun _ => only_pure _
  unfold mvccPutMeta
  split_ifs
  · exact (only_throw _).bind fun _ => hrest
  · exact hrest

lemma metaKey_subset (k : Key) : {newMVCCKey k} ⊆ entryKeys k :=
  Set.singleton_subset_iff.mpr (metaKey_mem k)

lemma only_putMeta_entry (k : Key) (txn : Transaction) (deleted : Bool) (a b : ℕ) :
    Only (entryKeys k) (mvccPutMeta k txn deleted a b) :=
  (only_mvccPutMeta k txn deleted a b).mono (metaKey_subset k)

lemma only_mvccPut (k : Key) (txn : Transaction) (v : Value) :
    Only (versionKeys k) (mvccPut k txn v) :=
  (only_putEng (timeKey_mem _ _) _).bind fun _ => only_updateRangeStats _ _ _ _

lemma only_mvccPutTxn (req : Transaction) (changeType : TxnChangeType) (stats : Bool) :
    Only {newMVCCKey req.id} (mvccPutTxn req changeType stats) := by
  refine (only_read _).bind fun stored => (only_read _).bind fun toPut => ?_
  cases toPut with
  | none => exact only_pure _
  | some r =>
    refine (only_putEng (Set.mem_singleton _) _).bind fun _ => ?_
    cases stats
    · exact only_pure _
    · exact only_updateRangeStats _ _ _ _

lemma only_record (req : Transaction) (changeType : TxnChangeType) (stats : Bool) :
    Only (entryKeys req.id) (mvccPutTxn req changeType stats) :=
  (only_mvccPutTxn req changeType stats).mono (metaKey_subset req.id)

lemma only_heartbeatTransaction (txn : Transaction) :
    Only {newMVCCKey txn.id} (heartbeatTransaction txn) := by
  intro eng₀ s hs
  have hput := only_mvccPutTxn txn .heartbeat false eng₀ s hs
  unfold heartbeatTransaction
  cases hrun : mvccPutTxn txn .heartbeat false s with
  | ok a s' =>
    rw [hrun] at hput
    exact hput
  | error e s' =>
    rw [hrun] at hput
    cases e <;> exact hput

variable [Backend]

lemma only_mvccClear (k : Key) (t : Timestamp) : Only (versionKeys k) (mvccClear k t) :=
  only_clearEng (timeKey_mem _ _)

lemma only_putCheck (k : Key) (txn : Transaction) (ts : Timestamp)
    (metaData : Option MVCCMetadata) : Only (versionKeys k) (putCheck k txn ts metaData) := by
  unfold putCheck
  cases metaData with
  | none => exact only_pure _
  | some metaData =>
    simp only
    split_ifs
    · exact only_throw _
    · exact only_pure _
    · exact (only_throw _).bind fun _ => only_pure _
    · exact (only_throw _).bind fun _ => only_mvccClear k _
    · exact only_pure _
    · exact only_mvccClear k _

lemma only_put (req : PutRequest) : Only (entryKeys req.key) (put req) := by
  refine (only_read _).bind fun x => ?_
  refine ((only_putCheck _ _ _ _).mono (versionKeys_subset _)).bind fun _ => ?_
  have hwrite : ∀ a b, Only (entryKeys req.key)
      (putDataAndMeta req.key req.txn req.value (isNoneValue req.value) a b) := fun a b =>
    (only_putMeta_entry _ _ _ _ _).bind fun _ =>
      (only_mvccPut _ _ _).mono (versionKeys_subset _)
  split_ifs
  · exact only_pure _
  · exact hwrite _ _

lemma only_mvccResolveIntentUpdate (k : Key) (txn : Transaction) (m : MVCCMetadata) :
    Only (versionKeys k) (mvccResolveIntentUpdate k txn m) := by
  refine (only_read _).bind fun ⟨val, keySize, valSize⟩ => ?_
  cases val with
  | none => exact only_throw _
  | some val =>
    exact (only_mvccPut _ _ _).bind fun _ => (only_mvccClear _ _).bind fun _ =>
      only_updateRangeStats _ _ _ _

lemma only_mvccResolveIntentPending (k : Key) (txn : Transaction) (m : MVCCMetadata) (a b : ℕ) :
    Only (entryKeys k) (mvccResolveIntentPending k txn m a b) := by
  unfold mvccResolveIntentPending
  split_ifs
  · exact (only_putMeta_entry _ _ _ _ _).bind fun _ =>
      (only_mvccResolveIntentUpdate _ _ _).mono (versionKeys_subset _)
  · exact only_pure _

lemma only_mvccResolveIntentCommit (k : Key) (txn : Transaction) (m : MVCCMetadata) (a b : ℕ) :
    Only (entryKeys k) (mvccResolveIntentCommit k txn m a b) := by
  refine (only_putMeta_entry _ _ _ _ _).bind fun _ => ?_
  split_ifs
  · exact (only_mvccResolveIntentUpdate _ _ _).mono (versionKeys_subset _)
  · exact only_pure _

lemma only_mvccResolveIntentAbort (k : Key) (txn : Transaction) (m : MVCCMetadata) (a b : ℕ) :
    Only (entryKeys k) (mvccResolveIntentAbort k txn m a b) := by
  refine ((only_mvccClear _ _).mono (versionKeys_subset _)).bind fun _ =>
    (only_updateRangeStats _ _ _ _).bind fun _ => (only_read _).bind fun kvs => ?_
  match kvs with
  | [] =>
    exact (only_clearEng (metaKey_mem k)).bind fun _ => only_updateRangeStats _ _ _ _
  | (x, e) :: _ =>
    refine (only_read _).bind fun ⟨_, ts, _⟩ => ?_
    match e with
    | .value ⟨_, some v⟩ => exact (only_putMeta_entry _ _ _ _ _).bind fun _ => only_pure _
    | .value ⟨_, none⟩ | .metaData _ | .txn _ | .raftEntry _ | .plain _ | .raw _ =>
      exact only_throw _

/-- **The resolution of an intent touches the entries of its key only.** -/
theorem only_mvccResolveIntent (i : Intent) : Only (entryKeys i.key) (mvccResolveIntent i) := by
  refine (only_read _).bind fun ⟨localMeta, a, b⟩ => ?_
  cases localMeta with
  | none => exact only_pure _
  | some m =>
    simp only
    split_ifs
    · exact only_pure _
    · cases i.txn.status with
      | pending => exact only_mvccResolveIntentPending _ _ _ _ _
      | aborted => exact only_mvccResolveIntentAbort _ _ _ _ _
      | committed => exact only_mvccResolveIntentCommit _ _ _ _ _

/-- The keys that stand for a user key or a transaction ID. -/
def codes : Set MVCCKey := {x | ∃ k, x ∈ entryKeys k}

omit [Backend] in
lemma entryKeys_subset_codes (k : Key) : entryKeys k ⊆ codes := fun _ hx => ⟨k, hx⟩

lemma only_mvccResolveWriteIntent (intents : List Intent) :
    Only codes (mvccResolveWriteIntent intents) := by
  induction intents with
  | nil => exact only_pure _
  | cons i intents ih =>
    intro eng₀ s hs
    have hone := ((only_mvccResolveIntent i).mono (entryKeys_subset_codes _)) eng₀ s hs
    cases hrun : mvccResolveIntent i s with
    | ok a s' =>
      rw [hrun] at hone
      simp only [mvccResolveWriteIntent, hrun]
      exact ih eng₀ s' hone
    | error e s' =>
      rw [hrun] at hone
      simp only [mvccResolveWriteIntent, hrun]
      cases e
      case panic => exact hone
      all_goals exact ih eng₀ s' hone

omit [Backend] in
lemma only_processPushTransaction (key : Key) (latestTimestamp : Timestamp)
    (pushType : PushTxnType) (pusherTxn : Transaction) :
    Only codes (processPushTransaction key latestTimestamp pushType pusherTxn) := by
  have hput : ∀ (req : Transaction) (changeType : TxnChangeType),
      Only codes (do mvccPutTxn req changeType false; return req) := fun req changeType =>
    ((only_record req changeType false).mono (entryKeys_subset_codes _)).bind fun _ => only_pure _
  refine (only_read _).bind fun pusheeTxn => ?_
  cases pusheeTxn with
  | none => exact only_throw _
  | some pusheeTxn =>
    simp only
    split_ifs
    · exact only_pure _
    · exact only_pure _
    · exact hput _ _
    · exact only_throw _
    · cases pushType with
      | pushTimestamp =>
        cases pusherTxn.timestamp.next with
        | none => exact only_throw _
        | some timestamp => exact hput _ _
      | pushAbort => exact hput _ _
      | pushTouch => exact only_throw _

end Frame

end Ancestor
