import Ancestor.Lib.Hoare
import Ancestor.Lib.Steps
import Ancestor.Store

/-!
Ownership of keys across splits.

A split is two commands: one creates the replica of the left part, a later one shrinks the
range that was split. A run keeps, beside the store, the descriptors that splits have
returned for the second command, and which of them a range still waits for.
-/

namespace Ancestor.Split

open Hoare Steps

/-- A store with the post-split descriptors handed out so far, and for each range the one
that its last split left to be applied. -/
structure State where
  store : Store
  posts : List RangeDescriptor := []
  pending : RangeID → Option RangeDescriptor := fun _ => none

structure Cmd where
  id : RangeID
  request : Request
  deriving DecidableEq, Repr

def State.apply [Backend] (t : State) (c : Cmd) : State :=
  match send c.id c.request t.store with
  | .ok (.split [_, post]) s =>
    ⟨s, post :: t.posts, Function.update t.pending c.id (some post)⟩
  | .ok .updateRange s => { t with store := s, pending := Function.update t.pending c.id none }
  | .ok _ s | .error _ s => { t with store := s }

/-- Every command can be applied: one that fails is answered with its error. -/
def step [Backend] (t : State) (c : Cmd) : Option State := some (t.apply c)

/-! ### What a command does to the replicas -/

section Inversion

variable {s s' : Store} {id : RangeID}

/-- The replica `id` of the store takes requests on the key `k`. -/
def accepts (s : Store) (id : RangeID) (k : Key) : Bool :=
  (s.replicas id).any (·.validateKeyRange k)

/-- The descriptors of the two parts. -/
def prevDesc (r : Replica) (req : SplitRequest) : RangeDescriptor :=
  makeRangeDesc req.newRangeID r.rangeDesc.startKey req.splitKey r.rangeDesc.replicas

def postDesc (r : Replica) (req : SplitRequest) : RangeDescriptor :=
  makeRangeDesc r.rangeID req.splitKey r.rangeDesc.endKey r.rangeDesc.replicas

lemma split_run (r : Replica) (req : SplitRequest) (s : Store) :
    r.split req s =
      if r.rangeID ≠ req.rangeID ∨ ¬ r.validateKeyRange req.splitKey then .error .invalidRange s
      else if (s.replicas req.newRangeID).isSome then .error (.replicaExists req.newRangeID) s
      else .ok [prevDesc r req, postDesc r req]
        (fillRangeStats (s.add ⟨req.newRangeID, prevDesc r req⟩) r.rangeID req.newRangeID
          req.newRangeBytes req.newRangeCount) := by
  unfold Replica.split
  by_cases h1 : r.rangeID ≠ req.rangeID ∨ ¬ r.validateKeyRange req.splitKey
  · simp only [if_pos h1]
    rfl
  · simp only [if_neg h1]
    have hcreate : createReplica (prevDesc r req) s =
        if (s.replicas req.newRangeID).isSome then .error (.replicaExists req.newRangeID) s
        else .ok () (s.add ⟨req.newRangeID, prevDesc r req⟩) := by
      by_cases h2 : (s.replicas req.newRangeID).isSome
      · rw [if_pos h2]
        show (if (s.replicas req.newRangeID).isSome then _ else _ : StoreM Unit) s = _
        rw [if_pos h2]
        rfl
      · rw [if_neg h2]
        show (if (s.replicas req.newRangeID).isSome then _ else _ : StoreM Unit) s = _
        rw [if_neg h2]
        rfl
    by_cases h2 : (s.replicas req.newRangeID).isSome
    · rw [if_pos h2] at hcreate ⊢
      exact run_bind_error hcreate
    · rw [if_neg h2] at hcreate ⊢
      exact run_bind_ok hcreate

lemma updateRange_run (r : Replica) (req : UpdateRangeRequest) (s : Store) :
    r.updateRange req s =
      if r.rangeID ≠ req.rangeID then .error .invalidRange s
      else .ok () (s.add { r with rangeDesc := req.rangeDescriptor }) := by
  unfold Replica.updateRange
  split_ifs <;> rfl

/-- A command on the engine leaves the replicas alone. -/
lemma onEngine_replicas {α : Type} (r : Replica) (m : M α) (f : α → Response) (s : Store) :
    ∃ s', s'.replicas = s.replicas ∧
      ((∃ a, (do let a ← r.onEngine m; return f a : StoreM Response) s = .ok (f a) s') ∨
        ∃ e, (do let a ← r.onEngine m; return f a : StoreM Response) s = .error e s') := by
  cases hm : m ⟨s.eng, s.rangeStats r.rangeID⟩ with
  | ok a st =>
    have hrun : r.onEngine m s = .ok a (r.keep s st) := by rw [Replica.onEngine, hm]
    exact ⟨r.keep s st, rfl, .inl ⟨a, run_bind_ok hrun⟩⟩
  | error e st =>
    have hrun : r.onEngine m s = .error e (r.keep s st) := by rw [Replica.onEngine, hm]
    exact ⟨r.keep s st, rfl, .inr ⟨e, run_bind_error hrun⟩⟩

lemma send_none [Backend] (request : Request) (h : s.replicas id = none) :
    send id request s = .error (.rangeNotFound id) s :=
  run_bind_error (by rw [getReplica_run, h])

lemma send_some [Backend] {r : Replica} (request : Request) (h : s.replicas id = some r) :
    send id request s =
      if r.validateKeyRange request.header.key then r.dispatch request s
      else .error (.rangeNotFound r.rangeID) s := by
  have hget : getReplica id s = .ok r s := getReplica_ok h
  exact (run_bind_ok hget).trans (executeCmd_run r request s)

end Inversion

/-- The command is a split that passes the checks of `executeCmd` and `split`: the key of its
header and the split key are in the range, and the new range ID is free. -/
def Splits (t : State) (c : Cmd) : Prop :=
  ∃ req r, c.request = .split req ∧ t.store.replicas c.id = some r ∧
    r.validateKeyRange c.request.header.key = true ∧ r.rangeID = req.rangeID ∧
    r.validateKeyRange req.splitKey = true ∧ t.store.replicas req.newRangeID = none

section Effect

variable [Backend]

/-- Such a command is answered with the descriptors of the two parts. -/
lemma Splits.send {t : State} {c : Cmd} (h : Splits t c) :
    ∃ ds s, send c.id c.request t.store = .ok (.split ds) s := by
  obtain ⟨req, r, hreq, hr, hkey, hid, hsplit, hnew⟩ := h
  have hrun := split_run r req t.store
  rw [if_neg (by simp [hid, hsplit]), if_neg (by simp [hnew])] at hrun
  have hsend := send_some c.request hr
  rw [if_pos hkey, hreq] at hsend
  exact ⟨_, _, by rw [hreq, hsend]; exact run_bind_ok hrun⟩

/-- What a command can do: execute a split, give a replica another descriptor, or leave the
replicas as they are. -/
inductive Effect (t : State) (c : Cmd) : State → Prop
  | split (req : SplitRequest) (r : Replica) (s : Store) (hreq : c.request = .split req)
    (hok : Splits t c) (hr : t.store.replicas c.id = some r)
    (hnew : t.store.replicas req.newRangeID = none)
    (hs : s.replicas = (t.store.add ⟨req.newRangeID, prevDesc r req⟩).replicas) :
    Effect t c ⟨s, postDesc r req :: t.posts,
      Function.update t.pending c.id (some (postDesc r req))⟩
  | update (req : UpdateRangeRequest) (r : Replica) (s : Store)
    (hreq : c.request = .updateRange req) (hno : ¬ Splits t c)
    (hr : t.store.replicas c.id = some r)
    (hs : s.replicas = (t.store.add { r with rangeDesc := req.rangeDescriptor }).replicas) :
    Effect t c ⟨s, t.posts, Function.update t.pending c.id none⟩
  | other (s : Store) (hs : s.replicas = t.store.replicas) (hno : ¬ Splits t c) :
    Effect t c ⟨s, t.posts, t.pending⟩

lemma effect_error {t : State} {c : Cmd} {e : Err} {s : Store}
    (h : send c.id c.request t.store = .error e s) (hs : s.replicas = t.store.replicas) :
    Effect t c (t.apply c) := by
  rw [State.apply, h]
  refine .other s hs fun hsplit => ?_
  obtain ⟨ds, s', hok⟩ := hsplit.send
  rw [h] at hok
  cases hok

lemma effect_engine {α : Type} {t : State} {c : Cmd} {r : Replica} {m : M α} (f : α → Response)
    (hf : ∀ a ds, f a ≠ .split ds) (hf' : ∀ a, f a ≠ .updateRange)
    (h : send c.id c.request t.store = (do let a ← r.onEngine m; return f a) t.store) :
    Effect t c (t.apply c) := by
  obtain ⟨s, hs, ⟨a, hrun⟩ | ⟨e, hrun⟩⟩ := onEngine_replicas r m f t.store
  · rw [hrun] at h
    have hno : ¬ Splits t c := by
      intro hsplit
      obtain ⟨ds, s', hok⟩ := hsplit.send
      rw [h] at hok
      injection hok with hok
      exact hf a ds hok
    have happ : t.apply c = ⟨s, t.posts, t.pending⟩ := by
      rw [State.apply, h]
      split
      · next hok => injection hok with hok; exact absurd hok (hf a _)
      · next hok => injection hok with hok; exact absurd hok (hf' a)
      · next hok => cases hok; rfl
      · next hok => cases hok
    rw [happ]
    exact .other s hs hno
  · rw [hrun] at h
    exact effect_error h hs

lemma effect_split {t : State} {c : Cmd} {r : Replica} {req : SplitRequest}
    (hreq : c.request = .split req) (hr : t.store.replicas c.id = some r)
    (hkey : r.validateKeyRange c.request.header.key = true)
    (h : send c.id c.request t.store = r.dispatch (.split req) t.store) :
    Effect t c (t.apply c) := by
  have hrun := split_run r req t.store
  split_ifs at hrun with h1 h2
  · exact effect_error (h.trans (run_bind_error hrun)) rfl
  · exact effect_error (h.trans (run_bind_error hrun)) rfl
  · replace h := h.trans (run_bind_ok hrun)
    have hnew := Option.not_isSome_iff_eq_none.mp h2
    simp only [ne_eq, not_or, not_not] at h1
    have hok : Splits t c := ⟨req, r, hreq, hr, hkey, h1.1, h1.2, hnew⟩
    rw [State.apply, h]
    exact .split req r _ hreq hok hr hnew rfl

lemma effect_update {t : State} {c : Cmd} {r : Replica} {req : UpdateRangeRequest}
    (hreq : c.request = .updateRange req) (hr : t.store.replicas c.id = some r)
    (h : send c.id c.request t.store = r.dispatch (.updateRange req) t.store) :
    Effect t c (t.apply c) := by
  have hrun := updateRange_run r req t.store
  split_ifs at hrun with h1
  · exact effect_error (h.trans (run_bind_error hrun)) rfl
  · replace h := h.trans (run_bind_ok hrun)
    have hno : ¬ Splits t c := by
      rintro ⟨req', -, hreq', -⟩
      rw [hreq] at hreq'
      cases hreq'
    rw [State.apply, h]
    exact .update req r _ hreq hno hr rfl

/-- **The replicas change through splits and updates only.** -/
theorem apply_effect (t : State) (c : Cmd) : Effect t c (t.apply c) := by
  cases hr : t.store.replicas c.id with
  | none => exact effect_error (send_none c.request hr) rfl
  | some r =>
    have hsend := send_some c.request hr
    split_ifs at hsend with hkey
    · cases hreq : c.request with
      | split req => exact effect_split hreq hr hkey (by rw [hsend, hreq])
      | updateRange req => exact effect_update hreq hr (by rw [hsend, hreq])
      | get => exact effect_engine .get (by simp) (by simp) (by rw [hsend, hreq]; rfl)
      | put => exact effect_engine (fun _ => .put) (by simp) (by simp) (by rw [hsend, hreq]; rfl)
      | beginTransaction req =>
        exact effect_engine (fun _ => .beginTransaction req.txn) (by simp) (by simp)
          (by rw [hsend, hreq]; rfl)
      | endTransaction =>
        exact effect_engine (fun _ => .endTransaction) (by simp) (by simp)
          (by rw [hsend, hreq]; rfl)
      | heartbeatTransaction =>
        exact effect_engine .heartbeatTransaction (by simp) (by simp) (by rw [hsend, hreq]; rfl)
      | resolveIntent =>
        exact effect_engine (fun _ => .resolveIntent) (by simp) (by simp)
          (by rw [hsend, hreq]; rfl)
      | pushTransaction =>
        exact effect_engine .pushTransaction (by simp) (by simp) (by rw [hsend, hreq]; rfl)
      | getSplitKey =>
        exact effect_engine .getSplitKey (by simp) (by simp) (by rw [hsend, hreq]; rfl)
    · exact effect_error hsend rfl

lemma step_effect {t t' : State} {c : Cmd} (h : step t c = some t') : Effect t c t' := by
  obtain rfl : t.apply c = t' := Option.some.inj h
  exact apply_effect t c

end Effect

/-! ### Ownership -/

/-- Every key is taken by at most one replica. -/
def Exclusive (s : Store) : Prop :=
  ∀ k i j, accepts s i k = true → accepts s j k = true → i = j

/-- The commands that drive splits, beside reads and writes: a split strictly inside the range
with a new range ID, and the update that some executed split has asked for. -/
def Valid (t : State) (c : Cmd) : Prop :=
  match c.request with
  | .get _ | .put _ => True
  | .split req =>
    t.store.replicas req.newRangeID = none ∧
      ∀ r ∈ t.store.replicas c.id, r.rangeDesc.startKey < req.splitKey ∧
        (r.rangeDesc.endKey = [] ∨ req.splitKey < r.rangeDesc.endKey)
  | .updateRange req => req.rangeDescriptor ∈ t.posts
  | _ => False

section Ownership

variable {t t' : State} {c : Cmd} {l : List Cmd}

lemma accepts_congr {s s' : Store} {i : RangeID} (h : s'.replicas i = s.replicas i) (k : Key) :
    accepts s' i k = accepts s i k := by
  rw [accepts, accepts, h]

lemma accepts_iff {s : Store} {i : RangeID} {k : Key} :
    accepts s i k = true ↔ ∃ r, s.replicas i = some r ∧ r.rangeDesc.Covers k := by
  rw [accepts]
  cases s.replicas i <;> simp [validateKeyRange_iff]

lemma accepts_of_replica {s : Store} {i : RangeID} {r : Replica} {k : Key}
    (h : s.replicas i = some r) : accepts s i k = true ↔ r.rangeDesc.Covers k := by
  simp [accepts_iff, h]

lemma replicas_add (s : Store) (r : Replica) (i : RangeID) :
    (s.add r).replicas i = if i = r.rangeID then some r else s.replicas i :=
  Function.update_apply ..

/-- After a split the start of the range is taken by both parts. -/
lemma not_exclusive_of_split (hv : Valid t c) (hsplit : Splits t c) (h : Effect t c t') :
    ¬ Exclusive t'.store := by
  cases h with
  | split req r s hreq hok hr hnew hs =>
    rw [Valid, hreq] at hv
    obtain ⟨-, hin⟩ := hv
    obtain ⟨hlt, hend⟩ := hin r hr
    have hne : c.id ≠ req.newRangeID := fun hid => by
      rw [← hid, hr] at hnew
      cases hnew
    have hold : s.replicas c.id = some r := by
      rw [hs, replicas_add, if_neg hne, hr]
    have hleft : s.replicas req.newRangeID = some ⟨req.newRangeID, prevDesc r req⟩ := by
      rw [hs, replicas_add, if_pos rfl]
    intro hex
    refine hne (hex r.rangeDesc.startKey c.id req.newRangeID ?_ ?_)
    · refine (accepts_of_replica hold).mpr ⟨le_rfl, ?_⟩
      exact hend.imp id hlt.trans
    · exact (accepts_of_replica hleft).mpr ⟨le_rfl, Or.inr hlt⟩
  | update req r s hreq hno => exact absurd hsplit hno
  | other s hs hno => exact absurd hsplit hno

/-- A store in which nothing has been split yet, with disjoint ranges. -/
structure Fresh (t : State) : Prop where
  exclusive : Exclusive t.store
  posts : t.posts = []

lemma Exclusive.congr {s s' : Store} (hs : s'.replicas = s.replicas) (h : Exclusive s) :
    Exclusive s' := by
  intro k i j hi hj
  rw [accepts_congr (congrFun hs _)] at hi hj
  exact h k i j hi hj

lemma Fresh.step (hf : Fresh t) (hv : Valid t c) (hno : ¬ Splits t c) (h : Effect t c t') :
    Fresh t' := by
  cases h with
  | split req r s hreq hok => exact absurd hok hno
  | update req r s hreq =>
    rw [Valid, hreq, hf.posts] at hv
    cases hv
  | other s hs => exact ⟨hf.exclusive.congr hs, hf.posts⟩

/-- **A split breaks exclusive ownership.** From a store with disjoint ranges, at every point of
a run at most one replica takes each key exactly when the run executes no split. -/
theorem exclusive_iff_no_split [Backend] (s : Store) (l : List Cmd) (hs : Exclusive s)
    (hv : Along step Valid ⟨s, [], fun _ => none⟩ l) :
    Always step (fun t => Exclusive t.store) ⟨s, [], fun _ => none⟩ l ↔
      Along step (fun t c => ¬ Splits t c) ⟨s, [], fun _ => none⟩ l := by
  have hf : Fresh ⟨s, [], fun _ => none⟩ := ⟨hs, rfl⟩
  generalize (⟨s, [], fun _ => none⟩ : State) = t at hv hf
  induction l generalizing t with
  | nil => exact ⟨fun _ => trivial, fun _ => hf.exclusive⟩
  | cons c l ih =>
    constructor
    · intro h
      have hno : ¬ Splits t c := fun hsplit =>
        not_exclusive_of_split hv.1 hsplit (apply_effect t c) (h.2 _ rfl).head
      refine ⟨hno, fun t' ht' => ?_⟩
      exact (ih t' (hv.2 t' ht') (hf.step hv.1 hno (step_effect ht'))).mp (h.2 t' ht')
    · intro h
      refine ⟨hf.exclusive, fun t' ht' => ?_⟩
      exact (ih t' (hv.2 t' ht') (hf.step hv.1 h.1 (step_effect ht'))).mpr (h.2 t' ht')

end Ownership

section Trace

attribute [local instance] Slices.twoItems Backend.badger

/-- One range, from `a` up to `z`. -/
def whole : Store := Store.empty.add ⟨1, ⟨1, [97], [122], []⟩⟩

def splitAt (key : Key) (newID : RangeID) : Cmd :=
  ⟨1, .split { key, rangeID := 1, newRangeID := newID, splitKey := key }⟩

def updateTo (key : Key) : Cmd :=
  ⟨1, .updateRange { key, rangeID := 1, rangeDescriptor := ⟨1, key, [122], []⟩ }⟩

lemma exclusive_whole : Exclusive whole := by
  have hone : ∀ i k, accepts whole i k = true → i = 1 := by
    intro i k h
    obtain ⟨r, hr, -⟩ := accepts_iff.mp h
    by_contra hi
    rw [whole, replicas_add, if_neg hi] at hr
    cases hr
  intro k i j hi hj
  rw [hone i k hi, hone j k hj]

instance (t : State) (c : Cmd) : Decidable (Valid t c) := by
  unfold Valid
  split <;> infer_instance

/-- A put, and a split sent under a range ID that the replica does not have. -/
def refused : List Cmd :=
  [⟨1, .put { key := [98], txn := { id := [1] }, value := { bytes := [7] } }⟩,
    ⟨1, .split { key := [109], rangeID := 4, newRangeID := 2, splitKey := [109] }⟩]

theorem exclusive_iff_no_split_refused :
    Along step Valid ⟨whole, [], fun _ => none⟩ refused ∧
      Always step (fun t => Exclusive t.store) ⟨whole, [], fun _ => none⟩ refused := by
  have hv : Along step Valid ⟨whole, [], fun _ => none⟩ refused := by decide +kernel
  refine ⟨hv, (exclusive_iff_no_split whole refused exclusive_whole hv).mpr ⟨?_, ?_⟩⟩
  · rintro ⟨req, r, hreq, -⟩
    cases hreq
  · rintro t ⟨⟩
    refine ⟨?_, fun _ _ => trivial⟩
    -- the put has left the range its ID
    rintro ⟨req, r, hreq, hr, -, hid, -⟩
    cases hreq
    cases hr
    cases hid

/-- Right after a split both ranges take the keys of the left part. When the update of a split
is lost and the range is split again, the two left parts overlap even after the update of the
second split. -/
theorem ownership_shared :
    Exclusive whole ∧
    Along step Valid ⟨whole, [], fun _ => none⟩
      [splitAt [109] 2, splitAt [112] 3, updateTo [112]] ∧
    (∃ t, run step ⟨whole, [], fun _ => none⟩ [splitAt [109] 2] = some t ∧
      accepts t.store 1 [98] = true ∧ accepts t.store 2 [98] = true) ∧
    (∃ t, run step ⟨whole, [], fun _ => none⟩
        [splitAt [109] 2, splitAt [112] 3, updateTo [112]] = some t ∧
      accepts t.store 2 [98] = true ∧ accepts t.store 3 [98] = true) :=
  ⟨exclusive_whole, by decide +kernel, ⟨_, rfl, by decide +kernel⟩, ⟨_, rfl, by decide +kernel⟩⟩

end Trace

/-! ### Splits that are driven to their end -/

/-- The order in which pd sends the two commands: a range is split again only
after the update of its last split, and that is the update it is sent. -/
def InOrder (t : State) (c : Cmd) : Prop :=
  match c.request with
  | .split _ => t.pending c.id = none
  | .updateRange req => t.pending c.id = some req.rangeDescriptor
  | _ => True

/-- The descriptor a range is meant to have: the one it waits for, if there is one. -/
def owner (t : State) (i : RangeID) : Option RangeDescriptor :=
  (t.pending i).or ((t.store.replicas i).map (·.rangeDesc))

/-- The descriptors the ranges are meant to have are disjoint. -/
structure Parted (t : State) : Prop where
  disjoint : ∀ k i j d d', owner t i = some d → owner t j = some d' → d.Covers k → d'.Covers k →
    i = j
  present : ∀ i, (t.pending i).isSome → (t.store.replicas i).isSome

section Order

variable {t t' : State} {c : Cmd} {l : List Cmd}

lemma owner_of_none {i : RangeID} {r : Replica} (hp : t.pending i = none)
    (hr : t.store.replicas i = some r) : owner t i = some r.rangeDesc := by
  simp [owner, hp, hr]

lemma owner_of_some {i : RangeID} {p : RangeDescriptor} (hp : t.pending i = some p) :
    owner t i = some p := by
  simp [owner, hp]

lemma covers_prev {r : Replica} {req : SplitRequest} {k : Key}
    (hend : r.rangeDesc.endKey = [] ∨ req.splitKey < r.rangeDesc.endKey) (hne : req.splitKey ≠ [])
    (h : (prevDesc r req).Covers k) : r.rangeDesc.Covers k ∧ k < req.splitKey := by
  have hk : k < req.splitKey := h.2.resolve_left hne
  exact ⟨⟨h.1, hend.imp id hk.trans⟩, hk⟩

lemma covers_post {r : Replica} {req : SplitRequest} {k : Key}
    (hlt : r.rangeDesc.startKey < req.splitKey) (h : (postDesc r req).Covers k) :
    r.rangeDesc.Covers k ∧ req.splitKey ≤ k :=
  ⟨⟨hlt.le.trans h.1, h.2⟩, h.1⟩

/-- A split divides what its range is meant to own between the two parts. -/
lemma Parted.split {req : SplitRequest} {r : Replica} {s : Store} (hp : Parted t)
    (hlt : r.rangeDesc.startKey < req.splitKey)
    (hend : r.rangeDesc.endKey = [] ∨ req.splitKey < r.rangeDesc.endKey)
    (hclosed : t.pending c.id = none) (hr : t.store.replicas c.id = some r)
    (hnew : t.store.replicas req.newRangeID = none)
    (hs : s.replicas = (t.store.add ⟨req.newRangeID, prevDesc r req⟩).replicas) :
    Parted ⟨s, postDesc r req :: t.posts,
      Function.update t.pending c.id (some (postDesc r req))⟩ := by
  have hne : req.newRangeID ≠ c.id := fun hid => by
    rw [hid, hr] at hnew
    cases hnew
  have hnone : t.pending req.newRangeID = none := by
    by_contra hsome
    have := hp.present _ (Option.isSome_iff_ne_none.mpr hsome)
    rw [hnew] at this
    cases this
  have hold : owner t c.id = some r.rangeDesc := owner_of_none hclosed hr
  have hmid : req.splitKey ≠ [] := fun h => absurd (h ▸ hlt) (List.not_lt_nil _)
  -- whoever owns `k` afterwards has it from the split range or owned it before
  have hfrom : ∀ i d k, owner ⟨s, postDesc r req :: t.posts,
        Function.update t.pending c.id (some (postDesc r req))⟩ i = some d → d.Covers k →
      (i = req.newRangeID ∧ r.rangeDesc.Covers k ∧ k < req.splitKey) ∨
        (i = c.id ∧ r.rangeDesc.Covers k ∧ req.splitKey ≤ k) ∨
          i ≠ c.id ∧ ∃ d, owner t i = some d ∧ d.Covers k := by
    intro i d k hd hk
    by_cases hi : i = c.id
    · subst hi
      simp only [owner, Function.update_self, Option.some_or, Option.some.injEq] at hd
      subst hd
      exact Or.inr (Or.inl ⟨rfl, covers_post hlt hk⟩)
    · simp only [owner, Function.update_of_ne hi, hs, replicas_add] at hd
      split_ifs at hd with hi'
      · subst hi'
        rw [hnone, Option.none_or, Option.map_some, Option.some.injEq] at hd
        subst hd
        exact Or.inl ⟨rfl, covers_prev hend hmid hk⟩
      · exact Or.inr (Or.inr ⟨hi, d, hd, hk⟩)
  refine ⟨fun k i j d d' hi hj hdi hdj => ?_, fun i hi => ?_⟩
  · rcases hfrom i d k hi hdi with ⟨rfl, hri, hki⟩ | ⟨rfl, hri, hki⟩ | ⟨hni, di, hoi, hci⟩ <;>
    rcases hfrom j d' k hj hdj with ⟨rfl, hrj, hkj⟩ | ⟨rfl, hrj, hkj⟩ | ⟨hnj, dj, hoj, hcj⟩
    · rfl
    · exact absurd hki (not_lt.mpr hkj)
    · exact absurd (hp.disjoint k _ _ _ _ hold hoj hri hcj).symm hnj
    · exact absurd hkj (not_lt.mpr hki)
    · rfl
    · exact absurd (hp.disjoint k _ _ _ _ hold hoj hri hcj).symm hnj
    · exact absurd (hp.disjoint k _ _ _ _ hoi hold hci hrj) hni
    · exact absurd (hp.disjoint k _ _ _ _ hoi hold hci hrj) hni
    · exact hp.disjoint k _ _ _ _ hoi hoj hci hcj
  · have hbefore : (t.store.replicas i).isSome := by
      by_cases hi' : i = c.id
      · rw [hi', hr]
        rfl
      · exact hp.present i (by simpa only [Function.update_of_ne hi'] using hi)
    simp only [hs, replicas_add]
    split_ifs
    · rfl
    · exact hbefore

/-- An update gives the range what it was meant to have. -/
lemma Parted.update {req : UpdateRangeRequest} {r : Replica} {s : Store} (hp : Parted t)
    (hopen : t.pending c.id = some req.rangeDescriptor) (hr : t.store.replicas c.id = some r)
    (hs : s.replicas = (t.store.add { r with rangeDesc := req.rangeDescriptor }).replicas) :
    Parted ⟨s, t.posts, Function.update t.pending c.id none⟩ := by
  have hid : r.rangeID = c.id := t.store.keyed c.id r hr
  have hsame : ∀ i, owner ⟨s, t.posts, Function.update t.pending c.id none⟩ i = owner t i := by
    intro i
    by_cases hi : i = c.id
    · subst hi
      rw [owner_of_some hopen]
      simp [owner, hs, replicas_add, hid]
    · simp only [owner, Function.update_of_ne hi, hs, replicas_add, hid, if_neg hi]
  refine ⟨fun k i j d d' => ?_, fun i hi => ?_⟩
  · rw [hsame, hsame]
    exact hp.disjoint k i j d d'
  · by_cases hi' : i = c.id
    · simp only [hi', Function.update_self] at hi
      cases hi
    · simp only [Function.update_of_ne hi'] at hi
      simp only [hs, replicas_add, hid, if_neg hi']
      exact hp.present i hi

lemma Parted.step (hp : Parted t) (hv : Valid t c ∧ InOrder t c) (h : Effect t c t') :
    Parted t' := by
  obtain ⟨hv, ho⟩ := hv
  cases h with
  | split req r s hreq hok hr hnew hs =>
    rw [Valid, hreq] at hv
    rw [InOrder, hreq] at ho
    obtain ⟨hlt, hend⟩ := hv.2 r hr
    exact hp.split hlt hend ho hr hnew hs
  | update req r s hreq hno hr hs =>
    rw [InOrder, hreq] at ho
    exact hp.update ho hr hs
  | other s hs hno =>
    have hsame : ∀ i, owner ⟨s, t.posts, t.pending⟩ i = owner t i := fun i => by
      simp only [owner, hs]
    refine ⟨fun k i j d d' => ?_, fun i hi => ?_⟩
    · rw [hsame, hsame]
      exact hp.disjoint k i j d d'
    · simp only [hs]
      exact hp.present i hi

lemma parted_of_exclusive {s : Store} (h : Exclusive s) : Parted ⟨s, [], fun _ => none⟩ := by
  refine ⟨fun k i j d d' hi hj hdi hdj => ?_, fun i hi => by cases hi⟩
  obtain ⟨r, hr, rfl⟩ := Option.map_eq_some_iff.mp hi
  obtain ⟨r', hr', rfl⟩ := Option.map_eq_some_iff.mp hj
  exact h k i j ((accepts_of_replica hr).mpr hdi) ((accepts_of_replica hr').mpr hdj)

/-- **Ranges that wait for no update exclude each other**, at every point of a run in which
every split is driven to its end before the next one of that range. -/
theorem exclusive_of_closed [Backend] {s : Store} (hs : Exclusive s)
    (hv : Along step (fun t c => Valid t c ∧ InOrder t c) ⟨s, [], fun _ => none⟩ l)
    (hrun : run step ⟨s, [], fun _ => none⟩ l = some t) {k : Key} {i j : RangeID}
    (hi : t.pending i = none) (hj : t.pending j = none)
    (hai : accepts t.store i k = true) (haj : accepts t.store j k = true) : i = j := by
  have hp : Parted t := invariant (fun _ _ _ hp hv h => hp.step hv (step_effect h))
    (parted_of_exclusive hs) hv hrun
  obtain ⟨r, hr, hk⟩ := accepts_iff.mp hai
  obtain ⟨r', hr', hk'⟩ := accepts_iff.mp haj
  exact hp.disjoint k i j _ _ (owner_of_none hi hr) (owner_of_none hj hr') hk hk'

end Order

end Ancestor.Split
