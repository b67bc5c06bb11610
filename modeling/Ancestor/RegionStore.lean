import Ancestor.RangeIndex

/-!
The range descriptors of the placement driver, in its cache and in etcd (`pd/region.go`,
`pd/check.go`, `pd/replica.go`, `util/cache/range_cache.go`).

The indexes of the cache hold pointers, and the code hands them out: `checkReplica` appends to
the replicas of the object it got from `unstable` before it puts the descriptor into etcd, and
`AdjustLeader` swaps replicas in the object of `ranges`. Objects are numbered as `Add` makes
them.
-/

namespace Ancestor.RegionStore

abbrev Pointer := ℕ

structure State where
  minReplica : ℕ
  objects : List RangeDescriptor := []
  unstable : RangeID → Option Pointer := fun _ => none
  ranges : RangeID → Option Pointer := fun _ => none
  cache : OrdMap Key Pointer := .empty
  etcd : RangeID → Option RangeDescriptor := fun _ => none

namespace State

def deref (σ : State) (p : Pointer) : Option RangeDescriptor := σ.objects[p]?

def getRangeDescriptor (σ : State) (id : RangeID) : Option RangeDescriptor :=
  (σ.ranges id).bind σ.deref

/-- Assigns through a pointer. -/
def assign (σ : State) (p : Pointer) (rd : RangeDescriptor) : State :=
  { σ with objects := σ.objects.set p rd }

/-- One turn of `Add`, which copies the descriptor into a new object. -/
def addOne (σ : State) (rd : RangeDescriptor) : State :=
  let key := rd.startKey
  let val := σ.objects.length
  let σ := { σ with objects := σ.objects ++ [rd] }
  let σ :=
    if (σ.cache.get key).isSome then
      { σ with
        cache := σ.cache.clear key
        ranges := Function.update σ.ranges rd.rangeID none
        unstable := Function.update σ.unstable rd.rangeID none }
    else σ
  let σ := { σ with
    cache := σ.cache.put key val
    ranges := Function.update σ.ranges rd.rangeID (some val) }
  if rd.replicas.length < σ.minReplica then
    { σ with unstable := Function.update σ.unstable rd.rangeID (some val) }
  else σ

/-- The transaction of `putValues`. -/
def put (etcd : RangeID → Option RangeDescriptor) (rds : List RangeDescriptor) :
    RangeID → Option RangeDescriptor :=
  rds.foldl (fun etcd rd => Function.update etcd rd.rangeID (some rd)) etcd

/-- `succeeds` is the outcome of the put. -/
def setRangeDescriptors (σ : State) (rds : List RangeDescriptor) (succeeds : Bool) : State :=
  if succeeds then rds.foldl addOne { σ with etcd := put σ.etcd rds } else σ

end State

/-- `AdjustLeader` swaps the first replica of the node with the first of all. -/
def adjustLeader (nodeID : NodeID) : List ReplicaDescriptor → List ReplicaDescriptor
  | [] => []
  | first :: rest =>
    if first.nodeID = nodeID then first :: rest
    else
      match rest.findIdx? fun rp => rp.nodeID = nodeID with
      | some i =>
        match rest[i]? with
        | some rp => rp :: rest.set i first
        | none => first :: rest
      | none => first :: rest

inductive Action
  | setRangeDescriptors (rds : List RangeDescriptor) (succeeds : Bool)
  /-- one range of a pass, with the replicas that are added to it -/
  | checkReplica (id : RangeID) (reps : List ReplicaDescriptor) (succeeds : Bool)
  /-- the end of `requestSplit`, with the descriptors of the response -/
  | requestSplit (post prev : RangeDescriptor) (succeeds : Bool)
  /-- the end of `deleteReplica` -/
  | deleteReplica (id : RangeID) (nodeID : NodeID) (succeeds : Bool)
  | adjustLeader (id : RangeID) (nodeID : NodeID)
  deriving DecidableEq, Repr

/-- The replicas `checkReplica` adds: as many as are missing, on nodes of their own. -/
def Fills (minReplica : ℕ) (replicas reps : List ReplicaDescriptor) : Prop :=
  reps.length = minReplica - replicas.length ∧ (reps.map (·.nodeID)).Nodup ∧
    ∀ rep ∈ reps, rep.nodeID ∉ replicas.map (·.nodeID)

instance (minReplica : ℕ) (replicas reps : List ReplicaDescriptor) :
    Decidable (Fills minReplica replicas reps) := inferInstanceAs (Decidable (_ ∧ _))

-- `AdjustLeader` of an unknown range unlocks a mutex that is not locked, which is fatal.
def State.step (σ : State) : Action → Option State
  | .setRangeDescriptors rds succeeds => some (σ.setRangeDescriptors rds succeeds)
  | .checkReplica id reps succeeds =>
    (σ.unstable id).bind fun p => (σ.deref p).bind fun rd =>
      if Fills σ.minReplica rd.replicas reps then
        let rd := { rd with replicas := rd.replicas ++ reps }
        some ((σ.assign p rd).setRangeDescriptors [rd] succeeds)
      else none
  | .requestSplit post prev succeeds => some (σ.setRangeDescriptors [post, prev] succeeds)
  | .deleteReplica id nodeID succeeds =>
    (σ.getRangeDescriptor id).bind fun rd =>
      if nodeID ∈ rd.replicas.map (·.nodeID) then
        let repls := rd.replicas.filter fun rpl => rpl.nodeID ≠ nodeID
        some (σ.setRangeDescriptors [{ rd with replicas := repls }] succeeds)
      else none
  | .adjustLeader id nodeID =>
    (σ.ranges id).bind fun p => (σ.deref p).bind fun rd =>
      some (σ.assign p { rd with replicas := adjustLeader nodeID rd.replicas })

/-- The descriptors are alike up to the order of the replicas. -/
def Same : Option RangeDescriptor → Option RangeDescriptor → Prop
  | none, none => True
  | some d, some d' => d.rangeID = d'.rangeID ∧ d.startKey = d'.startKey ∧ d.endKey = d'.endKey ∧
      d.replicas.Perm d'.replicas
  | _, _ => False

/-- The cache answers with what etcd holds. -/
def Synced (σ : State) : Prop := ∀ id, Same (σ.getRangeDescriptor id) (σ.etcd id)

/-- No put of `checkReplica` fails after replicas have been added to the cached object. -/
def Clean (σ : State) : Action → Prop
  | .checkReplica id reps succeeds => succeeds = true ∨ reps = [] ∨ σ.ranges id ≠ σ.unstable id
  | _ => True

instance (σ : State) (a : Action) : Decidable (Clean σ a) := by
  cases a <;> unfold Clean <;> infer_instance

/-! ### Replicas and descriptors -/

lemma perm_adjustLeader (nodeID : NodeID) (replicas : List ReplicaDescriptor) :
    (adjustLeader nodeID replicas).Perm replicas := by
  cases replicas with
  | nil => exact .refl _
  | cons first rest =>
    rw [adjustLeader]
    split_ifs
    · exact .refl _
    · cases rest.findIdx? fun rp => decide (rp.nodeID = nodeID) with
      | none => exact .refl _
      | some i =>
        simp only
        split
        · rename_i rp hrp
          obtain ⟨hi, rfl⟩ := List.getElem?_eq_some_iff.mp hrp
          -- both lists are the rest without its place `i`, and the two that are swapped
          have hset := (List.set_perm_cons_eraseIdx hi first).cons rest[i]
          have hrest := (List.getElem_cons_eraseIdx_perm hi).cons first
          exact hset.trans ((List.Perm.swap _ _ _).trans hrest)
        · exact .refl _

lemma Same.refl (d : Option RangeDescriptor) : Same d d := by
  cases d with
  | none => trivial
  | some d => exact ⟨rfl, rfl, rfl, .refl _⟩

/-! ### Pointers -/

/-- The pointers of the indexes lead to descriptors of their ranges. -/
structure Inv (σ : State) : Prop where
  ranges : ∀ id p, σ.ranges id = some p → ∃ d, σ.deref p = some d ∧ d.rangeID = id
  unstable : ∀ id p, σ.unstable id = some p → ∃ d, σ.deref p = some d ∧ d.rangeID = id

section Pointers

variable {σ : State} {rd d : RangeDescriptor} {p q : Pointer} {id : RangeID}

lemma lt_of_deref (h : σ.deref p = some d) : p < σ.objects.length :=
  (List.getElem?_eq_some_iff.mp h).1

lemma addOne_objects (σ : State) (rd : RangeDescriptor) :
    (σ.addOne rd).objects = σ.objects ++ [rd] := by
  unfold State.addOne
  by_cases hin : (σ.cache.get rd.startKey).isSome <;>
    by_cases hsmall : rd.replicas.length < σ.minReplica <;> simp [hin, hsmall]

lemma addOne_etcd (σ : State) (rd : RangeDescriptor) : (σ.addOne rd).etcd = σ.etcd := by
  unfold State.addOne
  by_cases hin : (σ.cache.get rd.startKey).isSome <;>
    by_cases hsmall : rd.replicas.length < σ.minReplica <;> simp [hin, hsmall]

lemma addOne_ranges (σ : State) (rd : RangeDescriptor) :
    (σ.addOne rd).ranges = Function.update σ.ranges rd.rangeID (some σ.objects.length) := by
  unfold State.addOne
  by_cases hin : (σ.cache.get rd.startKey).isSome <;>
    by_cases hsmall : rd.replicas.length < σ.minReplica <;> simp [hin, hsmall]

lemma addOne_unstable_eq (σ : State) (rd : RangeDescriptor) (id : RangeID) :
    (σ.addOne rd).unstable id =
      if id = rd.rangeID then
        if rd.replicas.length < σ.minReplica then some σ.objects.length
        else if (σ.cache.get rd.startKey).isSome then none else σ.unstable id
      else σ.unstable id := by
  unfold State.addOne
  by_cases hin : (σ.cache.get rd.startKey).isSome <;>
    by_cases hsmall : rd.replicas.length < σ.minReplica <;>
    by_cases hid : id = rd.rangeID <;> simp [hin, hsmall, hid]

lemma addOne_unstable (h : (σ.addOne rd).unstable id = some p) :
    (id = rd.rangeID ∧ p = σ.objects.length) ∨ σ.unstable id = some p := by
  rw [addOne_unstable_eq] at h
  split_ifs at h with hid
  · exact .inl ⟨hid, (Option.some.inj h).symm⟩
  · exact .inr h
  · exact .inr h

lemma addOne_cache (σ : State) (rd : RangeDescriptor) (k : Key) :
    (σ.addOne rd).cache.get k =
      if k = rd.startKey then some σ.objects.length else σ.cache.get k := by
  unfold State.addOne
  by_cases hin : (σ.cache.get rd.startKey).isSome <;>
    by_cases hsmall : rd.replicas.length < σ.minReplica <;>
    by_cases hk : k = rd.startKey <;> simp [hin, hsmall, hk]

lemma addOne_minReplica (σ : State) (rd : RangeDescriptor) :
    (σ.addOne rd).minReplica = σ.minReplica := by
  unfold State.addOne
  by_cases hin : (σ.cache.get rd.startKey).isSome <;>
    by_cases hsmall : rd.replicas.length < σ.minReplica <;> simp [hin, hsmall]

lemma addOne_deref_old (h : σ.deref p = some d) : (σ.addOne rd).deref p = some d := by
  rw [State.deref, addOne_objects, List.getElem?_append_left (lt_of_deref h)]
  exact h

lemma addOne_deref_new : (σ.addOne rd).deref σ.objects.length = some rd := by
  simp [State.deref, addOne_objects]

/-- The pointers of the indexes lead to what the cache without pointers has. -/
structure Shows (σ : State) (r : RangeDescriptorCache) : Prop where
  minReplica : r.minReplica = σ.minReplica
  ranges : ∀ id, Option.Rel (fun p d => σ.deref p = some d) (σ.ranges id) (r.ranges id)
  unstable : ∀ id, Option.Rel (fun p d => σ.deref p = some d) (σ.unstable id) (r.unstable id)
  cache : ∀ k, Option.Rel (fun p d => σ.deref p = some d) (σ.cache.get k) (r.cache.get k)

lemma rel_old {o : Option Pointer} {o' : Option RangeDescriptor}
    (h : Option.Rel (fun p d => σ.deref p = some d) o o') :
    Option.Rel (fun p d => (σ.addOne rd).deref p = some d) o o' := by
  cases h with
  | some hd => exact .some (addOne_deref_old hd)
  | none => exact .none

lemma rel_isSome {o : Option Pointer} {o' : Option RangeDescriptor}
    (h : Option.Rel (fun p d => σ.deref p = some d) o o') : o'.isSome = o.isSome := by
  cases h <;> rfl

/-- `Add` with pointers does what `Add` without them does. -/
lemma Shows.addOne {r : RangeDescriptorCache} (h : Shows σ r) (rd : RangeDescriptor) :
    Shows (σ.addOne rd) (r.addOne rd) := by
  have hsmall : (rd.replicas.length : Int) < r.minReplica ↔ rd.replicas.length < σ.minReplica := by
    rw [h.minReplica, Nat.cast_lt]
  have hin := rel_isSome (h.cache rd.startKey)
  refine ⟨?_, fun id => ?_, fun id => ?_, fun k => ?_⟩
  · rw [RangeDescriptorCache.addOne_minReplica, addOne_minReplica, h.minReplica]
  · rw [addOne_ranges, RangeDescriptorCache.addOne_ranges, Function.update_apply]
    split_ifs
    · exact .some addOne_deref_new
    · exact rel_old (h.ranges id)
  · rw [addOne_unstable_eq, RangeDescriptorCache.addOne_unstable, hin]
    simp only [hsmall]
    split_ifs
    · exact .some addOne_deref_new
    · exact .none
    · exact rel_old (h.unstable id)
    · exact rel_old (h.unstable id)
  · rw [addOne_cache, RangeDescriptorCache.addOne_get]
    split_ifs
    · exact .some addOne_deref_new
    · exact rel_old (h.cache k)

theorem Shows.add {r : RangeDescriptorCache} (h : Shows σ r) (rds : List RangeDescriptor) :
    Shows (rds.foldl State.addOne σ) (r.add rds) := by
  induction rds generalizing σ r with
  | nil => exact h
  | cons rd rds ih => exact ih (h.addOne rd)

lemma inv_addOne (h : Inv σ) (rd : RangeDescriptor) : Inv (σ.addOne rd) := by
  constructor
  · intro id p hp
    rw [addOne_ranges] at hp
    by_cases hid : id = rd.rangeID
    · subst hid
      rw [Function.update_self] at hp
      cases hp
      exact ⟨rd, addOne_deref_new, rfl⟩
    · rw [Function.update_of_ne hid] at hp
      obtain ⟨d, hd, hdid⟩ := h.ranges id p hp
      exact ⟨d, addOne_deref_old hd, hdid⟩
  · intro id p hp
    obtain ⟨rfl, rfl⟩ | hp := addOne_unstable hp
    · exact ⟨rd, addOne_deref_new, rfl⟩
    · obtain ⟨d, hd, hdid⟩ := h.unstable id p hp
      exact ⟨d, addOne_deref_old hd, hdid⟩

/-- `Add` changes the answer for its own range only. -/
lemma getRangeDescriptor_addOne (h : Inv σ) (rd : RangeDescriptor) :
    (σ.addOne rd).getRangeDescriptor =
      Function.update σ.getRangeDescriptor rd.rangeID (some rd) := by
  funext id
  rw [State.getRangeDescriptor, addOne_ranges]
  by_cases hid : id = rd.rangeID
  · subst hid
    rw [Function.update_self, Function.update_self, Option.bind_some, addOne_deref_new]
  · rw [Function.update_of_ne hid, Function.update_of_ne hid]
    cases hp : σ.ranges id with
    | none => simp [State.getRangeDescriptor, hp]
    | some p =>
      obtain ⟨d, hd, -⟩ := h.ranges id p hp
      simp [State.getRangeDescriptor, hp, hd, addOne_deref_old hd]

lemma foldl_addOne (h : Inv σ) (rds : List RangeDescriptor) :
    Inv (rds.foldl State.addOne σ) ∧ (rds.foldl State.addOne σ).etcd = σ.etcd ∧
      (rds.foldl State.addOne σ).getRangeDescriptor = State.put σ.getRangeDescriptor rds := by
  induction rds generalizing σ with
  | nil => exact ⟨h, rfl, rfl⟩
  | cons rd rds ih =>
    obtain ⟨hinv, hetcd, hget⟩ := ih (inv_addOne h rd)
    refine ⟨hinv, hetcd.trans (addOne_etcd σ rd), hget.trans ?_⟩
    rw [getRangeDescriptor_addOne h rd]
    rfl

lemma deref_assign (hq : σ.deref p = some rd) :
    (σ.assign p d).deref q = if q = p then some d else σ.deref q := by
  have hlt := lt_of_deref hq
  by_cases h : q = p
  · subst h
    simp [State.deref, State.assign, hlt]
  · simp [State.deref, State.assign, h, List.getElem?_set_ne (Ne.symm h)]

lemma inv_assign (h : Inv σ) (hp : σ.deref p = some rd) (hid : d.rangeID = rd.rangeID) :
    Inv (σ.assign p d) := by
  have hkeep : ∀ q e id, σ.deref q = some e → e.rangeID = id →
      ∃ e', (σ.assign p d).deref q = some e' ∧ e'.rangeID = id := by
    intro q e id he hide
    rw [deref_assign hp]
    by_cases hq : q = p
    · subst hq
      rw [hp] at he
      cases he
      exact ⟨d, if_pos rfl, hid.trans hide⟩
    · exact ⟨e, by rw [if_neg hq, he], hide⟩
  refine ⟨fun i q hq => ?_, fun i q hq => ?_⟩
  · obtain ⟨e, he, hide⟩ := h.ranges i q hq
    exact hkeep q e i he hide
  · obtain ⟨e, he, hide⟩ := h.unstable i q hq
    exact hkeep q e i he hide

/-- An assignment changes the answer for the range whose object it is. -/
lemma getRangeDescriptor_assign (hp : σ.deref p = some rd) (i : RangeID) :
    (σ.assign p d).getRangeDescriptor i =
      if σ.ranges i = some p then some d else σ.getRangeDescriptor i := by
  show (σ.ranges i).bind (σ.assign p d).deref = _
  cases hi : σ.ranges i with
  | none => simp [State.getRangeDescriptor, hi]
  | some q =>
    rw [Option.bind_some, deref_assign hp]
    by_cases hq : q = p
    · simp [hq]
    · simp [hq, State.getRangeDescriptor, hi]

end Pointers

/-! ### One operation -/

section Step

variable {σ σ' : State}

lemma inv_setRangeDescriptors (h : Inv σ) (rds : List RangeDescriptor) (succeeds : Bool) :
    Inv (σ.setRangeDescriptors rds succeeds) := by
  unfold State.setRangeDescriptors
  split_ifs
  · have hinv : Inv { σ with etcd := State.put σ.etcd rds } := ⟨h.ranges, h.unstable⟩
    exact (foldl_addOne hinv rds).1
  · exact h

lemma same_put {f g : RangeID → Option RangeDescriptor} {rds : List RangeDescriptor}
    (h : ∀ id, (∀ rd ∈ rds, rd.rangeID ≠ id) → Same (f id) (g id)) (id : RangeID) :
    Same (State.put f rds id) (State.put g rds id) := by
  unfold State.put
  induction rds generalizing f g with
  | nil => exact h id fun rd hrd => nomatch hrd
  | cons rd rds ih =>
    refine ih fun i hi => ?_
    by_cases hid : i = rd.rangeID
    · subst hid
      simp only [Function.update_self]
      exact Same.refl _
    · simp only [Function.update_of_ne hid]
      refine h i fun e he => ?_
      obtain rfl | he := List.mem_cons.mp he
      · exact Ne.symm hid
      · exact hi e he

/-- A put that goes through makes the cache and etcd alike wherever they were, and for the
ranges it is about. -/
lemma synced_put {rds : List RangeDescriptor} (hinv : Inv σ)
    (h : ∀ id, (∀ rd ∈ rds, rd.rangeID ≠ id) → Same (σ.getRangeDescriptor id) (σ.etcd id)) :
    Synced (σ.setRangeDescriptors rds true) := by
  have hinv' : Inv { σ with etcd := State.put σ.etcd rds } := ⟨hinv.ranges, hinv.unstable⟩
  obtain ⟨-, hetcd, hget⟩ := foldl_addOne hinv' rds
  intro id
  rw [State.setRangeDescriptors, if_pos rfl, hetcd, hget]
  exact same_put h id

lemma synced_setRangeDescriptors (hinv : Inv σ) (h : Synced σ) (rds : List RangeDescriptor)
    (succeeds : Bool) : Synced (σ.setRangeDescriptors rds succeeds) := by
  cases succeeds with
  | true => exact synced_put hinv fun id _ => h id
  | false => exact h

/-- What an operation does: it sets descriptors, or assigns to an object first. -/
inductive Effect (σ : State) : Action → State → Prop
  | set {a : Action} (rds : List RangeDescriptor) (succeeds : Bool) (ha : Clean σ a) :
      Effect σ a (σ.setRangeDescriptors rds succeeds)
  | fill (id : RangeID) (p : Pointer) (rd : RangeDescriptor) (reps : List ReplicaDescriptor)
      (succeeds : Bool) (hp : σ.unstable id = some p) (hrd : σ.deref p = some rd) :
      Effect σ (.checkReplica id reps succeeds)
        ((σ.assign p { rd with replicas := rd.replicas ++ reps }).setRangeDescriptors
          [{ rd with replicas := rd.replicas ++ reps }] succeeds)
  | adjust (id : RangeID) (p : Pointer) (rd : RangeDescriptor) (nodeID : NodeID)
      (hp : σ.ranges id = some p) (hrd : σ.deref p = some rd) :
      Effect σ (.adjustLeader id nodeID)
        (σ.assign p { rd with replicas := adjustLeader nodeID rd.replicas })

theorem step_effect {a : Action} (h : σ.step a = some σ') : Effect σ a σ' := by
  cases a with
  | setRangeDescriptors rds succeeds =>
    cases h
    exact .set rds succeeds trivial
  | checkReplica id reps succeeds =>
    obtain ⟨p, hp, h⟩ := Option.bind_eq_some_iff.mp h
    obtain ⟨rd, hrd, h⟩ := Option.bind_eq_some_iff.mp h
    split_ifs at h
    cases h
    exact .fill id p rd reps succeeds hp hrd
  | requestSplit post prev succeeds =>
    cases h
    exact .set [post, prev] succeeds trivial
  | deleteReplica id nodeID succeeds =>
    obtain ⟨rd, hrd, h⟩ := Option.bind_eq_some_iff.mp h
    split_ifs at h
    cases h
    exact .set _ succeeds trivial
  | adjustLeader id nodeID =>
    obtain ⟨p, hp, h⟩ := Option.bind_eq_some_iff.mp h
    obtain ⟨rd, hrd, h⟩ := Option.bind_eq_some_iff.mp h
    cases h
    exact .adjust id p rd nodeID hp hrd

lemma step_inv {a : Action} (hinv : Inv σ) (h : σ.step a = some σ') : Inv σ' := by
  cases step_effect h with
  | set rds succeeds ha => exact inv_setRangeDescriptors hinv rds succeeds
  | fill id p rd reps succeeds hp hrd =>
    refine inv_setRangeDescriptors (inv_assign hinv hrd ?_) _ succeeds
    rfl
  | adjust id p rd nodeID hp hrd => exact inv_assign hinv hrd rfl

/-- An object belongs to one range. -/
lemma range_of_pointer (hinv : Inv σ) {i : RangeID} {p : Pointer} {rd : RangeDescriptor}
    (hi : σ.ranges i = some p) (hrd : σ.deref p = some rd) : i = rd.rangeID := by
  obtain ⟨d, hd, hid⟩ := hinv.ranges i p hi
  rw [hrd] at hd
  cases hd
  exact hid.symm

lemma synced_fill {id : RangeID} {p : Pointer} {rd : RangeDescriptor}
    {reps : List ReplicaDescriptor} {succeeds : Bool} (hinv : Inv σ) (h : Synced σ)
    (hp : σ.unstable id = some p) (hrd : σ.deref p = some rd) :
    Synced ((σ.assign p { rd with replicas := rd.replicas ++ reps }).setRangeDescriptors
        [{ rd with replicas := rd.replicas ++ reps }] succeeds) ↔
      Clean σ (.checkReplica id reps succeeds) := by
  have hid : rd.rangeID = id := by
    obtain ⟨d, hd, hdid⟩ := hinv.unstable id p hp
    rw [hrd] at hd
    cases hd
    exact hdid
  have hget : ∀ i, (σ.assign p { rd with replicas := rd.replicas ++ reps }).getRangeDescriptor i =
      if σ.ranges i = some p then some { rd with replicas := rd.replicas ++ reps }
      else σ.getRangeDescriptor i := getRangeDescriptor_assign hrd
  cases succeeds with
  | true =>
    refine iff_of_true (synced_put (inv_assign hinv hrd rfl) fun i hi => ?_) (.inl rfl)
    have hne : σ.ranges i ≠ some p := fun he =>
      hi _ List.mem_cons_self (range_of_pointer hinv he hrd).symm
    rw [hget, if_neg hne]
    exact h i
  | false =>
    show Synced (σ.assign p { rd with replicas := rd.replicas ++ reps }) ↔
      false = true ∨ reps = [] ∨ σ.ranges id ≠ σ.unstable id
    rw [hp]
    constructor
    · intro h'
      by_cases hr : σ.ranges id = some p
      · -- etcd holds the replicas of before, so there can be no new ones
        have hnow := h' id
        have hbefore := h id
        rw [hget, if_pos hr] at hnow
        rw [State.getRangeDescriptor, hr, Option.bind_some, hrd] at hbefore
        change Same _ (σ.etcd id) at hnow
        cases he : σ.etcd id with
        | none =>
          rw [he] at hnow
          exact hnow.elim
        | some e =>
          rw [he] at hnow hbefore
          have hlen := hnow.2.2.2.length_eq.trans hbefore.2.2.2.length_eq.symm
          simp only [List.length_append] at hlen
          exact .inr (.inl (List.eq_nil_of_length_eq_zero (by omega)))
      · exact .inr (.inr hr)
    · rintro (hf | rfl | hr) i
      · cases hf
      · rw [hget]
        split_ifs with hi
        · have hbefore := h i
          rw [State.getRangeDescriptor, hi, Option.bind_some, hrd] at hbefore
          rw [List.append_nil]
          exact hbefore
        · exact h i
      · have hne : σ.ranges i ≠ some p := fun he => by
          have hi := range_of_pointer hinv he hrd
          rw [hi, hid] at he
          exact hr he
        rw [hget, if_neg hne]
        exact h i

lemma synced_adjust {p : Pointer} {rd : RangeDescriptor} {nodeID : NodeID}
    (h : Synced σ) (hrd : σ.deref p = some rd) :
    Synced (σ.assign p { rd with replicas := adjustLeader nodeID rd.replicas }) := by
  intro i
  rw [getRangeDescriptor_assign hrd]
  split_ifs with hi
  · have hbefore := h i
    rw [State.getRangeDescriptor, hi, Option.bind_some, hrd] at hbefore
    change Same _ (σ.etcd i)
    cases he : σ.etcd i with
    | none =>
      rw [he] at hbefore
      exact hbefore.elim
    | some e =>
      rw [he] at hbefore
      obtain ⟨hid, hstart, hend, hperm⟩ := hbefore
      exact ⟨hid, hstart, hend, (perm_adjustLeader nodeID rd.replicas).trans hperm⟩
  · exact h i

/-- **An operation keeps the cache and etcd alike exactly when it is clean.** -/
lemma synced_step {a : Action} (hinv : Inv σ) (h : Synced σ) (hs : σ.step a = some σ') :
    Synced σ' ↔ Clean σ a := by
  cases step_effect hs with
  | set rds succeeds ha => exact iff_of_true (synced_setRangeDescriptors hinv h rds succeeds) ha
  | fill id p rd reps succeeds hp hrd => exact synced_fill hinv h hp hrd
  | adjust id p rd nodeID hp hrd => exact iff_of_true (synced_adjust h hrd) trivial

end Step

/-- **When the cache equals etcd.** Along the operations of the placement driver, with any puts
failing, every `getRangeDescriptor` answers with what etcd holds, up to the order of replicas,
exactly when no put of `checkReplica` fails for a cached object that has got new replicas. -/
theorem synced_iff {minReplica : ℕ} {l : List Action} {σ : State}
    (hrun : Steps.run State.step { minReplica } l = some σ) :
    Steps.Always State.step Synced { minReplica } l ↔
      Steps.Along State.step Clean { minReplica } l := by
  refine Steps.always_iff_along (I := Inv) (fun _ _ _ hinv hs => step_inv hinv hs)
    (fun _ _ _ hinv h hs => synced_step hinv h hs) ?_ (fun id => trivial) hrun
  exact ⟨fun id p hp => (nomatch hp), fun id p hp => (nomatch hp)⟩

/-- A default range gets its replicas, and the put fails. -/
def unsaved : List Action :=
  [.setRangeDescriptors [⟨2, [2], [3], []⟩] true,
    .checkReplica 2 [⟨1, 5⟩, ⟨2, 6⟩, ⟨3, 7⟩] false]

/-- **A failed put leaves the cached descriptor changed.** -/
theorem failed_put_changes_cache :
    ∃ σ, Steps.run State.step { minReplica := 3 } unsaved = some σ ∧
      σ.getRangeDescriptor 2 = some ⟨2, [2], [3], [⟨1, 5⟩, ⟨2, 6⟩, ⟨3, 7⟩]⟩ ∧
      σ.etcd 2 = some ⟨2, [2], [3], []⟩ ∧ ¬Synced σ := by
  refine ⟨_, rfl, rfl, rfl, fun h => ?_⟩
  exact absurd (h 2).2.2.2.length_eq (by decide)

/-- The put goes through, a replica is removed while etcd fails, and the leader changes. -/
def saved : List Action :=
  [.setRangeDescriptors [⟨2, [2], [3], []⟩] true,
    .checkReplica 2 [⟨1, 5⟩, ⟨2, 6⟩, ⟨3, 7⟩] true, .deleteReplica 2 1 false, .adjustLeader 2 3]

theorem synced_saved : Steps.Always State.step Synced { minReplica := 3 } saved := by
  obtain ⟨σ, hσ⟩ : ∃ σ, Steps.run State.step { minReplica := 3 } saved = some σ := ⟨_, rfl⟩
  exact (synced_iff hσ).mpr (by decide +kernel)

end Ancestor.RegionStore
