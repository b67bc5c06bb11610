import Ancestor.Bootstrap
import Ancestor.IdAllocator
import Ancestor.RangeIndex

/-!
The registration of nodes when puts into etcd fail (`handleBootstrap` of `pd/server.go`,
`setNodes` of `pd/cluster.go`, `setRangeDescriptors` of `pd/region.go`).

A request that finds its address unknown makes two puts, the node first and its system range
after it. A retry that finds the address known makes none: when the second put has failed, the
node is answered for from then on, and its system range is never made.
-/

namespace Ancestor.Bootstrap

/-- How a put into etcd comes out. One that is not acknowledged is an error to the caller,
whether etcd has carried it out or not. -/
inductive Put
  | ok
  | failed
  | unacknowledged
  deriving DecidableEq, Repr

/-- etcd holds what was put. -/
def Put.reached : Put → Bool
  | .failed => false
  | _ => true

/-- A request, the id that `newID` gives to it or its failure, and how its puts come out. -/
structure Request where
  address : Address
  capacity : Int64
  newID : Option Int64
  nodePut : Put
  rangePut : Put
  deriving DecidableEq, Repr

namespace State

/-- `setNodes`; the tables follow a put that is acknowledged. -/
def setNodes (σ : State) (nd : NodeDescriptor) (put : Put) : Bool × State :=
  let σ := if put.reached then
    { σ with nodeKeys := Function.update σ.nodeKeys nd.nodeID (some nd) } else σ
  if put = .ok then (true, σ.addNodeCache nd) else (false, σ)

/-- `addSystemRangeDescriptor` by way of `setRangeDescriptors`. -/
def setSystemRange (σ : State) (id : NodeID) (put : Put) : Bool × State :=
  if put = .ok then (true, σ.addSystemRangeDescriptor id)
  else if put.reached then
    let rd := systemRangeDescriptor id
    (false, { σ with rangeKeys := Function.update σ.rangeKeys rd.rangeID (some rd) })
  else (false, σ)

/-- The response, none for an error, and the state after the request. -/
def handleBootstrap (σ : State) (req : Request) : Option NodeDescriptor × State :=
  match σ.getNodeByAddr req.address with
  | some nd => (some nd, σ)
  | none =>
    match req.newID with
    | none => (none, σ)
    | some id =>
      let nd : NodeDescriptor := ⟨id.toInt32, req.address, req.capacity⟩
      let (ok, σ) := ({ σ with given := id :: σ.given }).setNodes nd req.nodePut
      if ¬ ok then (none, σ)
      else
        let (ok, σ) := σ.setSystemRange nd.nodeID req.rangePut
        (if ok then some nd else none, σ)

/-- The requests one after the other. -/
def serve (σ : State) (req : Request) : Option State := some (σ.handleBootstrap req).2

end State

/-- The system range of the node in the cache of the placement driver. -/
def InCache (σ : State) (id : NodeID) : Prop :=
  σ.ranges.cache.get (nodeKey id) = some (systemRangeDescriptor id) ∧
    σ.ranges.ranges id.toInt64 = some (systemRangeDescriptor id)

def InEtcd (σ : State) (id : NodeID) : Prop :=
  σ.rangeKeys id.toInt64 = some (systemRangeDescriptor id)

instance (σ : State) (id : NodeID) : Decidable (InCache σ id) :=
  inferInstanceAs (Decidable (_ ∧ _))

instance (σ : State) (id : NodeID) : Decidable (InEtcd σ id) :=
  inferInstanceAs (Decidable (_ = _))

/-- Every node that the next request can be answered with has its system range. -/
def Addressable (σ : State) : Prop :=
  ∀ req nd, (σ.handleBootstrap req).1 = some nd →
    InEtcd (σ.handleBootstrap req).2 nd.nodeID ∧ InCache (σ.handleBootstrap req).2 nd.nodeID

/-- Once the put of the node is acknowledged, so is the put of its system range, unless the range
is there already. -/
def RangeFollows (σ : State) (req : Request) : Prop :=
  σ.hosts req.address = none → ∀ id ∈ req.newID, req.nodePut = .ok → req.rangePut = .ok ∨
    (InEtcd σ id.toInt32 ∨ req.rangePut.reached) ∧ InCache σ id.toInt32

instance (σ : State) (req : Request) : Decidable (RangeFollows σ req) :=
  inferInstanceAs (Decidable (_ → ∀ id ∈ req.newID, _))

/-! ### What a request does -/

lemma toInt64_inj {a b : NodeID} : a.toInt64 = b.toInt64 ↔ a = b := by
  refine ⟨fun h => ?_, fun h => by rw [h]⟩
  have hback := congrArg Int64.toInt32 h
  rwa [Int32.toInt32_toInt64, Int32.toInt32_toInt64] at hback

/-- The numeral can be read back, so nodes start their ranges at different keys. -/
lemma nodeKey_injective : Function.Injective nodeKey := by
  intro a b h
  have hfmt : fmtInt 0 a.toInt64 = fmtInt 0 b.toInt64 := by
    simpa [nodeKey, newKey, systemPrefix] using h
  have hparse : some a.toInt64 = some b.toInt64 := by
    rw [← IdAllocator.parseInt_formatInt, ← IdAllocator.parseInt_formatInt b.toInt64]
    exact congrArg IdAllocator.parseInt hfmt
  exact toInt64_inj.mp (Option.some.inj hparse)

section Step

variable {σ : State} {id id' : NodeID} {put : Put}

section Nodes

variable (σ) (nd : NodeDescriptor) (put)

@[simp] lemma setNodes_ok : (σ.setNodes nd put).1 = decide (put = .ok) := by
  cases put <;> rfl

@[simp] lemma setNodes_ranges : (σ.setNodes nd put).2.ranges = σ.ranges := by
  cases put <;> rfl

@[simp] lemma setNodes_rangeKeys : (σ.setNodes nd put).2.rangeKeys = σ.rangeKeys := by
  cases put <;> rfl

lemma setNodes_hosts : (σ.setNodes nd put).2.hosts =
    if put = .ok then Function.update σ.hosts nd.address (some nd) else σ.hosts := by
  cases put <;> rfl

end Nodes

@[simp] lemma setSystemRange_ok : (σ.setSystemRange id put).1 = decide (put = .ok) := by
  cases put <;> rfl

@[simp] lemma setSystemRange_hosts : (σ.setSystemRange id put).2.hosts = σ.hosts := by
  unfold State.setSystemRange
  split_ifs <;> rfl

lemma inEtcd_setSystemRange :
    InEtcd (σ.setSystemRange id put).2 id' ↔ put.reached = true ∧ id' = id ∨ InEtcd σ id' := by
  have hput : put.reached = true → (σ.setSystemRange id put).2.rangeKeys =
      Function.update σ.rangeKeys id.toInt64 (some (systemRangeDescriptor id)) := fun h => by
    unfold State.setSystemRange
    split_ifs <;> rfl
  have hskip : ¬ put.reached = true → (σ.setSystemRange id put).2.rangeKeys = σ.rangeKeys :=
    fun h => by
      have hne : put ≠ .ok := fun heq => h (heq ▸ rfl)
      rw [State.setSystemRange, if_neg hne, if_neg h]
  unfold InEtcd
  by_cases h : put.reached = true
  · rw [hput h]
    by_cases hid : id' = id
    · simp [h, hid]
    · rw [Function.update_of_ne (fun heq => hid (toInt64_inj.mp heq))]
      simp [hid]
  · rw [hskip h]
    simp [h]

lemma inCache_setSystemRange :
    InCache (σ.setSystemRange id put).2 id' ↔ put = .ok ∧ id' = id ∨ InCache σ id' := by
  have hskip : put ≠ .ok → (σ.setSystemRange id put).2.ranges = σ.ranges := fun h => by
    rw [State.setSystemRange, if_neg h]
    split_ifs <;> rfl
  unfold InCache
  by_cases h : put = .ok
  · have hput : (σ.setSystemRange id put).2.ranges =
        σ.ranges.addOne (systemRangeDescriptor id) := by
      rw [State.setSystemRange, if_pos h]
      rfl
    have hkey : nodeKey id' = (systemRangeDescriptor id).startKey ↔ id' = id :=
      nodeKey_injective.eq_iff
    have hid : id'.toInt64 = (systemRangeDescriptor id).rangeID ↔ id' = id := toInt64_inj
    rw [hput, RangeDescriptorCache.addOne_get, RangeDescriptorCache.addOne_ranges]
    simp only [hkey, hid]
    by_cases heq : id' = id
    · simp [h, heq]
    · simp [heq]
  · rw [hskip h]
    simp [h]

/-- The kinds of requests: those that leave hosts and ranges as they are, and one that enters a
host and goes on to its range. -/
inductive Served (σ : State) (req : Request) : Option NodeDescriptor → State → Prop
  | known (nd : NodeDescriptor) (h : σ.hosts req.address = some nd) : Served σ req (some nd) σ
  | refused (σ' : State) (h : σ.hosts req.address = none)
    (hput : ∀ id ∈ req.newID, req.nodePut ≠ .ok) (hhosts : σ'.hosts = σ.hosts)
    (hkeys : σ'.rangeKeys = σ.rangeKeys) (hranges : σ'.ranges = σ.ranges) : Served σ req none σ'
  | entered (id : Int64) (nd : NodeDescriptor) (σ' : State) (h : σ.hosts req.address = none)
    (hid : req.newID = some id) (hput : req.nodePut = .ok)
    (hnd : nd = ⟨id.toInt32, req.address, req.capacity⟩)
    (hhosts : σ'.hosts = Function.update σ.hosts req.address (some nd))
    (hetcd : ∀ i, InEtcd σ' i ↔ req.rangePut.reached = true ∧ i = nd.nodeID ∨ InEtcd σ i)
    (hcache : ∀ i, InCache σ' i ↔ req.rangePut = .ok ∧ i = nd.nodeID ∨ InCache σ i) :
    Served σ req (if req.rangePut = .ok then some nd else none) σ'

theorem handleBootstrap_served (σ : State) (req : Request) :
    Served σ req (σ.handleBootstrap req).1 (σ.handleBootstrap req).2 := by
  unfold State.handleBootstrap State.getNodeByAddr
  cases hhost : σ.hosts req.address with
  | some nd => exact .known nd hhost
  | none =>
    cases hid : req.newID with
    | none => exact .refused σ hhost (by simp [hid]) rfl rfl rfl
    | some id =>
      simp only [setNodes_ok, setSystemRange_ok, decide_eq_true_eq]
      by_cases hput : req.nodePut = .ok
      · -- the host is entered before the range is put
        rw [if_neg (not_not.mpr hput)]
        refine .entered id ⟨id.toInt32, req.address, req.capacity⟩ _ hhost hid hput rfl ?_ ?_ ?_
        · rw [setSystemRange_hosts, setNodes_hosts, if_pos hput]
        · intro i
          rw [inEtcd_setSystemRange, InEtcd, setNodes_rangeKeys]
          rfl
        · intro i
          rw [inCache_setSystemRange, InCache, setNodes_ranges]
          rfl
      · rw [if_pos hput]
        refine .refused _ hhost (fun _ _ => hput) ?_ (setNodes_rangeKeys _ _ _)
          (setNodes_ranges _ _ _)
        rw [setNodes_hosts, if_neg hput]

lemma handleBootstrap_known {req : Request} {nd : NodeDescriptor}
    (h : σ.hosts req.address = some nd) : σ.handleBootstrap req = (some nd, σ) := by
  simp only [State.handleBootstrap, State.getNodeByAddr, h]

/-- The known nodes are those the next requests can be answered with. -/
lemma addressable_iff :
    Addressable σ ↔ ∀ addr nd, σ.hosts addr = some nd →
      InEtcd σ nd.nodeID ∧ InCache σ nd.nodeID := by
  constructor
  · intro h addr nd hhost
    have hnext := h ⟨addr, 0, none, .ok, .ok⟩ nd
    rw [handleBootstrap_known hhost] at hnext
    exact hnext rfl
  · intro h req nd hresp
    have hserved := handleBootstrap_served σ req
    rw [hresp] at hserved
    generalize (σ.handleBootstrap req).2 = σ' at *
    generalize hr : some nd = resp at hserved
    cases hserved with
    | known n hhost =>
      cases hr
      exact h _ nd hhost
    | refused _ _ _ _ _ _ => cases hr
    | entered id n _ hhost hid hput hnd hhosts hetcd hcache =>
      split_ifs at hr with hrange
      cases hr
      exact ⟨(hetcd _).mpr (.inl ⟨hrange ▸ rfl, rfl⟩), (hcache _).mpr (.inl ⟨hrange, rfl⟩)⟩

/-- **A request keeps the nodes addressable exactly if the range follows its node.** -/
theorem addressable_step (h : Addressable σ) (req : Request) :
    Addressable (σ.handleBootstrap req).2 ↔ RangeFollows σ req := by
  rw [addressable_iff] at h ⊢
  have hserved := handleBootstrap_served σ req
  generalize (σ.handleBootstrap req).1 = resp, (σ.handleBootstrap req).2 = σ' at hserved
  cases hserved with
  | known nd hhost => exact iff_of_true h fun hnone => by simp [hhost] at hnone
  | refused _ hhost hput hhosts hkeys hranges =>
    refine iff_of_true (fun addr nd hnd => ?_) fun _ id hid hok => absurd hok (hput id hid)
    rw [InEtcd, InCache, hkeys, hranges]
    exact h addr nd (hhosts ▸ hnd)
  | entered id nd _ hhost hid hput hnd hhosts hetcd hcache =>
    have hfollows : RangeFollows σ req ↔ req.rangePut = .ok ∨
        (InEtcd σ nd.nodeID ∨ req.rangePut.reached) ∧ InCache σ nd.nodeID := by
      simp [RangeFollows, hhost, hid, hput, hnd]
    rw [hfollows]
    constructor
    · intro hall
      have hself := hall req.address nd (by rw [hhosts, Function.update_self])
      rw [hetcd, hcache] at hself
      simp only [and_true] at hself
      rcases hself.2 with hok | hcached
      · exact .inl hok
      · exact .inr ⟨hself.1.symm, hcached⟩
    · intro hrange addr n hn
      rw [hetcd, hcache]
      by_cases haddr : addr = req.address
      · subst haddr
        obtain rfl : nd = n := by simpa [hhosts] using hn
        rcases hrange with hok | ⟨hetcd', hcached⟩
        · exact ⟨.inl ⟨hok ▸ rfl, rfl⟩, .inl ⟨hok, rfl⟩⟩
        · exact ⟨hetcd'.symm.imp_left fun h => ⟨h, rfl⟩, .inr hcached⟩
      · rw [hhosts, Function.update_of_ne haddr] at hn
        exact (h addr n hn).imp .inr .inr

lemma run_serve (σ : State) (l : List Request) : ∃ σ', Steps.run State.serve σ l = some σ' := by
  induction l generalizing σ with
  | nil => exact ⟨σ, rfl⟩
  | cons req l ih =>
    obtain ⟨σ', h⟩ := ih (σ.handleBootstrap req).2
    exact ⟨σ', Steps.run_cons.mpr ⟨_, rfl, h⟩⟩

/-- **When a bootstrapped node has its system range**: in every state of a run of requests, just
if no request of the run loses the range of a node that it has entered. -/
theorem bootstrapped_addressable_iff (h : Addressable σ) (l : List Request) :
    Steps.Always State.serve Addressable σ l ↔ Steps.Along State.serve RangeFollows σ l := by
  obtain ⟨σ', hrun⟩ := run_serve σ l
  refine Steps.always_iff_along (I := fun _ => True) (fun _ _ _ _ _ => trivial) ?_ trivial h hrun
  rintro τ req τ' - hτ hstep
  cases hstep
  exact addressable_step hτ req

theorem bootstrapped_addressable_fresh :
    Steps.Always State.serve Addressable { ranges := { minReplica := 3 } }
      [⟨"node:8000", 1, some 3, .failed, .ok⟩, ⟨"node:8000", 1, some 4, .ok, .ok⟩,
        ⟨"node:8000", 1, none, .failed, .failed⟩] := by
  have hfresh : Addressable { ranges := { minReplica := 3 } } :=
    addressable_iff.mpr fun addr nd h => by cases h
  refine (bootstrapped_addressable_iff hfresh _).mpr ⟨?_, fun _ _ => ⟨?_, fun _ _ => ⟨?_, ?_⟩⟩⟩
  · intro _ _ _ hput
    cases hput
  · exact fun _ _ _ _ => .inl rfl
  · intro _ _ hid
    cases hid
  · exact fun _ _ => trivial

/-- **A retry answers for a node without a system range.** -/
theorem bootstrapped_without_range :
    ∃ σ, Steps.run State.serve { ranges := { minReplica := 3 } }
        [⟨"node:8000", 1, some 3, .ok, .failed⟩] = some σ ∧
      (σ.handleBootstrap ⟨"node:8000", 1, some 4, .ok, .ok⟩).1 = some ⟨3, "node:8000", 1⟩ ∧
      ¬ InEtcd (σ.handleBootstrap ⟨"node:8000", 1, some 4, .ok, .ok⟩).2 3 ∧
      ¬ InCache (σ.handleBootstrap ⟨"node:8000", 1, some 4, .ok, .ok⟩).2 3 := by
  refine ⟨_, rfl, ?_⟩
  have hserved := handleBootstrap_served { ranges := { minReplica := 3 } }
    ⟨"node:8000", 1, some 3, .ok, .failed⟩
  generalize (State.handleBootstrap _ _).1 = resp, (State.handleBootstrap _ _).2 = σ at hserved
  cases hserved with
  | known nd h => cases h
  | refused _ _ hput => exact absurd rfl (hput 3 rfl)
  | entered id nd _ _ hid _ hnd hhosts hetcd hcache =>
    cases hid
    subst hnd
    rw [handleBootstrap_known (by rw [hhosts, Function.update_self]), hetcd, hcache]
    refine ⟨rfl, ?_, ?_⟩
    · rintro (⟨h, -⟩ | h) <;> cases h
    · rintro (⟨h, -⟩ | ⟨h, -⟩) <;> cases h

end Step

end Ancestor.Bootstrap
