import Ancestor.SystemRange
import Ancestor.Lib.Steps

/-!
The registration of nodes at the placement driver (`handleBootstrap` of `pd/server.go`, and
`pd/cluster.go`).

A request looks its address up in the table of hosts. When the address is not there it takes a
new id, puts the descriptor into etcd, enters it into the tables and adds the node's system
range. No lock is held from one of these steps to the next, so the steps of several requests
may come in any order. etcd does not fail.
-/

namespace Ancestor.Bootstrap

abbrev Address := String
abbrev RequestID := ℕ

structure NodeDescriptor where
  nodeID : NodeID
  address : Address
  capacity : Int64
  deriving DecidableEq, Repr

/-- Where a request stands in `handleBootstrap`. -/
inductive Phase
  | idle
  /-- answered with what `getNodeByAddr` found -/
  | found (addr : Address) (nd : NodeDescriptor)
  | missed (addr : Address) (cap : Int64)
  /-- the id is there, before `masterPut` -/
  | allocated (nd : NodeDescriptor)
  /-- before `addNodeCache` -/
  | stored (nd : NodeDescriptor)
  /-- before `addSystemRangeDescriptor` -/
  | cached (nd : NodeDescriptor)
  | answered (nd : NodeDescriptor)
  deriving DecidableEq, Repr

namespace Phase

/-- The address and the id of a successful response. -/
def response : Phase → Option (Address × NodeID)
  | .found addr nd => some (addr, nd.nodeID)
  | .answered nd => some (nd.address, nd.nodeID)
  | _ => none

/-- The request is over, or has not come in. -/
def isQuiet : Phase → Bool
  | .idle | .found _ _ | .answered _ => true
  | _ => false

end Phase

/-- The tables of the cluster and of the regions, what etcd holds of them, the ids `newID` has
given out, and the requests. -/
structure State where
  nodes : NodeID → Option NodeDescriptor := fun _ => none
  hosts : Address → Option NodeDescriptor := fun _ => none
  nodeKeys : NodeID → Option NodeDescriptor := fun _ => none
  ranges : RangeDescriptorCache
  rangeKeys : RangeID → Option RangeDescriptor := fun _ => none
  given : List Int64 := []
  phase : RequestID → Phase := fun _ => .idle

namespace State

def setPhase (σ : State) (r : RequestID) (phase : Phase) : State :=
  { σ with phase := Function.update σ.phase r phase }

def getNodeByAddr (σ : State) (addr : Address) : Option NodeDescriptor := σ.hosts addr

def addNodeCache (σ : State) (nd : NodeDescriptor) : State :=
  { σ with
    nodes := Function.update σ.nodes nd.nodeID (some nd)
    hosts := Function.update σ.hosts nd.address (some nd) }

/-- `addSystemRangeDescriptor` with the put of `setRangeDescriptors`. -/
def addSystemRangeDescriptor (σ : State) (id : NodeID) : State :=
  let rd := systemRangeDescriptor id
  { σ with
    rangeKeys := Function.update σ.rangeKeys rd.rangeID (some rd)
    ranges := Ancestor.addSystemRangeDescriptor σ.ranges id }

end State

inductive Action
  | getNodeByAddr (r : RequestID) (addr : Address) (cap : Int64)
  /-- `newID` gives an id it has not given before -/
  | newID (r : RequestID) (id : Int64)
  | masterPut (r : RequestID)
  | addNodeCache (r : RequestID)
  | addSystemRangeDescriptor (r : RequestID)
  deriving DecidableEq, Repr

def State.step (σ : State) : Action → Option State
  | .getNodeByAddr r addr cap =>
    match σ.phase r with
    | .idle =>
      match σ.getNodeByAddr addr with
      | some nd => some (σ.setPhase r (.found addr nd))
      | none => some (σ.setPhase r (.missed addr cap))
    | _ => none
  | .newID r id =>
    match σ.phase r with
    | .missed addr cap =>
      if id ∈ σ.given then none
      else some { σ.setPhase r (.allocated ⟨id.toInt32, addr, cap⟩) with given := id :: σ.given }
    | _ => none
  | .masterPut r =>
    match σ.phase r with
    | .allocated nd => some { σ.setPhase r (.stored nd) with
        nodeKeys := Function.update σ.nodeKeys nd.nodeID (some nd) }
    | _ => none
  | .addNodeCache r =>
    match σ.phase r with
    | .stored nd => some ((σ.addNodeCache nd).setPhase r (.cached nd))
    | _ => none
  | .addSystemRangeDescriptor r =>
    match σ.phase r with
    | .cached nd => some ((σ.addSystemRangeDescriptor nd.nodeID).setPhase r (.answered nd))
    | _ => none

/-- Successful responses for one address carry one id. -/
def Agree (σ : State) : Prop :=
  ∀ r r' addr id id', (σ.phase r).response = some (addr, id) →
    (σ.phase r').response = some (addr, id') → id = id'

/-- Every request that has come in has been answered. -/
def Quiet (σ : State) : Prop := ∀ r, (σ.phase r).isQuiet = true

/-- The descriptor an action enters into the tables. -/
def State.entered (σ : State) : Action → Option NodeDescriptor
  | .addNodeCache r =>
    match σ.phase r with
    | .stored nd => some nd
    | _ => none
  | _ => none

/-- No entry of the table of hosts is replaced by one with another id. -/
def Single (σ : State) (a : Action) : Prop :=
  ∀ nd ∈ σ.entered a, ∀ n ∈ σ.hosts nd.address, n.nodeID = nd.nodeID

instance (σ : State) (a : Action) : Decidable (Single σ a) :=
  inferInstanceAs (Decidable (∀ nd ∈ σ.entered a, ∀ n ∈ σ.hosts nd.address, n.nodeID = nd.nodeID))

lemma single_of_entered {σ : State} {a : Action} (h : σ.entered a = none) : Single σ a := by
  intro nd hnd
  rw [h] at hnd
  cases hnd

/-! ### What a step does -/

/-- The lookup has missed and the address is not entered yet. -/
def Phase.pending : Phase → Option Address
  | .missed addr _ => some addr
  | .allocated nd => some nd.address
  | .stored nd => some nd.address
  | _ => none

/-- The address and the id a request will answer with, or has answered with. -/
def Phase.settled : Phase → Option (Address × NodeID)
  | .found addr nd => some (addr, nd.nodeID)
  | .cached nd => some (nd.address, nd.nodeID)
  | .answered nd => some (nd.address, nd.nodeID)
  | _ => none

/-- The kinds of steps: one that moves a request without the table of hosts, and one that
enters a descriptor into it. -/
inductive Effect (σ : State) : Action → State → Prop
  | found {a : Action} {σ' : State} (r : RequestID) (addr : Address) (n : NodeDescriptor)
      (hp : σ.phase r = .idle) (hn : σ.hosts addr = some n) (hhosts : σ'.hosts = σ.hosts)
      (hphase : σ'.phase = Function.update σ.phase r (.found addr n)) (ha : Single σ a) :
      Effect σ a σ'
  | missed {a : Action} {σ' : State} (r : RequestID) (addr : Address) (cap : Int64)
      (hp : σ.phase r = .idle) (hn : σ.hosts addr = none) (hhosts : σ'.hosts = σ.hosts)
      (hphase : σ'.phase = Function.update σ.phase r (.missed addr cap)) (ha : Single σ a) :
      Effect σ a σ'
  | move {a : Action} {σ' : State} (r : RequestID) (phase : Phase)
      (hpending : (σ.phase r).pending = phase.pending)
      (hsettled : (σ.phase r).settled = phase.settled) (hhosts : σ'.hosts = σ.hosts)
      (hphase : σ'.phase = Function.update σ.phase r phase) (ha : Single σ a) : Effect σ a σ'
  | enter {σ' : State} (r : RequestID) (nd : NodeDescriptor) (hp : σ.phase r = .stored nd)
      (hhosts : σ'.hosts = Function.update σ.hosts nd.address (some nd))
      (hphase : σ'.phase = Function.update σ.phase r (.cached nd)) :
      Effect σ (.addNodeCache r) σ'

theorem step_effect {σ σ' : State} {a : Action} (h : σ.step a = some σ') : Effect σ a σ' := by
  cases a with
  | getNodeByAddr r addr cap =>
    simp only [State.step] at h
    split at h
    · rename_i hp
      split at h
      · rename_i nd hn
        cases h
        exact .found r addr nd hp hn rfl rfl (single_of_entered rfl)
      · rename_i hn
        cases h
        exact .missed r addr cap hp hn rfl rfl (single_of_entered rfl)
    · cases h
  | newID r id =>
    simp only [State.step] at h
    split at h
    · rename_i addr cap hp
      split at h
      · cases h
      · cases h
        exact .move r _ (by rw [hp]; rfl) (by rw [hp]; rfl) rfl rfl (single_of_entered rfl)
    · cases h
  | masterPut r =>
    simp only [State.step] at h
    split at h
    · rename_i nd hp
      cases h
      exact .move r (.stored nd) (by rw [hp]; rfl) (by rw [hp]; rfl) rfl rfl (single_of_entered rfl)
    · cases h
  | addNodeCache r =>
    simp only [State.step] at h
    split at h
    · rename_i nd hp
      cases h
      exact .enter r nd hp rfl rfl
    · cases h
  | addSystemRangeDescriptor r =>
    simp only [State.step] at h
    split at h
    · rename_i nd hp
      cases h
      exact .move r (.answered nd) (by rw [hp]; rfl) (by rw [hp]; rfl) rfl rfl
        (single_of_entered rfl)
    · cases h

/-! ### The table of hosts -/

/-- The table is what the run began with and what its requests entered. -/
structure Inv (σ₀ σ : State) : Prop where
  pending : ∀ r addr, (σ.phase r).pending = some addr → σ₀.hosts addr = none
  owner : ∀ addr n, σ.hosts addr = some n → σ₀.hosts addr = some n ∨
    ∃ r, (σ.phase r).settled = some (addr, n.nodeID)
  keeps : ∀ addr, σ.hosts addr = none → σ₀.hosts addr = none

/-- Every id that has been settled on is the one in the table. -/
def Known (σ : State) : Prop :=
  ∀ r addr id, (σ.phase r).settled = some (addr, id) →
    ∃ n, σ.hosts addr = some n ∧ n.nodeID = id

section Step

variable {σ₀ σ σ' : State} {a : Action}

lemma phase_cases {r : RequestID} {phase : Phase} (h : σ'.phase = Function.update σ.phase r phase)
    (q : RequestID) : (q = r ∧ σ'.phase q = phase) ∨ (q ≠ r ∧ σ'.phase q = σ.phase q) := by
  by_cases hq : q = r
  · exact .inl ⟨hq, by rw [h, hq, Function.update_self]⟩
  · exact .inr ⟨hq, by rw [h, Function.update_of_ne hq]⟩

/-- What a request has settled on stays. -/
lemma settled_step (h : σ.step a = some σ') {q : RequestID} {x : Address × NodeID}
    (hq : (σ.phase q).settled = some x) : (σ'.phase q).settled = some x := by
  cases step_effect h with
  | found r addr n hp hn hhosts hphase ha =>
    obtain ⟨rfl, hq'⟩ | ⟨-, hq'⟩ := phase_cases hphase q
    · rw [hp] at hq
      cases hq
    · rwa [hq']
  | missed r addr cap hp hn hhosts hphase ha =>
    obtain ⟨rfl, hq'⟩ | ⟨-, hq'⟩ := phase_cases hphase q
    · rw [hp] at hq
      cases hq
    · rwa [hq']
  | move r phase hpending hsettled hhosts hphase ha =>
    obtain ⟨rfl, hq'⟩ | ⟨-, hq'⟩ := phase_cases hphase q
    · rwa [hq', ← hsettled]
    · rwa [hq']
  | enter r nd hp hhosts hphase =>
    obtain ⟨rfl, hq'⟩ | ⟨-, hq'⟩ := phase_cases hphase q
    · rw [hp] at hq
      cases hq
    · rwa [hq']

lemma settled_run {l : List Action} (hrun : Steps.run State.step σ l = some σ') {q : RequestID}
    {x : Address × NodeID} (hq : (σ.phase q).settled = some x) :
    (σ'.phase q).settled = some x :=
  Steps.invariant (P := fun τ => (τ.phase q).settled = some x)
    (fun _ _ _ hτ _ hs => settled_step hs hτ) hq
    (Steps.along_of_forall (C := fun _ _ => True) (fun _ _ => trivial) σ l) hrun

lemma owner_mono (hinv : Inv σ₀ σ) (h : σ.step a = some σ') {addr : Address} {n : NodeDescriptor}
    (hn : σ.hosts addr = some n) :
    σ₀.hosts addr = some n ∨ ∃ r, (σ'.phase r).settled = some (addr, n.nodeID) :=
  (hinv.owner addr n hn).imp_right fun ⟨r, hr⟩ => ⟨r, settled_step h hr⟩

/-- Only the request that moves can have a new address pending. -/
lemma pending_of_phase {r : RequestID} {phase : Phase} (hinv : Inv σ₀ σ)
    (hphase : σ'.phase = Function.update σ.phase r phase)
    (hr : ∀ addr, phase.pending = some addr → σ₀.hosts addr = none) :
    ∀ q addr, (σ'.phase q).pending = some addr → σ₀.hosts addr = none := by
  intro q addr hq
  obtain ⟨rfl, hq'⟩ | ⟨-, hq'⟩ := phase_cases hphase q
  · exact hr addr (hq' ▸ hq)
  · exact hinv.pending q addr (hq' ▸ hq)

/-- A step that leaves the table alone. -/
lemma inv_of_hosts (hinv : Inv σ₀ σ) (h : σ.step a = some σ') (hhosts : σ'.hosts = σ.hosts)
    (hpending : ∀ q addr, (σ'.phase q).pending = some addr → σ₀.hosts addr = none) :
    Inv σ₀ σ' :=
  ⟨hpending, fun _ _ hm => owner_mono hinv h (hhosts ▸ hm), fun b hb => hinv.keeps b (hhosts ▸ hb)⟩

lemma step_inv (hinv : Inv σ₀ σ) (h : σ.step a = some σ') : Inv σ₀ σ' := by
  cases step_effect h with
  | found r addr n hp hn hhosts hphase ha =>
    refine inv_of_hosts hinv h hhosts (pending_of_phase hinv hphase fun b hb => ?_)
    cases hb
  | missed r addr cap hp hn hhosts hphase ha =>
    refine inv_of_hosts hinv h hhosts (pending_of_phase hinv hphase fun b hb => ?_)
    cases hb
    exact hinv.keeps addr hn
  | move r phase hpending hsettled hhosts hphase ha =>
    refine inv_of_hosts hinv h hhosts (pending_of_phase hinv hphase fun b hb => ?_)
    exact hinv.pending r b (hpending.trans hb)
  | enter r nd hp hhosts hphase =>
    refine ⟨pending_of_phase hinv hphase fun b hb => ?_, fun b m hm => ?_, fun b hb => ?_⟩
    · cases hb
    · by_cases hb : b = nd.address
      · subst hb
        have hm' : nd = m := by simpa [hhosts] using hm
        subst hm'
        exact .inr ⟨r, by rw [hphase]; simp [Phase.settled]⟩
      · rw [hhosts, Function.update_of_ne hb] at hm
        exact owner_mono hinv h hm
    · by_cases hne : b = nd.address
      · subst hne
        simp [hhosts] at hb
      · rw [hhosts, Function.update_of_ne hne] at hb
        exact hinv.keeps b hb

/-- A step that replaces no id keeps the settled ids in the table. -/
lemma known_step (hk : Known σ) (hs : Single σ a) (h : σ.step a = some σ') : Known σ' := by
  intro q b id hq
  cases step_effect h with
  | found r addr n hp hn hhosts hphase ha =>
    rw [hhosts]
    obtain ⟨rfl, hq'⟩ | ⟨-, hq'⟩ := phase_cases hphase q
    · rw [hq'] at hq
      cases hq
      exact ⟨n, hn, rfl⟩
    · exact hk q b id (hq' ▸ hq)
  | missed r addr cap hp hn hhosts hphase ha =>
    rw [hhosts]
    obtain ⟨rfl, hq'⟩ | ⟨-, hq'⟩ := phase_cases hphase q
    · rw [hq'] at hq
      cases hq
    · exact hk q b id (hq' ▸ hq)
  | move r phase hpending hsettled hhosts hphase ha =>
    rw [hhosts]
    obtain ⟨rfl, hq'⟩ | ⟨-, hq'⟩ := phase_cases hphase q
    · rw [hq', ← hsettled] at hq
      exact hk q b id hq
    · exact hk q b id (hq' ▸ hq)
  | enter r nd hp hhosts hphase =>
    rw [hhosts]
    obtain ⟨rfl, hq'⟩ | ⟨-, hq'⟩ := phase_cases hphase q
    · rw [hq'] at hq
      cases hq
      exact ⟨nd, by simp, rfl⟩
    · obtain ⟨n, hn, hid⟩ := hk q b id (hq' ▸ hq)
      by_cases hb : b = nd.address
      · subst hb
        exact ⟨nd, by simp, (hs nd (by simp [State.entered, hp]) n hn).symm.trans hid⟩
      · exact ⟨n, by rw [Function.update_of_ne hb]; exact hn, hid⟩

end Step

/-! ### The responses -/

lemma settled_of_response {p : Phase} {x : Address × NodeID} (h : p.response = some x) :
    p.settled = some x := by
  cases p <;> first | exact h | cases h

lemma response_of_settled {p : Phase} {x : Address × NodeID} (hq : p.isQuiet = true)
    (h : p.settled = some x) : p.response = some x := by
  cases p <;> first | exact h | cases hq

lemma agree_of_known {σ : State} (h : Known σ) : Agree σ := by
  intro r r' addr id id' hr hr'
  obtain ⟨n, hn, hid⟩ := h r addr id (settled_of_response hr)
  obtain ⟨n', hn', hid'⟩ := h r' addr id' (settled_of_response hr')
  rw [hn] at hn'
  cases hn'
  exact hid.symm.trans hid'

/-- After a step that replaces an id, two requests have settled on different ids. -/
lemma clash_of_not_single {σ₀ σ σ' : State} {a : Action} (hinv : Inv σ₀ σ)
    (h : σ.step a = some σ') (hs : ¬Single σ a) :
    ∃ r r' addr id id', (σ'.phase r).settled = some (addr, id) ∧
      (σ'.phase r').settled = some (addr, id') ∧ id ≠ id' := by
  cases step_effect h with
  | found r addr n hp hn hhosts hphase ha => exact absurd ha hs
  | missed r addr cap hp hn hhosts hphase ha => exact absurd ha hs
  | move r phase hpending hsettled hhosts hphase ha => exact absurd ha hs
  | enter r nd hp hhosts hphase =>
    have hentered : σ.entered (.addNodeCache r) = some nd := by simp [State.entered, hp]
    simp only [Single, hentered, Option.mem_some_iff, forall_eq', not_forall] at hs
    obtain ⟨n, hn, hne⟩ := hs
    -- the address was not in the table the run began with, so a request has entered it
    obtain hinit | ⟨r', hr'⟩ := owner_mono hinv h hn
    · have hnone := hinv.pending r nd.address (by rw [hp]; rfl)
      rw [hinit] at hnone
      cases hnone
    · exact ⟨r', r, nd.address, n.nodeID, nd.nodeID, hr', by rw [hphase]; simp [Phase.settled], hne⟩

lemma single_of_agree {σ₀ σ σ' : State} {l : List Action} (hinv : Inv σ₀ σ)
    (hrun : Steps.run State.step σ l = some σ') (hq : Quiet σ') (hagree : Agree σ') :
    Steps.Along State.step Single σ l := by
  induction l generalizing σ with
  | nil => trivial
  | cons a l ih =>
    obtain ⟨τ, hτ, hl⟩ := Steps.run_cons.mp hrun
    refine ⟨?_, fun u hu => ?_⟩
    · by_contra hs
      obtain ⟨r, r', addr, id, id', hr, hr', hne⟩ := clash_of_not_single hinv hτ hs
      exact hne (hagree r r' addr id id' (response_of_settled (hq r) (settled_run hl hr))
        (response_of_settled (hq r') (settled_run hl hr')))
    · rw [hτ] at hu
      cases hu
      exact ih (step_inv hinv hτ) hl

lemma known_run {σ σ' : State} {l : List Action} (hk : Known σ)
    (hrun : Steps.run State.step σ l = some σ') (hs : Steps.Along State.step Single σ l) :
    Known σ' :=
  Steps.invariant (P := Known) (fun _ _ _ hτ hC h => known_step hτ hC h) hk hs hrun

/-- **When one address has one id.** In every run in which no entry of the table of hosts is
replaced by one with another id, the successful responses for an address carry one id. When all
requests have been answered at the end, this is also necessary. -/
theorem bootstrap_agree_iff {σ₀ σ : State} {l : List Action} (hidle : ∀ r, σ₀.phase r = .idle)
    (hrun : Steps.run State.step σ₀ l = some σ) :
    (Steps.Along State.step Single σ₀ l → Agree σ) ∧
      (Quiet σ → (Agree σ ↔ Steps.Along State.step Single σ₀ l)) := by
  have hinv : Inv σ₀ σ₀ :=
    ⟨fun r addr h => (nomatch (hidle r ▸ h : Phase.idle.pending = some addr)),
      fun _ _ h => .inl h, fun _ h => h⟩
  have hknown : Known σ₀ := fun r addr id h =>
    nomatch (hidle r ▸ h : Phase.idle.settled = some (addr, id))
  have hagree : Steps.Along State.step Single σ₀ l → Agree σ :=
    fun hs => agree_of_known (known_run hknown hrun hs)
  exact ⟨hagree, fun hq => ⟨fun ha => single_of_agree hinv hrun hq ha, hagree⟩⟩

/-- Two requests of one address, the second one looking it up before the first has entered
it. -/
def twice : List Action :=
  [.getNodeByAddr 0 "node:8000" 1, .getNodeByAddr 1 "node:8000" 1, .newID 0 3, .newID 1 4,
    .masterPut 0, .addNodeCache 0, .addSystemRangeDescriptor 0,
    .masterPut 1, .addNodeCache 1, .addSystemRangeDescriptor 1]

/-- **One address gets two ids**, and both requests succeed. -/
theorem bootstrap_twice :
    ∃ σ, Steps.run State.step { ranges := { minReplica := 3 } } twice = some σ ∧
      (σ.phase 0).response = some ("node:8000", 3) ∧
      (σ.phase 1).response = some ("node:8000", 4) ∧ ¬Agree σ := by
  obtain ⟨σ, hσ⟩ : ∃ σ, Steps.run State.step { ranges := { minReplica := 3 } } twice = some σ :=
    ⟨_, rfl⟩
  have hboth : (Steps.run State.step { ranges := { minReplica := 3 } } twice).map
      (fun σ => ((σ.phase 0).response, (σ.phase 1).response)) =
        some (some ("node:8000", 3), some ("node:8000", 4)) := by decide +kernel
  rw [hσ] at hboth
  obtain ⟨hfirst, hsecond⟩ := Prod.mk.inj (Option.some.inj hboth)
  refine ⟨σ, hσ, hfirst, hsecond, fun hagree => ?_⟩
  exact absurd (hagree 0 1 _ _ _ hfirst hsecond) (by decide)

/-- A request that is retried after the first has been answered gets the same id. -/
def retried : List Action :=
  [.getNodeByAddr 0 "node:8000" 1, .newID 0 3, .masterPut 0, .addNodeCache 0,
    .addSystemRangeDescriptor 0, .getNodeByAddr 1 "node:8000" 1]

theorem bootstrap_retried :
    ∃ σ, Steps.run State.step { ranges := { minReplica := 3 } } retried = some σ ∧ Agree σ ∧
      (σ.phase 1).response = some ("node:8000", 3) := by
  obtain ⟨σ, hσ⟩ : ∃ σ, Steps.run State.step { ranges := { minReplica := 3 } } retried = some σ :=
    ⟨_, rfl⟩
  have hresponse : (Steps.run State.step { ranges := { minReplica := 3 } } retried).map
      (fun σ => (σ.phase 1).response) = some (some ("node:8000", 3)) := by decide +kernel
  rw [hσ] at hresponse
  refine ⟨σ, hσ, (bootstrap_agree_iff (fun _ => rfl) hσ).1 ?_, Option.some.inj hresponse⟩
  decide +kernel

end Ancestor.Bootstrap
