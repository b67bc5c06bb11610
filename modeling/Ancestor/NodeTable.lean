import Ancestor.Bootstrap

/-!
The tables of nodes at the placement driver (`pd/cluster.go`).

One table has the nodes by their ids, the other one by their addresses, and both hold pointers to
the same objects. A registration puts the descriptor into the object that the id has, makes a new
object and enters it in both tables. When the address is another one than before, the old object
stays in the table of addresses, under the old address and with the new descriptor.
-/

namespace Ancestor.NodeTable

open Bootstrap (NodeDescriptor Address)

/-! ### The cluster -/

structure RangeStatsInfo where
  rangeID : RangeID := 0
  nodeID : NodeID := 0
  totalBytes : Int64 := 0
  totalCount : Int64 := 0
  isRaftLeader : Bool := false
  isRemoved : Bool := false
  deriving DecidableEq, Repr

/-- A map that is nil is one without entries. -/
structure NodeStatsInfo where
  nodeID : NodeID := 0
  totalBytes : Int64 := 0
  totalCount : Int64 := 0
  leaderCount : UInt64 := 0
  rangeStatsInfo : RangeID → Option RangeStatsInfo := fun _ => none

structure Node where
  desc : NodeDescriptor
  stats : NodeStatsInfo := {}

/-- Pointers are positions in `objs`, where every object stays that was made. -/
structure Cluster where
  objs : List Node := []
  nodes : NodeID → Option ℕ := fun _ => none
  hosts : Address → Option ℕ := fun _ => none

def newCluster : Cluster := {}

namespace Cluster

variable (c : Cluster)

/-- The object that a table points to. -/
def deref (p : Option ℕ) : Option Node := p.bind (c.objs[·]?)

def nodeAt (id : NodeID) : Option Node := c.deref (c.nodes id)

/-- None stands for `ErrNotFound`. -/
def getNodeByAddr (addr : Address) : Option NodeDescriptor := (c.deref (c.hosts addr)).map Node.desc

/-- A turn of the loop of `addNodeCache`. -/
def addNode (nd : NodeDescriptor) : Cluster :=
  let objs :=
    match c.nodes nd.nodeID with
    | some p => c.objs.modify p ({ · with desc := nd })
    | none => c.objs
  { objs := objs ++ [{ desc := nd }]
    nodes := Function.update c.nodes nd.nodeID (some objs.length)
    hosts := Function.update c.hosts nd.address (some objs.length) }

def addNodeCache (nds : List NodeDescriptor) : Cluster := nds.foldl addNode c

/-- A turn of the loop of `delNodeCache`. -/
def delNode (nd : NodeDescriptor) : Cluster :=
  { c with
    nodes := Function.update c.nodes nd.nodeID none
    hosts := Function.update c.hosts nd.address none }

def delNodeCache (nds : List NodeDescriptor) : Cluster := nds.foldl delNode c

/-- `setNodes`, whose put into etcd succeeds or fails. -/
def setNodes (nds : List NodeDescriptor) (put : Bool) : Cluster :=
  if put then c.addNodeCache nds else c

/-- `getNodes`; without ids it walks over the table of nodes, in an order that Go leaves open. -/
def getNodes (order ids : List NodeID) : List NodeDescriptor :=
  (if ids.length = 0 then order else ids).filterMap fun id => (c.nodeAt id).map Node.desc

/-- The walk over the table of nodes meets every id once. -/
structure Walks (order : List NodeID) : Prop where
  nodup : order.Nodup
  mem : ∀ id, id ∈ order ↔ (c.nodes id).isSome

end Cluster

/-! ### Calls -/

inductive Call
  | setNodes (nds : List NodeDescriptor) (put : Bool)
  | delNodeCache (nds : List NodeDescriptor)
  deriving DecidableEq, Repr

def Cluster.call (c : Cluster) : Call → Cluster
  | .setNodes nds put => c.setNodes nds put
  | .delNodeCache nds => c.delNodeCache nds

/-- **The tables agree**: an address leads to a descriptor exactly when the node of this id has the
descriptor and the address. -/
def Agree (c : Cluster) : Prop :=
  ∀ addr nd, c.getNodeByAddr addr = some nd ↔
    ∃ n, c.nodeAt nd.nodeID = some n ∧ n.desc = nd ∧ nd.address = addr

/-- What the tables are told, one descriptor at a time. -/
inductive Event
  | added (nd : NodeDescriptor)
  | deleted (nd : NodeDescriptor)
  deriving DecidableEq, Repr

def Event.desc : Event → NodeDescriptor
  | .added nd => nd
  | .deleted nd => nd

def Event.apply (c : Cluster) : Event → Cluster
  | .added nd => c.addNode nd
  | .deleted nd => c.delNode nd

/-- The descriptors of the objects that are made. -/
def Event.made : Event → List NodeDescriptor
  | .added nd => [nd]
  | .deleted _ => []

/-- A put that fails tells them nothing. -/
def Call.events : Call → List Event
  | .setNodes nds put => if put then nds.map .added else []
  | .delNodeCache nds => nds.map .deleted

/-- A later event is about the id. -/
def Moved (l : List Event) (id : NodeID) : Prop := ∃ e ∈ l, e.desc.nodeID = id

/-- A later event is about the address. -/
def Taken (l : List Event) (addr : Address) : Prop := ∃ e ∈ l, e.desc.address = addr

instance (l : List Event) (id : NodeID) : Decidable (Moved l id) :=
  inferInstanceAs (Decidable (∃ e ∈ l, _))

instance (l : List Event) (addr : Address) : Decidable (Taken l addr) :=
  inferInstanceAs (Decidable (∃ e ∈ l, _))

/-- Every registration is superseded for its id if and only if it is for its address. -/
def Paired : List Event → Prop
  | [] => True
  | .added nd :: l => (Moved l nd.nodeID ↔ Taken l nd.address) ∧ Paired l
  | .deleted _ :: l => Paired l

def decPaired : (l : List Event) → Decidable (Paired l)
  | [] => isTrue trivial
  | .added nd :: l =>
    have := decPaired l
    inferInstanceAs (Decidable ((Moved l nd.nodeID ↔ Taken l nd.address) ∧ Paired l))
  | .deleted _ :: l => decPaired l

instance (l : List Event) : Decidable (Paired l) := decPaired l

lemma call_eq_foldl (c : Cluster) (a : Call) : c.call a = a.events.foldl Event.apply c := by
  cases a with
  | setNodes nds put =>
    cases put with
    | false => rfl
    | true =>
      show nds.foldl Cluster.addNode c = (nds.map Event.added).foldl Event.apply c
      rw [List.foldl_map]
      rfl
  | delNodeCache nds =>
    show nds.foldl Cluster.delNode c = (nds.map Event.deleted).foldl Event.apply c
    rw [List.foldl_map]
    rfl

lemma foldl_call (c : Cluster) (l : List Call) :
    l.foldl Cluster.call c = (l.flatMap Call.events).foldl Event.apply c := by
  induction l generalizing c with
  | nil => rfl
  | cons a l ih => rw [List.foldl_cons, call_eq_foldl, ih, List.flatMap_cons, List.foldl_append]

/-! ### Objects -/

/-- What the tables point to, where `regs` are the descriptors that the objects were made with. The
newest object of an id, or of an address, is the one in the table, and an object in the table of
nodes has the descriptor it was made with. -/
structure Made (c : Cluster) (regs : List NodeDescriptor) : Prop where
  length : c.objs.length = regs.length
  ids : ∀ (p : ℕ) (n : Node) (r : NodeDescriptor), c.objs[p]? = some n → regs[p]? = some r →
    n.desc.nodeID = r.nodeID
  nodes : ∀ id p, c.nodes id = some p → ∃ n r, c.objs[p]? = some n ∧ regs[p]? = some r ∧
    r.nodeID = id ∧ n.desc = r ∧ ∀ q r', regs[q]? = some r' → r'.nodeID = id → q ≤ p
  hosts : ∀ addr p, c.hosts addr = some p → ∃ n r, c.objs[p]? = some n ∧ regs[p]? = some r ∧
    r.address = addr ∧ ∀ q r', regs[q]? = some r' → r'.address = addr → q ≤ p

/-- An object is in both tables or in none. -/
def Together (c : Cluster) (regs : List NodeDescriptor) : Prop :=
  ∀ p r, regs[p]? = some r → (c.nodes r.nodeID = some p ↔ c.hosts r.address = some p)

section Objects

variable {c : Cluster} {regs : List NodeDescriptor} {nd : NodeDescriptor}

lemma made_newCluster : Made newCluster [] where
  length := rfl
  ids p n r h := by simp [newCluster] at h
  nodes id p h := by cases h
  hosts addr p h := by cases h

lemma nodeAt_eq_some {id : NodeID} {n : Node} :
    c.nodeAt id = some n ↔ ∃ p, c.nodes id = some p ∧ c.objs[p]? = some n :=
  Option.bind_eq_some_iff

lemma getNodeByAddr_eq_some {addr : Address} :
    c.getNodeByAddr addr = some nd ↔
      ∃ p n, c.hosts addr = some p ∧ c.objs[p]? = some n ∧ n.desc = nd := by
  rw [Cluster.getNodeByAddr, Option.map_eq_some_iff]
  constructor
  · rintro ⟨n, hn, hnd⟩
    obtain ⟨p, hp, hobj⟩ := Option.bind_eq_some_iff.mp hn
    exact ⟨p, n, hp, hobj, hnd⟩
  · rintro ⟨p, n, hp, hobj, hnd⟩
    exact ⟨n, Option.bind_eq_some_iff.mpr ⟨p, hp, hobj⟩, hnd⟩

/-- **The tables agree when every object is in both of them or in none.** -/
lemma Made.agree_iff_together (h : Made c regs) : Agree c ↔ Together c regs := by
  constructor
  · intro hagree p r hr
    constructor
    · -- the object at the address has the same descriptor, and is both older and newer
      intro hp
      obtain ⟨n, r₁, hn, hr₁, -, hdesc, hnewest⟩ := h.nodes _ p hp
      obtain rfl : r₁ = r := Option.some.inj (hr₁.symm.trans hr)
      have haddr := (hagree r₁.address r₁).mpr ⟨n, nodeAt_eq_some.mpr ⟨p, hp, hn⟩, hdesc, rfl⟩
      obtain ⟨q, m, hq, hm, hmdesc⟩ := getNodeByAddr_eq_some.mp haddr
      obtain ⟨-, r₂, -, hr₂, -, hnewest'⟩ := h.hosts _ q hq
      have hid : r₂.nodeID = r₁.nodeID := by rw [← h.ids q m r₂ hm hr₂, hmdesc]
      rw [hq, le_antisymm (hnewest q r₂ hr₂ hid) (hnewest' p r₁ hr rfl)]
    · intro hp
      obtain ⟨m, r₁, hm, hr₁, -, hnewest⟩ := h.hosts _ p hp
      obtain rfl : r₁ = r := Option.some.inj (hr₁.symm.trans hr)
      have hid := h.ids p m r₁ hm hr₁
      obtain ⟨n, hn, hdesc, haddr⟩ :=
        (hagree r₁.address m.desc).mp (getNodeByAddr_eq_some.mpr ⟨p, m, hp, hm, rfl⟩)
      obtain ⟨q, hq, hobj⟩ := nodeAt_eq_some.mp hn
      rw [hid] at hq
      obtain ⟨n', r₂, hn', hr₂, -, hdesc', hnewest'⟩ := h.nodes _ q hq
      obtain rfl : n' = n := Option.some.inj (hn'.symm.trans hobj)
      have haddr' : r₂.address = r₁.address := by rw [← hdesc', hdesc, haddr]
      rw [hq, le_antisymm (hnewest q r₂ hr₂ haddr') (hnewest' p r₁ hr rfl)]
  · intro htogether addr nd
    constructor
    · intro hnd
      obtain ⟨p, m, hp, hm, rfl⟩ := getNodeByAddr_eq_some.mp hnd
      obtain ⟨-, r, -, hr, rfl, -⟩ := h.hosts _ p hp
      have hnode := (htogether p r hr).mpr hp
      obtain ⟨n, r₁, hn, hr₁, -, hdesc, -⟩ := h.nodes _ p hnode
      obtain rfl : n = m := Option.some.inj (hn.symm.trans hm)
      obtain rfl : r₁ = r := Option.some.inj (hr₁.symm.trans hr)
      exact ⟨n, nodeAt_eq_some.mpr ⟨p, hdesc ▸ hnode, hm⟩, rfl, by rw [hdesc]⟩
    · rintro ⟨n, hn, rfl, rfl⟩
      obtain ⟨p, hp, hobj⟩ := nodeAt_eq_some.mp hn
      obtain ⟨n', r, hn', hr, -, hdesc, -⟩ := h.nodes _ p hp
      obtain rfl : n' = n := Option.some.inj (hn'.symm.trans hobj)
      rw [hdesc] at hp ⊢
      exact getNodeByAddr_eq_some.mpr ⟨p, n', (htogether p r hr).mp hp, hobj, hdesc⟩

/-! ### What an event does to the objects -/

section Add

variable (c nd)

/-- The objects after the descriptor has been put into the one that the id has. -/
lemma addNode_objs : ∃ objs : List Node, objs.length = c.objs.length ∧
    (∀ p : ℕ, objs[p]? = if c.nodes nd.nodeID = some p then
      c.objs[p]?.map ({ · with desc := nd }) else c.objs[p]?) ∧
    c.addNode nd =
      { objs := objs ++ [{ desc := nd }]
        nodes := Function.update c.nodes nd.nodeID (some c.objs.length)
        hosts := Function.update c.hosts nd.address (some c.objs.length) } := by
  unfold Cluster.addNode
  cases hp : c.nodes nd.nodeID with
  | none => exact ⟨c.objs, rfl, fun p => by simp, rfl⟩
  | some q =>
    refine ⟨c.objs.modify q ({ · with desc := nd }), by simp, fun p => ?_, by simp⟩
    rw [List.getElem?_modify]
    by_cases hpq : q = p
    · simp [hpq]
    · simp [hpq]

@[simp] lemma addNode_nodes :
    (c.addNode nd).nodes = Function.update c.nodes nd.nodeID (some c.objs.length) := by
  obtain ⟨objs, -, -, h⟩ := addNode_objs c nd
  rw [h]

@[simp] lemma addNode_hosts :
    (c.addNode nd).hosts = Function.update c.hosts nd.address (some c.objs.length) := by
  obtain ⟨objs, -, -, h⟩ := addNode_objs c nd
  rw [h]

lemma addNode_new : (c.addNode nd).objs[c.objs.length]? = some { desc := nd } := by
  obtain ⟨objs, hlen, -, h⟩ := addNode_objs c nd
  rw [h, ← hlen, List.getElem?_concat_length]

lemma addNode_old {p : ℕ} (hp : p < c.objs.length) :
    (c.addNode nd).objs[p]? = if c.nodes nd.nodeID = some p then
      c.objs[p]?.map ({ · with desc := nd }) else c.objs[p]? := by
  obtain ⟨objs, hlen, hobjs, h⟩ := addNode_objs c nd
  rw [h, List.getElem?_append_left (hlen ▸ hp), hobjs]

end Add

lemma Made.lt_length (h : Made c regs) {p : ℕ} {r : NodeDescriptor} (hr : regs[p]? = some r) :
    p < c.objs.length := by
  rw [h.length]
  exact (List.getElem?_eq_some_iff.mp hr).1

lemma Made.new_ne (h : Made c regs) {p : ℕ} {r : NodeDescriptor} (hr : regs[p]? = some r) :
    some c.objs.length ≠ some p := by
  have hlt := h.lt_length hr
  simp only [ne_eq, Option.some.injEq]
  omega

/-- A descriptor among those made is an old one or the new one. -/
lemma concat_cases {q : ℕ} {r : NodeDescriptor} (h : (regs ++ [nd])[q]? = some r) :
    regs[q]? = some r ∨ q = regs.length ∧ r = nd := by
  rcases lt_trichotomy q regs.length with hlt | rfl | hlt
  · rw [List.getElem?_append_left hlt] at h
    exact .inl h
  · rw [List.getElem?_concat_length] at h
    exact .inr ⟨rfl, (Option.some.inj h).symm⟩
  · rw [List.getElem?_eq_none (by rw [List.length_append, List.length_singleton]; omega)] at h
    cases h

lemma concat_old {q : ℕ} {r : NodeDescriptor} (h : regs[q]? = some r) :
    (regs ++ [nd])[q]? = some r := by
  rw [List.getElem?_append_left (List.getElem?_eq_some_iff.mp h).1, h]

lemma concat_le {q : ℕ} {r : NodeDescriptor} (h : (regs ++ [nd])[q]? = some r) :
    q ≤ regs.length := by
  have hlt := (List.getElem?_eq_some_iff.mp h).1
  rw [List.length_append, List.length_singleton] at hlt
  omega

/-- What is newest of its id, or of its address, stays so when another is made. -/
lemma concat_newest {α : Type} {field : NodeDescriptor → α} {a : α} {p : ℕ} (hne : a ≠ field nd)
    (h : ∀ q r, regs[q]? = some r → field r = a → q ≤ p) (q : ℕ) (r : NodeDescriptor)
    (hr : (regs ++ [nd])[q]? = some r) (hfield : field r = a) : q ≤ p := by
  rcases concat_cases hr with hr | ⟨-, rfl⟩
  · exact h q r hr hfield
  · exact absurd hfield.symm hne

lemma Made.addNode (h : Made c regs) (nd : NodeDescriptor) :
    Made (c.addNode nd) (regs ++ [nd]) where
  length := by
    obtain ⟨objs, hlen, -, heq⟩ := addNode_objs c nd
    rw [heq, List.length_append, List.length_append, hlen, h.length]
    rfl
  ids p n r hn hr := by
    rcases concat_cases hr with hr | ⟨rfl, rfl⟩
    · rw [addNode_old c nd (h.lt_length hr)] at hn
      split_ifs at hn with hp
      · -- the object that the id has gets the descriptor
        obtain ⟨-, r₁, -, hr₁, hid, -⟩ := h.nodes _ p hp
        obtain ⟨-, -, rfl⟩ := Option.map_eq_some_iff.mp hn
        obtain rfl : r₁ = r := Option.some.inj (hr₁.symm.trans hr)
        exact hid.symm
      · exact h.ids p n r hn hr
    · rw [← h.length, addNode_new] at hn
      cases hn
      rfl
  nodes id p hp := by
    rw [addNode_nodes] at hp
    by_cases hid : id = nd.nodeID
    · subst hid
      rw [Function.update_self] at hp
      cases hp
      refine ⟨_, nd, addNode_new c nd, ?_, rfl, rfl, fun q r' hr' _ => ?_⟩
      · rw [h.length, List.getElem?_concat_length]
      · rw [h.length]
        exact concat_le hr'
    · rw [Function.update_of_ne hid] at hp
      obtain ⟨n, r, hn, hr, hrid, hdesc, hnewest⟩ := h.nodes id p hp
      have hother : c.nodes nd.nodeID ≠ some p := by
        intro hp'
        obtain ⟨-, r₁, -, hr₁, hid₁, -⟩ := h.nodes _ p hp'
        obtain rfl : r₁ = r := Option.some.inj (hr₁.symm.trans hr)
        exact hid (hrid.symm.trans hid₁)
      refine ⟨n, r, ?_, concat_old hr, hrid, hdesc, concat_newest hid hnewest⟩
      rw [addNode_old c nd (h.lt_length hr), if_neg hother, hn]
  hosts addr p hp := by
    rw [addNode_hosts] at hp
    by_cases haddr : addr = nd.address
    · subst haddr
      rw [Function.update_self] at hp
      cases hp
      refine ⟨_, nd, addNode_new c nd, ?_, rfl, fun q r' hr' _ => ?_⟩
      · rw [h.length, List.getElem?_concat_length]
      · rw [h.length]
        exact concat_le hr'
    · rw [Function.update_of_ne haddr] at hp
      obtain ⟨n, r, hn, hr, hraddr, hnewest⟩ := h.hosts addr p hp
      have hobj : ∃ n', (c.addNode nd).objs[p]? = some n' := by
        rw [addNode_old c nd (h.lt_length hr), hn]
        split_ifs
        · exact ⟨_, rfl⟩
        · exact ⟨n, rfl⟩
      obtain ⟨n', hn'⟩ := hobj
      exact ⟨n', r, hn', concat_old hr, hraddr, concat_newest haddr hnewest⟩

lemma update_eq_some {α β : Type} [DecidableEq α] {f : α → Option β} {a b : α} {x : β}
    {o : Option β} (h : o ≠ some x) :
    Function.update f a o b = some x ↔ b ≠ a ∧ f b = some x := by
  by_cases hb : b = a
  · simp [hb, h]
  · simp [hb]

lemma Made.delNode (h : Made c regs) (nd : NodeDescriptor) : Made (c.delNode nd) regs where
  length := h.length
  ids := h.ids
  nodes id p hp := h.nodes id p ((update_eq_some (by simp)).mp hp).2
  hosts addr p hp := h.hosts addr p ((update_eq_some (by simp)).mp hp).2

lemma Made.apply (h : Made c regs) (e : Event) : Made (e.apply c) (regs ++ e.made) := by
  cases e with
  | added nd => exact h.addNode nd
  | deleted nd =>
    rw [Event.made, List.append_nil]
    exact h.delNode nd

/-- An object leaves the table of nodes with the first event about its id. -/
lemma Made.nodes_apply (h : Made c regs) (e : Event) {p : ℕ} {r : NodeDescriptor}
    (hr : regs[p]? = some r) :
    (e.apply c).nodes r.nodeID = some p ↔ r.nodeID ≠ e.desc.nodeID ∧ c.nodes r.nodeID = some p := by
  cases e with
  | added nd =>
    rw [Event.apply, addNode_nodes, Event.desc]
    exact update_eq_some (h.new_ne hr)
  | deleted nd => exact update_eq_some (by simp)

lemma Made.hosts_apply (h : Made c regs) (e : Event) {p : ℕ} {r : NodeDescriptor}
    (hr : regs[p]? = some r) :
    (e.apply c).hosts r.address = some p ↔
      r.address ≠ e.desc.address ∧ c.hosts r.address = some p := by
  cases e with
  | added nd =>
    rw [Event.apply, addNode_hosts, Event.desc]
    exact update_eq_some (h.new_ne hr)
  | deleted nd => exact update_eq_some (by simp)

/-! ### Sequences of events -/

lemma moved_cons {e : Event} {l : List Event} {id : NodeID} :
    Moved (e :: l) id ↔ id = e.desc.nodeID ∨ Moved l id := by
  simp [Moved, eq_comm]

lemma taken_cons {e : Event} {l : List Event} {addr : Address} :
    Taken (e :: l) addr ↔ addr = e.desc.address ∨ Taken l addr := by
  simp [Taken, eq_comm]

/-- The objects that are there now will be in both tables or in none, after the events. -/
def Stays (c : Cluster) (regs : List NodeDescriptor) (l : List Event) : Prop :=
  ∀ p r, regs[p]? = some r → (c.nodes r.nodeID = some p ∧ ¬ Moved l r.nodeID ↔
    c.hosts r.address = some p ∧ ¬ Taken l r.address)

/-- What holds of the objects after an event, of those that were there and of a new one. -/
lemma Made.stays_apply (h : Made c regs) (e : Event) (l : List Event) :
    Stays (e.apply c) (regs ++ e.made) l ∧ Paired l ↔ Stays c regs (e :: l) ∧ Paired (e :: l) := by
  have hold : ∀ p r, regs[p]? = some r →
      (((e.apply c).nodes r.nodeID = some p ∧ ¬ Moved l r.nodeID ↔
        (e.apply c).hosts r.address = some p ∧ ¬ Taken l r.address) ↔
      (c.nodes r.nodeID = some p ∧ ¬ Moved (e :: l) r.nodeID ↔
        c.hosts r.address = some p ∧ ¬ Taken (e :: l) r.address)) := by
    intro p r hr
    rw [h.nodes_apply e hr, h.hosts_apply e hr, moved_cons, taken_cons, not_or, not_or]
    tauto
  cases e with
  | deleted nd =>
    rw [Event.made, List.append_nil]
    exact and_congr (forall_congr' fun p => forall_congr' fun r => forall_congr' (hold p r)) Iff.rfl
  | added nd =>
    have hnew : regs.length = c.objs.length := h.length.symm
    constructor
    · rintro ⟨hstays, hpaired⟩
      refine ⟨fun p r hr => (hold p r hr).mp (hstays p r (concat_old hr)), ?_, hpaired⟩
      have hnd := hstays regs.length nd List.getElem?_concat_length
      simpa [Event.apply, hnew, not_iff_not] using hnd
    · rintro ⟨hstays, hmoved, hpaired⟩
      refine ⟨fun p r hr => ?_, hpaired⟩
      rcases concat_cases hr with hr | ⟨rfl, rfl⟩
      · exact (hold p r hr).mpr (hstays p r hr)
      · simpa [Event.apply, hnew, not_iff_not] using hmoved

/-- **The tables after a sequence of events.** -/
lemma Made.agree_foldl (h : Made c regs) (l : List Event) :
    Agree (l.foldl Event.apply c) ↔ Stays c regs l ∧ Paired l := by
  induction l generalizing c regs with
  | nil =>
    rw [List.foldl_nil, h.agree_iff_together]
    simp [Stays, Together, Paired, Moved, Taken]
  | cons e l ih => rw [List.foldl_cons, ih (h.apply e), h.stays_apply]

end Objects

/-- **When the tables of nodes agree:** every registration is superseded, by a later registration or
a deletion, for its id if and only if it is for its address. -/
theorem agree_iff_paired (calls : List Call) :
    Agree (calls.foldl Cluster.call newCluster) ↔ Paired (calls.flatMap Call.events) := by
  rw [foldl_call, made_newCluster.agree_foldl]
  exact and_iff_right fun p r hr => by simp at hr

/-- **A node comes back under another address**, and its old address leads to it. -/
theorem moved_address_found :
    let c := [Call.setNodes [⟨1, "a", 0⟩] true, .setNodes [⟨1, "b", 0⟩] true].foldl Cluster.call
      newCluster
    c.getNodeByAddr "a" = some ⟨1, "b", 0⟩ ∧ ¬ Agree c := by
  refine ⟨by decide, fun h => ?_⟩
  obtain ⟨-, -, -, haddr⟩ := (h "a" ⟨1, "b", 0⟩).mp (by decide)
  exact absurd haddr (by decide)

end Ancestor.NodeTable
