import Ancestor.NodeTable

/-!
The statistics that nodes report to the placement driver (`pd/cluster.go`).

They are kept in the object that has the descriptor of the node. Reports replace all of them, or
those of one range; a registration makes a new object, without statistics.
-/

namespace Ancestor.NodeTable

open Bootstrap (NodeDescriptor)
open Steps

namespace Cluster

variable (c : Cluster)

def setNodeStats (ns : NodeStatsInfo) : Cluster :=
  match c.nodes ns.nodeID with
  | some p => { c with objs := c.objs.modify p ({ · with stats := ns }) }
  | none => c

def getNodeStats (order ids : List NodeID) : List NodeStatsInfo :=
  (if ids.length = 0 then order else ids).filterMap fun id => (c.nodeAt id).map Node.stats

/-- A turn of the loop of `setRangeStats`. -/
def setRangeStat (rs : RangeStatsInfo) : Cluster :=
  match c.nodes rs.nodeID with
  | some p =>
    { c with objs := c.objs.modify p fun n => { n with
        stats.rangeStatsInfo := Function.update n.stats.rangeStatsInfo rs.rangeID (some rs) } }
  | none => c

def setRangeStats (rss : List RangeStatsInfo) : Cluster := rss.foldl setRangeStat c

/-- `getRangeStats`; `ranges` is the order in which the ranges of a node are met, when all are asked
for. -/
def getRangeStats (order : List NodeID) (ranges : NodeID → List RangeID) (ids : List RangeID) :
    List RangeStatsInfo :=
  order.flatMap fun id =>
    match c.nodeAt id with
    | some n => (if ids.length = 0 then ranges id else ids).filterMap n.stats.rangeStatsInfo
    | none => []

end Cluster

/-! ### What has been reported -/

/-- The last report about a node, where none is a node that is not registered. -/
abbrev Reported := NodeID → Option NodeStatsInfo

namespace Reported

variable (rep : Reported)

/-- A node has reported nothing when it comes, and has what it has reported when it comes again. -/
def setNodes (nds : List NodeDescriptor) : Reported := fun id =>
  if (rep id).isNone ∧ id ∈ nds.map NodeDescriptor.nodeID then some {} else rep id

def setNodeStats (ns : NodeStatsInfo) : Reported := fun id =>
  if id = ns.nodeID then (rep id).map fun _ => ns else rep id

def setRangeStat (rs : RangeStatsInfo) : Reported := fun id =>
  if id = rs.nodeID then (rep id).map fun stats =>
    { stats with rangeStatsInfo := Function.update stats.rangeStatsInfo rs.rangeID (some rs) }
  else rep id

def setRangeStats (rss : List RangeStatsInfo) : Reported := rss.foldl setRangeStat rep

end Reported

inductive StatsCall
  | setNodes (nds : List NodeDescriptor) (put : Bool)
  | setNodeStats (ns : NodeStatsInfo)
  | setRangeStats (rss : List RangeStatsInfo)

/-- The cluster beside what it has been told. -/
structure Observed where
  cluster : Cluster := newCluster
  reported : Reported := fun _ => none

def Observed.step (s : Observed) : StatsCall → Option Observed
  | .setNodes nds put =>
    some ⟨s.cluster.setNodes nds put, if put then s.reported.setNodes nds else s.reported⟩
  | .setNodeStats ns => some ⟨s.cluster.setNodeStats ns, s.reported.setNodeStats ns⟩
  | .setRangeStats rss => some ⟨s.cluster.setRangeStats rss, s.reported.setRangeStats rss⟩

/-- **What is asked for is what was reported last**, of a node and of a range on every node. -/
structure Faithful (s : Observed) : Prop where
  node : ∀ order id, s.cluster.getNodeStats order [id] = (s.reported id).toList
  range : ∀ order, s.cluster.Walks order → ∀ ranges r,
    s.cluster.getRangeStats order ranges [r] =
      order.filterMap fun id => (s.reported id).bind (·.rangeStatsInfo r)

/-- A node that is registered again has not reported anything. -/
def Unreported (s : Observed) : StatsCall → Prop
  | .setNodes nds put =>
    put = true → ∀ nd ∈ nds, ∀ n, s.cluster.nodeAt nd.nodeID = some n → n.stats = {}
  | .setNodeStats _ => True
  | .setRangeStats _ => True

/-! ### What the cluster has of a node -/

/-- The statistics of the nodes that are registered. -/
def Cluster.view (c : Cluster) : Reported := fun id => (c.nodeAt id).map Node.stats

lemma filterMap_one {α β : Type} (f : α → Option β) (a : α) : [a].filterMap f = (f a).toList := by
  cases h : f a <;> simp [h]

lemma faithful_iff {s : Observed} : Faithful s ↔ s.cluster.view = s.reported := by
  have hnode : ∀ order id, s.cluster.getNodeStats order [id] = (s.cluster.view id).toList := by
    intro order id
    rw [Cluster.getNodeStats, if_neg (by simp), filterMap_one, Cluster.view]
  constructor
  · intro h
    funext id
    have hid := congrArg List.head? ((hnode [] id).symm.trans (h.node [] id))
    simpa using hid
  · intro h
    refine ⟨fun order id => by rw [hnode, h], fun order _ ranges r => ?_⟩
    rw [← h, Cluster.getRangeStats, List.filterMap_eq_flatMap_toList]
    congr 1
    funext id
    rw [Cluster.view]
    cases s.cluster.nodeAt id with
    | none => rfl
    | some n =>
      simp only [List.length_singleton, one_ne_zero, if_false, Option.map_some, Option.bind_some,
        filterMap_one]

/-- Every entry of the table of nodes is an object of the id. -/
def Held (c : Cluster) : Prop :=
  ∀ id p, c.nodes id = some p → ∃ n, c.objs[p]? = some n ∧ n.desc.nodeID = id

section View

variable {c : Cluster} {id : NodeID}

lemma Held.eq_of_nodes (h : Held c) {id' : NodeID} {p : ℕ} (hp : c.nodes id = some p)
    (hp' : c.nodes id' = some p) : id = id' := by
  obtain ⟨n, hn, rfl⟩ := h id p hp
  obtain ⟨n', hn', rfl⟩ := h id' p hp'
  rw [hn] at hn'
  cases hn'
  rfl

/-- A report changes the statistics of one object. -/
lemma Held.modify (h : Held c) {p : ℕ} (hp : c.nodes id = some p)
    (f : NodeStatsInfo → NodeStatsInfo) :
    Held { c with objs := c.objs.modify p fun n => { n with stats := f n.stats } } ∧
      ∀ id', Cluster.view { c with objs := c.objs.modify p fun n => { n with stats := f n.stats } }
        id' = if id' = id then (c.view id').map f else c.view id' := by
  have hget : ∀ q : ℕ, (c.objs.modify p fun n => { n with stats := f n.stats })[q]? =
      if p = q then c.objs[q]?.map fun n => { n with stats := f n.stats } else c.objs[q]? :=
    fun q => by
      rw [List.getElem?_modify]
      split_ifs <;> simp
  constructor
  · intro id' q hq
    obtain ⟨n, hn, hid⟩ := h id' q hq
    simp only [hget, hn]
    split_ifs
    · exact ⟨_, rfl, hid⟩
    · exact ⟨n, rfl, hid⟩
  · intro id'
    simp only [Cluster.view, Cluster.nodeAt, Cluster.deref]
    cases hq : c.nodes id' with
    | none => simp
    | some q =>
      simp only [Option.bind_some, hget]
      by_cases hid : id' = id
      · rw [hid, hp, Option.some.injEq] at hq
        simp [hid, hq, Function.comp_def]
      · have hne : p ≠ q := fun heq => hid (h.eq_of_nodes hq (heq ▸ hp))
        simp [hid, hne]

/-- A report about a node that is not registered changes nothing. -/
lemma view_unregistered (hp : c.nodes id = none) (f : NodeStatsInfo → NodeStatsInfo)
    (id' : NodeID) : c.view id' = if id' = id then (c.view id').map f else c.view id' := by
  split_ifs with hid
  · simp [Cluster.view, Cluster.nodeAt, Cluster.deref, hid, hp]
  · rfl

lemma setNodeStats_held (h : Held c) (ns : NodeStatsInfo) :
    Held (c.setNodeStats ns) ∧ (c.setNodeStats ns).view = c.view.setNodeStats ns := by
  rw [Cluster.setNodeStats]
  cases hp : c.nodes ns.nodeID with
  | none => exact ⟨h, funext (view_unregistered hp fun _ => ns)⟩
  | some p =>
    obtain ⟨hheld, hview⟩ := h.modify hp fun _ => ns
    exact ⟨hheld, funext hview⟩

lemma setRangeStat_held (h : Held c) (rs : RangeStatsInfo) :
    Held (c.setRangeStat rs) ∧ (c.setRangeStat rs).view = c.view.setRangeStat rs := by
  rw [Cluster.setRangeStat]
  cases hp : c.nodes rs.nodeID with
  | none => exact ⟨h, funext (view_unregistered hp _)⟩
  | some p =>
    obtain ⟨hheld, hview⟩ := h.modify hp fun stats =>
      { stats with rangeStatsInfo := Function.update stats.rangeStatsInfo rs.rangeID (some rs) }
    exact ⟨hheld, funext hview⟩

lemma setRangeStats_held (h : Held c) (rss : List RangeStatsInfo) :
    Held (c.setRangeStats rss) ∧ (c.setRangeStats rss).view = c.view.setRangeStats rss := by
  induction rss generalizing c with
  | nil => exact ⟨h, rfl⟩
  | cons rs rss ih =>
    obtain ⟨hheld, hview⟩ := setRangeStat_held h rs
    obtain ⟨hheld', hview'⟩ := ih hheld
    exact ⟨hheld', hview'.trans (by rw [hview]; rfl)⟩

/-- A registration leaves the statistics of the other nodes, and none of its own. -/
lemma addNode_held (h : Held c) (nd : NodeDescriptor) :
    Held (c.addNode nd) ∧
      (c.addNode nd).view = Function.update c.view nd.nodeID (some {}) := by
  have hnode : ∀ id p, id ≠ nd.nodeID → c.nodes id = some p →
      (c.addNode nd).objs[p]? = c.objs[p]? := by
    intro id p hid hp
    obtain ⟨n, hn, -⟩ := h id p hp
    have hlt := (List.getElem?_eq_some_iff.mp hn).1
    rw [addNode_old c nd hlt, if_neg fun hp' => hid (h.eq_of_nodes hp hp')]
  constructor
  · intro id p hp
    rw [addNode_nodes] at hp
    by_cases hid : id = nd.nodeID
    · subst hid
      rw [Function.update_self] at hp
      cases hp
      exact ⟨_, addNode_new c nd, rfl⟩
    · rw [Function.update_of_ne hid] at hp
      rw [hnode id p hid hp]
      exact h id p hp
  · funext id
    rw [Cluster.view, Cluster.nodeAt, Cluster.deref, addNode_nodes]
    by_cases hid : id = nd.nodeID
    · subst hid
      rw [Function.update_self, Function.update_self, Option.bind_some, addNode_new]
      rfl
    · rw [Function.update_of_ne hid, Function.update_of_ne hid, Cluster.view, Cluster.nodeAt,
        Cluster.deref]
      cases hp : c.nodes id with
      | none => rfl
      | some p => rw [Option.bind_some, Option.bind_some, hnode id p hid hp]

lemma addNodeCache_held (h : Held c) (nds : List NodeDescriptor) :
    Held (c.addNodeCache nds) ∧ ∀ id, (c.addNodeCache nds).view id =
      if id ∈ nds.map NodeDescriptor.nodeID then some {} else c.view id := by
  induction nds generalizing c with
  | nil => exact ⟨h, fun id => by simp [Cluster.addNodeCache]⟩
  | cons nd nds ih =>
    obtain ⟨hheld, hview⟩ := addNode_held h nd
    obtain ⟨hheld', hview'⟩ := ih hheld
    refine ⟨hheld', fun id => (hview' id).trans ?_⟩
    rw [hview]
    by_cases hid : id = nd.nodeID
    · simp [hid]
    · simp [hid]

end View

/-! ### Runs -/

lemma held_step {s s' : Observed} {a : StatsCall} (h : Held s.cluster) (hs : s.step a = some s') :
    Held s'.cluster := by
  cases a with
  | setNodes nds put =>
    cases hs
    cases put with
    | false => exact h
    | true => exact (addNodeCache_held h nds).1
  | setNodeStats ns =>
    cases hs
    exact (setNodeStats_held h ns).1
  | setRangeStats rss =>
    cases hs
    exact (setRangeStats_held h rss).1

/-- A registration keeps what was reported when there is nothing to keep. -/
lemma setNodes_view_iff {c : Cluster} (h : Held c) (nds : List NodeDescriptor) :
    (c.addNodeCache nds).view = c.view.setNodes nds ↔
      ∀ nd ∈ nds, ∀ n, c.nodeAt nd.nodeID = some n → n.stats = {} := by
  have hview := (addNodeCache_held h nds).2
  constructor
  · intro heq nd hnd n hn
    have hmem : nd.nodeID ∈ nds.map NodeDescriptor.nodeID := List.mem_map_of_mem hnd
    have hid := congrFun heq nd.nodeID
    rw [hview, if_pos hmem, Reported.setNodes, Cluster.view, hn] at hid
    simpa using hid.symm
  · intro hzero
    funext id
    rw [hview, Reported.setNodes]
    by_cases hmem : id ∈ nds.map NodeDescriptor.nodeID
    · obtain ⟨nd, hnd, rfl⟩ := List.mem_map.mp hmem
      rw [if_pos hmem, Cluster.view]
      cases hn : c.nodeAt nd.nodeID with
      | none => simp [hmem]
      | some n => simp [hzero nd hnd n hn]
    · simp [hmem]

lemma faithful_step {s s' : Observed} {a : StatsCall} (h : Held s.cluster) (hf : Faithful s)
    (hs : s.step a = some s') : Faithful s' ↔ Unreported s a := by
  rw [faithful_iff] at hf ⊢
  cases a with
  | setNodes nds put =>
    cases hs
    cases put with
    | false => exact iff_of_true hf nofun
    | true =>
      have hiff := setNodes_view_iff h nds
      rw [hf] at hiff
      exact hiff.trans ⟨fun hzero _ => hzero, fun hzero => hzero rfl⟩
  | setNodeStats ns =>
    cases hs
    exact iff_of_true ((setNodeStats_held h ns).2.trans (by rw [hf])) trivial
  | setRangeStats rss =>
    cases hs
    exact iff_of_true ((setRangeStats_held h rss).2.trans (by rw [hf])) trivial

lemma run_some (s : Observed) (l : List StatsCall) : ∃ s', run Observed.step s l = some s' := by
  induction l generalizing s with
  | nil => exact ⟨s, rfl⟩
  | cons a l ih => cases a <;> exact ih _

/-- **When reported statistics stay:** no node is registered again that has reported something. -/
theorem faithful_iff_unreported (l : List StatsCall) :
    Always Observed.step Faithful {} l ↔ Along Observed.step Unreported {} l := by
  obtain ⟨s', hrun⟩ := run_some {} l
  refine always_iff_along (I := fun s => Held s.cluster) (fun _ _ _ h hs => held_step h hs)
    (fun _ _ _ h hf hs => faithful_step h hf hs) ?_ ?_ hrun
  · intro id p hp
    cases hp
  · rw [faithful_iff]
    rfl

/-- **A node reports and is registered again with the same descriptor**, and the placement driver
has no statistics of it. -/
theorem reregistered_lost :
    let nd : NodeDescriptor := ⟨1, "a", 0⟩
    let rs : RangeStatsInfo := { rangeID := 4, nodeID := 1, totalBytes := 100, totalCount := 10 }
    let c := ((newCluster.setNodes [nd] true).setRangeStats [rs])
    c.getRangeStats [1] (fun _ => []) [4] = [rs] ∧
      (c.setNodes [nd] true).getRangeStats [1] (fun _ => []) [4] = [] ∧
      ¬ Always Observed.step Faithful {} [.setNodes [nd] true, .setRangeStats [rs],
        .setNodes [nd] true] := by
  refine ⟨by decide, by decide, fun h => ?_⟩
  have hlast := (((h.2 _ rfl).2 _ rfl).2 _ rfl)
  have hnode := congrArg (List.map fun ns => ns.rangeStatsInfo 4) (hlast.node [] 1)
  exact absurd hnode (by decide)

end Ancestor.NodeTable
