import Ancestor.IdAllocator
import Ancestor.KeySpaces
import Ancestor.NodeTable

/-!
Descriptors of nodes in etcd, and the master that reads them back (`pd/cluster.go`).

The JSON of a descriptor leaves out the fields that are zero, and what is not there is not
assigned. `loadNodes` decodes all values into one variable, so a field that is left out keeps what
the values before it have put there.
-/

namespace Ancestor.NodeTable

open Bootstrap (NodeDescriptor Address)

/-! ### JSON -/

/-- The object that stands for a descriptor, whose fields may be missing. -/
structure NodeJSON where
  nodeID : Option NodeID
  address : Option Address
  capacity : Option Int64
  deriving DecidableEq, Repr

def omitempty {α : Type} [DecidableEq α] (zero a : α) : Option α :=
  if a = zero then none else some a

def marshal (nd : NodeDescriptor) : NodeJSON :=
  ⟨omitempty 0 nd.nodeID, omitempty "" nd.address, omitempty 0 nd.capacity⟩

/-- `json.Unmarshal` into a descriptor that is there. -/
def unmarshal (kv : NodeJSON) (nd : NodeDescriptor) : NodeDescriptor :=
  ⟨kv.nodeID.getD nd.nodeID, kv.address.getD nd.address, kv.capacity.getD nd.capacity⟩

/-! ### etcd -/

abbrev Etcd := OrdMap Bytes NodeJSON

-- "ancestor/NodeID"
def nodePrefix : Bytes :=
  [0x61, 0x6e, 0x63, 0x65, 0x73, 0x74, 0x6f, 0x72, 0x2f, 0x4e, 0x6f, 0x64, 0x65, 0x49, 0x44]

def newNodeKey (id : NodeID) : Bytes :=
  if id = 0 then nodePrefix else nodePrefix ++ 0x5f :: fmtInt 0 id.toInt64

/-- The puts of `setNodes`. -/
def storeNodes (etcd : Etcd) (nds : List NodeDescriptor) : Etcd :=
  nds.foldl (fun etcd nd => etcd.put (newNodeKey nd.nodeID) (marshal nd)) etcd

/-- `getValues` with a prefix. -/
def getValues (etcd : Etcd) (key : Bytes) : List NodeJSON :=
  (etcd.entries.filter fun e => key.isPrefixOf e.1).map Prod.snd

def zeroNode : NodeDescriptor := ⟨0, "", 0⟩

/-- `loadNodes`, with the values it has got. -/
def Cluster.loadNodes (c : Cluster) (kvs : List NodeJSON) : Cluster :=
  (kvs.foldl (fun (p : NodeDescriptor × Cluster) kv =>
    (unmarshal kv p.1, p.2.addNodeCache [unmarshal kv p.1])) (zeroNode, c)).2

/-- A new master has the descriptors that were stored, each with all its fields. -/
def Reloads (nds : List NodeDescriptor) (kvs : List NodeJSON) : Prop :=
  ∀ order, (newCluster.loadNodes kvs).Walks order →
    ((newCluster.loadNodes kvs).getNodes order []).Perm nds

inductive Field
  | nodeID
  | address
  | capacity
  deriving DecidableEq, Repr

def NodeJSON.lacks (kv : NodeJSON) : Field → Bool
  | .nodeID => kv.nodeID.isNone
  | .address => kv.address.isNone
  | .capacity => kv.capacity.isNone

/-- Values come in an order in which none lacks a field that one before it has. -/
def Filled (kvs : List NodeJSON) : Prop :=
  kvs.Pairwise fun kv kv' => ∀ f, kv'.lacks f = true → kv.lacks f = true

/-! ### What is stored -/

section Stored

lemma newNodeKey_injective : Function.Injective newNodeKey := by
  intro a b h
  unfold newNodeKey at h
  split_ifs at h with ha hb hb
  · rw [ha, hb]
  · simp at h
  · simp at h
  · have hfmt := (List.cons.inj (List.append_cancel_left h)).2
    have hback := congrArg Int64.toInt32 (fmtInt_zero_injective hfmt)
    rwa [Int32.toInt32_toInt64, Int32.toInt32_toInt64] at hback

lemma prefix_newNodeKey (id : NodeID) : nodePrefix.isPrefixOf (newNodeKey id) = true := by
  rw [List.isPrefixOf_iff_prefix, newNodeKey]
  split_ifs
  · exact List.prefix_rfl
  · exact List.prefix_append _ _

lemma get_storeNodes {nds : List NodeDescriptor} (h : (nds.map NodeDescriptor.nodeID).Nodup)
    (etcd : Etcd) {k : Bytes} {kv : NodeJSON} :
    (storeNodes etcd nds).get k = some kv ↔
      (∃ nd ∈ nds, k = newNodeKey nd.nodeID ∧ kv = marshal nd) ∨
        (∀ nd ∈ nds, k ≠ newNodeKey nd.nodeID) ∧ etcd.get k = some kv := by
  induction nds generalizing etcd with
  | nil => simp [storeNodes]
  | cons nd nds ih =>
    obtain ⟨hnd, hnds⟩ := List.nodup_cons.mp h
    have hkey : ∀ nd' ∈ nds, newNodeKey nd.nodeID ≠ newNodeKey nd'.nodeID := fun nd' hmem heq =>
      hnd (newNodeKey_injective heq ▸ List.mem_map_of_mem hmem)
    rw [storeNodes, List.foldl_cons, ← storeNodes, ih hnds, OrdMap.get_put]
    by_cases hk : k = newNodeKey nd.nodeID
    · subst hk
      constructor
      · rintro (⟨nd', hmem, heq, -⟩ | ⟨-, hkv⟩)
        · exact absurd heq (hkey nd' hmem)
        · rw [if_pos rfl] at hkv
          exact .inl ⟨nd, List.mem_cons_self, rfl, (Option.some.inj hkv).symm⟩
      · rintro (⟨nd', hmem, heq, rfl⟩ | ⟨hne, -⟩)
        · rcases List.mem_cons.mp hmem with rfl | hmem
          · exact .inr ⟨hkey, if_pos rfl⟩
          · exact absurd heq (hkey nd' hmem)
        · exact absurd rfl (hne nd List.mem_cons_self)
    · simp [hk]

/-- **Every descriptor is stored**, once. -/
lemma stored_perm {nds : List NodeDescriptor} (h : (nds.map NodeDescriptor.nodeID).Nodup) :
    (getValues (storeNodes .empty nds) nodePrefix).Perm (nds.map marshal) := by
  have hget : ∀ e : Bytes × NodeJSON, e ∈ (storeNodes .empty nds).entries ↔
      e ∈ nds.map fun nd => (newNodeKey nd.nodeID, marshal nd) := by
    rintro ⟨k, kv⟩
    rw [OrdMap.mem_entries_iff, get_storeNodes h, List.mem_map]
    simp [Prod.ext_iff, eq_comm]
  have hsorted : (storeNodes .empty nds).entries.Nodup :=
    (storeNodes .empty nds).sorted.imp fun hlt heq => absurd (heq ▸ hlt) (lt_irrefl _)
  have hnodup : (nds.map fun nd => (newNodeKey nd.nodeID, marshal nd)).Nodup := by
    refine List.Nodup.of_map Prod.fst ?_
    rw [List.map_map, show Prod.fst ∘ (fun nd => (newNodeKey nd.nodeID, marshal nd)) =
      newNodeKey ∘ NodeDescriptor.nodeID from rfl, ← List.map_map]
    exact h.map newNodeKey_injective
  have hperm := (List.perm_ext_iff_of_nodup hsorted hnodup).mpr hget
  have hall : (storeNodes .empty nds).entries.filter (fun e => nodePrefix.isPrefixOf e.1) =
      (storeNodes .empty nds).entries := by
    rw [List.filter_eq_self]
    intro e he
    obtain ⟨nd, -, rfl⟩ := List.mem_map.mp ((hget e).mp he)
    exact prefix_newNodeKey nd.nodeID
  rw [getValues, hall]
  exact (hperm.map Prod.snd).trans (by rw [List.map_map]; rfl)

end Stored

/-! ### What is decoded -/

/-- The field is zero. -/
def isZero (nd : NodeDescriptor) : Field → Bool
  | .nodeID => nd.nodeID = 0
  | .address => nd.address = ""
  | .capacity => nd.capacity = 0

/-- The values of the variable. -/
def decoded : NodeDescriptor → List NodeJSON → List NodeDescriptor
  | _, [] => []
  | nd, kv :: l => unmarshal kv nd :: decoded (unmarshal kv nd) l

section Decoded

variable {nd : NodeDescriptor}

lemma lacks_marshal (nd : NodeDescriptor) (f : Field) : (marshal nd).lacks f = isZero nd f := by
  cases f <;> simp only [marshal, NodeJSON.lacks, isZero, omitempty] <;> split_ifs <;> simp [*]

lemma isZero_unmarshal (x nd : NodeDescriptor) (f : Field) :
    isZero (unmarshal (marshal x) nd) f = (isZero x f && isZero nd f) := by
  cases f <;> simp only [marshal, unmarshal, isZero, omitempty] <;> split_ifs <;> simp [*]

/-- A value is decoded as it was, if the variable is zero where the value is. -/
lemma unmarshal_marshal {x : NodeDescriptor} (h : ∀ f, isZero x f = true → isZero nd f = true) :
    unmarshal (marshal x) nd = x := by
  obtain ⟨id, addr, cap⟩ := x
  have hid : id = 0 → nd.nodeID = 0 := by simpa [isZero] using h .nodeID
  have haddr : addr = "" → nd.address = "" := by simpa [isZero] using h .address
  have hcap : cap = 0 → nd.capacity = 0 := by simpa [isZero] using h .capacity
  simp only [unmarshal, marshal, omitempty]
  congr 1
  · split_ifs with h0
    · rw [Option.getD_none, hid h0, h0]
    · rfl
  · split_ifs with h0
    · rw [Option.getD_none, haddr h0, h0]
    · rfl
  · split_ifs with h0
    · rw [Option.getD_none, hcap h0, h0]
    · rfl

lemma length_decoded (kvs : List NodeJSON) : (decoded nd kvs).length = kvs.length := by
  induction kvs generalizing nd with
  | nil => rfl
  | cons kv l ih => rw [decoded, List.length_cons, List.length_cons, ih]

/-- The variable is zero in a field at most as often as the field is missing. When it is as often,
the field is missing only where the variable is zero. -/
lemma countP_decoded (f : Field) (l : List NodeDescriptor) :
    (decoded nd (l.map marshal)).countP (isZero · f) ≤ l.countP (isZero · f) ∧
      ((decoded nd (l.map marshal)).countP (isZero · f) = l.countP (isZero · f) →
        (isZero nd f = false → ∀ x ∈ l, isZero x f = false) ∧
          l.Pairwise fun x y => isZero y f = true → isZero x f = true) := by
  induction l generalizing nd with
  | nil => exact ⟨le_rfl, fun _ => ⟨by simp, .nil⟩⟩
  | cons x l ih =>
    obtain ⟨hle, heq⟩ := @ih (unmarshal (marshal x) nd)
    have hx := isZero_unmarshal x nd f
    simp only [List.map_cons, decoded, List.countP_cons, hx]
    cases hzx : isZero x f with
    | false =>
      -- from here on the variable is not zero
      rw [hzx, Bool.false_and] at hx
      simp only [Bool.false_and, Bool.false_eq_true, if_false, add_zero]
      refine ⟨hle, fun h => ?_⟩
      obtain ⟨hall, hpair⟩ := heq h
      refine ⟨fun _ y hy => ?_, List.pairwise_cons.mpr ⟨fun y hy hzy => ?_, hpair⟩⟩
      · rcases List.mem_cons.mp hy with rfl | hy
        · exact hzx
        · exact hall hx y hy
      · rw [hall hx y hy] at hzy
        cases hzy
    | true =>
      simp only [Bool.true_and, if_true]
      cases hnd : isZero nd f with
      | false =>
        simp only [Bool.false_eq_true, if_false, add_zero]
        refine ⟨by omega, fun h => ?_⟩
        omega
      | true =>
        simp only [if_true]
        refine ⟨by omega, fun h => ?_⟩
        obtain ⟨-, hpair⟩ := heq (by omega)
        exact ⟨nofun, List.pairwise_cons.mpr ⟨fun _ _ _ => hzx, hpair⟩⟩

/-- Values that leave nothing to keep are decoded as they were. -/
lemma decoded_of_filled {l : List NodeDescriptor}
    (h : l.Pairwise fun x y => ∀ f, isZero y f = true → isZero x f = true)
    (hnd : ∀ x ∈ l, ∀ f, isZero x f = true → isZero nd f = true) :
    decoded nd (l.map marshal) = l := by
  induction l generalizing nd with
  | nil => rfl
  | cons x l ih =>
    obtain ⟨hx, hl⟩ := List.pairwise_cons.mp h
    rw [List.map_cons, decoded, unmarshal_marshal (hnd x List.mem_cons_self), ih hl hx]

/-- The values that are read are those of some descriptors. -/
lemma exists_marshal {nds : List NodeDescriptor} {kvs : List NodeJSON}
    (h : kvs.Perm (nds.map marshal)) :
    ∃ l : List NodeDescriptor, kvs = l.map marshal ∧ l.Perm nds := by
  have hback : ∀ x, unmarshal (marshal x) zeroNode = x := fun x =>
    unmarshal_marshal fun f _ => by cases f <;> rfl
  refine ⟨kvs.map (unmarshal · zeroNode), ?_, ?_⟩
  · rw [List.map_map]
    refine (List.map_id kvs).symm.trans (List.map_congr_left fun kv hkv => ?_)
    obtain ⟨x, -, rfl⟩ := List.mem_map.mp (h.mem_iff.mp hkv)
    rw [Function.comp_apply, hback, id]
  · refine (h.map _).trans ?_
    rw [List.map_map, show (unmarshal · zeroNode) ∘ marshal = id from funext hback, List.map_id]

end Decoded

/-! ### The table of a new master -/

section Loaded

lemma loadNodes_eq (kvs : List NodeJSON) :
    newCluster.loadNodes kvs = newCluster.addNodeCache (decoded zeroNode kvs) := by
  have hfold : ∀ (nd : NodeDescriptor) (c : Cluster),
      (kvs.foldl (fun (p : NodeDescriptor × Cluster) kv =>
        (unmarshal kv p.1, p.2.addNodeCache [unmarshal kv p.1])) (nd, c)).2 =
      c.addNodeCache (decoded nd kvs) := by
    induction kvs with
    | nil => exact fun _ _ => rfl
    | cons kv l ih =>
      intro nd c
      rw [List.foldl_cons, ih]
      rfl
  exact hfold zeroNode newCluster

lemma nodes_addNodeCache (c : Cluster) (nds : List NodeDescriptor) (id : NodeID) :
    ((c.addNodeCache nds).nodes id).isSome = true ↔
      id ∈ nds.map NodeDescriptor.nodeID ∨ (c.nodes id).isSome = true := by
  induction nds generalizing c with
  | nil => simp [Cluster.addNodeCache]
  | cons nd nds ih =>
    rw [Cluster.addNodeCache, List.foldl_cons, ← Cluster.addNodeCache, ih, addNode_nodes,
      List.map_cons, List.mem_cons]
    by_cases hid : id = nd.nodeID
    · simp [hid]
    · simp [hid]

/-- The node of an id has one of the descriptors, which is its own. -/
lemma nodeAt_addNodeCache {nds : List NodeDescriptor} {id : NodeID}
    (h : id ∈ nds.map NodeDescriptor.nodeID) :
    ∃ n, (newCluster.addNodeCache nds).nodeAt id = some n ∧ n.desc ∈ nds ∧ n.desc.nodeID = id := by
  have hmade : ∀ (nds regs : List NodeDescriptor) (c : Cluster), Made c regs →
      Made (c.addNodeCache nds) (regs ++ nds) := by
    intro nds
    induction nds with
    | nil =>
      intro regs c hc
      rw [List.append_nil]
      exact hc
    | cons nd nds ih =>
      intro regs c hc
      have hnds := ih _ _ (hc.addNode nd)
      rwa [List.append_assoc] at hnds
  have hsome := (nodes_addNodeCache newCluster nds id).mpr (.inl h)
  obtain ⟨p, hp⟩ := Option.isSome_iff_exists.mp hsome
  obtain ⟨n, r, hn, hr, hid, rfl, -⟩ := (hmade nds [] newCluster made_newCluster).nodes id p hp
  exact ⟨n, nodeAt_eq_some.mpr ⟨p, hp, hn⟩, List.mem_of_getElem? hr, hid⟩

variable {nds : List NodeDescriptor} {order : List NodeID}

lemma walks_iff : (newCluster.addNodeCache nds).Walks order ↔
    order.Nodup ∧ ∀ id, id ∈ order ↔ id ∈ nds.map NodeDescriptor.nodeID := by
  have hmem : ∀ id, ((newCluster.addNodeCache nds).nodes id).isSome = true ↔
      id ∈ nds.map NodeDescriptor.nodeID := fun id => by
    rw [nodes_addNodeCache]
    simp [newCluster]
  constructor
  · rintro ⟨hnodup, hwalk⟩
    exact ⟨hnodup, fun id => (hwalk id).trans (hmem id)⟩
  · rintro ⟨hnodup, hwalk⟩
    exact ⟨hnodup, fun id => (hwalk id).trans (hmem id).symm⟩

/-- Descriptors with ids of their own are all in the table. -/
lemma getNodes_perm (h : (nds.map NodeDescriptor.nodeID).Nodup)
    (horder : (newCluster.addNodeCache nds).Walks order) :
    ((newCluster.addNodeCache nds).getNodes order []).Perm nds := by
  obtain ⟨hnodup, hmem⟩ := walks_iff.mp horder
  have hperm := (List.perm_ext_iff_of_nodup hnodup h).mpr hmem
  have hdesc : ∀ nd ∈ nds, ((newCluster.addNodeCache nds).nodeAt nd.nodeID).map Node.desc =
      some nd := by
    intro nd hnd
    obtain ⟨n, hn, hn', hid⟩ := nodeAt_addNodeCache (List.mem_map_of_mem hnd)
    rw [hn, Option.map_some, List.inj_on_of_nodup_map h hn' hnd hid]
  refine (hperm.filterMap _).trans ?_
  rw [List.filterMap_map]
  have hself : nds.filterMap ((fun id => ((newCluster.addNodeCache nds).nodeAt id).map Node.desc) ∘
      NodeDescriptor.nodeID) = nds.filterMap some :=
    List.filterMap_congr fun nd hnd => hdesc nd hnd
  rw [hself, List.filterMap_some]

/-- As many as there are ids. -/
lemma length_getNodes (horder : (newCluster.addNodeCache nds).Walks order) :
    ((newCluster.addNodeCache nds).getNodes order []).length = order.length := by
  obtain ⟨-, hmem⟩ := walks_iff.mp horder
  rw [Cluster.getNodes, if_pos List.length_nil, List.length_filterMap_eq_countP,
    List.countP_eq_length]
  intro id hid
  obtain ⟨n, hn, -⟩ := nodeAt_addNodeCache ((hmem id).mp hid)
  simp [hn]

end Loaded

/-- **When a new master has the nodes as they were stored:** no value lacks a field that one before
it has. -/
theorem reloads_iff_filled (nds : List NodeDescriptor)
    (h : (nds.map NodeDescriptor.nodeID).Nodup) (kvs : List NodeJSON)
    (hkvs : kvs.Perm (getValues (storeNodes .empty nds) nodePrefix)) :
    Reloads nds kvs ↔ Filled kvs := by
  obtain ⟨l, rfl, hl⟩ := exists_marshal (hkvs.trans (stored_perm h))
  have hids : (l.map NodeDescriptor.nodeID).Nodup := (hl.map _).nodup_iff.mpr h
  have hfilled : Filled (l.map marshal) ↔
      l.Pairwise fun x y => ∀ f, isZero y f = true → isZero x f = true := by
    rw [Filled, List.pairwise_map]
    simp only [lacks_marshal]
  rw [hfilled, Reloads, loadNodes_eq]
  constructor
  · intro hreload
    -- as many nodes as descriptors, so the decoded ones have ids of their own
    have hwalk := walks_iff.mpr ⟨List.nodup_dedup
      ((decoded zeroNode (l.map marshal)).map NodeDescriptor.nodeID), fun id => List.mem_dedup⟩
    have hperm := hreload _ hwalk
    have hlen := hperm.length_eq
    rw [length_getNodes hwalk] at hlen
    have hdecoded : ((decoded zeroNode (l.map marshal)).map NodeDescriptor.nodeID).Nodup := by
      rw [← List.dedup_eq_self]
      refine (List.dedup_sublist _).eq_of_length ?_
      rw [hlen, List.length_map, length_decoded, List.length_map, hl.length_eq]
    have hsame : (decoded zeroNode (l.map marshal)).Perm l :=
      ((getNodes_perm hdecoded hwalk).symm.trans hperm).trans hl.symm
    have hpair : ∀ f, l.Pairwise fun x y => isZero y f = true → isZero x f = true := fun f =>
      ((countP_decoded f l).2 (hsame.countP_eq _)).2
    have hthree := (hpair .nodeID).and ((hpair .address).and (hpair .capacity))
    refine hthree.imp fun hxy f => ?_
    cases f
    · exact hxy.1
    · exact hxy.2.1
    · exact hxy.2.2
  · intro hpair order horder
    have hself : decoded zeroNode (l.map marshal) = l :=
      decoded_of_filled hpair fun _ _ f _ => by cases f <;> rfl
    rw [hself] at horder ⊢
    exact (getNodes_perm hids horder).trans hl

theorem reloads_iff_filled_two :
    Reloads [⟨1, "a", 0⟩, ⟨2, "b", 5⟩] [marshal ⟨1, "a", 0⟩, marshal ⟨2, "b", 5⟩] := by
  refine (reloads_iff_filled [⟨1, "a", 0⟩, ⟨2, "b", 5⟩] (by decide)
    [marshal ⟨1, "a", 0⟩, marshal ⟨2, "b", 5⟩] (by decide +kernel)).mpr ?_
  refine List.pairwise_pair.mpr fun f => ?_
  cases f <;> decide

/-- **A node without a capacity is read after one that has one**, and gets it. -/
theorem capacity_leaked :
    (newCluster.loadNodes (getValues (storeNodes .empty [⟨1, "a", 5⟩, ⟨2, "b", 0⟩])
        nodePrefix)).getNodes [1, 2] [] = [⟨1, "a", 5⟩, ⟨2, "b", 5⟩] ∧
      ¬ Reloads [⟨1, "a", 5⟩, ⟨2, "b", 0⟩]
        (getValues (storeNodes .empty [⟨1, "a", 5⟩, ⟨2, "b", 0⟩]) nodePrefix) := by
  have hvalues : getValues (storeNodes .empty [⟨1, "a", 5⟩, ⟨2, "b", 0⟩]) nodePrefix =
      [marshal ⟨1, "a", 5⟩, marshal ⟨2, "b", 0⟩] := by decide +kernel
  rw [hvalues]
  refine ⟨by decide, fun h => ?_⟩
  have hperm := h [1, 2] ⟨by decide, fun id => ?_⟩
  · exact absurd hperm (by decide)
  · rw [loadNodes_eq, nodes_addNodeCache]
    simp [newCluster, decoded, unmarshal, marshal, omitempty]

end Ancestor.NodeTable
