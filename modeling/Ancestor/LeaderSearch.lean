import Ancestor.ReplicaRemoval

/-!
The search for the leader of a range by the placement driver (`sendBatchRequestToLeader` of
`pd/util.go`), against any replies.

The loop keeps the node to send to. A reply can name the leader, and while there is an election
the name is 0. The loop takes the name for its node before it asks for the replica after it, and
there is none after node 0.
-/

namespace Ancestor.LeaderSearch

open Hoare
open Removal (nodesOf getNextNodeID attempts)

/-! ### The loop -/

/-- What an attempt comes to. There may be no client for the address of the node. -/
inductive Reply
  | noClient
  | transportError
  | rangeNotFound
  | notLeader (nodeID : NodeID)
  | otherError (msg : String)
  | success
  deriving DecidableEq, Repr

inductive Ending
  | success
  | sendFail
  | failed (msg : String)
  /-- The lookup of the node yields nil, whose address is read. -/
  | nilNode (id : NodeID)
  /-- There is no first replica. -/
  | outOfRange
  deriving DecidableEq, Repr

structure Attempt where
  node : NodeID
  reply : Reply
  deriving DecidableEq, Repr

/-- The attempts made, and how the search ended. -/
structure Search where
  attempts : List Attempt := []
  ending : Ending
  deriving DecidableEq, Repr

def Search.after (a : Attempt) (s : Search) : Search := { s with attempts := a :: s.attempts }

section Loop

variable (rd : RangeDescriptor) (nodes : List NodeID) (replies : ℕ → Reply)

/-- The loop with `k` attempts left at node `id`; the next reply is the `n`-th. -/
def searchLoop : ℕ → ℕ → NodeID → Search
  | 0, _, _ => { ending := .sendFail }
  | k + 1, n, id =>
    if id ∉ nodes then { ending := .nilNode id }
    else
      let attempt : Attempt := ⟨id, replies n⟩
      match replies n with
      | .noClient => { attempts := [attempt], ending := .sendFail }
      | .transportError => .after attempt (searchLoop k (n + 1) (getNextNodeID rd id))
      | .success => { attempts := [attempt], ending := .success }
      | .rangeNotFound =>
        let next := getNextNodeID rd id
        -- the address of the next node is logged
        if next ∉ nodes then { attempts := [attempt], ending := .nilNode next }
        else .after attempt (searchLoop k (n + 1) next)
      | .notLeader lead =>
        let next := if lead ≤ 0 then getNextNodeID rd lead else lead
        .after attempt (searchLoop k (n + 1) next)
      | .otherError msg => { attempts := [attempt], ending := .failed msg }

def sendBatchRequestToLeader : Search :=
  match nodesOf rd with
  | [] => { ending := .outOfRange }
  | id :: _ => searchLoop rd nodes replies attempts 0 id

end Loop

/-- `getRaftGroupLeader`: the raft ID of a replica is its node and its range together, and 0 while
there is no leader. -/
def getRaftGroupLeader (lead : UInt64) (rangeID : RangeID) (nodeID : NodeID) : NodeID × Bool :=
  if lead > 0 then
    let id : NodeID := (lead - rangeID.toUInt64).toUInt32.toInt32
    (id, decide (id = nodeID))
  else (0, false)

/-! ### The nodes that are tried -/

/-- After the reply there is another attempt, if one is left. -/
def Reply.Continues : Reply → Prop
  | .transportError | .rangeNotFound | .notLeader _ => True
  | .noClient | .otherError _ | .success => False

section Targets

variable (rd : RangeDescriptor) (replies : ℕ → Reply)

/-- The node after `id`, by its reply. -/
def nextTarget (id : NodeID) : Reply → NodeID
  | .notLeader lead => if lead ≤ 0 then getNextNodeID rd lead else lead
  | _ => getNextNodeID rd id

/-- The node of the `n`-th attempt. -/
def target : ℕ → NodeID
  | 0 => (nodesOf rd).headD 0
  | n + 1 => nextTarget rd (target n) (replies n)

end Targets

/-- What the search is to do: it sends to replicas of the range only, finds every node it looks
up, and goes on at the next replica when the leader is unknown. -/
structure Sound (rd : RangeDescriptor) (s : Search) : Prop where
  listed : ∀ a ∈ s.attempts, a.node ∈ nodesOf rd
  found : ∀ id, s.ending ≠ .nilNode id
  next : s.attempts.IsChain fun a b => a.reply = .notLeader 0 → b.node = getNextNodeID rd a.node

/-- The replica after 0 is the one after `id`. -/
def Lucky (rd : RangeDescriptor) (id : NodeID) : Prop :=
  0 ∈ nodesOf rd ∧ getNextNodeID rd 0 = getNextNodeID rd id

/-- No unknown leader has been answered, between the `n`-th reply and the one that ends the
search or the last of `k`, before an attempt that it leads astray. -/
def Guided (rd : RangeDescriptor) (replies : ℕ → Reply) (k n : ℕ) : Prop :=
  ∀ i, n ≤ i → i + 1 < n + k → (∀ m, n ≤ m → m < i → (replies m).Continues) →
    replies i = .notLeader 0 → Lucky rd (target rd replies i)

section Steps

variable {rd : RangeDescriptor} {nodes : List NodeID} {replies : ℕ → Reply} {id : NodeID}

lemma getNextNodeID_mem (h : id ∈ nodesOf rd) : getNextNodeID rd id ∈ nodesOf rd := by
  have hpos : 0 < (nodesOf rd).length := List.length_pos_of_mem h
  obtain ⟨i, hi⟩ : ∃ i, (nodesOf rd).findIdx? (fun x => decide (x = id)) = some i := by
    rw [← Option.isSome_iff_exists, List.findIdx?_isSome]
    exact List.any_eq_true.mpr ⟨id, h, decide_eq_true rfl⟩
  have hlt : (i + 1) % (nodesOf rd).length < (nodesOf rd).length := Nat.mod_lt _ hpos
  rw [getNextNodeID, hi]
  simp only [List.getElem?_eq_getElem hlt, Option.getD_some]
  exact List.getElem_mem hlt

lemma getNextNodeID_of_notMem (h : id ∉ nodesOf rd) : getNextNodeID rd id = 0 := by
  have hnone : (nodesOf rd).findIdx? (fun x => decide (x = id)) = none := by
    rw [List.findIdx?_eq_none_iff]
    exact fun x hx => decide_eq_false fun heq => h (heq ▸ hx)
  rw [getNextNodeID, hnone]

/-- The condition, one reply at a time. -/
lemma guided_succ (k n : ℕ) : Guided rd replies (k + 1) n ↔
    (k ≠ 0 → replies n = .notLeader 0 → Lucky rd (target rd replies n)) ∧
      ((replies n).Continues → Guided rd replies k (n + 1)) := by
  constructor
  · intro h
    refine ⟨fun hk hr => h n le_rfl (by omega) (fun m hm hlt => by omega) hr, ?_⟩
    intro hc i hi hlt hm
    refine h i (by omega) (by omega) fun m hnm hmi => ?_
    rcases Nat.eq_or_lt_of_le hnm with rfl | hlt'
    · exact hc
    · exact hm m (by omega) hmi
  · rintro ⟨hfirst, hrest⟩ i hi hlt hm hr
    rcases Nat.eq_or_lt_of_le hi with rfl | hlt'
    · exact hfirst (by omega) hr
    · refine hrest (hm n le_rfl hlt') i (by omega) (by omega) (fun m hnm hmi => ?_) hr
      exact hm m (by omega) hmi

/-- An attempt after which the loop goes on. -/
lemma searchLoop_go (k n : ℕ) (hid : id ∈ nodes) (hc : (replies n).Continues)
    (hnext : replies n = .rangeNotFound → getNextNodeID rd id ∈ nodes) :
    searchLoop rd nodes replies (k + 1) n id =
      .after ⟨id, replies n⟩
        (searchLoop rd nodes replies k (n + 1) (nextTarget rd id (replies n))) := by
  rw [searchLoop, if_neg (not_not.mpr hid)]
  cases hr : replies n with
  | transportError | notLeader => rfl
  | rangeNotFound =>
    simp only [if_neg (not_not.mpr (hnext hr))]
    rfl
  | noClient | otherError | success =>
    rw [hr] at hc
    exact hc.elim

/-- An attempt that ends the search. -/
lemma searchLoop_stop (rd : RangeDescriptor) (k n : ℕ) (hid : id ∈ nodes)
    (hstop : ¬ (replies n).Continues) :
    ∃ ending, (∀ x, ending ≠ .nilNode x) ∧
      searchLoop rd nodes replies (k + 1) n id =
        { attempts := [⟨id, replies n⟩], ending := ending } := by
  rw [searchLoop, if_neg (not_not.mpr hid)]
  cases hr : replies n with
  | noClient | otherError | success =>
    refine ⟨_, ?_, rfl⟩
    nofun
  | transportError | rangeNotFound | notLeader =>
    rw [hr] at hstop
    exact absurd trivial hstop

/-- The first attempt is at the node that the loop stands at. -/
lemma first_attempt (rd : RangeDescriptor) (replies : ℕ → Reply) (k n : ℕ) (h : id ∈ nodes) :
    ∃ a l, (searchLoop rd nodes replies (k + 1) n id).attempts = a :: l ∧ a.node = id := by
  by_cases hc : (replies n).Continues
  · by_cases hnext : replies n = .rangeNotFound → getNextNodeID rd id ∈ nodes
    · rw [searchLoop_go k n h hc hnext]
      exact ⟨_, _, rfl, rfl⟩
    · -- the node whose address is logged is nil
      obtain ⟨hr, hnil⟩ := not_forall.mp hnext
      rw [searchLoop, if_neg (not_not.mpr h), hr]
      simp only [if_pos hnil]
      exact ⟨_, _, rfl, rfl⟩
  · obtain ⟨ending, -, hrun⟩ := searchLoop_stop rd k n h hc
    rw [hrun]
    exact ⟨_, _, rfl, rfl⟩

lemma head_node (k n : ℕ) :
    ∀ a ∈ (searchLoop rd nodes replies k n id).attempts.head?, a.node = id := by
  intro a ha
  cases k with
  | zero => cases ha
  | succ k =>
    by_cases hid : id ∈ nodes
    · obtain ⟨b, l, hb, hnode⟩ := first_attempt rd replies k n hid
      rw [hb] at ha
      cases ha
      exact hnode
    · rw [searchLoop, if_pos hid] at ha
      cases ha

lemma sound_single {a : Attempt} {ending : Ending} (ha : a.node ∈ nodesOf rd)
    (he : ∀ id, ending ≠ .nilNode id) : Sound rd { attempts := [a], ending := ending } :=
  ⟨fun _ hb => List.mem_singleton.mp hb ▸ ha, he, List.isChain_singleton a⟩

lemma sound_after {a : Attempt} {s : Search} (ha : a.node ∈ nodesOf rd) :
    Sound rd (.after a s) ↔
      (∀ b ∈ s.attempts.head?, a.reply = .notLeader 0 → b.node = getNextNodeID rd a.node) ∧
        Sound rd s := by
  constructor
  · rintro ⟨hlisted, hfound, hnext⟩
    have hnext := List.isChain_cons.mp hnext
    exact ⟨hnext.1, fun b hb => hlisted b (List.mem_cons_of_mem _ hb), hfound, hnext.2⟩
  · rintro ⟨hhead, hlisted, hfound, hnext⟩
    refine ⟨fun b hb => ?_, hfound, List.isChain_cons.mpr ⟨hhead, hnext⟩⟩
    rcases List.mem_cons.mp hb with rfl | hb
    · exact ha
    · exact hlisted b hb

end Steps

/-! ### When the search is sound -/

section Sound

variable {rd : RangeDescriptor} {nodes : List NodeID} {replies : ℕ → Reply}

/-- After an unknown leader the search is led astray, unless 0 is a replica. -/
lemma lucky_of_sound {a : Attempt} (k n : ℕ) (ha : a.node ∈ nodesOf rd)
    (hr : a.reply = .notLeader 0)
    (h : Sound rd (.after a (searchLoop rd nodes replies (k + 1) n (getNextNodeID rd 0)))) :
    Lucky rd a.node := by
  obtain ⟨hhead, hlisted, hfound, -⟩ := (sound_after ha).mp h
  by_cases hknown : getNextNodeID rd 0 ∈ nodes
  · obtain ⟨b, l, hb, hnode⟩ := first_attempt rd replies k n hknown
    have hnext := hhead b (by rw [hb]; rfl) hr
    have hmem := hlisted b (hb ▸ List.mem_cons_self)
    rw [hnode] at hnext hmem
    refine ⟨?_, hnext⟩
    by_contra h0
    rw [getNextNodeID_of_notMem h0] at hmem
    exact h0 hmem
  · refine absurd ?_ (hfound (getNextNodeID rd 0))
    rw [searchLoop, if_pos hknown]

/-- A reply that is no unknown leader leads to a replica. -/
lemma target_mem (hleads : ∀ n lead, replies n = .notLeader lead → lead = 0 ∨ lead ∈ nodesOf rd)
    {n : ℕ} (h : target rd replies n ∈ nodesOf rd)
    (hr : replies n = .notLeader 0 → 0 ∈ nodesOf rd) :
    target rd replies (n + 1) ∈ nodesOf rd := by
  rw [target]
  cases hreply : replies n with
  | notLeader lead =>
    have hlead : lead ∈ nodesOf rd := by
      rcases hleads n lead hreply with rfl | hlead
      · exact hr hreply
      · exact hlead
    rw [nextTarget]
    split_ifs
    · exact getNextNodeID_mem hlead
    · exact hlead
  | noClient | transportError | rangeNotFound | otherError | success =>
    exact getNextNodeID_mem h

/-- An unknown leader: the search is sound if it ends here, or goes on at the right replica. -/
lemma sound_unknown {k n : ℕ} (h : target rd replies n ∈ nodesOf rd)
    (hr : replies n = .notLeader 0)
    (ih : target rd replies (n + 1) ∈ nodesOf rd →
      (Sound rd (searchLoop rd nodes replies k (n + 1) (target rd replies (n + 1))) ↔
        Guided rd replies k (n + 1))) :
    Sound rd (.after ⟨target rd replies n, .notLeader 0⟩
      (searchLoop rd nodes replies k (n + 1) (getNextNodeID rd 0))) ↔
      Guided rd replies (k + 1) n := by
  have hnext : target rd replies (n + 1) = getNextNodeID rd 0 := by
    rw [target, hr]
    rfl
  rw [guided_succ]
  cases k with
  | zero =>
    refine iff_of_true ((sound_after h).mpr ⟨nofun, nofun, nofun, .nil⟩) ⟨nofun, fun _ => ?_⟩
    intro i hi hlt
    omega
  | succ k =>
    constructor
    · intro hs
      have hlucky := lucky_of_sound k (n + 1) h rfl hs
      have hmem : target rd replies (n + 1) ∈ nodesOf rd := hnext ▸ getNextNodeID_mem hlucky.1
      refine ⟨fun _ _ => hlucky, fun _ => (ih hmem).mp ?_⟩
      rw [hnext]
      exact ((sound_after h).mp hs).2
    · rintro ⟨hlucky, hrest⟩
      obtain ⟨h0, heq⟩ := hlucky (by omega) hr
      have hmem : target rd replies (n + 1) ∈ nodesOf rd := hnext ▸ getNextNodeID_mem h0
      have hsound := (ih hmem).mpr (hrest (hr ▸ trivial))
      rw [hnext] at hsound
      refine (sound_after h).mpr ⟨fun b hb _ => ?_, hsound⟩
      exact (head_node (k + 1) (n + 1) b hb).trans heq

/-- **The loop is sound exactly when it is guided**, from a replica of the range on. -/
theorem sound_searchLoop (hreg : ∀ id ∈ nodesOf rd, id ∈ nodes)
    (hleads : ∀ n lead, replies n = .notLeader lead → lead = 0 ∨ lead ∈ nodesOf rd)
    (k n : ℕ) (h : target rd replies n ∈ nodesOf rd) :
    Sound rd (searchLoop rd nodes replies k n (target rd replies n)) ↔
      Guided rd replies k n := by
  induction k generalizing n with
  | zero =>
    refine iff_of_true ⟨nofun, nofun, .nil⟩ fun i hi hlt => ?_
    omega
  | succ k ih =>
    have hid := hreg _ h
    by_cases hc : (replies n).Continues
    · rw [searchLoop_go k n hid hc fun _ => hreg _ (getNextNodeID_mem h)]
      by_cases hr : replies n = .notLeader 0
      · rw [hr]
        exact sound_unknown h hr fun hmem => ih (n + 1) hmem
      · have hmem := target_mem hleads h fun hr' => absurd hr' hr
        rw [guided_succ, sound_after h]
        refine and_congr (iff_of_true (fun _ _ hr' => absurd hr' hr) fun _ hr' => absurd hr' hr) ?_
        exact (ih (n + 1) hmem).trans ⟨fun hg _ => hg, fun hg => hg hc⟩
    · obtain ⟨ending, he, hrun⟩ := searchLoop_stop rd k n hid hc
      rw [hrun]
      refine iff_of_true (sound_single h he) ((guided_succ k n).mpr ⟨fun _ hr => ?_, fun hc' => ?_⟩)
      · rw [hr] at hc
        exact absurd trivial hc
      · exact absurd hc' hc

end Sound

/-- **When the search for the leader is sound:** no attempt but the last is answered with an unknown
leader, unless node 0 is a replica and the next one after it is the one after the node tried. -/
theorem sound_iff_guided (rd : RangeDescriptor) (nodes : List NodeID) (replies : ℕ → Reply)
    (hreg : ∀ id ∈ nodesOf rd, id ∈ nodes)
    (hleads : ∀ n lead, replies n = .notLeader lead → lead = 0 ∨ lead ∈ nodesOf rd) :
    Sound rd (sendBatchRequestToLeader rd nodes replies) ↔
      (nodesOf rd ≠ [] → ∀ n, n + 1 < attempts → (∀ m < n, (replies m).Continues) →
        replies n = .notLeader 0 → Lucky rd (target rd replies n)) := by
  unfold sendBatchRequestToLeader
  cases hnodes : nodesOf rd with
  | nil => exact iff_of_true ⟨nofun, nofun, .nil⟩ fun h => absurd rfl h
  | cons id l =>
    have htarget : target rd replies 0 = id := by rw [target, hnodes]; rfl
    have hmem : target rd replies 0 ∈ nodesOf rd := by
      rw [htarget, hnodes]
      exact List.mem_cons_self
    have hloop := sound_searchLoop hreg hleads attempts 0 hmem
    rw [htarget] at hloop
    rw [hloop]
    constructor
    · intro h _ n hn hm hr
      exact h n (Nat.zero_le n) (by omega) (fun m _ hlt => hm m hlt) hr
    · intro h n _ hn hm hr
      exact h (by simp) n (by omega) (fun m hlt => hm m (Nat.zero_le m) hlt) hr

/-- A range on three nodes. -/
def threeReplicas : RangeDescriptor := ⟨7, [1], [9], [⟨1, 1⟩, ⟨2, 2⟩, ⟨3, 3⟩]⟩

/-- The first node does not answer, the second names the third, which leads. -/
def named : ℕ → Reply
  | 0 => .transportError
  | 1 => .notLeader 3
  | _ => .success

theorem sound_named :
    sendBatchRequestToLeader threeReplicas [1, 2, 3] named =
        ⟨[⟨1, .transportError⟩, ⟨2, .notLeader 3⟩, ⟨3, .success⟩], .success⟩ ∧
      Sound threeReplicas (sendBatchRequestToLeader threeReplicas [1, 2, 3] named) := by
  have hnodes : nodesOf threeReplicas = [1, 2, 3] := rfl
  refine ⟨by decide, (sound_iff_guided threeReplicas [1, 2, 3] named ?_ ?_).mpr ?_⟩
  · rw [hnodes]
    exact fun id h => h
  · rintro (_ | _ | n) lead h
    · cases h
    · cases h
      exact .inr (by rw [hnodes]; decide)
    · cases h
  · rintro - (_ | _ | n) - - h
    · cases h
    · exact absurd h (by decide)
    · cases h

/-- **An election is going on**: the first replica answers that the leader is unknown, and the
search goes on at node 0, which is nil. -/
theorem unknown_leader_nil :
    sendBatchRequestToLeader threeReplicas [1, 2, 3]
        (fun _ => .notLeader (getRaftGroupLeader 0 7 1).1) =
        ⟨[⟨1, .notLeader 0⟩], .nilNode 0⟩ ∧
      ¬ Sound threeReplicas (sendBatchRequestToLeader threeReplicas [1, 2, 3]
        fun _ => .notLeader (getRaftGroupLeader 0 7 1).1) := by
  have hrun : sendBatchRequestToLeader threeReplicas [1, 2, 3]
      (fun _ => .notLeader (getRaftGroupLeader 0 7 1).1) =
      ⟨[⟨1, .notLeader 0⟩], .nilNode 0⟩ := by
    decide
  refine ⟨hrun, fun h => ?_⟩
  rw [hrun] at h
  exact h.found 0 rfl

/-! ### The removal of a replica -/

/-- A later start of the replies. -/
lemma searchLoop_shift (rd : RangeDescriptor) (nodes : List NodeID) (replies : ℕ → Reply)
    (k n : ℕ) (id : NodeID) :
    searchLoop rd nodes replies k (n + 1) id =
      searchLoop rd nodes (fun m => replies (m + 1)) k n id := by
  induction k generalizing n id with
  | zero => rfl
  | succ k ih => simp only [searchLoop, ih]

/-- The ending of the search and the result of the request. -/
def Agrees : EStateM.Result Removal.Failure Removal.State Unit → Ending → Prop
  | .ok _ _, .success => True
  | .error .sendFail _, .sendFail => True
  | .error .panic _, .nilNode _ => True
  | .error (.node _) _, .failed _ => True
  | _, _ => False

lemma send_keeps {σ σ' : Removal.State} {x : NodeID} {c : Removal.Command}
    (h : σ.send x c = .ok σ') : σ'.cached = σ.cached ∧ σ'.nodes = σ.nodes := by
  unfold Removal.State.send at h
  cases hs : σ.stores x with
  | none => simp [hs] at h
  | some rd =>
    simp only [hs] at h
    by_cases hl : σ.lead ≠ x
    · simp [hl] at h
    · simp only [if_neg hl] at h
      cases c with
      | deleteRaftConf n =>
        simp only [Removal.State.executeCmd, Except.ok.injEq] at h
        subst h
        split_ifs <;> exact ⟨rfl, rfl⟩
      | updateRange rd =>
        simp only [Removal.State.executeCmd] at h
        split_ifs at h
        cases h
        exact ⟨rfl, rfl⟩

lemma carried_keeps (σ : Removal.State) (x : NodeID) (c : Removal.Command) :
    (σ.carried (σ.send x c)).cached = σ.cached ∧ (σ.carried (σ.send x c)).nodes = σ.nodes := by
  cases h : σ.send x c with
  | ok σ' => exact send_keeps h
  | error e => exact ⟨rfl, rfl⟩

/-- One more reply in front. -/
def prepend (r : Reply) (replies : ℕ → Reply) : ℕ → Reply
  | 0 => r
  | n + 1 => replies n

lemma nextFate_keeps (σ : Removal.State) : ∃ fate σ', Removal.nextFate σ = .ok fate σ' ∧
    σ'.cached = σ.cached ∧ σ'.nodes = σ.nodes := by
  unfold Removal.nextFate
  cases σ.fates with
  | nil => exact ⟨_, _, rfl, rfl, rfl⟩
  | cons fate fates => exact ⟨_, _, rfl, rfl, rfl⟩

/-- Both go on at one node after the same reply. -/
lemma agrees_go {c : Removal.Command} {k : ℕ} {id : NodeID} {σ σ' : Removal.State} (r : Reply)
    (hid : id ∈ σ.nodes) (hc : r.Continues)
    (hnext : r = .rangeNotFound → getNextNodeID σ.cached id ∈ σ.nodes)
    (hcached : σ'.cached = σ.cached) (hnodes : σ'.nodes = σ.nodes)
    (ih : ∀ id' σ', ∃ replies, Agrees (Removal.sendBatchRequestToLeader c k id' σ')
      (searchLoop σ'.cached σ'.nodes replies k 0 id').ending) :
    ∃ replies, Agrees (Removal.sendBatchRequestToLeader c k (nextTarget σ.cached id r) σ')
      (searchLoop σ.cached σ.nodes replies (k + 1) 0 id).ending := by
  obtain ⟨replies, hreplies⟩ := ih (nextTarget σ.cached id r) σ'
  refine ⟨prepend r replies, ?_⟩
  have hgo : searchLoop σ.cached σ.nodes (prepend r replies) (k + 1) 0 id = _ :=
    searchLoop_go k 0 hid hc hnext
  rw [hgo, searchLoop_shift]
  rwa [hcached, hnodes] at hreplies

/-- **The requests of a removal make this search**: whatever becomes of the messages and whatever
the nodes do, there are replies for which the search ends as the request does. -/
theorem removal_search (c : Removal.Command) (k : ℕ) (id : NodeID) (σ : Removal.State) :
    ∃ replies, Agrees (Removal.sendBatchRequestToLeader c k id σ)
      (searchLoop σ.cached σ.nodes replies k 0 id).ending := by
  induction k generalizing id σ with
  | zero => exact ⟨fun _ => .success, trivial⟩
  | succ k ih =>
    rw [Removal.sendBatchRequestToLeader, run_bind_get, run_bind_get]
    by_cases hid : id ∉ σ.nodes
    · refine ⟨fun _ => .success, ?_⟩
      rw [if_pos hid, searchLoop, if_pos hid]
      trivial
    have hmem : id ∈ σ.nodes := not_not.mp hid
    obtain ⟨fate, σ₁, hfate, hcached, hnodes⟩ := nextFate_keeps σ
    rw [if_neg hid, run_bind_ok hfate]
    cases fate with
    | noClient =>
      refine ⟨fun _ => .noClient, ?_⟩
      rw [searchLoop, if_neg hid]
      trivial
    | lost => exact agrees_go .transportError hmem trivial (by simp) hcached hnodes ih
    | replyLost =>
      obtain ⟨hc, hn⟩ := carried_keeps σ₁ id c
      exact agrees_go .transportError hmem trivial (by simp) (hc.trans hcached) (hn.trans hnodes)
        ih
    | delivered =>
      simp only [run_bind_get]
      cases hsend : σ₁.send id c with
      | ok σ' =>
        refine ⟨fun _ => .success, ?_⟩
        rw [searchLoop, if_neg hid]
        trivial
      | error e =>
        cases e with
        | rangeNotFound =>
          by_cases hnext : getNextNodeID σ.cached id ∉ σ.nodes
          · refine ⟨fun _ => .rangeNotFound, ?_⟩
            simp only [hnodes, if_pos hnext, searchLoop, if_neg hid]
            trivial
          · simp only [hnodes, if_neg hnext]
            exact agrees_go .rangeNotFound hmem trivial (fun _ => not_not.mp hnext) hcached hnodes
              ih
        | notLeader lead =>
          exact agrees_go (.notLeader lead) hmem trivial (by simp) hcached hnodes ih
        | noReplica | notFoundNode | timeout =>
          refine ⟨fun _ => .otherError "", ?_⟩
          rw [searchLoop, if_neg hid]
          trivial

end Ancestor.LeaderSearch
