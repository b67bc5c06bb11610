import Ancestor.Lib.Steps

/-!
The commands of a replica between `Send` and the answer (`storage/replica.go`, `meta/batch.go`,
`handleAsyncRequest` of `storage/store.go`).

`Send` puts a command into the queue of the raft loop. The loop draws an id for it, enters it
into `pendingCmds` and proposes it; when an entry is committed the loop looks its id up there
and answers, or hands the command to a worker that does.

What became of a command is kept beside the code's own state, in `fate`. The entries of other
nodes come with ids that those nodes have drawn.
-/

namespace Ancestor.PendingCmds

/-! ### The flags of a batch -/

abbrev RequestFlag := Int32

def isLeaderFlag : RequestFlag := 1
def isReadFlag : RequestFlag := 2
def isWriteFlag : RequestFlag := 4

/-- A batch, as the flags of its requests. -/
abbrev BatchRequest := List RequestFlag

namespace BatchRequest

def flags (br : BatchRequest) : RequestFlag := br.foldl (fun flags flag => flags ||| flag) 0

def isLeader (br : BatchRequest) : Bool := flags br &&& isLeaderFlag ≠ 0

def isWrite (br : BatchRequest) : Bool := flags br &&& isWriteFlag ≠ 0

def isReadOnly (br : BatchRequest) : Bool :=
  flags br &&& isReadFlag ≠ 0 ∧ flags br &&& isWriteFlag = 0

end BatchRequest

/-! ### The raft loop -/

abbrev CmdID := ℕ
abbrev RaftID := UInt64

/-- What became of a command. -/
inductive Fate
  | queued
  /-- the proposal under this id succeeded and its entry has not been applied -/
  | proposed (id : RaftID)
  | failed
  | applied
  deriving DecidableEq, Repr

/-- Commands are numbered as `Send` makes them. `sent` counts the responses on a command's
`done` channel. -/
structure State where
  commands : List BatchRequest := []
  pendingProposeChan : List CmdID := []
  pendingCmds : RaftID → Option CmdID := fun _ => none
  asyncRequestChan : List CmdID := []
  sent : CmdID → ℕ := fun _ => 0
  fate : CmdID → Fate := fun _ => .queued

inductive Action
  | send (breq : BatchRequest)
  /-- the id that is drawn, whether the data can be marshalled, and whether raft takes it -/
  | handleProposeCmd (id : RaftID) (marshals proposes : Bool)
  /-- the entry of a command of this replica is committed -/
  | processOwn (c : CmdID)
  /-- the entry of another node is committed -/
  | processOther (id : RaftID) (breq : BatchRequest)
  /-- a worker takes a request from the channel -/
  | handleAsyncRequest
  deriving DecidableEq, Repr

namespace State

def setFate (σ : State) (c : CmdID) (fate : Fate) : State :=
  { σ with fate := Function.update σ.fate c fate }

/-- `cmd.done <-`. -/
def respond (σ : State) (c : CmdID) : State :=
  { σ with sent := Function.update σ.sent c (σ.sent c + 1) }

/-- A leader batch is executed on the spot, and one that is neither is refused. -/
def send (σ : State) (breq : BatchRequest) : State :=
  if BatchRequest.isLeader breq then σ
  else if BatchRequest.isReadOnly breq || BatchRequest.isWrite breq then
    { σ with
      commands := σ.commands ++ [breq]
      pendingProposeChan := σ.pendingProposeChan ++ [σ.commands.length] }
  else σ

def handleProposeCmd (σ : State) (c : CmdID) (id : RaftID) (marshals proposes : Bool) : State :=
  if (σ.pendingCmds id).isSome then σ.setFate c .failed
  else if !marshals then σ.setFate c .failed
  else
    let σ' := { σ with pendingCmds := Function.update σ.pendingCmds id (some c) }
    if !proposes then σ'.setFate c .failed else σ'.setFate c (.proposed id)

def processRaftCommand (σ : State) (id : RaftID) (flags : RequestFlag) : State :=
  let cmd := σ.pendingCmds id
  let σ' := { σ with pendingCmds := Function.update σ.pendingCmds id none }
  if flags = isReadFlag then
    match cmd with
    | some c => { σ' with asyncRequestChan := σ'.asyncRequestChan ++ [c] }
    | none => σ'
  else if flags = isWriteFlag then
    match cmd with
    | some c => σ'.respond c
    | none => σ'
  else σ'

/-- The batch of a command. -/
def request (σ : State) (c : CmdID) : BatchRequest := σ.commands.getD c []

def step (σ : State) : Action → Option State
  | .send breq => some (σ.send breq)
  | .handleProposeCmd id marshals proposes =>
    match σ.pendingProposeChan with
    | [] => none
    | c :: rest =>
      some ({ σ with pendingProposeChan := rest }.handleProposeCmd c id marshals proposes)
  | .processOwn c =>
    match σ.fate c with
    | .proposed id =>
      some ((σ.processRaftCommand id (BatchRequest.flags (σ.request c))).setFate c .applied)
    | _ => none
  | .processOther id breq => some (σ.processRaftCommand id (BatchRequest.flags breq))
  | .handleAsyncRequest =>
    match σ.asyncRequestChan with
    | [] => none
    | c :: rest => some ({ σ with asyncRequestChan := rest }.respond c)

/-- The responses to a command: those on its channel, and the one a worker is to send. -/
def responses (σ : State) (c : CmdID) : ℕ := σ.sent c + σ.asyncRequestChan.count c

end State

/-- Every command is accounted for. -/
structure Accounted (σ : State) : Prop where
  pending : ∀ id c, σ.pendingCmds id = some c ↔ σ.fate c = .proposed id
  answered : ∀ c, σ.fate c = .failed ∨ σ.fate c = .applied → σ.responses c = 1

/-- The flag word is exactly one that `processRaftCommand` knows. -/
def Known (flags : RequestFlag) : Prop := flags = isReadFlag ∨ flags = isWriteFlag

instance (flags : RequestFlag) : Decidable (Known flags) := inferInstanceAs (Decidable (_ ∨ _))

/-- Every proposal succeeds, the batch of every applied command is all reads or all writes, and
no entry of another node has the id of a pending command. -/
def Clean (σ : State) : Action → Prop
  | .handleProposeCmd id marshals proposes =>
    σ.pendingCmds id = none ∧ marshals = true ∧ proposes = true
  | .processOwn c => Known (BatchRequest.flags (σ.request c))
  | .processOther id _ => σ.pendingCmds id = none
  | _ => True

instance (σ : State) (a : Action) : Decidable (Clean σ a) := by
  cases a <;> unfold Clean <;> infer_instance

/-! ### What every step keeps -/

/-- A command that is queued or pending has no response, and it is there once. -/
structure Inv (σ : State) : Prop where
  nodup : σ.pendingProposeChan.Nodup
  queued : ∀ c ∈ σ.pendingProposeChan, c < σ.commands.length ∧ σ.fate c = .queued ∧
    σ.responses c = 0 ∧ ∀ id, σ.pendingCmds id ≠ some c
  pending : ∀ id c, σ.pendingCmds id = some c → c < σ.commands.length ∧ σ.responses c = 0
  single : ∀ id id' c, σ.pendingCmds id = some c → σ.pendingCmds id' = some c → id = id'
  fresh : ∀ c, σ.commands.length ≤ c → σ.fate c = .queued ∧ σ.responses c = 0

lemma accounted_init : Accounted {} := by
  constructor <;> simp

lemma inv_init : Inv {} where
  nodup := List.nodup_nil
  queued := by simp
  pending := by simp
  single := by simp
  fresh c _ := ⟨rfl, rfl⟩

lemma responses_respond (σ : State) (d c : CmdID) :
    (σ.respond d).responses c = σ.responses c + if d = c then 1 else 0 := by
  by_cases h : d = c
  · subst h
    simp [State.responses, State.respond]
    omega
  · simp [State.responses, State.respond, h, Function.update_of_ne (Ne.symm h)]

lemma responses_enqueue (σ : State) (d c : CmdID) :
    ({ σ with asyncRequestChan := σ.asyncRequestChan ++ [d] } : State).responses c =
      σ.responses c + if d = c then 1 else 0 := by
  simp only [State.responses, List.count_append, List.count_singleton, beq_iff_eq]
  omega

section Process

variable (σ : State) (id : RaftID) (flags : RequestFlag)

/-- **The answer of `processRaftCommand`**: a command that was pending under the id gets one
response when the flag word is known. -/
lemma responses_processRaftCommand (c : CmdID) :
    (σ.processRaftCommand id flags).responses c =
      σ.responses c + if σ.pendingCmds id = some c ∧ Known flags then 1 else 0 := by
  unfold State.processRaftCommand
  cases hp : σ.pendingCmds id with
  | none => split_ifs <;> simp_all [State.responses]
  | some d =>
    simp only [Option.some.injEq]
    by_cases hread : flags = isReadFlag
    · rw [if_pos hread]
      refine (responses_enqueue { σ with pendingCmds := _ } d c).trans ?_
      simp [Known, hread, State.responses]
    · by_cases hwrite : flags = isWriteFlag
      · rw [if_neg hread, if_pos hwrite, responses_respond]
        simp [Known, hwrite, State.responses]
      · rw [if_neg hread, if_neg hwrite]
        simp [Known, hread, hwrite, State.responses]

lemma processRaftCommand_frame :
    (σ.processRaftCommand id flags).commands = σ.commands ∧
      (σ.processRaftCommand id flags).pendingProposeChan = σ.pendingProposeChan ∧
      (σ.processRaftCommand id flags).pendingCmds = Function.update σ.pendingCmds id none ∧
      (σ.processRaftCommand id flags).fate = σ.fate := by
  unfold State.processRaftCommand
  cases σ.pendingCmds id <;> split_ifs <;> exact ⟨rfl, rfl, rfl, rfl⟩

end Process

section Step

variable {σ σ' : State}

lemma inv_send (h : Inv σ) (breq : BatchRequest) : Inv (σ.send breq) := by
  unfold State.send
  split_ifs
  · exact h
  · refine ⟨?_, fun c hc => ?_, fun id c hc => ?_, h.single, fun c hc => ?_⟩
    · refine List.nodup_append.mpr ⟨h.nodup, List.nodup_singleton _, fun c hc d hd => ?_⟩
      rw [List.mem_singleton.mp hd]
      exact ne_of_lt (h.queued c hc).1
    · rw [List.length_append, List.length_singleton]
      obtain hc | hc := List.mem_append.mp hc
      · obtain ⟨hlt, hrest⟩ := h.queued c hc
        exact ⟨Nat.lt_succ_of_lt hlt, hrest⟩
      · have hlen := List.mem_singleton.mp hc
        subst hlen
        obtain ⟨hfate, hresp⟩ := h.fresh _ le_rfl
        exact ⟨Nat.lt_succ_self _, hfate, hresp, fun id hid => lt_irrefl _ (h.pending id _ hid).1⟩
    · rw [List.length_append, List.length_singleton]
      obtain ⟨hlt, hresp⟩ := h.pending id c hc
      exact ⟨Nat.lt_succ_of_lt hlt, hresp⟩
    · rw [List.length_append, List.length_singleton] at hc
      exact h.fresh c (Nat.le_of_succ_le hc)
  · exact h

/-- A command is taken from the queue and fails at once. -/
lemma inv_fail {c : CmdID} {rest : List CmdID} (h : Inv σ) (hq : σ.pendingProposeChan = c :: rest) :
    Inv ({ σ with pendingProposeChan := rest }.setFate c .failed) := by
  have hnodup := h.nodup
  have hqueued := h.queued
  rw [hq] at hnodup hqueued
  obtain ⟨hnot, hrest⟩ := List.nodup_cons.mp hnodup
  refine ⟨hrest, fun d hd => ?_, h.pending, h.single, fun d hd => ?_⟩
  · have hne : d ≠ c := fun he => hnot (he ▸ hd)
    obtain ⟨hlt, hfate, hresp, hpend⟩ := hqueued d (List.mem_cons_of_mem c hd)
    exact ⟨hlt, by simpa [State.setFate, hne] using hfate, hresp, hpend⟩
  · have hlt := (hqueued c List.mem_cons_self).1
    have hne : d ≠ c := fun he => by subst he; exact absurd hlt (not_lt.mpr hd)
    obtain ⟨hfate, hresp⟩ := h.fresh d hd
    exact ⟨by simpa [State.setFate, hne] using hfate, hresp⟩

/-- A command is taken from the queue and entered under an id. -/
lemma inv_enter {c : CmdID} {rest : List CmdID} {id : RaftID} {fate : Fate} (h : Inv σ)
    (hq : σ.pendingProposeChan = c :: rest) :
    Inv (State.setFate { σ with
      pendingProposeChan := rest, pendingCmds := Function.update σ.pendingCmds id (some c) }
        c fate) := by
  have hnodup := h.nodup
  have hqueued := h.queued
  rw [hq] at hnodup hqueued
  obtain ⟨hnot, hrest⟩ := List.nodup_cons.mp hnodup
  obtain ⟨hlt, -, hresp, hpend⟩ := hqueued c List.mem_cons_self
  have hentry : ∀ id' d, Function.update σ.pendingCmds id (some c) id' = some d →
      (id' = id ∧ d = c) ∨ σ.pendingCmds id' = some d := by
    intro id' d hd
    by_cases hid : id' = id
    · subst hid
      rw [Function.update_self] at hd
      exact .inl ⟨rfl, (Option.some.inj hd).symm⟩
    · rw [Function.update_of_ne hid] at hd
      exact .inr hd
  refine ⟨hrest, fun d hd => ?_, fun id' d hd => ?_, fun id₁ id₂ d h₁ h₂ => ?_, fun d hd => ?_⟩
  · have hne : d ≠ c := fun he => hnot (he ▸ hd)
    obtain ⟨hlt', hfate, hresp', hpend'⟩ := hqueued d (List.mem_cons_of_mem c hd)
    refine ⟨hlt', by simpa [State.setFate, hne] using hfate, hresp', fun id' hid' => ?_⟩
    obtain ⟨-, rfl⟩ | hid' := hentry id' d hid'
    · exact hne rfl
    · exact hpend' id' hid'
  · obtain ⟨-, rfl⟩ | hd := hentry id' d hd
    · exact ⟨hlt, hresp⟩
    · exact h.pending id' d hd
  · obtain ⟨hid₁, hd₁⟩ | hd₁ := hentry id₁ d h₁
    · obtain ⟨hid₂, -⟩ | hd₂ := hentry id₂ d h₂
      · exact hid₁.trans hid₂.symm
      · exact absurd (hd₁ ▸ hd₂) (hpend id₂)
    · obtain ⟨-, hd₂⟩ | hd₂ := hentry id₂ d h₂
      · exact absurd (hd₂ ▸ hd₁) (hpend id₁)
      · exact h.single id₁ id₂ d hd₁ hd₂
  · have hne : d ≠ c := fun he => by subst he; exact absurd hlt (not_lt.mpr hd)
    obtain ⟨hfate, hresp'⟩ := h.fresh d hd
    exact ⟨by simpa [State.setFate, hne] using hfate, hresp'⟩

lemma inv_handleProposeCmd {c : CmdID} {rest : List CmdID} (h : Inv σ)
    (hq : σ.pendingProposeChan = c :: rest) (id : RaftID) (marshals proposes : Bool) :
    Inv ({ σ with pendingProposeChan := rest }.handleProposeCmd c id marshals proposes) := by
  unfold State.handleProposeCmd
  split_ifs
  · exact inv_fail h hq
  · exact inv_fail h hq
  · exact inv_enter (σ := σ) h hq
  · exact inv_enter (σ := σ) h hq

lemma inv_processRaftCommand (h : Inv σ) (id : RaftID) (flags : RequestFlag) :
    Inv (σ.processRaftCommand id flags) := by
  obtain ⟨hcmds, hchan, hpending, hfate⟩ := processRaftCommand_frame σ id flags
  have hresp := responses_processRaftCommand σ id flags
  have hkeep : ∀ c, σ.pendingCmds id ≠ some c →
      (σ.processRaftCommand id flags).responses c = σ.responses c := by
    intro c hc
    rw [hresp, if_neg fun hand => hc hand.1, Nat.add_zero]
  have hentry : ∀ id' c, Function.update σ.pendingCmds id none id' = some c →
      id' ≠ id ∧ σ.pendingCmds id' = some c := by
    intro id' c hc
    by_cases hid : id' = id
    · subst hid
      simp at hc
    · rw [Function.update_of_ne hid] at hc
      exact ⟨hid, hc⟩
  refine ⟨hchan ▸ h.nodup, fun c hc => ?_, fun id' c hc => ?_, fun id₁ id₂ c h₁ h₂ => ?_,
    fun c hc => ?_⟩
  · rw [hchan] at hc
    obtain ⟨hlt, hf, hr, hpend⟩ := h.queued c hc
    rw [hcmds, hfate, hkeep c (hpend id)]
    refine ⟨hlt, hf, hr, fun id' hid' => ?_⟩
    rw [hpending] at hid'
    exact hpend id' (hentry id' c hid').2
  · rw [hpending] at hc
    obtain ⟨hne, hc⟩ := hentry id' c hc
    obtain ⟨hlt, hr⟩ := h.pending id' c hc
    rw [hcmds, hkeep c fun hid => hne (h.single id' id c hc hid)]
    exact ⟨hlt, hr⟩
  · rw [hpending] at h₁ h₂
    exact h.single id₁ id₂ c (hentry id₁ c h₁).2 (hentry id₂ c h₂).2
  · rw [hcmds] at hc
    obtain ⟨hf, hr⟩ := h.fresh c hc
    rw [hfate, hkeep c fun hid => absurd (h.pending id c hid).1 (not_lt.mpr hc)]
    exact ⟨hf, hr⟩

lemma inv_setFate {c : CmdID} {fate : Fate} (h : Inv σ) (hc : σ.fate c ≠ .queued) :
    Inv (σ.setFate c fate) := by
  refine ⟨h.nodup, fun d hd => ?_, h.pending, h.single, fun d hd => ?_⟩
  · obtain ⟨hlt, hf, hrest⟩ := h.queued d hd
    have hne : d ≠ c := fun he => hc (he ▸ hf)
    exact ⟨hlt, by simpa [State.setFate, hne] using hf, hrest⟩
  · obtain ⟨hf, hr⟩ := h.fresh d hd
    have hne : d ≠ c := fun he => hc (he ▸ hf)
    exact ⟨by simpa [State.setFate, hne] using hf, hr⟩

/-- A worker sends the response that was counted already. -/
lemma responses_worker {c : CmdID} {rest : List CmdID} (hq : σ.asyncRequestChan = c :: rest)
    (d : CmdID) : ({ σ with asyncRequestChan := rest }.respond c).responses d = σ.responses d := by
  rw [responses_respond, State.responses, State.responses, hq, List.count_cons]
  simp only [beq_iff_eq]
  exact Nat.add_assoc _ _ _

lemma inv_of_responses (h : Inv σ) (hcmds : σ'.commands = σ.commands)
    (hchan : σ'.pendingProposeChan = σ.pendingProposeChan)
    (hpending : σ'.pendingCmds = σ.pendingCmds) (hfate : σ'.fate = σ.fate)
    (hresp : ∀ c, σ'.responses c = σ.responses c) : Inv σ' := by
  refine ⟨hchan ▸ h.nodup, fun c hc => ?_, fun id c hc => ?_, hpending ▸ h.single, fun c hc => ?_⟩
  · rw [hcmds, hfate, hresp, hpending]
    exact h.queued c (hchan ▸ hc)
  · rw [hcmds, hresp]
    exact h.pending id c (hpending ▸ hc)
  · rw [hfate, hresp]
    exact h.fresh c (hcmds ▸ hc)

/-- What a step that goes through does. -/
inductive Effect (σ : State) : Action → State → Prop
  | send (breq : BatchRequest) : Effect σ (.send breq) (σ.send breq)
  | propose (c : CmdID) (rest : List CmdID) (hq : σ.pendingProposeChan = c :: rest) (id : RaftID)
      (marshals proposes : Bool) :
      Effect σ (.handleProposeCmd id marshals proposes)
        ({ σ with pendingProposeChan := rest }.handleProposeCmd c id marshals proposes)
  | own (c : CmdID) (id : RaftID) (hf : σ.fate c = .proposed id) :
      Effect σ (.processOwn c)
        ((σ.processRaftCommand id (BatchRequest.flags (σ.request c))).setFate c .applied)
  | other (id : RaftID) (breq : BatchRequest) :
      Effect σ (.processOther id breq) (σ.processRaftCommand id (BatchRequest.flags breq))
  | worker (c : CmdID) (rest : List CmdID) (hq : σ.asyncRequestChan = c :: rest) :
      Effect σ .handleAsyncRequest ({ σ with asyncRequestChan := rest }.respond c)

theorem step_effect {a : Action} (hs : σ.step a = some σ') : Effect σ a σ' := by
  cases a with
  | send breq =>
    cases hs
    exact .send breq
  | handleProposeCmd id marshals proposes =>
    simp only [State.step] at hs
    split at hs
    · cases hs
    · next c rest hq =>
      cases hs
      exact .propose c rest hq id marshals proposes
  | processOwn c =>
    simp only [State.step] at hs
    split at hs
    · next id hf =>
      cases hs
      exact .own c id hf
    · cases hs
  | processOther id breq =>
    cases hs
    exact .other id breq
  | handleAsyncRequest =>
    simp only [State.step] at hs
    split at hs
    · cases hs
    · next c rest hq =>
      cases hs
      exact .worker c rest hq

lemma step_inv {a : Action} (h : Inv σ) (hs : σ.step a = some σ') : Inv σ' := by
  cases step_effect hs with
  | send breq => exact inv_send h breq
  | propose c rest hq id marshals proposes => exact inv_handleProposeCmd h hq id marshals proposes
  | own c id hf =>
    refine inv_setFate (inv_processRaftCommand h id _) ?_
    rw [(processRaftCommand_frame σ id _).2.2.2, hf]
    exact fun he => nomatch he
  | other id breq => exact inv_processRaftCommand h id _
  | worker c rest hq => exact inv_of_responses h rfl rfl rfl rfl (responses_worker hq)

/-! ### When a step keeps the account -/

lemma accounted_send (breq : BatchRequest) : Accounted (σ.send breq) ↔ Accounted σ := by
  unfold State.send
  split_ifs
  · rfl
  · exact ⟨fun h => ⟨h.pending, h.answered⟩, fun h => ⟨h.pending, h.answered⟩⟩
  · rfl

/-- A failed proposal has no answer, or leaves the command in `pendingCmds`. -/
lemma accounted_handleProposeCmd {c : CmdID} {rest : List CmdID} (hinv : Inv σ) (h : Accounted σ)
    (hq : σ.pendingProposeChan = c :: rest) (id : RaftID) (marshals proposes : Bool) :
    Accounted ({ σ with pendingProposeChan := rest }.handleProposeCmd c id marshals proposes) ↔
      σ.pendingCmds id = none ∧ marshals = true ∧ proposes = true := by
  obtain ⟨-, hfate, hresp, hpend⟩ := hinv.queued c (by simp [hq])
  have hfailed : ¬Accounted ({ σ with pendingProposeChan := rest }.setFate c .failed) := by
    intro hacc
    have hone := hacc.answered c (.inl (by simp [State.setFate]))
    have hzero : σ.responses c = 1 := hone
    omega
  unfold State.handleProposeCmd
  split_ifs with hid hm hp
  · refine iff_of_false hfailed fun hand => ?_
    rw [hand.1] at hid
    cases hid
  · refine iff_of_false hfailed fun hand => ?_
    simp [hand.2.1] at hm
  · refine iff_of_false (fun hacc => ?_) fun hand => ?_
    · have hone := hacc.answered c (.inl (by simp [State.setFate]))
      have hzero : σ.responses c = 1 := hone
      omega
    · simp [hand.2.2] at hp
  · have hnone : σ.pendingCmds id = none := by simpa using hid
    refine iff_of_true ⟨fun id' d => ?_, fun d hd => ?_⟩
      ⟨hnone, by simpa using hm, by simpa using hp⟩
    · by_cases hd : d = c
      · subst hd
        by_cases hid' : id' = id
        · simp [State.setFate, hid']
        · have hne : id ≠ id' := Ne.symm hid'
          simp [State.setFate, hid', hne, hpend id']
      · by_cases hid' : id' = id
        · subst hid'
          have hnot : σ.fate d ≠ .proposed id' := fun hf => by
            rw [← h.pending, hnone] at hf
            cases hf
          simp [State.setFate, hd, Ne.symm hd, hnot]
        · simpa [State.setFate, hd, hid'] using h.pending id' d
    · have hne : d ≠ c := by
        rintro rfl
        simp [State.setFate] at hd
      exact h.answered d (by simpa [State.setFate, hne] using hd)

lemma accounted_processOwn {c : CmdID} {id : RaftID} (hinv : Inv σ) (h : Accounted σ)
    (hf : σ.fate c = .proposed id) (flags : RequestFlag) :
    Accounted ((σ.processRaftCommand id flags).setFate c .applied) ↔ Known flags := by
  obtain ⟨-, -, hpending, hfate⟩ := processRaftCommand_frame σ id flags
  have hresp := responses_processRaftCommand σ id flags
  have hc := (h.pending id c).mpr hf
  have hzero := (hinv.pending id c hc).2
  constructor
  · intro hacc
    have hone : (σ.processRaftCommand id flags).responses c = 1 :=
      hacc.answered c (.inr (by simp [State.setFate]))
    by_contra hnot
    rw [hresp, hzero, if_neg fun hand => hnot hand.2] at hone
    cases hone
  · intro hknown
    refine ⟨fun id' d => ?_, fun d hd => ?_⟩
    · simp only [State.setFate, hpending, hfate]
      by_cases hd : d = c
      · subst hd
        rw [Function.update_self]
        refine iff_of_false (fun he => ?_) fun he => nomatch he
        by_cases hid : id' = id
        · simp [hid] at he
        · rw [Function.update_of_ne hid] at he
          exact hid (hinv.single id' id d he hc)
      · rw [Function.update_of_ne hd]
        by_cases hid : id' = id
        · subst hid
          rw [Function.update_self, ← h.pending, hc]
          refine iff_of_false (fun he => nomatch he) fun he => hd (Option.some.inj he).symm
        · rw [Function.update_of_ne hid]
          exact h.pending id' d
    · have hgoal : (σ.processRaftCommand id flags).responses d = 1 := by
        by_cases hdc : d = c
        · subst hdc
          rw [hresp, hzero, if_pos ⟨hc, hknown⟩]
        · have hd' : σ.fate d = .failed ∨ σ.fate d = .applied := by
            simpa [State.setFate, hdc, hfate] using hd
          rw [hresp, h.answered d hd', if_neg fun hand => hdc ?_]
          exact (Option.some.inj (hc.symm.trans hand.1)).symm
      exact hgoal

lemma accounted_processOther (h : Accounted σ) (id : RaftID) (flags : RequestFlag) :
    Accounted (σ.processRaftCommand id flags) ↔ σ.pendingCmds id = none := by
  obtain ⟨-, -, hpending, hfate⟩ := processRaftCommand_frame σ id flags
  constructor
  · intro hacc
    cases hc : σ.pendingCmds id with
    | none => rfl
    | some c =>
      have hf := (h.pending id c).mp hc
      rw [← hfate, ← hacc.pending, hpending, Function.update_self] at hf
      cases hf
  · intro hnone
    have hsame : Function.update σ.pendingCmds id none = σ.pendingCmds := by
      rw [← hnone, Function.update_eq_self]
    refine ⟨fun id' d => ?_, fun d hd => ?_⟩
    · rw [hpending, hsame, hfate]
      exact h.pending id' d
    · rw [responses_processRaftCommand, hnone, if_neg fun hand => nomatch hand.1]
      exact h.answered d (hfate ▸ hd)

lemma accounted_step {a : Action} (hinv : Inv σ) (h : Accounted σ) (hs : σ.step a = some σ') :
    Accounted σ' ↔ Clean σ a := by
  cases step_effect hs with
  | send breq => exact (accounted_send breq).trans (iff_of_true h trivial)
  | propose c rest hq id marshals proposes =>
    exact accounted_handleProposeCmd hinv h hq id marshals proposes
  | own c id hf => exact accounted_processOwn hinv h hf _
  | other id breq => exact accounted_processOther h id _
  | worker c rest hq =>
    refine iff_of_true ⟨h.pending, fun d hd => ?_⟩ trivial
    rw [responses_worker hq]
    exact h.answered d hd

end Step

/-- **When every command is accounted for.** Along a run of the raft loop, `pendingCmds` holds
the proposed commands and every applied or failed command has one response, exactly when every
proposal succeeds, every applied batch is all reads or all writes, and no entry of another node
has the id of a pending command. -/
theorem accounted_iff {l : List Action} {σ : State} (hrun : Steps.run State.step {} l = some σ) :
    Steps.Always State.step Accounted {} l ↔ Steps.Along State.step Clean {} l := by
  exact Steps.always_iff_along (I := Inv) (fun _ _ _ h hs => step_inv h hs)
    (fun _ _ _ hinv h hs => accounted_step hinv h hs) inv_init accounted_init hrun

/-- A read and a write in one batch: `Send` takes it for a write, and the loop for neither. -/
def mixed : List Action :=
  [.send [isReadFlag, isWriteFlag], .handleProposeCmd 1 true true, .processOwn 0]

def refused : List Action := [.send [isWriteFlag], .handleProposeCmd 1 true false]

/-- **Commands that nobody answers**: a batch of a read and a write is applied, and a failed
proposal stays in `pendingCmds`, without a response. -/
theorem mixed_refused_unanswered :
    (∃ σ, Steps.run State.step {} mixed = some σ ∧ σ.fate 0 = .applied ∧ σ.responses 0 = 0 ∧
      ¬Accounted σ) ∧
    ∃ σ, Steps.run State.step {} refused = some σ ∧ σ.fate 0 = .failed ∧
      σ.pendingCmds 1 = some 0 ∧ σ.responses 0 = 0 ∧ ¬Accounted σ := by
  refine ⟨⟨_, rfl, rfl, rfl, fun h => ?_⟩, ⟨_, rfl, rfl, rfl, rfl, fun h => ?_⟩⟩
  · exact absurd (h.answered 0 (.inr rfl)) (by decide)
  · exact absurd (h.answered 0 (.inl rfl)) (by decide)

/-- A write and a read, each proposed and applied, and an entry of another node. -/
def answered : List Action :=
  [.send [isWriteFlag, isWriteFlag], .send [isReadFlag], .handleProposeCmd 1 true true,
    .handleProposeCmd 2 true true, .processOther 3 [isWriteFlag], .processOwn 0, .processOwn 1,
    .handleAsyncRequest]

theorem accounted_answered :
    (Steps.run State.step {} answered).map (fun σ => (σ.sent 0, σ.sent 1)) = some (1, 1) ∧
      Steps.Always State.step Accounted {} answered := by
  obtain ⟨σ, hσ⟩ : ∃ σ, Steps.run State.step {} answered = some σ := ⟨_, rfl⟩
  exact ⟨by decide +kernel, (accounted_iff hσ).mpr (by decide +kernel)⟩

end Ancestor.PendingCmds
