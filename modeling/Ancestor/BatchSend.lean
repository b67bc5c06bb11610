import Ancestor.Conflict
import Ancestor.PendingCmds
import Ancestor.Split

/-!
A batch through `store.Send` (`storage/store.go`, `storage/replica.go`, `meta/batch.go`).

`Send` has the replica execute the batch. What comes back with a conflict is cut behind the
requests that have been answered, the transaction in the way is pushed, and the rest is sent
again, as often as it takes. The responses of all turns are put together.

The requests, their responses and what executing one does are parameters. Every execution of a
request is kept in a log, with the place of the request in the batch.
-/

namespace Ancestor.BatchSend

open PendingCmds (RequestFlag isLeaderFlag isReadFlag isWriteFlag)

def isSystemFlag : RequestFlag := 16

/-- A request of a batch, and where it stands in it: the code does not have the number. -/
structure Item (ρ : Type) where
  flag : RequestFlag
  inner : ρ
  pos : ℕ
  deriving DecidableEq, Repr

structure BatchRequest (ρ : Type) where
  req : List (Item ρ)
  pusheeTxn : List Transaction := []

inductive SendError
  | node (e : Err)
  | proposeTimeout
  | unknownCommand
  deriving DecidableEq, Repr

/-- A batch response and the error that is returned with it. -/
structure Reply (υ : Type) where
  resp : List υ := []
  err : Option SendError := none
  deriving DecidableEq, Repr

/-- One execution of a request. -/
structure Event (ρ υ : Type) where
  pos : ℕ
  inner : ρ
  result : Except Err υ

structure World (W ρ υ : Type) where
  st : W
  log : List (Event ρ υ) := []

/-- What becomes of a command that is proposed: it is applied and answered, or only applied before
`Send` has given up, or neither. -/
inductive Fate
  | answered
  | late
  | dropped
  deriving DecidableEq, Repr

/-- What `Send` calls. A call may find the state changed by others, and `propose` stands for the
way of a command through raft. -/
structure Node (W ρ υ : Type) where
  executeRootCmd : ρ → EStateM Err W υ
  /-- the leader that the replica of the range knows, and whether it leads itself -/
  getRaftGroupLeader : W → Except Err (NodeID × Bool)
  propose : W → Fate × W
  executeCmd : ρ → EStateM Err W υ
  /-- `executeCmd` on a snapshot of an earlier state -/
  executeCmdOn : W → ρ → EStateM Err W υ
  preprocessWriteIntentError : List Transaction → Err → EStateM Err W Bool
  processWriteIntentError : WriteIntentError → EStateM Err W Transaction

/-! ### The code -/

section Code

variable {W ρ υ : Type}

/-- A call of `executeCmd`, which goes into the log. -/
def call (exec : ρ → EStateM Err W υ) (x : Item ρ) (w : World W ρ υ) :
    Except Err υ × World W ρ υ :=
  match exec x.inner w.st with
  | .ok a st => (.ok a, ⟨st, w.log ++ [⟨x.pos, x.inner, .ok a⟩]⟩)
  | .error e st => (.error e, ⟨st, w.log ++ [⟨x.pos, x.inner, .error e⟩]⟩)

/-- `BatchRequest.Execute`: the first error ends the batch. -/
def execute (exec : Item ρ → World W ρ υ → Except Err υ × World W ρ υ) :
    List (Item ρ) → World W ρ υ → Reply υ × World W ρ υ
  | [], w => ({}, w)
  | x :: l, w =>
    match exec x w with
    | (.error e, w) => (⟨[], some (.node e)⟩, w)
    | (.ok a, w) =>
      let (reply, w) := execute exec l w
      ({ reply with resp := a :: reply.resp }, w)

namespace BatchRequest

variable (breq : BatchRequest ρ)

def flags : RequestFlag := PendingCmds.BatchRequest.flags (breq.req.map (·.flag))

def isLeader : Bool := PendingCmds.BatchRequest.isLeader (breq.req.map (·.flag))

def isWrite : Bool := PendingCmds.BatchRequest.isWrite (breq.req.map (·.flag))

def isReadOnly : Bool := PendingCmds.BatchRequest.isReadOnly (breq.req.map (·.flag))

def isSystem : Bool := breq.flags &&& isSystemFlag ≠ 0

end BatchRequest

namespace Node

variable (N : Node W ρ υ)

/-- One request of a batch with writes, as `processRaftCommand` executes it. -/
def applyRequest (pusheeTxn : List Transaction) (x : Item ρ) (w : World W ρ υ) :
    Except Err υ × World W ρ υ :=
  match call N.executeCmd x w with
  | (.ok a, w) => (.ok a, w)
  | (.error err, w) =>
    match N.preprocessWriteIntentError pusheeTxn err w.st with
    | .ok true st => call N.executeCmd x { w with st }
    | .ok false st => (.error err, { w with st })
    | .error e st => (.error e, { w with st })

/-- `processRaftCommand`: a batch that is neither one of reads nor one of writes is not executed,
and nobody is answered. -/
def processRaftCommand (breq : BatchRequest ρ) (w : World W ρ υ) :
    Option (Reply υ) × World W ρ υ :=
  if breq.flags = isReadFlag then
    let (reply, w) := execute (call (N.executeCmdOn w.st)) breq.req w
    (some reply, w)
  else if breq.flags = isWriteFlag then
    let (reply, w) := execute (N.applyRequest breq.pusheeTxn) breq.req w
    (some reply, w)
  else (none, w)

/-- `Send` of the replica. -/
def replicaSend (breq : BatchRequest ρ) (w : World W ρ υ) : Reply υ × World W ρ υ :=
  if breq.isLeader then execute (call N.executeCmd) breq.req w
  else if breq.isReadOnly || breq.isWrite then
    let (fate, st) := N.propose w.st
    let w := { w with st }
    match fate with
    | .dropped => (⟨[], some .proposeTimeout⟩, w)
    | .late => (⟨[], some .proposeTimeout⟩, (N.processRaftCommand breq w).2)
    | .answered =>
      match N.processRaftCommand breq w with
      | (some reply, w) => (reply, w)
      | (none, w) => (⟨[], some .proposeTimeout⟩, w)
  else (⟨[], some .unknownCommand⟩, w)

/-- The retry loop, for a number of turns: the source has no bound. -/
def sendLoop : ℕ → BatchRequest ρ → List υ → World W ρ υ → Option (Reply υ × World W ρ υ)
  | 0, _, _, _ => none
  | n + 1, breq, bresp, w =>
    let (reply, w) := N.replicaSend breq w
    let bresp := bresp ++ reply.resp
    match reply.err with
    | none => some (⟨bresp, none⟩, w)
    | some (.node (.writeIntent wiErr)) =>
      match N.processWriteIntentError wiErr w.st with
      | .error e st => some (⟨bresp, some (.node e)⟩, { w with st })
      | .ok pusheeTxn st =>
        sendLoop n ⟨breq.req.drop reply.resp.length, breq.pusheeTxn ++ [pusheeTxn]⟩ bresp
          { w with st }
    | some err => some (⟨bresp, some err⟩, w)

/-- `store.Send`. -/
def send (n : ℕ) (breq : BatchRequest ρ) (w : World W ρ υ) : Option (Reply υ × World W ρ υ) :=
  if breq.isSystem then some (execute (call N.executeRootCmd) breq.req w)
  else
    match N.getRaftGroupLeader w.st with
    | .error e => some (⟨[], some (.node e)⟩, w)
    | .ok (id, isLeader) =>
      if isLeader then N.sendLoop n breq [] w
      else some (⟨[], some (.node (.notLeader id))⟩, w)

end Node

end Code

/-! ### Working through a batch -/

section Serves

variable {W ρ υ : Type}

/-- The log works through `l`: the first request is tried until it succeeds, then the next one.
The answers are those of the first requests, `rest` has not been answered. -/
inductive Serves : List (Item ρ) → List (Event ρ υ) → List υ → List (Item ρ) → Prop
  | nil (l : List (Item ρ)) : Serves l [] [] l
  | fail {x : Item ρ} {l rest : List (Item ρ)} {log : List (Event ρ υ)} {answers : List υ}
      (e : Err) (h : Serves (x :: l) log answers rest) :
      Serves (x :: l) (⟨x.pos, x.inner, .error e⟩ :: log) answers rest
  | ok {x : Item ρ} {l rest : List (Item ρ)} {log : List (Event ρ υ)} {answers : List υ} (a : υ)
      (h : Serves l log answers rest) :
      Serves (x :: l) (⟨x.pos, x.inner, .ok a⟩ :: log) (a :: answers) rest

variable {l l₁ l₂ rest : List (Item ρ)} {log log₁ log₂ : List (Event ρ υ)}
  {answers answers₁ answers₂ : List υ}

lemma Serves.trans (h₁ : Serves l log₁ answers₁ l₁) (h₂ : Serves l₁ log₂ answers₂ l₂) :
    Serves l (log₁ ++ log₂) (answers₁ ++ answers₂) l₂ := by
  induction h₁ with
  | nil l => exact h₂
  | fail e _ ih => exact .fail e (ih h₂)
  | ok a _ ih => exact .ok a (ih h₂)

lemma Serves.rest_eq (h : Serves l log answers rest) : rest = l.drop answers.length := by
  induction h with
  | nil l => rfl
  | fail e _ ih => exact ih
  | ok a _ ih => exact ih

lemma Serves.length_le (h : Serves l log answers rest) : answers.length ≤ l.length := by
  induction h with
  | nil l => exact Nat.zero_le _
  | fail e _ ih => exact ih
  | ok a _ ih => exact Nat.succ_le_succ ih

/-- The request of an event with its place and its response, when it has succeeded. -/
def Event.answer (e : Event ρ υ) : Option (ℕ × ρ × υ) :=
  match e.result with
  | .ok a => some (e.pos, e.inner, a)
  | .error _ => none

/-- The successful executions of a log. -/
def succeeded (log : List (Event ρ υ)) : List (ℕ × ρ × υ) := log.filterMap Event.answer

/-- The first requests of a batch with their places and with responses. -/
def paired (l : List (Item ρ)) (resp : List υ) : List (ℕ × ρ × υ) :=
  List.zipWith (fun x a => (x.pos, x.inner, a)) l resp

lemma Serves.succeeded_eq (h : Serves l log answers rest) :
    succeeded log = paired l answers := by
  induction h with
  | nil l => exact List.zipWith_nil_right.symm
  | fail e _ ih => exact ih
  | ok a _ ih => exact congrArg (_ :: ·) ih

/-- The request that is executed is the one after those that have succeeded. -/
lemma Serves.at_turn (h : Serves l log answers rest) {pre post : List (Event ρ υ)}
    {e : Event ρ υ} (hlog : log = pre ++ e :: post) :
    ∃ x, l[(succeeded pre).length]? = some x ∧ e.pos = x.pos ∧ e.inner = x.inner := by
  induction h generalizing pre with
  | nil l => simp at hlog
  | @fail x l _ _ _ err _ ih =>
    cases pre with
    | nil =>
      cases hlog
      exact ⟨x, rfl, rfl, rfl⟩
    | cons e' pre =>
      cases hlog
      exact @ih pre rfl
  | @ok x l _ _ _ a _ ih =>
    cases pre with
    | nil =>
      cases hlog
      exact ⟨x, rfl, rfl, rfl⟩
    | cons e' pre =>
      cases hlog
      exact @ih pre rfl

end Serves

/-! ### What the code does to the log -/

section Spec

variable {W ρ υ : Type} {N : Node W ρ υ} {w w' : World W ρ υ}

/-- From `w` to `w'` the log works through `l` and leaves `rest`. -/
def Works (l : List (Item ρ)) (w : World W ρ υ) (answers : List υ) (rest : List (Item ρ))
    (w' : World W ρ υ) : Prop :=
  ∃ log, w'.log = w.log ++ log ∧ Serves l log answers rest

lemma Works.refl (l : List (Item ρ)) {w w' : World W ρ υ} (h : w'.log = w.log) :
    Works l w [] l w' := ⟨[], by rw [h, List.append_nil], .nil l⟩

lemma Works.trans {l l₁ l₂ : List (Item ρ)} {answers₁ answers₂ : List υ} {w₁ w₂ : World W ρ υ}
    (h₁ : Works l w answers₁ l₁ w₁) (h₂ : Works l₁ w₁ answers₂ l₂ w₂) :
    Works l w (answers₁ ++ answers₂) l₂ w₂ := by
  obtain ⟨log₁, he₁, hs₁⟩ := h₁
  obtain ⟨log₂, he₂, hs₂⟩ := h₂
  exact ⟨log₁ ++ log₂, by rw [he₂, he₁, List.append_assoc], hs₁.trans hs₂⟩

/-- An execution of one request leaves only events of that request. -/
def Tries (exec : Item ρ → World W ρ υ → Except Err υ × World W ρ υ) : Prop :=
  ∀ x l w, match exec x w with
    | (.ok a, w') => Works (x :: l) w [a] l w'
    | (.error _, w') => Works (x :: l) w [] (x :: l) w'

lemma call_ok {exec : ρ → EStateM Err W υ} {x : Item ρ} {a : υ} {st : W}
    (h : exec x.inner w.st = .ok a st) :
    call exec x w = (.ok a, ⟨st, w.log ++ [⟨x.pos, x.inner, .ok a⟩]⟩) := by
  rw [call, h]

lemma call_error {exec : ρ → EStateM Err W υ} {x : Item ρ} {e : Err} {st : W}
    (h : exec x.inner w.st = .error e st) :
    call exec x w = (.error e, ⟨st, w.log ++ [⟨x.pos, x.inner, .error e⟩]⟩) := by
  rw [call, h]

lemma tries_call (exec : ρ → EStateM Err W υ) : Tries (call exec) := by
  intro x l w
  cases h : exec x.inner w.st with
  | ok a st =>
    rw [call_ok h]
    exact ⟨_, rfl, .ok a (.nil l)⟩
  | error e st =>
    rw [call_error h]
    exact ⟨_, rfl, .fail e (.nil _)⟩

lemma tries_applyRequest (N : Node W ρ υ) (pusheeTxn : List Transaction) :
    Tries (N.applyRequest pusheeTxn) := by
  intro x l w
  have hcall := tries_call N.executeCmd x l w
  unfold Node.applyRequest
  cases hc : call N.executeCmd x w with
  | mk res w₁ =>
    rw [hc] at hcall
    cases res with
    | ok a => exact hcall
    | error err =>
      -- what the resolution does is not in the log
      have hkept : ∀ st, Works (x :: l) w [] (x :: l) { w₁ with st } := fun st => hcall
      cases hp : N.preprocessWriteIntentError pusheeTxn err w₁.st with
      | error e st =>
        simp only [hp]
        exact hkept st
      | ok b st =>
        cases b with
        | false =>
          simp only [hp]
          exact hkept st
        | true =>
          simp only [hp]
          have hagain := tries_call N.executeCmd x l { w₁ with st }
          cases hc₂ : call N.executeCmd x { w₁ with st } with
          | mk res w₂ =>
            rw [hc₂] at hagain
            cases res with
            | ok a => exact (hkept st).trans hagain
            | error e => exact (hkept st).trans hagain

/-- The reply to `l`: its responses are answers to the first requests, all that there were unless
`Send` has given up waiting, and without an error they answer all of `l`. -/
def Replies (l : List (Item ρ)) (w : World W ρ υ) (reply : Reply υ) (w' : World W ρ υ) : Prop :=
  ∃ answers rest, Works l w answers rest w' ∧ reply.resp <+: answers ∧
    (reply.err ≠ some .proposeTimeout → reply.resp = answers) ∧ (reply.err = none → rest = [])

lemma Replies.error (l : List (Item ρ)) {w w' : World W ρ υ} (h : w'.log = w.log)
    (e : SendError) : Replies l w ⟨[], some e⟩ w' :=
  ⟨[], l, .refl l h, List.prefix_refl _, fun _ => rfl, fun h => by cases h⟩

/-- The responses of a batch that has been applied are lost when nobody waits for them. -/
lemma Replies.lost {l : List (Item ρ)} {reply : Reply υ} (h : Replies l w reply w') :
    Replies l w ⟨[], some .proposeTimeout⟩ w' := by
  obtain ⟨answers, rest, hw, -⟩ := h
  exact ⟨answers, rest, hw, List.nil_prefix, fun h => absurd rfl h, fun h => by cases h⟩

/-- **`Execute` works through the batch up to the first error.** -/
lemma execute_replies {exec : Item ρ → World W ρ υ → Except Err υ × World W ρ υ}
    (hexec : Tries exec) (l : List (Item ρ)) (w : World W ρ υ) :
    Replies l w (execute exec l w).1 (execute exec l w).2 := by
  suffices h : ∃ rest, Works l w (execute exec l w).1.resp rest (execute exec l w).2 ∧
      ((execute exec l w).1.err = none → rest = []) by
    obtain ⟨rest, hw, hnone⟩ := h
    exact ⟨_, rest, hw, List.prefix_refl _, fun _ => rfl, hnone⟩
  induction l generalizing w with
  | nil => exact ⟨[], .refl [] rfl, fun _ => rfl⟩
  | cons x l ih =>
    have hx := hexec x l w
    cases hrun : exec x w with
    | mk res w₁ =>
      rw [hrun] at hx
      cases res with
      | error e =>
        refine ⟨x :: l, ?_, ?_⟩
        · simpa [execute, hrun] using hx
        · simp [execute, hrun]
      | ok a =>
        obtain ⟨rest, hw, hnone⟩ := ih w₁
        refine ⟨rest, ?_, ?_⟩
        · simpa [execute, hrun] using hx.trans hw
        · simpa [execute, hrun] using hnone

lemma processRaftCommand_replies (N : Node W ρ υ) (breq : BatchRequest ρ) (w : World W ρ υ) :
    match N.processRaftCommand breq w with
    | (some reply, w') => Replies breq.req w reply w'
    | (none, w') => w'.log = w.log := by
  unfold Node.processRaftCommand
  by_cases hread : breq.flags = isReadFlag
  · rw [if_pos hread]
    exact execute_replies (tries_call _) breq.req w
  rw [if_neg hread]
  by_cases hwrite : breq.flags = isWriteFlag
  · rw [if_pos hwrite]
    exact execute_replies (tries_applyRequest N breq.pusheeTxn) breq.req w
  · rw [if_neg hwrite]

lemma replicaSend_replies (N : Node W ρ υ) (breq : BatchRequest ρ) (w : World W ρ υ) :
    Replies breq.req w (N.replicaSend breq w).1 (N.replicaSend breq w).2 := by
  unfold Node.replicaSend
  by_cases hleader : breq.isLeader
  · rw [if_pos hleader]
    exact execute_replies (tries_call _) breq.req w
  rw [if_neg hleader]
  by_cases hraft : breq.isReadOnly || breq.isWrite
  · rw [if_pos hraft]
    cases hpropose : N.propose w.st with
    | mk fate st =>
      have hproc := processRaftCommand_replies N breq { w with st }
      cases hrun : N.processRaftCommand breq { w with st } with
      | mk reply w' =>
        rw [hrun] at hproc
        cases fate with
        | dropped => exact .error breq.req rfl .proposeTimeout
        | late =>
          simp only [hrun]
          cases reply with
          | none => exact .error breq.req hproc .proposeTimeout
          | some reply => exact Replies.lost (w := w) hproc
        | answered =>
          simp only [hrun]
          cases reply with
          | none => exact .error breq.req hproc .proposeTimeout
          | some reply => exact hproc
  · rw [if_neg hraft]
    exact .error breq.req rfl .unknownCommand

/-- The next turn goes on behind the requests that have been answered. -/
lemma Replies.next {l : List (Item ρ)} {reply reply' : Reply υ} {w₁ w₂ : World W ρ υ}
    (h : Replies l w reply w₁) (herr : reply.err ≠ some .proposeTimeout)
    (h' : Replies (l.drop reply.resp.length) w₁ reply' w₂) :
    Replies l w ⟨reply.resp ++ reply'.resp, reply'.err⟩ w₂ := by
  obtain ⟨answers, rest, hw, -, hall, -⟩ := h
  obtain ⟨answers', rest', hw', hpre, hall', hnone⟩ := h'
  obtain rfl : reply.resp = answers := hall herr
  have hrest : rest = l.drop reply.resp.length := by
    obtain ⟨log, -, hs⟩ := hw
    exact hs.rest_eq
  rw [← hrest] at hw'
  refine ⟨_, rest', hw.trans hw', ?_, fun he => ?_, hnone⟩
  · exact (List.prefix_append_right_inj _).mpr hpre
  · rw [hall' he]

/-- **The loop puts the responses of its turns together.** -/
lemma sendLoop_replies {n : ℕ} {breq : BatchRequest ρ} {bresp : List υ} {w : World W ρ υ}
    {reply : Reply υ} {w' : World W ρ υ} (h : N.sendLoop n breq bresp w = some (reply, w')) :
    ∃ out, reply.resp = bresp ++ out ∧ Replies breq.req w ⟨out, reply.err⟩ w' := by
  induction n generalizing breq bresp w with
  | zero => cases h
  | succ n ih =>
    have hturn := replicaSend_replies N breq w
    cases hrun : N.replicaSend breq w with
    | mk reply₁ w₁ =>
      rw [hrun] at hturn
      simp only [Node.sendLoop, hrun] at h
      -- a turn that is the last one
      have hlast : ∀ err, reply₁.err = err → some (⟨bresp ++ reply₁.resp, err⟩, w₁) =
          some (reply, w') → ∃ out, reply.resp = bresp ++ out ∧
            Replies breq.req w ⟨out, reply.err⟩ w' := by
        rintro err rfl heq
        cases heq
        exact ⟨reply₁.resp, rfl, hturn⟩
      split at h
      · next herr => exact hlast _ herr h
      · next wiErr herr =>
        have hwait : reply₁.err ≠ some .proposeTimeout := by simp [herr]
        split at h
        · next e st _ =>
          cases h
          obtain ⟨answers, rest, hw, hpre, hall, -⟩ := hturn
          exact ⟨reply₁.resp, rfl, answers, rest, hw, hpre, fun _ => hall hwait,
            fun h => by cases h⟩
        · next pusheeTxn st _ =>
          obtain ⟨out, hout, hrest⟩ := ih h
          refine ⟨reply₁.resp ++ out, by rw [hout, List.append_assoc], ?_⟩
          exact hturn.next hwait hrest
      · next err _ herr => exact hlast _ herr h

lemma send_replies {n : ℕ} {breq : BatchRequest ρ} {reply : Reply υ}
    (h : N.send n breq w = some (reply, w')) : Replies breq.req w reply w' := by
  unfold Node.send at h
  by_cases hsys : breq.isSystem
  · rw [if_pos hsys] at h
    have hexec := execute_replies (tries_call N.executeRootCmd) breq.req w
    rw [Option.some.inj h] at hexec
    exact hexec
  rw [if_neg hsys] at h
  split at h
  · cases h
    exact .error breq.req rfl _
  · next id isLeader _ =>
    cases isLeader with
    | true =>
      obtain ⟨out, hout, hrep⟩ := sendLoop_replies h
      obtain ⟨resp, err⟩ := reply
      obtain rfl : resp = out := by simpa using hout
      exact hrep
    | false =>
      cases h
      exact .error breq.req rfl _

lemma Node.applyRequest_ok {pusheeTxn : List Transaction} {x : Item ρ} {a : υ} {st : W}
    (h : N.executeCmd x.inner w.st = .ok a st) :
    N.applyRequest pusheeTxn x w = (.ok a, ⟨st, w.log ++ [⟨x.pos, x.inner, .ok a⟩]⟩) := by
  rw [Node.applyRequest, call_ok h]

lemma Node.applyRequest_error (pusheeTxn : List Transaction) {x : Item ρ} {err : Err} {st : W}
    (h : N.executeCmd x.inner w.st = .error err st) :
    N.applyRequest pusheeTxn x w =
      match N.preprocessWriteIntentError pusheeTxn err st with
      | .ok true st =>
        call N.executeCmd x ⟨st, w.log ++ [⟨x.pos, x.inner, .error err⟩]⟩
      | .ok false st => (.error err, ⟨st, w.log ++ [⟨x.pos, x.inner, .error err⟩]⟩)
      | .error e st => (.error e, ⟨st, w.log ++ [⟨x.pos, x.inner, .error err⟩]⟩) := by
  rw [Node.applyRequest, call_error h]

end Spec

/-! ### The replicas of a store -/

section Store

open Hoare

variable [Backend]

/-- `executeCmd` on a snapshot: reads are of the snapshot, the rest does not look at it. -/
def executeCmdOn (id : RangeID) (snapshot : Store) (request : Request) : StoreM Response :=
  match request with
  | .get _ | .getSplitKey _ => fun s =>
    match Ancestor.send id request { s with eng := snapshot.eng } with
    | .ok resp _ => .ok resp s
    | .error e _ => .error e s
  | _ => Ancestor.send id request

/-- The node for a range of a store that leads it, where the records and the intents that are in
the way are of the same range. -/
def storeNode (id : RangeID) (nodeID : NodeID) (latest : Timestamp)
    (executeRootCmd : Request → StoreM Response) : Node Store Request Response where
  executeRootCmd
  getRaftGroupLeader s := if (s.replicas id).isSome then .ok (nodeID, true)
    else .error (.rangeNotFound id)
  propose s := (.answered, s)
  executeCmd := Ancestor.send id
  executeCmdOn := executeCmdOn id
  preprocessWriteIntentError pusheeTxn err := do
    (← getReplica id).preprocessWriteIntentError pusheeTxn err
  processWriteIntentError wiErr := do
    (← getReplica id).onEngine (Ancestor.processWriteIntentError latest wiErr)

variable {r : Replica} {s s' : Store} {request : Request} {id : RangeID}

/-- A request that fails leaves the replicas alone. -/
lemma executeCmd_error_replicas {e : Err} (h : r.executeCmd request s = .error e s') :
    s'.replicas = s.replicas := by
  have hcmd : ∀ {α : Type} (m : M α) (f : α → Response),
      (do let a ← r.onEngine m; return f a : StoreM Response) s = .error e s' →
        s'.replicas = s.replicas := fun m f hrun => by
    obtain ⟨s₁, hs₁, ⟨a, hok⟩ | ⟨e', herr⟩⟩ := Split.onEngine_replicas r m f s
    · rw [hok] at hrun
      cases hrun
    · rw [herr] at hrun
      cases hrun
      exact hs₁
  rw [executeCmd_run] at h
  split_ifs at h
  · cases request with
    | get req => exact hcmd _ .get h
    | put req => exact hcmd _ (fun _ => .put) h
    | beginTransaction req => exact hcmd _ (fun _ => .beginTransaction req.txn) h
    | endTransaction req => exact hcmd _ (fun _ => .endTransaction) h
    | heartbeatTransaction req => exact hcmd _ .heartbeatTransaction h
    | resolveIntent req => exact hcmd _ (fun _ => .resolveIntent) h
    | pushTransaction req => exact hcmd _ .pushTransaction h
    | getSplitKey req => exact hcmd _ .getSplitKey h
    | split req =>
      have hrun := Split.split_run r req s
      cases hm : r.split req s with
      | ok ds s₁ =>
        rw [Replica.dispatch, run_bind_ok hm] at h
        cases h
      | error e' s₁ =>
        rw [Replica.dispatch, run_bind_error hm] at h
        cases h
        rw [hm] at hrun
        split_ifs at hrun <;> cases hrun <;> rfl
    | updateRange req =>
      have hrun := Split.updateRange_run r req s
      cases hm : r.updateRange req s with
      | ok u s₁ =>
        rw [Replica.dispatch, run_bind_ok hm] at h
        cases h
      | error e' s₁ =>
        rw [Replica.dispatch, run_bind_error hm] at h
        cases h
        rw [hm] at hrun
        split_ifs at hrun
        cases hrun
        rfl
  · cases h
    rfl

lemma preprocess_replicas {pusheeTxn : List Transaction} {err : Err} {b : Bool}
    (h : r.preprocessWriteIntentError pusheeTxn err s = .ok b s') : s'.replicas = s.replicas := by
  cases err
  case writeIntent wiErr =>
    unfold Replica.preprocessWriteIntentError at h
    cases hfind : pusheeTxn.find? fun t => wiErr.intent.txn.id = t.id with
    | none =>
      simp only [hfind] at h
      cases h
      rfl
    | some t =>
      simp only [hfind] at h
      cases hm : mvccResolveWriteIntent [⟨wiErr.intent.key, t⟩] ⟨s.eng, s.rangeStats r.rangeID⟩ with
      | ok u st =>
        rw [run_bind_ok (onEngine_ok hm)] at h
        cases h
        rfl
      | error e st =>
        have herr : r.onEngine (mvccResolveWriteIntent [⟨wiErr.intent.key, t⟩]) s =
            .error e (r.keep s st) := by rw [Replica.onEngine, hm]
        rw [run_bind_error herr] at h
        cases h
  all_goals
    cases h
    rfl

lemma send_replica (request : Request) (hr : s.replicas id = some r) :
    Ancestor.send id request s = r.executeCmd request s := run_bind_ok (getReplica_ok hr)

variable (id) (nodeID : NodeID) (latest : Timestamp) (executeRootCmd : Request → StoreM Response)

/-- A request of a batch has the same outcome here as when the batch is applied. -/
lemma applyRequest_storeNode (pusheeTxn : List Transaction) (x : Item Request)
    (w : World Store Request Response) :
    match (do (← getReplica id).applyRequest pusheeTxn x.inner : StoreM Response) w.st with
    | .ok resp s' => ∃ log, (storeNode id nodeID latest executeRootCmd).applyRequest pusheeTxn x w =
        (.ok resp, ⟨s', log⟩)
    | .error e s' => ∃ log, (storeNode id nodeID latest executeRootCmd).applyRequest pusheeTxn x w =
        (.error e, ⟨s', log⟩) := by
  cases hr : w.st.replicas id with
  | none =>
    have hget : getReplica id w.st = .error (.rangeNotFound id) w.st := by rw [getReplica_run, hr]
    have hsend : Ancestor.send id x.inner w.st = .error (.rangeNotFound id) w.st :=
      run_bind_error hget
    have hpre : (storeNode id nodeID latest executeRootCmd).preprocessWriteIntentError pusheeTxn
        (.rangeNotFound id) w.st = .error (.rangeNotFound id) w.st := run_bind_error hget
    rw [run_bind_error hget]
    exact ⟨_, by rw [Node.applyRequest_error pusheeTxn hsend, hpre]⟩
  | some r =>
    have hpre : ∀ err s, s.replicas id = some r →
        (storeNode id nodeID latest executeRootCmd).preprocessWriteIntentError pusheeTxn err s =
          r.preprocessWriteIntentError pusheeTxn err s := fun err s hr =>
      run_bind_ok (getReplica_ok hr)
    rw [run_bind_ok (getReplica_ok hr)]
    cases hexec : r.executeCmd x.inner w.st with
    | ok resp s₁ =>
      rw [applyRequest_ok hexec]
      exact ⟨_, Node.applyRequest_ok ((send_replica x.inner hr).trans hexec)⟩
    | error e s₁ =>
      have hr₁ : s₁.replicas id = some r := by rw [executeCmd_error_replicas hexec, hr]
      have hout : outcome (r.executeCmd x.inner) w.st = .ok (.error e) s₁ := by rw [outcome, hexec]
      have hrun := Node.applyRequest_error (N := storeNode id nodeID latest executeRootCmd)
        pusheeTxn ((send_replica x.inner hr).trans hexec)
      rw [hpre e s₁ hr₁] at hrun
      rw [Replica.applyRequest, run_bind_ok hout]
      cases hp : r.preprocessWriteIntentError pusheeTxn e s₁ with
      | error e' s₂ =>
        simp only [run_bind_error hp]
        exact ⟨_, by rw [hrun, hp]⟩
      | ok b s₂ =>
        have hr₂ : s₂.replicas id = some r := by rw [preprocess_replicas hp, hr₁]
        cases b with
        | false =>
          simp only [run_bind_ok hp]
          exact ⟨_, by rw [hrun, hp]⟩
        | true =>
          have hsend : (storeNode id nodeID latest executeRootCmd).executeCmd x.inner s₂ =
              r.executeCmd x.inner s₂ := send_replica x.inner hr₂
          simp only [run_bind_ok hp, if_true]
          cases hagain : r.executeCmd x.inner s₂ with
          | ok resp s₃ =>
            rw [hp] at hrun
            exact ⟨_, hrun.trans (call_ok (hsend.trans hagain))⟩
          | error e' s₃ =>
            rw [hp] at hrun
            exact ⟨_, hrun.trans (call_error (hsend.trans hagain))⟩

/-- **A batch of writes that `Send` executes is applied as `processRaftCommand` applies it.** -/
theorem execute_storeNode (pusheeTxn : List Transaction) (l : List (Item Request))
    (w : World Store Request Response) :
    match Ancestor.execute id pusheeTxn (l.map (·.inner)) w.st with
    | .ok resps s' => ∃ log,
        execute ((storeNode id nodeID latest executeRootCmd).applyRequest pusheeTxn) l w =
          (⟨resps, none⟩, ⟨s', log⟩)
    | .error e s' => ∃ resps log,
        execute ((storeNode id nodeID latest executeRootCmd).applyRequest pusheeTxn) l w =
          (⟨resps, some (.node e)⟩, ⟨s', log⟩) := by
  induction l generalizing w with
  | nil => exact ⟨w.log, rfl⟩
  | cons x l ih =>
    have hx := applyRequest_storeNode id nodeID latest executeRootCmd pusheeTxn x w
    have hcons : Ancestor.execute id pusheeTxn ((x :: l).map (·.inner)) = do
        let resp ← (do (← getReplica id).applyRequest pusheeTxn x.inner : StoreM Response)
        return resp :: (← Ancestor.execute id pusheeTxn (l.map (·.inner))) := by
      simp only [List.map_cons, Ancestor.execute, bind_assoc]
    rw [hcons]
    cases hrun : (do (← getReplica id).applyRequest pusheeTxn x.inner : StoreM Response) w.st with
    | error e s₁ =>
      rw [hrun] at hx
      obtain ⟨log, hlog⟩ := hx
      rw [run_bind_error hrun]
      exact ⟨[], log, by rw [execute, hlog]⟩
    | ok resp s₁ =>
      rw [hrun] at hx
      obtain ⟨log, hlog⟩ := hx
      have hl := ih ⟨s₁, log⟩
      rw [run_bind_ok hrun]
      cases hrest : Ancestor.execute id pusheeTxn (l.map (·.inner)) s₁ with
      | error e s₂ =>
        rw [hrest] at hl
        obtain ⟨resps, log', hlog'⟩ := hl
        rw [run_bind_error hrest]
        exact ⟨resp :: resps, log', by simp only [execute, hlog, hlog']⟩
      | ok resps s₂ =>
        rw [hrest] at hl
        obtain ⟨log', hlog'⟩ := hl
        rw [run_bind_ok hrest]
        exact ⟨log', by simp only [execute, hlog, hlog']⟩

end Store

/-! ### Every request once, in order -/

section Main

variable {W ρ υ : Type}

/-- The batch a client sends, its requests numbered. -/
def batch (l : List (RequestFlag × ρ)) (pusheeTxn : List Transaction) : BatchRequest ρ :=
  ⟨l.zipIdx.map fun x => ⟨x.1.1, x.1.2, x.2⟩, pusheeTxn⟩

lemma getElem?_batch (l : List (RequestFlag × ρ)) (pusheeTxn : List Transaction) (i : ℕ) :
    (batch l pusheeTxn).req[i]? = (l[i]?).map fun x => ⟨x.1, x.2, i⟩ := by
  simp [batch, Function.comp_def]

lemma length_batch (l : List (RequestFlag × ρ)) (pusheeTxn : List Transaction) :
    (batch l pusheeTxn).req.length = l.length := by simp [batch]

lemma paired_prefix {l : List (Item ρ)} {resp resp' : List υ} (h : resp <+: resp') :
    paired l resp <+: paired l resp' := by
  obtain ⟨t, rfl⟩ := h
  induction l generalizing resp with
  | nil => simp [paired]
  | cons x l ih =>
    cases resp with
    | nil => simp [paired]
    | cons a resp => simpa [paired] using ih

lemma paired_pos {l : List (RequestFlag × ρ)} {pusheeTxn : List Transaction} {resp : List υ}
    {i : ℕ} {y : ℕ × ρ × υ} (h : (paired (batch l pusheeTxn).req resp)[i]? = some y) :
    y.1 = i := by
  rw [paired, List.getElem?_zipWith, getElem?_batch] at h
  cases hx : l[i]? with
  | none => simp [hx] at h
  | some x =>
    cases hr : resp[i]? with
    | none => simp [hx, hr] at h
    | some a =>
      simp only [hx, hr, Option.map_some, Option.some.injEq] at h
      rw [← h]

lemma answer_pos {e : Event ρ υ} {y : ℕ × ρ × υ} (h : e.answer = some y) : e.pos = y.1 := by
  unfold Event.answer at h
  cases hr : e.result with
  | ok a =>
    simp only [hr, Option.some.injEq] at h
    rw [← h]
  | error err => simp [hr] at h

/-- In a log that works through a batch a request is executed in its turn. -/
lemma Serves.pos_eq {l : List (RequestFlag × ρ)} {pusheeTxn : List Transaction}
    {log : List (Event ρ υ)} {answers : List υ} {rest : List (Item ρ)}
    (h : Serves (batch l pusheeTxn).req log answers rest) {pre post : List (Event ρ υ)}
    {e : Event ρ υ} (hlog : log = pre ++ e :: post) :
    e.pos = (succeeded pre).length ∧ (l[e.pos]?).map Prod.snd = some e.inner := by
  obtain ⟨x, hx, hpos, hinner⟩ := h.at_turn hlog
  rw [getElem?_batch] at hx
  obtain ⟨y, hy, rfl⟩ := Option.map_eq_some_iff.mp hx
  exact ⟨hpos, by rw [hpos, hy, hinner]; rfl⟩

/-- What has not succeeded is not passed over. -/
lemma Serves.pos_le {l : List (RequestFlag × ρ)} {pusheeTxn : List Transaction}
    {log : List (Event ρ υ)} {answers : List υ} {rest : List (Item ρ)}
    (h : Serves (batch l pusheeTxn).req log answers rest) {i : ℕ}
    (hfail : ∀ e ∈ log, e.pos = i → e.answer = none) {e : Event ρ υ} (he : e ∈ log) :
    e.pos ≤ i := by
  obtain ⟨pre, post, hlog⟩ := List.append_of_mem he
  by_contra hlt
  -- otherwise the `i`th success is before the event, and it is one of request `i`
  have hi : i < (succeeded pre).length := by
    have := (h.pos_eq hlog).1
    omega
  have hget : (succeeded log)[i]? = some (succeeded pre)[i] := by
    rw [hlog, succeeded, List.filterMap_append]
    exact (List.getElem?_append_left hi).trans (List.getElem?_eq_getElem hi)
  obtain ⟨e', he', hans⟩ := List.mem_filterMap.mp (List.getElem_mem hi)
  rw [h.succeeded_eq] at hget
  have hnone := hfail e' (hlog ▸ List.mem_append_left _ he')
    ((answer_pos hans).trans (paired_pos hget))
  rw [hnone] at hans
  cases hans

/-- **A batch is answered request by request, in order.** Whatever conflicts come up and however
often it is sent again: without an error every request has a response, and the successful
executions are one of each request, in the order of the batch, with these responses. With an
error the responses are those of the first requests. A request is executed when all before it
have succeeded, so none is after one that did not. -/
theorem send_in_order (N : Node W ρ υ) {n : ℕ} {l : List (RequestFlag × ρ)}
    {pusheeTxn : List Transaction} {st : W} {reply : Reply υ} {w : World W ρ υ}
    (h : N.send n (batch l pusheeTxn) ⟨st, []⟩ = some (reply, w)) :
    (reply.err = none → reply.resp.length = l.length ∧
      succeeded w.log = paired (batch l pusheeTxn).req reply.resp) ∧
    (reply.err ≠ none → reply.resp.length ≤ l.length ∧
      paired (batch l pusheeTxn).req reply.resp <+: succeeded w.log) ∧
    (∀ pre e post, w.log = pre ++ e :: post →
      e.pos = (succeeded pre).length ∧ (l[e.pos]?).map Prod.snd = some e.inner) ∧
    ∀ i, (∀ e ∈ w.log, e.pos = i → e.answer = none) → ∀ e ∈ w.log, e.pos ≤ i := by
  obtain ⟨answers, rest, ⟨log, hlog, hs⟩, hpre, hall, hnone⟩ := send_replies h
  obtain rfl : w.log = log := hlog
  have hlen := hs.length_le
  rw [length_batch] at hlen
  refine ⟨fun herr => ?_, fun _ => ⟨hpre.length_le.trans hlen, ?_⟩,
    fun pre e post hsplit => hs.pos_eq hsplit, fun i hfail e he => hs.pos_le hfail he⟩
  · have hrest := hs.rest_eq
    rw [hnone herr] at hrest
    have hge := List.drop_eq_nil_iff.mp hrest.symm
    rw [length_batch] at hge
    rw [hall (by simp [herr])]
    exact ⟨le_antisymm hlen hge, hs.succeeded_eq⟩
  · rw [hs.succeeded_eq]
    exact paired_prefix hpre

/-- Three puts, the second on a key that holds the intent of another transaction. -/
def threePuts : List (RequestFlag × Request) :=
  [[0x62], [0x61], [0x63]].map fun k => (isWriteFlag, .put
    { key := 0x02 :: k, timestamp := ⟨5, 0⟩, rangeID := 4,
      txn := { id := [0x01, 0x01], timestamp := ⟨5, 0⟩ }, value := { bytes := [7] } })

/-- The key with the intent has an older version. -/
def covered : Store :=
  { Store.empty.add rangeFour with
    eng := blocked.eng.put (newMVCCTimeKey [0x02, 0x61] ⟨1, 0⟩)
      (.value { value := some { bytes := [0x60] } }) }

attribute [local instance] Slices.twoItems Backend.badger

/-- The batch is cut behind the first put and sent again when the intent is gone. -/
theorem send_in_order_conflict :
    ∃ reply w, (storeNode 4 1 ⟨6, 0⟩ fun _ => throw .invalidRange).send 2 (batch threePuts [])
        ⟨covered, []⟩ = some (reply, w) ∧
      reply = ⟨[.put, .put, .put], none⟩ ∧ w.log.map (·.pos) = [0, 1, 1, 2] ∧
      succeeded w.log = paired (batch threePuts []).req [.put, .put, .put] := by
  have hrun : ((storeNode 4 1 ⟨6, 0⟩ fun _ => throw .invalidRange).send 2 (batch threePuts [])
      ⟨covered, []⟩).map
      (fun x => (x.1, x.2.log.map (·.pos))) =
        some (⟨[.put, .put, .put], none⟩, [0, 1, 1, 2]) := by decide +kernel
  obtain ⟨⟨reply, w⟩, hsend, heq⟩ := Option.map_eq_some_iff.mp hrun
  obtain ⟨rfl, hpos⟩ := Prod.mk.inj heq
  exact ⟨_, w, hsend, rfl, hpos, ((send_in_order _ hsend).1 rfl).2⟩

end Main

end Ancestor.BatchSend
