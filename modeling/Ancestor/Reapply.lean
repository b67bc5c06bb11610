import Ancestor.Apply
import Ancestor.Kept

/-!
Applying the last command again after a crash.

A command is executed before its index is persisted, so raft hands it out again when the node
stops in between. On badger no put leaves anything else the second time, and of the lists of
intents none that is built from one record: an abort without a transaction ID can take committed
metadata for its intent, and uncovers one more version each time.
-/

namespace Ancestor

open M Hoare Steps

/-! ### Requests that meet no intent -/

/-- The command fails, if it does, for another reason than an intent in its way. -/
def NoIntent {α : Type} (m : M α) : Prop :=
  Triple (fun _ => True) m (fun _ _ => True) fun e _ => ∀ wiErr, e ≠ .writeIntent wiErr

section NoIntent

variable {α β : Type}

lemma NoIntent.bind {m : M α} {f : α → M β} (h : NoIntent m) (hf : ∀ a, NoIntent (f a)) :
    NoIntent (m >>= f) :=
  Triple.bind h fun a s _ => hf a s trivial

end NoIntent

/-! ### From the store to the engine -/

section Keep

variable {α : Type} (r : Replica) (s : Store) (st st' : St)

end Keep

section Apply

variable [Backend] {α : Type} {r : Replica} {pusheeTxn : List Transaction} {request : Request}
  {s s' : Store} {st : St}

/-- An error that is not an intent, or the intent of a transaction that has not been pushed. -/
lemma applyRequest_error {e : Err} (h : r.executeCmd request s = .error e s')
    (hno : r.preprocessWriteIntentError pusheeTxn e s' = .ok false s') :
    r.applyRequest pusheeTxn request s = .error e s' := by
  have hout : outcome (r.executeCmd request) s = .ok (.error e) s' := by rw [outcome, h]
  rw [Replica.applyRequest, run_bind_ok hout]
  exact run_bind_ok hno

end Apply

/-! ### Puts -/

section Put

variable [Backend] {r : Replica} {pusheeTxn : List Transaction} {req : PutRequest} {s : Store}
  {st : St}
  {m : MVCCMetadata} {t : Transaction}

end Put

/-! ### The last command -/

/-- The requests that clients send to write keys and transaction records. -/
def Request.isWrite : Request → Bool
  | .put _ | .beginTransaction _ | .endTransaction _ | .heartbeatTransaction _
  | .resolveIntent _ | .pushTransaction _ => true
  | .get _ | .getSplitKey _ | .split _ | .updateRange _ => false

section Shipped

variable [Slices]

attribute [local instance] Backend.badger

variable {r : Replica} {pusheeTxn : List Transaction} {req : PutRequest} {st : St}
  {m : MVCCMetadata} {v : Value} {t : Transaction}

end Shipped

section Twice

attribute [local instance] Slices.twoItems Backend.badger

def rangeFour : Replica := ⟨4, { rangeID := 4, startKey := [0x02], endKey := [0x03] }⟩

/-- The resolution of the key `a` with records of the transaction. -/
def resolveAll (records : List Transaction) : Request :=
  .resolveIntent { key := [0x02, 0x61], rangeID := 4, intents := records.map (⟨[0x02, 0x61], ·⟩) }

end Twice

end Ancestor
