import Mathlib.Data.Nat.Notation

/-!
# Status codes, operation results and capacity checks

The result records of the fixed-payload queues and the constructor check
shared by the queues that only refuse capacity zero. Counters are natural
numbers here; a module that depends on a 64-bit width states it itself.
-/

namespace Line64.Result

/-- One payload byte. -/
abbrev Byte := UInt8

/-- Every status code of the library, in declaration order. -/
inductive QueueStatus
  | success
  | empty
  | full
  | closed
  | messageTooLarge
  | invalidCapacity
  | invalidConsumer
  | consumerLagged
  | overwritten
  | wouldBlock
  deriving DecidableEq, Repr

/-- Result of a push or a publication. -/
structure WriteResult where
  /-- Outcome of the call. -/
  status : QueueStatus
  /-- Logical sequence of the accepted message, zero where none was assigned. -/
  sequence : ℕ
  deriving DecidableEq, Repr

/-- Result of a pop or a read. -/
structure ReadResult where
  /-- Outcome of the call. -/
  status : QueueStatus
  /-- Bytes copied into the destination. -/
  bytesRead : ℕ
  /-- Logical sequence the result is about, zero where there is none. -/
  sequence : ℕ
  deriving DecidableEq, Repr

/-- The success test used by callers and by the queues themselves. -/
def ok (status : QueueStatus) : Bool := status=.success

/-- Only the success code passes the test. -/
@[simp] theorem ok_iff (status : QueueStatus) : ok status=true ↔ status=.success := by
  simp only [ok,decide_eq_true_eq]

/-- Constructor check of a queue that accepts every positive capacity. -/
def validatePositive (owner : String) (capacity : ℕ) : Except String ℕ :=
  if capacity=0 then .error (owner++" capacity must be greater than zero") else .ok capacity

/-- A capacity that passed the check of the named queue. -/
structure Bounded (owner : String) where
  /-- Number of slots. -/
  capacity : ℕ
  /-- The constructor did not throw. -/
  accepted : validatePositive owner capacity=.ok capacity

/-- An accepted capacity is positive. -/
theorem Bounded.pos {owner : String} (q : Bounded owner) : 0<q.capacity := by
  have h := q.accepted
  unfold validatePositive at h
  split at h
  · cases h
  · omega

/-- Every positive capacity is accepted. -/
def Bounded.ofSucc (owner : String) (n : ℕ) : Bounded owner := ⟨n+1,rfl⟩

/-- The same capacity, given to another queue. -/
def Bounded.withOwner {owner : String} (q : Bounded owner) (other : String) : Bounded other :=
  ⟨q.capacity,if_neg (by have := q.pos; omega)⟩

end Line64.Result
