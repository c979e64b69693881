import Line64.Mealy
import Line64.RetainedHistory

/-!
# The mutex-protected multicast queue

Every operation of `SPMCMulticastQueue` is one critical section, so a
concurrent history is a list of operations in the order in which they held
the mutex. A consumer is its queue pointer and its cursor; the pointer is
null in a handle that has been moved from.
-/

namespace Line64.MulticastModel

open Function Result FixedMessageAccess RetainedHistory Mealy

/-- A capacity accepted by the constructor. -/
abbrev Ring := Bounded "SPMCMulticastQueue"

/-- Members guarded by the mutex. -/
structure Queue (N : ℕ) where
  /-- Message slots; only indices below the capacity are used. -/
  slots : ℕ → FixedMessage N
  /-- Sequence of the last publication. -/
  publishedSequence : ℕ

/-- A consumer handle. -/
structure Consumer where
  /-- Whether the handle still points to its queue. -/
  attached : Bool
  /-- Cursor of the consumer. -/
  nextSequence : ℕ
  deriving DecidableEq, Repr

/-- The constructed queue. -/
def Queue.initial (N : ℕ) : Queue N := ⟨fun _ => .initial N,0⟩

variable {N : ℕ}

/-- Registration starts at the next future publication. -/
def registerConsumer (s : Queue N) : Consumer := ⟨true,s.publishedSequence+1⟩

/-- Publication into the slot of the next sequence. -/
def tryPublish (q : Ring) (s : Queue N) (payload : List Byte) : Queue N × WriteResult :=
  if N<payload.length then (s,⟨.messageTooLarge,0⟩)
  else
    let sequence := s.publishedSequence+1
    let index := (sequence-1)%q.capacity
    let written := assign payload sequence (s.slots index)
    (⟨update s.slots index written.1,sequence⟩,written.2)

/-- The private `try_read`, run with the mutex held. -/
def tryRead (q : Ring) (s : Queue N) (nextSequence : ℕ) (destination : List Byte) : Answer :=
  if s.publishedSequence<nextSequence then
    ⟨nextSequence,destination,⟨.empty,0,nextSequence⟩⟩
  else
    let oldest := oldestRetained q.capacity s.publishedSequence
    if nextSequence<oldest then ⟨oldest,destination,⟨.consumerLagged,0,oldest⟩⟩
    else
      let slot := s.slots ((nextSequence-1)%q.capacity)
      if slot.sequence≠nextSequence then ⟨oldest,destination,⟨.overwritten,0,oldest⟩⟩
      else
        let copied := copyTo slot destination
        ⟨if ok copied.2.status then nextSequence+1 else nextSequence,copied.1,copied.2⟩

/-- A read through a handle. -/
def Consumer.tryRead (q : Ring) (s : Queue N) (consumer : Consumer) (destination : List Byte) :
    Answer :=
  if consumer.attached then MulticastModel.tryRead q s consumer.nextSequence destination
  else ⟨consumer.nextSequence,destination,⟨.invalidConsumer,0,consumer.nextSequence⟩⟩

/-- A handle hands over its pointer and its cursor: the handle that takes
them, and what is left of the other one. -/
def Consumer.transfer (other : Consumer) : Consumer × Consumer :=
  (⟨other.attached,other.nextSequence⟩,⟨false,other.nextSequence⟩)

/-- The move constructor of a handle. -/
def Consumer.moveConstruct (other : Consumer) : Consumer × Consumer := other.transfer

/-- The move assignment of a handle; `same` tells that both are one object. -/
def Consumer.moveAssign (same : Bool) (target other : Consumer) : Consumer × Consumer :=
  if same then (target,other) else other.transfer

/-- The queue and all consumers that have been registered. -/
structure State (κ : Type) (N : ℕ) where
  /-- Shared members. -/
  queue : Queue N
  /-- Handles by name. -/
  consumers : κ → Option Consumer

/-- Operations, in the order of their critical sections. -/
inductive Action (κ : Type)
  | publish (payload : List Byte)
  | register (c : κ)
  | read (c : κ) (destination : List Byte)

/-- What an operation returns to its caller. -/
inductive Output
  | wrote (result : WriteResult)
  | registered (cursor : ℕ)
  | answered (answer : Answer)
  /-- There is no such handle to call. -/
  | absent
  deriving DecidableEq, Repr

variable {κ : Type} [DecidableEq κ]

/-- One operation. -/
def perform (q : Ring) (s : State κ N) : Action κ → State κ N × Output
  | .publish payload =>
    let written := tryPublish q s.queue payload
    ({s with queue := written.1},.wrote written.2)
  | .register c =>
    let consumer := registerConsumer s.queue
    ({s with consumers := update s.consumers c (some consumer)},.registered consumer.nextSequence)
  | .read c destination =>
    match s.consumers c with
    | none => (s,.absent)
    | some consumer =>
      let answer := consumer.tryRead q s.queue destination
      ({s with consumers := update s.consumers c (some ⟨consumer.attached,answer.cursor⟩)},
        .answered answer)

/-- The queue under every order of its critical sections. -/
def machine (q : Ring) (κ : Type) [DecidableEq κ] (N : ℕ) :
    Machine (State κ N) (Action κ) Output where
  init := ⟨.initial N,fun _ => none⟩
  perform := perform q

end Line64.MulticastModel
