import Line64.MessageRaces
import Line64.SpscModel

/-!
# The SPSC queue with its memory orders

`try_push` and `try_pop` of `SPSCQueue` on a memory with release and acquire
views. The own counter is loaded relaxed, the other one with acquire, and a
counter is stored with release. Slots are ordinary memory, and their accesses
are recorded. Every atomic access takes the timestamp it reads or writes from
the schedule, so a load may return an outdated counter.
-/

namespace Line64.SpscMemoryModel

open Function Result FixedMessageAccess Transition BoundedFifo ReleaseAcquire MessageRaces
open SpscModel (Ring Producer Consumer PushPc PopPc subWord afterAssign)

/-- The two threads. -/
inductive Role
  | producer
  | consumer
  deriving DecidableEq, Repr

/-- The two atomic counters. -/
inductive Counter
  | head
  | tail
  deriving DecidableEq, Repr

/-- Memory, views, local variables and the log of completed calls. -/
structure State (N : ℕ) where
  /-- Contents of the slots; only indices below the capacity are used. -/
  slots : ℕ → FixedMessage N
  /-- Recorded accesses of the slots. -/
  footprints : Footprints Role
  /-- Stores to `head_` and `tail_`. -/
  history : History Role Counter ℕ
  /-- Views of the two threads. -/
  views : Role → Local Role Counter
  /-- The producer thread. -/
  producer : Producer
  /-- The consumer thread. -/
  consumer : Consumer
  /-- Completed pushes and pops, in the order of their last accesses. -/
  log : List Event

/-- A scheduled step; `ts` is the timestamp of an atomic access. -/
inductive Action
  | callPush (payload : List Byte)
  | push (ts : ℕ)
  | callPop (destination : List Byte)
  | pop (ts : ℕ)

/-- The constructed queue, handed to both threads. -/
def init (N : ℕ) : State N where
  slots := fun _ => .initial N
  footprints := fun _ _ => .initial Role
  history := .initial Role fun _ => 0
  views := fun _ => .initial Role Counter
  producer := .idle
  consumer := .idle
  log := []

variable {N : ℕ}

/-- The views of one thread. -/
def State.setView (s : State N) (r : Role) (l : Local Role Counter) : State N :=
  {s with views := update s.views r l}

/-- The stores and the views of one thread. -/
def State.setMemory (s : State N) (r : Role) (history : History Role Counter ℕ)
    (l : Local Role Counter) : State N :=
  {s with history := history, views := update s.views r l}

/-- The stores behind an atomic store. -/
@[simp]
theorem State.setMemory_history (s : State N) (r : Role) (history : History Role Counter ℕ)
    (l : Local Role Counter) : (s.setMemory r history l).history=history := rfl

/-- A thread accesses a member of a slot. -/
def State.touch (s : State N) (r : Role) (index : ℕ) (access : Field × Access) : State N :=
  let behind := (s.views r).tick r
  {s with
    footprints := s.footprints.record index access r (behind.current.clock r)
    views := update s.views r behind}

/-- The producer returns. -/
def State.returnPush (s : State N) (payload : List Byte) (result : WriteResult) : State N :=
  {s with producer := .idle, log := s.log++[.push payload result]}

/-- The consumer returns. -/
def State.returnPop (s : State N) (original destination : List Byte) (result : ReadResult) :
    State N :=
  {s with consumer := .idle, log := s.log++[.pop original destination result]}

/-- Entry of `try_push`: oversized payloads return before any access. -/
def enterPush (s : State N) (payload : List Byte) : State N :=
  if N<payload.length then s.returnPush payload ⟨.messageTooLarge,0⟩
  else {s with producer := .running payload .loadHead}

/-- The test for room behind the load of the other counter. -/
def testRoom (q : Ring) (s : State N) (payload : List Byte) (head tail : ℕ) : State N :=
  if subWord head tail=q.capacity then s.returnPush payload ⟨.full,0⟩
  else {s with producer := .running payload (afterAssign head (assignEnter N payload (head+1)))}

/-- One access of `try_push`. -/
def stepPush (q : Ring) (s : State N) (payload : List Byte) (ts : ℕ) : PushPc → Option (State N)
  | .loadHead =>
    (load s.history (s.views .producer) .relaxed .head ts).map fun loaded =>
      {s.setView .producer loaded.2 with producer := .running payload (.loadTail loaded.1)}
  | .loadTail head =>
    (load s.history (s.views .producer) .acquire .tail ts).map fun loaded =>
      testRoom q (s.setView .producer loaded.2) payload head loaded.1
  | .assign head pc =>
    let access := assignStep payload (head+1) (s.slots (head%q.capacity)) pc
    some {s.touch .producer (head%q.capacity) (assignAccess pc) with
      slots := update s.slots (head%q.capacity) access.1
      producer := .running payload (afterAssign head access.2)}
  | .storeHead head result =>
    (store s.history (s.views .producer) .release .head ts (head+1)).map fun written =>
      (s.setMemory .producer written.1 written.2).returnPush payload result

/-- The test for a message behind the load of the other counter. -/
def testMessage (s : State N) (original destination : List Byte) (tail head : ℕ) : State N :=
  if tail=head then s.returnPop original destination ⟨.empty,0,0⟩
  else {s with consumer := .running original destination (.copy tail .loadSize)}

/-- Continue after an access of `copy_to`; only a success stores the tail. -/
def afterCopy (s : State N) (original destination : List Byte) (tail : ℕ) :
    Progress CopyPc ReadResult → State N
  | .running pc => {s with consumer := .running original destination (.copy tail pc)}
  | .finished result =>
    if ok result.status then
      {s with consumer := .running original destination (.storeTail tail result)}
    else s.returnPop original destination result

/-- One access of `try_pop`. -/
def stepPop (q : Ring) (s : State N) (original destination : List Byte) (ts : ℕ) :
    PopPc → Option (State N)
  | .loadTail =>
    (load s.history (s.views .consumer) .relaxed .tail ts).map fun loaded =>
      {s.setView .consumer loaded.2 with
        consumer := .running original destination (.loadHead loaded.1)}
  | .loadHead tail =>
    (load s.history (s.views .consumer) .acquire .head ts).map fun loaded =>
      testMessage (s.setView .consumer loaded.2) original destination tail loaded.1
  | .copy tail pc =>
    let access := copyStep (s.slots (tail%q.capacity)) destination pc
    some (afterCopy (s.touch .consumer (tail%q.capacity) (copyAccess pc)) original access.1 tail
      access.2)
  | .storeTail tail result =>
    (store s.history (s.views .consumer) .release .tail ts (tail+1)).map fun written =>
      (s.setMemory .consumer written.1 written.2).returnPop original destination result

/-- One scheduled step of the whole system. -/
def step (q : Ring) (s : State N) : Action → Option (State N)
  | .callPush payload =>
    match s.producer with
    | .idle => some (enterPush s payload)
    | _ => none
  | .push ts =>
    match s.producer with
    | .running payload pc => stepPush q s payload ts pc
    | _ => none
  | .callPop destination =>
    match s.consumer with
    | .idle => some {s with consumer := .running destination destination .loadTail}
    | _ => none
  | .pop ts =>
    match s.consumer with
    | .running original destination pc => stepPop q s original destination ts pc
    | _ => none

/-- The queue under every interleaving and every choice of timestamps. -/
def system (q : Ring) (N : ℕ) : System (State N) Action where
  init := init N
  step := step q

/-- The next access of a thread is a plain one that races. -/
def Racy (q : Ring) (s : State N) : Role → Prop
  | .producer =>
    match s.producer with
    | .running _ (.assign head pc) =>
      Races (s.views .producer).current (s.footprints (head%q.capacity) (assignAccess pc).1)
        (assignAccess pc).2
    | _ => False
  | .consumer =>
    match s.consumer with
    | .running _ _ (.copy tail pc) =>
      Races (s.views .consumer).current (s.footprints (tail%q.capacity) (copyAccess pc).1)
        (copyAccess pc).2
    | _ => False

end Line64.SpscMemoryModel
