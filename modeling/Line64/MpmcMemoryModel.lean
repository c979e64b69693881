import Line64.MessageRaces
import Line64.MpmcModel

/-!
# The MPMC queue with its memory orders

`try_push`, `try_pop` and `empty` of `MPMCQueue` on a memory with release and
acquire views. Positions are loaded and exchanged relaxed, a cell sequence is
loaded with acquire and stored with release, and the message of a cell is
ordinary memory whose accesses are recorded. The memory model is RC11, in
which the harnesses of the repository are checked as well; load buffering does
not occur in it. Every atomic access takes its timestamp from the schedule, so
positions and sequences may be outdated when they are loaded.

A call belongs to a thread and uses the views of that thread. The calls of a
thread follow one another, which is not demanded here: nothing below depends
on it.
-/

namespace Line64.MpmcMemoryModel

open Function Result FixedMessageAccess Transition ReleaseAcquire MessageRaces
open MpmcModel (Ring PushPc PushCall PopPc PopCall EmptyCall afterAssign afterCopy enterPush)

/-- The atomic members of a queue. -/
inductive Place
  /-- The counter `enqueue_pos_`. -/
  | enqueuePos
  /-- The counter `dequeue_pos_`. -/
  | dequeuePos
  /-- The sequence of a cell. -/
  | sequence (index : ℕ)
  deriving DecidableEq, Repr

/-- Values stored by the constructor. -/
def Place.initial : Place → ℕ
  | .enqueuePos => 0
  | .dequeuePos => 0
  | .sequence index => index

/-- Memory, the views of the threads and the local variables of all calls. -/
structure State (ι θ : Type) (N : ℕ) where
  /-- Messages of the cells; only indices below the capacity are used. -/
  messages : ℕ → FixedMessage N
  /-- Recorded accesses of the messages. -/
  footprints : Footprints θ
  /-- Stores to the atomic members. -/
  history : History θ Place ℕ
  /-- Views of the threads. -/
  views : θ → Local θ Place
  /-- Push calls by name. -/
  push : ι → PushCall
  /-- Pop calls by name. -/
  pop : ι → PopCall
  /-- Calls of `empty` by name. -/
  probe : ι → EmptyCall

/-- A scheduled step; `ts` is the timestamp of an atomic access. The flag of
a running call requests a spurious failure of its compare-exchange. -/
inductive Action (ι : Type)
  | callPush (i : ι) (payload : List Byte)
  | push (i : ι) (ts : ℕ) (spurious : Bool)
  | callPop (i : ι) (destination : List Byte)
  | pop (i : ι) (ts : ℕ) (spurious : Bool)
  | callEmpty (i : ι)
  | empty (i : ι) (ts : ℕ)

/-- The constructed queue, handed to all threads. -/
def init (ι θ : Type) (N : ℕ) : State ι θ N where
  messages := fun _ => .initial N
  footprints := fun _ _ => .initial θ
  history := .initial θ Place.initial
  views := fun _ => .initial θ Place
  push := fun _ => .idle
  pop := fun _ => .idle
  probe := fun _ => .idle

/-- Where a push continues behind its load of a cell sequence. -/
def testFree (payload : List Byte) (position sequence : ℕ) : PushCall :=
  if sequence=position then .running payload (.compareExchange position)
  else if sequence<position then .returned payload none ⟨.full,0⟩
  else .running payload .loadPosition

/-- Where a push continues behind its compare-exchange. -/
def afterPushExchange (N : ℕ) (payload : List Byte) (position : ℕ) : Exchange ℕ → PushCall
  | .stored => .running payload (afterAssign position (assignEnter N payload (position+1)))
  | .failed found => .running payload (.loadSequence found)

/-- Where a pop continues behind its load of a cell sequence. -/
def testReady (original destination : List Byte) (position sequence : ℕ) : PopCall :=
  if sequence=position+1 then .running original destination (.compareExchange position)
  else if sequence<position+1 then .returned original destination none ⟨.empty,0,0⟩
  else .running original destination .loadPosition

/-- Where a pop continues behind its compare-exchange. -/
def afterPopExchange (original destination : List Byte) (position : ℕ) : Exchange ℕ → PopCall
  | .stored => .running original destination (.copy position .loadSize)
  | .failed found => .running original destination (.loadSequence found)

variable {ι θ : Type} [DecidableEq θ] {N : ℕ}

/-- The stores and the views of one thread. -/
def State.setMemory (s : State ι θ N) (t : θ) (history : History θ Place ℕ)
    (l : Local θ Place) : State ι θ N :=
  {s with history := history, views := update s.views t l}

/-- The views behind an atomic access. -/
@[simp]
theorem State.setMemory_views (s : State ι θ N) (t : θ) (history : History θ Place ℕ)
    (l : Local θ Place) : (s.setMemory t history l).views=update s.views t l := rfl

/-- A thread accesses a member of a message. -/
def State.touch (s : State ι θ N) (t : θ) (index : ℕ) (access : Field × Access) : State ι θ N :=
  let behind := (s.views t).tick t
  {s with
    footprints := s.footprints.record index access t (behind.current.clock t)
    views := update s.views t behind}

variable [DecidableEq ι]

/-- Replace the local variables of one push call. -/
def State.setPush (s : State ι θ N) (i : ι) (call : PushCall) : State ι θ N :=
  {s with push := update s.push i call}

/-- Replace the local variables of one pop call. -/
def State.setPop (s : State ι θ N) (i : ι) (call : PopCall) : State ι θ N :=
  {s with pop := update s.pop i call}

/-- Replace the local variables of one call of `empty`. -/
def State.setProbe (s : State ι θ N) (i : ι) (call : EmptyCall) : State ι θ N :=
  {s with probe := update s.probe i call}

/-- One access of `try_push`. -/
def stepPush (q : Ring) (s : State ι θ N) (t : θ) (i : ι) (payload : List Byte) (ts : ℕ)
    (spurious : Bool) : PushPc → Option (State ι θ N)
  | .loadPosition =>
    (load s.history (s.views t) .relaxed .enqueuePos ts).map fun loaded =>
      (s.setMemory t s.history loaded.2).setPush i (.running payload (.loadSequence loaded.1))
  | .loadSequence position =>
    (load s.history (s.views t) .acquire (.sequence (q.index position)) ts).map fun loaded =>
      (s.setMemory t s.history loaded.2).setPush i (testFree payload position loaded.1)
  | .compareExchange position =>
    (compareExchange s.history (s.views t) .enqueuePos ts position (position+1) spurious).map
      fun done => (s.setMemory t done.2.1 done.2.2).setPush i
        (afterPushExchange N payload position done.1)
  | .assign position pc =>
    let access := assignStep payload (position+1) (s.messages (q.index position)) pc
    some ({s.touch t (q.index position) (assignAccess pc) with
      messages := update s.messages (q.index position) access.1}.setPush i
        (.running payload (afterAssign position access.2)))
  | .publish position result =>
    (store s.history (s.views t) .release (.sequence (q.index position)) ts (position+1)).map
      fun written => (s.setMemory t written.1 written.2).setPush i
        (.returned payload (some position) result)

/-- One access of `try_pop`. -/
def stepPop (q : Ring) (s : State ι θ N) (t : θ) (i : ι) (original destination : List Byte)
    (ts : ℕ) (spurious : Bool) : PopPc → Option (State ι θ N)
  | .loadPosition =>
    (load s.history (s.views t) .relaxed .dequeuePos ts).map fun loaded =>
      (s.setMemory t s.history loaded.2).setPop i
        (.running original destination (.loadSequence loaded.1))
  | .loadSequence position =>
    (load s.history (s.views t) .acquire (.sequence (q.index position)) ts).map fun loaded =>
      (s.setMemory t s.history loaded.2).setPop i
        (testReady original destination position loaded.1)
  | .compareExchange position =>
    (compareExchange s.history (s.views t) .dequeuePos ts position (position+1) spurious).map
      fun done => (s.setMemory t done.2.1 done.2.2).setPop i
        (afterPopExchange original destination position done.1)
  | .copy position pc =>
    let access := copyStep (s.messages (q.index position)) destination pc
    some ((s.touch t (q.index position) (copyAccess pc)).setPop i
      (.running original access.1 (afterCopy position access.2)))
  | .release position result =>
    (store s.history (s.views t) .release (.sequence (q.index position)) ts
        (position+q.capacity)).map
      fun written => (s.setMemory t written.1 written.2).setPop i
        (.returned original destination (some position) result)

/-- One access of `empty`. -/
def stepEmpty (q : Ring) (s : State ι θ N) (t : θ) (i : ι) (ts : ℕ) :
    EmptyCall → Option (State ι θ N)
  | .loadPosition =>
    (load s.history (s.views t) .relaxed .dequeuePos ts).map fun loaded =>
      (s.setMemory t s.history loaded.2).setProbe i (.loadSequence loaded.1)
  | .loadSequence position =>
    (load s.history (s.views t) .acquire (.sequence (q.index position)) ts).map fun loaded =>
      (s.setMemory t s.history loaded.2).setProbe i
        (.returned position (decide (loaded.1<position+1)))
  | _ => none

/-- One scheduled step of the whole system. -/
def step (q : Ring) (thread : ι → θ) (s : State ι θ N) : Action ι → Option (State ι θ N)
  | .callPush i payload =>
    match s.push i with
    | .idle => some (s.setPush i (enterPush N payload))
    | _ => none
  | .push i ts spurious =>
    match s.push i with
    | .running payload pc => stepPush q s (thread i) i payload ts spurious pc
    | _ => none
  | .callPop i destination =>
    match s.pop i with
    | .idle => some (s.setPop i (.running destination destination .loadPosition))
    | _ => none
  | .pop i ts spurious =>
    match s.pop i with
    | .running original destination pc =>
      stepPop q s (thread i) i original destination ts spurious pc
    | _ => none
  | .callEmpty i =>
    match s.probe i with
    | .idle => some (s.setProbe i .loadPosition)
    | _ => none
  | .empty i ts => stepEmpty q s (thread i) i ts (s.probe i)

/-- The queue under every interleaving and every choice of timestamps. -/
def system (q : Ring) (thread : ι → θ) (N : ℕ) : System (State ι θ N) (Action ι) where
  init := init ι θ N
  step := step q thread

/-- The next access of a push is a plain one that races. -/
def PushRacy (q : Ring) (thread : ι → θ) (s : State ι θ N) (i : ι) : Prop :=
  match s.push i with
  | .running _ (.assign position pc) =>
    Races (s.views (thread i)).current (s.footprints (q.index position) (assignAccess pc).1)
      (assignAccess pc).2
  | _ => False

/-- The next access of a pop is a plain one that races. -/
def PopRacy (q : Ring) (thread : ι → θ) (s : State ι θ N) (i : ι) : Prop :=
  match s.pop i with
  | .running _ _ (.copy position pc) =>
    Races (s.views (thread i)).current (s.footprints (q.index position) (copyAccess pc).1)
      (copyAccess pc).2
  | _ => False

end Line64.MpmcMemoryModel
