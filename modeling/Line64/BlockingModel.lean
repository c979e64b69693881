import Line64.Result
import Line64.Transition
import Mathlib.Data.Fintype.Defs
import Mathlib.Logic.Function.Basic

/-!
# The blocking queue under its mutex and condition variables

`push`, `try_push`, `pop`, `try_pop` and `close` of `BlockingQueue`, called
by any number of threads. Locking, unlocking and every notification are
steps of their own. What runs between them under the mutex is one step: the
evaluation of a wait predicate together with the body it admits, or the
release of the mutex that begins to block; `BlockingStatements` justifies
this from the interleaved statements. `notify_one` moves one waiter of
the caller's choice, `notify_all` moves all, and a waiter may wake by itself.
Element operations do not throw.

The critical sections are appended to a log that no operation reads.
-/

namespace Line64.BlockingModel

open Function Result Transition

/-- A capacity accepted by the constructor. -/
abbrev Capacity := Bounded "BlockingQueue"

/-- The condition variables `not_empty_` and `not_full_`. -/
inductive Condition
  | notEmpty
  | notFull
  deriving DecidableEq, Repr

/-- The operations with their arguments. -/
inductive Op (α : Type)
  | push (item : α)
  | tryPush (item : α)
  | pop
  | tryPop
  | close
  deriving DecidableEq, Repr

/-- What an operation returns. -/
inductive Answer (α : Type)
  /-- Status of `push` and `try_push`. -/
  | pushed (status : QueueStatus)
  /-- Optional item of `pop`. -/
  | popped (item : Option α)
  /-- Status of `try_pop` with the item it assigned, if any. -/
  | tried (status : QueueStatus) (item : Option α)
  /-- Return of `close`. -/
  | closed
  deriving DecidableEq, Repr

/-- Statements that follow a critical section. -/
inductive Exit
  | unlock
  | notifyOne (c : Condition)
  | notifyAll (c : Condition)
  deriving DecidableEq, Repr

/-- Condition variable an operation waits on, if it waits. -/
def Op.condition {α : Type} : Op α → Option Condition
  | .push _ => some .notFull
  | .pop => some .notEmpty
  | _ => none

/-- A thread between and inside calls. -/
inductive Thread (α : Type)
  | idle
  /-- About to lock the mutex; `woken` marks a waiter that was woken. -/
  | locking (op : Op α) (woken : Bool)
  /-- Inside the mutex, in front of the predicate and the body. -/
  | inside (op : Op α) (woken : Bool)
  /-- Blocked on the condition variable of its operation. -/
  | waiting (op : Op α)
  /-- Behind its body, with the remaining statements and the answer. -/
  | leaving (todo : List Exit) (answer : Answer α)
  deriving DecidableEq, Repr

/-- A critical section that has run: queue, flag, remaining statements and
answer. -/
structure Ran (α : Type) where
  /-- The member `queue_`, front first. -/
  queue : List α
  /-- The member `closed_`. -/
  closed : Bool
  /-- Statements that remain. -/
  todo : List Exit
  /-- Answer to return. -/
  answer : Answer α

/-- A critical section of the log. -/
structure Event (τ α : Type) where
  /-- Calling thread. -/
  thread : τ
  /-- Operation and argument. -/
  op : Op α
  /-- Answer that will be returned. -/
  answer : Answer α
  deriving DecidableEq, Repr

/-- Shared members, threads and the log. -/
structure State (τ α : Type) where
  /-- Thread that holds `mutex_`. -/
  owner : Option τ
  /-- The member `queue_`, front first. -/
  queue : List α
  /-- The member `closed_`. -/
  closed : Bool
  /-- Threads by name. -/
  thread : τ → Thread α
  /-- Critical sections, oldest first. -/
  log : List (Event τ α)

/-- A scheduled step. -/
inductive Action (τ α : Type)
  /-- A thread calls an operation. -/
  | call (t : τ) (op : Op α)
  /-- A thread executes its next statement. -/
  | run (t : τ)
  /-- A thread executes `notify_one` and wakes the named waiter. -/
  | notify (t waiter : τ)
  /-- A waiter wakes spuriously. -/
  | wake (t : τ)

/-- The constructed queue. -/
def init (τ α : Type) : State τ α where
  owner := none
  queue := []
  closed := false
  thread := fun _ => .idle
  log := []

variable {τ α : Type}

/-- Predicate and body of an operation under the mutex; `none` where the
predicate is false and the thread blocks. -/
def critical (q : Capacity) (queue : List α) (closed : Bool) : Op α → Option (Ran α)
  | .push item =>
    if closed=true ∨ queue.length<q.capacity then
      if closed then some ⟨queue,closed,[.unlock],.pushed .closed⟩
      else some ⟨queue++[item],closed,[.unlock,.notifyOne .notEmpty],.pushed .success⟩
    else none
  | .tryPush item =>
    if closed then some ⟨queue,closed,[.unlock],.pushed .closed⟩
    else if queue.length=q.capacity then some ⟨queue,closed,[.unlock],.pushed .full⟩
    else some ⟨queue++[item],closed,[.notifyOne .notEmpty,.unlock],.pushed .success⟩
  | .pop =>
    if closed=true ∨ queue≠[] then
      match queue with
      | [] => some ⟨[],closed,[.unlock],.popped none⟩
      | item::rest => some ⟨rest,closed,[.unlock,.notifyOne .notFull],.popped (some item)⟩
    else none
  | .tryPop =>
    match queue with
    | [] => some ⟨[],closed,[.unlock],.tried (if closed then .closed else .empty) none⟩
    | item::rest => some ⟨rest,closed,[.notifyOne .notFull,.unlock],.tried .success (some item)⟩
  | .close =>
    some ⟨queue,true,[.unlock,.notifyAll .notEmpty,.notifyAll .notFull],.closed⟩

/-- Blocked on a condition variable, not yet notified. -/
def Thread.blocked (c : Condition) : Thread α → Bool
  | .waiting op => op.condition=some c
  | _ => false

/-- A waiter leaves the condition variable and has to lock the mutex again. -/
def Thread.wake : Thread α → Thread α
  | .waiting op => .locking op true
  | thread => thread

variable [DecidableEq τ]

/-- Replace one thread. -/
def State.setThread (s : State τ α) (t : τ) (thread : Thread α) : State τ α :=
  {s with thread := update s.thread t thread}

/-- Run a critical section, or release the mutex and block. -/
def runInside (q : Capacity) (s : State τ α) (t : τ) (op : Op α) : State τ α :=
  match critical q s.queue s.closed op with
  | none => {s with owner := none, thread := update s.thread t (.waiting op)}
  | some ran =>
    {s with
      queue := ran.queue
      closed := ran.closed
      thread := update s.thread t (.leaving ran.todo ran.answer)
      log := s.log++[⟨t,op,ran.answer⟩]}

variable [Fintype τ]

/-- Execute the next statement behind a critical section. A single
notification without a waiter is lost. -/
def runExit (s : State τ α) (t : τ) (todo : List Exit) (answer : Answer α) :
    Exit → Option (State τ α)
  | .unlock => some {s with owner := none, thread := update s.thread t (.leaving todo answer)}
  | .notifyOne c =>
    if ∀ u,(s.thread u).blocked c=false then some (s.setThread t (.leaving todo answer))
    else none
  | .notifyAll c =>
    let woken := fun u => if (s.thread u).blocked c then (s.thread u).wake else s.thread u
    some {s with thread := update woken t (.leaving todo answer)}

/-- One scheduled step of the whole system. -/
def step (q : Capacity) (s : State τ α) : Action τ α → Option (State τ α)
  | .call t op =>
    match s.thread t with
    | .idle => some (s.setThread t (.locking op false))
    | _ => none
  | .run t =>
    match s.thread t with
    | .locking op woken =>
      if s.owner=none then
        some {s with owner := some t, thread := update s.thread t (.inside op woken)}
      else none
    | .inside op _ => some (runInside q s t op)
    | .leaving [] _ => some (s.setThread t .idle)
    | .leaving (exit::todo) answer => runExit s t todo answer exit
    | _ => none
  | .notify t waiter =>
    match s.thread t with
    | .leaving (.notifyOne c::todo) answer =>
      if (s.thread waiter).blocked c then
        some ((s.setThread waiter (s.thread waiter).wake).setThread t (.leaving todo answer))
      else none
    | _ => none
  | .wake t =>
    match s.thread t with
    | .waiting op => some (s.setThread t (.locking op true))
    | _ => none

/-- The queue under every interleaving of its threads. -/
def system (q : Capacity) (τ α : Type) [DecidableEq τ] [Fintype τ] :
    System (State τ α) (Action τ α) where
  init := init τ α
  step := step q

/-- What one step of a thread does, by the statement it executes. -/
inductive Effect (q : Capacity) (s : State τ α) (t : τ) : Action τ α → State τ α → Prop
  /-- The thread calls an operation. -/
  | call (op : Op α) (ht : s.thread t=.idle) :
      Effect q s t (.call t op) (s.setThread t (.locking op false))
  /-- The thread locks the free mutex. -/
  | lock (op : Op α) (was : Bool) (ht : s.thread t=.locking op was) (hfree : s.owner=none) :
      Effect q s t (.run t)
        {s with owner := some t, thread := update s.thread t (.inside op was)}
  /-- The predicate is false: the thread unlocks the mutex and blocks. -/
  | block (op : Op α) (was : Bool) (ht : s.thread t=.inside op was)
      (hblocks : critical q s.queue s.closed op=none) :
      Effect q s t (.run t) {s with owner := none, thread := update s.thread t (.waiting op)}
  /-- The body runs. -/
  | body (op : Op α) (was : Bool) (ran : Ran α) (ht : s.thread t=.inside op was)
      (hran : critical q s.queue s.closed op=some ran) :
      Effect q s t (.run t)
        {s with
          queue := ran.queue
          closed := ran.closed
          thread := update s.thread t (.leaving ran.todo ran.answer)
          log := s.log++[⟨t,op,ran.answer⟩]}
  /-- The thread unlocks the mutex behind its body. -/
  | unlock (todo : List Exit) (answer : Answer α)
      (ht : s.thread t=.leaving (.unlock::todo) answer) :
      Effect q s t (.run t)
        {s with owner := none, thread := update s.thread t (.leaving todo answer)}
  /-- The thread notifies one waiter and there is none. -/
  | notifyNone (c : Condition) (todo : List Exit) (answer : Answer α)
      (ht : s.thread t=.leaving (.notifyOne c::todo) answer)
      (hnone : ∀ u,(s.thread u).blocked c=false) :
      Effect q s t (.run t) (s.setThread t (.leaving todo answer))
  /-- The thread notifies one waiter. -/
  | notifyOne (c : Condition) (todo : List Exit) (answer : Answer α) (waiter : τ)
      (ht : s.thread t=.leaving (.notifyOne c::todo) answer)
      (hwaiter : (s.thread waiter).blocked c=true) :
      Effect q s t (.notify t waiter)
        ((s.setThread waiter (s.thread waiter).wake).setThread t (.leaving todo answer))
  /-- The thread notifies all waiters. -/
  | notifyAll (c : Condition) (todo : List Exit) (answer : Answer α)
      (ht : s.thread t=.leaving (.notifyAll c::todo) answer) :
      Effect q s t (.run t)
        {s with
          thread := update
            (fun u => if (s.thread u).blocked c then (s.thread u).wake else s.thread u) t
            (.leaving todo answer)}
  /-- The operation returns. -/
  | finish (answer : Answer α) (ht : s.thread t=.leaving [] answer) :
      Effect q s t (.run t) (s.setThread t .idle)
  /-- The thread wakes spuriously. -/
  | wake (op : Op α) (ht : s.thread t=.waiting op) :
      Effect q s t (.wake t) (s.setThread t (.locking op true))

/-- Statements behind a critical section have their effects. -/
theorem effect_of_runExit {q : Capacity} {s s' : State τ α} {t : τ} {exit : Exit}
    {todo : List Exit} {answer : Answer α} (ht : s.thread t=.leaving (exit::todo) answer)
    (hs : runExit s t todo answer exit=some s') : Effect q s t (.run t) s' := by
  cases exit with
  | unlock =>
    cases hs
    exact .unlock todo answer ht
  | notifyOne c =>
    simp only [runExit] at hs
    split at hs <;> cases hs
    rename_i hnone
    exact .notifyNone c todo answer ht hnone
  | notifyAll c =>
    cases hs
    exact .notifyAll c todo answer ht

/-- Every step is one of the effects. -/
theorem effect_of_step {q : Capacity} {s s' : State τ α} {a : Action τ α}
    (hs : step q s a=some s') : ∃ t,Effect q s t a s' := by
  cases a with
  | call t op =>
    simp only [step] at hs
    split at hs <;> cases hs
    rename_i ht
    exact ⟨t,.call op ht⟩
  | run t =>
    refine ⟨t,?_⟩
    simp only [step] at hs
    split at hs
    · rename_i op was ht
      split at hs <;> cases hs
      rename_i hfree
      exact .lock op was ht hfree
    · rename_i op was ht
      cases hs
      unfold runInside
      cases hran : critical q s.queue s.closed op with
      | none => exact .block op was ht hran
      | some ran => exact .body op was ran ht hran
    · rename_i answer ht
      cases hs
      exact .finish answer ht
    · rename_i exit todo answer ht
      exact effect_of_runExit ht hs
    · cases hs
  | notify t waiter =>
    simp only [step] at hs
    split at hs
    · rename_i c todo answer ht
      split at hs <;> cases hs
      rename_i hwaiter
      exact ⟨t,.notifyOne c todo answer waiter ht hwaiter⟩
    · cases hs
  | wake t =>
    simp only [step] at hs
    split at hs <;> cases hs
    rename_i op ht
    exact ⟨t,.wake op ht⟩

end Line64.BlockingModel
