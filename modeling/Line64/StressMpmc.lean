import Line64.AtomicCounters
import Line64.MpmcMemoryModel
import Line64.StressPayload

/-!
# The stress run of the MPMC queue

`run_mpmc` with the queue on its memory orders and the counters of the run on
theirs. Every producer sends its numbered messages until they are all sent or
the deadline has passed, and signs off. A consumer that finds the queue empty
leaves when all producers have signed off and no fewer messages were popped
than pushed. When all threads have returned the main thread compares the marks
of published and consumed messages.

The memory model is RC11, so no thread reads what is stored later: load
buffering does not occur. Queue and counters are kept in two memories, so what
is known about one is never inferred from the other: a run of the program is a
run here. The barrier `start` and the yields are left out, and the clock is
read from the schedule.
A call is named by its thread, the number of the message and the attempt.
-/

namespace Line64.StressMpmc

open Function Result BenchmarkPayload Transition ReleaseAcquire AtomicCounters StressConfig
  StressPayload
open MpmcModel (Ring)

/-- A run of the stress program that includes the MPMC queue. -/
structure Trial extends Setup where
  /-- The queue is selected. -/
  selected : config.shouldRun "mpmc"

/-- The queue under stress. -/
def Trial.ring (r : Trial) : Ring := ⟨r.config.capacity,r.valid.mpmc r.selected⟩

/-- The worker threads. -/
inductive Thread (n m : ℕ)
  | producer (p : Fin n)
  | consumer (c : Fin m)
  deriving DecidableEq, Repr

/-- The atomic counters of the run. -/
inductive Counter
  | remainingProducers
  | pushed
  | popped
  | fullRetries
  | emptyRetries
  deriving DecidableEq, Repr

/-- Program points of a producer. -/
inductive ProducerPc
  /-- Test of the loop. -/
  | test
  /-- Inside `try_push`. -/
  | pushing
  /-- Set the mark of the message. -/
  | mark
  /-- Increment `pushed`. -/
  | countPushed
  /-- Increment `full_retries`. -/
  | countFull
  /-- Record an unexpected status. -/
  | fail (result : WriteResult)
  /-- Decrement `remaining_producers`. -/
  | leave
  | exited
  deriving DecidableEq, Repr

/-- A producer thread. -/
structure Producer where
  /-- Number of the message that is sent next. -/
  localSequence : ℕ
  /-- Calls of `try_push` with this message. -/
  attempts : ℕ
  /-- Program point. -/
  pc : ProducerPc
  deriving DecidableEq, Repr

/-- Program points of a consumer. -/
inductive ConsumerPc
  /-- Call `try_pop`. -/
  | enter
  /-- Inside `try_pop`. -/
  | popping
  /-- Increment `popped`. -/
  | countPopped (payload : List Byte) (result : ReadResult)
  /-- Compare the sequence with the last one. -/
  | checkOrder (payload : List Byte) (result : ReadResult)
  /-- Compare the payload with the expected one. -/
  | validate (payload : List Byte) (result : ReadResult)
  /-- Set the mark of the message. -/
  | mark (payload : List Byte) (result : ReadResult)
  /-- Increment `empty_retries`. -/
  | countEmpty
  /-- Load `remaining_producers`. -/
  | loadRemaining
  /-- Load `popped` and `pushed`, in any order. -/
  | compare (popped pushed : Option ℕ)
  /-- Record an unexpected status. -/
  | fail (result : ReadResult)
  | exited
  deriving DecidableEq, Repr

/-- A consumer thread. -/
structure Consumer where
  /-- The sequence of its last message. -/
  lastQueueSequence : ℕ
  /-- Calls of `try_pop`. -/
  calls : ℕ
  /-- Program point. -/
  pc : ConsumerPc
  deriving DecidableEq, Repr

/-- Names of calls: thread, number and attempt. -/
abbrev Call (n m : ℕ) := Thread n m × ℕ × ℕ

/-- Queue, counters, marks and threads. -/
structure State (n m : ℕ) where
  /-- The queue. -/
  queue : MpmcMemoryModel.State (Call n m) (Thread n m) maxPayloadSize
  /-- Values of the counters. -/
  history : History (Thread n m) Counter ℕ
  /-- Views of the threads on the counters. -/
  views : Thread n m → Local (Thread n m) Counter
  /-- Marks of published messages. -/
  published : ℕ → Bool
  /-- Marks of consumed messages. -/
  consumed : ℕ → Bool
  /-- The recorder. -/
  failures : Recorder
  /-- Producer threads. -/
  producer : Fin n → Producer
  /-- Consumer threads. -/
  consumer : Fin m → Consumer

/-- Initial values of the counters. -/
def Counter.initial (n : ℕ) : Counter → ℕ
  | .remainingProducers => n
  | _ => 0

/-- Before the threads run. -/
def init (n m : ℕ) : State n m where
  queue := MpmcMemoryModel.init _ _ _
  history := .initial _ (Counter.initial n)
  views := fun _ => .initial _ _
  published := fun _ => false
  consumed := fun _ => false
  failures := none
  producer := fun _ => ⟨1,0,.test⟩
  consumer := fun _ => ⟨0,0,.enter⟩

/-- A scheduled step of a thread. The timestamp belongs to an atomic access,
`spurious` to a compare-exchange, `expired` is the answer of the clock, and
`pushedFirst` the order of the two loads of a comparison. -/
inductive Action (n m : ℕ)
  | producer (p : Fin n) (ts : ℕ) (spurious expired : Bool)
  | consumer (c : Fin m) (ts : ℕ) (spurious pushedFirst : Bool)

variable {n m : ℕ}

/-- Replace the local variables of a producer. -/
def State.setProducer (s : State n m) (p : Fin n) (x : Producer) : State n m :=
  {s with producer := update s.producer p x}

/-- Move a producer to another program point. -/
def State.gotoProducer (s : State n m) (p : Fin n) (pc : ProducerPc) : State n m :=
  s.setProducer p {s.producer p with pc := pc}

/-- Replace the local variables of a consumer. -/
def State.setConsumer (s : State n m) (c : Fin m) (x : Consumer) : State n m :=
  {s with consumer := update s.consumer c x}

/-- Move a consumer to another program point. -/
def State.gotoConsumer (s : State n m) (c : Fin m) (pc : ConsumerPc) : State n m :=
  s.setConsumer c {s.consumer c with pc := pc}

/-- The counters and the views of one thread. -/
def State.setMemory (s : State n m) (t : Thread n m) (history : History (Thread n m) Counter ℕ)
    (l : Local (Thread n m) Counter) : State n m :=
  {s with history := history, views := update s.views t l}

/-- A step of the queue. -/
def State.stepQueue (r : Trial) (s : State n m) (a : MpmcMemoryModel.Action (Call n m)) :
    Option (State n m) :=
  (MpmcMemoryModel.step r.ring Prod.fst s.queue a).map fun queue => {s with queue := queue}

/-- A relaxed increment. -/
def State.increment (s : State n m) (t : Thread n m) (a : Counter) (ts : ℕ) :
    Option (State n m) :=
  (fetchUpdate s.history (s.views t) .relaxed a ts (·+1)).map fun done =>
    s.setMemory t done.2.1 done.2.2

/-- A load of a counter and what is done with the value. -/
def State.loadAt (s : State n m) (t : Thread n m) (order : LoadOrder) (a : Counter) (ts : ℕ)
    (next : State n m → ℕ → State n m) : Option (State n m) :=
  (load s.history (s.views t) order a ts).map fun loaded =>
    next (s.setMemory t s.history loaded.2) loaded.1

/-- Program point behind a push. -/
def afterPush (result : WriteResult) : ProducerPc :=
  match result.status with
  | .success => .mark
  | .full => .countFull
  | _ => .fail result

/-- One step of a producer. -/
def stepProducer (r : Trial) (s : State n m) (p : Fin n) (ts : ℕ) (spurious expired : Bool) :
    Option (State n m) :=
  let x := s.producer p
  let global := r.globalSequence p x.localSequence
  match x.pc with
  | .test =>
    if x.localSequence ≤ r.config.iterations ∧ expired=false then
      (s.stepQueue r (.callPush (.producer p,x.localSequence,x.attempts)
        (r.payload p x.localSequence))).map fun s =>
          s.setProducer p ⟨x.localSequence,x.attempts+1,.pushing⟩
    else some (s.gotoProducer p .leave)
  | .pushing =>
    match s.queue.push (.producer p,x.localSequence,x.attempts-1) with
    | .returned _ _ result => some (s.gotoProducer p (afterPush result))
    | _ => s.stepQueue r (.push (.producer p,x.localSequence,x.attempts-1) ts spurious)
  | .mark => some ({s with published := update s.published global true}.gotoProducer p .countPushed)
  | .countPushed =>
    (s.increment (.producer p) .pushed ts).map fun s =>
      s.setProducer p ⟨x.localSequence+1,0,.test⟩
  | .countFull =>
    (s.increment (.producer p) .fullRetries ts).map fun s => s.gotoProducer p .test
  | .fail result =>
    some ({s with failures := s.failures.record ⟨"mpmc",r.config.seed,global,global,
      result.sequence,0,0,"unexpected producer status"⟩}.gotoProducer p .leave)
  | .leave =>
    (fetchUpdate s.history (s.views (.producer p)) .acqRel .remainingProducers ts (·-1)).map
      fun done => (s.setMemory (.producer p) done.2.1 done.2.2).gotoProducer p .exited
  | .exited => none

/-- Program point behind a pop. -/
def afterPop (destination : List Byte) (result : ReadResult) : ConsumerPc :=
  match result.status with
  | .success => .countPopped destination result
  | .empty => .countEmpty
  | _ => .fail result

/-- The end of a comparison: the loop is left if nothing is missing. -/
def afterCompare (popped pushed : ℕ) : ConsumerPc := if pushed≤popped then .exited else .enter

/-- A consumer compares the sequence of its message with the last one. -/
def checkOrder (r : Trial) (s : State n m) (c : Fin m) (payload : List Byte)
    (result : ReadResult) : State n m :=
  let x := s.consumer c
  let failures :=
    if result.sequence ≤ x.lastQueueSequence then
      s.failures.record ⟨"mpmc",r.config.seed,result.sequence,x.lastQueueSequence+1,
        result.sequence,0,(readHeader payload).checksum.toNat,"non-increasing queue sequence"⟩
    else s.failures
  {s with failures := failures}.setConsumer c
    ⟨result.sequence,x.calls,.validate payload result⟩

/-- A consumer compares its message with the one that its header names. -/
def validate (r : Trial) (s : State n m) (c : Fin m) (payload : List Byte)
    (result : ReadResult) : State n m :=
  let header := readHeader payload
  if r.inRange header then
    let checked := validatePayload r.random r.config "mpmc" payload header.producerId
      header.localSequence header.globalId result.sequence s.failures
    {s with failures := checked.2}.gotoConsumer c
      (if checked.1 then .mark payload result else .enter)
  else s.gotoConsumer c .enter

/-- A consumer marks its message. -/
def markConsumed (r : Trial) (s : State n m) (c : Fin m) (payload : List Byte)
    (result : ReadResult) : State n m :=
  let header := readHeader payload
  let global := header.globalId.toNat
  let failures :=
    if s.consumed global then
      s.failures.record ⟨"mpmc",r.config.seed,result.sequence,global,global,
        header.checksum.toNat,header.checksum.toNat,"duplicate consumed message"⟩
    else s.failures
  {s with failures := failures, consumed := update s.consumed global true}.gotoConsumer c .enter

/-- One step of a consumer. -/
def stepConsumer (r : Trial) (s : State n m) (c : Fin m) (ts : ℕ) (spurious pushedFirst : Bool) :
    Option (State n m) :=
  let x := s.consumer c
  match x.pc with
  | .enter =>
    (s.stepQueue r (.callPop (.consumer c,x.calls,0)
      (List.replicate r.config.payloadSize 0))).map fun s =>
        s.setConsumer c ⟨x.lastQueueSequence,x.calls+1,.popping⟩
  | .popping =>
    match s.queue.pop (.consumer c,x.calls-1,0) with
    | .returned _ destination _ result => some (s.gotoConsumer c (afterPop destination result))
    | _ => s.stepQueue r (.pop (.consumer c,x.calls-1,0) ts spurious)
  | .countPopped payload result =>
    (s.increment (.consumer c) .popped ts).map fun s =>
      s.gotoConsumer c (.checkOrder payload result)
  | .checkOrder payload result => some (checkOrder r s c payload result)
  | .validate payload result => some (validate r s c payload result)
  | .mark payload result => some (markConsumed r s c payload result)
  | .countEmpty =>
    (s.increment (.consumer c) .emptyRetries ts).map fun s => s.gotoConsumer c .loadRemaining
  | .loadRemaining =>
    s.loadAt (.consumer c) .acquire .remainingProducers ts fun s remaining =>
      s.gotoConsumer c (if remaining=0 then .compare none none else .enter)
  | .compare none none =>
    if pushedFirst then
      s.loadAt (.consumer c) .relaxed .pushed ts fun s pushed =>
        s.gotoConsumer c (.compare none (some pushed))
    else
      s.loadAt (.consumer c) .relaxed .popped ts fun s popped =>
        s.gotoConsumer c (.compare (some popped) none)
  | .compare (some popped) none =>
    s.loadAt (.consumer c) .relaxed .pushed ts fun s pushed =>
      s.gotoConsumer c (afterCompare popped pushed)
  | .compare none (some pushed) =>
    s.loadAt (.consumer c) .relaxed .popped ts fun s popped =>
      s.gotoConsumer c (afterCompare popped pushed)
  | .compare (some popped) (some pushed) => some (s.gotoConsumer c (afterCompare popped pushed))
  | .fail result =>
    s.loadAt (.consumer c) .relaxed .popped ts fun s popped =>
      {s with failures := s.failures.record ⟨"mpmc",r.config.seed,popped,0,result.sequence,0,0,
        "unexpected consumer status"⟩}.gotoConsumer c .exited
  | .exited => none

/-- One scheduled step. -/
def step (r : Trial) (s : State n m) : Action n m → Option (State n m)
  | .producer p ts spurious expired => stepProducer r s p ts spurious expired
  | .consumer c ts spurious pushedFirst => stepConsumer r s c ts spurious pushedFirst

/-- The run under every interleaving, clock and choice of timestamps. -/
def system (r : Trial) :
    System (State r.config.producers r.config.consumers)
      (Action r.config.producers r.config.consumers) where
  init := init _ _
  step := step r

/-- All threads have returned. -/
def Exited (s : State n m) : Prop :=
  (∀ p,(s.producer p).pc=.exited) ∧ ∀ c,(s.consumer c).pc=.exited

/-- The threads in the order in which they are joined. -/
def threads (n m : ℕ) : List (Thread n m) :=
  (List.finRange n).map .producer++(List.finRange m).map .consumer

/-- The comparison of the marks: differences, and the recorder behind it. -/
def compareMarks (r : Trial) (s : State n m) : ℕ × Recorder :=
  ((List.range (r.config.iterations*r.config.producers)).map (·+1)).foldl
    (fun (missing,failures) index =>
      if s.published index≠s.consumed index then
        (missing+1,if failures.isNone then
          failures.record ⟨"mpmc",r.config.seed,index,(s.published index).toNat,
            (s.consumed index).toNat,0,0,"published/consumed membership mismatch"⟩
          else failures)
      else (missing,failures)) (0,s.failures)

/-- What the main thread reports. -/
structure Report where
  /-- Final value of `pushed`. -/
  pushed : ℕ
  /-- Final value of `popped`. -/
  popped : ℕ
  /-- Messages whose marks differ. -/
  missing : ℕ
  /-- The recorder. -/
  failures : Recorder

/-- The value that `run_mpmc` returns. -/
def Report.passed (report : Report) : Bool := report.failures.isNone

/-- The end of `run_mpmc`, behind the joins. -/
def finish (r : Trial) (s : State n m) (pushedTs poppedTs : ℕ) : Option Report := do
  let main := join s.views (threads n m)
  let (missing,failures) := compareMarks r s
  let (pushed,main) ← load s.history main .relaxed .pushed pushedTs
  let (popped,_) ← load s.history main .relaxed .popped poppedTs
  if pushed≠popped ∨ missing≠0 then
    return ⟨pushed,popped,missing,failures.record ⟨"mpmc",r.config.seed,popped,pushed,popped,0,0,
      "pushed and popped totals differ after drain"⟩⟩
  else return ⟨pushed,popped,missing,failures⟩

end Line64.StressMpmc
