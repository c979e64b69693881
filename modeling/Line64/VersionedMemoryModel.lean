import Line64.ReleaseAcquire
import Line64.VersionedModel

/-!
# The versioned queue with its memory orders

`try_publish`, `make_consumer` and `read` of `VersionedSPMCQueue` on a memory
with release and acquire views. Every member of a cell is atomic. The odd
version and the guarded members are stored relaxed, with a release fence
behind the odd version and one in front of the even version, which is a
release store as the published boundary is. A read acquires the boundary and
the version, loads the guarded members relaxed, and loads the version again
behind an acquire fence. A fence concerns its own thread only and is taken
together with the access next to it.

Every atomic access takes its timestamp from the schedule, so a consumer may
load outdated members, each from another publication.
-/

namespace Line64.VersionedMemoryModel

open Function Result FixedMessageAccess Transition RetainedHistory ReleaseAcquire
open VersionedModel (Ring PublishPc Producer ReadPc Consumer Event index storeFrom loadFrom
  readAttempts resumeAfterOverwrite deliver)

/-- The producer thread and the consumer threads by name. -/
inductive Thread (κ : Type)
  | producer
  | consumer (c : κ)
  deriving DecidableEq, Repr

/-- The atomic members of a cell. -/
inductive Part
  | version
  | sequence
  | size
  /-- The byte `storage[k]`. -/
  | byte (k : ℕ)
  deriving DecidableEq, Repr

/-- The atomic members of a queue. -/
inductive Place
  /-- The boundary `published_`. -/
  | published
  /-- A member of the cell with this index. -/
  | member (i : ℕ) (part : Part)
  deriving DecidableEq, Repr

/-- Memory, views, local variables and the log of completed calls. -/
structure State (κ : Type) (N : ℕ) where
  /-- Stores to the atomic members. -/
  history : History (Thread κ) Place ℕ
  /-- Views of the threads. -/
  views : Thread κ → Local (Thread κ) Place
  /-- The private counter `produced_`. -/
  produced : ℕ
  /-- The producer thread. -/
  producer : Producer
  /-- Consumer threads by name. -/
  consumer : κ → Consumer N
  /-- Completed calls, oldest first. -/
  log : List (Event κ)

/-- A scheduled step; `ts` is the timestamp of an atomic access. -/
inductive Action (κ : Type)
  | callPublish (payload : List Byte)
  | publish (ts : ℕ)
  | register (c : κ) (ts : ℕ)
  | callRead (c : κ) (destination : List Byte)
  | read (c : κ) (ts : ℕ)

/-- The constructed queue, handed to all threads. -/
def init (κ : Type) (N : ℕ) : State κ N where
  history := .initial (Thread κ) fun _ => 0
  views := fun _ => .initial (Thread κ) Place
  produced := 0
  producer := .idle
  consumer := fun _ => .unregistered
  log := []

variable {κ : Type} {N : ℕ}

/-- The producer returns. -/
def State.returnPublish (s : State κ N) (payload : List Byte) (result : WriteResult) :
    State κ N :=
  {s with producer := .idle, log := s.log++[.publish payload result]}

/-- Entry of `try_publish`: oversized payloads return before any access. -/
def enterPublish (s : State κ N) (payload : List Byte) : State κ N :=
  if N<payload.length then s.returnPublish payload ⟨.messageTooLarge,0⟩
  else {s with producer := .running payload (s.produced+1) .loadVersion}

/-- Publications whose write to their cell has begun with the odd version. -/
def State.begun (s : State κ N) : ℕ :=
  match s.producer with
  | .idle => s.produced
  | .running _ sequence pc =>
    match pc with
    | .loadVersion => s.produced
    | .storeOdd _ => s.produced
    | _ => sequence

variable [DecidableEq κ]

/-- The stores and the views of one thread. -/
def State.setMemory (s : State κ N) (t : Thread κ) (history : History (Thread κ) Place ℕ)
    (l : Local (Thread κ) Place) : State κ N :=
  {s with history := history, views := update s.views t l}

/-- A store of the producer, with its views behind the store. -/
def State.storeAt (s : State κ N) (l : Local (Thread κ) Place) (order : StoreOrder) (a : Place)
    (ts value : ℕ) (producer : Producer) : Option (State κ N) :=
  (store s.history l order a ts value).map fun written =>
    {s.setMemory .producer written.1 written.2 with producer := producer}

/-- One access of `try_publish`. -/
def stepPublish (q : Ring) (s : State κ N) (payload : List Byte) (sequence ts : ℕ) :
    PublishPc → Option (State κ N)
  | .loadVersion =>
    (load s.history (s.views .producer) .relaxed (.member (index q sequence) .version) ts).map
      fun loaded => {s.setMemory .producer s.history loaded.2 with
        producer := .running payload sequence (.storeOdd loaded.1)}
  | .storeOdd version =>
    (store s.history (s.views .producer) .relaxed (.member (index q sequence) .version) ts
        (version+1)).map
      fun written => {s.setMemory .producer written.1 written.2.releaseFence with
        producer := .running payload sequence (.storeSequence version)}
  | .storeSequence version =>
    s.storeAt (s.views .producer) .relaxed (.member (index q sequence) .sequence) ts sequence
      (.running payload sequence (.storeSize version))
  | .storeSize version =>
    s.storeAt (s.views .producer) .relaxed (.member (index q sequence) .size) ts payload.length
      (.running payload sequence (storeFrom payload version 0))
  | .storeByte version k =>
    s.storeAt (s.views .producer) .relaxed (.member (index q sequence) (.byte k)) ts
      (payload.getD k 0).toNat (.running payload sequence (storeFrom payload version (k+1)))
  | .storeEven version =>
    s.storeAt (s.views .producer).releaseFence .release (.member (index q sequence) .version) ts
      (version+2) (.running payload sequence .storePublished)
  | .storePublished =>
    (store s.history (s.views .producer) .release .published ts sequence).map fun written =>
      {s.setMemory .producer written.1 written.2 with produced := sequence}.returnPublish payload
        ⟨.success,sequence⟩

/-- Replace the local variables of one consumer. -/
def State.setConsumer (s : State κ N) (c : κ) (consumer : Consumer N) : State κ N :=
  {s with consumer := update s.consumer c consumer}

/-- A read returns and leaves the new cursor in its handle. -/
def State.returnRead (s : State κ N) (c : κ) (start : ℕ) (original : List Byte)
    (answer : Answer) : State κ N :=
  {s with
    consumer := update s.consumer c (.idle answer.cursor)
    log := s.log++[.read c start original answer]}

/-- Registration behind its load of the published boundary. -/
def makeConsumer (s : State κ N) (c : κ) (published : ℕ) : State κ N :=
  {s with
    consumer := update s.consumer c (.idle (published+1))
    log := s.log++[.register c (published+1)]}

/-- After a failed attempt: try again, or give up after the last one. -/
def State.retry (s : State κ N) (c : κ) (want : ℕ) (destination : List Byte) (attempt : ℕ)
    (snapshot : FixedMessage N) : State κ N :=
  if attempt+1<readAttempts then
    s.setConsumer c (.running want destination (attempt+1) snapshot .loadBefore)
  else s.setConsumer c (.running want destination attempt snapshot .reloadPublished)

/-- A read behind its load of the published boundary. -/
def testPublished (q : Ring) (s : State κ N) (c : κ) (want : ℕ) (destination : List Byte)
    (published : ℕ) : State κ N :=
  let oldest := oldestRetained q.capacity published
  if published<want then
    s.returnRead c want destination ⟨want,destination,⟨.empty,0,want⟩⟩
  else if want<oldest then
    s.returnRead c want destination ⟨oldest,destination,⟨.consumerLagged,0,oldest⟩⟩
  else s.setConsumer c (.running want destination 0 (.initial N) .loadBefore)

/-- A read behind its load of the version in front of the copy. -/
def testBefore (s : State κ N) (c : κ) (want : ℕ) (destination : List Byte) (attempt : ℕ)
    (snapshot : FixedMessage N) (before : ℕ) : State κ N :=
  if before&&&1≠0 then s.retry c want destination attempt snapshot
  else s.setConsumer c (.running want destination attempt snapshot (.loadSequence before))

/-- A read behind its load of the version behind the copy. -/
def testAfter (s : State κ N) (c : κ) (want : ℕ) (destination : List Byte) (attempt : ℕ)
    (snapshot : FixedMessage N) (before version : ℕ) : State κ N :=
  if before=version then
    if snapshot.sequence≠want then
      s.setConsumer c (.running want destination attempt snapshot .reloadPublished)
    else s.returnRead c want destination (deliver want destination snapshot)
  else s.retry c want destination attempt snapshot

/-- The end of a read that lost its message. -/
def recover (q : Ring) (s : State κ N) (c : κ) (want : ℕ) (destination : List Byte)
    (published : ℕ) : State κ N :=
  let resume := resumeAfterOverwrite q published want
  s.returnRead c want destination ⟨resume,destination,⟨.overwritten,0,resume⟩⟩

/-- A load of a consumer with the given views, and what it does with the
value. -/
def State.loadAt (s : State κ N) (c : κ) (l : Local (Thread κ) Place) (order : LoadOrder)
    (a : Place) (ts : ℕ) (next : State κ N → ℕ → State κ N) : Option (State κ N) :=
  (load s.history l order a ts).map fun loaded =>
    next (s.setMemory (.consumer c) s.history loaded.2) loaded.1

/-- One access of `read`. -/
def stepRead (q : Ring) (s : State κ N) (c : κ) (want : ℕ) (destination : List Byte)
    (attempt : ℕ) (snapshot : FixedMessage N) (ts : ℕ) : ReadPc → Option (State κ N)
  | .loadPublished =>
    s.loadAt c (s.views (.consumer c)) .acquire .published ts fun s published =>
      testPublished q s c want destination published
  | .loadBefore =>
    s.loadAt c (s.views (.consumer c)) .acquire (.member (index q want) .version) ts
      fun s before => testBefore s c want destination attempt snapshot before
  | .loadSequence before =>
    s.loadAt c (s.views (.consumer c)) .relaxed (.member (index q want) .sequence) ts
      fun s sequence => s.setConsumer c (.running want destination attempt
        ⟨snapshot.storage,snapshot.size,sequence⟩ (.loadSize before))
  | .loadSize before =>
    s.loadAt c (s.views (.consumer c)) .relaxed (.member (index q want) .size) ts
      fun s size => s.setConsumer c (.running want destination attempt
        ⟨snapshot.storage,size,snapshot.sequence⟩ (loadFrom N before 0))
  | .loadByte before k =>
    s.loadAt c (s.views (.consumer c)) .relaxed (.member (index q want) (.byte k)) ts
      fun s byte => s.setConsumer c (.running want destination attempt
        ⟨snapshot.storage.setIfInBounds k (.ofNat byte),snapshot.size,snapshot.sequence⟩
        (loadFrom N before (k+1)))
  | .loadAfter before =>
    s.loadAt c (s.views (.consumer c)).acquireFence .relaxed (.member (index q want) .version) ts
      fun s version => testAfter s c want destination attempt snapshot before version
  | .reloadPublished =>
    s.loadAt c (s.views (.consumer c)) .acquire .published ts fun s published =>
      recover q s c want destination published

/-- One scheduled step of the whole system. -/
def step (q : Ring) (s : State κ N) : Action κ → Option (State κ N)
  | .callPublish payload =>
    match s.producer with
    | .idle => some (enterPublish s payload)
    | _ => none
  | .publish ts =>
    match s.producer with
    | .running payload sequence pc => stepPublish q s payload sequence ts pc
    | _ => none
  | .register c ts =>
    match s.consumer c with
    | .unregistered =>
      s.loadAt c (s.views (.consumer c)) .acquire .published ts fun s published =>
        makeConsumer s c published
    | _ => none
  | .callRead c destination =>
    match s.consumer c with
    | .idle nextSequence =>
      some (s.setConsumer c (.running nextSequence destination 0 (.initial N) .loadPublished))
    | _ => none
  | .read c ts =>
    match s.consumer c with
    | .running want destination attempt snapshot pc =>
      stepRead q s c want destination attempt snapshot ts pc
    | _ => none

/-- The queue under every interleaving and every choice of timestamps. -/
def system (q : Ring) (κ : Type) [DecidableEq κ] (N : ℕ) : System (State κ N) (Action κ) where
  init := init κ N
  step := step q

end Line64.VersionedMemoryModel
