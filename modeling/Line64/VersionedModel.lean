import Line64.RetainedHistory
import Line64.Transition

/-!
# The versioned multicast queue, one access at a time

`try_publish` of the producer and `make_consumer` and `try_read` of any
number of consumers of `VersionedSPMCQueue`, cut at every atomic access of a
version, a guarded member or the published boundary. Accesses are
sequentially consistent and counters are not exhausted.

A completed call is appended to a log that no operation reads. Each call
returns directly behind its last shared access, so the log lists the calls
in the order of these accesses.
-/

namespace Line64.VersionedModel

open Function Result FixedMessageAccess Transition RetainedHistory

/-- A capacity accepted by the constructor. -/
abbrev Ring := Bounded "VersionedSPMCQueue"

/-- The constant `read_attempts`. -/
def readAttempts : ℕ := 64

/-- A ring cell. -/
structure Cell (N : ℕ) where
  /-- Even while the cell is stable, odd while a publication writes it. -/
  version : ℕ
  /-- The guarded members: sequence, size and storage. -/
  content : FixedMessage N

/-- Program points of `try_publish`, with the local `version`. -/
inductive PublishPc
  /-- Load the version of the cell. -/
  | loadVersion
  /-- Store the odd version. -/
  | storeOdd (version : ℕ)
  /-- Store the sequence. -/
  | storeSequence (version : ℕ)
  /-- Store the size. -/
  | storeSize (version : ℕ)
  /-- Store payload byte `index`. -/
  | storeByte (version index : ℕ)
  /-- Store the next even version. -/
  | storeEven (version : ℕ)
  /-- Count the publication and store the published boundary. -/
  | storePublished
  deriving DecidableEq, Repr

/-- The producer thread between and inside calls. -/
inductive Producer
  | idle
  | running (payload : List Byte) (sequence : ℕ) (pc : PublishPc)
  deriving DecidableEq, Repr

/-- Program points of `read`, with the local `before`. -/
inductive ReadPc
  /-- Load the published boundary. -/
  | loadPublished
  /-- Load the version in front of the copy. -/
  | loadBefore
  /-- Load the stored sequence. -/
  | loadSequence (before : ℕ)
  /-- Load the stored size. -/
  | loadSize (before : ℕ)
  /-- Load storage byte `index`. -/
  | loadByte (before index : ℕ)
  /-- Load the version behind the copy. -/
  | loadAfter (before : ℕ)
  /-- Reload the published boundary after an overwrite. -/
  | reloadPublished
  deriving DecidableEq, Repr

/-- A consumer thread. The snapshot holds the locals `stored_sequence`,
`stored_size` and `scratch`. -/
inductive Consumer (N : ℕ)
  | unregistered
  | idle (nextSequence : ℕ)
  | running (nextSequence : ℕ) (destination : List Byte) (attempt : ℕ)
      (snapshot : FixedMessage N) (pc : ReadPc)

/-- A completed call with its arguments and everything it returned. A read
also records the cursor it started at. -/
inductive Event (κ : Type)
  | publish (payload : List Byte) (result : WriteResult)
  | register (c : κ) (cursor : ℕ)
  | read (c : κ) (start : ℕ) (original : List Byte) (answer : Answer)
  deriving DecidableEq, Repr

/-- Shared memory, local variables and the log of completed calls. -/
structure State (κ : Type) (N : ℕ) where
  /-- Ring cells; only indices below the capacity are used. -/
  cells : ℕ → Cell N
  /-- The private counter `produced_`. -/
  produced : ℕ
  /-- The atomic boundary `published_`. -/
  published : ℕ
  /-- The producer thread. -/
  producer : Producer
  /-- Consumer threads by name. -/
  consumer : κ → Consumer N
  /-- Completed calls, oldest first. -/
  log : List (Event κ)

/-- A scheduled step. -/
inductive Action (κ : Type)
  | callPublish (payload : List Byte)
  | publish
  | register (c : κ)
  | callRead (c : κ) (destination : List Byte)
  | read (c : κ)

/-- The constructed queue. -/
def init (κ : Type) (N : ℕ) : State κ N where
  cells := fun _ => ⟨0,.initial N⟩
  produced := 0
  published := 0
  producer := .idle
  consumer := fun _ => .unregistered
  log := []

variable {κ : Type} {N : ℕ}

/-- Cell used by a sequence. -/
def index (q : Ring) (sequence : ℕ) : ℕ := (sequence-1)%q.capacity

/-- The producer returns. -/
def State.returnPublish (s : State κ N) (payload : List Byte) (result : WriteResult) :
    State κ N :=
  {s with producer := .idle, log := s.log++[.publish payload result]}

/-- Entry of `try_publish`: oversized payloads return before any access. -/
def enterPublish (s : State κ N) (payload : List Byte) : State κ N :=
  if N<payload.length then s.returnPublish payload ⟨.messageTooLarge,0⟩
  else {s with producer := .running payload (s.produced+1) .loadVersion}

/-- Next store of the byte loop once `index` bytes are stored. -/
def storeFrom (payload : List Byte) (version index : ℕ) : PublishPc :=
  if index<payload.length then .storeByte version index else .storeEven version

/-- Replace a cell and move the producer on. -/
def State.store (s : State κ N) (q : Ring) (payload : List Byte) (sequence : ℕ) (cell : Cell N)
    (pc : PublishPc) : State κ N :=
  {s with
    cells := update s.cells (index q sequence) cell
    producer := .running payload sequence pc}

/-- One access of `try_publish`. -/
def stepPublish (q : Ring) (s : State κ N) (payload : List Byte) (sequence : ℕ) :
    PublishPc → State κ N
  | .loadVersion =>
    {s with
      producer := .running payload sequence (.storeOdd (s.cells (index q sequence)).version)}
  | .storeOdd version =>
    s.store q payload sequence ⟨version+1,(s.cells (index q sequence)).content⟩
      (.storeSequence version)
  | .storeSequence version =>
    let cell := s.cells (index q sequence)
    s.store q payload sequence
      ⟨cell.version,⟨cell.content.storage,cell.content.size,sequence⟩⟩ (.storeSize version)
  | .storeSize version =>
    let cell := s.cells (index q sequence)
    s.store q payload sequence
      ⟨cell.version,⟨cell.content.storage,payload.length,cell.content.sequence⟩⟩
      (storeFrom payload version 0)
  | .storeByte version k =>
    let cell := s.cells (index q sequence)
    s.store q payload sequence
      ⟨cell.version,⟨cell.content.storage.setIfInBounds k (payload.getD k 0),cell.content.size,
        cell.content.sequence⟩⟩
      (storeFrom payload version (k+1))
  | .storeEven version =>
    s.store q payload sequence ⟨version+2,(s.cells (index q sequence)).content⟩ .storePublished
  | .storePublished =>
    {s with produced := sequence, published := sequence}.returnPublish payload ⟨.success,sequence⟩

/-- Next load of the byte loop once `index` bytes are loaded. -/
def loadFrom (N before index : ℕ) : ReadPc :=
  if index<N then .loadByte before index else .loadAfter before

/-- Recovery cursor after the wanted sequence was overwritten. -/
def resumeAfterOverwrite (q : Ring) (published want : ℕ) : ℕ :=
  let refreshed := oldestRetained q.capacity published
  if want<refreshed then refreshed else want

/-- End of a stable attempt that loaded the wanted sequence. -/
def deliver (want : ℕ) (destination : List Byte) (snapshot : FixedMessage N) : Answer :=
  if destination.length<snapshot.size then ⟨want,destination,⟨.messageTooLarge,0,want⟩⟩
  else ⟨want+1,snapshot.storage.toList.take snapshot.size++destination.drop snapshot.size,
    ⟨.success,snapshot.size,want⟩⟩

/-- Cursor of a registered consumer. -/
def Consumer.cursor : Consumer N → Option ℕ
  | .unregistered => none
  | .idle nextSequence => some nextSequence
  | .running nextSequence _ _ _ _ => some nextSequence

/-- Publications whose write to their cell has begun with the odd version. -/
def State.begun (s : State κ N) : ℕ :=
  match s.producer with
  | .idle => s.published
  | .running _ sequence pc =>
    match pc with
    | .loadVersion => s.published
    | .storeOdd _ => s.published
    | _ => sequence

variable [DecidableEq κ]

/-- Replace the local variables of one consumer. -/
def State.setConsumer (s : State κ N) (c : κ) (consumer : Consumer N) : State κ N :=
  {s with consumer := update s.consumer c consumer}

/-- A read returns and leaves the new cursor in its handle. -/
def State.returnRead (s : State κ N) (c : κ) (start : ℕ) (original : List Byte)
    (answer : Answer) : State κ N :=
  {s with
    consumer := update s.consumer c (.idle answer.cursor)
    log := s.log++[.read c start original answer]}

/-- Registration starts at the next future publication. -/
def makeConsumer (s : State κ N) (c : κ) : State κ N :=
  {s with
    consumer := update s.consumer c (.idle (s.published+1))
    log := s.log++[.register c (s.published+1)]}

/-- After a failed attempt: try again, or give up after the last one. -/
def State.retry (s : State κ N) (c : κ) (want : ℕ) (destination : List Byte) (attempt : ℕ)
    (snapshot : FixedMessage N) : State κ N :=
  if attempt+1<readAttempts then
    s.setConsumer c (.running want destination (attempt+1) snapshot .loadBefore)
  else s.setConsumer c (.running want destination attempt snapshot .reloadPublished)

/-- One access of `read`. -/
def stepRead (q : Ring) (s : State κ N) (c : κ) (want : ℕ) (destination : List Byte)
    (attempt : ℕ) (snapshot : FixedMessage N) : ReadPc → State κ N
  | .loadPublished =>
    let oldest := oldestRetained q.capacity s.published
    if s.published<want then
      s.returnRead c want destination ⟨want,destination,⟨.empty,0,want⟩⟩
    else if want<oldest then
      s.returnRead c want destination ⟨oldest,destination,⟨.consumerLagged,0,oldest⟩⟩
    else s.setConsumer c (.running want destination 0 (.initial N) .loadBefore)
  | .loadBefore =>
    let before := (s.cells (index q want)).version
    if before&&&1≠0 then s.retry c want destination attempt snapshot
    else s.setConsumer c (.running want destination attempt snapshot (.loadSequence before))
  | .loadSequence before =>
    let sequence := (s.cells (index q want)).content.sequence
    s.setConsumer c (.running want destination attempt
      ⟨snapshot.storage,snapshot.size,sequence⟩ (.loadSize before))
  | .loadSize before =>
    let size := (s.cells (index q want)).content.size
    s.setConsumer c (.running want destination attempt
      ⟨snapshot.storage,size,snapshot.sequence⟩ (loadFrom N before 0))
  | .loadByte before k =>
    let byte := (s.cells (index q want)).content.storage[k]?.getD 0
    s.setConsumer c (.running want destination attempt
      ⟨snapshot.storage.setIfInBounds k byte,snapshot.size,snapshot.sequence⟩
      (loadFrom N before (k+1)))
  | .loadAfter before =>
    if before=(s.cells (index q want)).version then
      if snapshot.sequence≠want then
        s.setConsumer c (.running want destination attempt snapshot .reloadPublished)
      else s.returnRead c want destination (deliver want destination snapshot)
    else s.retry c want destination attempt snapshot
  | .reloadPublished =>
    let resume := resumeAfterOverwrite q s.published want
    s.returnRead c want destination ⟨resume,destination,⟨.overwritten,0,resume⟩⟩

/-- One scheduled step of the whole system. -/
def step (q : Ring) (s : State κ N) : Action κ → Option (State κ N)
  | .callPublish payload =>
    match s.producer with
    | .idle => some (enterPublish s payload)
    | _ => none
  | .publish =>
    match s.producer with
    | .running payload sequence pc => some (stepPublish q s payload sequence pc)
    | _ => none
  | .register c =>
    match s.consumer c with
    | .unregistered => some (makeConsumer s c)
    | _ => none
  | .callRead c destination =>
    match s.consumer c with
    | .idle nextSequence =>
      some (s.setConsumer c (.running nextSequence destination 0 (.initial N) .loadPublished))
    | _ => none
  | .read c =>
    match s.consumer c with
    | .running want destination attempt snapshot pc =>
      some (stepRead q s c want destination attempt snapshot pc)
    | _ => none

/-- The queue under every interleaving of its threads. -/
def system (q : Ring) (κ : Type) [DecidableEq κ] (N : ℕ) : System (State κ N) (Action κ) where
  init := init κ N
  step := step q

end Line64.VersionedModel
