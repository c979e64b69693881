import Mathlib.Algebra.Group.Nat.Defs
import Mathlib.Logic.Function.Basic
import Line64.BoundedFifo
import Line64.Transition

/-!
# The single-producer single-consumer queue, one access at a time

`try_push` of the producer, `try_pop` of the consumer, and `empty` and `full`
of any observers, cut at every atomic access and at every access of a slot.
The order in which an observer evaluates its two loads is unspecified in the
source, so the call carries it.

A completed call is appended to a log that no operation reads. Every call
returns directly behind its last shared access, so the log lists the calls
in the order of these accesses.
-/

namespace Line64.SpscModel

open Function Result FixedMessageAccess Transition BoundedFifo

/-- A capacity accepted by the constructor. -/
abbrev Ring := Bounded "SPSCQueue"

/-- Difference of two 64-bit counters, which wraps below zero. -/
def subWord (a b : ℕ) : ℕ := if b≤a then a-b else a+2^64-b

/-- Program points of `try_push`, with the local `head`. -/
inductive PushPc
  /-- Load the own counter. -/
  | loadHead
  /-- Load the counter of the consumer and test for room. -/
  | loadTail (head : ℕ)
  /-- Inside `assign` of the slot. -/
  | assign (head : ℕ) (pc : AssignPc)
  /-- Store the new head. -/
  | storeHead (head : ℕ) (result : WriteResult)
  deriving DecidableEq, Repr

/-- The producer thread between and inside calls. -/
inductive Producer
  | idle
  | running (payload : List Byte) (pc : PushPc)
  deriving DecidableEq, Repr

/-- Program points of `try_pop`, with the local `tail`. -/
inductive PopPc
  /-- Load the own counter. -/
  | loadTail
  /-- Load the counter of the producer and test for a message. -/
  | loadHead (tail : ℕ)
  /-- Inside `copy_to` of the slot. -/
  | copy (tail : ℕ) (pc : CopyPc)
  /-- Store the new tail. -/
  | storeTail (tail : ℕ) (result : ReadResult)
  deriving DecidableEq, Repr

/-- The consumer thread between and inside calls. -/
inductive Consumer
  | idle
  | running (original destination : List Byte) (pc : PopPc)
  deriving DecidableEq, Repr

/-- The two boolean observers. -/
inductive Question
  | empty
  | full
  deriving DecidableEq, Repr

/-- An observing thread; `headFirst` is the evaluation order of its loads. -/
inductive Observer
  | idle
  | first (question : Question) (headFirst : Bool)
  | second (question : Question) (headFirst : Bool) (loaded : ℕ)
  | returned (question : Question) (answer : Bool)
  deriving DecidableEq, Repr

/-- Shared memory, local variables and the log of completed calls. -/
structure State (ι : Type) (N : ℕ) where
  /-- Message slots; only indices below the capacity are used. -/
  slots : ℕ → FixedMessage N
  /-- Atomic `head_`, written by the producer only. -/
  head : ℕ
  /-- Atomic `tail_`, written by the consumer only. -/
  tail : ℕ
  /-- The producer thread. -/
  producer : Producer
  /-- The consumer thread. -/
  consumer : Consumer
  /-- Observing threads by name. -/
  observer : ι → Observer
  /-- Completed pushes and pops, oldest first. -/
  log : List Event

/-- A scheduled step. -/
inductive Action (ι : Type)
  | callPush (payload : List Byte)
  | push
  | callPop (destination : List Byte)
  | pop
  | callObserver (i : ι) (question : Question) (headFirst : Bool)
  | observe (i : ι)

/-- The constructed queue. -/
def init (ι : Type) (N : ℕ) : State ι N where
  slots := fun _ => .initial N
  head := 0
  tail := 0
  producer := .idle
  consumer := .idle
  observer := fun _ => .idle
  log := []

variable {ι : Type} {N : ℕ}

/-- The producer returns. -/
def State.returnPush (s : State ι N) (payload : List Byte) (result : WriteResult) : State ι N :=
  {s with producer := .idle, log := s.log++[.push payload result]}

/-- The consumer returns. -/
def State.returnPop (s : State ι N) (original destination : List Byte) (result : ReadResult) :
    State ι N :=
  {s with consumer := .idle, log := s.log++[.pop original destination result]}

/-- Entry of `try_push`: oversized payloads return before any access. -/
def enterPush (s : State ι N) (payload : List Byte) : State ι N :=
  if N<payload.length then s.returnPush payload ⟨.messageTooLarge,0⟩
  else {s with producer := .running payload .loadHead}

/-- Program point after an access of `assign`, or after its early return. -/
def afterAssign (head : ℕ) : Progress AssignPc WriteResult → PushPc
  | .running pc => .assign head pc
  | .finished result => .storeHead head result

/-- One access of `try_push`. -/
def stepPush (q : Ring) (s : State ι N) (payload : List Byte) : PushPc → State ι N
  | .loadHead => {s with producer := .running payload (.loadTail s.head)}
  | .loadTail head =>
    if subWord head s.tail=q.capacity then s.returnPush payload ⟨.full,0⟩
    else {s with
      producer := .running payload (afterAssign head (assignEnter N payload (head+1)))}
  | .assign head pc =>
    let access := assignStep payload (head+1) (s.slots (head%q.capacity)) pc
    {s with
      slots := update s.slots (head%q.capacity) access.1
      producer := .running payload (afterAssign head access.2)}
  | .storeHead head result => {s with head := head+1}.returnPush payload result

/-- Continue after an access of `copy_to`; only a success stores the tail. -/
def afterCopy (s : State ι N) (original destination : List Byte) (tail : ℕ) :
    Progress CopyPc ReadResult → State ι N
  | .running pc => {s with consumer := .running original destination (.copy tail pc)}
  | .finished result =>
    if ok result.status then
      {s with consumer := .running original destination (.storeTail tail result)}
    else s.returnPop original destination result

/-- One access of `try_pop`. -/
def stepPop (q : Ring) (s : State ι N) (original destination : List Byte) : PopPc → State ι N
  | .loadTail => {s with consumer := .running original destination (.loadHead s.tail)}
  | .loadHead tail =>
    if tail=s.head then s.returnPop original destination ⟨.empty,0,0⟩
    else {s with consumer := .running original destination (.copy tail .loadSize)}
  | .copy tail pc =>
    let access := copyStep (s.slots (tail%q.capacity)) destination pc
    afterCopy s original access.1 tail access.2
  | .storeTail tail result => {s with tail := tail+1}.returnPop original destination result

/-- Answer of an observer from its two loaded counters. -/
def answer (q : Ring) (head tail : ℕ) : Question → Bool
  | .empty => head=tail
  | .full => subWord head tail=q.capacity

/-- One access of an observer. -/
def stepObserver (q : Ring) (s : State ι N) : Observer → Option Observer
  | .first question headFirst =>
    some (.second question headFirst (if headFirst then s.head else s.tail))
  | .second question headFirst loaded =>
    some (.returned question
      (if headFirst then answer q loaded s.tail question else answer q s.head loaded question))
  | _ => none

/-- One scheduled step of the whole system. -/
def step (q : Ring) [DecidableEq ι] (s : State ι N) : Action ι → Option (State ι N)
  | .callPush payload =>
    match s.producer with
    | .idle => some (enterPush s payload)
    | _ => none
  | .push =>
    match s.producer with
    | .running payload pc => some (stepPush q s payload pc)
    | _ => none
  | .callPop destination =>
    match s.consumer with
    | .idle => some {s with consumer := .running destination destination .loadTail}
    | _ => none
  | .pop =>
    match s.consumer with
    | .running original destination pc => some (stepPop q s original destination pc)
    | _ => none
  | .callObserver i question headFirst =>
    match s.observer i with
    | .idle => some {s with observer := update s.observer i (.first question headFirst)}
    | _ => none
  | .observe i =>
    (stepObserver q s (s.observer i)).map fun next =>
      {s with observer := update s.observer i next}

section Outcomes

variable {q : Ring} {s : State ι N}

/-- What an access of the producer leaves alone, and how it goes on. -/
theorem stepPush_outcome (payload : List Byte) (pc : PushPc) :
    (stepPush q s payload pc).consumer=s.consumer ∧
    (stepPush q s payload pc).observer=s.observer ∧
    ((∃ pc',(stepPush q s payload pc).producer=.running payload pc' ∧
        (stepPush q s payload pc).log=s.log) ∨
      ∃ result,(stepPush q s payload pc).producer=.idle ∧
        (stepPush q s payload pc).log=s.log++[.push payload result]) := by
  cases pc with
  | loadHead => exact ⟨rfl,rfl,.inl ⟨_,rfl,rfl⟩⟩
  | loadTail head =>
    simp only [stepPush]
    split_ifs
    · exact ⟨rfl,rfl,.inr ⟨_,rfl,rfl⟩⟩
    · exact ⟨rfl,rfl,.inl ⟨_,rfl,rfl⟩⟩
  | assign head pc => exact ⟨rfl,rfl,.inl ⟨_,rfl,rfl⟩⟩
  | storeHead head result => exact ⟨rfl,rfl,.inr ⟨_,rfl,rfl⟩⟩

/-- What an access of the consumer leaves alone, and how it goes on. -/
theorem stepPop_outcome (original destination : List Byte) (pc : PopPc) :
    (stepPop q s original destination pc).producer=s.producer ∧
    (stepPop q s original destination pc).observer=s.observer ∧
    ((∃ destination' pc',
        (stepPop q s original destination pc).consumer=.running original destination' pc' ∧
        (stepPop q s original destination pc).log=s.log) ∨
      ∃ destination' result,(stepPop q s original destination pc).consumer=.idle ∧
        (stepPop q s original destination pc).log=s.log++[.pop original destination' result]) := by
  cases pc with
  | loadTail => exact ⟨rfl,rfl,.inl ⟨_,_,rfl,rfl⟩⟩
  | loadHead tail =>
    simp only [stepPop]
    split_ifs
    · exact ⟨rfl,rfl,.inr ⟨_,_,rfl,rfl⟩⟩
    · exact ⟨rfl,rfl,.inl ⟨_,_,rfl,rfl⟩⟩
  | copy tail pc =>
    simp only [stepPop]
    cases (copyStep (s.slots (tail%q.capacity)) destination pc).2 with
    | running pc' => exact ⟨rfl,rfl,.inl ⟨_,_,rfl,rfl⟩⟩
    | finished result =>
      simp only [afterCopy]
      split_ifs
      · exact ⟨rfl,rfl,.inl ⟨_,_,rfl,rfl⟩⟩
      · exact ⟨rfl,rfl,.inr ⟨_,_,rfl,rfl⟩⟩
  | storeTail tail result => exact ⟨rfl,rfl,.inr ⟨_,_,rfl,rfl⟩⟩

end Outcomes

/-- The queue under every interleaving of its threads. -/
def system (q : Ring) (ι : Type) [DecidableEq ι] (N : ℕ) : System (State ι N) (Action ι) where
  init := init ι N
  step := step q

end Line64.SpscModel
